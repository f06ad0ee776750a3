import IronMem.Capture
import IronMem.JsonLossless
import IronMem.RestoreSpec
import IronMem.SourceSpans
import IronMem.Visibility

/-!
# Expanding chunks

`expansion::retrieve_chunk` reads the bytes a chunk of a memory cites. What it cuts out of
the stored transcript is what the chunk was made from.

Three things have to meet. The transcript is stored, under its hash, by
`store_session_transcript` (`storedTranscript`); the chunks are inserted by
`persist_memory_skim`, each with the span that `source_span` found for it
(`SkimArgs.sourceSpan_spec`); and `retrieve_chunk` takes the row, loads the original and
cuts. `Skimmed` collects what is known of the database once the first two have run, and
`retrieveChunk_cited` is the cut alone: a chunk that cites a span of what is loaded expands to
the text of the span.

A blob that is not the memory's own may be a checkpoint that a chunk must not open. What
`create` stores is a JSON object and a transcript is not, so the two never share a hash
(`transcript_not_checkpoint`).

The chunk of an observation expands to its section, byte for byte (`Skimmed.observation`). The
chunk of a fact or a procedure expands to evidence for it in the sense of `IsEvidence`
(`Skimmed.item`), if a span was found; without one the whole transcript is returned
(`MemoryChunk.cited`). The digest has to tell contents apart, and that the stored transcript
loads is taken from the store of originals.
-/

namespace IronMem

open Fallible Tiling

/-! ## Reading a chunk -/

structure MemoryChunk where
  id : Int
  chunkId : String
  project : String
  memoryId : Int
  sessionId : String
  ordinal : Int
  density : String
  kind : String
  title : String
  summary : String
  sourceHash : Option String
  sourceStart : Option Int
  sourceEnd : Option Int
  tokenEstimate : Int
  createdAt : Int
deriving DecidableEq, Repr

/-- `memory_chunk_from_row`. -/
def MemoryChunk.ofRow (r : Record) : MemoryChunk where
  id := (r.integer "id").getD 0
  chunkId := (r.text "chunk_id").getD ""
  project := (r.text "project").getD ""
  memoryId := (r.integer "memory_id").getD 0
  sessionId := (r.text "session_id").getD ""
  ordinal := (r.integer "ordinal").getD 0
  density := (r.text "density").getD ""
  kind := (r.text "kind").getD ""
  title := (r.text "title").getD ""
  summary := (r.text "summary").getD ""
  sourceHash := r.text "source_hash"
  sourceStart := r.integer "source_start"
  sourceEnd := r.integer "source_end"
  tokenEstimate := (r.integer "token_estimate").getD 0
  createdAt := (r.integer "created_at").getD 0

namespace Database

/-- The row with this chunk id. -/
def chunkRow (db : Database) (chunkId : String) : Option Record :=
  (db.table "memory_chunks").find? fun r => r.col "chunk_id" = .str chunkId

/-- `get_memory_chunk`. -/
def getMemoryChunk (db : Database) (chunkId : String) : Option MemoryChunk :=
  (db.chunkRow chunkId).map MemoryChunk.ofRow

/-- `ensure_source_object`. -/
def ensureSourceObject (db : Database) (hash : String) : Except String Unit :=
  ensure (!db.checkpointObjects.contains hash)
    "checkpoint content requires explicit snapshot export"

end Database

/-- `String::from_utf8_lossy`. -/
def fromUtf8Lossy (bytes : Bytes) : String := String.ofList (Utf8.decode bytes)

structure ExpandedOriginal where
  hash : Option String
  bytes : Nat
  original : String
  chunkId : Option String
  memoryId : Option Int
  sourceStart : Option Int := none
  sourceEnd : Option Int := none
deriving DecidableEq, Repr

/-- A blob as it is, for a chunk. -/
def MemoryChunk.whole (chunk : MemoryChunk) (hash : String) (bytes : Bytes) : ExpandedOriginal where
  hash := some hash
  bytes := bytes.length
  original := fromUtf8Lossy bytes
  chunkId := some chunk.chunkId
  memoryId := some chunk.memoryId

/-- The range a chunk cites, where the blob has it, else the blob. -/
def MemoryChunk.cited (chunk : MemoryChunk) (hash : String) (bytes : Bytes) : ExpandedOriginal :=
  match chunk.sourceStart, chunk.sourceEnd with
  | some start, some stop =>
      let start := max start 0
      let stop := (max stop start).toNat
      let slice := Cut.slice bytes ⟨start.toNat, stop - start.toNat⟩
      if stop ≤ bytes.length then
        { hash := some hash
          bytes := slice.length
          original := fromUtf8Lossy slice
          chunkId := some chunk.chunkId
          memoryId := some chunk.memoryId
          sourceStart := chunk.sourceStart
          sourceEnd := chunk.sourceEnd }
      else chunk.whole hash bytes
  | _, _ => chunk.whole hash bytes

/-- `retrieve_chunk`. -/
def retrieveChunk (codec : Codec) (db : Database) (chunkId : String) :
    Except String ExpandedOriginal :=
  match db.getMemoryChunk chunkId with
  | none => .error ("memory chunk not found: " ++ chunkId)
  | some chunk =>
      match chunk.sourceHash with
      | some hash => do
          db.ensureSourceObject hash
          let bytes ← loadBlob codec db hash
          return chunk.cited hash bytes
      | none =>
          match db.getMemorySessionBlob chunk.memoryId with
          | some hash => do
              let bytes ← loadBlob codec db hash
              return chunk.whole hash bytes
          | none =>
              return {
                hash := none
                bytes := byteLen chunk.summary
                original := chunk.summary
                chunkId := some chunk.chunkId
                memoryId := some chunk.memoryId }

/-! ## What was stored is found

Chunk ids are unique in the table, and an insertion that would repeat one fails. So a row that
was inserted is the one that a lookup finds, and it stays so through the later insertions. -/

variable {db db' : Database} {autoId : List Record → Int} {now : Int}

theorem fromUtf8Lossy_utf8 (s : String) : fromUtf8Lossy (utf8 s) = s := by
  rw [fromUtf8Lossy, utf8_eq, Utf8.decode_encode, String.ofList_toList]

theorem row_chunkId (c : NewMemoryChunk) (id now : Int) :
    (c.row id now).col "chunk_id" = .str c.chunkId := by
  simp [NewMemoryChunk.row, jsonObject]

theorem insertMemoryChunk_ok {c : NewMemoryChunk} (h : insertMemoryChunk autoId now db c = .ok db') :
    db.chunkRow c.chunkId = none ∧
      ∃ id, db' = db.insertRow "memory_chunks" (c.row id now) := by
  obtain ⟨_, hcheck, h⟩ := bind_eq_ok.mp h
  refine ⟨?_, _, (pure_eq_ok.mp h).symm⟩
  rw [Database.chunkRow, List.find?_eq_none]
  intro old hold hkey
  have hfree := (checkRow_ok hcheck).2.1 [.column "chunk_id"] (by simp [schema]) old hold
  rw [decide_eq_true_eq] at hkey
  rw [Bool.eq_false_iff, ne_eq, collides_eq_true] at hfree
  refine hfree ⟨_, keyOf_column (by rw [hkey]; simp), ?_⟩
  rw [hkey, ← row_chunkId c (autoId (db.table "memory_chunks")) now]
  exact keyOf_column (by rw [row_chunkId]; simp)

/-- The new row is found, and what was found before still is. -/
theorem chunkRow_insertRow {c : NewMemoryChunk} (hfree : db.chunkRow c.chunkId = none) (id : Int) :
    (db.insertRow "memory_chunks" (c.row id now)).chunkRow c.chunkId = some (c.row id now) ∧
      ∀ key row, db.chunkRow key = some row →
        (db.insertRow "memory_chunks" (c.row id now)).chunkRow key = some row := by
  refine ⟨?_, fun key row hrow => ?_⟩
  · rw [Database.chunkRow, Database.table_insertRow, if_pos rfl, List.find?_append]
    rw [Database.chunkRow] at hfree
    rw [hfree, Option.none_or, List.find?_singleton, row_chunkId, if_pos (by simp)]
  · rw [Database.chunkRow, Database.table_insertRow, if_pos rfl, List.find?_append]
    rw [Database.chunkRow] at hrow
    rw [hrow]
    rfl

theorem insertMemoryChunks_ok {chunks : List NewMemoryChunk}
    (h : chunks.foldlM (insertMemoryChunk autoId now) db = .ok db') :
    (∀ c ∈ chunks, ∃ id, db'.chunkRow c.chunkId = some (c.row id now)) ∧
      ∀ key row, db.chunkRow key = some row → db'.chunkRow key = some row := by
  induction chunks generalizing db with
  | nil =>
      obtain rfl := foldlM_nil_eq_ok.mp h
      exact ⟨fun c hc => absurd hc List.not_mem_nil, fun key row hrow => hrow⟩
  | cons c chunks ih =>
      obtain ⟨t, ht, h⟩ := foldlM_cons_eq_ok.mp h
      obtain ⟨hfree, id, rfl⟩ := insertMemoryChunk_ok ht
      obtain ⟨hnew, hold⟩ := chunkRow_insertRow hfree id
      obtain ⟨hchunks, hkept⟩ := ih h
      refine ⟨fun c' hc' => ?_, fun key row hrow => hkept key row (hold key row hrow)⟩
      rcases List.mem_cons.mp hc' with rfl | hc'
      · exact ⟨id, hkept _ _ hnew⟩
      · exact hchunks c' hc'

theorem insertMemoryChunks_frame {chunks : List NewMemoryChunk}
    (h : chunks.foldlM (insertMemoryChunk autoId now) db = .ok db') :
    db'.checkpointObjects = db.checkpointObjects ∧ db'.blobs = db.blobs := by
  refine foldlM_induction
    (p := fun s : Database => s.checkpointObjects = db.checkpointObjects ∧ s.blobs = db.blobs) h
    (fun s c s' _ hs hstep => ?_) ⟨rfl, rfl⟩
  obtain ⟨-, id, rfl⟩ := insertMemoryChunk_ok hstep
  exact hs

/-! ## Distinct observations have chunks

That all chunks can be inserted is a fact about their ids: the four kinds of chunks have ids
that begin differently, and within a kind they are numbered or named after an observation. -/

theorem not_collides {key : String} {a r : Record} (hnull : r.col key ≠ .null)
    (hne : a.col key ≠ r.col key) : collides [.column key] a r = false := by
  rw [Bool.eq_false_iff, ne_eq, collides_eq_true]
  rintro ⟨k, ha, hr⟩
  rw [keyOf_column hnull] at hr
  by_cases hanull : a.col key = .null
  · simp [keyOf, KeyPart.value, hanull] at ha
  · rw [keyOf_column hanull, ← hr] at ha
    exact hne (List.cons.inj (Option.some.inj ha)).1

theorem insertMemoryChunk_of_free {c : NewMemoryChunk}
    (hid : ∀ r ∈ db.table "memory_chunks", r.col "id" ≠ .int (autoId (db.table "memory_chunks")))
    (hchunk : ∀ r ∈ db.table "memory_chunks", r.col "chunk_id" ≠ .str c.chunkId) :
    ∃ id, insertMemoryChunk autoId now db c = .ok (db.insertRow "memory_chunks" (c.row id now)) := by
  refine ⟨autoId (db.table "memory_chunks"), ?_⟩
  have hrow : (c.row (autoId (db.table "memory_chunks")) now).col "id"
      = .int (autoId (db.table "memory_chunks")) := by simp [NewMemoryChunk.row, jsonObject]
  have hcheck : checkRow db "memory_chunks" (c.row (autoId (db.table "memory_chunks")) now) = .ok () := by
    have hnull : ((schema "memory_chunks").notNull.all fun f =>
        !((c.row (autoId (db.table "memory_chunks")) now).col f).isNull) = true := by
      simp [schema, NewMemoryChunk.row, jsonObject, Value.isNull]
    have hunique : ((schema "memory_chunks").unique.all fun parts =>
        (db.table "memory_chunks").all fun old =>
          !collides parts old (c.row (autoId (db.table "memory_chunks")) now)) = true := by
      rw [List.all_eq_true]
      intro parts hparts
      rw [List.all_eq_true]
      intro old hold
      rw [Bool.not_eq_true']
      rcases List.mem_cons.mp hparts with rfl | hparts
      · exact not_collides (by rw [hrow]; simp) (by rw [hrow]; exact hid old hold)
      · obtain rfl := List.mem_singleton.mp hparts
        exact not_collides (by rw [row_chunkId]; simp) (by rw [row_chunkId]; exact hchunk old hold)
    rw [checkRow, hnull, hunique]
    rfl
  rw [insertMemoryChunk, hcheck]
  rfl

/-- Chunks with different ids are all stored. -/
theorem insertMemoryChunks_of_free {chunks : List NewMemoryChunk}
    (hauto : ∀ rows, ∀ r ∈ rows, Record.col r "id" ≠ .int (autoId rows))
    (hnodup : (chunks.map NewMemoryChunk.chunkId).Nodup)
    (hfree : ∀ c ∈ chunks, ∀ r ∈ db.table "memory_chunks", r.col "chunk_id" ≠ .str c.chunkId) :
    ∃ db', chunks.foldlM (insertMemoryChunk autoId now) db = .ok db' := by
  induction chunks generalizing db with
  | nil => exact ⟨db, rfl⟩
  | cons c chunks ih =>
      obtain ⟨hhead, htail⟩ := List.forall_mem_cons.mp hfree
      rw [List.map_cons, List.nodup_cons] at hnodup
      obtain ⟨id, hinsert⟩ : ∃ id, insertMemoryChunk autoId now db c
          = .ok (db.insertRow "memory_chunks" (c.row id now)) :=
        insertMemoryChunk_of_free (hauto _) hhead
      have hlater : ∀ c' ∈ chunks, ∀ r ∈ (db.insertRow "memory_chunks" (c.row id now)).table
          "memory_chunks", r.col "chunk_id" ≠ .str c'.chunkId := by
        intro c' hc' r hr
        rw [Database.table_insertRow, if_pos rfl] at hr
        rcases List.mem_append.mp hr with hr | hr
        · exact htail c' hc' r hr
        · rw [List.mem_singleton.mp hr, row_chunkId]
          intro heq
          exact hnodup.1 (Value.str.inj heq ▸ List.mem_map_of_mem hc')
      obtain ⟨db', hrest⟩ := ih hnodup.2 hlater
      exact ⟨db', foldlM_cons_eq_ok.mpr ⟨_, hinsert, hrest⟩⟩

/-- The ends of the chunk ids of a memory. -/
def SkimArgs.suffixes (args : SkimArgs) : List String :=
  "overview" :: (args.result.facts.zipIdx.map (fun e => "fact:" ++ toString (e.2 + 1)) ++
    args.result.procedures.zipIdx.map (fun e => "procedure:" ++ toString (e.2 + 1)) ++
    args.sections.map fun t => "obs:" ++ toString t.observationId)

theorem chunkIds_eq (u : Unicode) (args : SkimArgs) :
    (args.chunks u).map NewMemoryChunk.chunkId = args.suffixes.map args.chunkId := by
  have hsections : args.sections.zipIdx.map (NewMemoryChunk.chunkId ∘ args.observationChunk)
      = args.sections.map (args.chunkId ∘ fun t => "obs:" ++ toString t.observationId) := by
    have hfst := congrArg
      (List.map (args.chunkId ∘ fun t : TranscriptSection => "obs:" ++ toString t.observationId))
      (List.zipIdx_map_fst 0 args.sections)
    rwa [List.map_map] at hfst
  rw [SkimArgs.chunks, SkimArgs.suffixes]
  simp only [List.map_cons, List.map_append, List.map_map]
  rw [hsections]
  rfl

theorem nodup_numbered (pre : String) (items : List String) :
    (items.zipIdx.map fun e => pre ++ toString (e.2 + 1)).Nodup := by
  have hinj : Function.Injective fun n : Nat => pre ++ toString (n + 1) := fun m n h =>
    Nat.succ.inj (Nat.repr_injective ((String.append_right_inj pre).mp h))
  have h := (List.nodup_zipIdx_map_snd items).map hinj
  rwa [List.map_map] at h

theorem suffixes_nodup {args : SkimArgs} (hids : (args.observations.map Observation.id).Nodup) :
    args.suffixes.Nodup := by
  have hobs : (args.sections.map fun t => "obs:" ++ toString t.observationId).Nodup := by
    have hinj : Function.Injective fun n : Int => "obs:" ++ toString n := fun m n h =>
      Int.repr_injective ((String.append_right_inj "obs:").mp h)
    have hsections : (args.sections.map TranscriptSection.observationId).Nodup := by
      rw [SkimArgs.sections, SkimArgs.transcript]
      split
      · rw [Option.map_some, Option.getD_some,
          (buildTranscriptWithSections_partition args.observations).ids]
        exact hids
      · exact List.nodup_nil
    have h := hsections.map hinj
    rwa [List.map_map] at h
  -- the four kinds of ends differ in their first two characters
  have hstart : ∀ (pre : String), 2 ≤ pre.toList.length → ∀ {α : Type} (l : List α) (f : α → String),
      ∀ x ∈ l.map (fun a => pre ++ f a), x.toList.take 2 = pre.toList.take 2 := by
    intro pre hpre α l f x hx
    obtain ⟨a, -, rfl⟩ := List.mem_map.mp hx
    rw [String.toList_append, List.take_append_of_le_length hpre]
  have hfacts := hstart "fact:" (by decide) args.result.facts.zipIdx fun e => toString (e.2 + 1)
  have hprocedures := hstart "procedure:" (by decide) args.result.procedures.zipIdx
    fun e => toString (e.2 + 1)
  have hsections := hstart "obs:" (by decide) args.sections fun t => toString t.observationId
  rw [SkimArgs.suffixes, List.nodup_cons, List.nodup_append, List.nodup_append]
  refine ⟨fun h => ?_, ⟨nodup_numbered _ _, nodup_numbered _ _, fun x hx y hy heq => ?_⟩, hobs,
    fun x hx y hy heq => ?_⟩
  · rcases List.mem_append.mp h with h | h
    · rcases List.mem_append.mp h with h | h
      · exact absurd (hfacts _ h) (by decide)
      · exact absurd (hprocedures _ h) (by decide)
    · exact absurd (hsections _ h) (by decide)
  · subst heq
    exact absurd ((hfacts x hx).symm.trans (hprocedures x hy)) (by decide)
  · subst heq
    rcases List.mem_append.mp hx with hx | hx
    · exact absurd ((hfacts x hx).symm.trans (hsections x hy)) (by decide)
    · exact absurd ((hprocedures x hx).symm.trans (hsections x hy)) (by decide)

/-- The chunks of distinct observations are stored, where the ids are fresh and no other memory
uses the chunk ids. -/
theorem persistMemorySkim_succeeds (u : Unicode) {args : SkimArgs}
    (hauto : ∀ rows, ∀ r ∈ rows, Record.col r "id" ≠ .int (autoId rows))
    (hids : (args.observations.map Observation.id).Nodup)
    (hothers : ∀ r ∈ db.table "memory_chunks", r.col "memory_id" ≠ .int args.memoryId →
      ∀ c ∈ args.chunks u, r.col "chunk_id" ≠ .str c.chunkId) :
    ∃ db', persistMemorySkim u autoId now args db = .ok db' := by
  have hinj : Function.Injective args.chunkId := fun a b h => (String.append_right_inj _).mp h
  refine insertMemoryChunks_of_free hauto ?_ fun c hc r hr => ?_
  · rw [chunkIds_eq]
    exact (suffixes_nodup hids).map hinj
  · rw [Database.table_deleteRows, if_pos rfl, List.mem_filter, Bool.not_eq_true',
      decide_eq_false_iff_not] at hr
    exact hothers r hr.1 hr.2 c hc

/-! ## Storing the transcript

The transcript is stored by `store_session_transcript` in whatever format the store plans. Of
the call it matters which hash it returns and that it touches no checkpoint. -/

theorem buildTranscript_ne_empty {os : List Observation} (h : os ≠ []) : buildTranscript os ≠ "" := by
  cases os with
  | nil => exact absurd rfl h
  | cons o os =>
      obtain ⟨post, hpost⟩ := transcriptFrom_isPrefix ("" ++ o.section) os
      intro hempty
      have hsplit : buildTranscript (o :: os) = "" ++ o.section ++ post := hpost
      have hlen := congrArg byteLen (hsplit.symm.trans hempty)
      have hpos := byteLen_section_pos o
      have hnone : byteLen "" = 0 := rfl
      rw [byteLen_append, byteLen_append, hnone] at hlen
      omega

section Store

variable {codec : Codec} {plan : StorePlan} {bytes : Bytes}

theorem storeChunked_ok {r : String} (h : storeChunked codec bytes db = .ok (r, db')) :
    r = codec.digest bytes ∧ db'.checkpointObjects = db.checkpointObjects := by
  obtain ⟨_, _, h⟩ := bind_eq_ok.mp h
  dsimp only at h
  split at h
  · obtain ⟨rfl, rfl⟩ := Prod.mk.inj (pure_eq_ok.mp h)
    exact ⟨rfl, rfl⟩
  · obtain ⟨_, hchunks, h⟩ := bind_eq_ok.mp h
    obtain ⟨rfl, rfl⟩ := Prod.mk.inj (pure_eq_ok.mp h)
    refine ⟨rfl, ?_⟩
    refine foldlM_induction (p := fun s : Database => s.checkpointObjects = db.checkpointObjects)
      hchunks (fun s piece s' _ hs hstep => ?_) rfl
    obtain ⟨_, -, hstep⟩ := bind_eq_ok.mp hstep
    rw [← pure_eq_ok.mp hstep]
    exact hs

theorem storeBlob_ok {r : String} (h : (storeBlob codec plan bytes).run Proc.noFault db = (.ok r, db')) :
    r = codec.digest bytes ∧ db'.checkpointObjects = db.checkpointObjects := by
  cases plan with
  | floor =>
      obtain ⟨rfl, rfl⟩ := Prod.mk.inj (Except.ok.inj (Proc.run_exec_ok h))
      exact ⟨rfl, rfl⟩
  | dict dictHash =>
      obtain ⟨_, s, hdict, h⟩ := Proc.run_bind_ok h
      obtain ⟨-, rfl⟩ := Prod.mk.inj (Except.ok.inj (Proc.run_exec_ok hdict))
      obtain ⟨rfl, rfl⟩ := Prod.mk.inj (Except.ok.inj (Proc.run_exec_ok h))
      exact ⟨rfl, rfl⟩
  | chunked => exact storeChunked_ok (Proc.run_exec_ok h)

theorem storeSessionTranscript_ok {id : Int} {observations : List Observation}
    {hash : Option String}
    (h : (storeSessionTranscript codec plan id observations).run Proc.noFault db = (.ok hash, db')) :
    hash = (if buildTranscript observations = "" then none
      else some (codec.digest (utf8 (buildTranscript observations)))) ∧
    db'.checkpointObjects = db.checkpointObjects := by
  rw [storeSessionTranscript] at h
  split at h
  · next hempty =>
      obtain ⟨hhash, rfl⟩ := Prod.mk.inj h
      rw [if_pos hempty]
      exact ⟨(Except.ok.inj hhash).symm, rfl⟩
  · next hnonempty =>
      obtain ⟨r, s, hstore, h⟩ := Proc.run_bind_ok h
      obtain ⟨_, s', hset, h⟩ := Proc.run_bind_ok h
      obtain ⟨-, rfl⟩ := Prod.mk.inj (Except.ok.inj (Proc.run_exec_ok hset))
      obtain ⟨hhash, rfl⟩ := Prod.mk.inj h
      obtain ⟨rfl, hobjects⟩ := storeBlob_ok hstore
      rw [if_neg hnonempty]
      exact ⟨(Except.ok.inj hhash).symm, hobjects⟩

/-- What is there after a new transcript was stored in the compressed format. -/
def storedTranscript (codec : Codec) (id : Int) (observations : List Observation) (db : Database) :
    Database :=
  let bytes := utf8 (buildTranscript observations)
  attachSessionBlob id (codec.digest bytes)
    (insertBlob (codec.digest bytes)
      { original := bytes, compLen := codec.compressedLen bytes, refcount := 1 } db)

theorem storeSessionTranscript_floor (codec : Codec) (id : Int) {observations : List Observation}
    (h : observations ≠ []) (db : Database) :
    (storeSessionTranscript codec .floor id observations).run Proc.noFault db
      = (.ok (some (codec.digest (utf8 (buildTranscript observations)))),
        storedTranscript codec id observations db) := by
  rw [storeSessionTranscript, if_neg (buildTranscript_ne_empty h)]
  rfl

theorem storedTranscript_blob (codec : Codec) (id : Int) (observations : List Observation) :
    (storedTranscript codec id observations {}).blobs[
        codec.digest (utf8 (buildTranscript observations))]?
      = some { original := utf8 (buildTranscript observations)
               compLen := codec.compressedLen (utf8 (buildTranscript observations))
               refcount := 1 } := by
  rw [storedTranscript, attachSessionBlob, Database.blobs_updateRows, insertBlob,
    Std.ExtTreeMap.getElem?_insert_self]
  rfl

theorem loadBlob_stored (codec : Codec) {compLen refcount : Int}
    (h : db.blobs[codec.digest bytes]? = some ⟨bytes, compLen, refcount, .zstd⟩) :
    loadBlob codec db (codec.digest bytes) = .ok bytes := by
  have hsame : (codec.digest bytes == codec.digest bytes) = true := beq_self_eq_true _
  rw [loadBlob, h]
  exact bind_eq_ok.mpr ⟨bytes, rfl, bind_eq_ok.mpr ⟨(), ensure_eq_ok.mpr hsame, rfl⟩⟩

end Store

/-! ## Checkpoints

A chunk must not open a checkpoint, so `retrieve_chunk` refuses a hash that is listed as one.
Were a transcript stored under such a hash, its chunks could not be expanded; it never is. -/

/-- A checkpoint is stored as a JSON object. -/
def CheckpointsAreObjects (codec : Codec) (db : Database) : Prop :=
  ∀ hash ∈ db.checkpointObjects, ∃ bytes : Bytes, bytes.head? = some 0x7B ∧ hash = codec.digest bytes

theorem mem_insertNew {α : Type} [DecidableEq α] {a b : α} {l : List α} (h : b ∈ insertNew a l) :
    b = a ∨ b ∈ l := by
  rw [insertNew] at h
  split at h
  · exact .inr h
  · rcases List.mem_append.mp h with h | h
    · exact .inr h
    · exact .inl (List.mem_singleton.mp h)

/-- `create` keeps that. -/
theorem CheckpointsAreObjects.create {codec : Codec}
    (hvec : ∀ e, (codec.envelopeToVec e).head? = some 0x7B) {args : CreateArgs}
    {snap : BrainSnapshot} (hdb : CheckpointsAreObjects codec db)
    (h : create codec args db = .ok (snap, db')) : CheckpointsAreObjects codec db' := by
  obtain ⟨state, -, h⟩ := bind_eq_ok.mp h
  obtain ⟨envelope, -, h⟩ := bind_eq_ok.mp h
  obtain ⟨_, -, h⟩ := bind_eq_ok.mp h
  obtain ⟨_, -, h⟩ := bind_eq_ok.mp h
  obtain ⟨-, rfl⟩ := Prod.mk.inj (pure_eq_ok.mp h)
  intro hash hmem
  rcases mem_insertNew hmem with rfl | hmem
  · exact ⟨codec.envelopeToVec envelope, hvec envelope, rfl⟩
  · exact hdb hash hmem

/-- A transcript is no JSON object. -/
theorem transcript_not_checkpoint {codec : Codec} (hdigest : Function.Injective codec.digest)
    (hdb : CheckpointsAreObjects codec db) {observations : List Observation}
    (hnonempty : buildTranscript observations ≠ "") :
    codec.digest (utf8 (buildTranscript observations)) ∉ db.checkpointObjects := by
  intro hmem
  obtain ⟨bytes, hhead, heq⟩ := hdb _ hmem
  obtain rfl := hdigest heq
  cases observations with
  | nil => exact hnonempty rfl
  | cons o os =>
      obtain ⟨post, hpost⟩ := transcriptFrom_isPrefix ("" ++ o.section) os
      have hsplit : buildTranscript (o :: os) = "" ++ o.section ++ post := hpost
      rw [hsplit, String.empty_append, Observation.section, String.append_assoc, String.append_assoc,
        String.append_assoc, String.append_assoc, utf8_append, utf8_append] at hhead
      have hhash : utf8 "## " = [0x23, 0x23, 0x20] := by decide
      rw [hhash] at hhead
      exact absurd (Option.some.inj hhead) (by decide)

/-! ## Expansion -/

theorem ofRow_row (c : NewMemoryChunk) (id now : Int) :
    (MemoryChunk.ofRow (c.row id now)).sourceHash = c.sourceHash ∧
      (MemoryChunk.ofRow (c.row id now)).sourceStart = c.sourceStart.map Int.ofNat ∧
      (MemoryChunk.ofRow (c.row id now)).sourceEnd = c.sourceEnd.map Int.ofNat := by
  have htext : ∀ o : Option String, (Value.ofOptionStr o).asStr = o := fun o => by cases o <;> rfl
  have hcol : (c.row id now).col "source_hash" = Value.ofOptionStr c.sourceHash ∧
      (c.row id now).col "source_start" = Value.ofOption (c.sourceStart.map Int.ofNat) ∧
      (c.row id now).col "source_end" = Value.ofOption (c.sourceEnd.map Int.ofNat) := by
    simp [NewMemoryChunk.row, jsonObject]
  obtain ⟨hhash, hstart, hend⟩ := hcol
  generalize c.row id now = r at hhash hstart hend ⊢
  have hinteger : ∀ (f : String) (o : Option Int), r.col f = Value.ofOption o → r.integer f = o := by
    intro f o hf
    rw [Record.integer, hf]
    cases o <;> rfl
  refine ⟨?_, ?_, ?_⟩
  · show (r.col "source_hash").asStr = c.sourceHash
    rw [hhash, htext]
  · show r.integer "source_start" = _
    exact hinteger "source_start" _ hstart
  · show r.integer "source_end" = _
    exact hinteger "source_end" _ hend

/-- A chunk that cites a span of what is loaded expands to the text of the span. -/
theorem retrieveChunk_cited {codec : Codec} {c : NewMemoryChunk} {id : Int} {hash transcript text : String}
    {start stop : Nat} (hrow : db.chunkRow c.chunkId = some (c.row id now))
    (hhash : c.sourceHash = some hash) (hstart : c.sourceStart = some start)
    (hend : c.sourceEnd = some stop) (hsource : hash ∉ db.checkpointObjects)
    (hload : loadBlob codec db hash = .ok (utf8 transcript))
    (hspan : SpanOf transcript start stop text) :
    ∃ e, retrieveChunk codec db c.chunkId = .ok e ∧ e.original = text := by
  obtain ⟨hrowHash, hrowStart, hrowEnd⟩ := ofRow_row c id now
  rw [hhash] at hrowHash
  rw [hstart] at hrowStart
  rw [hend] at hrowEnd
  have hchunk : db.getMemoryChunk c.chunkId = some (MemoryChunk.ofRow (c.row id now)) := by
    rw [Database.getMemoryChunk, hrow]
    rfl
  generalize MemoryChunk.ofRow (c.row id now) = chunk at hchunk hrowHash hrowStart hrowEnd
  have hensure : db.ensureSourceObject hash = .ok () := by
    rw [Database.ensureSourceObject, ensure_eq_ok, Bool.not_eq_true', List.contains_eq_mem,
      decide_eq_false_iff_not]
    exact hsource
  have hretrieve : retrieveChunk codec db c.chunkId = .ok (chunk.cited hash (utf8 transcript)) := by
    rw [retrieveChunk, hchunk]
    dsimp only
    rw [hrowHash]
    dsimp only
    rw [hensure, hload]
    rfl
  obtain ⟨hfits, hslice⟩ := hspan.slice
  have hle : start ≤ stop := by
    obtain ⟨pre, post, -, rfl, rfl⟩ := hspan
    rw [byteLen_append]
    exact Nat.le_add_right _ _
  refine ⟨_, hretrieve, ?_⟩
  have hmax : (max (Int.ofNat start) 0).toNat = start := by
    rw [Int.ofNat_eq_natCast]
    omega
  have hmaxEnd : (max (Int.ofNat stop) (max (Int.ofNat start) 0)).toNat = stop := by
    rw [Int.ofNat_eq_natCast, Int.ofNat_eq_natCast]
    omega
  rw [MemoryChunk.cited, hrowStart, hrowEnd]
  dsimp only [Option.map_some]
  rw [hmaxEnd, hmax, if_pos hfits, hslice]
  exact fromUtf8Lossy_utf8 text

section Skim

variable {u : Unicode} {args : SkimArgs}

theorem SkimArgs.transcript_eq_some {t : String × List TranscriptSection} :
    args.transcript = some t ↔ (∃ hash, args.sourceHash = some hash) ∧ args.observations ≠ [] ∧
      t = (buildTranscript args.observations, sectionsFrom "" args.observations) := by
  rw [SkimArgs.transcript, buildTranscriptWithSections_eq, ← Option.isSome_iff_exists]
  split
  · next h =>
      rw [Option.some.injEq]
      exact ⟨fun heq => ⟨h.1, h.2, heq.symm⟩, fun heq => heq.2.2.symm⟩
  · next h =>
      exact ⟨fun heq => (Option.some_ne_none _ heq.symm).elim, fun heq => absurd ⟨heq.1, heq.2.1⟩ h⟩

theorem SkimArgs.sourceSpan_spec {item : String} {start stop : Nat}
    (h : args.sourceSpan u item = some (start, stop)) :
    ∃ text, SpanOf (buildTranscript args.observations) start stop text ∧
      IsEvidence u args.observations item text := by
  obtain ⟨t, ht, hspan⟩ := Option.bind_eq_some_iff.mp h
  obtain ⟨-, -, rfl⟩ := transcript_eq_some.mp ht
  exact bestSourceSpan_spec hspan

theorem mem_chunks_item {label kind title : String} {first : Nat} {items : List String} {item : String}
    {i : Nat} (hitem : items[i]? = some item)
    (hchunks : items.zipIdx.map (args.itemChunk u label kind title first) ⊆ args.chunks u) :
    args.itemChunk u label kind title first (item, i) ∈ args.chunks u :=
  hchunks (List.mem_map_of_mem (List.mem_zipIdx_iff_getElem?.mpr hitem))

theorem facts_subset_chunks :
    args.result.facts.zipIdx.map (args.factChunk u) ⊆ args.chunks u := fun _ h =>
  List.mem_cons_of_mem _ (List.mem_append_left _ (List.mem_append_left _ h))

theorem procedures_subset_chunks :
    args.result.procedures.zipIdx.map (args.procedureChunk u) ⊆ args.chunks u := fun _ h =>
  List.mem_cons_of_mem _ (List.mem_append_left _ (List.mem_append_right _ h))

theorem mem_chunks_section {t : TranscriptSection} (h : t ∈ args.sections) :
    ∃ i, args.observationChunk (t, i) ∈ args.chunks u := by
  obtain ⟨i, hi⟩ := List.mem_iff_getElem?.mp h
  exact ⟨i, List.mem_cons_of_mem _ (List.mem_append_right _
    (List.mem_map_of_mem (List.mem_zipIdx_iff_getElem?.mpr hi)))⟩

/-- What is known of a database after the transcript was stored and the chunks were made. -/
structure Skimmed (u : Unicode) (codec : Codec) (args : SkimArgs) (now : Int) (db : Database) :
    Prop where
  rows : ∀ c ∈ args.chunks u, ∃ id, db.chunkRow c.chunkId = some (c.row id now)
  source : ∀ hash, args.sourceHash = some hash → hash ∉ db.checkpointObjects
  stored : args.observations ≠ [] → ∃ hash, args.sourceHash = some hash

theorem skimmed {codec : Codec} (hdigest : Function.Injective codec.digest)
    (hdb : CheckpointsAreObjects codec db) {plan : StorePlan} {db₁ db₂ : Database}
    (hstore : (storeSessionTranscript codec plan args.memoryId args.observations).run Proc.noFault db
      = (.ok args.sourceHash, db₁))
    (hskim : persistMemorySkim u autoId now args db₁ = .ok db₂) : Skimmed u codec args now db₂ := by
  obtain ⟨hhash, hobjects⟩ := storeSessionTranscript_ok hstore
  have hkept : db₂.checkpointObjects = db.checkpointObjects :=
    (insertMemoryChunks_frame hskim).1.trans hobjects
  refine ⟨(insertMemoryChunks_ok hskim).1, fun hash hsome => ?_, fun hne => ?_⟩
  · rw [hsome] at hhash
    split at hhash
    · cases hhash
    · next hnonempty =>
        rw [hkept, Option.some.inj hhash]
        exact transcript_not_checkpoint hdigest hdb hnonempty
  · rw [if_neg (buildTranscript_ne_empty hne)] at hhash
    exact ⟨_, hhash⟩

/-- The chunk of an observation expands to its section. -/
theorem Skimmed.observation {codec : Codec} (h : Skimmed u codec args now db)
    (hload : ∀ hash, args.sourceHash = some hash →
      loadBlob codec db hash = .ok (utf8 (buildTranscript args.observations)))
    {o : Observation} (ho : o ∈ args.observations) :
    ∃ e, retrieveChunk codec db (args.chunkId ("obs:" ++ toString o.id)) = .ok e ∧
      e.original = o.section := by
  have hne : args.observations ≠ [] := List.ne_nil_of_mem ho
  obtain ⟨hash, hhash⟩ := h.stored hne
  obtain ⟨pre, post, hsplit, hmem⟩ := @exists_section "" _ _ ho
  have hsections : args.sections = sectionsFrom "" args.observations := by
    rw [SkimArgs.sections, SkimArgs.transcript_eq_some.mpr ⟨⟨hash, hhash⟩, hne, rfl⟩]
    rfl
  rw [← hsections] at hmem
  obtain ⟨i, hchunk⟩ := mem_chunks_section (u := u) hmem
  obtain ⟨id, hrow⟩ := h.rows _ hchunk
  exact retrieveChunk_cited hrow hhash rfl rfl (h.source hash hhash) (hload hash hhash)
    ⟨pre, post, hsplit, rfl, rfl⟩

/-- The chunk of a fact or a procedure cites the span that was found for it. -/
theorem Skimmed.itemChunk {codec : Codec} (h : Skimmed u codec args now db)
    {label kind title : String} {first : Nat} {items : List String} {item : String} {i : Nat}
    (hchunks : items.zipIdx.map (args.itemChunk u label kind title first) ⊆ args.chunks u)
    (hitem : items[i]? = some item) :
    ∃ chunk, db.getMemoryChunk (args.chunkId (label ++ ":" ++ toString (i + 1))) = some chunk ∧
      chunk.sourceStart = ((args.sourceSpan u item).map Prod.fst).map Int.ofNat ∧
      chunk.sourceEnd = ((args.sourceSpan u item).map Prod.snd).map Int.ofNat := by
  obtain ⟨id, hrow⟩ := h.rows _ (mem_chunks_item hitem hchunks)
  refine ⟨_, ?_,
    (ofRow_row (args.itemChunk u label kind title first (item, i)) id now).2⟩
  rw [Database.getMemoryChunk]
  exact congrArg (Option.map MemoryChunk.ofRow) hrow

/-- The chunk of a fact or a procedure with a span expands to evidence for it. -/
theorem Skimmed.item {codec : Codec} (h : Skimmed u codec args now db)
    (hload : ∀ hash, args.sourceHash = some hash →
      loadBlob codec db hash = .ok (utf8 (buildTranscript args.observations)))
    {label kind title : String} {first : Nat} {items : List String} {item : String} {i : Nat}
    (hchunks : items.zipIdx.map (args.itemChunk u label kind title first) ⊆ args.chunks u)
    (hitem : items[i]? = some item) {chunk : MemoryChunk}
    (hchunk : db.getMemoryChunk (args.chunkId (label ++ ":" ++ toString (i + 1))) = some chunk)
    (hspan : chunk.sourceStart.isSome = true) :
    ∃ e, retrieveChunk codec db (args.chunkId (label ++ ":" ++ toString (i + 1))) = .ok e ∧
      IsEvidence u args.observations item e.original := by
  obtain ⟨id, hrow⟩ := h.rows _ (mem_chunks_item hitem hchunks)
  obtain ⟨chunk', hread, hstart, -⟩ := h.itemChunk hchunks hitem
  obtain rfl := Option.some.inj (hchunk.symm.trans hread)
  rw [hstart, Option.isSome_map] at hspan
  have hsome : (args.sourceSpan u item).isSome = true := by
    have hmap : ((args.sourceSpan u item).map Prod.fst).isSome = true := hspan
    rwa [Option.isSome_map] at hmap
  obtain ⟨⟨start, stop⟩, hfound⟩ := Option.isSome_iff_exists.mp hsome
  obtain ⟨t, ht, -⟩ := Option.bind_eq_some_iff.mp hfound
  obtain ⟨⟨hash, hhash⟩, -, -⟩ := SkimArgs.transcript_eq_some.mp ht
  obtain ⟨text, hcut, hevidence⟩ := SkimArgs.sourceSpan_spec hfound
  have hcited : ∃ e, retrieveChunk codec db
      (args.itemChunk u label kind title first (item, i)).chunkId = .ok e ∧ e.original = text := by
    have hcites : (args.sourceSpan u item).bind (fun _ => args.sourceHash) = some hash ∧
        (args.sourceSpan u item).map Prod.fst = some start ∧
        (args.sourceSpan u item).map Prod.snd = some stop := by
      rw [hfound]
      exact ⟨hhash, rfl, rfl⟩
    exact retrieveChunk_cited hrow hcites.1 hcites.2.1 hcites.2.2 (h.source hash hhash)
      (hload hash hhash) hcut
  obtain ⟨e, he, horiginal⟩ := hcited
  exact ⟨e, he, horiginal ▸ hevidence⟩

/-- Expanding a chunk returns the evidence the chunk cites. -/
theorem retrieveChunk_returns_evidence (u : Unicode) {codec : Codec}
    (hdigest : Function.Injective codec.digest) (args : SkimArgs) :
    Partition args.observations (buildTranscriptWithSections args.observations).1
      (buildTranscriptWithSections args.observations).2 ∧
    ∀ (plan : StorePlan) (autoId : List Record → Int) (now : Int) (db db₁ db₂ : Database),
      CheckpointsAreObjects codec db →
      (storeSessionTranscript codec plan args.memoryId args.observations).run Proc.noFault db
        = (.ok args.sourceHash, db₁) →
      persistMemorySkim u autoId now args db₁ = .ok db₂ →
      (∀ hash, args.sourceHash = some hash →
        loadBlob codec db₂ hash = .ok (utf8 (buildTranscript args.observations))) →
      (∀ o ∈ args.observations,
        ∃ e, retrieveChunk codec db₂ (args.chunkId ("obs:" ++ toString o.id)) = .ok e ∧
          e.original = o.section) ∧
      ∀ label items, (label, items) ∈
          [("fact", args.result.facts), ("procedure", args.result.procedures)] →
        ∀ i item, items[i]? = some item → ∀ chunk,
          db₂.getMemoryChunk (args.chunkId (label ++ ":" ++ toString (i + 1))) = some chunk →
          chunk.sourceStart.isSome = true →
          ∃ e, retrieveChunk codec db₂ (args.chunkId (label ++ ":" ++ toString (i + 1))) = .ok e ∧
            IsEvidence u args.observations item e.original := by
  refine ⟨buildTranscriptWithSections_partition args.observations, ?_⟩
  intro plan autoId now db db₁ db₂ hdb hstore hskim hload
  have h := skimmed hdigest hdb hstore hskim
  refine ⟨fun o ho => h.observation hload ho, fun label items hitems i item hitem chunk hchunk hspan => ?_⟩
  rcases List.mem_cons.mp hitems with hfacts | hprocedures
  · obtain ⟨rfl, rfl⟩ := Prod.mk.inj hfacts
    exact h.item hload facts_subset_chunks hitem hchunk hspan
  · obtain ⟨rfl, rfl⟩ := Prod.mk.inj (List.mem_singleton.mp hprocedures)
    exact h.item hload procedures_subset_chunks hitem hchunk hspan

/-- One observation, and a fact that the transcript has in other letters. -/
def oneObservation : SkimArgs where
  memoryId := 1
  project := "p"
  sessionId := "s"
  result := ⟨"Read a file.", 5, "session", ["INPUT: CAT ä.txt"], none, []⟩
  observations := [⟨7, "Bash", some "cat ä.txt", none⟩]
  sourceHash := some ((jsonCodec []).digest
    (utf8 (buildTranscript [⟨7, "Bash", some "cat ä.txt", none⟩])))

/-- Alphanumeric as far as the words of the example go. -/
def latinUnicode : Unicode := ⟨fun c => c.isAlphanum || c == 'ä', toAsciiLowercase⟩

/-- The fact is found at the bytes from 8 to 25, in the letters of the transcript. -/
theorem retrieveChunk_returns_evidence_once :
    ∃ db₂, (∃ e, retrieveChunk (jsonCodec []) db₂ (oneObservation.chunkId ("obs:" ++ toString (7 : Int)))
        = .ok e ∧ e.original = "## Bash\ninput: cat ä.txt\n\n") ∧
      (∃ chunk, db₂.getMemoryChunk (oneObservation.chunkId ("fact:" ++ toString 1)) = some chunk ∧
        chunk.sourceStart = some 8 ∧ chunk.sourceEnd = some 25) ∧
      ∃ e, retrieveChunk (jsonCodec []) db₂ (oneObservation.chunkId ("fact:" ++ toString 1)) = .ok e ∧
        IsEvidence latinUnicode oneObservation.observations "INPUT: CAT ä.txt" e.original := by
  have hdigest := (jsonCodec_lossless []).digest
  obtain ⟨db₁, hdb₁⟩ : ∃ db₁, db₁ = storedTranscript (jsonCodec []) oneObservation.memoryId
    oneObservation.observations {} := ⟨_, rfl⟩
  have hstore : (storeSessionTranscript (jsonCodec []) .floor oneObservation.memoryId
      oneObservation.observations).run Proc.noFault {} = (.ok oneObservation.sourceHash, db₁) := by
    rw [hdb₁]
    exact storeSessionTranscript_floor (jsonCodec []) oneObservation.memoryId (List.cons_ne_nil _ _) {}
  have hempty : db₁.table "memory_chunks" = [] := by
    rw [hdb₁]
    rfl
  have hfresh : ∀ rows, ∀ r ∈ rows, Record.col r "id" ≠ .int (maxColumn rows "id" + 1) := by
    intro rows r hr heq
    have hle := le_maxColumn hr heq
    omega
  have hids : (oneObservation.observations.map Observation.id).Nodup := List.nodup_singleton 7
  obtain ⟨db₂, hskim⟩ : ∃ db₂, persistMemorySkim latinUnicode (fun rows => maxColumn rows "id" + 1) 0
      oneObservation db₁ = .ok db₂ :=
    persistMemorySkim_succeeds latinUnicode hfresh hids fun r hr =>
      absurd (hempty ▸ hr) List.not_mem_nil
  have hblobs : db₂.blobs = db₁.blobs := (insertMemoryChunks_frame hskim).2
  have h := (retrieveChunk_returns_evidence latinUnicode hdigest oneObservation).2 .floor
    (fun rows => maxColumn rows "id" + 1) 0 {} db₁ db₂ (fun hash hmem => absurd hmem List.not_mem_nil)
    hstore hskim fun hash hhash => by
      obtain rfl := Option.some.inj hhash
      exact loadBlob_stored (jsonCodec []) (by rw [hblobs, hdb₁]; exact storedTranscript_blob _ _ _)
  have hsection : Observation.section ⟨7, "Bash", some "cat ä.txt", none⟩
      = "## Bash\ninput: cat ä.txt\n\n" := by decide
  obtain ⟨e, hretrieved, horiginal⟩ := h.1 ⟨7, "Bash", some "cat ä.txt", none⟩ List.mem_cons_self
  have hspan : oneObservation.sourceSpan latinUnicode "INPUT: CAT ä.txt" = some (8, 25) := by
    decide +kernel
  have hitem : ["INPUT: CAT ä.txt"][0]? = some "INPUT: CAT ä.txt" := rfl
  have hskimmed := skimmed hdigest (fun hash hmem => absurd hmem List.not_mem_nil) hstore hskim
  obtain ⟨chunk, hchunk, hstart, hend⟩ := hskimmed.itemChunk facts_subset_chunks hitem
  rw [hspan] at hstart hend
  exact ⟨db₂, ⟨e, hretrieved, horiginal.trans hsection⟩, ⟨chunk, hchunk, hstart, hend⟩,
    h.2 "fact" ["INPUT: CAT ä.txt"] List.mem_cons_self 0 "INPUT: CAT ä.txt" hitem chunk hchunk
      (by rw [hstart]; rfl)⟩

end Skim

end IronMem
