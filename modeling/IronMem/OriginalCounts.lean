import IronMem.RestoreMerge
import IronMem.SnapshotRuns

/-!
# Counts and the rows they stand for

A call that writes a row naming an original adds a count for it: a metadata row with a transcript,
an observation with an output, a listed checkpoint. What each call does to the count of an
original, and to the number of rows that name it.

`Database.refs` is that number, and the lemmas come in pairs: one about `count`, one about `refs`,
for the same statement. A metadata row can be rewritten in place, which takes one name away and
brings another (`refs_attachSessionBlob`), so the tables are split around the row of the memory
(`metaRow_split`); the key of the table makes this row the only one. `CountsOne` is what a store
leaves: one count more and no row, until its caller attaches it.
-/

namespace IronMem

open Fallible

/-! ## Rows that name an original

`mentions` counts rows of one table by a column that names an original. Rows that are written
again with the names they had count as before. -/

/-- How many of the rows name the original in a column. -/
def mentions (field hash : String) (rows : List Record) : Nat :=
  rows.countP fun r => r.text field == some hash

/-- The rows that name the original and are counted where they are written. -/
def Database.refs (db : Database) (hash : String) : Nat :=
  mentions "session_blob" hash (db.table "memory_meta")
    + mentions "output_blob" hash (db.table "observations")
    + db.brainSnapshots.countP fun s => s.blobHash == hash

section Mentions

variable {field hash : String} {rows rows' : List Record} {r : Record}

theorem mentions_append : mentions field hash (rows ++ rows')
    = mentions field hash rows + mentions field hash rows' :=
  List.countP_append

theorem mentions_cons : mentions field hash (r :: rows)
    = mentions field hash rows + if r.text field = some hash then 1 else 0 := by
  rw [mentions, List.countP_cons, mentions]
  simp only [beq_iff_eq]

theorem mentions_singleton :
    mentions field hash [r] = if r.text field = some hash then 1 else 0 := by
  rw [mentions_cons, mentions, List.countP_nil, Nat.zero_add]

theorem mentions_map {f : Record → Record} (hf : ∀ r ∈ rows, (f r).text field = r.text field) :
    mentions field hash (rows.map f) = mentions field hash rows := by
  rw [mentions, List.countP_map, mentions]
  refine List.countP_congr fun r hr => ?_
  rw [Function.comp_apply, hf r hr]

/-- Rows that are written with the names they had. -/
theorem mentions_le_of_forall₂ {R : Record → Record → Prop} (h : List.Forall₂ R rows rows')
    (hR : ∀ r ∈ rows, ∀ r', R r r' → r.text field = some hash → r'.text field = some hash) :
    mentions field hash rows ≤ mentions field hash rows' := by
  induction h with
  | nil => exact Nat.le_refl _
  | @cons r r' rows rows' hr _ ih =>
      have hle := ih fun x hx => hR x (List.mem_cons_of_mem _ hx)
      rw [mentions_cons, mentions_cons]
      by_cases htext : r.text field = some hash
      · rw [if_pos htext, if_pos (hR r List.mem_cons_self r' hr htext)]
        omega
      · rw [if_neg htext]
        omega

theorem exists_of_mentions (h : 0 < mentions field hash rows) :
    ∃ r ∈ rows, r.text field = some hash := by
  obtain ⟨r, hr, htext⟩ := List.countP_pos_iff.mp h
  exact ⟨r, hr, beq_iff_eq.mp htext⟩

end Mentions

section Refs

variable {db db' : Database} {hash : String} {id : Int}

theorem Database.refers_of_refs (h : 0 < db.refs hash) : db.Refers hash := by
  rw [Database.refs] at h
  rcases Nat.eq_zero_or_pos (mentions "session_blob" hash (db.table "memory_meta")) with
    hmeta | hmeta
  · rcases Nat.eq_zero_or_pos (mentions "output_blob" hash (db.table "observations")) with
      hobs | hobs
    · obtain ⟨s, hs, hblob⟩ := List.countP_pos_iff.mp
        (show 0 < db.brainSnapshots.countP fun s => s.blobHash == hash by omega)
      exact Or.inr ⟨s, hs, rfl, beq_iff_eq.mp hblob⟩
    · obtain ⟨r, hr, htext⟩ := exists_of_mentions hobs
      exact Or.inl ⟨("observations", "output_blob"), by decide, r, hr, rfl, htext⟩
  · obtain ⟨r, hr, htext⟩ := exists_of_mentions hmeta
    exact Or.inl ⟨("memory_meta", "session_blob"), by decide, r, hr, rfl, htext⟩

theorem refs_congr (hmeta : db'.table "memory_meta" = db.table "memory_meta")
    (hobs : db'.table "observations" = db.table "observations")
    (hsnaps : db'.brainSnapshots = db.brainSnapshots) (hash : String) :
    db'.refs hash = db.refs hash := by
  rw [Database.refs, Database.refs, hmeta, hobs, hsnaps]

/-! ## The metadata row of one memory

A transcript belongs to a memory through its one metadata row. With the table split around that
row, what a statement on it does to the number of names is an equation. -/

/-- Every memory has one metadata row at most. -/
abbrev Database.MetaKeyed (db : Database) : Prop :=
  UniqueKeys "memory_meta" (db.table "memory_meta")

/-- The metadata row of a memory among the others. -/
theorem metaRow_split {r : Record} (hkeys : db.MetaKeyed) (h : db.metaRow id = some r) :
    ∃ before after, db.table "memory_meta" = before ++ r :: after ∧ r.col "memory_id" = .int id ∧
      ∀ x ∈ before ++ after, x.col "memory_id" ≠ .int id := by
  obtain ⟨hid, before, after, hrows, hbefore⟩ := List.find?_eq_some_iff_append.mp h
  rw [decide_eq_true_eq] at hid
  refine ⟨before, after, hrows, hid, fun x hx heq => ?_⟩
  rcases List.mem_append.mp hx with hx | hx
  · simpa [heq] using hbefore x hx
  · have hpair := hkeys [.column "memory_id"] (by simp [schema])
    rw [hrows, List.pairwise_append, List.pairwise_cons] at hpair
    have hfree := hpair.2.1.1 x hx
    rw [Bool.eq_false_iff] at hfree
    exact hfree (collides_eq_true.mpr ⟨_, keyOf_column (by simp [hid]),
      by rw [hid, ← heq]; exact keyOf_column (by simp [heq])⟩)

theorem metaRow_eq_none (h : db.metaRow id = none) :
    ∀ r ∈ db.table "memory_meta", r.col "memory_id" ≠ .int id := by
  intro r hr heq
  have hnot := List.find?_eq_none.mp h r hr
  simp [heq] at hnot

/-- Rewriting rows in place keeps the keys, where it keeps the memory. -/
theorem MetaKeyed.updateRows {p : Record → Bool} {f : Record → Record} (hkeys : db.MetaKeyed)
    (hf : ∀ r : Record, (f r).col "memory_id" = r.col "memory_id") :
    (db.updateRows "memory_meta" p f).MetaKeyed := by
  intro parts hparts
  obtain rfl : parts = [.column "memory_id"] := by simpa [schema] using hparts
  have hcol : ∀ r : Record, (if p r then f r else r).col "memory_id" = r.col "memory_id" := by
    intro r
    split
    · exact hf r
    · rfl
  have hkey : ∀ r : Record, keyOf [.column "memory_id"] (if p r then f r else r)
      = keyOf [.column "memory_id"] r := by
    intro r
    simp only [keyOf, List.mapM_cons, List.mapM_nil, KeyPart.value, hcol r]
  rw [Database.table_updateRows, if_pos rfl, List.pairwise_map]
  refine (hkeys [.column "memory_id"] hparts).imp fun {a b} hfree => ?_
  rw [collides, hkey a, hkey b]
  exact hfree

/-- The transcript of a memory is replaced: the old name goes, the new one comes. -/
theorem refs_attachSessionBlob {r : Record} {new : String} (hkeys : db.MetaKeyed)
    (h : db.metaRow id = some r) (hash : String) :
    (attachSessionBlob id new db).refs hash + (if r.text "session_blob" = some hash then 1 else 0)
      = db.refs hash + if new = hash then 1 else 0 := by
  obtain ⟨before, after, hrows, hid, hothers⟩ := metaRow_split hkeys h
  have hself : ∀ rows : List Record, (∀ x ∈ rows, x.col "memory_id" ≠ .int id) →
      (rows.map fun r => if r.col "memory_id" = .int id then r.set "session_blob" (.str new) else r)
        = rows := by
    intro rows hne
    refine (List.map_congr_left fun x hx => ?_).trans (List.map_id rows)
    rw [if_neg (hne x hx), id_eq]
  have htable : (attachSessionBlob id new db).table "memory_meta"
      = before ++ r.set "session_blob" (.str new) :: after := by
    simp only [attachSessionBlob, Database.table_updateRows, if_true, decide_eq_true_eq, hrows,
      List.map_append, List.map_cons, hid,
      hself before fun x hx => hothers x (List.mem_append_left _ hx),
      hself after fun x hx => hothers x (List.mem_append_right _ hx)]
  have hnew : (r.set "session_blob" (.str new)).text "session_blob" = some new := by
    rw [Record.text, Record.col_set_self]
    rfl
  simp only [Database.refs, htable, hrows, mentions_append, mentions_cons, hnew, Option.some.injEq]
  have hobs : (attachSessionBlob id new db).table "observations" = db.table "observations" := by
    rw [attachSessionBlob, Database.table_updateRows, if_neg (by decide)]
  have hsnaps : (attachSessionBlob id new db).brainSnapshots = db.brainSnapshots := rfl
  rw [hobs, hsnaps]
  omega

/-- The metadata rows of a memory go, and with them the name of its transcript. -/
theorem mentions_purged {rows : List Record} (hkeys : db.MetaKeyed)
    (hrows : rows = (db.table "memory_meta").filter fun r => !decide (r.col "memory_id" = .int id))
    (hash : String) :
    mentions "session_blob" hash rows + (if db.getMemorySessionBlob id = some hash then 1 else 0)
      = mentions "session_blob" hash (db.table "memory_meta") := by
  have hself : ∀ rows : List Record, (∀ x ∈ rows, x.col "memory_id" ≠ .int id) →
      rows.filter (fun r => !decide (r.col "memory_id" = .int id)) = rows := by
    intro rows hne
    refine List.filter_eq_self.mpr fun x hx => ?_
    simp [hne x hx]
  rw [hrows, Database.getMemorySessionBlob]
  cases hr : db.metaRow id with
  | none =>
      rw [hself _ (metaRow_eq_none hr), Option.bind_none, if_neg (Option.some_ne_none hash).symm,
        Nat.add_zero]
  | some r =>
      obtain ⟨before, after, hsplit, hid, hothers⟩ := metaRow_split hkeys hr
      rw [hsplit, List.filter_append, List.filter_cons_of_neg (by simp [hid]),
        hself before fun x hx => hothers x (List.mem_append_left _ hx),
        hself after fun x hx => hothers x (List.mem_append_right _ hx), Option.bind_some,
        mentions_append, mentions_append, mentions_cons]
      omega

end Refs

/-! ## Counts -/

section Calls

variable {codec : Codec} {db db' : Database} {hash : String} {id : Int}

theorem count_congr (h : db'.blobs = db.blobs) (hash : String) :
    db'.count hash = db.count hash := by
  rw [Database.count, Database.count, h]

/-- Collection leaves the count of an original, or takes the original. -/
theorem count_gcBlobs_cases (hash : String) :
    (gcBlobs db).2.count hash = db.count hash ∨ (gcBlobs db).2.count hash = 0 := by
  rw [Database.count, gcBlobs_row, Database.count]
  cases hb : db.blobs[hash]? with
  | none => exact Or.inr rfl
  | some b =>
      rw [Option.filter]
      split
      · exact Or.inl rfl
      · exact Or.inr rfl

/-- One count more, and no row. -/
structure CountsOne (hash : String) (db db' : Database) : Prop where
  count : ∀ h, db'.count h = if h = hash then db.count h + 1 else db.count h
  table : db'.table = db.table
  snapshots : db'.brainSnapshots = db.brainSnapshots

theorem countsOne_insertBlob {blob : Blob} (hblob : blob.refcount = 1) :
    CountsOne hash db (insertBlob hash blob db) :=
  ⟨fun _ => count_insertBlob hblob, rfl, rfl⟩

/-- The pieces of an object are filed beside the rows. -/
theorem insertChunks_frame {pieces : List (String × Bytes)}
    (h : pieces.foldlM (insertChunk codec hash) db = .ok db') :
    db'.blobs = db.blobs ∧ db'.table = db.table ∧ db'.brainSnapshots = db.brainSnapshots := by
  refine foldlM_induction (p := fun d : Database => d.blobs = db.blobs ∧ d.table = db.table ∧
    d.brainSnapshots = db.brainSnapshots) h (fun d e d' _ hd hstep => ?_) ⟨rfl, rfl, rfl⟩
  obtain ⟨_, -, hstep⟩ := bind_eq_ok.mp hstep
  rw [← pure_eq_ok.mp hstep]
  exact hd

theorem storeBlob_counts {plan : StorePlan} {bytes : Bytes}
    (h : (storeBlob codec plan bytes).run Proc.noFault db = (.ok hash, db')) :
    CountsOne hash db db' := by
  cases plan with
  | floor =>
      obtain ⟨rfl, rfl⟩ := Prod.mk.inj (Except.ok.inj (Proc.run_exec_ok h))
      exact countsOne_insertBlob rfl
  | dict dictHash =>
      obtain ⟨_, s, hdict, h⟩ := Proc.run_bind_ok h
      obtain ⟨-, rfl⟩ := Prod.mk.inj (Except.ok.inj (Proc.run_exec_ok hdict))
      obtain ⟨rfl, rfl⟩ := Prod.mk.inj (Except.ok.inj (Proc.run_exec_ok h))
      obtain ⟨hcount, htable, hsnaps⟩ := @countsOne_insertBlob (insertDict dictHash db)
        (codec.digest bytes) ⟨bytes, codec.compressedLen bytes, 1, .dictZstd dictHash⟩ rfl
      exact ⟨hcount, htable, hsnaps⟩
  | chunked =>
      have hstore := Proc.run_exec_ok h
      obtain ⟨_, -, hstore⟩ := bind_eq_ok.mp hstore
      dsimp only at hstore
      have hone := @countsOne_insertBlob db (codec.digest bytes) (chunkedBlob codec bytes 1) rfl
      split at hstore
      · obtain ⟨rfl, rfl⟩ := Prod.mk.inj (pure_eq_ok.mp hstore)
        exact hone
      · obtain ⟨t, ht, hstore⟩ := bind_eq_ok.mp hstore
        obtain ⟨rfl, rfl⟩ := Prod.mk.inj (pure_eq_ok.mp hstore)
        -- the chunks go beside the row
        obtain ⟨hblobs, htable, hsnaps⟩ := insertChunks_frame ht
        exact ⟨fun k => (count_congr hblobs k).trans (hone.count k), htable.trans hone.table,
          hsnaps.trans hone.snapshots⟩

theorem ObservationArgs.newRow_outputBlob (args : ObservationArgs) (outputBlob : Option String) :
    (args.newRow outputBlob).text "output_blob" = outputBlob := by
  cases outputBlob <;>
    simp [ObservationArgs.newRow, jsonObject, Record.text, Value.ofOptionStr, Value.asStr]

/-- An observation names the output it has a count for. -/
theorem insertObservation_counts {args : ObservationArgs}
    (h : (insertObservation codec args).run Proc.noFault db = (.ok id, db')) :
    db'.table "memory_meta" = db.table "memory_meta" ∧ db'.brainSnapshots = db.brainSnapshots ∧
      ∃ named : Option String, ∀ hash,
        db'.count hash = db.count hash + (if named = some hash then 1 else 0) ∧
        db'.refs hash = db.refs hash + if named = some hash then 1 else 0 := by
  obtain ⟨named, s, hstore, h⟩ := Proc.run_bind_ok h
  have hinsert := Proc.run_exec_ok h
  obtain ⟨_, -, hinsert⟩ := bind_eq_ok.mp hinsert
  obtain ⟨-, rfl⟩ := Prod.mk.inj (pure_eq_ok.mp hinsert)
  have hs : s.table = db.table ∧ s.brainSnapshots = db.brainSnapshots ∧
      ∀ hash, s.count hash = db.count hash + if named = some hash then 1 else 0 := by
    cases horiginal : args.original with
    | none =>
        rw [horiginal] at hstore
        obtain ⟨hnamed, rfl⟩ := Prod.mk.inj hstore
        rw [← Except.ok.inj hnamed]
        exact ⟨rfl, rfl, fun hash => by
          rw [if_neg (Option.some_ne_none hash).symm, add_zero]⟩
    | some output =>
        rw [horiginal] at hstore
        obtain ⟨hash, t, hblob, hstore⟩ := Proc.run_bind_ok hstore
        obtain ⟨hnamed, rfl⟩ := Prod.mk.inj hstore
        rw [← Except.ok.inj hnamed]
        have hone := storeBlob_counts hblob
        refine ⟨hone.table, hone.snapshots, fun k => ?_⟩
        rw [hone.count]
        by_cases hk : k = hash
        · rw [if_pos hk, if_pos (congrArg some hk.symm)]
        · rw [if_neg hk, if_neg fun h => hk (Option.some.inj h).symm, add_zero]
  obtain ⟨htable, hsnaps, hcount⟩ := hs
  refine ⟨?_, hsnaps, named, fun hash => ⟨hcount hash, ?_⟩⟩
  · rw [Database.table_insertRow, if_neg (by decide), htable]
  · have hobs : (s.insertRow "observations" (args.newRow named)).table "observations"
        = db.table "observations" ++ [args.newRow named] := by
      rw [Database.table_insertRow, if_pos rfl, htable]
    have hmeta : (s.insertRow "observations" (args.newRow named)).table "memory_meta"
        = db.table "memory_meta" := by
      rw [Database.table_insertRow, if_neg (by decide), htable]
    have hlisted : (s.insertRow "observations" (args.newRow named)).brainSnapshots
        = db.brainSnapshots := hsnaps
    rw [Database.refs, hobs, hmeta, mentions_append, mentions_singleton,
      ObservationArgs.newRow_outputBlob, hlisted, Database.refs]
    omega

end Calls

end IronMem
