import IronMem.Lib.FaultyRuns
import IronMem.PolicyRuns
import IronMem.Reclamation

/-!
# Originals are kept

A store leaves its caller with a count, until the caller attaches the original to a memory or
releases it. Until then nothing else refers to the original, so the count is all that keeps it.
A deletion that releases a name which was never counted, as the names of a restored memory are,
takes that count away.

The state of a run is the database with the stores in hand (`Held`): the hashes that stores have
returned and that nobody has attached or released yet, once for each store. The invariant `Kept`
says that what is referred to or in hand is stored and loads, and that every original in hand has a
count for each time it is.

- Steps on the store are covered by three lemmas: what keeps the rows and the counts
  (`Kept.of_counts`), what keeps the loads and leaves every name stored (`Kept.of_loads`), and what
  adds no name (`Kept.of_same`).
- A deletion may stop at any statement (`kept_governedDeleteMemory`). The condition is on what it
  releases, at the state it meets: it leaves the stores in hand their counts (`Held.Spares`).
- A conversion loads an original, writes it as a manifest of chunks and loads it again; what fails
  on the way rolls the row back (`convertObject`).
- A restore writes the names its checkpoint has, together with the originals it carries
  (`restore_sources`).

Stores, deletions and conversions are taken with faults: a statement fails, and what was done
before it stays unless a transaction rolls it back. Of the codec it is asked that its digest
tells contents apart and that the pieces of an object put together are the object. The condition
on a run speaks of deletions (`Held.Spares`) and of the columns of a checkpoint that name
originals (`State.TextSources`), and of nothing else.
-/

namespace IronMem

open Fallible

/-! ## Conversion

A conversion leaves the names and the counts alone and changes the form of one original. That
its manifest loads is checked by the code itself, before it goes on to the next original. -/

/-- The transaction of `convert` on one original: the row becomes a manifest, unless it is one. -/
def convertObject (codec : Codec) (hash : String) (bytes : Bytes) (db : Database) :
    Except String (Nat × Database) :=
  match db.blobs[hash]? with
  | none => .ok (0, db)
  | some b =>
      match b.format with
      | .fastcdc _ => .ok (0, db)
      | _ => do
          let rewritten := { db with
            blobs := db.blobs.insert hash (chunkedBlob codec bytes b.refcount) }
          let filed ← (uniquePieces codec bytes).toList.foldlM (insertChunk codec hash) rewritten
          return (1, filed)

/-- One round of `convert`: the original is loaded, replaced, and loaded again. -/
def convertOne (codec : Codec) (converted : Nat) (hash : String) : Call Nat := do
  let loaded ← Proc.query .select fun db => loadBlob codec db hash
  match loaded with
  | .error e => Proc.fail e
  | .ok bytes => do
      Proc.lift (ensure (decide (bytes.length ≤ 512 * 1024 * 1024))
        "CCR chunked object exceeds 512 MiB safety limit")
      let changed ← Proc.exec (.storeBlob hash) (convertObject codec hash bytes)
      let loaded ← Proc.query .select fun db => loadBlob codec db hash
      let again ← Proc.lift loaded
      Proc.lift (ensure (decide (again = bytes)) "converted source mismatch")
      return converted + changed

/-- A row that is no manifest and as long as the threshold. -/
def Blob.convertible (threshold : Nat) (b : Blob) : Bool :=
  match b.format with
  | .fastcdc _ => false
  | _ => decide (threshold ≤ b.original.length)

/-- `convert`: the number of candidates and of originals it has replaced. -/
def convert (codec : Codec) (threshold : Nat) (apply : Bool) : Call (Nat × Nat) := do
  Proc.lift (ensure (decide (128 * 1024 ≤ threshold))
    "conversion threshold must be at least 128 KiB")
  let hashes ← Proc.query .select fun db =>
    (db.blobs.filter fun _ b => b.convertible threshold).toList.map Prod.fst
  let converted ← (if apply then hashes else []).foldlM (convertOne codec) 0
  return (hashes.length, converted)

section Conversion

variable {codec : Codec} {db db' : Database} {hash : String} {bytes : Bytes}

/-- No row and no count is changed. -/
structure SameCounts (db db' : Database) : Prop where
  count : ∀ hash, db'.count hash = db.count hash
  table : db'.table = db.table
  snapshots : db'.brainSnapshots = db.brainSnapshots

/-- What a conversion leaves. -/
structure Converted (codec : Codec) (db db' : Database) : Prop extends SameCounts db db' where
  sound : StoreSound codec db'
  loads : KeepsLoads codec db db'

/-- The row of an original becomes a manifest of its chunks, with the count it had. -/
theorem converted_rewritten (hsha : Function.Injective codec.digest)
    (hcuts : (codec.cuts bytes).flatten = bytes) (hsound : StoreSound codec db) {b : Blob}
    (hload : loadBlob codec db (codec.digest bytes) = .ok bytes)
    (hb : db.blobs[codec.digest bytes]? = some b)
    (h : (uniquePieces codec bytes).toList.foldlM (insertChunk codec (codec.digest bytes))
      { db with blobs := db.blobs.insert (codec.digest bytes) (chunkedBlob codec bytes b.refcount) }
        = .ok db') : Converted codec db db' := by
  obtain ⟨hblobs, hsupports, hchunks, -⟩ := filed_uniquePieces h
  have hget : ∀ k, db'.blobs[k]? = if k = codec.digest bytes then
      some (chunkedBlob codec bytes b.refcount) else db.blobs[k]? := by
    intro k
    rw [hblobs, Std.ExtTreeMap.getElem?_insert]
    simp only [compare_eq_iff_eq, eq_comm (a := codec.digest bytes)]
  have hself : loadBlob codec db' (codec.digest bytes) = .ok bytes := by
    refine @loadBlob_filed _ _ _ _ hsha hcuts b.refcount ?_ ?_ h
    · exact Std.ExtTreeMap.getElem?_insert_self
    · exact hsound.chunks
  have hsupported : ∀ k, Supports db db' k := fun k =>
    ⟨(hsupports k).dicts, (hsupports k).objects, (hsupports k).chunks⟩
  have hloads : KeepsLoads codec db db' := by
    intro k original hold
    by_cases hk : k = codec.digest bytes
    · rw [hk] at hold ⊢
      rwa [← Except.ok.inj (hload.symm.trans hold)]
    · exact loadBlob_supports (hsupported k)
        (fun b hb => ⟨b, by rw [hget, if_neg hk, hb], rfl, rfl⟩) hold
  obtain ⟨-, htable, hsnaps⟩ := insertChunks_frame h
  refine ⟨⟨fun k => ?_, htable, hsnaps⟩, ⟨fun k hk => ?_, hchunks hsound.chunks⟩, hloads⟩
  · rw [Database.count, hget, Database.count]
    split
    · next heq => rw [heq, hb]; rfl
    · rfl
  · by_cases heq : k = codec.digest bytes
    · exact ⟨bytes, heq ▸ hself⟩
    · rw [Std.ExtTreeMap.contains_eq_isSome_getElem?, hget, if_neg heq,
        ← Std.ExtTreeMap.contains_eq_isSome_getElem?] at hk
      obtain ⟨original, hold⟩ := hsound.loads k hk
      exact ⟨original, hloads k original hold⟩

theorem convertObject_ok (hsha : Function.Injective codec.digest)
    (hcuts : ∀ bytes, (codec.cuts bytes).flatten = bytes) (hsound : StoreSound codec db) {n : Nat}
    (hload : loadBlob codec db hash = .ok bytes)
    (h : convertObject codec hash bytes db = .ok (n, db')) : Converted codec db db' := by
  have hsame : Converted codec db db := ⟨⟨fun _ => rfl, rfl, rfl⟩, hsound, fun _ _ => id⟩
  obtain rfl := digest_of_loadBlob hload
  unfold convertObject at h
  split at h
  · obtain ⟨-, rfl⟩ := Prod.mk.inj (Except.ok.inj h)
    exact hsame
  · next b hb =>
      split at h
      · obtain ⟨-, rfl⟩ := Prod.mk.inj (Except.ok.inj h)
        exact hsame
      · obtain ⟨s, hs, h⟩ := bind_eq_ok.mp h
        obtain ⟨-, rfl⟩ := Prod.mk.inj (pure_eq_ok.mp h)
        exact converted_rewritten hsha (hcuts bytes) hsound hload hb hs

end Conversion

/-! ## Stores in hand

A store that has returned is in hand until its caller attaches or releases the hash. The count
covers the stores in hand, and what they return loads as long as the count does. -/

/-- The database, and the hashes that stores have returned and nobody has attached or released
yet. -/
structure Held where
  db : Database
  pending : List String

/-- What is referred to or in hand is stored, and counted for each store in hand. -/
structure Kept (codec : Codec) (s : Held) : Prop where
  sound : StoreSound codec s.db
  named : ∀ hash, s.db.Refers hash → s.db.blobs.contains hash = true
  counted : ∀ hash, (s.pending.count hash : Int) ≤ s.db.count hash

section Keeping

variable {codec : Codec} {db db' : Database} {s : Held} {hash : String}

theorem contains_of_load {bytes : Bytes} (h : loadBlob codec db hash = .ok bytes) :
    db.blobs.contains hash = true := by
  obtain ⟨b, hb, -⟩ := loadBlob_eq_ok.mp h
  rw [Std.ExtTreeMap.contains_eq_isSome_getElem?, hb]
  rfl

theorem KeepsLoads.contains (h : KeepsLoads codec db db') (hs : StoreSound codec db)
    (hin : db.blobs.contains hash = true) : db'.blobs.contains hash = true := by
  obtain ⟨bytes, hload⟩ := hs.loads hash hin
  exact contains_of_load (h hash bytes hload)

/-- What names an original names it in the rows that were there. -/
theorem Refers.of_rows (h : db'.Refers hash)
    (htable : ∀ source ∈ SOURCE_FIELDS, ∀ r ∈ db'.table source.1, r.text source.2 = some hash →
      ∃ r' ∈ db.table source.1, r'.text source.2 = some hash)
    (hsnaps : db'.brainSnapshots = db.brainSnapshots) : db.Refers hash := by
  rcases h with hr | hl
  · exact hr.refers fun source hsource r hr _ htext => htable source hsource r hr htext
  · exact hl.refers fun s hs _ => hsnaps ▸ hs

theorem Refers.congr (h : db'.Refers hash) (htable : db'.table = db.table)
    (hsnaps : db'.brainSnapshots = db.brainSnapshots) : db.Refers hash :=
  Refers.of_rows h (fun _ _ r hr htext => ⟨r, htable ▸ hr, htext⟩) hsnaps

/-- A step that keeps what loads, and after which what is named is stored. -/
theorem Kept.of_loads {pending : List String} (h : Kept codec s) (hsound : StoreSound codec db)
    (hloads : KeepsLoads codec s.db db)
    (hnamed : ∀ hash, db.Refers hash → s.db.Refers hash ∨ db.blobs.contains hash = true)
    (hcounted : ∀ hash, (s.pending.count hash : Int) ≤ s.db.count hash →
      (pending.count hash : Int) ≤ db.count hash) : Kept codec ⟨db, pending⟩ where
  sound := hsound
  named := fun hash hrefers => (hnamed hash hrefers).elim
    (fun hold => hloads.contains h.sound (h.named hash hold)) id
  counted := fun hash => hcounted hash (h.counted hash)

/-- A step on the store that leaves the rows and the counts. -/
theorem Kept.of_counts {pending : List String} (h : Kept codec ⟨db, pending⟩)
    (hsame : SameCounts db db') (hsound : StoreSound codec db') (hloads : KeepsLoads codec db db') :
    Kept codec ⟨db', pending⟩ :=
  h.of_loads hsound hloads
    (fun _ hrefers => Or.inl (Refers.congr hrefers hsame.table hsame.snapshots))
    fun hash hle => by rw [hsame.count]; exact hle

/-- A step on the tables that adds no name. -/
theorem Kept.of_same (h : Kept codec s) (hsame : SameStore s.db db)
    (hnamed : ∀ hash, db.Refers hash → s.db.Refers hash) : Kept codec ⟨db, s.pending⟩ :=
  h.of_loads (hsame.keepsStore.sound h.sound) hsame.keepsLoads
    (fun hash hrefers => Or.inl (hnamed hash hrefers))
    fun hash hle => by rw [count_congr hsame.blobs]; exact hle

theorem count_gcBlobs_of_pos (hpos : 0 < db.count hash) :
    (gcBlobs db).2.count hash = db.count hash := by
  rw [Database.count] at hpos
  rw [Database.count, gcBlobs_row, Database.count]
  cases hb : db.blobs[hash]? with
  | none =>
      rw [hb] at hpos
      cases hpos
  | some b =>
      rw [hb] at hpos
      have hkept : (!db.garbage hash b) = true := by
        have hcounted : ¬b.refcount ≤ 0 := not_le.mpr hpos
        simp [Database.garbage, hcounted]
      rw [Option.filter, if_pos hkept]

theorem Kept.gcBlobs (h : Kept codec s) : Kept codec ⟨(gcBlobs s.db).2, s.pending⟩ where
  sound := storeSound_gcBlobs h.sound
  named := fun hash hrefers => by
    have hold : s.db.Refers hash := Refers.congr hrefers rfl rfl
    have hin := h.named hash hold
    rw [Std.ExtTreeMap.contains_eq_isSome_getElem?] at hin ⊢
    rwa [gcBlobs_of_pinned (Database.pinned_iff.mpr (Or.inl hold))]
  counted := fun hash => by
    have hle := h.counted hash
    rcases lt_or_ge 0 (s.db.count hash) with hpos | hnone
    · show _ ≤ (IronMem.gcBlobs s.db).2.count hash
      rw [count_gcBlobs_of_pos hpos]
      exact hle
    · show _ ≤ (IronMem.gcBlobs s.db).2.count hash
      rcases @count_gcBlobs_cases s.db hash with hcount | hcount
      · rw [hcount]
        exact hle
      · rw [hcount]
        show (s.pending.count hash : Int) ≤ 0
        omega

/-- A count is released that no store in hand needs. -/
theorem Kept.decrefBlob {pending : List String} (h : Kept codec s)
    (hspare : ∀ k, (pending.count k : Int) ≤ s.db.count k ∧
      (k = hash → 0 < s.db.count hash → (pending.count hash : Int) < s.db.count hash)) :
    Kept codec ⟨decrefBlob hash s.db, pending⟩ := by
  have hkeeps : KeepsStore codec s.db (IronMem.decrefBlob hash s.db) := keepsStore_decrefBlob hash
  refine h.of_loads (hkeeps.sound h.sound) hkeeps.loads (fun k hrefers => Or.inl ?_) fun k _ => ?_
  · exact Refers.congr hrefers (decrefBlob_table hash s.db) (decrefBlob_frame hash s.db).1
  · obtain ⟨hle, hlt⟩ := hspare k
    rw [count_decrefBlob]
    split
    · next hcond =>
        have hlt := hlt hcond.1 (hcond.1 ▸ hcond.2)
        rw [hcond.1]
        omega
    · exact hle

/-! ## Calls -/

/-- Rows that go take no name along that others need. -/
theorem Kept.deleteRows (h : Kept codec s) (name : String) (p : Record → Bool) :
    Kept codec ⟨s.db.deleteRows name p, s.pending⟩ := by
  refine h.of_same ⟨⟨rfl, rfl, rfl⟩, rfl⟩ fun hash hrefers => ?_
  refine Refers.of_rows hrefers (fun source _ r hr htext => ⟨r, ?_, htext⟩) rfl
  rw [Database.table_deleteRows] at hr
  split at hr
  · next heq => exact heq ▸ (List.mem_filter.mp hr).1
  · exact hr

theorem Kept.tombstoneMemory (h : Kept codec s) (id now : Int) (reason : Option String) :
    Kept codec ⟨tombstoneMemory id now reason s.db, s.pending⟩ := by
  refine h.of_same ⟨⟨rfl, rfl, rfl⟩, rfl⟩ fun hash hrefers => ?_
  refine Refers.of_rows hrefers (fun source hsource r hr htext => ?_) rfl
  rw [IronMem.tombstoneMemory, Database.table_updateRows] at hr
  split at hr
  · next heq =>
      obtain ⟨r', hr', rfl⟩ := List.mem_map.mp hr
      refine ⟨r', heq ▸ hr', ?_⟩
      have hfield : source.2 ≠ "tombstoned_at" ∧ source.2 ≠ "tombstone_reason" := by
        clear hr hr' htext heq
        revert source
        decide
      split at htext
      · rwa [Record.text, Record.col_set_of_ne _ _ hfield.2.symm,
          Record.col_set_of_ne _ _ hfield.1.symm] at htext
      · exact htext
  · exact ⟨r, hr, htext⟩

theorem Kept.insertLedger (h : Kept codec s) (row : Record) :
    Kept codec ⟨s.db.insertRow "memory_ledger" row, s.pending⟩ := by
  refine h.of_same ⟨⟨rfl, rfl, rfl⟩, rfl⟩ fun hash hrefers => ?_
  refine Refers.of_rows hrefers (fun source hsource r hr htext => ⟨r, ?_, htext⟩) rfl
  have hne : source.1 ≠ "memory_ledger" := by
    clear hr htext
    revert source
    decide
  rwa [Database.table_insertRow, if_neg hne] at hr

/-- The names a deletion releases are counted beside the stores in hand. -/
def Held.Spares (s : Held) (id : Int) : Prop :=
  ∀ hash, s.db.getMemorySessionBlob id = some hash → 0 < s.db.count hash →
    (s.pending.count hash : Int) < s.db.count hash

theorem kept_decrefMemorySessionBlob {id : Int} (h : Kept codec s) (hspares : s.Spares id)
    (fault : Nat → Option String) :
    Kept codec ⟨((decrefMemorySessionBlob id).run fault s.db).2, s.pending⟩ := by
  rw [decrefMemorySessionBlob, Proc.query_bind, Proc.run_query]
  cases fault 0 with
  | some e => exact h
  | none =>
      cases hblob : s.db.getMemorySessionBlob id with
      | none => exact h
      | some hash =>
          show Kept codec ⟨(Proc.run (Proc.later fault) (Proc.exec (Statement.decref hash) fun db =>
            (.ok ((), IronMem.decrefBlob hash db) : Except String (Unit × Database))) s.db).2,
              s.pending⟩
          cases hf : Proc.later fault 0 with
          | some e =>
              rw [Proc.exec, Proc.run_step_fault hf]
              exact h
          | none =>
              rw [Proc.exec, Proc.run_step_ok hf rfl]
              exact h.decrefBlob fun k => ⟨h.counted k, fun _ => hspares hash hblob⟩

theorem kept_forgetTail {id : Int} (h : Kept codec s) (hspares : s.Spares id)
    (fault : Nat → Option String) :
    Kept codec ⟨((forgetTail id).run fault s.db).2, s.pending⟩ := by
  unfold forgetTail
  refine @Proc.Keeps.after _ _ _ _ _ (fun d => Kept codec ⟨d, s.pending⟩) _ _ (fun _ => ?_) _ _
    (kept_decrefMemorySessionBlob h hspares fault)
  refine .of_preserves (.bind (.exec fun d r d' hd hstep => ?_) fun _ =>
    .exec fun d r d' hd hstep => ?_)
  · obtain ⟨-, rfl⟩ := Prod.mk.inj (Except.ok.inj hstep)
    exact hd.gcBlobs
  · obtain ⟨-, rfl⟩ := Prod.mk.inj (Except.ok.inj hstep)
    exact hd.deleteRows _ _

/-- Wherever a deletion stops, what is named or in hand is kept. -/
theorem kept_governedDeleteMemory {id : Int} {args : DeleteArgs} (h : Kept codec s)
    (hspares : s.Spares id) (fault : Nat → Option String) :
    Kept codec ⟨((governedDeleteMemory codec id args).run fault s.db).2, s.pending⟩ := by
  rw [run_governedDeleteMemory]
  cases fault 0 with
  | some e => exact h
  | none =>
      cases s.db.getMemoryByIdAnyNamespace id with
      | none => exact h
      | some memory =>
          cases fault 1 with
          | some e => exact h
          | none =>
              dsimp only
              split
              · exact h
              · rw [run_forgetMemory]
                have hmarked := h.tombstoneMemory id args.now args.reason
                cases Proc.later (Proc.later fault) 0 with
                | some e => exact h
                | none =>
                    cases Proc.later (Proc.later fault) 1 with
                    | some e => exact hmarked
                    | none =>
                        cases Proc.later (Proc.later fault) 2 with
                        | some e => exact hmarked
                        | none =>
                            dsimp only
                            split
                            · exact hmarked
                            · next entry db₂ hledger =>
                                obtain ⟨row, rfl, -, -⟩ := appendMemoryLedger_ok hledger
                                refine kept_forgetTail (hmarked.insertLedger row)
                                  (fun hash hblob => hspares hash ?_) _
                                rwa [← getMemorySessionBlob_tombstone id args.now args.reason]

theorem keeps_purgeMemory (id : Int) (pending : List String) :
    Proc.Keeps (fun d => Kept codec ⟨d, pending⟩) (purgeMemory id) := by
  have hside : ∀ name, Proc.Preserves (fun d => Kept codec ⟨d, pending⟩) (deleteSide name id) :=
    fun name => .exec fun d r d' hd hstep => by
      obtain ⟨-, rfl⟩ := Prod.mk.inj (Except.ok.inj hstep)
      exact hd.deleteRows _ _
  have hmeta : Proc.Preserves (fun d => Kept codec ⟨d, pending⟩) (deleteMemoryMeta id) := by
    refine .bind (.exec fun d r d' hd hstep => ?_) fun _ => .bind (.exec fun d r d' hd hstep => ?_)
      fun _ => .exec fun d r d' hd hstep => ?_
    · obtain ⟨-, rfl⟩ := Prod.mk.inj (Except.ok.inj hstep)
      exact hd.deleteRows _ _
    · obtain ⟨-, rfl⟩ := Prod.mk.inj (Except.ok.inj hstep)
      exact hd.deleteRows _ _
    · obtain ⟨t, hcascade, hdone⟩ := bind_eq_ok.mp hstep
      obtain ⟨-, rfl⟩ := Prod.mk.inj (pure_eq_ok.mp hdone)
      refine hd.of_same (sameStore_deleteCascade hcascade) fun hash hrefers => ?_
      exact Refers.of_rows hrefers
        (fun source _ r hr htext => ⟨r, (deleteCascade_sublist hcascade source.1).subset hr, htext⟩)
        (deleteCascade_metadata hcascade).2.2.2
  exact .of_preserves (.bind hmeta fun _ => .bind (hside _) fun _ => .bind (hside _) fun _ =>
    hside _)

end Keeping

/-! ## Conversion and stores under faults

A store that fails hands nothing to its caller. What it has written by then is harmless, since
it gives no row a name and takes no count away. -/

section Stores

variable {codec : Codec} {db db' : Database} {s : Held} {hash : String} {bytes : Bytes}

theorem keeps_convertOne (hsha : Function.Injective codec.digest)
    (hcuts : ∀ bytes, (codec.cuts bytes).flatten = bytes) (pending : List String) (converted : Nat)
    (hash : String) :
    Proc.Keeps (fun d => Kept codec ⟨d, pending⟩) (convertOne codec converted hash) := by
  refine .query fun fault d hd => ?_
  cases hload : loadBlob codec d hash with
  | error e => exact hd
  | ok bytes =>
      -- what was loaded stays what there is until the row is rewritten
      refine (@Proc.Preserves.run _ _ _ _ (fun d : Database => Kept codec ⟨d, pending⟩ ∧
        loadBlob codec d hash = .ok bytes) _ (.bind (.done _) fun _ =>
          .bind (.exec fun t n t' ht hstep => ?_) fun _ => .bind (.query _ _) fun _ =>
            .bind (.done _) fun _ => .bind (.done _) fun _ => .done _) fault d ⟨hd, hload⟩).1
      have hconverted := convertObject_ok hsha hcuts ht.1.sound ht.2 hstep
      exact ⟨ht.1.of_counts hconverted.toSameCounts hconverted.sound hconverted.loads,
        hconverted.loads _ _ ht.2⟩

theorem keeps_convert (hsha : Function.Injective codec.digest)
    (hcuts : ∀ bytes, (codec.cuts bytes).flatten = bytes) (pending : List String)
    (threshold : Nat) (apply : Bool) :
    Proc.Keeps (fun d => Kept codec ⟨d, pending⟩) (convert codec threshold apply) :=
  .bind (.done _) fun _ => .bind (.of_preserves (.query _ _)) fun _ =>
    .bind (.foldlM (keeps_convertOne hsha hcuts pending) _ _) fun _ => .done _

theorem storeBlob_error {plan : StorePlan} {fault : Nat → Option String} {e : String}
    (h : ((storeBlob codec plan bytes).run fault db).1 = .error e) :
    SameCounts db ((storeBlob codec plan bytes).run fault db).2 := by
  have hsame : ∀ d, d = db → SameCounts db d := fun d hd => hd ▸ ⟨fun _ => rfl, rfl, rfl⟩
  cases plan with
  | floor => exact hsame _ (Proc.run_exec_error h)
  | chunked => exact hsame _ (Proc.run_exec_error h)
  | dict dictHash =>
      rw [storeBlob] at h ⊢
      rcases Proc.run_bind_cases fault _ _ db with ⟨e', hdict, hrun⟩ | ⟨_, fault', hdict, hrun⟩
      · rw [hrun]
        exact hsame _ (Proc.run_exec_error hdict)
      · -- the dictionary is there, the blob is not
        rw [hrun] at h ⊢
        rw [Proc.run_exec_error h]
        have hinserted : ∀ d, insertDict dictHash db = d → SameCounts db d :=
          fun d hd => hd ▸ ⟨fun _ => rfl, rfl, rfl⟩
        exact hinserted _ (Prod.mk.inj (Except.ok.inj (Proc.run_exec_ok
          (Proc.run_noFault_of_ok (Prod.ext hdict rfl))))).2

/-- A store hands its caller the hash with a count, whatever statement of it fails. -/
theorem Kept.storeBlob (hsha : Function.Injective codec.digest)
    (hcuts : ∀ bytes, (codec.cuts bytes).flatten = bytes) {plan : StorePlan}
    {fault : Nat → Option String} {r : Except String String} (h : Kept codec s)
    (hrun : (storeBlob codec plan bytes).run fault s.db = (r, db')) :
    Kept codec ⟨db', r.toOption.toList ++ s.pending⟩ := by
  have hkeeps : KeepsStore codec s.db db' := by
    have hstore := @keepsStore_storeBlob codec s.db plan bytes hsha hcuts fault
    rwa [hrun] at hstore
  cases r with
  | ok hash =>
      have hone := storeBlob_counts (Proc.run_noFault_of_ok hrun)
      refine h.of_loads (hkeeps.sound h.sound) hkeeps.loads
        (fun _ hrefers => Or.inl (Refers.congr hrefers hone.table hone.snapshots)) fun k hle => ?_
      rw [hone.count]
      show ((hash :: s.pending).count k : Int) ≤ _
      rw [List.count_cons]
      by_cases hk : k = hash
      · rw [if_pos hk, if_pos (beq_iff_eq.mpr hk.symm)]
        omega
      · rw [if_neg hk, if_neg fun heq => hk (beq_iff_eq.mp heq).symm]
        omega
  | error e =>
      have hsame : SameCounts s.db db' := by
        have herror := @storeBlob_error codec s.db bytes plan fault e (by rw [hrun])
        rwa [hrun] at herror
      exact Kept.of_counts h hsame (hkeeps.sound h.sound) hkeeps.loads

theorem count_erase_le (pending : List String) (hash k : String) :
    (pending.erase hash).count k ≤ pending.count k :=
  List.erase_sublist.count_le k

/-- An original in hand is attached, and the metadata row names it. -/
theorem Kept.attach {id : Int} (h : Kept codec s) (hin : hash ∈ s.pending) :
    Kept codec ⟨attachSessionBlob id hash s.db, s.pending.erase hash⟩ := by
  have hsame : SameStore s.db (attachSessionBlob id hash s.db) := ⟨⟨rfl, rfl, rfl⟩, rfl⟩
  have hstored : s.db.blobs.contains hash = true := by
    refine Database.count_pos_contains ?_
    have hle := h.counted hash
    have hpos := List.count_pos_iff.mpr hin
    omega
  refine h.of_loads (hsame.keepsStore.sound h.sound) hsame.keepsLoads (fun k hrefers => ?_)
    fun k hle => ?_
  · by_cases hk : k = hash
    · exact Or.inr (hk ▸ hstored)
    · refine Or.inl (Refers.of_rows hrefers (fun source _ r hr htext => ?_) rfl)
      rw [attachSessionBlob, Database.table_updateRows] at hr
      split at hr
      · next heq =>
          obtain ⟨r', hr', rfl⟩ := List.mem_map.mp hr
          refine ⟨r', heq ▸ hr', ?_⟩
          split at htext
          · by_cases hfield : source.2 = "session_blob"
            · rw [hfield, Record.text, Record.col_set_self] at htext
              exact absurd (Option.some.inj htext).symm hk
            · rwa [Record.text, Record.col_set_of_ne _ _ (Ne.symm hfield)] at htext
          · exact htext
      · exact ⟨r, hr, htext⟩
  · have herase := count_erase_le s.pending hash k
    show ((s.pending.erase hash).count k : Int) ≤ s.db.count k
    omega

/-- An original in hand is released, and its count with it. -/
theorem Kept.release (h : Kept codec s) (hin : hash ∈ s.pending) :
    Kept codec ⟨IronMem.decrefBlob hash s.db, s.pending.erase hash⟩ := by
  refine h.decrefBlob fun k => ⟨?_, fun _ _ => ?_⟩
  · have hle := h.counted k
    have herase := count_erase_le s.pending hash k
    omega
  · have hle := h.counted hash
    have hpos := List.count_pos_iff.mpr hin
    rw [List.count_erase_self]
    omega

end Stores

/-! ## Restore

The checkpoint brings its originals along, in the plain format and with the count 0. The names
in the rows it writes are of these or of originals that were there. -/

section Restore

variable {codec : Codec} {args : RestoreArgs} {state : State} {db db' : Database}

/-- The columns of a checkpoint that name an original hold text, as a capture writes them. -/
def State.TextSources (state : State) : Prop :=
  ∀ source ∈ SOURCE_FIELDS, ∀ r ∈ rowsOf state.tables source.1,
    hasType "TEXT" (r.col source.2) = true

theorem captured_sourceFields : ∀ source ∈ SOURCE_FIELDS,
    (source.2, "TEXT") ∈ captureFields source.1 ∧ source.1 ∈ TABLES ∧
      columnOf source.1 source.2 = source.2 ∧ source.2 ≠ "id" := by
  decide +kernel

theorem upsertSources_contains {sources : List (String × String)}
    (h : sources.foldlM (upsertSource codec) db = .ok db') :
    (∀ hash, db.blobs.contains hash = true → db'.blobs.contains hash = true) ∧
      ∀ e ∈ sources, db'.blobs.contains e.1 = true := by
  induction sources generalizing db with
  | nil =>
      obtain rfl := foldlM_nil_eq_ok.mp h
      exact ⟨fun _ => id, by simp⟩
  | cons e sources ih =>
      obtain ⟨t, ht, h⟩ := foldlM_cons_eq_ok.mp h
      obtain ⟨hold, hnew⟩ := ih h
      obtain ⟨bytes, -, ht⟩ := bind_eq_ok.mp ht
      obtain rfl := pure_eq_ok.mp ht
      refine ⟨fun hash hin => hold hash ?_, fun e' he' => ?_⟩
      · rw [Std.ExtTreeMap.contains_insert, hin, Bool.or_true]
      · rcases List.mem_cons.mp he' with rfl | he'
        · exact hold _ (by simp)
        · exact hnew e' he'

/-- The originals a checkpoint carries are stored after it is restored. -/
theorem restore_sources {counts : RestoreCounts} (hdry : args.dryRun = false)
    (h : restore codec args state db = .ok (counts, db')) {hash : String}
    (hin : state.sources.contains hash = true) : db'.blobs.contains hash = true := by
  obtain ⟨_, tables, -, hwrite⟩ := restore_written hdry h
  obtain ⟨s, -, hwrite⟩ := bind_eq_ok.mp hwrite
  obtain ⟨t, ht, hwrite⟩ := bind_eq_ok.mp hwrite
  obtain ⟨u, hu, hwrite⟩ := bind_eq_ok.mp hwrite
  obtain ⟨_, -, hwrite⟩ := bind_eq_ok.mp hwrite
  obtain rfl := pure_eq_ok.mp hwrite
  have hrest : SameStore t (state.auditEvidence.foldl (insertEvidence codec state.project) u) :=
    (sameStore_insertTables hu).trans (sameStore_insertEvidence _ _ _)
  have hblobs := hrest.blobs
  rw [Std.ExtTreeMap.contains_eq_isSome_getElem?] at hin
  obtain ⟨text, hget⟩ := Option.isSome_iff_exists.mp hin
  have hstored : t.blobs.contains hash = true := (upsertSources_contains ht).2 (hash, text)
    (Std.ExtTreeMap.mem_toList_iff_getElem?_eq_some.mpr hget)
  rw [← hblobs] at hstored
  exact hstored

/-- A name in a table that was replaced was there before, or the checkpoint has it. -/
theorem Replaced.named {kept : Record → Prop} {rows : List Record} {source : String × String}
    (h : Replaced codec args source.1 kept rows db db') (hsource : source ∈ SOURCE_FIELDS)
    (htext : state.TextSources) (hvalid : Validated codec state)
    (hrows : ∀ row ∈ rows, ∃ r ∈ rowsOf state.tables source.1, row.col source.2 = r.col source.2)
    {r : Record} (hr : r ∈ db'.table source.1) {hash : String}
    (hname : r.text source.2 = some hash) :
    (∃ r' ∈ db.table source.1, r'.text source.2 = some hash) ∨
      state.sources.contains hash = true := by
  rcases h.only r hr with ⟨hold, -⟩ | ⟨row, hrow, hins⟩
  · exact Or.inl ⟨r, hold, hname⟩
  · obtain ⟨r₀, hr₀, hcol₀⟩ := hrows row hrow
    obtain ⟨hfield, htable, hcolumn, hid⟩ := captured_sourceFields source hsource
    have hcol := hins.col_of_ne (captureFields_nodup _ htable) hfield (by rwa [hcolumn])
    rw [castTo_of_hasType (hcol₀ ▸ htext source hsource r₀ hr₀)
      (show "TEXT" ≠ "DOUBLE PRECISION" by decide), hcolumn, hcol₀] at hcol
    refine Or.inr (hvalid.closure source hsource r₀ hr₀ hash ?_)
    rwa [Record.text, Except.ok.inj hcol]

/-- Every name after a restore was there before it, or is of an original it has written. -/
theorem restore_named {counts : RestoreCounts} (hdry : args.dryRun = false)
    (htext : state.TextSources) (h : restore codec args state db = .ok (counts, db'))
    {hash : String} (hrefers : db'.Refers hash) :
    db.Refers hash ∨ db'.blobs.contains hash = true := by
  obtain ⟨current, tables, hprepared, hwrite⟩ := restore_written hdry h
  have hmetadata : ∀ row ∈ rowsOf tables "memory_meta", ∃ r ∈ rowsOf state.tables "memory_meta",
      row.col "session_blob" = r.col "session_blob" := by
    intro row hrow
    obtain ⟨r, hr, hmerged⟩ := forall₂_right hprepared.metadata row hrow
    obtain ⟨m, hm, hmid⟩ := hprepared.valid.owned "memory_meta" (by decide) r hr
    obtain ⟨id, hid, hlo, hhi⟩ := hprepared.valid.memoryId m hm
    have hi64 : r.i64 "memory_id" = some id := by
      rw [Record.i64, hmid.symm.trans hid, Value.asI64_int hlo hhi]
    exact ⟨r, hr, hmerged.col hi64 (by decide)⟩
  have hnamed : ∀ source ∈ SOURCE_FIELDS, ∀ r ∈ db'.table source.1,
      r.text source.2 = some hash → (∃ r' ∈ db.table source.1, r'.text source.2 = some hash) ∨
        state.sources.contains hash = true := by
    intro source hsource r hr hname
    have hfields := hsource
    simp only [SOURCE_FIELDS, List.mem_cons, List.not_mem_nil, or_false] at hfields
    rcases hfields with rfl | rfl | rfl
    · exact (writeRestore_replaced hprepared hwrite (by decide) (by decide) fun s hs r =>
        mem_memory_meta_deleteProject hs r).named hsource htext hprepared.valid hmetadata hr hname
    · refine (writeRestore_replaced hprepared hwrite (by decide) (by decide) fun s hs r =>
        mem_observations_deleteProject hs r).named hsource htext hprepared.valid
          (fun row hrow => ?_) hr hname
      rw [hprepared.rows _ (by decide) (by decide) (by decide)] at hrow
      exact ⟨row, hrow, rfl⟩
    · refine (writeRestore_replaced hprepared hwrite (by decide) (by decide) fun s hs r =>
        mem_memory_chunks_deleteProject hs r).named hsource htext hprepared.valid
          (fun row hrow => ?_) hr hname
      rw [hprepared.rows _ (by decide) (by decide) (by decide)] at hrow
      exact ⟨row, hrow, rfl⟩
  rcases hrefers with ⟨source, hsource, r, hr, -, hname⟩ | ⟨snap, hsnap, -, hblob⟩
  · rcases hnamed source hsource r hr hname with ⟨r', hr', hold⟩ | hin
    · exact Or.inl (Or.inl ⟨source, hsource, r', hr', rfl, hold⟩)
    · exact Or.inr (restore_sources hdry h hin)
  · exact Or.inl (Or.inr ⟨snap, (restore_frame h).1 ▸ hsnap, rfl, hblob⟩)

theorem Kept.restore {pending : List String} {counts : RestoreCounts}
    (hsha : Function.Injective codec.digest) (hkept : Kept codec ⟨db, pending⟩)
    (htext : args.dryRun = false → state.TextSources)
    (h : restore codec args state db = .ok (counts, db')) : Kept codec ⟨db', pending⟩ := by
  cases hdry : args.dryRun with
  | true =>
      obtain ⟨tables, -, hrest⟩ := bind_eq_ok.mp h
      rw [hdry, if_pos rfl] at hrest
      obtain ⟨-, rfl⟩ := Prod.mk.inj (pure_eq_ok.mp hrest)
      exact hkept
  | false =>
      have hkeeps := keepsStore_restore hsha h
      exact hkept.of_loads (hkeeps.sound hkept.sound) hkeeps.loads
        (fun _ hrefers => restore_named hdry (htext hdry) h hrefers)
        fun k hle => by rw [restore_count hdry h]; exact hle

end Restore

/-! ## Runs -/

/-- What the callers of the store do. -/
inductive KeepingAction where
  | store (plan : StorePlan) (bytes : Bytes) (fault : Nat → Option String)
  | attach (id : Int) (hash : String)
  | release (hash : String)
  | forget (id : Int) (args : DeleteArgs) (fault : Nat → Option String)
  | purge (id : Int) (fault : Nat → Option String)
  | convert (threshold : Nat) (apply : Bool) (fault : Nat → Option String)
  | collect
  | restore (args : RestoreArgs) (state : State)

/-- A store hands its caller a hash, and the caller attaches or releases it once. The calls stop
where a statement of theirs fails. -/
def KeepingAction.step (codec : Codec) : KeepingAction → Held → Option Held
  | .store plan bytes fault, s =>
      let (r, db) := (storeBlob codec plan bytes).run fault s.db
      some ⟨db, r.toOption.toList ++ s.pending⟩
  | .attach id hash, s =>
      if hash ∈ s.pending then
        some ⟨((setMemorySessionBlob id hash).run Proc.noFault s.db).2, s.pending.erase hash⟩
      else none
  | .release hash, s =>
      if hash ∈ s.pending then some ⟨decrefBlob hash s.db, s.pending.erase hash⟩ else none
  | .forget id args fault, s =>
      some { s with db := ((governedDeleteMemory codec id args).run fault s.db).2 }
  | .purge id fault, s => some { s with db := ((purgeMemory id).run fault s.db).2 }
  | .convert threshold apply fault, s =>
      some { s with db := ((IronMem.convert codec threshold apply).run fault s.db).2 }
  | .collect, s => some { s with db := (gcBlobs s.db).2 }
  | .restore args state, s =>
      ((IronMem.restore codec args state s.db).toOption.map Prod.snd).map fun db => { s with db }

/-- A deletion leaves the stores in hand their counts, and a restore writes names that are text. -/
def KeepingAction.Spares : KeepingAction → Held → Prop
  | .forget id _ _, s => s.Spares id
  | .restore args state, _ => args.dryRun = false → state.TextSources
  | _, _ => True

section Runs

variable {codec : Codec} {start s s' : Held}

theorem Kept.step (hsha : Function.Injective codec.digest)
    (hcuts : ∀ bytes, (codec.cuts bytes).flatten = bytes) {action : KeepingAction}
    (h : Kept codec s) (hok : action.Spares s) (hstep : action.step codec s = some s') :
    Kept codec s' := by
  cases action with
  | store plan bytes fault =>
      obtain rfl := Option.some.inj hstep
      exact h.storeBlob hsha hcuts rfl
  | attach id hash =>
      rw [KeepingAction.step] at hstep
      split at hstep
      · next hin => exact Option.some.inj hstep ▸ h.attach hin
      · cases hstep
  | release hash =>
      rw [KeepingAction.step] at hstep
      split at hstep
      · next hin => exact Option.some.inj hstep ▸ h.release hin
      · cases hstep
  | forget id args fault =>
      obtain rfl := Option.some.inj hstep
      exact kept_governedDeleteMemory h hok fault
  | purge id fault =>
      obtain rfl := Option.some.inj hstep
      exact keeps_purgeMemory id s.pending fault s.db h
  | convert threshold apply fault =>
      obtain rfl := Option.some.inj hstep
      exact keeps_convert hsha hcuts s.pending threshold apply fault s.db h
  | collect =>
      obtain rfl := Option.some.inj hstep
      exact h.gcBlobs
  | restore args state =>
      obtain ⟨db, hdb, rfl⟩ := Option.map_eq_some_iff.mp hstep
      obtain ⟨counts, hrestore⟩ := toOption_ok hdb
      exact Kept.restore hsha h hok hrestore

/-- In every run whose deletions leave the stores in hand their counts, and whose restores write
names that are text, an original that a row names or a caller holds loads to its bytes. -/
theorem originals_kept (hsha : Function.Injective codec.digest)
    (hcuts : ∀ bytes, (codec.cuts bytes).flatten = bytes) (hstart : Kept codec start)
    (hrun : Actions.Reaches (KeepingAction.step codec) KeepingAction.Spares (fun t => t = start)
      s) :
    ∀ hash, s.db.Refers hash ∨ hash ∈ s.pending →
      ∃ bytes, codec.digest bytes = hash ∧ loadBlob codec s.db hash = .ok bytes := by
  have hs : Kept codec s := hrun.invariant (fun t ht => ht ▸ hstart)
    fun action t t' ht hok hstep => ht.step hsha hcuts hok hstep
  intro hash hneeded
  have hstored : s.db.blobs.contains hash = true := by
    rcases hneeded with hrefers | hin
    · exact hs.named hash hrefers
    · refine Database.count_pos_contains ?_
      have hle := hs.counted hash
      have hpos := List.count_pos_iff.mpr hin
      omega
  obtain ⟨bytes, hload⟩ := hs.sound.loads hash hstored
  exact ⟨bytes, digest_of_loadBlob hload, hload⟩

/-! ### Two stores of one transcript -/

/-- Where nothing is stored and nothing named, nothing is missing. -/
theorem kept_of_empty {db : Database} (hblobs : db.blobs = ∅) (hchunks : db.ccrChunks = ∅)
    (hnames : ∀ hash, ¬db.Refers hash) : Kept codec ⟨db, []⟩ where
  sound := ⟨fun hash hin => by simp [hblobs] at hin, fun chunk c hc => by simp [hchunks] at hc⟩
  named := fun hash hrefers => absurd hrefers (hnames hash)
  counted := fun hash => by simp [Database.count, hblobs]

/-- The transcript of a command is stored. -/
def storeTranscript (command : String) : KeepingAction :=
  .store .floor (utf8 (buildTranscript (commandSession command))) Proc.noFault

/-- The memory is forgotten. -/
def forgetNote (now : Int) : KeepingAction := .forget 1 { now, ledgerNow := now } Proc.noFault

theorem plainNote_names (hash : String) : ¬plainNote.Refers hash := by
  have hnone : ∀ source ∈ SOURCE_FIELDS, ∀ r ∈ plainNote.table source.1,
      r.text source.2 = none := by
    decide +kernel
  rintro (⟨source, hsource, r, hr, -, hname⟩ | ⟨snap, hsnap, -⟩)
  · rw [hnone source hsource r hr] at hname
    cases hname
  · cases hsnap

/-- The transcript of a memory is stored once more, and is there after the memory is purged. -/
theorem originals_kept_purged : ∃ s : Held, transcriptHash "ls" ∈ s.pending ∧
    ∃ bytes, (jsonCodec []).digest bytes = transcriptHash "ls" ∧
      loadBlob (jsonCodec []) s.db (transcriptHash "ls") = .ok bytes := by
  have hrun : (Actions.run (KeepingAction.step (jsonCodec []))
      [storeTranscript "ls", .attach 1 (transcriptHash "ls"), storeTranscript "ls"]
      ⟨plainNote, []⟩).any (fun s => s.pending == [transcriptHash "ls"] &&
        s.db.getMemorySessionBlob 1 == some (transcriptHash "ls") &&
          decide (s.db.count (transcriptHash "ls") = 2)) = true := by
    decide +kernel
  obtain ⟨s, hs, hstate⟩ := (Option.any_eq_true _ _).mp hrun
  simp only [Bool.and_eq_true, beq_iff_eq, decide_eq_true_eq] at hstate
  obtain ⟨⟨hpending, hblob⟩, hcount⟩ := hstate
  have hin : transcriptHash "ls" ∈ s.pending := by simp [hpending]
  have hstored : Actions.Reaches (KeepingAction.step (jsonCodec [])) KeepingAction.Spares
      (fun t => t = ⟨plainNote, []⟩) s := by
    refine Actions.Reaches.run (.start rfl) (fun action haction t => ?_) hs
    simp only [List.mem_cons, List.not_mem_nil, or_false] at haction
    rcases haction with rfl | rfl | rfl <;> trivial
  have hspares : (forgetNote 110).Spares s := by
    intro hash hname _
    obtain rfl := Option.some.inj (hblob.symm.trans hname)
    rw [hcount, hpending]
    decide +kernel
  have hforgot := hstored.step hspares rfl
  have hpurged := hforgot.step (show (KeepingAction.purge 1 Proc.noFault).Spares _ from trivial) rfl
  have hcollected := hpurged.step (show KeepingAction.collect.Spares _ from trivial) rfl
  refine ⟨_, ?_, originals_kept (jsonCodec_lossless []).digest (fun bytes => List.append_nil bytes)
    (kept_of_empty rfl rfl plainNote_names) hcollected _ (Or.inr ?_)⟩
  · exact hin
  · exact hin

/-- The checkpoint of the memory with its transcript. -/
def transcribedCheckpoint : State :=
  match capture (jsonCodec []) (transcribed "ls" plainNote) "notes" true with
  | .ok state => state
  | .error _ => ⟨"notes", ∅, ∅, []⟩

/-- A restored memory names a transcript that has no count. The transcript is stored again, the
memory is forgotten and purged, and the original in hand is gone. -/
theorem originals_taken : ∃ (codec : Codec) (start s : Held), Function.Injective codec.digest ∧
    (∀ bytes, (codec.cuts bytes).flatten = bytes) ∧ Kept codec start ∧
      Actions.Reaches (KeepingAction.step codec) (fun _ _ => True) (fun t => t = start) s ∧
        ∃ hash ∈ s.pending, ∀ bytes, loadBlob codec s.db hash ≠ .ok bytes := by
  have hrun : (Actions.run (KeepingAction.step (jsonCodec []))
      [.restore importArgs transcribedCheckpoint, storeTranscript "ls", forgetNote 300,
        .purge 1 Proc.noFault, .collect] ⟨{}, []⟩).any (fun s =>
          s.pending.contains (transcriptHash "ls") &&
            !s.db.blobs.contains (transcriptHash "ls")) = true := by
    decide +kernel
  obtain ⟨s, hs, hstate⟩ := (Option.any_eq_true _ _).mp hrun
  rw [Bool.and_eq_true, List.contains_iff_mem, Bool.not_eq_true'] at hstate
  have hnames : ∀ hash, ¬({} : Database).Refers hash := by
    rintro hash (⟨source, -, r, hr, -⟩ | ⟨snap, hsnap, -⟩)
    · cases hr
    · cases hsnap
  refine ⟨jsonCodec [], ⟨{}, []⟩, s, (jsonCodec_lossless []).digest,
    fun bytes => List.append_nil bytes, kept_of_empty rfl rfl hnames,
    Actions.Reaches.run (.start rfl) (fun _ _ _ => trivial) hs, _, hstate.1, fun bytes hload => ?_⟩
  have hin := contains_of_load hload
  rw [hstate.2] at hin
  cases hin

end Runs

end IronMem
