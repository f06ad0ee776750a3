import IronMem.ChunkExpansion
import IronMem.Lib.Actions
import IronMem.OriginalCounts

/-!
# Forgotten originals are reclaimed

Collection takes what has no count and no row, so an original whose rows are gone goes as long
as no count outlives the rows it was added for. Most calls keep that balance. The ones that may
not are an attachment over a transcript that is counted, and a restore that drops rows their
checkpoint does not have; and the collection of a delta may leave its parent without a row.

`Accounted` is the balance: no original has more counts than rows. A call is balanced at the state
it meets (`OriginalCall.Balanced`), which for most calls is no condition at all, and then keeps
it (`Accounted.step`). The counts and rows of each call come from `OriginalCounts`; forgetting is
the one that passes through a state out of balance, between its tombstone and its purge
(`Forgot`).

After a collection every count has its row and every link leaves its parent with one, so that
everything that stays is pinned (`pinned_of_gcBlobs`), chunks by the objects they belong to
(`chunk_of_gcBlobs`). A restore is followed through its deletions and insertions, inside the
project and outside (`restore_refs`).

This is the other half of `OriginalKeeping`: there an original that something refers to does not
go, here one that nothing refers to does not stay. A run starts in balance and mixes the calls
in any order, with any change of the tables that hold no names in between; each call is taken
where it succeeds.
-/

namespace IronMem

open Fallible

/-! ## The balance

The counts of an original are at most as many as the rows that are counted where they are
written. A call that takes a row has to take its count too, and one that adds a count has to add
a row. -/

/-- No original has more counts than rows, a memory has one metadata row and a listed checkpoint
its own id. -/
structure Accounted (db : Database) : Prop where
  counted : ∀ hash, db.count hash ≤ db.refs hash
  metaKeys : db.MetaKeyed
  snapshotIds : (db.brainSnapshots.map BrainSnapshot.id).Nodup

section Deletion

variable {codec : Codec} {db db' : Database} {id : Int} {args : DeleteArgs}

/-- What forgetting leaves before the purge: the name of the transcript without its count. -/
structure Forgot (id : Int) (db db' : Database) : Prop where
  metadata : ∃ now reason,
    db'.table "memory_meta" = (tombstoneMemory id now reason db).table "memory_meta"
  observations : db'.table "observations" = db.table "observations"
  snapshots : db'.brainSnapshots = db.brainSnapshots
  count : ∀ hash, 0 < db'.count hash → db'.count hash
    = db.count hash - if db.getMemorySessionBlob id = some hash then 1 else 0

theorem releaseAndDelete_frame (id : Int) (db : Database) :
    (∀ n, n ≠ "memories" → (releaseAndDelete id db).table n = db.table n) ∧
      (releaseAndDelete id db).brainSnapshots = db.brainSnapshots := by
  have htable : ∀ d : Database, ∀ n, n ≠ "memories" →
      (deleteMemory id (gcBlobs d).2).2.table n = d.table n := by
    intro d n hn
    rw [deleteMemory, Database.table_deleteRows, if_neg hn]
    rfl
  unfold releaseAndDelete
  cases db.getMemorySessionBlob id with
  | none => exact ⟨htable db, rfl⟩
  | some hash =>
      refine ⟨fun n hn => ?_, (decrefBlob_frame hash db).1⟩
      rw [htable _ n hn, decrefBlob_table]

theorem count_releaseAndDelete {hash : String} (hpos : 0 < (releaseAndDelete id db).count hash) :
    (releaseAndDelete id db).count hash
      = db.count hash - if db.getMemorySessionBlob id = some hash then 1 else 0 := by
  have hcount : ∀ d : Database,
      (deleteMemory id (gcBlobs d).2).2.count hash = (gcBlobs d).2.count hash :=
    fun d => count_congr rfl hash
  unfold releaseAndDelete at hpos ⊢
  cases hblob : db.getMemorySessionBlob id with
  | none =>
      rw [hblob] at hpos
      dsimp only at hpos ⊢
      rw [hcount] at hpos ⊢
      rw [if_neg (Option.some_ne_none hash).symm, sub_zero]
      rcases @count_gcBlobs_cases db hash with heq | heq
      · exact heq
      · omega
  | some named =>
      rw [hblob] at hpos
      dsimp only at hpos ⊢
      rw [hcount] at hpos ⊢
      simp only [Option.some.injEq]
      rcases @count_gcBlobs_cases (decrefBlob named db) hash with heq | heq
      · rw [heq, count_decrefBlob] at hpos ⊢
        split at hpos
        · next hcond => rw [if_pos hcond, if_pos hcond.1.symm]
        · next hcond =>
            rw [if_neg hcond, if_neg fun hn => hcond ⟨hn.symm, hpos⟩, sub_zero]
      · omega

/-- A name in the metadata row survives the tombstone. -/
theorem getMemorySessionBlob_tombstone (id now : Int) (reason : Option String) (db : Database)
    (k : Int) :
    (tombstoneMemory id now reason db).getMemorySessionBlob k = db.getMemorySessionBlob k := by
  rw [Database.getMemorySessionBlob, metaRow_tombstoneMemory, Database.getMemorySessionBlob]
  cases db.metaRow k with
  | none => rfl
  | some r =>
      simp only [Option.map_some, Option.bind_some]
      split
      · simp [Record.text]
      · rfl

theorem governedDeleteMemory_ok {deleted : Bool}
    (h : (governedDeleteMemory codec id args).run Proc.noFault db = (.ok deleted, db')) :
    db' = db ∧ deleted = false ∨ Forgot id db db' := by
  obtain ⟨memory, s, hmemory, hrest⟩ := Proc.run_bind_ok h
  obtain ⟨-, rfl⟩ := Proc.run_query_ok hmemory
  cases memory with
  | none =>
      obtain ⟨hdeleted, rfl⟩ := Prod.mk.inj hrest
      exact Or.inl ⟨rfl, (Except.ok.inj hdeleted).symm⟩
  | some memory =>
      obtain ⟨info, s₀, hinfo, hbody⟩ := Proc.run_bind_ok hrest
      obtain ⟨-, rfl⟩ := Proc.run_query_ok hinfo
      split at hbody
      · cases hbody
      · obtain ⟨_, s₁, htombstone, h₁⟩ := Proc.run_bind_ok hbody
        obtain ⟨-, rfl⟩ := Prod.mk.inj (Except.ok.inj (Proc.run_exec_ok htombstone))
        obtain ⟨blob, s₂, hblob, h₂⟩ := Proc.run_bind_ok h₁
        obtain ⟨-, rfl⟩ := Proc.run_query_ok hblob
        obtain ⟨entry, s₃, hledger, h₃⟩ := Proc.run_bind_ok h₂
        obtain ⟨row, rfl, -, -⟩ := appendMemoryLedger_ok (Proc.run_exec_ok hledger)
        obtain ⟨-, rfl⟩ := run_forgetTail_ok h₃
        obtain ⟨htable, hsnaps⟩ := releaseAndDelete_frame id
          ((tombstoneMemory id args.now args.reason s₀).insertRow "memory_ledger" row)
        refine Or.inr ⟨⟨args.now, args.reason, ?_⟩, ?_, hsnaps, fun hash hpos => ?_⟩
        · rw [htable _ (by decide), Database.table_insertRow, if_neg (by decide)]
        · rw [htable _ (by decide), Database.table_insertRow, if_neg (by decide), tombstoneMemory,
            Database.table_updateRows, if_neg (by decide)]
        · rw [count_releaseAndDelete hpos]
          have hnamed : ((tombstoneMemory id args.now args.reason s₀).insertRow "memory_ledger"
              row).getMemorySessionBlob id = s₀.getMemorySessionBlob id :=
            getMemorySessionBlob_tombstone id args.now args.reason s₀ id
          rw [hnamed]
          rfl

/-- A metadata row goes with the rows that are deleted under it; other roots stay. -/
theorem deleteCascade_metadata
    (h : deleteCascade "memory_meta" (fun r => r.col "memory_id" = .int id) db = .ok db') :
    db'.table "memory_meta"
      = (db.table "memory_meta").filter (fun r => !decide (r.col "memory_id" = .int id)) ∧
    db'.table "observations" = db.table "observations" ∧ db'.blobs = db.blobs ∧
    db'.brainSnapshots = db.brainSnapshots := by
  refine ⟨?_, deleteCascade_frame h (by decide) (by decide), (sameStore_deleteCascade h).blobs, ?_⟩
  · rw [(@followReferences_table _ _ "memory_meta" _ _ h).2.2 fun ref href => ?_,
      Database.table_deleteRows, if_pos rfl]
    have hnone := (mem_referrers.mp href).2.1
    simp [schema] at hnone
  · refine foldlM_induction (p := fun s : Database => s.brainSnapshots = db.brainSnapshots) h
      (fun s referrer s' _ hs hstep => ?_) rfl
    rw [followReference] at hstep
    split at hstep
    · rw [← Except.ok.inj hstep]
      exact hs
    · obtain ⟨_, -, hstep⟩ := bind_eq_ok.mp hstep
      rw [← pure_eq_ok.mp hstep]
      exact hs

theorem purgeMemory_ok {u : Unit} (h : (purgeMemory id).run Proc.noFault db = (.ok u, db')) :
    db'.table "memory_meta"
      = (db.table "memory_meta").filter (fun r => !decide (r.col "memory_id" = .int id)) ∧
    db'.table "observations" = db.table "observations" ∧ db'.blobs = db.blobs ∧
    db'.brainSnapshots = db.brainSnapshots := by
  obtain ⟨_, s, hmeta, h⟩ := Proc.run_bind_ok h
  obtain ⟨_, s₁, h₁, hmeta⟩ := Proc.run_bind_ok hmeta
  obtain ⟨_, s₂, h₂, hmeta⟩ := Proc.run_bind_ok hmeta
  obtain ⟨_, s₃, h₃, h⟩ := Proc.run_bind_ok h
  obtain ⟨_, s₄, h₄, h⟩ := Proc.run_bind_ok h
  obtain ⟨-, rfl⟩ := Prod.mk.inj (Except.ok.inj (Proc.run_exec_ok h₁))
  obtain ⟨-, rfl⟩ := Prod.mk.inj (Except.ok.inj (Proc.run_exec_ok h₂))
  obtain ⟨-, rfl⟩ := Prod.mk.inj (Except.ok.inj (Proc.run_exec_ok h₃))
  obtain ⟨-, rfl⟩ := Prod.mk.inj (Except.ok.inj (Proc.run_exec_ok h₄))
  obtain ⟨-, rfl⟩ := Prod.mk.inj (Except.ok.inj (Proc.run_exec_ok h))
  obtain ⟨t, hcascade, hdone⟩ := bind_eq_ok.mp (Proc.run_exec_ok hmeta)
  obtain ⟨-, rfl⟩ := Prod.mk.inj (pure_eq_ok.mp hdone)
  obtain ⟨hrows, hobs, hblobs, hsnaps⟩ := deleteCascade_metadata hcascade
  refine ⟨?_, ?_, hblobs, hsnaps⟩
  · simpa using hrows
  · simpa using hobs

end Deletion

/-! ## Checkpoints

A listed checkpoint is counted by its row in `brain_snapshots`. Creation adds both, deletion
takes both; the parents of a delta are pinned by dependency rows, which are no counts. -/

section Checkpoints

variable {codec : Codec} {db db' : Database}

theorem publish_counts {args : CreateArgs} {state : State} {envelope : Envelope}
    {snap : BrainSnapshot} (h : publish codec args state envelope db = .ok (snap, db')) :
    db'.table = db.table ∧ db'.brainSnapshots = db.brainSnapshots ++ [snap] ∧
      (∀ s ∈ db.brainSnapshots, s.id ≠ snap.id) ∧
      ∀ hash, db'.count hash
        = if hash = snap.blobHash then db.count hash + 1 else db.count hash := by
  rw [publish, persistBlob_eq] at h
  dsimp only at h
  obtain ⟨_, -, h⟩ := bind_eq_ok.mp h
  obtain ⟨_, hfree, h⟩ := bind_eq_ok.mp h
  obtain ⟨rfl, rfl⟩ := Prod.mk.inj (pure_eq_ok.mp h)
  refine ⟨rfl, rfl, fun s hs => ?_, fun hash => ?_⟩
  · rw [ensure_eq_ok, List.all_eq_true] at hfree
    simpa using hfree s hs
  · exact (count_congr rfl hash).trans (count_insertBlob rfl)

/-- A listed checkpoint among the others. -/
theorem snapshot_split {snapshotId : String} {snap : BrainSnapshot}
    (hids : (db.brainSnapshots.map BrainSnapshot.id).Nodup)
    (h : db.brainSnapshots.find? (fun s => s.id = snapshotId) = some snap) :
    ∃ before after, db.brainSnapshots = before ++ snap :: after ∧
      db.brainSnapshots.filter (fun s => s.id ≠ snapshotId) = before ++ after := by
  obtain ⟨hid, before, after, hsplit, hbefore⟩ := List.find?_eq_some_iff_append.mp h
  rw [decide_eq_true_eq] at hid
  refine ⟨before, after, hsplit, ?_⟩
  rw [hsplit, List.map_append, List.map_cons, List.nodup_append, List.nodup_cons] at hids
  have hkeep : ∀ l : List BrainSnapshot, (∀ s ∈ l, s.id ≠ snapshotId) →
      l.filter (fun s => s.id ≠ snapshotId) = l := fun l hl =>
    List.filter_eq_self.mpr fun s hs => decide_eq_true (hl s hs)
  rw [hsplit, List.filter_append, List.filter_cons_of_neg (by simp [hid]),
    hkeep before fun s hs => ?_, hkeep after fun s hs heq => ?_]
  · exact hids.2.1.1 (List.mem_map.mpr ⟨s, hs, heq.trans hid.symm⟩)
  · simpa using hbefore s hs

theorem delete_counts {snapshotId : String} (hids : (db.brainSnapshots.map BrainSnapshot.id).Nodup)
    (h : delete snapshotId db = .ok db') :
    db'.table = db.table ∧ db'.brainSnapshots.Sublist db.brainSnapshots ∧
      ∀ hash, db.count hash ≤ db.refs hash → db'.count hash ≤ db'.refs hash := by
  unfold delete at h
  split at h
  · cases h
  · next snap hsnap =>
      obtain ⟨before, after, hsplit, hfilter⟩ := snapshot_split hids hsnap
      -- the state without the row and without its count
      have hreleased : ∀ d : Database, d = decrefBlob snap.blobHash
          { db with brainSnapshots := db.brainSnapshots.filter fun s => s.id ≠ snapshotId } →
          ∀ d' : Database, d'.table = d.table → d'.brainSnapshots = d.brainSnapshots →
            d'.blobs = d.blobs → d'.table = db.table ∧
            d'.brainSnapshots.Sublist db.brainSnapshots ∧
            ∀ hash, db.count hash ≤ db.refs hash → d'.count hash ≤ d'.refs hash := by
        rintro d rfl d' htable hsnaps hblobs
        rw [decrefBlob_table] at htable
        rw [(decrefBlob_frame _ _).1] at hsnaps
        refine ⟨htable, hsnaps ▸ List.filter_sublist, fun hash hle => ?_⟩
        have hrefs : d'.refs hash + (if snap.blobHash = hash then 1 else 0) = db.refs hash := by
          have hkept : d'.brainSnapshots = before ++ after := hsnaps.trans hfilter
          simp only [Database.refs, htable, hkept, hsplit, List.countP_append, List.countP_cons,
            beq_iff_eq]
          omega
        rw [count_congr hblobs, count_decrefBlob]
        have hcount : ({ db with brainSnapshots :=
            db.brainSnapshots.filter fun s => s.id ≠ snapshotId } : Database).count hash
              = db.count hash := count_congr rfl hash
        rw [hcount]
        by_cases hcond : hash = snap.blobHash
        · rw [if_pos hcond.symm] at hrefs
          by_cases hpos : 0 < db.count hash
          · rw [if_pos ⟨hcond, hpos⟩]
            omega
          · rw [if_neg fun hc => hpos hc.2]
            omega
        · rw [if_neg (Ne.symm hcond)] at hrefs
          rw [if_neg fun hc => hcond hc.1]
          omega
      dsimp only at h
      split at h
      · rw [← Except.ok.inj h]
        exact hreleased _ rfl _ rfl rfl rfl
      · rw [← Except.ok.inj h]
        exact hreleased _ rfl _ rfl rfl rfl

end Checkpoints

/-! ## Restore

Restore deletes the rows of a project and inserts those of the checkpoint, without a look at the
counts. The number of rows afterwards is that outside the project and that of the checkpoint. -/

/-- The counted rows outside a project that name the original. -/
def Database.refsOutside (db : Database) (project hash : String) : Nat :=
  mentions "session_blob" hash
      ((db.table "memory_meta").filter fun r => !db.inProject project "memory_meta" r)
    + mentions "output_blob" hash
      ((db.table "observations").filter fun r => !db.inProject project "observations" r)
    + db.brainSnapshots.countP fun s => s.blobHash == hash

/-- The rows of a checkpoint that name the original. -/
def State.refs (state : State) (hash : String) : Nat :=
  mentions "session_blob" hash (rowsOf state.tables "memory_meta")
    + mentions "output_blob" hash (rowsOf state.tables "observations")

section Restore

variable {codec : Codec} {args : RestoreArgs} {state : State} {db db' : Database}
  {project n : String}

/-- A table that foreign keys only block is not followed into. -/
theorem followReferences_restrict {gone : List Record} {refs : List (String × Reference)}
    (h : refs.foldlM (followReference gone) db = .ok db')
    (hrefs : ∀ ref, (n, ref) ∈ refs → ref.cascade = false) : db'.table n = db.table n := by
  refine foldlM_induction (p := fun s : Database => s.table n = db.table n) h
    (fun s referrer s' hmem hs hstep => ?_) rfl
  rw [followReference] at hstep
  split at hstep
  · next hcascade =>
      rw [← Except.ok.inj hstep, Database.table_deleteRows, if_neg, hs]
      rintro rfl
      rw [hrefs referrer.2 hmem] at hcascade
      cases hcascade
  · obtain ⟨_, -, hstep⟩ := bind_eq_ok.mp hstep
    rw [← pure_eq_ok.mp hstep, hs]

theorem deleteProject_metadata (h : deleteProject project db = .ok db') :
    db'.table "memory_meta"
      = (db.table "memory_meta").filter fun r => !db.inProject project "memory_meta" r := by
  obtain ⟨s, t, hs, ht, h⟩ := deleteProject_split ["assertion_events", "contradiction_members",
    "contradiction_sets", "reflection_proposals", "code_anchors", "memory_chunks",
    "memory_edges", "memory_entities", "memory_influence_policy", "memory_evidence_roots"]
    "memory_meta" ["memories", "observations", "sessions"] rfl h
  have hids : s.memoryIds project = db.memoryIds project := by
    rw [Database.memoryIds, Database.memoryIds, deleteTables_frame hs (by decide)]
  have hown : s.inProject project "memory_meta" = db.inProject project "memory_meta" := by
    funext r
    simp only [Database.inProject, hids]
  rw [deleteTables_frame h (by decide), followReferences_restrict ht (fun ref href => ?_),
    Database.table_deleteRows, if_pos rfl, deleteTables_frame hs (by decide), hown]
  have hnone := (mem_referrers.mp href).2.1
  simp [schema] at hnone

theorem deleteProject_observations (h : deleteProject project db = .ok db') :
    db'.table "observations"
      = (db.table "observations").filter fun r => !db.inProject project "observations" r := by
  obtain ⟨s, t, hs, ht, h⟩ := deleteProject_split ["assertion_events", "contradiction_members",
    "contradiction_sets", "reflection_proposals", "code_anchors", "memory_chunks",
    "memory_edges", "memory_entities", "memory_influence_policy", "memory_evidence_roots",
    "memory_meta", "memories"] "observations" ["sessions"] rfl h
  obtain ⟨u, hu, hdone⟩ := foldlM_cons_eq_ok.mp h
  obtain rfl := foldlM_nil_eq_ok.mp hdone
  have hblocks : ∀ name ref, ("observations", ref) ∈ referrers name → ref.cascade = false := by
    intro name ref href
    have hin := (mem_referrers.mp href).2.1
    simp only [schema, List.mem_singleton] at hin
    rw [hin]
  rw [followReferences_restrict hu (hblocks _), Database.table_deleteRows, if_neg (by decide),
    followReferences_restrict ht (hblocks _), Database.table_deleteRows, if_pos rfl,
    deleteTables_frame hs (by decide)]
  rfl

theorem captured_sources : ("session_blob", "TEXT") ∈ captureFields "memory_meta" ∧
    ("output_blob", "TEXT") ∈ captureFields "observations" := by
  decide +kernel

/-- A restore leaves the counts. -/
theorem restore_count {counts : RestoreCounts} (hdry : args.dryRun = false)
    (h : restore codec args state db = .ok (counts, db')) (hash : String) :
    db'.count hash = db.count hash := by
  obtain ⟨_, tables, -, hwrite⟩ := restore_written hdry h
  obtain ⟨s, hdelete, hwrite⟩ := bind_eq_ok.mp hwrite
  obtain ⟨t, ht, hwrite⟩ := bind_eq_ok.mp hwrite
  obtain ⟨u, hu, hwrite⟩ := bind_eq_ok.mp hwrite
  obtain ⟨_, -, hwrite⟩ := bind_eq_ok.mp hwrite
  obtain rfl := pure_eq_ok.mp hwrite
  have hs : s.count hash = db.count hash :=
    (count_congr (sameStore_deleteProject hdelete).blobs hash).trans (count_congr rfl hash)
  have ht : t.count hash = db.count hash := by
    refine foldlM_induction (p := fun d : Database => d.count hash = db.count hash) ht
      (fun d e d' _ hd hstep => ?_) hs
    obtain ⟨bytes, -, hstep⟩ := bind_eq_ok.mp hstep
    rw [← pure_eq_ok.mp hstep, ← hd]
    refine (count_congr rfl hash).trans (count_insert.trans ?_)
    split
    · next heq =>
        rw [heq, Database.count]
        cases d.blobs[e.1]? <;> rfl
    · rfl
  have hu : u.count hash = db.count hash :=
    (count_congr (sameStore_insertTables hu).blobs hash).trans ht
  exact (count_congr (sameStore_insertEvidence _ _ _).blobs hash).trans hu

/-- The rows outside the project are there after a restore, and the ones of the checkpoint. -/
theorem restore_refs {counts : RestoreCounts} (hdry : args.dryRun = false)
    (h : restore codec args state db = .ok (counts, db')) (hash : String) :
    db.refsOutside state.project hash + state.refs hash ≤ db'.refs hash := by
  obtain ⟨current, tables, hprepared, hwrite⟩ := restore_written hdry h
  obtain ⟨s, t, u, hdelete, ht, hinsert, htable⟩ := writeRestore_ok hwrite
  obtain ⟨metadata, hmeta, hmetaTable, -⟩ :=
    @insertTables_ok _ _ _ _ "memory_meta" _ hinsert (by decide)
  obtain ⟨observations, hobs, hobsTable, -⟩ :=
    @insertTables_ok _ _ _ _ "observations" _ hinsert (by decide)
  rw [hprepared.fields _ (by decide) (by decide)] at hmeta hobs
  rw [hprepared.rows "observations" (by decide) (by decide) (by decide)] at hobs
  have hcast : ∀ {name f : String} {row r : Record}, name ∈ TABLES → columnOf name f = f →
      f ≠ "id" → (f, "TEXT") ∈ captureFields name →
      InsertedRow codec args name (captureFields name) row r →
      row.text f = some hash → r.text f = some hash := by
    intro name f row r hname hf hid hfield hins htext
    have hcol := hins.col_of_ne (captureFields_nodup name hname) hfield (by rwa [hf])
    rw [Value.asStr_eq_some.mp htext, hf] at hcol
    rw [Record.text, ← Except.ok.inj hcol]
    rfl
  have hmerged : mentions "session_blob" hash (rowsOf state.tables "memory_meta")
      ≤ mentions "session_blob" hash (rowsOf tables "memory_meta") := by
    refine mentions_le_of_forall₂ hprepared.metadata fun r hr r' hrow htext => ?_
    obtain ⟨m, hm, hmid⟩ := hprepared.valid.owned "memory_meta" (by decide) r hr
    obtain ⟨id, hid, hlo, hhi⟩ := hprepared.valid.memoryId m hm
    have hi64 : r.i64 "memory_id" = some id := by
      rw [Record.i64, hmid.symm.trans hid, Value.asI64_int hlo hhi]
    rwa [Record.text, hrow.col hi64 (by decide)]
  have hnewMeta : mentions "session_blob" hash (rowsOf tables "memory_meta")
      ≤ mentions "session_blob" hash metadata := mentions_le_of_forall₂ hmeta fun r _ r' hrow =>
    hcast (by decide) rfl (by decide) captured_sources.1 hrow
  have hnewObs : mentions "output_blob" hash (rowsOf state.tables "observations")
      ≤ mentions "output_blob" hash observations := mentions_le_of_forall₂ hobs fun r _ r' hrow =>
    hcast (by decide) rfl (by decide) captured_sources.2 hrow
  have hkept : db'.table "memory_meta" = (db.table "memory_meta").filter
      (fun r => !db.inProject state.project "memory_meta" r) ++ metadata := by
    rw [htable _ (by decide), hmetaTable, ht, deleteProject_metadata hdelete]
    rfl
  have hkeptObs : db'.table "observations" = (db.table "observations").filter
      (fun r => !db.inProject state.project "observations" r) ++ observations := by
    rw [htable _ (by decide), hobsTable, ht, deleteProject_observations hdelete]
    rfl
  have hsnaps := (restore_frame h).1
  rw [Database.refs, hkept, hkeptObs, hsnaps, mentions_append, mentions_append,
    Database.refsOutside, State.refs]
  omega

end Restore

/-! ## The calls -/

/-- What a call that succeeds leaves. -/
def completed {α : Type} (p : Call α) (db : Database) : Option Database :=
  match p.run Proc.noFault db with
  | (.ok _, db') => some db'
  | (.error _, _) => none

/-- The calls that write or take a counted row, the collection, and any other change of the
tables. -/
inductive OriginalCall where
  | insertObservation (args : ObservationArgs)
  | storeSessionTranscript (plan : StorePlan) (id : Int) (observations : List Observation)
  | setMemorySessionBlob (id : Int) (hash : String)
  | forgetAndPurge (id : Int) (args : DeleteArgs)
  | createCheckpoint (args : CreateArgs)
  | deleteCheckpoint (snapshotId : String)
  | restoreCheckpoint (args : RestoreArgs) (state : State)
  | collect
  | change (table : String → List Record)

/-- What a call leaves where it succeeds. -/
def OriginalCall.step (codec : Codec) : OriginalCall → Database → Option Database
  | .insertObservation args, db => completed (IronMem.insertObservation codec args) db
  | .storeSessionTranscript plan id observations, db =>
      completed (IronMem.storeSessionTranscript codec plan id observations) db
  | .setMemorySessionBlob id hash, db => completed (IronMem.setMemorySessionBlob id hash) db
  | .forgetAndPurge id args, db => completed (IronMem.forgetAndPurge codec id args) db
  | .createCheckpoint args, db => (create codec args db).toOption.map Prod.snd
  | .deleteCheckpoint snapshotId, db => (delete snapshotId db).toOption
  | .restoreCheckpoint args state, db => (restore codec args state db).toOption.map Prod.snd
  | .collect, db => some (gcBlobs db).2
  | .change table, db => some { db with table := table }

/-- Collection leaves the parent of every link with a row, a head or a child that stays. -/
def Database.KeepsParents (db : Database) : Prop :=
  ∀ e ∈ db.checkpointDependencies, db.Refers e.2 ∨
    (∃ head ∈ db.checkpointHeads.toList, head.2 = e.2) ∨
    ∃ e' ∈ db.checkpointDependencies, e'.2 = e.2 ∧
      ∃ b, db.blobs[e'.1]? = some b ∧ db.garbage e'.1 b = false

/-- The call takes no name of an original that is counted for it: an attachment finds the memory
with a transcript that has more rows than counts, or none; a restore puts back a name for every
count; and a change keeps the names. -/
def OriginalCall.Balanced : OriginalCall → Database → Prop
  | .storeSessionTranscript _ id observations, db => buildTranscript observations ≠ "" →
      (db.metaRow id).isSome = true ∧
        ∀ old, db.getMemorySessionBlob id = some old → db.count old < db.refs old
  | .setMemorySessionBlob id hash, db =>
      ∀ old, db.getMemorySessionBlob id = some old → old ≠ hash → db.count old < db.refs old
  | .restoreCheckpoint args state, db => args.dryRun = false →
      ∀ hash, db.count hash ≤ db.refsOutside state.project hash + state.refs hash
  | .collect, db => db.KeepsParents
  | .change table, db => ({ db with table := table } : Database).MetaKeyed ∧
      ∀ hash, db.refs hash ≤ ({ db with table := table } : Database).refs hash
  | _, _ => True

section Step

variable {codec : Codec} {db db' : Database}

theorem completed_ok {α : Type} {p : Call α} (h : completed p db = some db') :
    ∃ a, p.run Proc.noFault db = (.ok a, db') := by
  unfold completed at h
  split at h
  · next a s hrun => exact ⟨a, Option.some.inj h ▸ hrun⟩
  · cases h

theorem toOption_ok {α : Type} {x : Except String (α × Database)}
    (h : x.toOption.map Prod.snd = some db') :
    ∃ a, x = .ok (a, db') := by
  cases x with
  | error e => cases h
  | ok r => exact ⟨r.1, congrArg Except.ok (Prod.ext rfl (Option.some.inj h))⟩

/-- Calls that leave the metadata and the list of checkpoints. -/
theorem Accounted.of_counts (h : Accounted db)
    (hcounts : ∀ hash, db.count hash ≤ db.refs hash → db'.count hash ≤ db'.refs hash)
    (hmeta : db'.table "memory_meta" = db.table "memory_meta")
    (hsnaps : db'.brainSnapshots.Sublist db.brainSnapshots) : Accounted db' where
  counted := fun hash => hcounts hash (h.counted hash)
  metaKeys := by
    rw [Database.MetaKeyed, hmeta]
    exact h.metaKeys
  snapshotIds := h.snapshotIds.sublist (hsnaps.map _)

theorem metaKeyed_attachSessionBlob {id : Int} {hash : String} (h : db.MetaKeyed) :
    (attachSessionBlob id hash db).MetaKeyed :=
  MetaKeyed.updateRows h fun r => Record.col_set_of_ne _ _ (by decide)

theorem count_attachSessionBlob (id : Int) (new : String) (db : Database) (hash : String) :
    (attachSessionBlob id new db).count hash = db.count hash := rfl

/-- Without a metadata row there is nothing to attach to. -/
theorem refs_attachSessionBlob_none {id : Int} {new : String} (h : db.metaRow id = none)
    (hash : String) :
    (attachSessionBlob id new db).refs hash = db.refs hash := by
  have hmeta : (attachSessionBlob id new db).table "memory_meta" = db.table "memory_meta" := by
    rw [attachSessionBlob, Database.table_updateRows, if_pos rfl]
    refine (List.map_congr_left fun r hr => ?_).trans (List.map_id _)
    rw [if_neg (by simpa using metaRow_eq_none h r hr), id_eq]
  have hobs : (attachSessionBlob id new db).table "observations" = db.table "observations" := by
    rw [attachSessionBlob, Database.table_updateRows, if_neg (by decide)]
  exact refs_congr hmeta hobs rfl hash

theorem accounted_setMemorySessionBlob {id : Int} {hash : String} (h : Accounted db)
    (hspare : ∀ old, db.getMemorySessionBlob id = some old → old ≠ hash →
      db.count old < db.refs old) :
    Accounted (attachSessionBlob id hash db) := by
  refine ⟨fun k => ?_, metaKeyed_attachSessionBlob h.metaKeys, h.snapshotIds⟩
  have hle := h.counted k
  rw [count_attachSessionBlob]
  cases hr : db.metaRow id with
  | none => rw [refs_attachSessionBlob_none hr]; exact hle
  | some r =>
      have hrefs : (attachSessionBlob id hash db).refs k
          + (if r.text "session_blob" = some k then 1 else 0)
            = db.refs k + if hash = k then 1 else 0 :=
        refs_attachSessionBlob h.metaKeys hr k
      by_cases hold : r.text "session_blob" = some k
      · by_cases hk : k = hash
        · rw [if_pos hold, if_pos hk.symm] at hrefs
          omega
        · have hlt := hspare k (by rw [Database.getMemorySessionBlob, hr]; exact hold) hk
          rw [if_pos hold, if_neg (Ne.symm hk)] at hrefs
          omega
      · rw [if_neg hold] at hrefs
        split at hrefs <;> omega

theorem accounted_storeSessionTranscript {plan : StorePlan} {id : Int}
    {observations : List Observation} (h : Accounted db)
    (hok : (OriginalCall.storeSessionTranscript plan id observations).Balanced db)
    {hash : Option String} (hrun : (storeSessionTranscript codec plan id observations).run
      Proc.noFault db = (.ok hash, db')) :
    Accounted db' := by
  rw [storeSessionTranscript] at hrun
  split at hrun
  · obtain ⟨-, rfl⟩ := Prod.mk.inj hrun
    exact h
  · next hnonempty =>
      obtain ⟨hmeta, hspare⟩ := hok hnonempty
      obtain ⟨new, s, hstore, hrest⟩ := Proc.run_bind_ok hrun
      obtain ⟨_, t, hset, hdone⟩ := Proc.run_bind_ok hrest
      obtain ⟨-, rfl⟩ := Prod.mk.inj (Except.ok.inj (Proc.run_exec_ok hset))
      obtain ⟨-, rfl⟩ := Prod.mk.inj hdone
      have hone := storeBlob_counts hstore
      have hkeys : s.MetaKeyed := by
        rw [Database.MetaKeyed, hone.table]
        exact h.metaKeys
      obtain ⟨r, hr⟩ := Option.isSome_iff_exists.mp hmeta
      have hr' : s.metaRow id = some r := by
        rw [Database.metaRow, hone.table]
        exact hr
      refine ⟨fun k => ?_, metaKeyed_attachSessionBlob hkeys, ?_⟩
      · have hle := h.counted k
        have hrefs : (attachSessionBlob id new s).refs k
            + (if r.text "session_blob" = some k then 1 else 0)
              = s.refs k + if new = k then 1 else 0 :=
          refs_attachSessionBlob hkeys hr' k
        have hsame : s.refs k = db.refs k :=
          refs_congr (by rw [hone.table]) (by rw [hone.table]) hone.snapshots k
        rw [hsame] at hrefs
        rw [count_attachSessionBlob, hone.count]
        have hlt : r.text "session_blob" = some k → db.count k < db.refs k := fun hold =>
          hspare k (by rw [Database.getMemorySessionBlob, hr]; exact hold)
        by_cases hold : r.text "session_blob" = some k
        · have hlt := hlt hold
          rw [if_pos hold] at hrefs
          by_cases hk : k = new
          · rw [if_pos hk]
            rw [if_pos hk.symm] at hrefs
            omega
          · rw [if_neg hk]
            rw [if_neg (Ne.symm hk)] at hrefs
            omega
        · rw [if_neg hold] at hrefs
          by_cases hk : k = new
          · rw [if_pos hk]
            rw [if_pos hk.symm] at hrefs
            omega
          · rw [if_neg hk]
            rw [if_neg (Ne.symm hk)] at hrefs
            omega
      · have hsnaps : (attachSessionBlob id new s).brainSnapshots = db.brainSnapshots :=
          hone.snapshots
        rw [hsnaps]
        exact h.snapshotIds

theorem accounted_forgetAndPurge {id : Int} {args : DeleteArgs} {u : Unit} (h : Accounted db)
    (hrun : (forgetAndPurge codec id args).run Proc.noFault db = (.ok u, db')) : Accounted db' := by
  obtain ⟨deleted, s, hdelete, hpurge⟩ := Proc.run_bind_ok hrun
  rcases governedDeleteMemory_ok hdelete with ⟨rfl, rfl⟩ | hforgot
  · obtain ⟨-, rfl⟩ := Prod.mk.inj hpurge
    exact h
  obtain ⟨now, reason, hmetadata⟩ := hforgot.metadata
  have hmentions : ∀ hash, mentions "session_blob" hash (s.table "memory_meta")
      = mentions "session_blob" hash (db.table "memory_meta") := by
    intro hash
    rw [hmetadata, tombstoneMemory, Database.table_updateRows, if_pos rfl]
    refine mentions_map fun r _ => ?_
    split
    · simp [Record.text]
    · rfl
  have hkeys : s.MetaKeyed := by
    rw [Database.MetaKeyed, hmetadata]
    exact MetaKeyed.updateRows h.metaKeys fun r => by simp
  have hnamed : s.getMemorySessionBlob id = db.getMemorySessionBlob id := by
    rw [Database.getMemorySessionBlob, Database.metaRow, hmetadata]
    exact getMemorySessionBlob_tombstone id now reason db id
  have hcount : ∀ hash, s.count hash ≤ 0 ∨ s.count hash
      = db.count hash - if db.getMemorySessionBlob id = some hash then 1 else 0 := fun hash =>
    (lt_or_ge 0 (s.count hash)).symm.imp_right (hforgot.count hash)
  cases deleted with
  | false =>
      obtain ⟨-, rfl⟩ := Prod.mk.inj hpurge
      refine ⟨fun hash => ?_, hkeys, hforgot.snapshots ▸ h.snapshotIds⟩
      have hle := h.counted hash
      rw [Database.refs, hmentions, hforgot.observations, hforgot.snapshots]
      rw [Database.refs] at hle
      rcases hcount hash with hc | hc
      · omega
      · rw [hc]
        split <;> omega
  | true =>
      -- the purge takes the name the count of which was released
      obtain ⟨hrows, hobs, hblobs, hsnaps⟩ := purgeMemory_ok hpurge
      refine ⟨fun hash => ?_, ?_, hsnaps ▸ hforgot.snapshots ▸ h.snapshotIds⟩
      · have hle := h.counted hash
        have hpurged := mentions_purged hkeys hrows hash
        rw [hnamed, hmentions] at hpurged
        rw [count_congr hblobs, Database.refs, hobs, hsnaps, hforgot.observations,
          hforgot.snapshots]
        rw [Database.refs] at hle
        rcases hcount hash with hc | hc
        · omega
        · rw [hc]
          by_cases hblob : db.getMemorySessionBlob id = some hash
          · rw [if_pos hblob] at hpurged ⊢
            omega
          · rw [if_neg hblob] at hpurged ⊢
            omega
      · rw [Database.MetaKeyed, hrows]
        exact fun parts hparts => (hkeys parts hparts).sublist List.filter_sublist

theorem accounted_create {args : CreateArgs} {snap : BrainSnapshot} (h : Accounted db)
    (hcreate : create codec args db = .ok (snap, db')) : Accounted db' := by
  obtain ⟨state, -, hcreate⟩ := bind_eq_ok.mp hcreate
  obtain ⟨envelope, -, hpublish⟩ := bind_eq_ok.mp hcreate
  obtain ⟨htable, hsnaps, hfree, hcount⟩ := publish_counts hpublish
  refine ⟨fun hash => ?_, ?_, ?_⟩
  · have hle := h.counted hash
    have hrefs : db'.refs hash = db.refs hash + if hash = snap.blobHash then 1 else 0 := by
      rw [Database.refs, htable, hsnaps, List.countP_append, List.countP_singleton, Database.refs]
      simp only [beq_iff_eq]
      by_cases hk : hash = snap.blobHash
      · rw [if_pos hk, if_pos hk.symm]
        omega
      · rw [if_neg hk, if_neg (Ne.symm hk)]
        omega
    rw [hcount, hrefs]
    split <;> omega
  · rw [Database.MetaKeyed, htable]
    exact h.metaKeys
  · rw [hsnaps, List.map_append, List.nodup_append]
    refine ⟨h.snapshotIds, List.nodup_singleton _, fun a ha b hb heq => ?_⟩
    obtain ⟨s, hs, rfl⟩ := List.mem_map.mp ha
    exact hfree s hs (heq.trans (List.mem_singleton.mp hb))

theorem accounted_restore {args : RestoreArgs} {state : State} {counts : RestoreCounts}
    (h : Accounted db) (hok : (OriginalCall.restoreCheckpoint args state).Balanced db)
    (hrestore : restore codec args state db = .ok (counts, db')) : Accounted db' := by
  cases hdry : args.dryRun with
  | true =>
      obtain ⟨tables, -, hrest⟩ := bind_eq_ok.mp hrestore
      rw [hdry, if_pos rfl] at hrest
      obtain ⟨-, rfl⟩ := Prod.mk.inj (pure_eq_ok.mp hrest)
      exact h
  | false =>
      obtain ⟨current, tables, -, hrestored⟩ := restore_ok hdry hrestore
      refine ⟨fun hash => ?_, hrestored.keys "memory_meta" (by decide) h.metaKeys, ?_⟩
      · rw [restore_count hdry hrestore]
        have hle := hok hdry hash
        have hrefs := restore_refs hdry hrestore hash
        omega
      · rw [(restore_frame hrestore).1]
        exact h.snapshotIds

/-- One call that takes no counted name keeps the balance. -/
theorem Accounted.step {call : OriginalCall} (h : Accounted db) (hok : call.Balanced db)
    (hstep : call.step codec db = some db') : Accounted db' := by
  cases call with
  | insertObservation args =>
      obtain ⟨id, hrun⟩ := completed_ok hstep
      obtain ⟨hmeta, hsnaps, named, hcounts⟩ := insertObservation_counts hrun
      refine h.of_counts (fun hash hle => ?_) hmeta (hsnaps ▸ .refl _)
      rw [(hcounts hash).1, (hcounts hash).2]
      split <;> omega
  | storeSessionTranscript plan id observations =>
      obtain ⟨hash, hrun⟩ := completed_ok hstep
      exact accounted_storeSessionTranscript h hok hrun
  | setMemorySessionBlob id hash =>
      have hcompleted : completed (setMemorySessionBlob id hash) db = some db' := hstep
      obtain ⟨_, hrun⟩ := completed_ok hcompleted
      obtain ⟨-, rfl⟩ := Prod.mk.inj (Except.ok.inj (Proc.run_exec_ok hrun))
      exact accounted_setMemorySessionBlob h hok
  | forgetAndPurge id args =>
      obtain ⟨_, hrun⟩ := completed_ok hstep
      exact accounted_forgetAndPurge h hrun
  | createCheckpoint args =>
      obtain ⟨snap, hcreate⟩ := toOption_ok hstep
      exact accounted_create h hcreate
  | deleteCheckpoint snapshotId =>
      cases hdelete : delete snapshotId db with
      | error e =>
          rw [OriginalCall.step, hdelete] at hstep
          cases hstep
      | ok d =>
          rw [OriginalCall.step, hdelete] at hstep
          obtain rfl := Option.some.inj hstep
          obtain ⟨htable, hsnaps, hcounts⟩ := delete_counts h.snapshotIds hdelete
          exact h.of_counts hcounts (by rw [htable]) hsnaps
  | restoreCheckpoint args state =>
      obtain ⟨counts, hrestore⟩ := toOption_ok hstep
      exact accounted_restore h hok hrestore
  | collect =>
      obtain rfl := Option.some.inj hstep
      refine h.of_counts (fun hash hle => ?_) rfl (.refl _)
      rw [show (gcBlobs db).2.refs hash = db.refs hash from rfl]
      rcases @count_gcBlobs_cases db hash with hcount | hcount
      · omega
      · omega
  | change table =>
      obtain rfl := Option.some.inj hstep
      refine ⟨fun hash => ?_, hok.1, h.snapshotIds⟩
      have hle := h.counted hash
      have hrefs := hok.2 hash
      rw [count_congr (show ({ db with table := table } : Database).blobs = db.blobs from rfl)]
      omega

end Step

/-! ## After a collection

What is left in the store is counted, referred to, or an ancestor of something that is. By the
balance what is counted is referred to. -/

section Collected

variable {codec : Codec} {db start : Database}

/-- What refers to an original is left by a collection. -/
theorem Database.Refers.gcBlobs {hash : String} (h : db.Refers hash) :
    (gcBlobs db).2.pinned hash = true :=
  Database.pinned_iff.mpr (Or.inl h)

/-- Where counts have rows and links leave their parents, everything that stays is pinned. -/
theorem pinned_of_gcBlobs {hash : String} (h : Accounted db) (hparents : db.KeepsParents)
    (hin : (gcBlobs db).2.blobs.contains hash = true) : (gcBlobs db).2.pinned hash = true := by
  have hlinked : ∀ e ∈ db.checkpointDependencies, e.2 = hash →
      (gcBlobs db).2.pinned hash = true := by
    rintro e he rfl
    rcases hparents e he with hrefers | ⟨head, hhead, heq⟩ | ⟨e', he', heq, b, hb, hstays⟩
    · exact hrefers.gcBlobs
    · exact Database.pinned_iff.mpr (Or.inr (Or.inr ⟨head, hhead, heq⟩))
    · refine Database.pinned_iff.mpr (Or.inr (Or.inl ⟨e', ?_, heq⟩))
      refine List.mem_filter.mpr ⟨he', ?_⟩
      show (gcBlobs db).2.blobs.contains e'.1 = true
      rw [Std.ExtTreeMap.contains_eq_isSome_getElem?, gcBlobs_row, hb, Option.filter, if_pos]
      · rfl
      · rw [hstays]
        rfl
  rw [Std.ExtTreeMap.contains_eq_isSome_getElem?, gcBlobs_row] at hin
  obtain ⟨b, hb⟩ := Option.isSome_iff_exists.mp hin
  obtain ⟨hrow, hkept⟩ := Option.filter_eq_some_iff.mp hb
  rw [Bool.not_eq_true', Database.garbage, Bool.and_eq_false_iff, decide_eq_false_iff_not] at hkept
  rcases hkept with hpos | hpinned
  · -- a count that is left has a row
    have hcount : db.count hash = b.refcount := by rw [Database.count, hrow]; rfl
    have hle := h.counted hash
    exact (Database.refers_of_refs (show 0 < db.refs hash by omega)).gcBlobs
  · rw [Bool.not_eq_false'] at hpinned
    rcases Database.pinned_iff.mp hpinned with hrefers | ⟨e, he, heq⟩ | hhead
    · exact hrefers.gcBlobs
    · exact hlinked e he heq
    · exact Database.pinned_iff.mpr (Or.inr (Or.inr hhead))

/-- A chunk that stays is one of an object that stays. -/
theorem chunk_of_gcBlobs {chunk : String} (hin : (gcBlobs db).2.ccrChunks.contains chunk = true) :
    ∃ object, (object, chunk) ∈ (gcBlobs db).2.ccrObjectChunks ∧
      (gcBlobs db).2.blobs.contains object = true := by
  have hget : (gcBlobs db).2.ccrChunks[chunk]?
      = (db.ccrChunks[chunk]?).filter fun _ => !(dropGarbage db).looseChunk chunk := by
    simp only [gcBlobs, gcChunks, Std.ExtTreeMap.getElem?_filter']
    rfl
  rw [Std.ExtTreeMap.contains_eq_isSome_getElem?, hget] at hin
  obtain ⟨c, hc⟩ := Option.isSome_iff_exists.mp hin
  obtain ⟨-, hused⟩ := Option.filter_eq_some_iff.mp hc
  rw [Bool.not_eq_true', Database.looseChunk, Bool.not_eq_false', List.any_eq_true] at hused
  obtain ⟨⟨object, c'⟩, hobject, heq⟩ := hused
  obtain rfl : c' = chunk := beq_iff_eq.mp heq
  exact ⟨object, hobject, (List.mem_filter.mp hobject).2⟩

/-- After a collection in a run whose calls take no counted name, every original that is left has
a row that keeps it, and every chunk an object. -/
theorem originals_reclaimed (hstart : Accounted start)
    (hrun : Actions.Reaches (OriginalCall.step codec) OriginalCall.Balanced (fun s => s = start) db)
    (hcollect : OriginalCall.collect.Balanced db) :
    (∀ hash, (gcBlobs db).2.blobs.contains hash = true → (gcBlobs db).2.pinned hash = true) ∧
      ∀ chunk, (gcBlobs db).2.ccrChunks.contains chunk = true →
        ∃ object, (object, chunk) ∈ (gcBlobs db).2.ccrObjectChunks ∧
          (gcBlobs db).2.blobs.contains object = true := by
  have hdb : Accounted db := hrun.invariant (fun s hs => hs ▸ hstart)
    fun call s s' hs hok hstep => hs.step hok hstep
  exact ⟨fun hash => pinned_of_gcBlobs hdb hcollect, fun chunk => chunk_of_gcBlobs⟩

/-! ### Two transcripts of one memory -/

/-- A database with one memory. -/
def notedDb : Database where
  table := fun name =>
    if name = "memories" then
      [jsonObject [("rowid", .int 1), ("project", .str "p"), ("session_id", .str "s"),
        ("summary", .str "note"), ("tags", .null), ("created_at", .int 1)]]
    else if name = "memory_meta" then
      [jsonObject [("memory_id", .int 1), ("namespace", .str "local"), ("session_blob", .null)]]
    else []

/-- A session of one command. -/
def commandSession (command : String) : List Observation := [⟨1, "Bash", some command, none⟩]

/-- The memory with the transcript of a command. -/
def transcribed (command : String) (db : Database) : Database :=
  storedTranscript (jsonCodec []) 1 (commandSession command) db

/-- The hash of that transcript. -/
def transcriptHash (command : String) : String :=
  (jsonCodec []).digest (utf8 (buildTranscript (commandSession command)))

theorem accounted_notedDb : Accounted notedDb where
  counted := fun hash => by
    have hzero : notedDb.count hash = 0 := by simp [Database.count, notedDb]
    omega
  metaKeys := by decide +kernel
  snapshotIds := List.nodup_nil

theorem step_transcribed (command : String) (db : Database) :
    OriginalCall.step (jsonCodec []) (.storeSessionTranscript .floor 1 (commandSession command)) db
      = some (transcribed command db) := by
  have hsome : commandSession command ≠ [] := List.cons_ne_nil _ _
  rw [OriginalCall.step, completed, storeSessionTranscript_floor (jsonCodec []) 1 hsome]
  rfl

/-- A memory with a transcript is forgotten, and the transcript goes. -/
theorem originals_reclaimed_forgotten : ∃ db,
    (gcBlobs db).2.blobs.contains (transcriptHash "ls") = false ∧
      ∀ hash, (gcBlobs db).2.blobs.contains hash = true → (gcBlobs db).2.pinned hash = true := by
  have hforget : (OriginalCall.step (jsonCodec []) (.forgetAndPurge 1 { now := 5, ledgerNow := 5 })
      (transcribed "ls" notedDb)).any (fun db => db.checkpointDependencies.isEmpty &&
        !(gcBlobs db).2.blobs.contains (transcriptHash "ls")) = true := by
    decide +kernel
  obtain ⟨db, hdb, hstate⟩ := (Option.any_eq_true _ _).mp hforget
  rw [Bool.and_eq_true, List.isEmpty_iff, Bool.not_eq_true'] at hstate
  have hstart : Actions.Reaches (OriginalCall.step (jsonCodec [])) OriginalCall.Balanced
      (fun s => s = notedDb) notedDb := .start rfl
  have hfree :
      (OriginalCall.storeSessionTranscript .floor 1 (commandSession "ls")).Balanced notedDb := by
    refine fun _ => ⟨by decide +kernel, fun old hold => ?_⟩
    have hnone : notedDb.getMemorySessionBlob 1 = none := by decide +kernel
    rw [hnone] at hold
    cases hold
  have hforgotten := (hstart.step hfree (step_transcribed "ls" notedDb)).step
    (a := OriginalCall.forgetAndPurge 1 { now := 5, ledgerNow := 5 }) trivial hdb
  refine ⟨db, hstate.2, (originals_reclaimed accounted_notedDb hforgotten fun e he => ?_).1⟩
  rw [hstate.1] at he
  cases he

/-- A transcript that is stored over another one leaves it behind: nothing refers to the first
after the collection, and its count keeps it. -/
theorem originals_left_behind : ∃ (codec : Codec) (start db : Database), Accounted start ∧
    Actions.Reaches (OriginalCall.step codec) (fun _ _ => True) (fun s => s = start) db ∧
      ∃ hash, (gcBlobs db).2.blobs.contains hash = true ∧ (gcBlobs db).2.pinned hash = false := by
  have hstart : Actions.Reaches (OriginalCall.step (jsonCodec [])) (fun _ _ => True)
      (fun s => s = notedDb) notedDb := .start rfl
  have hfirst := hstart.step trivial (step_transcribed "ls" notedDb)
  refine ⟨jsonCodec [], notedDb, _, accounted_notedDb,
    hfirst.step trivial (step_transcribed "pwd" _), transcriptHash "ls", ?_⟩
  decide +kernel

end Collected

end IronMem
