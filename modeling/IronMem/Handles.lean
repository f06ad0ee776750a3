import IronMem.Lib.GuardedRuns
import IronMem.RestorePolicy
import IronMem.Visibility

/-!
# Memory handles

`insert_memory` takes the number after the largest one it can see: the persisted
high-water mark, the rows of `memories` and those of `memory_meta`. Only
`insert_memory` itself raises the mark to the id it hands out; a restore raises it
to what is stored *before* it writes, so the ids it brings in are protected by
their rows alone. They are safe as long as no deletion takes the last trace of the
largest one.

The condition is on the deletions, at the state each of them meets (`KeepsHandles`),
and `Database.Outlives.lt_next` is what it gives: the next id does not come down. All
other statements add rows or raise the mark. A run is any interleaving of the
statements of insertions, deletions of three kinds and restores.
-/

namespace IronMem

namespace Database

variable {db : Database}

/-- The id is in `memories` or in `memory_meta`. -/
def Stores (db : Database) (n : Int) : Prop :=
  (∃ r ∈ db.table "memories", r.col "rowid" = .int n) ∨
    ∃ r ∈ db.table "memory_meta", r.col "memory_id" = .int n

/-- Every id among the rows that go is covered by the high-water mark or by a row that
stays. -/
def Outlives (db : Database) (memoryGoes metaGoes : Record → Bool) : Prop :=
  ∀ n, (∃ r ∈ db.table "memories", r.col "rowid" = .int n ∧ memoryGoes r = true) ∨
      (∃ r ∈ db.table "memory_meta", r.col "memory_id" = .int n ∧ metaGoes r = true) →
    n ≤ db.identityHighwater ∨ ∃ m, n ≤ m ∧
      ((∃ r ∈ db.table "memories", r.col "rowid" = .int m ∧ memoryGoes r = false) ∨
        ∃ r ∈ db.table "memory_meta", r.col "memory_id" = .int m ∧ metaGoes r = false)

end Database

/-- A deletion keeps a trace of the largest id. -/
def KeepsHandles : Statement → Database → Prop
  | .deleteMemory id, db => db.Outlives (fun r => r.col "rowid" = .int id) fun _ => false
  | .deleteProject project, db => db.Outlives (fun r => r.col "project" = .str project) fun _ => false
  | .deleteMeta id, db => db.Outlives (fun _ => false) fun r => r.col "memory_id" = .int id
  | _, _ => True

/-! ## The calls -/

/-- `delete_memories_for_project`. -/
def deleteMemoriesForProject (project : String) (db : Database) : Nat × Database :=
  ((db.table "memories").countP fun r => r.col "project" = .str project,
    db.deleteRows "memories" fun r => r.col "project" = .str project)

/-- `delete_memory_meta`: children first. -/
def deleteMemoryMeta (id : Int) : Call Unit := do
  Proc.exec (.deleteSide id) fun db =>
    .ok ((), db.deleteRows "memory_influence_policy" fun r => r.col "memory_id" = .int id)
  Proc.exec (.deleteSide id) fun db =>
    .ok ((), db.deleteRows "memory_evidence_roots" fun r => r.col "memory_id" = .int id)
  Proc.exec (.deleteMeta id) fun db => do
    let db ← deleteCascade "memory_meta" (fun r => r.col "memory_id" = .int id) db
    return ((), db)

/-- The calls that bring ids in or take them away. -/
inductive HandleCall where
  | insertMemory (project sessionId summary : String) (tags : Option String) (now : Int)
      (uuid : String)
  | deleteMemory (id : Int)
  | deleteMemoryMeta (id : Int)
  | deleteMemoriesForProject (project : String)
  | restore (args : RestoreArgs) (state : State)
  | importCheckpoint (args : RestoreArgs) (envelope : Envelope)

def HandleCall.body (codec : Codec) : HandleCall → Call Unit
  | insertMemory project sessionId summary tags now uuid => do
      let _ ← Proc.exec .insertMemory
        (IronMem.insertMemory codec project sessionId summary tags now uuid)
  | deleteMemory id => do
      let _ ← Proc.exec (.deleteMemory id) fun db => .ok (IronMem.deleteMemory id db)
  | deleteMemoryMeta id => IronMem.deleteMemoryMeta id
  | deleteMemoriesForProject project => do
      let _ ← Proc.exec (.deleteProject project) fun db =>
        .ok (IronMem.deleteMemoriesForProject project db)
  | restore args state => do
      let _ ← Proc.exec .restoreCheckpoint (IronMem.restore codec args state)
  | importCheckpoint args envelope => do
      let _ ← Proc.exec .restoreCheckpoint (IronMem.importCheckpoint codec args envelope)

/-! ## The next id

The next id is one more than the largest number in sight, so that it is above `n` exactly when
something in sight reaches `n`. A step that leaves something as large in sight does not bring
the next id down. -/

section NextId

variable {db db' : Database} {n : Int}

theorem le_maxColumn_iff {rows : List Record} {field : String} :
    n ≤ maxColumn rows field ↔ n ≤ 0 ∨ ∃ r ∈ rows, ∃ m, r.col field = .int m ∧ n ≤ m := by
  unfold maxColumn
  generalize (0 : Int) = a
  induction rows generalizing a with
  | nil => simp
  | cons r rows ih =>
      rw [List.foldl_cons, ih, List.exists_mem_cons_iff, ← or_assoc]
      refine or_congr_left ?_
      cases r.col field with
      | int k => simp
      | _ => simp

/-- The next id is above `n` exactly when the mark or a stored id reaches `n`. -/
theorem lt_nextMemoryId_iff :
    n < db.nextMemoryId ↔ n ≤ 0 ∨ n ≤ db.identityHighwater ∨ ∃ m, n ≤ m ∧ db.Stores m := by
  rw [Database.nextMemoryId, Int.lt_add_one_iff, le_max_iff, le_max_iff, le_maxColumn_iff,
    le_maxColumn_iff]
  constructor
  · rintro (h | (h | ⟨r, hr, m, hcol, hm⟩) | h | ⟨r, hr, m, hcol, hm⟩)
    · exact Or.inr (Or.inl h)
    · exact Or.inl h
    · exact Or.inr (Or.inr ⟨m, hm, Or.inl ⟨r, hr, hcol⟩⟩)
    · exact Or.inl h
    · exact Or.inr (Or.inr ⟨m, hm, Or.inr ⟨r, hr, hcol⟩⟩)
  · rintro (h | h | ⟨m, hm, ⟨r, hr, hcol⟩ | ⟨r, hr, hcol⟩⟩)
    · exact Or.inr (Or.inl (Or.inl h))
    · exact Or.inl h
    · exact Or.inr (Or.inl (Or.inr ⟨r, hr, m, hcol, hm⟩))
    · exact Or.inr (Or.inr (Or.inr ⟨r, hr, m, hcol, hm⟩))

theorem Database.Stores.lt_next (h : db.Stores n) : n < db.nextMemoryId :=
  lt_nextMemoryId_iff.mpr (Or.inr (Or.inr ⟨n, le_refl n, h⟩))

/-- Taking rows away that others outlive does not bring the next id down. -/
theorem Database.Outlives.lt_next {memoryGoes metaGoes : Record → Bool}
    (h : db.Outlives memoryGoes metaGoes)
    (hmark : db'.identityHighwater = db.identityHighwater)
    (hmemories : ∀ r ∈ db.table "memories", memoryGoes r = false → r ∈ db'.table "memories")
    (hmeta : ∀ r ∈ db.table "memory_meta", metaGoes r = false → r ∈ db'.table "memory_meta")
    (hn : n < db.nextMemoryId) : n < db'.nextMemoryId := by
  rw [lt_nextMemoryId_iff] at hn ⊢
  rw [hmark]
  -- a trace of `m` that stays
  have hstays : ∀ m, n ≤ m → ((∃ r ∈ db.table "memories", r.col "rowid" = .int m ∧
        memoryGoes r = false) ∨
      ∃ r ∈ db.table "memory_meta", r.col "memory_id" = .int m ∧ metaGoes r = false) →
      ∃ m, n ≤ m ∧ db'.Stores m := by
    rintro m hm (⟨r, hr, hcol, hgoes⟩ | ⟨r, hr, hcol, hgoes⟩)
    · exact ⟨m, hm, Or.inl ⟨r, hmemories r hr hgoes, hcol⟩⟩
    · exact ⟨m, hm, Or.inr ⟨r, hmeta r hr hgoes, hcol⟩⟩
  have hgone : ∀ m, n ≤ m → ((∃ r ∈ db.table "memories", r.col "rowid" = .int m ∧
        memoryGoes r = true) ∨
      ∃ r ∈ db.table "memory_meta", r.col "memory_id" = .int m ∧ metaGoes r = true) →
      n ≤ db.identityHighwater ∨ ∃ m, n ≤ m ∧ db'.Stores m := by
    intro m hm hgoes
    rcases h m hgoes with hle | ⟨k, hk, hrest⟩
    · exact Or.inl (le_trans hm hle)
    · exact Or.inr (hstays k (le_trans hm hk) hrest)
  rcases hn with hn | hn | ⟨m, hm, ⟨r, hr, hcol⟩ | ⟨r, hr, hcol⟩⟩
  · exact Or.inl hn
  · exact Or.inr (Or.inl hn)
  · cases hgoes : memoryGoes r with
    | false => exact Or.inr (Or.inr (hstays m hm (Or.inl ⟨r, hr, hcol, hgoes⟩)))
    | true => exact Or.inr (hgone m hm (Or.inl ⟨r, hr, hcol, hgoes⟩))
  · cases hgoes : metaGoes r with
    | false => exact Or.inr (Or.inr (hstays m hm (Or.inr ⟨r, hr, hcol, hgoes⟩)))
    | true => exact Or.inr (hgone m hm (Or.inr ⟨r, hr, hcol, hgoes⟩))

/-- A higher mark keeps the next id up. -/
theorem lt_next_of_highwater (h : db.nextMemoryId ≤ db'.identityHighwater + 1)
    (hn : n < db.nextMemoryId) : n < db'.nextMemoryId :=
  lt_nextMemoryId_iff.mpr (Or.inr (Or.inl (by omega)))

end NextId

/-! ## What every call does to the next id -/

section Calls

open Fallible

variable {codec : Codec} {args : RestoreArgs} {state : State} {db db' : Database} {n : Int}

theorem deleteCascade_highwater {name : String} {p : Record → Bool}
    (h : deleteCascade name p db = .ok db') : db'.identityHighwater = db.identityHighwater := by
  refine foldlM_induction (p := fun d : Database => d.identityHighwater = db.identityHighwater) h
    (fun d referrer d' _ hd hstep => ?_) rfl
  rw [followReference] at hstep
  split at hstep
  · obtain rfl := Except.ok.inj hstep
    exact hd
  · obtain ⟨_, -, hstep⟩ := bind_eq_ok.mp hstep
    obtain rfl := pure_eq_ok.mp hstep
    exact hd

/-- Restore writes no mark after the one it takes at the start. -/
theorem writeRestore_highwater {tables : BTreeMap Table}
    (h : writeRestore codec args state tables db = .ok db') :
    db'.identityHighwater = (raiseHighwater db).identityHighwater := by
  obtain ⟨s, hs, h⟩ := bind_eq_ok.mp h
  obtain ⟨t, ht, h⟩ := bind_eq_ok.mp h
  obtain ⟨u, hu, h⟩ := bind_eq_ok.mp h
  obtain ⟨_, -, h⟩ := bind_eq_ok.mp h
  obtain rfl := pure_eq_ok.mp h
  have hdelete : s.identityHighwater = (raiseHighwater db).identityHighwater :=
    foldlM_induction (p := fun d : Database =>
        d.identityHighwater = (raiseHighwater db).identityHighwater) hs
      (fun d name d' _ hd hstep => (deleteCascade_highwater hstep).trans hd) rfl
  have hsources : t.identityHighwater = s.identityHighwater := by
    refine foldlM_induction (p := fun d : Database => d.identityHighwater = s.identityHighwater) ht
      (fun d e d' _ hd hstep => ?_) rfl
    obtain ⟨bytes, -, hstep⟩ := bind_eq_ok.mp hstep
    obtain rfl := pure_eq_ok.mp hstep
    exact hd
  have hinsert : u.identityHighwater = t.identityHighwater := by
    refine foldlM_induction (p := fun d : Database => d.identityHighwater = t.identityHighwater) hu
      (fun d name d' _ hd htable => ?_) rfl
    refine foldlM_induction (p := fun d : Database => d.identityHighwater = t.identityHighwater)
      htable (fun e row e' _ he hrow => ?_) hd
    obtain ⟨r, -, -, rfl⟩ := insertRecord_ok hrow
    exact he
  have hevidence : ∀ (records : List Record) (d : Database),
      (records.foldl (insertEvidence codec state.project) d).identityHighwater
        = d.identityHighwater := by
    intro records
    induction records with
    | nil => intro d; rfl
    | cons record records ih =>
        intro d
        rw [List.foldl_cons, ih, insertEvidence]
        split <;> rfl
  exact (hevidence _ _).trans (hinsert.trans (hsources.trans hdelete))

theorem restore_lt_next {counts : RestoreCounts}
    (h : restore codec args state db = .ok (counts, db')) (hn : n < db.nextMemoryId) :
    n < db'.nextMemoryId := by
  obtain ⟨tables, -, h⟩ := bind_eq_ok.mp h
  split at h
  · obtain ⟨-, rfl⟩ := Prod.mk.inj (pure_eq_ok.mp h)
    exact hn
  · obtain ⟨db'', hwrite, h⟩ := bind_eq_ok.mp h
    obtain ⟨-, rfl⟩ := Prod.mk.inj (pure_eq_ok.mp h)
    refine lt_next_of_highwater ?_ hn
    rw [writeRestore_highwater hwrite]
    exact le_refl db.nextMemoryId

theorem importCheckpoint_lt_next {e : Envelope} {count : Nat}
    (h : importCheckpoint codec args e db = .ok (count, db')) (hn : n < db.nextMemoryId) :
    n < db'.nextMemoryId := by
  obtain ⟨_, -, h⟩ := bind_eq_ok.mp h
  dsimp only at h
  split at h
  · next state hstate =>
      obtain ⟨_, -, h⟩ := bind_eq_ok.mp h
      obtain ⟨_, -, h⟩ := bind_eq_ok.mp h
      obtain ⟨⟨counts, db''⟩, hrestore, h⟩ := bind_eq_ok.mp h
      obtain ⟨-, rfl⟩ := Prod.mk.inj (pure_eq_ok.mp h)
      exact restore_lt_next hrestore hn
  · cases h

theorem insertMemory_ok {project sessionId summary uuid : String} {tags : Option String}
    {now id : Int} (h : insertMemory codec project sessionId summary tags now uuid db = .ok (id, db')) :
    id = db.nextMemoryId ∧ db'.identityHighwater = id := by
  unfold insertMemory at h
  dsimp only at h
  split at h
  · cases h
  · split at h
    · cases h
    · obtain ⟨rfl, rfl⟩ := Prod.mk.inj (Except.ok.inj h)
      exact ⟨rfl, rfl⟩

/-- No statement that keeps a trace of the largest id brings the next id down. -/
theorem HandleCall.preserves (codec : Codec) (n : Int) (call : HandleCall) :
    Proc.PreservesWhen KeepsHandles (fun db => n < db.nextMemoryId) (call.body codec) := by
  cases call with
  | insertMemory project sessionId summary tags now uuid =>
      refine .bind (.exec fun s id s' _ hs h => ?_) fun _ => .done _
      obtain ⟨rfl, hmark⟩ := insertMemory_ok h
      exact lt_next_of_highwater (by omega) hs
  | deleteMemory id =>
      refine .bind (.exec fun s b s' hok hs h => ?_) fun _ => .done _
      obtain ⟨-, rfl⟩ := Prod.mk.inj (Except.ok.inj h)
      refine Database.Outlives.lt_next hok rfl (fun r hr hgoes => ?_) (fun r hr _ => hr) hs
      exact List.mem_filter.mpr ⟨hr, by simpa using hgoes⟩
  | deleteMemoryMeta id =>
      refine .bind (.exec fun s b s' _ hs h => ?_) fun _ =>
        .bind (.exec fun s b s' _ hs h => ?_) fun _ => .exec fun s b s' hok hs h => ?_
      · obtain ⟨-, rfl⟩ := Prod.mk.inj (Except.ok.inj h)
        exact hs
      · obtain ⟨-, rfl⟩ := Prod.mk.inj (Except.ok.inj h)
        exact hs
      · obtain ⟨d, hdelete, h⟩ := bind_eq_ok.mp h
        obtain ⟨-, rfl⟩ := Prod.mk.inj (pure_eq_ok.mp h)
        refine Database.Outlives.lt_next hok (deleteCascade_highwater hdelete) (fun r hr _ => ?_)
          (fun r hr hgoes => ?_) hs
        · rwa [deleteCascade_frame hdelete (by decide) (by decide)]
        · exact (mem_deleteCascade hdelete r).mpr ⟨hr, fun _ => hgoes, by simp [schema]⟩
  | deleteMemoriesForProject project =>
      refine .bind (.exec fun s b s' hok hs h => ?_) fun _ => .done _
      obtain ⟨-, rfl⟩ := Prod.mk.inj (Except.ok.inj h)
      refine Database.Outlives.lt_next hok rfl (fun r hr hgoes => ?_) (fun r hr _ => hr) hs
      exact List.mem_filter.mpr ⟨hr, by simpa using hgoes⟩
  | restore args state =>
      refine .bind (.exec fun s b s' _ hs h => ?_) fun _ => .done _
      exact restore_lt_next h hs
  | importCheckpoint args envelope =>
      refine .bind (.exec fun s b s' _ hs h => ?_) fun _ => .done _
      exact importCheckpoint_lt_next h hs

/-- In every run whose deletions keep a trace of the largest id, an inserted memory gets
an id above all that were stored at any point before. -/
theorem handles_never_reused {s₀ s s' db' : Database}
    {pool pool' : List (Proc.Thread HandleCall Statement Database String)}
    {project sessionId summary uuid : String} {tags : Option String} {now id : Int}
    (hstart : Proc.ReachesWhen KeepsHandles (HandleCall.body codec) (s₀, []) (s, pool))
    (hrun : Proc.ReachesWhen KeepsHandles (HandleCall.body codec) (s, pool) (s', pool'))
    (hinsert : insertMemory codec project sessionId summary tags now uuid s' = .ok (id, db')) :
    ∀ n, s.Stores n → n < id := by
  intro n hn
  obtain ⟨rfl, -⟩ := insertMemory_ok hinsert
  exact hstart.invariant (HandleCall.preserves codec n) hrun hn.lt_next

end Calls

/-! ### An imported id, purged before the next insertion -/

/-- The checkpoint is restored into an empty store, its memory purged. -/
def purgedImport : List HandleCall := [.deleteMemory 1, .deleteMemoryMeta 1]

/-- Memory 1 came from the checkpoint; after its purge the next memory is memory 1. -/
theorem handles_reused : ∃ s pool s' pool' db',
    Proc.Reaches (HandleCall.body (jsonCodec [])) ({}, []) (s, pool) ∧
      Proc.Reaches (HandleCall.body (jsonCodec [])) (s, pool) (s', pool') ∧
        insertMemory (jsonCodec []) "notes" "s2" "new" none 300 "u1" s' = .ok (1, db') ∧
          s.Stores 1 := by
  let body := HandleCall.body (jsonCodec [])
  have hrun : (Proc.runAll body [.restore importArgs heldCheckpoint] {}).any (fun s =>
      (s.table "memories").any (fun r => r.col "rowid" = .int 1) &&
        (Proc.runAll body purgedImport s).any fun s' =>
          Fallible.okAnd (fun out => out.1 == 1)
            (insertMemory (jsonCodec []) "notes" "s2" "new" none 300 "u1" s')) = true := by
    decide +kernel
  obtain ⟨s, hs, hrest⟩ := Option.any_eq_true _ _ |>.mp hrun
  rw [Bool.and_eq_true, List.any_eq_true] at hrest
  obtain ⟨⟨r, hr, hid⟩, hpurge⟩ := hrest
  obtain ⟨s', hs', hinsert⟩ := Option.any_eq_true _ _ |>.mp hpurge
  obtain ⟨⟨id, db'⟩, hok, heq⟩ := Fallible.okAnd_eq_true.mp hinsert
  obtain rfl : id = 1 := beq_iff_eq.mp heq
  obtain ⟨pool, hreach⟩ := Proc.Reaches.runAll hs []
  obtain ⟨pool', hreach'⟩ := Proc.Reaches.runAll hs' pool
  exact ⟨s, pool, s', pool', db', hreach, hreach', hok, Or.inl ⟨r, hr, of_decide_eq_true hid⟩⟩

/-- Deleting the memory but not its metadata keeps the id taken. -/
theorem handles_never_reused_held : ∃ id db',
    insertMemory (jsonCodec []) "notes" "s2" "new" none 300 "u1" (deleteMemory 1 heldNote).2
        = .ok (id, db') ∧ ∀ n, heldNote.Stores n → n < id := by
  have hinsert : Fallible.okAnd (fun _ => true) (insertMemory (jsonCodec []) "notes" "s2" "new" none
      300 "u1" (deleteMemory 1 heldNote).2) = true := by decide +kernel
  have hmeta : (heldNote.table "memory_meta").any (fun r => r.col "memory_id" = .int 1) = true := by
    decide +kernel
  have hrows : ∀ r ∈ heldNote.table "memories", r.col "rowid" = .int 1 := by decide +kernel
  obtain ⟨⟨id, db'⟩, hok, -⟩ := Fallible.okAnd_eq_true.mp hinsert
  obtain ⟨m, hm, hmid⟩ := List.any_eq_true.mp hmeta
  have hkeeps : KeepsHandles (.deleteMemory 1) heldNote := by
    rintro n (⟨r, hr, hcol, -⟩ | ⟨r, hr, -, hgoes⟩)
    · obtain rfl : n = 1 := Value.int.inj (hcol.symm.trans (hrows r hr))
      exact Or.inr ⟨1, le_refl 1, Or.inr ⟨m, hm, of_decide_eq_true hmid, rfl⟩⟩
    · cases hgoes
  have hstep : Proc.StepWhen KeepsHandles (HandleCall.body (jsonCodec []))
      (heldNote, [] ++ ⟨.deleteMemory 1, HandleCall.body (jsonCodec []) (.deleteMemory 1)⟩ :: [])
      ((deleteMemory 1 heldNote).2, [] ++ ⟨.deleteMemory 1, .done (.ok ())⟩ :: []) :=
    .advance hkeeps rfl
  exact ⟨id, db', hok, handles_never_reused .refl
    (.tail (.tail .refl (.start heldNote [] (.deleteMemory 1))) hstep) hok⟩

end IronMem
