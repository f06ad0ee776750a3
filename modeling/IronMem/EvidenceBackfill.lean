import IronMem.Lineage
import IronMem.WellFormed

/-!
# Evidence-root backfill

Rows of `memory_meta` from before evidence roots have none. The migration climbs from
each of them to the nearest ancestor that has a root, or to the last ancestor there is,
and hands the root down the climb. The loops take fuel; enough of it makes no
difference to the result.

Where the root of a row comes from is a relation on the rows as they were (`Nearest`), and
the migration is progress towards it: rows stay, or had no root and get the one of their
nearest ancestor, with the distance added to the depth (`Progress`). Progress composes, so
that each write is looked at once.

- **the climb** (`climb_right`): every row passed has no root, and no row is passed twice; it
  ends at a root, at the last row, or at a row it has passed, and then that is a cycle.
  The rows there are bound its length (`climb_fuel`).
- **one row** (`resolveMissingEvidenceRoot_ok`): afterwards the row has a root, or a cycle
  was found. It fails only where a depth does not fit its column.
- **the batches** (`evidenceBackfillFromCursor_ok`): the cursor passes only rows it is done
  with. The batch is a sorted list, and what is above the cursor has a root or is pending.

Statements succeed here: a failing one ends the migration with its error. The progress
rows of `schema_migrations` are left out.

The migration is total: with fuel for more rounds than there are rows neither loop runs out of
it. `BackfillRight` says what it may have done when it stops. Two kinds of rows are never
reached. The cursor starts at zero, so that a memory without a positive id is not selected
(`memoryZero`); and the migration fails at a row whose parent is as deep as the column can hold
(`childOfDeepest`).
-/

namespace IronMem

open Fallible ParentLinks Relation

/-! ## The migration

The climb keeps the rows it has passed on a stack, and the root is handed down the stack by a
second loop. The climb is a loop without a bound in the source and takes fuel here. -/

/-- `EvidenceMetaRow` with the columns only the migration reads. -/
structure EvidenceMeta extends EvidenceMetaRow where
  memoryId : Int
  sourceType : String
  sourceRef : Option String
  parentMemoryId : Option Int
  recordHash : Option String
deriving DecidableEq

def EvidenceMeta.ofRow (r : Record) : EvidenceMeta where
  toEvidenceMetaRow := .ofRow r
  memoryId := (r.integer "memory_id").getD 0
  sourceType := (r.text "source_type").getD "derived"
  sourceRef := r.text "source_ref"
  parentMemoryId := r.i64 "parent_memory_id"
  recordHash := r.text "record_hash"

/-- `load_evidence_meta`. -/
def Database.evidenceMeta (db : Database) (id : Int) : Option EvidenceMeta :=
  (db.metaRow id).map EvidenceMeta.ofRow

/-- `root_for_meta`. -/
def rootForMeta (codec : Codec) (row : EvidenceMeta) : String :=
  evidenceRootId codec row.namespace row.sourceType
    (some (row.sourceRef.getD ("legacy-memory:" ++ toString row.memoryId)))
    (row.recordHash.getD (codec.digest (utf8 ("ironmem:legacy-record:" ++ toString row.memoryId))))

structure EvidenceRootMigrationReport where
  version : Nat := 1
  metaRowsCreated : Nat := 0
  rootsBackfilled : Nat := 0
  inheritedRoots : Nat := 0
  newRoots : Nat := 0
  brokenParentMemoryIds : List Int := []
  cycleMemoryIds : List Int := []
  lastMemoryId : Int := 0
deriving DecidableEq, Repr

/-- Why a loop has stopped early. -/
inductive BackfillStop where
  | outOfFuel
  | failed (message : String)
deriving DecidableEq, Repr

/-- How a climb ends: at a node it has passed, below nothing, at a row that has a root,
or at the last row there is. The rows passed on the way are a stack. -/
inductive ClimbEnd where
  | cycle (memoryIds : List Int)
  | disappeared (memoryId : Int)
  | rooted (chain : List EvidenceMeta) (row : EvidenceMeta)
  | last (chain : List EvidenceMeta) (anchor : EvidenceMeta) (broken : Bool)

/-- `sort_unstable` and `dedup`. -/
def sortedIds (ids : List Int) : List Int := (ids.insertionSort (· ≤ ·)).dedup

/-- The loop of `resolve_missing_evidence_root`. -/
def climb (db : Database) : Nat → List Int → List EvidenceMeta → Int → Except BackfillStop ClimbEnd
  | 0, _, _, _ => .error .outOfFuel
  | fuel + 1, seen, chain, cursor =>
      if cursor ∈ seen then
        let cycle := (chain.reverse.map EvidenceMeta.memoryId).dropWhile (· ≠ cursor)
        .ok (.cycle (sortedIds (if cycle.isEmpty then [cursor] else cycle)))
      else match db.evidenceMeta cursor with
        | none => match chain with
            | [] => .ok (.disappeared cursor)
            | anchor :: chain => .ok (.last chain anchor true)
        | some row =>
            if row.evidenceRootId.isSome then .ok (.rooted chain row)
            else match row.parentMemoryId with
              | some parent => climb db fuel (cursor :: seen) (row :: chain) parent
              | none => .ok (.last chain row false)

/-- `persist_primary_evidence_root`, its statements succeeding. -/
def persistRoot (id : Int) (root : String) (depth now : Int) (db : Database) : Database :=
  ((persistPrimaryEvidenceRoot id root depth now).run Proc.noFault db).2

/-- A root is handed down the climb. -/
def handDown (root : String) (now : Int) : List EvidenceMeta → Int →
    EvidenceRootMigrationReport × Database →
      Except BackfillStop (EvidenceRootMigrationReport × Database)
  | [], _, s => .ok s
  | row :: chain, depth, (report, db) =>
      if depth + 1 < 2 ^ 63 then
        handDown root now chain (depth + 1) ({ report with
            rootsBackfilled := report.rootsBackfilled + 1
            inheritedRoots := report.inheritedRoots + 1 },
          persistRoot row.memoryId root (depth + 1) now db)
      else .error (.failed ("derivation depth overflow at memory " ++ toString row.memoryId))

/-- `resolve_missing_evidence_root`. -/
def resolveMissingEvidenceRoot (codec : Codec) (now : Int) (fuel : Nat) (startMemoryId : Int)
    (report : EvidenceRootMigrationReport) (db : Database) :
    Except BackfillStop (Bool × EvidenceRootMigrationReport × Database) := do
  match ← climb db fuel [] [] startMemoryId with
  | .cycle memoryIds => return (false, { report with cycleMemoryIds := memoryIds }, db)
  | .disappeared memoryId => .error (.failed
      ("memory_meta row disappeared during evidence backfill: " ++ toString memoryId))
  | .rooted chain row =>
      let root := row.evidenceRootId.getD ""
      let db := persistRoot row.memoryId root row.derivationDepth now db
      return (true, ← handDown root now chain row.derivationDepth (report, db))
  | .last chain anchor broken =>
      let root := rootForMeta codec anchor
      let db := persistRoot anchor.memoryId root 0 now db
      let report := { report with
        brokenParentMemoryIds := report.brokenParentMemoryIds ++
          (if broken then [anchor.memoryId] else [])
        rootsBackfilled := report.rootsBackfilled + 1
        newRoots := report.newRoots + 1 }
      return (true, ← handDown root now chain 0 (report, db))

def EVIDENCE_ROOT_BACKFILL_BATCH : Nat := 256

/-- The next batch of rows without a root. -/
def backfillBatch (cursor : Int) (db : Database) : List Int :=
  -- `evidence_root_id IS NULL OR evidence_root_id = ''`
  ((((db.table "memory_meta").filter fun r => (r.text "evidence_root_id").getD "" == "").filterMap
    fun r => r.integer "memory_id").filter fun id => cursor < id).insertionSort (· ≤ ·) |>.take
      EVIDENCE_ROOT_BACKFILL_BATCH

/-- The rows of a batch, up to the first cycle. -/
def resolveBatch (codec : Codec) (now : Int) (fuel : Nat) : List Int →
    EvidenceRootMigrationReport × Database →
      Except BackfillStop (Bool × EvidenceRootMigrationReport × Database)
  | [], s => .ok (true, s)
  | id :: ids, (report, db) => do
      let (resolved, s) ← resolveMissingEvidenceRoot codec now fuel id report db
      if resolved then resolveBatch codec now fuel ids s else return (false, s)

/-- `evidence_backfill_from_cursor`. -/
def evidenceBackfillFromCursor (codec : Codec) (now : Int) (climbFuel : Nat) : Nat → Int →
    EvidenceRootMigrationReport × Database →
      Except BackfillStop (EvidenceRootMigrationReport × Database)
  | 0, _, _ => .error .outOfFuel
  | fuel + 1, cursor, (report, db) =>
      match (backfillBatch cursor db).getLast? with
      | none => .ok (report, db)
      | some last => do
          let (resolved, report, db) ← resolveBatch codec now climbFuel (backfillBatch cursor db)
            (report, db)
          if resolved then
            evidenceBackfillFromCursor codec now climbFuel fuel last ({ report with
              lastMemoryId := last
              brokenParentMemoryIds := sortedIds report.brokenParentMemoryIds }, db)
          else return (report, db)

/-! ## What one write does

Of `memory_meta` only the root and the depth of one row are written. Rows are unique by their
memory, so every other row reads as before. -/

section Persist

variable {db : Database} {id k depth now : Int} {root : String}

theorem table_persistRoot : (persistRoot id root depth now db).table "memory_meta"
    = (db.updateRows "memory_meta" (fun r => r.col "memory_id" = .int id) fun r =>
        r.setAll [("evidence_root_id", .str root), ("derivation_depth", .int depth)]).table
          "memory_meta" := by
  simp only [persistRoot, persistPrimaryEvidenceRoot, Proc.exec_bind]
  rw [Proc.run_step_ok rfl rfl, Proc.run_step_ok rfl rfl, Proc.exec, Proc.run_step_ok rfl rfl,
    Proc.run_done]
  dsimp only
  split
  · simp
  · simp

/-- A row with another root and depth. -/
def EvidenceMeta.withRoot (row : EvidenceMeta) (root : String) (depth : Int) : EvidenceMeta :=
  { row with evidenceRootId := some root, derivationDepth := depth }

theorem evidenceMeta_persistRoot (hroot : root ≠ "") (hlo : -2 ^ 63 ≤ depth) (hhi : depth < 2 ^ 63) :
    (persistRoot id root depth now db).evidenceMeta k
      = (db.evidenceMeta k).map fun row => if k = id then row.withRoot root depth else row := by
  have hkey : ∀ r : Record, (r.setAll [("evidence_root_id", .str root),
      ("derivation_depth", .int depth)]).col "memory_id" = r.col "memory_id" :=
    setAll_col_of_not_mem (by simp)
  have hrow : ∀ r : Record, EvidenceMeta.ofRow (r.setAll [("evidence_root_id", .str root),
      ("derivation_depth", .int depth)]) = (EvidenceMeta.ofRow r).withRoot root depth := by
    intro r
    have hne : root.isEmpty = false := by simpa using hroot
    simp [EvidenceMeta.ofRow, EvidenceMeta.withRoot, EvidenceMetaRow.ofRow, Record.setAll,
      Record.text, Record.i64, Record.integer, Value.asI64_int hlo hhi, hne]
  rw [Database.evidenceMeta, Database.metaRow, table_persistRoot, ← Database.metaRow,
    Database.metaRow_updateRows hkey, Database.evidenceMeta]
  cases hmeta : db.metaRow k with
  | none => rfl
  | some r =>
      have hid : r.col "memory_id" = .int k := by simpa using List.find?_some hmeta
      simp only [Option.map_some, hid, Value.int.injEq, decide_eq_true_eq, Option.some.injEq]
      split
      · exact hrow r
      · rfl

end Persist

/-! ## Where a root comes from

`Nearest` is defined on a view of the rows, without a database. A row whose parents lead round a
cycle has no nearest ancestor, and neither has a memory without a row. -/

/-- The rows of metadata by memory. -/
abbrev MetaView := Int → Option EvidenceMeta

/-- The link to the parent, in a view. -/
def MetaView.parent (f : MetaView) (id : Int) : Option Int :=
  (f id).bind fun row => row.parentMemoryId

/-- This many steps above a row is its nearest ancestor that has a root, or the last
ancestor there is. -/
inductive Nearest (f : MetaView) : Int → Nat → EvidenceMeta → Prop
  | rooted {id : Int} {row : EvidenceMeta} (hrow : f id = some row)
      (hroot : row.evidenceRootId.isSome = true) : Nearest f id 0 row
  | last {id : Int} {row : EvidenceMeta} (hrow : f id = some row) (hroot : row.evidenceRootId = none)
      (hparent : ∀ p, row.parentMemoryId = some p → f p = none) : Nearest f id 0 row
  | above {id p : Int} {row anchor : EvidenceMeta} {k : Nat} (hrow : f id = some row)
      (hroot : row.evidenceRootId = none) (hparent : row.parentMemoryId = some p)
      (h : Nearest f p k anchor) : Nearest f id (k + 1) anchor

/-- The root an anchor hands down. -/
def EvidenceMeta.handedRoot (codec : Codec) (anchor : EvidenceMeta) : String :=
  anchor.evidenceRootId.getD (rootForMeta codec anchor)

/-- The depth of the row this many steps below an anchor. -/
def EvidenceMeta.depthBelow (anchor : EvidenceMeta) (k : Nat) : Int :=
  (if anchor.evidenceRootId.isSome then anchor.derivationDepth else 0) + k

/-- A view of a database: rows know their memory, and hold what their columns can. -/
structure MetaView.Sound (f : MetaView) : Prop where
  memoryId : ∀ id row, f id = some row → row.memoryId = id
  root : ∀ id row root, f id = some row → row.evidenceRootId = some root → root ≠ ""
  depth : ∀ id row, f id = some row → -2 ^ 63 ≤ row.derivationDepth ∧ row.derivationDepth < 2 ^ 63

theorem evidenceMeta_sound (db : Database) : MetaView.Sound db.evidenceMeta := by
  have hrow : ∀ id row, db.evidenceMeta id = some row →
      ∃ r, r.col "memory_id" = .int id ∧ EvidenceMeta.ofRow r = row := by
    intro id row h
    obtain ⟨r, hr, hof⟩ := Option.map_eq_some_iff.mp h
    exact ⟨r, by simpa using List.find?_some hr, hof⟩
  refine ⟨fun id row h => ?_, fun id row root h hroot => ?_, fun id row h => ?_⟩
  · obtain ⟨r, hid, rfl⟩ := hrow id row h
    simp [EvidenceMeta.ofRow, Record.integer, hid]
  · obtain ⟨r, -, rfl⟩ := hrow id row h
    simp only [EvidenceMeta.ofRow, EvidenceMetaRow.ofRow, Option.filter_eq_some_iff] at hroot
    simpa using hroot.2
  · obtain ⟨r, hr, rfl⟩ := Option.map_eq_some_iff.mp h
    have hload : db.loadEvidenceMeta id = some (EvidenceMetaRow.ofRow r) :=
      Option.map_eq_some_iff.mpr ⟨r, hr, rfl⟩
    exact loadEvidenceMeta_depth hload

theorem Nearest.anchor {f : MetaView} {id : Int} {k : Nat} {anchor : EvidenceMeta}
    (h : Nearest f id k anchor) : ∃ j, f j = some anchor := by
  induction h with
  | rooted hrow => exact ⟨_, hrow⟩
  | last hrow => exact ⟨_, hrow⟩
  | above _ _ _ _ ih => exact ih

theorem handedRoot_ne {codec : Codec} {f : MetaView} (hf : f.Sound) {id : Int} {k : Nat}
    {anchor : EvidenceMeta} (h : Nearest f id k anchor) : anchor.handedRoot codec ≠ "" := by
  obtain ⟨j, hj⟩ := h.anchor
  unfold EvidenceMeta.handedRoot
  cases hroot : anchor.evidenceRootId with
  | some root => exact hf.root j anchor root hj hroot
  | none =>
      rw [Option.getD_none, rootForMeta, evidenceRootId]
      intro hempty
      have hlength := congrArg String.length hempty
      rw [String.length_append] at hlength
      simp at hlength

theorem depthBelow_ge {f : MetaView} (hf : f.Sound) {id : Int} {k : Nat} {anchor : EvidenceMeta}
    (h : Nearest f id k anchor) : -2 ^ 63 ≤ anchor.depthBelow k := by
  obtain ⟨j, hj⟩ := h.anchor
  have hdepth := (hf.depth j anchor hj).1
  unfold EvidenceMeta.depthBelow
  split <;> omega

/-! ## How far the migration has got

`Progress` relates the rows before the migration to the rows at some later point. That a row
without a root is as it was lets the next climb start from the old rows, so that progress made
from there is progress from the beginning. -/

/-- Rows are as they were, or had no root and now have the one of their nearest
ancestor, with their distance to it added to its depth. -/
def Progress (codec : Codec) (f g : MetaView) : Prop :=
  ∀ id, g id = f id ∨ ∃ row k anchor, f id = some row ∧ row.evidenceRootId = none ∧
    Nearest f id k anchor ∧ g id = some (row.withRoot (anchor.handedRoot codec) (anchor.depthBelow k))

section Progress

variable {codec : Codec} {f g : MetaView} {id now : Int} {row anchor : EvidenceMeta} {k : Nat}
  {db : Database}

theorem Progress.refl : Progress codec f f := fun _ => Or.inl rfl

/-- A row that still has no root is as it was. -/
theorem Progress.unrooted (h : Progress codec f g) (hrow : g id = some row)
    (hroot : row.evidenceRootId = none) : f id = some row := by
  rcases h id with hsame | ⟨row', k, anchor, -, -, -, hfilled⟩
  · exact hsame ▸ hrow
  · rw [hfilled] at hrow
    obtain rfl := Option.some.inj hrow
    cases hroot

/-- No row comes or goes. -/
theorem Progress.isNone (h : Progress codec f g) : g id = none ↔ f id = none := by
  rcases h id with hsame | ⟨row', k, anchor, hrow, -, -, hfilled⟩
  · rw [hsame]
  · simp [hrow, hfilled]

/-- The root of a row that has one is that of its nearest ancestor. -/
theorem Progress.rooted (h : Progress codec f g) (hrow : g id = some row)
    (hroot : row.evidenceRootId.isSome = true) : ∃ k anchor, Nearest f id k anchor ∧
      row.evidenceRootId = some (anchor.handedRoot codec) ∧
        row.derivationDepth = anchor.depthBelow k := by
  rcases h id with hsame | ⟨row', k, anchor, -, -, hnearest, hfilled⟩
  · obtain ⟨root, hsome⟩ := Option.isSome_iff_exists.mp hroot
    refine ⟨0, row, .rooted (hsame ▸ hrow) hroot, ?_, ?_⟩
    · simp [EvidenceMeta.handedRoot, hsome]
    · simp [EvidenceMeta.depthBelow, hroot]
  · rw [hfilled] at hrow
    obtain rfl := Option.some.inj hrow
    exact ⟨k, anchor, hnearest, rfl, rfl⟩

/-- Writing a row without a root what its nearest ancestor hands down is progress. -/
theorem Progress.fill (h : Progress codec f db.evidenceMeta) (hf : f.Sound) (hrow : f id = some row)
    (hroot : row.evidenceRootId = none) (hnearest : Nearest f id k anchor)
    (hdepth : anchor.depthBelow k < 2 ^ 63) :
    Progress codec f (persistRoot id (anchor.handedRoot codec) (anchor.depthBelow k) now
      db).evidenceMeta := by
  intro j
  rw [evidenceMeta_persistRoot (handedRoot_ne hf hnearest) (depthBelow_ge hf hnearest) hdepth]
  by_cases hj : j = id
  · subst hj
    refine Or.inr ⟨row, k, anchor, hrow, hroot, hnearest, ?_⟩
    rcases h j with hsame | ⟨row', k', anchor', hrow', -, -, hfilled⟩
    · rw [hsame, hrow, Option.map_some, if_pos rfl]
    · obtain rfl := Option.some.inj (hrow.symm.trans hrow')
      rw [hfilled, Option.map_some, if_pos rfl]
      rfl
  · have hother : (db.evidenceMeta j).map (fun row => if j = id then
        row.withRoot (anchor.handedRoot codec) (anchor.depthBelow k) else row) = db.evidenceMeta j := by
      cases db.evidenceMeta j with
      | none => rfl
      | some row => rw [Option.map_some, if_neg hj]
    rw [hother]
    exact h j

/-- Writing a row the root and depth it has changes nothing. -/
theorem evidenceMeta_repair (hrow : db.evidenceMeta id = some row) {root : String}
    (hroot : row.evidenceRootId = some root) (j : Int) :
    (persistRoot id root row.derivationDepth now db).evidenceMeta j = db.evidenceMeta j := by
  obtain ⟨hlo, hhi⟩ := (evidenceMeta_sound db).depth id row hrow
  rw [evidenceMeta_persistRoot ((evidenceMeta_sound db).root id row root hrow hroot) hlo hhi]
  by_cases hj : j = id
  · subst hj
    rw [hrow, Option.map_some, if_pos rfl, EvidenceMeta.withRoot, ← hroot]
  · cases db.evidenceMeta j with
    | none => rfl
    | some row' => rw [Option.map_some, if_neg hj]

end Progress

/-! ## The climb

The climb is right in each of its ends, whichever comes first. The fuel it needs is the number
of rows and one more, since it never passes a row twice without stopping. -/

section Climb

variable {g : MetaView} {start cursor : Int} {chain : List EvidenceMeta} {db : Database} {fuel : Nat}
  {seen : List Int} {e : ClimbEnd}

/-- The rows that were passed between a start and a cursor, none of which has a root. -/
inductive Climbed (g : MetaView) (start : Int) : List EvidenceMeta → Int → Prop
  | start : Climbed g start [] start
  | step {chain : List EvidenceMeta} {row : EvidenceMeta} {p : Int}
      (h : Climbed g start chain row.memoryId) (hrow : g row.memoryId = some row)
      (hroot : row.evidenceRootId = none) (hparent : row.parentMemoryId = some p) :
      Climbed g start (row :: chain) p

/-- The rows passed have no root. -/
theorem Climbed.unrooted (h : Climbed g start chain cursor) :
    ∀ row ∈ chain, g row.memoryId = some row ∧ row.evidenceRootId = none := by
  induction h with
  | start => simp
  | step h hrow hroot _ ih => exact List.forall_mem_cons.mpr ⟨⟨hrow, hroot⟩, ih⟩

/-- They are a climb. -/
theorem Climbed.isChain (h : Climbed g start chain cursor) :
    ((chain.reverse.map EvidenceMeta.memoryId) ++ [cursor]).IsChain (Link g.parent) := by
  induction h with
  | start => simp
  | @step chain row p h hrow _ hparent ih =>
      rw [List.reverse_cons, List.map_append, List.map_singleton]
      refine List.isChain_append.mpr ⟨ih, by simp, fun x hx y hy => ?_⟩
      rw [List.getLast?_concat, Option.mem_some_iff] at hx
      rw [List.head?_cons, Option.mem_some_iff] at hy
      subst hx hy
      rw [Link, MetaView.parent, hrow, Option.bind_some, hparent]

/-- What a climb has found. -/
def FoundCycle (g : MetaView) (ids : List Int) : Prop :=
  ∃ c, TransGen (Link g.parent) c c ∧ (∀ x, x ∈ ids ↔ ReflTransGen (Link g.parent) c x) ∧
    ∀ x ∈ ids, ∃ row, g x = some row ∧ row.evidenceRootId = none

def ClimbEnd.Right (g : MetaView) (start : Int) : ClimbEnd → Prop
  | .cycle ids => FoundCycle g ids
  | .disappeared id => id = start ∧ g start = none
  | .rooted chain row => Climbed g start chain row.memoryId ∧ g row.memoryId = some row ∧
      row.evidenceRootId.isSome = true
  | .last chain anchor _ => Climbed g start chain anchor.memoryId ∧
      g anchor.memoryId = some anchor ∧ anchor.evidenceRootId = none ∧
        ∀ p, anchor.parentMemoryId = some p → g p = none

theorem mem_sortedIds {ids : List Int} {x : Int} : x ∈ sortedIds ids ↔ x ∈ ids := by
  rw [sortedIds, List.mem_dedup, List.mem_insertionSort]

/-- The rows since a node that has been passed are its cycle. -/
theorem Climbed.foundCycle (h : Climbed g start chain cursor)
    (hpassed : cursor ∈ chain.map EvidenceMeta.memoryId) :
    FoundCycle g (sortedIds ((chain.reverse.map EvidenceMeta.memoryId).dropWhile (· ≠ cursor))) := by
  have hmem : cursor ∈ chain.reverse.map EvidenceMeta.memoryId := by
    rwa [List.map_reverse, List.mem_reverse]
  generalize hids : chain.reverse.map EvidenceMeta.memoryId = ids at hmem ⊢
  obtain ⟨rest, hrest⟩ : ∃ rest, ids.dropWhile (· ≠ cursor) = cursor :: rest := by
    have hne : ids.dropWhile (· ≠ cursor) ≠ [] := by
      rw [ne_eq, List.dropWhile_eq_nil_iff]
      intro hall
      simpa using hall cursor hmem
    obtain ⟨x, rest, hx⟩ := List.exists_cons_of_ne_nil hne
    have hhead := List.head_dropWhile_not (fun y => decide (y ≠ cursor)) hne
    simp only [hx, List.head_cons, decide_eq_false_iff_not, ne_eq, not_not] at hhead
    exact ⟨rest, hhead ▸ hx⟩
  have hchain := h.isChain
  rw [hids, ← List.takeWhile_append_dropWhile (p := fun x => decide (x ≠ cursor)) (l := ids), hrest,
    List.append_assoc] at hchain
  obtain ⟨hcycle, horbit⟩ := cycle_of_climb hchain.right_of_append
  refine ⟨cursor, hcycle, fun x => ?_, fun x hx => ?_⟩
  · rw [mem_sortedIds, hrest, horbit]
  · rw [mem_sortedIds] at hx
    have hx := (List.dropWhile_sublist _).subset hx
    rw [← hids, List.mem_map] at hx
    obtain ⟨row, hrow, rfl⟩ := hx
    exact ⟨row, h.unrooted row (List.mem_reverse.mp hrow)⟩

/-- Every way the climb can end is right. -/
theorem climb_right (h : Climbed db.evidenceMeta start chain cursor)
    (hseen : ∀ x, x ∈ seen ↔ x ∈ chain.map EvidenceMeta.memoryId)
    (hok : climb db fuel seen chain cursor = .ok e) : e.Right db.evidenceMeta start := by
  induction fuel generalizing seen chain cursor with
  | zero => cases hok
  | succ fuel ih =>
      unfold climb at hok
      split at hok
      · next hmem =>
          obtain rfl := Except.ok.inj hok
          have hpassed := (hseen cursor).mp hmem
          have hfound := h.foundCycle hpassed
          have hne : ((chain.reverse.map EvidenceMeta.memoryId).dropWhile (· ≠ cursor)).isEmpty
              = false := by
            rw [List.isEmpty_eq_false_iff, ne_eq, List.dropWhile_eq_nil_iff]
            intro hall
            simpa using hall cursor (by rwa [List.map_reverse, List.mem_reverse])
          dsimp only [ClimbEnd.Right]
          rw [hne, if_neg (by decide)]
          exact hfound
      · split at hok
        · next hnone =>
            cases h with
            | start =>
                obtain rfl := Except.ok.inj hok
                exact ⟨rfl, hnone⟩
            | step h hrow hroot hparent =>
                obtain rfl := Except.ok.inj hok
                refine ⟨h, hrow, hroot, fun p hp => ?_⟩
                rw [hparent] at hp
                rw [← Option.some.inj hp]
                exact hnone
        · next row hrow =>
            obtain rfl := (evidenceMeta_sound db).memoryId cursor row hrow
            split at hok
            · next hroot =>
                obtain rfl := Except.ok.inj hok
                exact ⟨h, hrow, hroot⟩
            · next hroot =>
                have hroot : row.evidenceRootId = none := by simpa using hroot
                split at hok
                · next parent hparent =>
                    refine ih (.step h hrow hroot hparent) (fun x => ?_) hok
                    rw [List.mem_cons, List.map_cons, List.mem_cons, hseen]
                · next hparent =>
                    obtain rfl := Except.ok.inj hok
                    refine ⟨h, hrow, hroot, fun p hp => ?_⟩
                    rw [hparent] at hp
                    cases hp

/-- The memories that have a row. -/
def Database.metaIds (db : Database) : List Int :=
  (db.table "memory_meta").filterMap fun r => r.integer "memory_id"

theorem mem_metaIds : cursor ∈ db.metaIds ↔ (db.evidenceMeta cursor).isSome = true := by
  rw [Database.metaIds, Database.evidenceMeta, Option.isSome_map, Database.metaRow,
    List.find?_isSome, List.mem_filterMap]
  have hcol : ∀ r : Record, r.integer "memory_id" = some cursor ↔ r.col "memory_id" = .int cursor := by
    intro r
    unfold Record.integer
    cases r.col "memory_id" with
    | int n => simp
    | _ => simp
  simp only [hcol, decide_eq_true_eq]

/-- A climb passes every row at most once, so that fuel for one step more than there
are rows is enough. -/
theorem climb_fuel (hnodup : seen.Nodup) (hsub : ∀ x ∈ seen, x ∈ db.metaIds)
    (hfuel : db.metaIds.length < fuel + seen.length) :
    climb db fuel seen chain cursor ≠ .error .outOfFuel := by
  induction fuel generalizing seen chain cursor with
  | zero =>
      have hle : seen.length ≤ db.metaIds.length := (hnodup.subperm hsub).length_le
      omega
  | succ fuel ih =>
      unfold climb
      split
      · nofun
      · next hnew =>
          split
          · split <;> nofun
          · next row hrow =>
              split
              · nofun
              · split
                · refine ih (List.nodup_cons.mpr ⟨hnew, hnodup⟩)
                    (List.forall_mem_cons.mpr ⟨mem_metaIds.mpr (by rw [hrow]; rfl), hsub⟩) ?_
                  rw [List.length_cons]
                  omega
                · nofun

/-- A climb fails for want of fuel only. -/
theorem climb_error {stop : BackfillStop} (h : climb db fuel seen chain cursor = .error stop) :
    stop = .outOfFuel := by
  induction fuel generalizing seen chain cursor with
  | zero => exact (Except.error.inj h).symm
  | succ fuel ih =>
      unfold climb at h
      split at h
      · cases h
      · split at h
        · split at h <;> cases h
        · split at h
          · cases h
          · split at h
            · exact ih h
            · cases h

end Climb

/-! ## One row

Handing down writes every row that was passed, and the first of these is the row in question.
The only failure left is a depth beyond its column, which is `Overflows` on the rows as they
were. -/

section Resolve

variable {codec : Codec} {f : MetaView} {db db' : Database} {id start now depth : Int} {fuel : Nat}
  {report report' : EvidenceRootMigrationReport} {chain : List EvidenceMeta} {stop : BackfillStop}

/-- The memory has a root. -/
def Database.Rooted (db : Database) (id : Int) : Prop :=
  ∃ row, db.evidenceMeta id = some row ∧ row.evidenceRootId.isSome = true

/-- A step of the migration: progress, on the same rows, and no root is lost. -/
structure Advances (codec : Codec) (f : MetaView) (db db' : Database) : Prop where
  progress : Progress codec f db'.evidenceMeta
  ids : db'.metaIds = db.metaIds
  rooted : ∀ id, db.Rooted id → db'.Rooted id

theorem Advances.refl (h : Progress codec f db.evidenceMeta) : Advances codec f db db :=
  ⟨h, rfl, fun _ hid => hid⟩

theorem Advances.trans {db'' : Database} (h : Advances codec f db db')
    (h' : Advances codec f db' db'') : Advances codec f db db'' :=
  ⟨h'.progress, h'.ids.trans h.ids, fun id hid => h'.rooted id (h.rooted id hid)⟩

theorem metaIds_persistRoot {root : String} :
    (persistRoot id root depth now db).metaIds = db.metaIds := by
  rw [Database.metaIds, table_persistRoot, Database.table_updateRows, if_pos rfl, List.filterMap_map,
    Database.metaIds]
  refine List.filterMap_congr fun r _ => ?_
  have hkey : (if decide (r.col "memory_id" = .int id) = true then r.setAll
      [("evidence_root_id", .str root), ("derivation_depth", .int depth)] else r).col "memory_id"
        = r.col "memory_id" := by
    split
    · exact setAll_col_of_not_mem (by simp) r
    · rfl
  rw [Function.comp_apply, Record.integer, hkey]
  rfl

theorem Rooted.persistRoot {root : String} {j : Int} (hroot : root ≠ "") (hlo : -2 ^ 63 ≤ depth)
    (hhi : depth < 2 ^ 63) (h : db.Rooted j ∨ j = id ∧ (db.evidenceMeta id).isSome = true) :
    (persistRoot id root depth now db).Rooted j := by
  unfold Database.Rooted
  rw [evidenceMeta_persistRoot hroot hlo hhi]
  by_cases hj : j = id
  · subst hj
    have hsome : (db.evidenceMeta j).isSome = true := by
      rcases h with ⟨row, hrow, -⟩ | ⟨-, hsome⟩
      · rw [hrow]; rfl
      · exact hsome
    obtain ⟨row, hrow⟩ := Option.isSome_iff_exists.mp hsome
    exact ⟨row.withRoot root depth, by rw [hrow, Option.map_some, if_pos rfl], rfl⟩
  · rcases h with ⟨row, hrow, hrooted⟩ | ⟨rfl, -⟩
    · exact ⟨row, by rw [hrow, Option.map_some, if_neg hj], hrooted⟩
    · exact absurd rfl hj

/-- Filling in a row is a step, after which the row has a root. -/
theorem Advances.fill (h : Progress codec f db.evidenceMeta) (hf : f.Sound) {row anchor : EvidenceMeta}
    {k : Nat} (hrow : f id = some row) (hroot : row.evidenceRootId = none)
    (hnearest : Nearest f id k anchor) (hdepth : anchor.depthBelow k < 2 ^ 63) :
    Advances codec f db (persistRoot id (anchor.handedRoot codec) (anchor.depthBelow k) now db) ∧
      (persistRoot id (anchor.handedRoot codec) (anchor.depthBelow k) now db).Rooted id := by
  have hne : anchor.handedRoot codec ≠ "" := handedRoot_ne hf hnearest
  have hlo := depthBelow_ge hf hnearest
  have hsome : (db.evidenceMeta id).isSome = true := by
    rw [Option.isSome_iff_ne_none, ne_eq, h.isNone, hrow]
    nofun
  exact ⟨⟨h.fill hf hrow hroot hnearest hdepth, metaIds_persistRoot,
    fun j hj => Rooted.persistRoot hne hlo hdepth (Or.inl hj)⟩,
    Rooted.persistRoot hne hlo hdepth (Or.inr ⟨rfl, hsome⟩)⟩

theorem Climbed.progress {g : MetaView} {cursor : Int} (h : Climbed g start chain cursor)
    (hp : Progress codec f g) : Climbed f start chain cursor := by
  induction h with
  | start => exact .start
  | step _ hrow hroot hparent ih => exact .step ih (hp.unrooted hrow hroot) hroot hparent

theorem depthBelow_succ (anchor : EvidenceMeta) (k : Nat) :
    anchor.depthBelow k + 1 = anchor.depthBelow (k + 1) := by
  unfold EvidenceMeta.depthBelow
  omega

/-- Handing a root down gives every row passed what its nearest ancestor has. -/
theorem handDown_ok (hf : f.Sound) {anchor : EvidenceMeta} {k : Nat} {cursor : Int}
    (hclimbed : Climbed f start chain cursor) (hnearest : Nearest f cursor k anchor)
    (hp : Progress codec f db.evidenceMeta) (hcursor : db.Rooted cursor)
    (h : handDown (anchor.handedRoot codec) now chain (anchor.depthBelow k) (report, db)
      = .ok (report', db')) :
    Advances codec f db db' ∧ report'.cycleMemoryIds = report.cycleMemoryIds ∧ db'.Rooted start := by
  induction hclimbed generalizing k report db with
  | start =>
      obtain ⟨rfl, rfl⟩ := Prod.mk.inj (Except.ok.inj h)
      exact ⟨.refl hp, rfl, hcursor⟩
  | @step chain row p hclimbed hrow hroot hparent ih =>
      unfold handDown at h
      split at h
      · next hlt =>
          have habove := Nearest.above hrow hroot hparent hnearest
          rw [depthBelow_succ] at h hlt
          obtain ⟨hstep, hrooted⟩ := Advances.fill hp hf hrow hroot habove hlt
          obtain ⟨hrest, hcycle, hstart⟩ := ih habove hstep.progress hrooted h
          exact ⟨hstep.trans hrest, hcycle, hstart⟩
      · cases h

/-- It fails where a depth does not fit its column. -/
def Overflows (f : MetaView) (stop : BackfillStop) : Prop :=
  ∃ id k anchor, Nearest f id k anchor ∧ 2 ^ 63 ≤ anchor.depthBelow k ∧
    stop = .failed ("derivation depth overflow at memory " ++ toString id)

theorem handDown_error {anchor : EvidenceMeta} {k : Nat} {cursor : Int} {root : String}
    (hclimbed : Climbed f start chain cursor) (hnearest : Nearest f cursor k anchor)
    (h : handDown root now chain (anchor.depthBelow k) (report, db) = .error stop) :
    Overflows f stop := by
  induction hclimbed generalizing k report db with
  | start => cases h
  | @step chain row p hclimbed hrow hroot hparent ih =>
      have habove := Nearest.above hrow hroot hparent hnearest
      unfold handDown at h
      rw [depthBelow_succ] at h
      split at h
      · exact ih habove h
      · next hlt => exact ⟨row.memoryId, k + 1, anchor, habove, by omega, (Except.error.inj h).symm⟩

/-- What one resolution has done when it returns. -/
theorem resolveMissingEvidenceRoot_ok (hf : f.Sound) (hp : Progress codec f db.evidenceMeta)
    {resolved : Bool}
    (h : resolveMissingEvidenceRoot codec now fuel start report db = .ok (resolved, report', db')) :
    Advances codec f db db' ∧
      (resolved = true → report'.cycleMemoryIds = report.cycleMemoryIds ∧ db'.Rooted start) ∧
        (resolved = false → FoundCycle db'.evidenceMeta report'.cycleMemoryIds) := by
  obtain ⟨e, hclimb, h⟩ := bind_eq_ok.mp h
  have hright := climb_right .start (by simp) hclimb
  cases e with
  | cycle ids =>
      obtain ⟨rfl, hs⟩ := Prod.mk.inj (pure_eq_ok.mp h)
      obtain ⟨rfl, rfl⟩ := Prod.mk.inj hs
      exact ⟨.refl hp, nofun, fun _ => hright⟩
  | disappeared id => cases h
  | rooted chain row =>
      obtain ⟨hclimbed, hrow, hroot⟩ := hright
      obtain ⟨s, hdown, h⟩ := bind_eq_ok.mp h
      obtain ⟨rfl, rfl⟩ := Prod.mk.inj (pure_eq_ok.mp h)
      obtain ⟨k, anchor, hnearest, hsome, hdepth⟩ := hp.rooted hrow hroot
      rw [hsome, Option.getD_some] at hdown
      have hsame : ∀ j, (persistRoot row.memoryId (anchor.handedRoot codec) row.derivationDepth now
          db).evidenceMeta j = db.evidenceMeta j := evidenceMeta_repair hrow hsome
      have hview : (persistRoot row.memoryId (anchor.handedRoot codec) row.derivationDepth now
          db).evidenceMeta = db.evidenceMeta := funext hsame
      have hrepair : Advances codec f db
          (persistRoot row.memoryId (anchor.handedRoot codec) row.derivationDepth now db) := by
        refine ⟨hview ▸ hp, metaIds_persistRoot, fun id hid => ?_⟩
        unfold Database.Rooted
        rw [hview]
        exact hid
      rw [hdepth] at hdown hrepair
      obtain ⟨hstep, hcycle, hstart⟩ := handDown_ok hf (hclimbed.progress hp) hnearest
        hrepair.progress (hrepair.rooted _ ⟨row, hrow, hroot⟩) hdown
      exact ⟨hrepair.trans hstep, fun _ => ⟨hcycle, hstart⟩, nofun⟩
  | last chain anchor broken =>
      obtain ⟨hclimbed, hrow, hroot, hparent⟩ := hright
      obtain ⟨s, hdown, h⟩ := bind_eq_ok.mp h
      obtain ⟨rfl, rfl⟩ := Prod.mk.inj (pure_eq_ok.mp h)
      have hfrow := hp.unrooted hrow hroot
      have hnearest : Nearest f anchor.memoryId 0 anchor :=
        .last hfrow hroot fun p hpar => hp.isNone.mp (hparent p hpar)
      have hhanded : anchor.handedRoot codec = rootForMeta codec anchor := by
        rw [EvidenceMeta.handedRoot, hroot, Option.getD_none]
      have hzero : anchor.depthBelow 0 = 0 := by simp [EvidenceMeta.depthBelow, hroot]
      obtain ⟨hstep, hrooted⟩ : Advances codec f db (persistRoot anchor.memoryId
            (anchor.handedRoot codec) (anchor.depthBelow 0) now db) ∧
          (persistRoot anchor.memoryId (anchor.handedRoot codec) (anchor.depthBelow 0) now db).Rooted
            anchor.memoryId :=
        Advances.fill hp hf hfrow hroot hnearest (by rw [hzero]; decide)
      rw [hhanded, hzero] at hstep hrooted
      have hdown := hdown
      rw [← hhanded, ← hzero] at hdown hstep hrooted
      obtain ⟨hrest, hcycle, hstart⟩ := handDown_ok hf (hclimbed.progress hp) hnearest hstep.progress
        hrooted hdown
      exact ⟨hstep.trans hrest, fun _ => ⟨hcycle, hstart⟩, nofun⟩

/-- With enough fuel it fails only where a depth does not fit. -/
theorem resolveMissingEvidenceRoot_error (hp : Progress codec f db.evidenceMeta)
    (hfuel : db.metaIds.length < fuel) (hstart : start ∈ db.metaIds)
    (h : resolveMissingEvidenceRoot codec now fuel start report db = .error stop) :
    Overflows f stop := by
  rcases bind_eq_error.mp h with hclimb | ⟨e, hclimb, h⟩
  · obtain rfl := climb_error hclimb
    exact absurd hclimb (climb_fuel List.nodup_nil (by simp) (by simpa using hfuel))
  · have hright := climb_right .start (by simp) hclimb
    cases e with
    | cycle ids => cases h
    | disappeared id =>
        obtain ⟨rfl, hnone⟩ := hright
        rw [mem_metaIds, hnone] at hstart
        cases hstart
    | rooted chain row =>
        obtain ⟨hclimbed, hrow, hroot⟩ := hright
        obtain ⟨k, anchor, hnearest, hsome, hdepth⟩ := hp.rooted hrow hroot
        rcases bind_eq_error.mp h with hdown | ⟨s, -, h⟩
        · rw [hdepth] at hdown
          exact handDown_error (hclimbed.progress hp) hnearest hdown
        · cases h
    | last chain anchor broken =>
        obtain ⟨hclimbed, hrow, hroot, hparent⟩ := hright
        have hnearest : Nearest f anchor.memoryId 0 anchor :=
          .last (hp.unrooted hrow hroot) hroot fun p hpar => hp.isNone.mp (hparent p hpar)
        have hzero : anchor.depthBelow 0 = 0 := by simp [EvidenceMeta.depthBelow, hroot]
        rcases bind_eq_error.mp h with hdown | ⟨s, -, h⟩
        · rw [← hzero] at hdown
          exact handDown_error (hclimbed.progress hp) hnearest hdown
        · cases h

end Resolve

/-! ## Batches

A batch is the beginning of the sorted list of the rows without a root above the cursor, and the
next cursor is the last id of the batch. So the cursor passes rows of the batch and rows that
have a root. -/

section Batch

variable {codec : Codec} {f : MetaView} {db db' : Database} {cursor now : Int} {fuel climbFuel : Nat}
  {report report' : EvidenceRootMigrationReport} {ids : List Int} {stop : BackfillStop}
  {resolved : Bool}

theorem resolveBatch_ok (hf : f.Sound) (hp : Progress codec f db.evidenceMeta)
    (h : resolveBatch codec now fuel ids (report, db) = .ok (resolved, report', db')) :
    Advances codec f db db' ∧
      (resolved = true → report'.cycleMemoryIds = report.cycleMemoryIds ∧ ∀ id ∈ ids, db'.Rooted id) ∧
        (resolved = false → FoundCycle db'.evidenceMeta report'.cycleMemoryIds) := by
  induction ids generalizing report db with
  | nil =>
      obtain ⟨rfl, hs⟩ := Prod.mk.inj (Except.ok.inj h)
      obtain ⟨rfl, rfl⟩ := Prod.mk.inj hs
      exact ⟨.refl hp, fun _ => ⟨rfl, by simp⟩, nofun⟩
  | cons id ids ih =>
      obtain ⟨⟨one, report₁, db₁⟩, hone, h⟩ := bind_eq_ok.mp h
      obtain ⟨hstep, hresolved, hcycle⟩ := resolveMissingEvidenceRoot_ok hf hp hone
      cases one with
      | false =>
          obtain ⟨rfl, hs⟩ := Prod.mk.inj (pure_eq_ok.mp h)
          obtain ⟨rfl, rfl⟩ := Prod.mk.inj hs
          exact ⟨hstep, nofun, hcycle⟩
      | true =>
          obtain ⟨hrest, hrestResolved, hrestCycle⟩ := ih hstep.progress h
          refine ⟨hstep.trans hrest, fun hr => ?_, hrestCycle⟩
          obtain ⟨hsame, hrooted⟩ := hrestResolved hr
          obtain ⟨hsame', hrooted'⟩ := hresolved rfl
          exact ⟨hsame.trans hsame', List.forall_mem_cons.mpr ⟨hrest.rooted id hrooted', hrooted⟩⟩

theorem resolveBatch_error (hf : f.Sound) (hp : Progress codec f db.evidenceMeta)
    (hfuel : db.metaIds.length < fuel) (hids : ∀ id ∈ ids, id ∈ db.metaIds)
    (h : resolveBatch codec now fuel ids (report, db) = .error stop) : Overflows f stop := by
  induction ids generalizing report db with
  | nil => cases h
  | cons id ids ih =>
      obtain ⟨hid, hids⟩ := List.forall_mem_cons.mp hids
      rcases bind_eq_error.mp h with hone | ⟨⟨one, report₁, db₁⟩, hone, h⟩
      · exact resolveMissingEvidenceRoot_error hp hfuel hid hone
      · have hstep := (resolveMissingEvidenceRoot_ok hf hp hone).1
        cases one with
        | false => cases h
        | true =>
            exact ih hstep.progress (by rw [hstep.ids]; exact hfuel)
              (fun id hid => by rw [hstep.ids]; exact hids id hid) h

/-- A row without a root above the cursor, in the list the batch is taken from. -/
def pending (cursor : Int) (db : Database) : List Int :=
  ((((db.table "memory_meta").filter fun r => (r.text "evidence_root_id").getD "" == "").filterMap
    fun r => r.integer "memory_id").filter fun id => cursor < id).insertionSort (· ≤ ·)

theorem pending_mem {id : Int} (h : id ∈ pending cursor db) : id ∈ db.metaIds ∧ cursor < id := by
  rw [pending, List.mem_insertionSort, List.mem_filter, List.mem_filterMap] at h
  obtain ⟨⟨r, hr, hid⟩, hlt⟩ := h
  exact ⟨List.mem_filterMap.mpr ⟨r, List.mem_of_mem_filter hr, hid⟩, of_decide_eq_true hlt⟩

/-- A memory above the cursor has a root or is pending. -/
theorem rooted_or_pending {id : Int} (hid : id ∈ db.metaIds) (hlt : cursor < id) :
    db.Rooted id ∨ id ∈ pending cursor db := by
  obtain ⟨row, hrow⟩ := Option.isSome_iff_exists.mp (mem_metaIds.mp hid)
  cases hroot : row.evidenceRootId with
  | some root => exact Or.inl ⟨row, hrow, by rw [hroot]; rfl⟩
  | none =>
      obtain ⟨r, hr, rfl⟩ := Option.map_eq_some_iff.mp hrow
      have hcol : r.col "memory_id" = .int id := by simpa using List.find?_some hr
      have hempty : (r.text "evidence_root_id").getD "" = "" := by
        simp only [EvidenceMeta.ofRow, EvidenceMetaRow.ofRow] at hroot
        cases htext : r.text "evidence_root_id" with
        | none => rfl
        | some root =>
            rw [htext, Option.filter_eq_none_iff] at hroot
            simpa using hroot root rfl
      refine Or.inr ?_
      rw [pending, List.mem_insertionSort, List.mem_filter, List.mem_filterMap]
      refine ⟨⟨r, List.mem_filter.mpr ⟨List.mem_of_find?_eq_some hr, by simp [hempty]⟩, ?_⟩,
        decide_eq_true hlt⟩
      simp [Record.integer, hcol]

/-- The start of a sorted list has everything up to its last element. -/
theorem mem_take_of_le {l : List Int} (hl : l.Pairwise (· ≤ ·)) {n : Nat} {last x : Int}
    (hlast : (l.take n).getLast? = some last) (hx : x ∈ l) (hle : x ≤ last) : x ∈ l.take n := by
  rw [← List.take_append_drop n l, List.mem_append] at hx
  rcases hx with hx | hx
  · exact hx
  · rw [← List.take_append_drop n l, List.pairwise_append] at hl
    have hmem := List.mem_of_getLast? hlast
    obtain rfl : last = x := le_antisymm (hl.2.2 last hmem x hx) hle
    exact hmem

/-- The whole loop: the rows it is done with have a root, unless it met a cycle. -/
theorem evidenceBackfillFromCursor_ok (hf : f.Sound) (hp : Progress codec f db.evidenceMeta)
    (hdone : ∀ id ∈ db.metaIds, 0 < id → id ≤ cursor → db.Rooted id)
    (h : evidenceBackfillFromCursor codec now climbFuel fuel cursor (report, db)
      = .ok (report', db')) :
    Advances codec f db db' ∧
      (report'.cycleMemoryIds = report.cycleMemoryIds ∧
          (∀ id ∈ db.metaIds, 0 < id → db'.Rooted id) ∨
        FoundCycle db'.evidenceMeta report'.cycleMemoryIds) := by
  induction fuel generalizing cursor report db with
  | zero => cases h
  | succ fuel ih =>
      rw [evidenceBackfillFromCursor] at h
      split at h
      · next hempty =>
          obtain ⟨rfl, rfl⟩ := Prod.mk.inj (Except.ok.inj h)
          refine ⟨.refl hp, Or.inl ⟨rfl, fun id hid hpos => ?_⟩⟩
          rcases lt_or_ge cursor id with hlt | hle
          · rcases rooted_or_pending hid hlt with hrooted | hpending
            · exact hrooted
            · have htake : (pending cursor db).take EVIDENCE_ROOT_BACKFILL_BATCH = [] :=
                List.getLast?_eq_none_iff.mp hempty
              rw [List.take_eq_nil_iff] at htake
              rcases htake with hzero | hnil
              · cases hzero
              · rw [hnil] at hpending
                cases hpending
          · exact hdone id hid hpos hle
      · next last hlast =>
          obtain ⟨⟨all, report₁, db₁⟩, hbatch, h⟩ := bind_eq_ok.mp h
          obtain ⟨hstep, hresolved, hcycle⟩ := resolveBatch_ok hf hp hbatch
          cases all with
          | false =>
              obtain ⟨rfl, rfl⟩ := Prod.mk.inj (pure_eq_ok.mp h)
              exact ⟨hstep, Or.inr (hcycle rfl)⟩
          | true =>
              obtain ⟨hsame, hrooted⟩ := hresolved rfl
              have hdone' : ∀ id ∈ db₁.metaIds, 0 < id → id ≤ last → db₁.Rooted id := by
                intro id hid hpos hle
                rw [hstep.ids] at hid
                rcases lt_or_ge cursor id with hlt | hge
                · rcases rooted_or_pending hid hlt with hrooted' | hpending
                  · exact hstep.rooted id hrooted'
                  · exact hrooted id (mem_take_of_le (List.pairwise_insertionSort _ _) hlast
                      hpending hle)
                · exact hstep.rooted id (hdone id hid hpos hge)
              obtain ⟨hrest, hresult⟩ := ih hstep.progress hdone' h
              rw [hstep.ids] at hresult
              exact ⟨hstep.trans hrest, hresult.imp_left fun hleft => ⟨hleft.1.trans hsame, hleft.2⟩⟩

/-- With enough fuel it fails only where a depth does not fit. -/
theorem evidenceBackfillFromCursor_error (hf : f.Sound) (hp : Progress codec f db.evidenceMeta)
    (hclimb : db.metaIds.length < climbFuel)
    (hfuel : (db.metaIds.filter fun id => cursor < id).length < fuel)
    (h : evidenceBackfillFromCursor codec now climbFuel fuel cursor (report, db) = .error stop) :
    Overflows f stop := by
  induction fuel generalizing cursor report db with
  | zero => omega
  | succ fuel ih =>
      rw [evidenceBackfillFromCursor] at h
      split at h
      · cases h
      · next last hlast =>
          have hids : ∀ id ∈ backfillBatch cursor db, id ∈ db.metaIds ∧ cursor < id :=
            fun id hid => pending_mem (List.mem_of_mem_take hid)
          rcases bind_eq_error.mp h with hbatch | ⟨⟨all, report₁, db₁⟩, hbatch, h⟩
          · exact resolveBatch_error hf hp hclimb (fun id hid => (hids id hid).1) hbatch
          · have hstep := (resolveBatch_ok hf hp hbatch).1
            cases all with
            | false => cases h
            | true =>
                obtain ⟨hmem, hlt⟩ := hids last (List.mem_of_getLast? hlast)
                -- the last row of the batch is above the old cursor, not above the new one
                have hfewer : (db.metaIds.filter fun id => last < id).length
                    < (db.metaIds.filter fun id => cursor < id).length := by
                  have hsub : db.metaIds.filter (fun id => last < id)
                      = (db.metaIds.filter fun id => cursor < id).filter fun id => last < id := by
                    rw [List.filter_filter]
                    refine List.filter_congr fun id _ => ?_
                    rw [← Bool.decide_and, decide_eq_decide]
                    omega
                  rw [hsub, List.length_filter_lt_length_iff_exists]
                  exact ⟨last, List.mem_filter.mpr ⟨hmem, by simpa using hlt⟩, by simp⟩
                refine ih hstep.progress (by rw [hstep.ids]; exact hclimb) ?_ h
                rw [hstep.ids]
                omega

end Batch

/-! ## The whole migration -/

section Migration

variable {codec : Codec} {f g : MetaView} {db db' : Database} {ids : List Int}

/-- The migration leaves the links to parents alone. -/
theorem Progress.parent (h : Progress codec f g) : g.parent = f.parent := by
  funext id
  rcases h id with hsame | ⟨row, k, anchor, hrow, -, -, hfilled⟩
  · rw [MetaView.parent, hsame, MetaView.parent]
  · rw [MetaView.parent, hfilled, MetaView.parent, hrow]
    rfl

theorem Progress.foundCycle (h : Progress codec f g) (hcycle : FoundCycle g ids) :
    FoundCycle f ids := by
  obtain ⟨c, hc, hids, hrows⟩ := hcycle
  rw [h.parent] at hc hids
  refine ⟨c, hc, hids, fun x hx => ?_⟩
  obtain ⟨row, hrow, hroot⟩ := hrows x hx
  exact ⟨row, h.unrooted hrow hroot, hroot⟩

/-- Rows with a root are as they were. -/
def KeepsRoots (f g : MetaView) : Prop :=
  ∀ id row, f id = some row → row.evidenceRootId.isSome = true → g id = some row

theorem Progress.keepsRoots (h : Progress codec f g) : KeepsRoots f g := by
  intro id row hrow hroot
  rcases h id with hsame | ⟨row', k, anchor, hrow', hnone, -, -⟩
  · rw [hsame, hrow]
  · obtain rfl := Option.some.inj (hrow.symm.trans hrow')
    rw [hnone] at hroot
    cases hroot

/-- Every row that had no root has the root its nearest ancestor hands down, at its
distance below it. -/
def Backfilled (codec : Codec) (f g : MetaView) : Prop :=
  ∀ id row, 0 < id → f id = some row → row.evidenceRootId = none → ∃ k anchor,
    Nearest f id k anchor ∧ anchor.handedRoot codec ≠ "" ∧
      g id = some (row.withRoot (anchor.handedRoot codec) (anchor.depthBelow k))

theorem Progress.backfilled (hf : f.Sound) (h : Progress codec f db'.evidenceMeta)
    (hrooted : ∀ id row, 0 < id → f id = some row → db'.Rooted id) :
    Backfilled codec f db'.evidenceMeta := by
  intro id row hpos hrow hroot
  rcases h id with hsame | ⟨row', k, anchor, hrow', -, hnearest, hfilled⟩
  · obtain ⟨row', hrow', hsome⟩ := hrooted id row hpos hrow
    rw [hsame, hrow] at hrow'
    obtain rfl := Option.some.inj hrow'
    rw [hroot] at hsome
    cases hsome
  · obtain rfl := Option.some.inj (hrow.symm.trans hrow')
    exact ⟨k, anchor, hnearest, handedRoot_ne hf hnearest, hfilled⟩

/-- No climb from a row without a root gets into a cycle. -/
def NoCycleReached (f : MetaView) : Prop :=
  ∀ id row, f id = some row → row.evidenceRootId = none →
    ∀ x, ReflTransGen (Link f.parent) id x → ¬ TransGen (Link f.parent) x x

theorem FoundCycle.reached (h : FoundCycle f ids) : ¬ NoCycleReached f := by
  obtain ⟨c, hc, hids, hrows⟩ := h
  intro hnone
  obtain ⟨row, hrow, hroot⟩ := hrows c ((hids c).mpr .refl)
  exact hnone c row hrow hroot c .refl hc

/-- What the migration may have done when it stops. -/
def BackfillRight (codec : Codec) (db : Database) :
    Except BackfillStop (EvidenceRootMigrationReport × Database) → Prop
  | .error stop => Overflows db.evidenceMeta stop
  | .ok (report, db') => KeepsRoots db.evidenceMeta db'.evidenceMeta ∧
      (report.cycleMemoryIds = [] ∧ Backfilled codec db.evidenceMeta db'.evidenceMeta ∨
        FoundCycle db.evidenceMeta report.cycleMemoryIds ∧ ¬ NoCycleReached db.evidenceMeta)

/-- The migration ends, and what it has done is right: every row has its root and depth,
or it has found a cycle, or a depth does not fit its column. -/
theorem evidenceBackfill_right (codec : Codec) (now : Int) (db : Database)
    (report : EvidenceRootMigrationReport) (climbFuel fuel : Nat)
    (hreport : report.cycleMemoryIds = []) (hclimb : db.metaIds.length < climbFuel)
    (hfuel : db.metaIds.length < fuel) :
    BackfillRight codec db
      (evidenceBackfillFromCursor codec now climbFuel fuel 0 (report, db)) := by
  have hsound := evidenceMeta_sound db
  cases hresult : evidenceBackfillFromCursor codec now climbFuel fuel 0 (report, db) with
  | error stop =>
      have hfewer := List.length_filter_le (fun id : Int => decide (0 < id)) db.metaIds
      exact evidenceBackfillFromCursor_error hsound .refl hclimb (by omega) hresult
  | ok out =>
      obtain ⟨report', db'⟩ := out
      obtain ⟨hstep, hdone⟩ := evidenceBackfillFromCursor_ok hsound .refl
        (fun id _ hpos hle => absurd hpos (by omega)) hresult
      refine ⟨hstep.progress.keepsRoots, ?_⟩
      rcases hdone with ⟨hsame, hrooted⟩ | hcycle
      · refine Or.inl ⟨hsame.trans hreport, hstep.progress.backfilled hsound fun id row hpos hrow => ?_⟩
        exact hrooted id (mem_metaIds.mpr (by rw [hrow]; rfl)) hpos
      · have hfound := hstep.progress.foundCycle hcycle
        exact Or.inr ⟨hfound, hfound.reached⟩

end Migration

/-- A row of metadata without a root. -/
def rootlessRow (id : Int) (parent : Option Int) : Record :=
  jsonObject [("memory_id", .int id), ("namespace", .str "local"), ("source_type", .str "derived"),
    ("parent_memory_id", Value.ofOption parent), ("derivation_depth", .int 0)]

/-- The first memory is derived from the second. -/
def childFirst : Database where
  table
    | "memory_meta" => [rootlessRow 1 (some 2), rootlessRow 2 none]
    | _ => []

theorem evidenceBackfill_right_childFirst : BackfillRight placeCodec childFirst
    (evidenceBackfillFromCursor placeCodec 0 3 3 0 ({}, childFirst)) :=
  evidenceBackfill_right placeCodec 0 childFirst {} 3 3 rfl (by decide) (by decide)

/-! ### Rows it does not get to -/

/-- A memory whose id is not positive. -/
def memoryZero : Database where
  table
    | "memory_meta" => [rootlessRow 0 none]
    | _ => []

/-- A child of a memory that is as deep as its column holds. -/
def childOfDeepest : Database where
  table
    | "memory_meta" => [(rootlessRow 1 none).setAll [("evidence_root_id", .str "ev"),
        ("derivation_depth", .int (2 ^ 63 - 1))], rootlessRow 2 (some 1)]
    | _ => []

/-- Links that only go down reach no cycle. -/
theorem noCycleReached_of_lt {f : MetaView} (h : ∀ a b, Link f.parent a b → b < a) :
    NoCycleReached f := by
  intro id row _ _ x _ hcycle
  have hbelow : ∀ b, TransGen (Link f.parent) x b → b < x := by
    intro b hb
    induction hb with
    | single hab => exact h _ _ hab
    | tail _ hbc ih => exact lt_trans (h _ _ hbc) ih
  exact lt_irrefl x (hbelow x hcycle)

theorem link_evidenceMeta {db : Database} {a b : Int} (h : Link (MetaView.parent db.evidenceMeta) a b) :
    ∃ r ∈ db.table "memory_meta", r.integer "memory_id" = some a ∧
      r.i64 "parent_memory_id" = some b := by
  obtain ⟨row, hrow, hparent⟩ := Option.bind_eq_some_iff.mp h
  obtain ⟨r, hr, rfl⟩ := Option.map_eq_some_iff.mp hrow
  have hcol : r.col "memory_id" = .int a := by simpa using List.find?_some hr
  exact ⟨r, List.mem_of_find?_eq_some hr, by simp [Record.integer, hcol], hparent⟩

/-- No cycle is reached in either, and a row stays without a root or the migration fails. -/
theorem evidenceBackfill_leaves : NoCycleReached memoryZero.evidenceMeta ∧
    NoCycleReached childOfDeepest.evidenceMeta ∧
    (∃ report db', evidenceBackfillFromCursor placeCodec 0 2 2 0 ({}, memoryZero)
      = .ok (report, db') ∧ 0 ∈ db'.metaIds ∧ ¬ db'.Rooted 0) ∧
    evidenceBackfillFromCursor placeCodec 0 3 3 0 ({}, childOfDeepest)
      = .error (.failed "derivation depth overflow at memory 2") := by
  refine ⟨noCycleReached_of_lt fun a b hab => ?_, noCycleReached_of_lt fun a b hab => ?_,
    ⟨{}, memoryZero, ?_, by decide, ?_⟩, ?_⟩
  · obtain ⟨r, hr, -, hparent⟩ := link_evidenceMeta hab
    obtain rfl : r = rootlessRow 0 none := by simpa [memoryZero] using hr
    cases hparent
  · obtain ⟨r, hr, hid, hparent⟩ := link_evidenceMeta hab
    have hlinks : ∀ r ∈ childOfDeepest.table "memory_meta",
        r.i64 "parent_memory_id" = none ∨
          r.integer "memory_id" = some 2 ∧ r.i64 "parent_memory_id" = some 1 := by
      decide +kernel
    rcases hlinks r hr with hnone | ⟨hid', hparent'⟩
    · rw [hnone] at hparent
      cases hparent
    · obtain rfl := Option.some.inj (hid'.symm.trans hid)
      obtain rfl := Option.some.inj (hparent'.symm.trans hparent)
      decide
  · have hbatch : backfillBatch 0 memoryZero = [] := by decide +kernel
    rw [evidenceBackfillFromCursor, hbatch]
    rfl
  · rintro ⟨row, hrow, hroot⟩
    have hnone : (memoryZero.evidenceMeta 0).any (fun row => row.evidenceRootId.isSome) = false := by
      decide +kernel
    rw [hrow, Option.any_some, hroot] at hnone
    cases hnone
  · have herror : (evidenceBackfillFromCursor placeCodec 0 3 3 0 ({}, childOfDeepest)).map
        (fun _ => ()) = .error (.failed "derivation depth overflow at memory 2") := by
      decide +kernel
    generalize evidenceBackfillFromCursor placeCodec 0 3 3 0 ({}, childOfDeepest) = out at herror
    cases out with
    | error stop => rw [Except.error.inj herror]
    | ok s => cases herror

end IronMem
