import IronMem.Lib.Fallible
import IronMem.Lib.GuardedRuns
import IronMem.Lib.ParentLinks
import IronMem.Handles

/-!
# Derivation lineage

A derived memory copies its root from its parent and counts one step more, when it is
governed. Nothing looks at the memories below it, or at where the new parent stands:
the lineage stays consistent as long as no memory is put below itself, and a memory
with children keeps the root and the depth it has.

`LineageConsistent` has three parts: parents are known, their links have no cycle, and each
memory has the root of its parent at one step more. A run is any sequence of insertions and
governance calls. An insertion adds a row without a parent; governance is the call that links.

Governance writes one row twice, the columns first and then root and depth once more with
the primary root (`GovernedRow.setLineage`). `GovernedRow.ofRow` reads the lineage back from
the columns; a depth that does not fit its column is refused before (`lineageIn_depth`). The
condition on a call (`KeepsLineage`) looks at its arguments and the rows it finds.
-/

namespace IronMem

open Fallible ParentLinks Relation

/-! ## The property -/

/-- The parent of a memory. -/
def Database.parentOf (db : Database) (id : Int) : Option Int :=
  (db.metaRow id).bind fun r => r.i64 "parent_memory_id"

/-- Parents are known, their links have no cycle, and a memory has the root of its
parent, one step further down. -/
structure LineageConsistent (db : Database) : Prop where
  known : ∀ id parent, db.parentOf id = some parent → (db.metaRow parent).isSome = true
  acyclic : Acyclic db.parentOf
  inherits : ∀ id parent own above, db.parentOf id = some parent →
    db.loadEvidenceMeta id = some own → db.loadEvidenceMeta parent = some above →
      own.derivationDepth = above.derivationDepth + 1 ∧ own.evidenceRootId = above.evidenceRootId

/-! ## The calls -/

inductive LineageCall where
  | insertMemory (project sessionId summary : String) (tags : Option String) (now : Int)
      (uuid : String)
  | applyMemoryGovernance (id : Int) (a : GovernanceArgs)

def LineageCall.body (codec : Codec) : LineageCall → Call Unit
  | insertMemory project sessionId summary tags now uuid => do
      let _ ← Proc.exec .insertMemory
        (IronMem.insertMemory codec project sessionId summary tags now uuid)
  | applyMemoryGovernance id a => do
      let _ ← IronMem.applyMemoryGovernance codec id a

/-- The root and depth a call settles on, in a database. -/
def GovernanceArgs.lineageIn (codec : Codec) (a : GovernanceArgs) (id : Int) (memory : Memory)
    (db : Database) : Except String (String × Int) :=
  a.lineage codec id memory ((lineageSource id a.governance memory.sessionId).bind db.loadEvidenceMeta)

/-- The condition on the calls of a run: no memory is put below itself, and one with
children keeps its root and depth. -/
def KeepsLineage (codec : Codec) : LineageCall → Database → Prop
  | .insertMemory .., _ => True
  | .applyMemoryGovernance id a, db =>
      (∀ parent, a.governance.parentMemoryId = some parent →
          ¬ ReflTransGen (Link db.parentOf) parent id) ∧
        ∀ child, db.parentOf child = some id → ∀ memory own,
          db.getMemoryByIdAnyNamespace id = some memory → db.loadEvidenceMeta id = some own →
            ∃ root, own.evidenceRootId = some root ∧
              a.lineageIn codec id memory db = .ok (root, own.derivationDepth)

/-! ## What a call does to one row

Governance settles on a root and a depth, writes the row, and has the primary root persisted,
which writes the two once more. Of all rows only that of the memory is touched. -/

section Rows

variable {codec : Codec} {db db' : Database} {id : Int} {a : GovernanceArgs}

/-- The row of metadata after governance. -/
structure GovernedRow (a : GovernanceArgs) (root : String) (depth : Int) (r : Record) : Prop where
  parent : r.col "parent_memory_id" = Value.ofOption a.governance.parentMemoryId
  root : r.col "evidence_root_id" = .str root
  depth : r.col "derivation_depth" = .int depth

theorem setAll_append (r : Record) (l l' : List (String × Value)) :
    r.setAll (l ++ l') = (r.setAll l).setAll l' :=
  List.foldl_append

theorem GovernedRow.of_governanceFields {scope kind hash root : String} {depth : Int} (r : Record) :
    GovernedRow a root depth (r.setAll (governanceFields scope kind hash root depth a.governance)) := by
  constructor <;> simp [Record.setAll, governanceFields]

/-- Root and depth are written once more with the primary root. -/
theorem GovernedRow.setLineage {root : String} {depth : Int} {r : Record} {p : Prop} [Decidable p]
    (h : GovernedRow a root depth r) : GovernedRow a root depth (if p then
      r.setAll [("evidence_root_id", .str root), ("derivation_depth", .int depth)] else r) := by
  split
  · constructor <;> simp [Record.setAll, h.parent]
  · exact h

/-- Governance writes the row of its memory and no other. -/
theorem writeGovernance_meta {memory : Memory} {root hash : String} {depth : Int}
    (h : (writeGovernance codec id a memory root depth).run Proc.noFault db = (.ok hash, db')) :
    (∀ k, k ≠ id → db'.metaRow k = db.metaRow k) ∧
      ∃ r, db'.metaRow id = some r ∧ GovernedRow a root depth r := by
  obtain ⟨_, s₁, hset, h⟩ := Proc.run_bind_ok h
  obtain ⟨_, s₂, hpersist, h⟩ := Proc.run_bind_ok h
  obtain ⟨_, t₁, hroot, hpersist⟩ := Proc.run_bind_ok hpersist
  obtain ⟨_, t₂, hdelete, hinsert⟩ := Proc.run_bind_ok hpersist
  obtain ⟨-, rfl⟩ := Prod.mk.inj (Except.ok.inj (Proc.run_exec_ok hset))
  obtain ⟨-, rfl⟩ := Prod.mk.inj (Except.ok.inj (Proc.run_exec_ok hroot))
  obtain ⟨-, rfl⟩ := Prod.mk.inj (Except.ok.inj (Proc.run_exec_ok hdelete))
  obtain ⟨-, rfl⟩ := Prod.mk.inj (Except.ok.inj (Proc.run_exec_ok hinsert))
  have hledger : db'.table "memory_meta" = _ :=
    appendMemoryLedger_frame (Proc.run_exec_ok h) (by decide)
  have hmeta : ∀ k, db'.metaRow k = ((setGovernance id (clampScope a.scope) (clampKind a.kind)
      (a.recordHash codec memory) root depth a.governance a.now db).updateRows "memory_meta"
      (fun r => r.col "memory_id" = .int id)
      fun r => r.setAll [("evidence_root_id", .str root), ("derivation_depth", .int depth)]).metaRow
        k := by
    intro k
    rw [Database.metaRow, Database.metaRow, hledger]
    congr 1
    split <;> simp
  have hkey : ∀ r : Record, (r.setAll [("evidence_root_id", .str root),
      ("derivation_depth", .int depth)]).col "memory_id" = r.col "memory_id" :=
    setAll_col_of_not_mem (by simp)
  refine ⟨fun k hk => ?_, ?_⟩
  · rw [hmeta, Database.metaRow_updateRows hkey, setGovernance,
      metaRow_upsertMetaRow (by simp) (by simp [governanceFields]), if_neg hk]
    cases hrow : db.metaRow k with
    | none => rfl
    | some r =>
        have hid : r.col "memory_id" = .int k := by simpa using List.find?_some hrow
        simp [hid, hk]
  · rw [hmeta, Database.metaRow_updateRows hkey, setGovernance,
      metaRow_upsertMetaRow (by simp) (by simp [governanceFields]), if_pos rfl, Option.map_some]
    refine ⟨_, rfl, ?_⟩
    split
    · exact (GovernedRow.of_governanceFields _).setLineage
    · rw [setAll_append]
      exact (GovernedRow.of_governanceFields _).setLineage

/-- What the call has done when it succeeds. -/
theorem applyMemoryGovernance_ok {hash : String}
    (h : (applyMemoryGovernance codec id a).run Proc.noFault db = (.ok hash, db')) :
    ∃ memory root depth, db.getMemoryByIdAnyNamespace id = some memory ∧
      a.lineageIn codec id memory db = .ok (root, depth) ∧
        (∀ k, k ≠ id → db'.metaRow k = db.metaRow k) ∧
          ∃ r, db'.metaRow id = some r ∧ GovernedRow a root depth r := by
  unfold applyMemoryGovernance at h
  obtain ⟨_, s, hvalid, hcall⟩ := Proc.run_bind_ok h
  obtain ⟨-, rfl⟩ := Proc.run_lift_ok hvalid
  obtain ⟨memory, s', hmemory, hrest⟩ := Proc.run_bind_ok hcall
  obtain ⟨rfl, rfl⟩ := Proc.run_query_ok hmemory
  split at hrest
  · cases hrest
  · next memory hmem =>
      obtain ⟨⟨root, depth⟩, s₁, hlineage, hwrite⟩ := Proc.run_bind_ok hrest
      have hread : a.lineageIn codec id memory s' = .ok (root, depth) ∧ s₁ = s' := by
        rw [GovernanceArgs.lineageIn]
        unfold readLineage at hlineage
        split at hlineage
        · next source hsource =>
            obtain ⟨row, t, hrow, hlift⟩ := Proc.run_bind_ok hlineage
            obtain ⟨rfl, rfl⟩ := Proc.run_query_ok hrow
            obtain ⟨hok, rfl⟩ := Proc.run_lift_ok hlift
            exact ⟨by rw [hsource]; exact hok, rfl⟩
        · next hsource =>
            obtain ⟨hok, rfl⟩ := Proc.run_lift_ok hlineage
            exact ⟨by rw [hsource]; exact hok, rfl⟩
      obtain ⟨hok, rfl⟩ := hread
      exact ⟨memory, root, depth, hmem, hok, writeGovernance_meta hwrite⟩

/-- A derived memory gets the root of its parent and counts one step more. -/
theorem lineageIn_parent {memory : Memory} {root : String} {depth parent : Int}
    (h : a.lineageIn codec id memory db = .ok (root, depth))
    (hparent : a.governance.parentMemoryId = some parent) :
    ∃ above, db.loadEvidenceMeta parent = some above ∧ above.evidenceRootId = some root ∧
      depth = above.derivationDepth + 1 ∧ depth < 2 ^ 63 := by
  simp only [GovernanceArgs.lineageIn, GovernanceArgs.lineage, lineageSource, resolveLineage,
    hparent, Option.bind_some, parentLineage] at h
  split at h
  · cases h
  · next above habove =>
      split at h
      · cases h
      · split at h
        · cases h
        · next root' hroot =>
            split at h
            · obtain ⟨rfl, rfl⟩ := Prod.mk.inj (Except.ok.inj h)
              exact ⟨above, habove, hroot, rfl, by assumption⟩
            · cases h

theorem loadEvidenceMeta_depth {row : EvidenceMetaRow} (h : db.loadEvidenceMeta id = some row) :
    -2 ^ 63 ≤ row.derivationDepth ∧ row.derivationDepth < 2 ^ 63 := by
  obtain ⟨r, -, rfl⟩ := Option.map_eq_some_iff.mp h
  unfold EvidenceMetaRow.ofRow Record.i64
  cases r.col "derivation_depth" with
  | int n =>
      simp only [Value.asI64]
      split <;> simp_all
  | _ => simp [Value.asI64]

/-- The depth a call settles on fits its column. -/
theorem lineageIn_depth {memory : Memory} {root : String} {depth : Int}
    (h : a.lineageIn codec id memory db = .ok (root, depth)) : -2 ^ 63 ≤ depth ∧ depth < 2 ^ 63 := by
  cases hparent : a.governance.parentMemoryId with
  | some parent =>
      obtain ⟨above, habove, -, rfl, hlt⟩ := lineageIn_parent h hparent
      have hrange := loadEvidenceMeta_depth habove
      omega
  | none =>
      have hzero : depth = 0 := by
        simp only [GovernanceArgs.lineageIn, GovernanceArgs.lineage, resolveLineage, hparent] at h
        split at h
        · next hnone => cases hnone
        · exact ((Prod.mk.inj (Except.ok.inj h)).2).symm
        · exact ((Prod.mk.inj (Except.ok.inj h)).2).symm
      omega

/-- The lineage that is read from a governed row. -/
theorem GovernedRow.ofRow {root : String} {depth : Int} {r : Record}
    (h : GovernedRow a root depth r) (hdepth : -2 ^ 63 ≤ depth ∧ depth < 2 ^ 63) :
    (EvidenceMetaRow.ofRow r).derivationDepth = depth ∧
      (EvidenceMetaRow.ofRow r).evidenceRootId = (some root).filter fun root => !root.isEmpty := by
  simp only [EvidenceMetaRow.ofRow, Record.i64, Record.text, h.root, h.depth, Value.asStr_str,
    Value.asI64_int hdepth.1 hdepth.2, Option.getD_some, and_self]

/-- A root that is read is not empty. -/
theorem filter_evidenceRootId {row : EvidenceMetaRow} {root : String}
    (h : db.loadEvidenceMeta id = some row) (hroot : row.evidenceRootId = some root) :
    (some root).filter (fun root => !root.isEmpty) = some root := by
  obtain ⟨r, -, rfl⟩ := Option.map_eq_some_iff.mp h
  simp only [EvidenceMetaRow.ofRow, Option.filter_eq_some_iff] at hroot
  exact Option.filter_eq_some_iff.mpr ⟨rfl, hroot.2⟩

end Rows

/-! ## What the calls preserve

The new parent is not below the memory, so that no cycle closes (`Acyclic.relink`). The rows
that inherit from the memory are its children, and for these the root and the depth stay. -/

section Steps

variable {codec : Codec} {db db' : Database} {id : Int} {a : GovernanceArgs}

theorem parentOf_congr {k : Int} (h : db'.metaRow k = db.metaRow k) :
    db'.parentOf k = db.parentOf k := by
  rw [Database.parentOf, Database.parentOf, h]

/-- Rows without parents link nothing. -/
theorem parentOf_eq_none (h : ∀ r ∈ db.table "memory_meta", r.i64 "parent_memory_id" = none)
    (k : Int) : db.parentOf k = none := by
  rw [Database.parentOf, Option.bind_eq_none_iff]
  intro r hr
  exact h r (List.mem_of_find?_eq_some hr)

theorem loadEvidenceMeta_congr {k : Int} (h : db'.metaRow k = db.metaRow k) :
    db'.loadEvidenceMeta k = db.loadEvidenceMeta k := by
  rw [Database.loadEvidenceMeta, Database.loadEvidenceMeta, h]

theorem isSome_metaRow {k : Int} {row : EvidenceMetaRow} (h : db.loadEvidenceMeta k = some row) :
    (db.metaRow k).isSome = true := by
  obtain ⟨r, hr, -⟩ := Option.map_eq_some_iff.mp h
  rw [hr]
  rfl

theorem LineageConsistent.govern (hs : LineageConsistent db)
    (hkeeps : KeepsLineage codec (.applyMemoryGovernance id a) db) {hash : String}
    (h : (applyMemoryGovernance codec id a).run Proc.noFault db = (.ok hash, db')) :
    LineageConsistent db' := by
  obtain ⟨memory, root, depth, hmemory, hlineage, hother, r, hr, hrow⟩ := applyMemoryGovernance_ok h
  obtain ⟨hbelow, hchildren⟩ := hkeeps
  have hparent : ∀ parent, db'.parentOf id = some parent →
      a.governance.parentMemoryId = some parent := by
    intro parent hp
    rw [Database.parentOf, hr, Option.bind_some, Record.i64, hrow.parent] at hp
    cases hg : a.governance.parentMemoryId with
    | none => rw [hg] at hp; cases hp
    | some p =>
        rw [hg] at hp
        rw [Value.int.inj (Value.asI64_eq_some hp)]
  obtain ⟨hdepth, hroot⟩ := hrow.ofRow (lineageIn_depth hlineage)
  have hown : db'.loadEvidenceMeta id = some (.ofRow r) := by
    rw [Database.loadEvidenceMeta, hr, Option.map_some]
  refine ⟨fun k parent hp => ?_, ?_, fun k parent own above hp hk habove => ?_⟩
  · have hstays : (db.metaRow parent).isSome = true → (db'.metaRow parent).isSome = true := by
      intro hsome
      by_cases hid : parent = id
      · rw [hid, hr]
        rfl
      · rwa [hother parent hid]
    by_cases hid : k = id
    · obtain ⟨above, habove, -⟩ := lineageIn_parent hlineage (hparent parent (hid ▸ hp))
      exact hstays (isSome_metaRow habove)
    · exact hstays (hs.known k parent (parentOf_congr (hother k hid) ▸ hp))
  · refine hs.acyclic.relink (fun k hk => parentOf_congr (hother k hk)) fun parent hp => ?_
    exact hbelow parent (hparent parent hp)
  · by_cases hid : k = id
    · -- the governed memory has just copied its parent, which is another memory
      subst hid
      obtain ⟨above', habove', hroot', rfl, -⟩ := lineageIn_parent hlineage (hparent parent hp)
      have hne : parent ≠ k := fun he => hbelow parent (hparent parent hp) (he ▸ .refl)
      rw [loadEvidenceMeta_congr (hother parent hne), habove'] at habove
      obtain rfl := Option.some.inj habove
      rw [hown] at hk
      obtain rfl := Option.some.inj hk
      exact ⟨hdepth, by rw [hroot, hroot', filter_evidenceRootId habove' hroot']⟩
    · have hpold : db.parentOf k = some parent := parentOf_congr (hother k hid) ▸ hp
      rw [loadEvidenceMeta_congr (hother k hid)] at hk
      by_cases hpid : parent = id
      · -- a child of the governed memory, which keeps its root and depth
        subst hpid
        obtain ⟨old, hold⟩ := Option.isSome_iff_exists.mp (hs.known k parent hpold)
        have hload : db.loadEvidenceMeta parent = some (.ofRow old) := by
          rw [Database.loadEvidenceMeta, hold, Option.map_some]
        obtain ⟨root', hroot', hsame⟩ := hchildren k hpold memory _ hmemory hload
        rw [hlineage] at hsame
        obtain ⟨rfl, rfl⟩ := Prod.mk.inj (Except.ok.inj hsame)
        rw [hown] at habove
        obtain rfl := Option.some.inj habove
        rw [hdepth, hroot, filter_evidenceRootId hload hroot', ← hroot']
        exact hs.inherits k parent own _ hpold hk hload
      · rw [loadEvidenceMeta_congr (hother parent hpid)] at habove
        exact hs.inherits k parent own above hpold hk habove

theorem LineageConsistent.insert (hs : LineageConsistent db)
    {project sessionId summary uuid : String} {tags : Option String} {now newId : Int}
    (h : insertMemory codec project sessionId summary tags now uuid db = .ok (newId, db')) :
    LineageConsistent db' := by
  obtain ⟨root, hrow⟩ : ∃ root, db'.table "memory_meta"
      = db.table "memory_meta" ++ [newMetaRow db.nextMemoryId now root] := by
    unfold insertMemory at h
    dsimp only at h
    split at h
    · cases h
    · split at h
      · cases h
      · obtain ⟨-, rfl⟩ := Prod.mk.inj (Except.ok.inj h)
        exact ⟨_, by simp; rfl⟩
  have hfresh : db.metaRow db.nextMemoryId = none := by
    rw [Database.metaRow, List.find?_eq_none]
    intro r hr hid
    have hstored : db.Stores db.nextMemoryId := Or.inr ⟨r, hr, of_decide_eq_true hid⟩
    exact absurd hstored.lt_next (lt_irrefl _)
  have hother : ∀ k, k ≠ db.nextMemoryId → db'.metaRow k = db.metaRow k := by
    intro k hk
    have hnew : (newMetaRow db.nextMemoryId now root).col "memory_id" ≠ .int k := by
      rw [newMetaRow_memory_id]
      simpa using fun he => hk he.symm
    rw [Database.metaRow, hrow, List.find?_append, List.find?_singleton,
      if_neg (by simpa using hnew), Option.or_none, Database.metaRow]
  have hnew : db'.parentOf db.nextMemoryId = none := by
    rw [Database.parentOf, Database.metaRow, hrow, List.find?_append, ← Database.metaRow, hfresh,
      Option.none_or, List.find?_singleton, if_pos (by simp [newMetaRow_memory_id]), Option.bind_some]
    simp [newMetaRow, memoryMetaDefaults, jsonObject, Record.setAll, Record.i64, Value.asI64]
  have hold : ∀ k parent, db'.parentOf k = some parent → k ≠ db.nextMemoryId ∧
      db.parentOf k = some parent ∧ parent ≠ db.nextMemoryId := by
    intro k parent hp
    have hk : k ≠ db.nextMemoryId := by
      rintro rfl
      rw [hnew] at hp
      cases hp
    rw [parentOf_congr (hother k hk)] at hp
    refine ⟨hk, hp, ?_⟩
    rintro rfl
    have hknown := hs.known k _ hp
    rw [hfresh] at hknown
    cases hknown
  refine ⟨fun k parent hp => ?_, ?_, fun k parent own above hp hk habove => ?_⟩
  · obtain ⟨-, hp, hne⟩ := hold k parent hp
    rw [hother parent hne]
    exact hs.known k parent hp
  · refine hs.acyclic.relink (fun k hk => parentOf_congr (hother k hk)) fun parent hp => ?_
    rw [hnew] at hp
    cases hp
  · obtain ⟨hkne, hp, hne⟩ := hold k parent hp
    rw [loadEvidenceMeta_congr (hother k hkne)] at hk
    rw [loadEvidenceMeta_congr (hother parent hne)] at habove
    exact hs.inherits k parent own above hp hk habove

end Steps

/-- In every run whose governance calls put no memory below itself, and give one with
children the root and depth it has, the lineage is consistent. -/
theorem lineage_consistent {codec : Codec} {s₀ s : Database} (hs₀ : LineageConsistent s₀)
    (h : Proc.Serial (KeepsLineage codec) (LineageCall.body codec) s₀ s) : LineageConsistent s := by
  refine Proc.Serial.invariant ?_ h hs₀
  intro call t t' hkeeps ht hrun
  cases call with
  | insertMemory project sessionId summary tags now uuid =>
      obtain ⟨id, t₁, hinsert, hdone⟩ := Proc.run_bind_ok hrun
      obtain ⟨-, rfl⟩ := Prod.mk.inj hdone
      exact ht.insert (Proc.run_exec_ok hinsert)
  | applyMemoryGovernance id a =>
      obtain ⟨hash, t₁, hgovern, hdone⟩ := Proc.run_bind_ok hrun
      obtain ⟨-, rfl⟩ := Prod.mk.inj hdone
      exact ht.govern hkeeps hgovern

/-! ### Two memories derived from each other -/

/-- Texts that tell the entries of the ledger apart by their place in it. -/
def placeCodec : Codec :=
  { jsonCodec [] with recordToString := fun r => "#" ++ (r.text "prev_hash").getD "" }

/-- A note of the user. -/
def newNote (summary uuid : String) : LineageCall :=
  .insertMemory "notes" "remember" summary none 100 uuid

/-- Governance as derived from another memory. -/
def derivedFrom (parent : Int) (uuid : String) : GovernanceArgs where
  scope := "project"
  kind := "fact"
  governance := { parentMemoryId := some parent }
  opType := "govern"
  now := 200
  ledgerNow := 200
  uuid

def deriveFrom (id parent : Int) (uuid : String) : LineageCall :=
  .applyMemoryGovernance id (derivedFrom parent uuid)

/-- The second is derived from the first, then the first from the second. -/
def deriveBothWays : List LineageCall :=
  [newNote "a" "u1", newNote "b" "u2", deriveFrom 2 1 "u3", deriveFrom 1 2 "u4"]

/-- Both calls are accepted: each memory is below the other, and the second is not one
step below the first. -/
theorem lineage_inconsistent : ∃ s,
    Proc.Serial (fun _ _ => True) (LineageCall.body placeCodec) {} s ∧ ¬ Acyclic s.parentOf ∧
      ∃ own above, s.parentOf 2 = some 1 ∧ s.loadEvidenceMeta 2 = some own ∧
        s.loadEvidenceMeta 1 = some above ∧ own.derivationDepth ≠ above.derivationDepth + 1 := by
  have hrun : (Proc.runCalls (fun _ _ => True) (LineageCall.body placeCodec) deriveBothWays
      {}).any (fun s => decide (s.parentOf 1 = some 2 ∧ s.parentOf 2 = some 1 ∧
        (s.loadEvidenceMeta 2).map EvidenceMetaRow.derivationDepth = some 1 ∧
          (s.loadEvidenceMeta 1).map EvidenceMetaRow.derivationDepth = some 2)) = true := by
    decide +kernel
  obtain ⟨s, hcalls, hs⟩ := Option.any_eq_true _ _ |>.mp hrun
  obtain ⟨hfirst, hsecond, howndepth, habovedepth⟩ := of_decide_eq_true hs
  obtain ⟨own, hown, hdepth⟩ := Option.map_eq_some_iff.mp howndepth
  obtain ⟨above, habove, hdepth'⟩ := Option.map_eq_some_iff.mp habovedepth
  refine ⟨s, .of_runCalls hcalls, fun hacyclic => ?_, own, above, hsecond, hown, habove, ?_⟩
  · exact hacyclic 1 (.tail (.single hfirst) hsecond)
  · rw [hdepth, hdepth']
    decide

/-- Two notes that are derived from nothing. -/
def twoNotes : Database where
  table
    | "memories" => [newMemoryRow 1 "notes" "remember" "a" none 100,
        newMemoryRow 2 "notes" "remember" "b" none 100]
    | "memory_meta" => [newMetaRow 1 100 "r1", newMetaRow 2 100 "r2"]
    | _ => []

theorem twoNotes_parentOf (id : Int) : twoNotes.parentOf id = none :=
  parentOf_eq_none (by decide +kernel) id

/-- Deriving the second from the first. -/
theorem lineage_consistent_derived : ∃ s,
    Proc.Serial (KeepsLineage placeCodec) (LineageCall.body placeCodec) twoNotes s ∧
      s.parentOf 2 = some 1 ∧ LineageConsistent s := by
  have hrun : okAnd (fun _ => true) ((LineageCall.body placeCodec (deriveFrom 2 1 "u1")).run
        Proc.noFault twoNotes).1 = true ∧
      ((LineageCall.body placeCodec (deriveFrom 2 1 "u1")).run Proc.noFault twoNotes).2.parentOf 2
        = some 1 := by decide +kernel
  generalize hcall : (LineageCall.body placeCodec (deriveFrom 2 1 "u1")).run Proc.noFault twoNotes
    = out at hrun
  obtain ⟨result, s⟩ := out
  obtain ⟨hok, hparent⟩ := hrun
  obtain ⟨u, hresult, -⟩ := okAnd_eq_true.mp hok
  dsimp only at hresult
  subst hresult
  have hkeeps : KeepsLineage placeCodec (deriveFrom 2 1 "u1") twoNotes := by
    refine ⟨fun parent hp hbelow => ?_, fun child hchild => ?_⟩
    · obtain rfl : 1 = parent := Option.some.inj hp
      rcases hbelow.cases_head with heq | ⟨b, hb, -⟩
      · cases heq
      · exact absurd (hb.symm.trans (twoNotes_parentOf 1)) nofun
    · exact absurd (hchild.symm.trans (twoNotes_parentOf child)) nofun
  have hserial : Proc.Serial (KeepsLineage placeCodec) (LineageCall.body placeCodec)
      twoNotes s := .single ⟨deriveFrom 2 1 "u1", Proc.noFault, hkeeps, hcall⟩
  have hstart : LineageConsistent twoNotes := by
    refine ⟨fun id parent hp => ?_, acyclic_of_none twoNotes_parentOf,
      fun id parent own above hp => ?_⟩
    · rw [twoNotes_parentOf] at hp
      cases hp
    · rw [twoNotes_parentOf] at hp
      cases hp
  exact ⟨s, hserial, hparent, lineage_consistent hstart hserial⟩

end IronMem
