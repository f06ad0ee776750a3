import IronMem.Json
import IronMem.Restored

/-!
# Restore and the live authorization

A restore does not loosen what the live database says about a memory, as long as
the checkpoint has a metadata row for each memory that needs one. `validate` does
not ask for it: a memory without its row comes back with the defaults, whatever
hold, expiry or tombstone it had.

Without such a row nothing is merged: the project's rows are deleted, and the live
metadata goes with them. With it the merge of one row never loosens it
(`RestoreMerge`), and the row is found again after the replacement (`Restored`).
-/

namespace IronMem

open Fallible

/-! ## Loosening -/

/-- What was said about a memory before still holds after. -/
structure NeverLoosens (args : RestoreArgs) (db db' : Database) : Prop where
  metadata : ∀ id live, db.metaRow id = some live → (db'.memoryRow id).isSome = true →
    ∃ after, db'.metaRow id = some after ∧ AtLeastAsRestrictive live after
  policies : ∀ id policy, db.policyRow id = some policy → (db'.memoryRow id).isSome = true →
    ∃ after, db'.policyRow id = some after ∧
      ∀ f ∈ captureFields "memory_influence_policy", after.col f.1 = policy.col f.1
  absent : ∀ id, db.memoryRow id = none → (db'.memoryRow id).isSome = true →
    knownBefore db args.snapshotId id = true →
    ∃ after, db'.metaRow id = some after ∧ after.col "tombstoned_at" ≠ .null

/-- The checkpoint has to say something about this memory: it has live metadata,
or it was removed and nothing here says so any more. -/
def needsMeta (args : RestoreArgs) (db : Database) (id : Int) : Bool :=
  match db.memoryRow id with
  | some _ => (db.metaRow id).isSome
  | none => knownBefore db args.snapshotId id &&
      (db.metaRow id).all fun r => (r.col "tombstoned_at").isNull

/-- The checkpoint has a metadata row for each of its memories that needs one. -/
def Covers (args : RestoreArgs) (state : State) (db : Database) : Prop :=
  ∀ id, state.HasMemory id → needsMeta args db id = true → state.HasMeta id

theorem NeverLoosens.refl (args : RestoreArgs) (db : Database) : NeverLoosens args db db where
  metadata _ live h _ := ⟨live, h, .refl live⟩
  policies _ policy h _ := ⟨policy, h, fun _ _ => rfl⟩
  absent _ h h' _ := by simp [h] at h'

/-! ## One memory -/

section Memory

variable {codec : Codec} {args : RestoreArgs} {state current : State} {db db' : Database}
  {tables : BTreeMap Table} {id : Int}

variable (hwf : db.WellFormed) (hprepared : Prepared codec args state db current tables)
  (hrestored : Restored codec args state db tables db')

include hwf hprepared hrestored

/-- The metadata of a live memory of the checkpoint, where the checkpoint has a
row for it. -/
theorem restored_restrictive {live : Record} (hids : .int id ∈ db.memoryIds state.project)
    (hlive : db.metaRow id = some live) (hmeta : state.HasMeta id) :
    ∃ after, db'.metaRow id = some after ∧ AtLeastAsRestrictive live after := by
  obtain ⟨row, row', after, -, hid, ⟨merged, hmerge, hrehash⟩, hins, hafter⟩ :=
    metaRow_of_hasMeta hwf.keys hprepared hrestored hmeta
  have hcol : ∀ f ∈ (schema "memory_meta").columns.map Prod.fst,
      (captureRow "memory_meta" live).col f = live.col f :=
    fun f hf => captureRow_col (by decide) hf
  unfold mergeMeta at hmerge
  rw [liveMeta_eq hwf.keys hprepared.captures hid, if_pos hids, hlive, Option.map_some] at hmerge
  have htyped : TypedRow "memory_meta" (captureRow "memory_meta" live) := by
    intro f hf
    rw [hcol _ (captured_column _ (by decide) f hf)]
    exact hwf.types "memory_meta" (by decide) (by decide) live
      ((db.metaRow_eq_some hwf.keys).mp hlive).1 f hf
  have h := (mergeLive_restrictive hmerge).inserted htyped hrehash hins
  exact ⟨after, hafter, h.of_col_eq fun f hf => hcol f (by revert f; decide)⟩

/-- A memory that was known here before comes back tombstoned. -/
theorem restored_tombstoned (hids : .int id ∉ db.memoryIds state.project)
    (hknown : knownBefore db args.snapshotId id = true) (hmeta : state.HasMeta id) :
    ∃ after, db'.metaRow id = some after ∧ after.col "tombstoned_at" ≠ .null := by
  obtain ⟨row, row', after, hi64, hid, ⟨merged, hmerge, hrehash⟩, hins, hafter⟩ :=
    metaRow_of_hasMeta hwf.keys hprepared hrestored hmeta
  unfold mergeMeta at hmerge
  rw [liveMeta_eq hwf.keys hprepared.captures hid, if_neg hids] at hmerge
  have hnow := (mergeAbsent_ok hmerge hi64).2 hknown
  rw [← (rehash_ok hrehash).2 _ (by decide)] at hnow
  have hcast := hins.col (captureFields_nodup "memory_meta" (by decide))
    (captured_bigint "tombstoned_at" (by decide)) rfl
  rw [hnow] at hcast
  refine ⟨after, hafter, fun hnull => ?_⟩
  exact absurd ((Except.ok.inj hcast).trans hnull) nofun

omit hwf in
/-- A live policy of a memory that is there afterwards. -/
theorem restored_policy (hformed : db.PoliciesFormed) {policy : Record}
    (hpolicy : db.policyRow id = some policy)
    (hthere : (db'.memoryRow id).isSome = true) :
    ∃ after, db'.policyRow id = some after ∧
      ∀ f ∈ captureFields "memory_influence_policy", after.col f.1 = policy.col f.1 := by
  by_cases hids : .int id ∈ db.memoryIds state.project
  · obtain ⟨x, hx⟩ := Option.isSome_iff_exists.mp hthere
    have hm : state.HasMemory id := by
      rcases memoryRow_cases hformed.keys hprepared hrestored hx with ⟨hlive, hproject⟩ | hm
      · obtain ⟨y, hy, hyp⟩ := (mem_memoryIds_iff hformed.keys).mp hids
        exact absurd (Option.some.inj (hlive.symm.trans hy) ▸ hyp) hproject
      · exact hm
    obtain ⟨hmem, hid⟩ := (db.policyRow_eq_some hformed.keys).mp hpolicy
    have hcol : ∀ p f, f ∈ (schema "memory_influence_policy").columns.map Prod.fst →
        (captureRow "memory_influence_policy" p).col f = p.col f :=
      fun p f hf => captureRow_col (by decide) hf
    have hcaptured : captureRow "memory_influence_policy" policy
        ∈ rowsOf current.tables "memory_influence_policy" := by
      refine (hprepared.captures.mem_rowsOf (by decide)).mpr ⟨policy, hmem, ?_, rfl⟩
      simpa [Database.inProject_memory_influence_policy, hid] using hids
    have hrow : captureRow "memory_influence_policy" policy
        ∈ rowsOf tables "memory_influence_policy" := by
      rw [hprepared.policies]
      refine mem_foldl_overlayPolicy hcaptured (fun q hq heq => ?_) ?_
      · obtain ⟨p, hp, -, rfl⟩ := (hprepared.captures.mem_rowsOf (by decide)).mp hq
        rw [hcol _ _ (by decide), hcol _ _ (by decide)] at heq
        have hp' := (db.policyRow_eq_some hformed.keys).mpr ⟨hp, heq.symm.trans hid⟩
        rw [Option.some.inj (hp'.symm.trans hpolicy)]
      · obtain ⟨m, hm, hmid⟩ := hm
        exact ⟨m, hm, hmid.trans (hid.symm.trans (hcol _ _ (by decide)).symm)⟩
    obtain ⟨after, hafter, hins⟩ := hrestored.policies.inserts _ hrow
    have hkept : ∀ f ∈ captureFields "memory_influence_policy",
        after.col f.1 = policy.col f.1 := by
      intro f hf
      have htype := hformed.types policy hmem f hf
      rw [← hcol policy f.1 (captured_column _ (by decide) f hf)] at htype ⊢
      exact hins.col_eq (by decide) rfl hf (captured_policy_not_real f hf) htype
    refine ⟨after, (db'.policyRow_eq_some (hrestored.keyed hformed.keys)).mpr ⟨hafter, ?_⟩, hkept⟩
    exact (hkept _ captured_policy_memory_id).trans hid
  · exact ⟨policy, policyRow_kept hformed.keys hrestored hpolicy hids, fun _ _ => rfl⟩

end Memory

/-! ## The whole restore -/

/-- A restore does not loosen the live authorization exactly when it was a dry run
or the checkpoint covers the memories that need it. -/
theorem restore_never_loosens_iff {codec : Codec} {args : RestoreArgs} {state : State}
    {db db' : Database} {counts : RestoreCounts} (hwf : db.WellFormed)
    (h : restore codec args state db = .ok (counts, db')) :
    NeverLoosens args db db' ↔ args.dryRun = true ∨ Covers args state db := by
  cases hdry : args.dryRun with
  | true =>
      obtain ⟨tables, -, h⟩ := bind_eq_ok.mp h
      rw [hdry, if_pos rfl] at h
      obtain ⟨-, rfl⟩ := Prod.mk.inj (pure_eq_ok.mp h)
      exact ⟨fun _ => Or.inl rfl, fun _ => .refl args db⟩
  | false =>
  obtain ⟨current, tables, hprepared, hrestored⟩ := restore_ok hdry h
  simp only [Bool.false_eq_true, false_or]
  constructor
  · intro hloose id hm hneeds
    obtain ⟨m, hm', x, -, hx, -, -⟩ := memoryRow_of_hasMemory hwf.keys hprepared hrestored hm
    have hthere : (db'.memoryRow id).isSome = true := by rw [hx]; rfl
    have hids := mem_memoryIds_of_hasMemory hwf.keys hprepared hrestored hm
    unfold needsMeta at hneeds
    cases hlive : db.memoryRow id with
    | some y =>
        rw [hlive] at hneeds hids
        obtain ⟨live, hlivemeta⟩ := Option.isSome_iff_exists.mp hneeds
        obtain ⟨after, hafter, -⟩ := hloose.metadata id live hlivemeta hthere
        exact (metaRow_cases hwf.keys hprepared hrestored hafter).resolve_left
          fun hkept => hkept.2 (hids.mpr rfl)
    | none =>
        rw [hlive, Bool.and_eq_true] at hneeds
        obtain ⟨after, hafter, htombstone⟩ := hloose.absent id hlive hthere hneeds.1
        refine (metaRow_cases hwf.keys hprepared hrestored hafter).resolve_left fun hkept => ?_
        rw [hkept.1, Option.all_some, Value.isNull_eq_true] at hneeds
        exact htombstone hneeds.2
  · intro hcovers
    refine ⟨fun id live hlive hthere => ?_,
      fun id policy hpolicy hthere => restored_policy hprepared hrestored hwf.policiesFormed hpolicy hthere,
      fun id hnone hthere hknown => ?_⟩
    · by_cases hids : .int id ∈ db.memoryIds state.project
      · obtain ⟨y, hy, hproject⟩ := (mem_memoryIds_iff hwf.keys).mp hids
        obtain ⟨x, hx⟩ := Option.isSome_iff_exists.mp hthere
        rcases memoryRow_cases hwf.keys hprepared hrestored hx with ⟨hx', hne⟩ | hm
        · exact absurd (Option.some.inj (hx'.symm.trans hy) ▸ hproject) hne
        · refine restored_restrictive hwf hprepared hrestored hids hlive (hcovers id hm ?_)
          rw [needsMeta, hy, hlive]
          rfl
      · exact ⟨live, metaRow_kept hwf.keys hrestored hlive hids, .refl live⟩
    · obtain ⟨x, hx⟩ := Option.isSome_iff_exists.mp hthere
      have hm : state.HasMemory id := by
        rcases memoryRow_cases hwf.keys hprepared hrestored hx with ⟨hx', -⟩ | hm
        · rw [hnone] at hx'; cases hx'
        · exact hm
      have hids : .int id ∉ db.memoryIds state.project := by
        rw [mem_memoryIds_of_hasMemory hwf.keys hprepared hrestored hm, hnone]
        decide
      by_cases htombstone : (db.metaRow id).all (fun r => (r.col "tombstoned_at").isNull) = true
      · refine restored_tombstoned hwf hprepared hrestored hids hknown (hcovers id hm ?_)
        rw [needsMeta, hnone, hknown, htombstone]
        rfl
      · cases hlive : db.metaRow id with
        | none => rw [hlive] at htombstone; exact absurd rfl htombstone
        | some live =>
            rw [hlive, Option.all_some, Value.isNull_eq_true] at htombstone
            exact ⟨live, metaRow_kept hwf.keys hrestored hlive hids, htombstone⟩

/-- One memory, under legal hold. -/
def heldNote : Database :=
  (({} : Database).insertRow "memories" (newMemoryRow 1 "notes" "s1" "draft" none 100)).insertRow
    "memory_meta" ((newMetaRow 1 100 "root").set "legal_hold" (.int 1))

/-- The checkpoint of this state. -/
def heldCheckpoint : State :=
  match capture (jsonCodec []) heldNote "notes" true with
  | .ok state => state
  | .error _ => ⟨"notes", ∅, ∅, []⟩

/-- The same checkpoint without the metadata row. -/
def bareCheckpoint : State :=
  { heldCheckpoint with tables := setTableRows heldCheckpoint.tables "memory_meta" [] }

/-- An import at second 200. -/
def importArgs : RestoreArgs where
  snapshotId := "import"
  now := 200
  eventId := "e1"
  autoId _ _ := 1

theorem heldNote_wellFormed : heldNote.WellFormed := by decide +kernel

/-- Importing the checkpoint without metadata drops the hold. -/
theorem restore_drops_hold : ∃ counts db', heldNote.WellFormed ∧
    restore (jsonCodec []) importArgs bareCheckpoint heldNote = .ok (counts, db') ∧
      ¬ NeverLoosens importArgs heldNote db' := by
  have hrun : okAnd (fun out => (heldNote.metaRow 1).isSome && (out.2.memoryRow 1).isSome
      && (out.2.metaRow 1).isNone)
      (restore (jsonCodec []) importArgs bareCheckpoint heldNote) = true := by decide +kernel
  obtain ⟨⟨counts, db'⟩, hok, hrow⟩ := okAnd_eq_true.mp hrun
  rw [Bool.and_eq_true, Bool.and_eq_true, Option.isNone_iff_eq_none] at hrow
  refine ⟨counts, db', heldNote_wellFormed, hok, fun hloose => ?_⟩
  obtain ⟨live, hlive⟩ := Option.isSome_iff_exists.mp hrow.1.1
  obtain ⟨after, hafter, -⟩ := hloose.metadata 1 live hlive hrow.1.2
  rw [hrow.2] at hafter
  cases hafter

/-- With the metadata row in the checkpoint nothing is loosened. -/
theorem restore_never_loosens_held : ∃ counts db',
    restore (jsonCodec []) importArgs heldCheckpoint heldNote = .ok (counts, db') ∧
      (NeverLoosens importArgs heldNote db' ↔
        importArgs.dryRun = true ∨ Covers importArgs heldCheckpoint heldNote) := by
  have hrun : okAnd (fun _ => true)
      (restore (jsonCodec []) importArgs heldCheckpoint heldNote) = true := by decide +kernel
  obtain ⟨⟨counts, db'⟩, hok, -⟩ := okAnd_eq_true.mp hrun
  exact ⟨counts, db', hok, restore_never_loosens_iff heldNote_wellFormed hok⟩

end IronMem
