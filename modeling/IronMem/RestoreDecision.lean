import IronMem.Permissiveness
import IronMem.RestorePolicy

/-!
# Restore and the egress decision

A live policy survives a restore, but the two other things `evaluate` reads of a
memory, its derivation depth and its unresolved contradictions, become the
checkpoint's. So a restore makes no decision more permissive exactly when, for
each restored memory, the checkpoint's depth and contradictions bound the live
ones under the policy that stays.

The standing of a memory after the restore is computed from the checkpoint and
the live rows without running it: `nextPolicyRow`, `nextDepth`,
`nextContradicted` (`standing_next`). That is what makes `KeepsStanding` a
condition on the two states before the call. Contexts are read through the
query of `influence_contexts_for`, which joins three tables and counts in a
fourth, so each of them is followed through the replacement by itself: policies
(`policyRow_next`), metadata (`metaRow_next`), contradiction sets
(`unresolvedSets_isEmpty`). When two standings compare is the subject of
`Permissiveness`; memories of other projects are judged as before
(`bounds_kept`).
-/

namespace IronMem

open Fallible

/-! ## Contexts before and after

A context is what `influence_contexts_for` gives the evaluator of one memory, under some call
that lists it. What matters of it is its standing: the policy, the depth, and whether a
contradiction is unresolved. -/

/-- The memory is there and not tombstoned. -/
def Database.Live (db : Database) (id : Int) : Prop :=
  (db.memoryRow id).isSome = true ∧
    ∀ r, db.metaRow id = some r → r.col "tombstoned_at" = .null

/-- Some call of `influence_contexts_for` gives this context for the memory. -/
def ContextOf (services : Services) (db : Database) (id : Int) (c : CandidatePolicyContext) :
    Prop :=
  ∃ ids ns contexts, influenceContextsFor services db ids ns = .ok contexts ∧ (id, c) ∈ contexts

/-- No decision about a memory that is live before and after is more permissive
after. -/
def NeverPermits (services : Services) (db db' : Database) : Prop :=
  ∀ id c c', db.Live id → db'.Live id → ContextOf services db id c → ContextOf services db' id c' →
    ∀ decisionId decisionId' purpose consumer confirmed config,
      (evaluate services decisionId c purpose consumer confirmed config).decision.rank
        ≤ (evaluate services decisionId' c' purpose consumer confirmed config).decision.rank

/-- The policy a policy row stands for. -/
def storedPolicy (services : Services) (policy : Option Record) :
    Except String MemoryInfluencePolicy :=
  (influencePolicyRecordFromRow services ∅ policy).map (·.policy)

section Context

variable {services : Services} {db : Database} {id : Int} {ns : String} {r : Record}
  {c : CandidatePolicyContext}

theorem influencePolicyRecord_ok {policy : Option Record} {record : MemoryInfluencePolicyRecord}
    (h : influencePolicyRecordFromRow services r policy = .ok record) :
    storedPolicy services policy = .ok record.policy := by
  unfold storedPolicy
  unfold influencePolicyRecordFromRow at h ⊢
  cases hversion : (policy.getD ∅).i64 "version" with
  | none =>
      simp only [hversion] at h ⊢
      rw [← pure_eq_ok.mp h]
      rfl
  | some version =>
      simp only [hversion] at h ⊢
      obtain ⟨p, hp, h⟩ := bind_eq_ok.mp h
      rw [← pure_eq_ok.mp h, hp]
      rfl

theorem exists_influencePolicyRecord {policy : Option Record} {p : MemoryInfluencePolicy}
    (h : storedPolicy services policy = .ok p) (r : Record) :
    ∃ record, influencePolicyRecordFromRow services r policy = .ok record ∧ record.policy = p := by
  unfold storedPolicy at h
  unfold influencePolicyRecordFromRow at h ⊢
  cases hversion : (policy.getD ∅).i64 "version" with
  | none =>
      simp only [hversion] at h ⊢
      exact ⟨_, rfl, Except.ok.inj h⟩
  | some version =>
      simp only [hversion] at h ⊢
      cases hp : MemoryInfluencePolicy.fromStorage services.taskListFromStr _ with
      | error e => rw [hp] at h; cases h
      | ok q =>
          rw [hp] at h
          exact ⟨_, rfl, Except.ok.inj h⟩

theorem storedPolicy_none : storedPolicy services none = .ok {} := rfl

/-- Only these columns matter. -/
theorem storedPolicy_congr {p q : Record}
    (h : ∀ f ∈ captureFields "memory_influence_policy", p.col f.1 = q.col f.1) :
    storedPolicy services (some p) = storedPolicy services (some q) := by
  have hcol : ∀ f ∈ ["version", "state", "allowed_task_types", "denied_task_types",
      "maximum_action_risk", "requires_original_source", "requires_human_confirmation",
      "maximum_derivation_depth", "updated_by", "updated_at"], p.col f = q.col f := by
    intro f hf
    have hmem : ∃ kind, (f, kind) ∈ captureFields "memory_influence_policy" := by
      refine List.mem_map.mp (?_ : f ∈ (captureFields "memory_influence_policy").map Prod.fst)
        |>.elim fun x hx => ⟨x.2, hx.2 ▸ hx.1⟩
      revert f
      decide +kernel
    obtain ⟨kind, hkind⟩ := hmem
    exact h _ hkind
  simp only [List.forall_mem_cons, List.not_mem_nil, false_imp_iff, implies_true, and_true] at hcol
  obtain ⟨h1, h2, h3, h4, h5, h6, h7, h8, h9, h10⟩ := hcol
  simp only [storedPolicy, influencePolicyRecordFromRow, Option.getD_some, Record.i64, Record.text,
    h1, h2, h3, h4, h5, h6, h7, h8, h9, h10]

/-- Every metadata row carries a 64-bit memory id. -/
def Database.TypedIds (db : Database) : Prop :=
  ∀ r ∈ db.table "memory_meta", hasType "BIGINT" (r.col "memory_id") = true

theorem i64_of_hasType {f : String} (h : hasType "BIGINT" (r.col f) = true)
    (hcol : r.col f = .int id) : r.i64 f = some id := by
  rw [hcol, hasType, Bool.and_eq_true, Bool.and_eq_true] at h
  rw [Record.i64, hcol, Value.asI64_int (of_decide_eq_true h.1.2) (of_decide_eq_true h.2)]

theorem contextOf_iff (hkeys : db.Keyed) (htyped : db.TypedIds) :
    ContextOf services db id c ↔ ∃ r ns, db.metaRow id = some r ∧
      r.text "namespace" = some (normalizeNamespace ns) ∧
      db.influenceContext services (normalizeNamespace ns) r id = .ok c := by
  constructor
  · rintro ⟨ids, ns, contexts, hok, hmem⟩
    obtain ⟨r, hr, hctx⟩ := forall₂_right (forall₂_of_mapM hok) _ hmem
    obtain ⟨c', hc', hpair⟩ := bind_eq_ok.mp hctx
    obtain ⟨hid, rfl⟩ := Prod.mk.inj (pure_eq_ok.mp hpair)
    simp only [List.mem_filter, Bool.and_eq_true, beq_iff_eq, List.any_eq_true,
      decide_eq_true_eq] at hr
    obtain ⟨hr, hns, j, -, hj⟩ := hr
    rw [i64_of_hasType (htyped r hr) hj, Option.getD_some] at hid hc'
    subst hid
    exact ⟨r, ns, (db.metaRow_eq_some hkeys).mpr ⟨hr, hj⟩, hns, hc'⟩
  · rintro ⟨r, ns, hr, hns, hc⟩
    obtain ⟨hmem, hid⟩ := (db.metaRow_eq_some hkeys).mp hr
    have hi64 := i64_of_hasType (htyped r hmem) hid
    have hmemrow : r ∈ (db.table "memory_meta").filter fun r =>
        r.text "namespace" == some (normalizeNamespace ns) &&
          [id].any fun id => r.col "memory_id" = .int id :=
      List.mem_filter.mpr ⟨hmem, by simp [hns, hid]⟩
    have hall : ∀ s ∈ (db.table "memory_meta").filter fun r =>
        r.text "namespace" == some (normalizeNamespace ns) &&
          [id].any fun id => r.col "memory_id" = .int id, s = r := by
      intro s hs
      simp only [List.mem_filter, Bool.and_eq_true, beq_iff_eq, List.any_eq_true,
        decide_eq_true_eq, List.mem_singleton, exists_eq_left] at hs
      exact Option.some.inj (((db.metaRow_eq_some hkeys).mpr ⟨hs.1, hs.2.2⟩).symm.trans hr)
    obtain ⟨contexts, hok, hmemc⟩ := exists_mapM_of_forall (y := (id, c)) (f := fun r => do
        let id := (r.i64 "memory_id").getD 0
        return (id, ← db.influenceContext services (normalizeNamespace ns) r id))
      (fun s hs => by
        simp only [hall s hs, hi64, Option.getD_some, hc]
        rfl) hmemrow
    exact ⟨[id], ns, contexts, hok, hmemc⟩

/-- What a context is made of. -/
theorem influenceContext_ok (h : db.influenceContext services ns r id = .ok c) :
    storedPolicy services (db.policyRow id) = .ok c.record.policy ∧
      c.derivationDepth = depthU32 ((r.i64 "derivation_depth").getD 0) ∧
      c.unresolvedContradictionSetIds = db.unresolvedSets ns id := by
  obtain ⟨record, hrecord, h⟩ := bind_eq_ok.mp h
  obtain rfl := pure_eq_ok.mp h
  exact ⟨influencePolicyRecord_ok hrecord, rfl, rfl⟩

theorem exists_influenceContext {p : MemoryInfluencePolicy}
    (h : storedPolicy services (db.policyRow id) = .ok p) (ns : String) (r : Record) :
    ∃ c, db.influenceContext services ns r id = .ok c := by
  obtain ⟨record, hrecord, -⟩ := exists_influencePolicyRecord h r
  exact ⟨_, bind_eq_ok.mpr ⟨record, hrecord, rfl⟩⟩

end Context

/-! ## What a checkpoint makes of a memory -/

/-- The rows of a checkpoint's table as they are inserted. -/
def castRows (codec : Codec) (state : State) (name : String) : List Record :=
  (rowsOf state.tables name).filterMap fun row =>
    (castRow codec name (captureFields name) row).toOption

/-- The metadata row a checkpoint has for a memory. -/
def State.metaRow (state : State) (id : Int) : Option Record :=
  (rowsOf state.tables "memory_meta").find? fun r => r.col "memory_id" = .int id

/-- The live policy stays; without one the checkpoint's comes in. -/
def nextPolicyRow (codec : Codec) (state : State) (db : Database) (id : Int) : Option Record :=
  match db.policyRow id with
  | some p => some p
  | none => (castRows codec state "memory_influence_policy").find? fun r =>
      r.col "memory_id" = .int id

/-- The depth is the checkpoint's. -/
def nextDepth (codec : Codec) (state : State) (id : Int) : Nat :=
  match state.metaRow id with
  | some row =>
      match castTo codec "BIGINT" (row.col "derivation_depth") with
      | .ok v => depthU32 (v.asI64.getD 0)
      | .error _ => 0
  | none => 0

/-- The memberships are the checkpoint's, and so are the sets of its project. -/
def nextContradicted (codec : Codec) (state : State) (db : Database) (ns : String) (id : Int) :
    Bool :=
  let sets := ((db.table "contradiction_sets").filter fun s =>
    s.col "project" ≠ .str state.project) ++ castRows codec state "contradiction_sets"
  (castRows codec state "contradiction_members").any fun m =>
    m.col "memory_id" = .int id && sets.any fun s =>
      s.text "namespace" == some ns && s.text "status" == some "unresolved" &&
        s.col "id" = m.col "contradiction_set_id" && (s.text "id").isSome

/-- For each memory of the checkpoint that is live now and not tombstoned on
either side: where the live depth or a live contradiction decides, nothing gets
through under the checkpoint's. -/
def KeepsStanding (services : Services) (codec : Codec) (state : State) (db : Database) : Prop :=
  ∀ id c live row policy, .int id ∈ db.memoryIds state.project → state.HasMemory id →
    db.metaRow id = some live → live.col "tombstoned_at" = .null →
    state.metaRow id = some row → row.col "tombstoned_at" = .null →
    ContextOf services db id c →
    storedPolicy services (nextPolicyRow codec state db id) = .ok policy →
    c.standing.Bounds ⟨policy, nextDepth codec state id,
      nextContradicted codec state db ((live.text "namespace").getD "") id⟩

/-! ## Contradictions

The unresolved sets of a memory come from two tables, joined by the id of the set. Both are
replaced by a restore, and both keep what belongs to other projects. -/

/-- The unresolved sets of a memory, without their order. -/
theorem unresolvedSets_isEmpty (db : Database) (ns : String) (id : Int) :
    (db.unresolvedSets ns id).isEmpty = false ↔
      ∃ m ∈ db.table "contradiction_members", m.col "memory_id" = .int id ∧
        ∃ s ∈ db.table "contradiction_sets", s.text "namespace" = some ns ∧
          s.text "status" = some "unresolved" ∧ s.col "id" = m.col "contradiction_set_id" ∧
          (s.text "id").isSome = true := by
  rw [List.isEmpty_eq_false_iff_exists_mem]
  simp only [Database.unresolvedSets, RowDiff.mem_sortBy, List.mem_flatMap, List.mem_filter,
    List.mem_filterMap, decide_eq_true_eq, Bool.and_eq_true, beq_iff_eq,
    Option.isSome_iff_exists]
  constructor
  · rintro ⟨x, m, ⟨hm, hid⟩, s, ⟨⟨hs, hns, hstatus⟩, hset⟩, hx⟩
    exact ⟨m, hm, hid, s, hs, hns, hstatus, hset, x, hx⟩
  · rintro ⟨m, hm, hid, s, hs, hns, hstatus, hset, x, hx⟩
    exact ⟨x, m, ⟨hm, hid⟩, s, ⟨⟨hs, hns, hstatus⟩, hset⟩, hx⟩

theorem mem_castRows {codec : Codec} {state : State} {name : String} {r : Record} :
    r ∈ castRows codec state name ↔ ∃ row ∈ rowsOf state.tables name,
      castRow codec name (captureFields name) row = .ok r := by
  simp only [castRows, List.mem_filterMap]
  refine exists_congr fun row => and_congr_right fun _ => ?_
  cases castRow codec name (captureFields name) row <;> simp [Except.toOption]

section Restore

variable {codec : Codec} {args : RestoreArgs} {state current : State} {db db' : Database}
  {tables : BTreeMap Table} {id : Int}

/-- Without an `AUTOINCREMENT` key the inserted row is the cast row. -/
theorem insertedRow_iff {name : String} {row r : Record}
    (hauto : (schema name).autoIncrement = false) :
    InsertedRow codec args name (captureFields name) row r ↔
      castRow codec name (captureFields name) row = .ok r := by
  constructor
  · rintro ⟨cast, rows, hcast, rfl⟩
    rwa [assignId, hauto, Bool.false_and, if_neg (by decide)]
  · intro h
    exact ⟨r, [], h, by rw [assignId, hauto, Bool.false_and, if_neg (by decide)]⟩

/-- The memory id of a checkpoint's policy row is inserted as it is. -/
theorem policyRow_memory_id {row r : Record} (hvalid : Validated codec state)
    (hrow : row ∈ rowsOf state.tables "memory_influence_policy")
    (hins : InsertedRow codec args "memory_influence_policy"
      (captureFields "memory_influence_policy") row r) :
    r.col "memory_id" = row.col "memory_id" := by
  obtain ⟨m, hm, hmid⟩ := hvalid.owned "memory_influence_policy" (by decide) row hrow
  obtain ⟨n, hn, hlo, hhi⟩ := hvalid.memoryId m hm
  refine hins.col_eq (by decide) rfl captured_policy_memory_id (by decide) ?_
  exact hasType_of_i64 (by rw [Record.i64, ← hmid, hn, Value.asI64_int hlo hhi])

variable (hwf : db.WellFormed) (hprepared : Prepared codec args state db current tables)
  (hrestored : Restored codec args state db tables db')

include hwf hprepared hrestored

theorem nextContradicted_iff {live : Record} (hids : .int id ∈ db.memoryIds state.project)
    (hlive : db.metaRow id = some live) (ns : String) :
    (db'.unresolvedSets ns id).isEmpty = false ↔
      nextContradicted codec state db ns id = true := by
  rw [unresolvedSets_isEmpty]
  simp only [nextContradicted, List.any_eq_true, Bool.and_eq_true, decide_eq_true_eq, beq_iff_eq,
    List.mem_append, List.mem_filter]
  have hmembers : ∀ m : Record, (m ∈ db'.table "contradiction_members" ∧
      m.col "memory_id" = .int id) ↔ (m ∈ castRows codec state "contradiction_members" ∧
      m.col "memory_id" = .int id) := by
    intro m
    refine and_congr_left fun hid => ?_
    rw [mem_castRows, ← hprepared.rows "contradiction_members" (by decide) (by decide) (by decide)]
    constructor
    · intro hm
      rcases hrestored.members.only m hm with ⟨-, -, hkept⟩ | ⟨row, hrow, hins⟩
      · obtain ⟨hmem, hmid⟩ := (db.metaRow_eq_some hwf.keys).mp hlive
        rcases hkept live hmem (hmid ▸ hids) with hnull | hne
        · rw [hid] at hnull; cases hnull
        · exact absurd (hmid.trans hid.symm) hne
      · exact ⟨row, hrow, (insertedRow_iff rfl).mp hins⟩
    · rintro ⟨row, hrow, hcast⟩
      obtain ⟨r, hr, hins⟩ := hrestored.members.inserts row hrow
      rw [(insertedRow_iff rfl).mp hins] at hcast
      exact Except.ok.inj hcast ▸ hr
  have hsets : ∀ s : Record, s ∈ db'.table "contradiction_sets" ↔
      (s ∈ db.table "contradiction_sets" ∧ s.col "project" ≠ .str state.project) ∨
        s ∈ castRows codec state "contradiction_sets" := by
    intro s
    rw [mem_castRows, ← hprepared.rows "contradiction_sets" (by decide) (by decide) (by decide)]
    constructor
    · intro hs
      rcases hrestored.sets.only s hs with hkept | ⟨row, hrow, hins⟩
      · exact Or.inl hkept
      · exact Or.inr ⟨row, hrow, (insertedRow_iff rfl).mp hins⟩
    · rintro (⟨hs, hproject⟩ | ⟨row, hrow, hcast⟩)
      · exact hrestored.sets.keeps s hs hproject
      · obtain ⟨r, hr, hins⟩ := hrestored.sets.inserts row hrow
        rw [(insertedRow_iff rfl).mp hins] at hcast
        exact Except.ok.inj hcast ▸ hr
  constructor
  · rintro ⟨m, hm, hid, s, hs, hns, hstatus, hset, hsome⟩
    exact ⟨m, ((hmembers m).mp ⟨hm, hid⟩).1, hid, s, (hsets s).mp hs,
      ⟨⟨⟨hns, hstatus⟩, hset⟩, hsome⟩⟩
  · rintro ⟨m, hm, hid, s, hs, ⟨⟨hns, hstatus⟩, hset⟩, hsome⟩
    exact ⟨m, ((hmembers m).mpr ⟨hm, hid⟩).1, hid, s, (hsets s).mpr hs, hns, hstatus, hset, hsome⟩

/-- A contradiction of a memory outside the project is not touched. -/
theorem unresolvedSets_kept (hids : .int id ∉ db.memoryIds state.project) {ns : String}
    (h : (db.unresolvedSets ns id).isEmpty = false) :
    (db'.unresolvedSets ns id).isEmpty = false := by
  rw [unresolvedSets_isEmpty] at h ⊢
  obtain ⟨m, hm, hid, s, hs, hns, hstatus, hset, hsome⟩ := h
  have hsid : s.col "id" ≠ .null := by
    obtain ⟨x, hx⟩ := Option.isSome_iff_exists.mp hsome
    rw [Value.asStr_eq_some.mp hx]
    nofun
  -- a set of the project with a member outside would have stopped the capture
  have hproject : s.col "project" ≠ .str state.project := by
    intro hproject
    have hno := hprepared.captures.noCross
    rw [crossProjectMembers, List.countP_eq_zero] at hno
    refine hno (m.col "memory_id", s.col "project") ?_ ?_
    · refine List.mem_flatMap.mpr ⟨m, hm, List.mem_map.mpr ⟨s, List.mem_filter.mpr ⟨hs, ?_⟩, rfl⟩⟩
      rw [Bool.and_eq_true, decide_eq_true_eq, Bool.not_eq_true', Value.isNull_eq_false]
      exact ⟨hset, hsid⟩
    · simp [hproject, hid, hids]
  refine ⟨m, hrestored.members.keeps m hm ⟨fun hmem => ?_, fun r hr hrid => ?_⟩, hid, s,
    hrestored.sets.keeps s hs hproject, hns, hstatus, hset, hsome⟩
  · obtain ⟨t, ht, htid⟩ := List.mem_map.mp hmem
    obtain ⟨ht, htp⟩ := List.mem_filter.mp ht
    have heq : s = t := eq_of_key
      (hwf.keys "contradiction_sets" (by decide) [.column "id"] (by simp [schema])) hs ht hsid
      (hset.trans htid.symm)
    exact hproject (heq ▸ of_decide_eq_true htp)
  · refine Or.inr fun heq => hids ?_
    rw [← hid, ← heq]
    exact hrid

/-! ## Policy, depth, namespace -/

omit hwf in
/-- A memory without a live policy gets the checkpoint's. -/
theorem policyRow_next (hformed : db.PoliciesFormed) (hpolicy : db.policyRow id = none) :
    db'.policyRow id = (castRows codec state "memory_influence_policy").find? fun r =>
      r.col "memory_id" = .int id := by
  have hcol : ∀ p : Record, (captureRow "memory_influence_policy" p).col "memory_id"
      = p.col "memory_id" := fun p => captureRow_col (by decide) (by decide)
  -- no live policy is about this memory
  have hlive : ∀ q ∈ rowsOf current.tables "memory_influence_policy",
      q.col "memory_id" ≠ .int id := by
    intro q hq hqid
    obtain ⟨p, hp, -, rfl⟩ := (hprepared.captures.mem_rowsOf (by decide)).mp hq
    rw [hcol] at hqid
    rw [(db.policyRow_eq_some hformed.keys).mpr ⟨hp, hqid⟩] at hpolicy
    cases hpolicy
  cases hfind : (castRows codec state "memory_influence_policy").find? fun r =>
      r.col "memory_id" = .int id with
  | some r =>
      have hrid : r.col "memory_id" = .int id := by simpa using List.find?_some hfind
      obtain ⟨row, hrow, hcast⟩ := mem_castRows.mp (List.mem_of_find?_eq_some hfind)
      have hrowid := policyRow_memory_id hprepared.valid hrow
        ((insertedRow_iff rfl : InsertedRow codec args _ _ row r ↔ _).mpr hcast)
      have hwritten : row ∈ rowsOf tables "memory_influence_policy" := by
        rw [hprepared.policies]
        refine mem_foldl_overlayPolicy_of_ne hrow fun q hq heq => ?_
        exact hlive q hq (heq.symm.trans (hrowid.symm.trans hrid))
      obtain ⟨r', hr', hins⟩ := hrestored.policies.inserts row hwritten
      rw [(insertedRow_iff rfl).mp hins] at hcast
      obtain rfl := Except.ok.inj hcast
      exact (db'.policyRow_eq_some (hrestored.keyed hformed.keys)).mpr ⟨hr', hrid⟩
  | none =>
      rw [List.find?_eq_none] at hfind
      cases hafter : db'.policyRow id with
      | none => rfl
      | some r =>
          obtain ⟨hr, hrid⟩ := (db'.policyRow_eq_some (hrestored.keyed hformed.keys)).mp hafter
          rcases hrestored.policies.only r hr with ⟨hr, -⟩ | ⟨row, hrow, hins⟩
          · rw [(db.policyRow_eq_some hformed.keys).mpr ⟨hr, hrid⟩] at hpolicy
            cases hpolicy
          · rw [hprepared.policies] at hrow
            rcases mem_of_mem_foldl_overlayPolicy hrow with hrow | hrow
            · exact absurd (decide_eq_true hrid)
                (hfind r (mem_castRows.mpr ⟨row, hrow, (insertedRow_iff rfl).mp hins⟩))
            · obtain ⟨p, hp, -, rfl⟩ := (hprepared.captures.mem_rowsOf (by decide)).mp hrow
              have htype := hformed.types p hp _ captured_policy_memory_id
              have heq := hins.col_eq (by decide) rfl captured_policy_memory_id (by decide)
                (by rw [hcol]; exact htype)
              exact absurd (heq.symm.trans hrid) (hlive _ hrow)

omit hwf in
/-- The policy after the restore is the one `nextPolicyRow` names. -/
theorem storedPolicy_next (hformed : db.PoliciesFormed) (services : Services)
    (hthere : (db'.memoryRow id).isSome = true) :
    storedPolicy services (db'.policyRow id)
      = storedPolicy services (nextPolicyRow codec state db id) := by
  unfold nextPolicyRow
  cases hpolicy : db.policyRow id with
  | some p =>
      obtain ⟨after, hafter, hcols⟩ := restored_policy hprepared hrestored hformed hpolicy hthere
      rw [hafter]
      exact storedPolicy_congr hcols
  | none => exact congrArg _ (policyRow_next hprepared hrestored hformed hpolicy)

/-- The metadata row of a memory of the checkpoint, where `evaluate` looks. -/
theorem metaRow_next {live row : Record} (hids : .int id ∈ db.memoryIds state.project)
    (hlive : db.metaRow id = some live) (hrow : state.metaRow id = some row) :
    ∃ after, db'.metaRow id = some after ∧
      depthU32 ((after.i64 "derivation_depth").getD 0) = nextDepth codec state id ∧
      after.col "namespace" = live.col "namespace" ∧
      (live.col "tombstoned_at" = .null →
        (after.col "tombstoned_at" = .null ↔ row.col "tombstoned_at" = .null)) := by
  have hmem := List.mem_of_find?_eq_some hrow
  have hid : row.col "memory_id" = .int id := by simpa using List.find?_some hrow
  obtain ⟨row', after, hi64, hmerged, hins, hafter⟩ :=
    metaRow_of_mem hwf.keys hprepared hrestored hmem hid
  have hcast : ∀ f, (f, "BIGINT") ∈ captureFields "memory_meta" →
      castTo codec "BIGINT" (row'.col f) = .ok (after.col f) := by
    intro f hf
    exact hins.col (captureFields_nodup "memory_meta" (by decide)) hf rfl
  refine ⟨after, hafter, ?_, ?_, fun hnull => ?_⟩
  · have hdepth := hcast "derivation_depth" (captured_bigint _ (by decide))
    rw [hmerged.col hi64 (by decide)] at hdepth
    simp only [nextDepth, hrow, hdepth]
    rfl
  · obtain ⟨r, hr, hrestrictive⟩ := restored_restrictive hwf hprepared hrestored hids hlive
      ⟨row, hmem, hid⟩
    obtain rfl := Option.some.inj (hafter.symm.trans hr)
    exact hrestrictive.provenance "namespace" (by decide)
  · obtain ⟨merged, hmerge, hrehash⟩ := hmerged
    unfold mergeMeta at hmerge
    rw [liveMeta_eq hwf.keys hprepared.captures hid, if_pos hids, hlive, Option.map_some] at hmerge
    have hlive' : (captureRow "memory_meta" live).col "tombstoned_at" = .null :=
      (captureRow_col (by decide) (by decide)).trans hnull
    rw [← mergeLive_tombstone hmerge hlive', ← (rehash_ok hrehash).2 _ (by decide)]
    exact castTo_eq_null (hcast "tombstoned_at" (captured_bigint _ (by decide)))

theorem typedIds_restored : db'.TypedIds := by
  intro r hr
  rcases hrestored.metadata.only r hr with ⟨hr, -⟩ | ⟨row', hrow', hins⟩
  · exact hwf.types "memory_meta" (by decide) (by decide) r hr _
      (captured_bigint "memory_id" (by decide))
  · obtain ⟨row, hrow, hmerged⟩ := forall₂_right hprepared.metadata row' hrow'
    obtain ⟨n, hi64, -, hmid⟩ := insertedMeta_col hprepared.valid hrow hmerged hins
    obtain ⟨-, hlo, hhi⟩ := Record.i64_eq_some hi64
    exact hasType_of_i64 (by rw [Record.i64, hmid, Value.asI64_int hlo hhi])

omit hprepared hrestored in
theorem typedIds_of_wellFormed : db.TypedIds := fun r hr =>
  hwf.types "memory_meta" (by decide) (by decide) r hr _ (captured_bigint "memory_id" (by decide))

/-! ## The decision

A restored memory has its live policy, and the depth and the contradictions of the checkpoint.
One of another project is judged as before, or more strictly. Comparing decisions is comparing
these. -/

omit hwf hprepared hrestored in
/-- The policy `evaluate` is given: the stored one, or the default. -/
theorem policy_of_context {services : Services} {c : CandidatePolicyContext} {ns : String}
    {r : Record} (hc : db.influenceContext services ns r id = .ok c) {q : MemoryInfluencePolicy}
    (hq : storedPolicy services (db'.policyRow id) = .ok q)
    (hkept : ∀ p, db.policyRow id = some p →
      storedPolicy services (db'.policyRow id) = storedPolicy services (some p)) :
    c.record.policy = q ∨ c.record.policy = {} := by
  have hp := (influenceContext_ok hc).1
  cases hpolicy : db.policyRow id with
  | some p =>
      rw [hpolicy, ← hkept p hpolicy, hq] at hp
      exact Or.inl (Except.ok.inj hp).symm
  | none =>
      rw [hpolicy, storedPolicy_none] at hp
      exact Or.inr (Except.ok.inj hp).symm

/-- The standing of a restored memory. -/
theorem standing_next {services : Services} {c : CandidatePolicyContext} {live row : Record}
    {ns : String} (hids : .int id ∈ db.memoryIds state.project)
    (hthere : (db'.memoryRow id).isSome = true) (hlive : db.metaRow id = some live)
    (hrow : state.metaRow id = some row) {after : Record} (hafter : db'.metaRow id = some after)
    (hns : live.text "namespace" = some ns)
    (hc : db'.influenceContext services ns after id = .ok c) :
    ∃ policy, storedPolicy services (nextPolicyRow codec state db id) = .ok policy ∧
      c.standing = ⟨policy, nextDepth codec state id,
        nextContradicted codec state db ((live.text "namespace").getD "") id⟩ := by
  obtain ⟨hpolicy, hdepth, hsets⟩ := influenceContext_ok hc
  obtain ⟨after', hafter', hnext, -, -⟩ := metaRow_next hwf hprepared hrestored hids hlive hrow
  obtain rfl := Option.some.inj (hafter.symm.trans hafter')
  rw [storedPolicy_next hprepared hrestored hwf.policiesFormed services hthere] at hpolicy
  refine ⟨_, hpolicy, ?_⟩
  have hcontra := nextContradicted_iff hwf hprepared hrestored hids hlive ns
  rw [CandidatePolicyContext.standing, hdepth, hnext, hsets, hns, Option.getD_some]
  congr 1
  cases hempty : (db'.unresolvedSets ns id).isEmpty with
  | false => exact (hcontra.mp hempty).symm
  | true =>
      cases hnc : nextContradicted codec state db ns id with
      | false => rfl
      | true => rw [hcontra.mpr hnc] at hempty; cases hempty

/-- A memory outside the project is judged as before, or more strictly. -/
theorem bounds_kept {services : Services} {c c' : CandidatePolicyContext} {ns : String}
    {live : Record} (hids : .int id ∉ db.memoryIds state.project)
    (hc : db.influenceContext services ns live id = .ok c)
    (hc' : db'.influenceContext services ns live id = .ok c') :
    (c.record.policy = c'.record.policy ∨ c.record.policy = {}) ∧
      c.standing.Bounds c'.standing := by
  obtain ⟨-, hdepth, hsets⟩ := influenceContext_ok hc
  obtain ⟨hpolicy', hdepth', hsets'⟩ := influenceContext_ok hc'
  have hpolicy := policy_of_context hc hpolicy' fun p hp => by
    rw [policyRow_kept hwf.keys hrestored hp hids]
  refine ⟨hpolicy, fun hexceeded => ?_, fun hcontra hresolved => ?_⟩
  · have hexceeded' : c'.standing.depthExceeded = true := by
      rcases hpolicy with heq | hdefault
      · simp only [Standing.depthExceeded, CandidatePolicyContext.standing, hdepth, hdepth',
          heq] at hexceeded ⊢
        exact hexceeded
      · simp [Standing.depthExceeded, CandidatePolicyContext.standing, hdefault] at hexceeded
    simp [Standing.admits, hexceeded']
  · have hsome : (db.unresolvedSets ns id).isEmpty = false := by
      rw [← hsets]
      exact (Bool.not_eq_true' _).mp hcontra
    have hkept := unresolvedSets_kept hwf hprepared hrestored hids hsome
    rw [← hsets'] at hkept
    simp [CandidatePolicyContext.standing, hkept] at hresolved

end Restore

/-- A restore makes no decision more permissive exactly when it was a dry run or
the checkpoint keeps the standing of every memory it brings back. -/
theorem restore_never_permits_iff {services : Services} {codec : Codec} {args : RestoreArgs}
    {state : State} {db db' : Database} {counts : RestoreCounts} (hwf : db.WellFormed)
    (h : restore codec args state db = .ok (counts, db')) :
    NeverPermits services db db' ↔
      args.dryRun = true ∨ KeepsStanding services codec state db := by
  have htyped := typedIds_of_wellFormed hwf
  cases hdry : args.dryRun with
  | true =>
      obtain ⟨tables, -, h⟩ := bind_eq_ok.mp h
      rw [hdry, if_pos rfl] at h
      obtain ⟨-, rfl⟩ := Prod.mk.inj (pure_eq_ok.mp h)
      refine ⟨fun _ => Or.inl rfl, fun _ id c c' _ _ hc hc' _ _ purpose consumer confirmed config => ?_⟩
      obtain ⟨r, ns, hr, hns, hctx⟩ := (contextOf_iff hwf.keys htyped).mp hc
      obtain ⟨r', ns', hr', hns', hctx'⟩ := (contextOf_iff hwf.keys htyped).mp hc'
      obtain rfl := Option.some.inj (hr.symm.trans hr')
      rw [← Option.some.inj (hns.symm.trans hns')] at hctx'
      obtain rfl := Except.ok.inj (hctx.symm.trans hctx')
      exact le_refl _
  | false =>
  obtain ⟨current, tables, hprepared, hrestored⟩ := restore_ok hdry h
  have hkeys' := hrestored.keyed hwf.keys
  have htyped' := typedIds_restored hwf hprepared hrestored
  simp only [Bool.false_eq_true, false_or]
  constructor
  · intro hpermits id c live row policy hids hm hlive hlivetomb hrow hrowtomb hc hpolicy
    obtain ⟨-, -, x, -, hx, -, -⟩ := memoryRow_of_hasMemory hwf.keys hprepared hrestored hm
    have hthere : (db'.memoryRow id).isSome = true := by rw [hx]; rfl
    obtain ⟨r, ns, hr, hns, hctx⟩ := (contextOf_iff hwf.keys htyped).mp hc
    obtain rfl := Option.some.inj (hr.symm.trans hlive)
    obtain ⟨after, hafter, -, hnamespace, htomb⟩ :=
      metaRow_next hwf hprepared hrestored hids hlive hrow
    have hpolicy' := (storedPolicy_next hprepared hrestored hwf.policiesFormed services hthere).trans hpolicy
    obtain ⟨c', hctx'⟩ := exists_influenceContext hpolicy' (normalizeNamespace ns) after
    obtain ⟨q, hq, hstanding⟩ := standing_next hwf hprepared hrestored hids hthere hlive hrow hafter
      hns hctx'
    obtain rfl := Except.ok.inj (hq.symm.trans hpolicy)
    rw [← hstanding]
    have hc' : ContextOf services db' id c' := by
      refine (contextOf_iff hkeys' htyped').mpr ⟨after, ns, hafter, ?_, hctx'⟩
      rw [Record.text, hnamespace]
      exact hns
    have hlive_before : db.Live id := by
      refine ⟨(mem_memoryIds_of_hasMemory hwf.keys hprepared hrestored hm).mp hids, fun r' hr' => ?_⟩
      exact Option.some.inj (hr'.symm.trans hlive) ▸ hlivetomb
    have hlive_after : db'.Live id := by
      refine ⟨hthere, fun r' hr' => ?_⟩
      exact Option.some.inj (hr'.symm.trans hafter) ▸ (htomb hlivetomb).mpr hrowtomb
    refine (decisions_le_iff ?_).mp fun purpose consumer confirmed config =>
      hpermits id c c' hlive_before hlive_after hc hc' "" "" purpose consumer confirmed config
    refine policy_of_context hctx (influenceContext_ok hctx').1 fun p hp => ?_
    rw [storedPolicy_next hprepared hrestored hwf.policiesFormed services hthere, nextPolicyRow, hp]
  · intro hkeeps id c c' hbefore hafter hc hc' decisionId decisionId' purpose consumer confirmed config
    obtain ⟨live, ns, hlive, hns, hctx⟩ := (contextOf_iff hwf.keys htyped).mp hc
    obtain ⟨after, ns', hafterrow, hns', hctx'⟩ := (contextOf_iff hkeys' htyped').mp hc'
    by_cases hids : .int id ∈ db.memoryIds state.project
    · -- a memory of the project: it comes back with the checkpoint's row
      obtain ⟨x, hx⟩ := Option.isSome_iff_exists.mp hafter.1
      have hm : state.HasMemory id := by
        rcases memoryRow_cases hwf.keys hprepared hrestored hx with ⟨hx', hne⟩ | hm
        · obtain ⟨y, hy, hproject⟩ := (mem_memoryIds_iff hwf.keys).mp hids
          exact absurd (Option.some.inj (hx'.symm.trans hy) ▸ hproject) hne
        · exact hm
      have hmeta := (metaRow_cases hwf.keys hprepared hrestored hafterrow).resolve_left
        fun hkept => hkept.2 hids
      obtain ⟨row, hrow⟩ : ∃ row, state.metaRow id = some row := by
        obtain ⟨row, hrow, hid⟩ := hmeta
        exact Option.isSome_iff_exists.mp (List.find?_isSome.mpr ⟨row, hrow, decide_eq_true hid⟩)
      obtain ⟨after', hafter', -, hnamespace, htomb⟩ :=
        metaRow_next hwf hprepared hrestored hids hlive hrow
      obtain rfl := Option.some.inj (hafterrow.symm.trans hafter')
      have hnseq : normalizeNamespace ns = normalizeNamespace ns' := by
        rw [Record.text, hnamespace] at hns'
        exact Option.some.inj (hns.symm.trans hns')
      rw [← hnseq] at hctx'
      obtain ⟨policy, hpolicy, hstanding⟩ := standing_next hwf hprepared hrestored hids hafter.1
        hlive hrow hafterrow hns hctx'
      have hlivetomb := hbefore.2 live hlive
      have hbounds := hkeeps id c live row policy hids hm hlive hlivetomb hrow
        ((htomb hlivetomb).mp (hafter.2 after hafterrow)) hc hpolicy
      rw [← hstanding] at hbounds
      refine (decisions_le_iff ?_).mpr hbounds purpose consumer confirmed config
      refine policy_of_context hctx (influenceContext_ok hctx').1 fun p hp => ?_
      rw [storedPolicy_next hprepared hrestored hwf.policiesFormed services hafter.1, nextPolicyRow, hp]
    · have hkept := metaRow_kept hwf.keys hrestored hlive hids
      obtain rfl := Option.some.inj (hafterrow.symm.trans hkept)
      rw [← Option.some.inj (hns.symm.trans hns')] at hctx'
      obtain ⟨hpolicy, hbounds⟩ := bounds_kept hwf hprepared hrestored hids hctx hctx'
      exact (decisions_le_iff hpolicy).mpr hbounds purpose consumer confirmed config

/-- One memory at derivation depth `depth`, under a policy that allows depth 3. -/
def derivedNote (depth : Int) : Database :=
  ((({} : Database).insertRow "memories" (newMemoryRow 1 "notes" "s1" "draft" none 100)).insertRow
    "memory_meta" ((newMetaRow 1 100 "root").set "derivation_depth" (.int depth))).insertRow
      "memory_influence_policy" (jsonObject [("memory_id", .int 1), ("version", .int 1),
        ("state", .str "eligible"), ("allowed_task_types", .str "[]"),
        ("denied_task_types", .str "[]"), ("maximum_action_risk", .str "critical"),
        ("requires_original_source", .int 0), ("requires_human_confirmation", .int 0),
        ("maximum_derivation_depth", .int 3), ("updated_by", .null), ("updated_at", .int 100)])

/-- The checkpoint of the memory at this depth. -/
def derivedCheckpoint (depth : Int) : State :=
  match capture (jsonCodec []) (derivedNote depth) "notes" true with
  | .ok state => state
  | .error _ => ⟨"notes", ∅, ∅, []⟩

/-- The context of the memory, if it is live. -/
def liveContext (db : Database) : Option CandidatePolicyContext :=
  if (db.memoryRow 1).isSome && (db.metaRow 1).all fun r => (r.col "tombstoned_at").isNull then
    match influenceContextsFor keylessServices db [1] DEFAULT_NAMESPACE with
    | .ok [(1, c)] => some c
    | _ => none
  else none

theorem liveContext_eq_some {db : Database} {c : CandidatePolicyContext}
    (h : liveContext db = some c) : db.Live 1 ∧ ContextOf keylessServices db 1 c := by
  unfold liveContext at h
  split at h
  · next hlive =>
      rw [Bool.and_eq_true] at hlive
      refine ⟨⟨hlive.1, fun r hr => ?_⟩, ?_⟩
      · rw [hr, Option.all_some] at hlive
        exact Value.isNull_eq_true.mp hlive.2
      · split at h
        · next hok => exact ⟨[1], _, _, hok, by rw [Option.some.inj h]; exact List.mem_singleton_self _⟩
        · cases h
  · cases h

theorem derivedNote_wellFormed : (derivedNote 5).WellFormed := by decide +kernel

/-- Restoring the checkpoint taken at depth 0 lets through what the live depth 5
denies. -/
theorem restore_forgets_depth : ∃ counts db', (derivedNote 5).WellFormed ∧
    restore (jsonCodec []) importArgs (derivedCheckpoint 0) (derivedNote 5) = .ok (counts, db') ∧
      ¬ NeverPermits keylessServices (derivedNote 5) db' := by
  have hrun : okAnd (fun out => (liveContext (derivedNote 5)).any fun c =>
      (liveContext out.2).any fun c' => decide
        ((verdict c' (operatorPurpose "deploy" .none) {} true {}).1.rank
          < (verdict c (operatorPurpose "deploy" .none) {} true {}).1.rank))
      (restore (jsonCodec []) importArgs (derivedCheckpoint 0) (derivedNote 5)) = true := by
    decide +kernel
  obtain ⟨⟨counts, db'⟩, hok, hless⟩ := okAnd_eq_true.mp hrun
  refine ⟨counts, db', derivedNote_wellFormed, hok, fun hpermits => ?_⟩
  obtain ⟨c, hc, hless⟩ := (Option.any_eq_true _ _).mp hless
  obtain ⟨c', hc', hless⟩ := (Option.any_eq_true _ _).mp hless
  obtain ⟨hlive, hcontext⟩ := liveContext_eq_some hc
  obtain ⟨hlive', hcontext'⟩ := liveContext_eq_some hc'
  exact Nat.not_lt.mpr (hpermits 1 c c' hlive hlive' hcontext hcontext' "" ""
    (operatorPurpose "deploy" .none) {} true {}) (of_decide_eq_true hless)

/-- Restoring the checkpoint taken at the live depth. -/
theorem restore_never_permits_same_depth : ∃ counts db',
    restore (jsonCodec []) importArgs (derivedCheckpoint 5) (derivedNote 5) = .ok (counts, db') ∧
      (NeverPermits keylessServices (derivedNote 5) db' ↔ importArgs.dryRun = true ∨
        KeepsStanding keylessServices (jsonCodec []) (derivedCheckpoint 5) (derivedNote 5)) := by
  have hrun : okAnd (fun _ => true)
      (restore (jsonCodec []) importArgs (derivedCheckpoint 5) (derivedNote 5)) = true := by
    decide +kernel
  obtain ⟨⟨counts, db'⟩, hok, -⟩ := okAnd_eq_true.mp hrun
  exact ⟨counts, db', hok, restore_never_permits_iff derivedNote_wellFormed hok⟩

end IronMem
