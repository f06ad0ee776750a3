import IronMem.JsonLossless
import IronMem.PolicyStorage

/-!
# The task vocabulary of the policies

The lists that patches leave in a policy hold normalized task types, in order, so that the
evaluator's comparisons of texts are comparisons of task types, however they were spelled.

A patched policy is one that `apply` has returned, from the default one or from another
patched one (`Patched`). Each list it holds was canonicalized or is still empty, so that
storing and reading it back changes nothing. The evaluator normalizes the task it is asked
about and looks it up; the two reason codes that tell the outcome come from nowhere else in
the verdict (`mem_verdict_denied`, `mem_verdict_notAllowed`).
-/

namespace IronMem

open Fallible

/-! ## Lists -/

theorem canonical_sorted {l : List String} (h : Canonical l) : l.Pairwise (· < ·) := by
  obtain ⟨-, normalized, -, rfl⟩ := canonicalizeTaskTypes_eq_ok.mp h
  have hordered : (taskTypeSet normalized).keys.Pairwise fun a b => compare a b = .lt :=
    Std.ExtTreeMap.ordered_keys
  exact hordered.imp fun hab => compare_lt_iff_lt.mp hab

theorem mem_taskTypeSet {l : List String} {t : String} : t ∈ (taskTypeSet l).keys ↔ t ∈ l := by
  rw [Std.ExtTreeMap.mem_keys, taskTypeSet, mem_foldl_insert]
  simp

/-- A list holds the task types of the spellings it was made of. -/
theorem mem_canonicalized {taskTypes l : List String} (h : canonicalizeTaskTypes taskTypes = .ok l)
    (t : String) : t ∈ l ↔ ∃ x ∈ taskTypes, normalizeTaskType x = .ok t := by
  obtain ⟨-, normalized, hmap, rfl⟩ := canonicalizeTaskTypes_eq_ok.mp h
  have hall := forall₂_of_mapM hmap
  rw [mem_taskTypeSet]
  constructor
  · exact fun ht => forall₂_right hall t ht
  · rintro ⟨x, hx, hxt⟩
    obtain ⟨s, hs, hxs⟩ := forall₂_left hall x hx
    rw [hxt] at hxs
    exact Except.ok.inj hxs ▸ hs

/-- A normalized task type is in a stored list if another spelling of it is. -/
theorem mem_canonical {l : List String} (h : Canonical l) {spelling t : String}
    (ht : normalizeTaskType spelling = .ok t) :
    t ∈ l ↔ ∃ x ∈ l, normalizeTaskType x = normalizeTaskType spelling := by
  rw [ht]
  exact mem_canonicalized h t

/-! ## The evaluator -/

theorem Verdict.mem_restrict_of_ne {reason r : String} (hne : r ≠ reason) (v : Verdict) (cond : Bool)
    (kind : InfluenceDecisionKind) : r ∈ (v.restrict cond reason kind).2 ↔ r ∈ v.2 := by
  unfold Verdict.restrict
  split
  · simp [hne]
  · rfl

theorem Verdict.mem_restrict_self {reason : String} {v : Verdict} (hnew : reason ∉ v.2) (cond : Bool)
    (kind : InfluenceDecisionKind) :
    reason ∈ (v.restrict cond reason kind).2 ↔ v.1 ≠ .deny ∧ cond = true := by
  unfold Verdict.restrict
  by_cases h : v.1 ≠ .deny ∧ cond = true
  · simp [h]
  · simp [h, hnew]

/-- The state says nothing about tasks. -/
theorem stateVerdict_reasons (p : MemoryInfluencePolicy) (purpose : VerifiedRecallPurpose)
    (consumer : ConsumerCapabilities) :
    "task_explicitly_denied" ∉ (stateVerdict p purpose consumer).2 ∧
      "task_not_allowed" ∉ (stateVerdict p purpose consumer).2 := by
  unfold stateVerdict
  split
  · simp
  · split <;> decide
  · cases p.state <;> decide

theorem mem_verdict_iff {c : CandidatePolicyContext} {purpose : VerifiedRecallPurpose}
    {consumer : ConsumerCapabilities} {confirmationValid : Bool} {config : InfluenceConfig}
    {r : String} (hrisk : r ≠ "action_risk_exceeded") (hdepth : r ≠ "derivation_depth_exceeded")
    (hcontradiction : r ≠ "unresolved_contradiction") (hsource : r ≠ "source_expansion_required")
    (hconfirm : r ≠ "human_confirmation_required") :
    r ∈ (verdict c purpose consumer confirmationValid config).2 ↔
      r ∈ (taskVerdict c.record.policy purpose (stateVerdict c.record.policy purpose consumer)).2 := by
  simp only [verdict]
  rw [Verdict.mem_restrict_of_ne hconfirm, Verdict.mem_restrict_of_ne hsource,
    Verdict.mem_restrict_of_ne hcontradiction, Verdict.mem_restrict_of_ne hdepth,
    Verdict.mem_restrict_of_ne hrisk]

/-- When the evaluator says that the task is denied. -/
theorem mem_verdict_denied (c : CandidatePolicyContext) (purpose : VerifiedRecallPurpose)
    (consumer : ConsumerCapabilities) (confirmationValid : Bool) (config : InfluenceConfig) :
    "task_explicitly_denied" ∈ (verdict c purpose consumer confirmationValid config).2 ↔
      (stateVerdict c.record.policy purpose consumer).1 ≠ .deny ∧
        purpose.taskType ∈ c.record.policy.deniedTaskTypes := by
  have hstate := (stateVerdict_reasons c.record.policy purpose consumer).1
  rw [mem_verdict_iff (by decide) (by decide) (by decide) (by decide) (by decide), taskVerdict]
  by_cases hmem : purpose.taskType ∈ c.record.policy.deniedTaskTypes
  · rw [if_pos (List.contains_iff_mem.mpr hmem), Verdict.mem_restrict_self hstate]
    simp [hmem]
  · rw [if_neg (by rwa [List.contains_iff_mem]), Verdict.mem_restrict_of_ne (by decide)]
    simp [hmem, hstate]

/-- When the evaluator says that the task is not allowed. -/
theorem mem_verdict_notAllowed (c : CandidatePolicyContext) (purpose : VerifiedRecallPurpose)
    (consumer : ConsumerCapabilities) (confirmationValid : Bool) (config : InfluenceConfig) :
    "task_not_allowed" ∈ (verdict c purpose consumer confirmationValid config).2 ↔
      (stateVerdict c.record.policy purpose consumer).1 ≠ .deny ∧
        purpose.taskType ∉ c.record.policy.deniedTaskTypes ∧
          c.record.policy.allowedTaskTypes ≠ [] ∧
            purpose.taskType ∉ c.record.policy.allowedTaskTypes := by
  have hstate := (stateVerdict_reasons c.record.policy purpose consumer).2
  rw [mem_verdict_iff (by decide) (by decide) (by decide) (by decide) (by decide), taskVerdict]
  by_cases hmem : purpose.taskType ∈ c.record.policy.deniedTaskTypes
  · rw [if_pos (List.contains_iff_mem.mpr hmem), Verdict.mem_restrict_of_ne (by decide)]
    simp [hmem, hstate]
  · rw [if_neg (by rwa [List.contains_iff_mem]), Verdict.mem_restrict_self hstate]
    simp [hmem]

/-! ## Patched policies

The policies in question are made of the default one by patches and by nothing else, so their
lists have been canonicalized or are empty, by induction on how they were made. -/

/-- The policies that patches make of the default one, as `apply` returns them and as an
update writes them. -/
inductive Patched : MemoryInfluencePolicy → Prop
  | default : Patched {}
  | apply {p q : MemoryInfluencePolicy} {patch : MemoryInfluencePolicyPatch} (h : Patched p)
      (happly : patch.apply p = .ok q) : Patched q
  | update {p q : MemoryInfluencePolicy} {patch : MemoryInfluencePolicyPatch} (h : Patched p)
      (happly : patch.apply p = .ok q) (hrange : p.version + 1 < 2 ^ 63) :
      Patched { q with version := p.version + 1 }

variable {p q : MemoryInfluencePolicy} {patch : MemoryInfluencePolicyPatch}

theorem Patched.storable (h : Patched p) : Storable p ∧ 1 ≤ p.version ∧ p.version < 2 ^ 63 := by
  induction h with
  | default => exact ⟨storable_default, by decide, by decide⟩
  | apply _ happly ih =>
      obtain ⟨hstorable, hversion⟩ := apply_storable ih.1 happly
      exact ⟨hstorable, by rw [hversion]; exact ih.2.1, by rw [hversion]; exact ih.2.2⟩
  | update _ happly hrange ih =>
      obtain ⟨hstorable, -⟩ := apply_storable ih.1 happly
      exact ⟨⟨hstorable.allowed, hstorable.denied, hstorable.depth⟩, Nat.le_add_left .., hrange⟩

/-- The lists of a patch, as they are in the patched policy. -/
theorem apply_lists (h : patch.apply p = .ok q) :
    patchedTaskTypes p.allowedTaskTypes patch.allowedTaskTypes = .ok q.allowedTaskTypes ∧
      patchedTaskTypes p.deniedTaskTypes patch.deniedTaskTypes = .ok q.deniedTaskTypes := by
  obtain ⟨_, -, h₁⟩ := bind_eq_ok.mp h
  obtain ⟨allowed, hallowed, h₂⟩ := bind_eq_ok.mp h₁
  obtain ⟨denied, hdenied, h₃⟩ := bind_eq_ok.mp h₂
  obtain rfl := pure_eq_ok.mp h₃
  exact ⟨hallowed, hdenied⟩

/-- The vocabulary that `normalize_task_type` answers with. -/
structure CanonicalVocabulary : Prop where
  idempotent : ∀ value s, normalizeTaskType value = .ok s → normalizeTaskType s = .ok s
  outputs : ∀ s, normalizeTaskType s = .ok s ↔ ∃ value, normalizeTaskType value = .ok s
  shape : ∀ value s, normalizeTaskType value = .ok s → TaskType s

/-- A policy reads back as it was written, and the evaluator compares task types with its
lists, whatever the spelling. -/
structure Survives (services : Services) (p : MemoryInfluencePolicy) : Prop where
  stored : ∀ (r : Record) (actor : String) (now : Int64),
    storedPolicy services (some (r.setAll (policyColumns p actor now))) = .ok p
  allowedSorted : p.allowedTaskTypes.Pairwise (· < ·)
  deniedSorted : p.deniedTaskTypes.Pairwise (· < ·)
  allowedListed : ∀ (patch : MemoryInfluencePolicyPatch) (current : MemoryInfluencePolicy)
    (spellings : List String), patch.apply current = .ok p → patch.allowedTaskTypes = some spellings →
      ∀ t, t ∈ p.allowedTaskTypes ↔ ∃ x ∈ spellings, normalizeTaskType x = .ok t
  deniedListed : ∀ (patch : MemoryInfluencePolicyPatch) (current : MemoryInfluencePolicy)
    (spellings : List String), patch.apply current = .ok p → patch.deniedTaskTypes = some spellings →
      ∀ t, t ∈ p.deniedTaskTypes ↔ ∃ x ∈ spellings, normalizeTaskType x = .ok t
  denies : ∀ (decisionId : String) (c : CandidatePolicyContext) (purpose : VerifiedRecallPurpose)
    (consumer : ConsumerCapabilities) (confirmationValid : Bool) (config : InfluenceConfig)
    (spelling : String), c.record.policy = p → normalizeTaskType spelling = .ok purpose.taskType →
      ("task_explicitly_denied" ∈
          (evaluate services decisionId c purpose consumer confirmationValid config).reasonCodes ↔
        (stateVerdict p purpose consumer).1 ≠ .deny ∧
          ∃ x ∈ p.deniedTaskTypes, normalizeTaskType x = normalizeTaskType spelling)
  refuses : ∀ (decisionId : String) (c : CandidatePolicyContext) (purpose : VerifiedRecallPurpose)
    (consumer : ConsumerCapabilities) (confirmationValid : Bool) (config : InfluenceConfig)
    (spelling : String), c.record.policy = p → normalizeTaskType spelling = .ok purpose.taskType →
      ("task_not_allowed" ∈
          (evaluate services decisionId c purpose consumer confirmationValid config).reasonCodes ↔
        (stateVerdict p purpose consumer).1 ≠ .deny ∧
          (¬ ∃ x ∈ p.deniedTaskTypes, normalizeTaskType x = normalizeTaskType spelling) ∧
            p.allowedTaskTypes ≠ [] ∧
              ¬ ∃ x ∈ p.allowedTaskTypes, normalizeTaskType x = normalizeTaskType spelling)

theorem canonicalVocabulary : CanonicalVocabulary where
  idempotent := fun _ _ h => (normalizeTaskType_slug h).normalize
  outputs := fun s => ⟨fun h => ⟨s, h⟩, fun h => by
    obtain ⟨value, hvalue⟩ := h
    exact (normalizeTaskType_slug hvalue).normalize⟩
  shape := fun _ _ h => normalizeTaskType_slug h

theorem Patched.survives {services : Services}
    (hlist : ∀ l, services.taskListFromStr (jsonStrings l) = .ok l) (h : Patched p) :
    Survives services p := by
  obtain ⟨hstorable, hpos, hrange⟩ := h.storable
  constructor
  · exact storedPolicy_columns hlist hstorable hpos hrange
  · exact canonical_sorted hstorable.allowed
  · exact canonical_sorted hstorable.denied
  · intro patch current spellings happly hspellings
    have hlists := (apply_lists happly).1
    rw [hspellings] at hlists
    exact mem_canonicalized hlists
  · intro patch current spellings happly hspellings
    have hlists := (apply_lists happly).2
    rw [hspellings] at hlists
    exact mem_canonicalized hlists
  · rintro decisionId c purpose consumer confirmationValid config spelling rfl hspelling
    rw [← mem_canonical hstorable.denied hspelling]
    exact mem_verdict_denied c purpose consumer confirmationValid config
  · rintro decisionId c purpose consumer confirmationValid config spelling rfl hspelling
    rw [← mem_canonical hstorable.denied hspelling, ← mem_canonical hstorable.allowed hspelling]
    exact mem_verdict_notAllowed c purpose consumer confirmationValid config

/-- Patched policies survive storage, and their task lists speak the one vocabulary. -/
theorem policies_survive_storage {services : Services}
    (hlist : ∀ l, services.taskListFromStr (jsonStrings l) = .ok l) :
    CanonicalVocabulary ∧ ∀ p, Patched p → Survives services p :=
  ⟨canonicalVocabulary, fun _ h => h.survives hlist⟩

/-- Production deployments only. -/
def productionOnly : MemoryInfluencePolicyPatch where
  allowedTaskTypes := some [" Deploy--Production", "review"]
  maximumDerivationDepth := some (some 3)

theorem policies_survive_storage_production :
    ∃ p, productionOnly.apply {} = .ok p ∧ p.allowedTaskTypes = ["deploy_production", "review"] ∧
      Survives { keylessServices with taskListFromStr := parseStrings } p := by
  obtain ⟨p, happly, hlists⟩ : ∃ p, productionOnly.apply {} = .ok p ∧
      p.allowedTaskTypes = ["deploy_production", "review"] := by
    have hrun : okAnd (fun p => p.allowedTaskTypes == ["deploy_production", "review"])
        (productionOnly.apply {}) = true := by
      decide +kernel
    obtain ⟨p, happly, hlists⟩ := okAnd_eq_true.mp hrun
    exact ⟨p, happly, by simpa using hlists⟩
  exact ⟨p, happly, hlists, (policies_survive_storage parseStrings_jsonStrings).2 p
    (Patched.default.apply happly)⟩

end IronMem
