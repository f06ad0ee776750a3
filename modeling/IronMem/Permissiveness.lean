import Mathlib.Data.Fintype.EquivFin
import IronMem.Egress
import IronMem.Json

/-!
# Comparing egress decisions

When is every decision about one candidate at least as strict as the decision
about another? `evaluate` reads three things of a candidate: its policy, its
derivation depth and whether it takes part in an unresolved contradiction. Two
candidates under one policy, or a candidate that had none and now has some, can
only differ where the depth or the contradiction decides, and only where the
policy lets anything through at all.

The evaluator is a sequence of checks in the source. Here its decision is in closed
form (`verdict_fst`): the first check that denies decides, and otherwise the
strictest of the confirmation, the source and the policy state. The rest is about
these parts.

- **monotonicity** (`evaluate_monotone`): for every argument there is a relation
  `Tightens`, entry by entry, and every part of the decision grows along it. The
  configuration is one of the arguments. Its modes for contradictions are not a
  chain: two of them ask for different things, and neither gives way to the other.
- **two candidates under one policy** (`decisions_le_iff`): the decisions compare for
  all purposes, consumers and configurations exactly when the standings do
  (`Standing.Bounds`). Where they do not, a purpose that shows the difference is
  constructed from a task type that both lists let through (`exists_task`).
-/

namespace IronMem

/-- How strict a decision is. -/
def InfluenceDecisionKind.rank : InfluenceDecisionKind → Nat
  | .allow => 0
  | .allowReasoningOnly => 1
  | .requireOriginalSource => 2
  | .requireHumanConfirmation => 3
  | .deny => 4

theorem InfluenceDecisionKind.rank_le_deny (k : InfluenceDecisionKind) : k.rank ≤ rank .deny := by
  cases k <;> decide

/-- What `evaluate` reads of a candidate. -/
structure Standing where
  policy : MemoryInfluencePolicy
  derivationDepth : Nat
  contradicted : Bool

def CandidatePolicyContext.standing (c : CandidatePolicyContext) : Standing where
  policy := c.record.policy
  derivationDepth := c.derivationDepth
  contradicted := !c.unresolvedContradictionSetIds.isEmpty

namespace Standing

def depthExceeded (s : Standing) : Bool :=
  s.policy.maximumDerivationDepth.any fun maximum => decide (maximum < s.derivationDepth)

/-- Some task type passes the task lists. -/
def admitsTask (s : Standing) : Bool :=
  s.policy.allowedTaskTypes.isEmpty ||
    s.policy.allowedTaskTypes.any fun t => !s.policy.deniedTaskTypes.contains t

/-- Some purpose is not denied. -/
def admits (s : Standing) : Bool :=
  !s.depthExceeded && s.admitsTask &&
    (s.policy.state == .eligible || s.policy.state == .actionRestricted ||
      s.policy.state == .reasoningOnly)

/-- Some purpose of high risk is not denied. -/
def admitsHighRisk (s : Standing) : Bool :=
  !s.depthExceeded && s.admitsTask &&
    (s.policy.state == .eligible || s.policy.state == .actionRestricted) &&
    decide (ActionRisk.high ≤ s.policy.maximumActionRisk)

end Standing

/-! ## The decision in closed form -/

section Decision

variable (c : CandidatePolicyContext) (purpose : VerifiedRecallPurpose)
  (consumer : ConsumerCapabilities) (confirmationValid : Bool) (config : InfluenceConfig)

/-- The task lists refuse the purpose. -/
def taskRefused : Bool :=
  c.record.policy.deniedTaskTypes.contains purpose.taskType ||
    (!c.record.policy.allowedTaskTypes.isEmpty &&
      !c.record.policy.allowedTaskTypes.contains purpose.taskType)

/-- One of the checks denies. -/
def denies : Bool :=
  (stateVerdict c.record.policy purpose consumer).1 == .deny || taskRefused c purpose ||
    decide (c.record.policy.maximumActionRisk < purpose.actionRisk) || c.standing.depthExceeded ||
    (hasHighRiskContradiction c purpose && config.contradictionHighRiskMode == .deny) ||
    (sourceRequired c purpose config && !consumer.exactSourceExpansion)

theorem Verdict.restrict_deny (v : Verdict) (cond : Bool) (reason : String) :
    (v.restrict cond reason .deny).1 = if cond then .deny else v.1 := by
  unfold Verdict.restrict
  by_cases hv : v.1 = .deny <;> cases cond <;> simp [hv]

theorem Verdict.restrict_fst (v : Verdict) (cond : Bool) (reason : String)
    (kind : InfluenceDecisionKind) :
    (v.restrict cond reason kind).1 = if v.1 = .deny then .deny else if cond then kind else v.1 := by
  unfold Verdict.restrict
  by_cases hv : v.1 = .deny <;> cases cond <;> simp [hv]

theorem taskVerdict_fst (v : Verdict) :
    (taskVerdict c.record.policy purpose v).1
      = if taskRefused c purpose then .deny else v.1 := by
  unfold taskVerdict taskRefused
  cases h : c.record.policy.deniedTaskTypes.contains purpose.taskType with
  | true => rw [if_pos rfl, Verdict.restrict_deny]; rfl
  | false => rw [if_neg (by decide), Verdict.restrict_deny, Bool.false_or]

/-- The first check that denies decides; then the confirmation, the source, and
the policy state. -/
theorem verdict_fst :
    (verdict c purpose consumer confirmationValid config).1
      = if denies c purpose consumer config then .deny
        else if confirmationRequired c purpose config && !confirmationValid then
          .requireHumanConfirmation
        else if sourceRequired c purpose config then .requireOriginalSource
        else (stateVerdict c.record.policy purpose consumer).1 := by
  simp only [verdict]
  rw [Verdict.restrict_fst, Verdict.restrict_fst, Verdict.restrict_deny, Verdict.restrict_deny,
    Verdict.restrict_deny, taskVerdict_fst]
  have hstanding : (c.record.policy.maximumDerivationDepth.any fun maximum =>
      decide (maximum < c.derivationDepth)) = c.standing.depthExceeded := rfl
  rw [hstanding, denies]
  by_cases hcontradiction :
      (hasHighRiskContradiction c purpose && config.contradictionHighRiskMode == .deny) = true
  · simp [hcontradiction]
  by_cases hdepth : c.standing.depthExceeded = true
  · simp [hdepth]
  by_cases hrisk : c.record.policy.maximumActionRisk < purpose.actionRisk
  · simp [hrisk]
  by_cases hrefused : taskRefused c purpose = true
  · simp [hrefused]
  simp only [hcontradiction, hdepth, hrisk, hrefused, Bool.false_eq_true, if_false, decide_false,
    Bool.or_false]
  generalize (stateVerdict c.record.policy purpose consumer).1 = k
  cases k <;> cases sourceRequired c purpose config <;> cases consumer.exactSourceExpansion <;> simp

theorem stateVerdict_rank (h : (stateVerdict c.record.policy purpose consumer).1 ≠ .deny) :
    (stateVerdict c.record.policy purpose consumer).1.rank ≤ 1 := by
  revert h
  unfold stateVerdict
  split
  · decide
  · split <;> decide
  · simp

theorem verdict_eq_deny : (verdict c purpose consumer confirmationValid config).1 = .deny ↔
    denies c purpose consumer config = true := by
  rw [verdict_fst]
  constructor
  · intro h
    by_contra hallowed
    rw [Bool.not_eq_true] at hallowed
    have hstate : (stateVerdict c.record.policy purpose consumer).1 ≠ .deny := by
      intro heq
      rw [denies, heq] at hallowed
      cases hallowed
    rw [hallowed] at h
    simp only [Bool.false_eq_true, if_false] at h
    split at h
    · cases h
    · split at h
      · cases h
      · exact hstate h
  · intro h
    rw [h, if_pos rfl]

end Decision

theorem InfluenceDecisionKind.eq_deny_of_le {k : InfluenceDecisionKind}
    (h : rank .deny ≤ k.rank) : k = .deny := by
  cases k <;> simp [rank] at h ⊢

/-- The decision on one side is at least as strict as soon as each part is, where
the stricter side does not deny. -/
theorem verdict_rank_le {c c' : CandidatePolicyContext} {purpose purpose' : VerifiedRecallPurpose}
    {consumer consumer' : ConsumerCapabilities} {confirmed confirmed' : Bool}
    {config config' : InfluenceConfig}
    (h : denies c' purpose' consumer' config' = false →
      denies c purpose consumer config = false ∧
      ((confirmationRequired c purpose config && !confirmed) = true →
        (confirmationRequired c' purpose' config' && !confirmed') = true) ∧
      (sourceRequired c purpose config = true → sourceRequired c' purpose' config' = true) ∧
      (stateVerdict c.record.policy purpose consumer).1.rank
        ≤ (stateVerdict c'.record.policy purpose' consumer').1.rank) :
    (verdict c purpose consumer confirmed config).1.rank
      ≤ (verdict c' purpose' consumer' confirmed' config').1.rank := by
  rw [verdict_fst, verdict_fst]
  cases hdenies : denies c' purpose' consumer' config' with
  | true => exact InfluenceDecisionKind.rank_le_deny _
  | false =>
  obtain ⟨hd, hconfirm, hsource, hstate⟩ := h hdenies
  have hallowed : (stateVerdict c.record.policy purpose consumer).1.rank ≤ 1 := by
    refine stateVerdict_rank c purpose consumer fun heq => ?_
    rw [denies, heq] at hd
    cases hd
  rw [hd]
  simp only [Bool.false_eq_true, if_false]
  by_cases hq : (confirmationRequired c purpose config && !confirmed) = true
  · rw [if_pos hq, if_pos (hconfirm hq)]
  · rw [if_neg hq]
    by_cases hs : sourceRequired c purpose config = true
    · rw [if_pos hs, if_pos (hsource hs)]
      split <;> decide
    · rw [if_neg hs]
      split
      · exact le_trans hallowed (by decide)
      · split
        · exact le_trans hallowed (by decide)
        · exact hstate

/-! ## Monotonicity

Each part of the closed form is compared for the two sets of arguments. A contradiction may
count towards the source or the confirmation, depending on the mode, and so the modes are only
compared where they ask for the same. -/

/-- `Eligible ≤ ActionRestricted ≤ ReasoningOnly ≤ Quarantined, Blocked, Superseded`. -/
def InfluenceState.level : InfluenceState → Nat
  | .eligible => 0
  | .actionRestricted => 1
  | .reasoningOnly => 2
  | .quarantined | .blocked | .superseded => 3

/-- The policy `q` restricts at least as much as `p`, entry by entry. -/
structure MemoryInfluencePolicy.Tightens (p q : MemoryInfluencePolicy) : Prop where
  state : p.state.level ≤ q.state.level
  denied : p.deniedTaskTypes ⊆ q.deniedTaskTypes
  allowed : p.allowedTaskTypes = [] ∨
    (q.allowedTaskTypes ≠ [] ∧ q.allowedTaskTypes ⊆ p.allowedTaskTypes)
  risk : q.maximumActionRisk ≤ p.maximumActionRisk
  depth : ∀ m, p.maximumDerivationDepth = some m →
    ∃ m', q.maximumDerivationDepth = some m' ∧ m' ≤ m
  source : p.requiresOriginalSource = true → q.requiresOriginalSource = true
  confirmation : p.requiresHumanConfirmation = true → q.requiresHumanConfirmation = true

/-- A stricter policy, a deeper derivation, more unresolved contradictions. -/
structure CandidatePolicyContext.Tightens (c c' : CandidatePolicyContext) : Prop where
  policy : c.record.policy.Tightens c'.record.policy
  depth : c.derivationDepth ≤ c'.derivationDepth
  contradictions : c.unresolvedContradictionSetIds ⊆ c'.unresolvedContradictionSetIds

/-- The same task with more at stake. -/
structure VerifiedRecallPurpose.Tightens (p p' : VerifiedRecallPurpose) : Prop where
  task : p'.taskType = p.taskType
  action : p.intendedAction.isSome = true → p'.intendedAction.isSome = true
  risk : p.actionRisk ≤ p'.actionRisk
  source : p.requireSourceBacking = true → p'.requireSourceBacking = true

/-- Capabilities were taken away. -/
structure ConsumerCapabilities.Tightens (a b : ConsumerCapabilities) : Prop where
  reasoning : b.reasoningOnlyChannel = true → a.reasoningOnlyChannel = true
  expansion : b.exactSourceExpansion = true → a.exactSourceExpansion = true

/-- Requirements were turned on. A contradiction mode other than `annotate` gives way to `deny`
only: with the confirmation given, `requireConfirmation` lets through what `requireSource` does
not, and where the source can be expanded it is the other way round. -/
structure InfluenceConfig.Tightens (a b : InfluenceConfig) : Prop where
  source : a.highRiskRequiresSource = true → b.highRiskRequiresSource = true
  confirmation : a.criticalRiskRequiresConfirmation = true →
    b.criticalRiskRequiresConfirmation = true
  contradiction : a.contradictionHighRiskMode = .annotate ∨
    b.contradictionHighRiskMode = a.contradictionHighRiskMode ∨ b.contradictionHighRiskMode = .deny

section Monotone

variable {c c' : CandidatePolicyContext} {purpose purpose' : VerifiedRecallPurpose}
  {consumer consumer' : ConsumerCapabilities} {config config' : InfluenceConfig}

theorem useKind_tightens (hp : purpose.Tightens purpose') (h : purpose.useKind = .action) :
    purpose'.useKind = .action := by
  have haction : (purpose.intendedAction.isSome || purpose.actionRisk != .none) = true := by
    by_contra hno
    simp [VerifiedRecallPurpose.useKind, hno] at h
  have haction' : (purpose'.intendedAction.isSome || purpose'.actionRisk != .none) = true := by
    rw [Bool.or_eq_true] at haction ⊢
    refine haction.imp hp.action fun hrisk => ?_
    have hle := hp.risk
    rw [ActionRisk.le_def] at hle
    cases hr : purpose.actionRisk <;> cases hr' : purpose'.actionRisk <;>
      simp_all [ActionRisk.rank]
  simp [VerifiedRecallPurpose.useKind, haction']

/-- Under a state above `ActionRestricted` no action is allowed. -/
theorem stateVerdict_action {policy : MemoryInfluencePolicy} (hlevel : 2 ≤ policy.state.level)
    (huse : purpose.useKind = .action) : (stateVerdict policy purpose consumer).1 = .deny := by
  unfold stateVerdict stateDisposition
  cases hstate : policy.state <;> simp [hstate, InfluenceState.level, huse] at hlevel ⊢

theorem stateVerdict_closed {policy : MemoryInfluencePolicy} (hlevel : 3 ≤ policy.state.level) :
    (stateVerdict policy purpose consumer).1 = .deny := by
  unfold stateVerdict stateDisposition
  cases hstate : policy.state <;> simp [hstate, InfluenceState.level] at hlevel ⊢

/-- The state matrix is monotone in the policy, the use, the risk and the channel. -/
theorem stateVerdict_tightens (hc : c.record.policy.Tightens c'.record.policy)
    (hp : purpose.Tightens purpose') (hcons : consumer.Tightens consumer') :
    (stateVerdict c.record.policy purpose consumer).1.rank
      ≤ (stateVerdict c'.record.policy purpose' consumer').1.rank := by
  have hlevel := hc.state
  by_cases hclosed : 3 ≤ c'.record.policy.state.level
  · rw [stateVerdict_closed hclosed]
    exact InfluenceDecisionKind.rank_le_deny _
  cases hstate : c.record.policy.state with
  | eligible => simp [stateVerdict, stateDisposition, hstate, InfluenceDecisionKind.rank]
  | actionRestricted =>
      cases huse : purpose.useKind with
      | reasoning =>
          simp [stateVerdict, stateDisposition, hstate, huse, InfluenceDecisionKind.rank]
      | action =>
          have huse' := useKind_tightens hp huse
          by_cases hrisk : purpose.actionRisk ≤ c.record.policy.maximumActionRisk
          · simp [stateVerdict, stateDisposition, hstate, huse, hrisk, InfluenceDecisionKind.rank]
          · -- the same excess of risk on the stricter side
            have hrisk' : ¬ purpose'.actionRisk ≤ c'.record.policy.maximumActionRisk := fun h =>
              hrisk (ActionRisk.le_def.mpr (le_trans (le_trans hp.risk h) hc.risk))
            have hdeny : (stateVerdict c'.record.policy purpose' consumer').1 = .deny := by
              cases hstate' : c'.record.policy.state with
              | eligible => rw [hstate, hstate'] at hlevel; exact absurd hlevel (by decide)
              | actionRestricted => simp [stateVerdict, stateDisposition, hstate', huse', hrisk']
              | reasoningOnly =>
                  exact stateVerdict_action (by rw [hstate']; decide) huse'
              | quarantined | blocked | superseded =>
                  exact stateVerdict_closed (by rw [hstate']; decide)
            rw [hdeny]
            exact InfluenceDecisionKind.rank_le_deny _
  | reasoningOnly =>
      have hlevel' : 2 ≤ c'.record.policy.state.level := by rw [hstate] at hlevel; exact hlevel
      cases huse' : purpose'.useKind with
      | action =>
          rw [stateVerdict_action hlevel' huse']
          exact InfluenceDecisionKind.rank_le_deny _
      | reasoning =>
          have huse : purpose.useKind = .reasoning := by
            cases huse : purpose.useKind with
            | reasoning => rfl
            | action => rw [useKind_tightens hp huse] at huse'; cases huse'
          have hstate' : c'.record.policy.state = .reasoningOnly := by
            cases h : c'.record.policy.state <;> rw [h] at hlevel' hclosed <;>
              simp [InfluenceState.level] at hlevel' hclosed ⊢
          cases hchannel : consumer'.reasoningOnlyChannel with
          | false =>
              simp only [stateVerdict, stateDisposition, hstate', huse', hchannel]
              exact InfluenceDecisionKind.rank_le_deny _
          | true =>
              have hchannel' := hcons.reasoning hchannel
              simp [stateVerdict, stateDisposition, hstate, hstate', huse, huse', hchannel, hchannel']
  | quarantined | blocked | superseded =>
      rw [hstate] at hlevel
      exact absurd hlevel hclosed

theorem taskRefused_tightens (hc : c.record.policy.Tightens c'.record.policy)
    (hp : purpose.Tightens purpose') (h : taskRefused c purpose = true) :
    taskRefused c' purpose' = true := by
  simp only [taskRefused, hp.task, Bool.or_eq_true, Bool.and_eq_true, Bool.not_eq_true',
    List.isEmpty_eq_false_iff, List.contains_eq_mem, decide_eq_true_eq,
    decide_eq_false_iff_not] at h ⊢
  refine h.imp (fun hdenied => hc.denied hdenied) fun ⟨hne, hnot⟩ => ?_
  obtain ⟨hne', hsub⟩ := hc.allowed.resolve_left hne
  exact ⟨hne', fun hmem => hnot (hsub hmem)⟩

theorem depthExceeded_tightens (hc : c.Tightens c') (h : c.standing.depthExceeded = true) :
    c'.standing.depthExceeded = true := by
  obtain ⟨m, hm, hlt⟩ := Option.any_eq_true _ _ |>.mp h
  obtain ⟨m', hm', hle⟩ := hc.policy.depth m hm
  refine Option.any_eq_true _ _ |>.mpr ⟨m', hm', decide_eq_true ?_⟩
  exact lt_of_le_of_lt hle (lt_of_lt_of_le (of_decide_eq_true hlt) hc.depth)

theorem highRisk_tightens {risk : ActionRisk} (hp : purpose.Tightens purpose')
    (h : decide (risk ≤ purpose.actionRisk) = true) :
    decide (risk ≤ purpose'.actionRisk) = true :=
  decide_eq_true (Nat.le_trans (of_decide_eq_true h) hp.risk)

theorem hasHighRiskContradiction_tightens (hc : c.Tightens c') (hp : purpose.Tightens purpose')
    (h : hasHighRiskContradiction c purpose = true) :
    hasHighRiskContradiction c' purpose' = true := by
  rw [hasHighRiskContradiction, Bool.and_eq_true, Bool.not_eq_true',
    List.isEmpty_eq_false_iff] at h ⊢
  refine ⟨fun hnil => h.1 (List.eq_nil_iff_forall_not_mem.mpr fun s hs => ?_),
    highRisk_tightens hp h.2⟩
  exact List.not_mem_nil (hnil ▸ hc.contradictions hs)

/-- A mode other than `annotate` is still there, or denies now. -/
theorem contradictionMode_tightens (hconf : config.Tightens config')
    {mode : ContradictionHighRiskMode} (h : config.contradictionHighRiskMode = mode)
    (hmode : mode ≠ .annotate) :
    config'.contradictionHighRiskMode = mode ∨ config'.contradictionHighRiskMode = .deny := by
  subst h
  exact hconf.contradiction.resolve_left hmode

/-- Where the contradiction does not deny, the mode is the same. -/
theorem contradictionMode_kept (hconf : config.Tightens config')
    (hrisky : hasHighRiskContradiction c' purpose' = true)
    (hopen : denies c' purpose' consumer' config' = false) {mode : ContradictionHighRiskMode}
    (h : config.contradictionHighRiskMode = mode) (hmode : mode ≠ .annotate) :
    config'.contradictionHighRiskMode = mode := by
  refine (contradictionMode_tightens hconf h hmode).resolve_right fun hdeny => ?_
  simp [denies, hrisky, hdeny] at hopen

/-- A required source stays required where nothing denies. -/
theorem sourceRequired_tightens (hc : c.record.policy.Tightens c'.record.policy)
    (hp : purpose.Tightens purpose') (hconf : config.Tightens config')
    (hcontra : hasHighRiskContradiction c purpose = true →
      hasHighRiskContradiction c' purpose' = true)
    (hopen : denies c' purpose' consumer' config' = false)
    (h : sourceRequired c purpose config = true) : sourceRequired c' purpose' config' = true := by
  simp only [sourceRequired, Bool.or_eq_true, Bool.and_eq_true, beq_iff_eq] at h ⊢
  rcases h with ((h | h) | h) | h
  · exact Or.inl (Or.inl (Or.inl (hc.source h)))
  · exact Or.inl (Or.inl (Or.inr (hp.source h)))
  · exact Or.inl (Or.inr ⟨hconf.source h.1, highRisk_tightens hp h.2⟩)
  · have hrisky := hcontra h.1
    exact Or.inr ⟨hrisky, contradictionMode_kept hconf hrisky hopen h.2 (by decide)⟩

/-- A required confirmation stays required where nothing denies. -/
theorem confirmationRequired_tightens (hc : c.record.policy.Tightens c'.record.policy)
    (hp : purpose.Tightens purpose') (hconf : config.Tightens config')
    (hcontra : hasHighRiskContradiction c purpose = true →
      hasHighRiskContradiction c' purpose' = true)
    (hopen : denies c' purpose' consumer' config' = false)
    (h : confirmationRequired c purpose config = true) :
    confirmationRequired c' purpose' config' = true := by
  simp only [confirmationRequired, Bool.or_eq_true, Bool.and_eq_true, beq_iff_eq] at h ⊢
  rcases h with (h | ⟨h, hcritical⟩) | ⟨h, hmode⟩
  · exact Or.inl (Or.inl (hc.confirmation h))
  · refine Or.inl (Or.inr ⟨hconf.confirmation h, ?_⟩)
    have hle := hp.risk
    rw [hcritical, ActionRisk.le_def] at hle
    cases hr : purpose'.actionRisk <;> rw [hr] at hle <;> simp [ActionRisk.rank] at hle ⊢
  · have hrisky := hcontra h
    exact Or.inr ⟨hrisky, contradictionMode_kept hconf hrisky hopen hmode (by decide)⟩

theorem denies_tightens (hc : c.record.policy.Tightens c'.record.policy)
    (hp : purpose.Tightens purpose') (hcons : consumer.Tightens consumer')
    (hconf : config.Tightens config')
    (hdepth : c.standing.depthExceeded = true → c'.standing.depthExceeded = true)
    (hcontra : hasHighRiskContradiction c purpose = true →
      hasHighRiskContradiction c' purpose' = true)
    (h : denies c purpose consumer config = true) :
    denies c' purpose' consumer' config' = true := by
  by_contra hopen
  rw [Bool.not_eq_true] at hopen
  have hsource := @sourceRequired_tightens c c' purpose purpose' consumer' config config' hc hp
    hconf hcontra hopen
  refine absurd hopen (ne_of_eq_of_ne ?_ (by decide : (true : Bool) ≠ false))
  simp only [denies, Bool.or_eq_true, Bool.and_eq_true, beq_iff_eq, decide_eq_true_eq,
    Bool.not_eq_true'] at h ⊢
  rcases h with ((((h | h) | h) | h) | ⟨h, hmode⟩) | ⟨h, hexpansion⟩
  · have hle := @stateVerdict_tightens _ _ _ _ consumer consumer' hc hp hcons
    rw [h] at hle
    refine Or.inl (Or.inl (Or.inl (Or.inl (Or.inl ?_))))
    cases hk : (stateVerdict c'.record.policy purpose' consumer').1 <;> rw [hk] at hle <;>
      simp [InfluenceDecisionKind.rank] at hle ⊢
  · exact Or.inl (Or.inl (Or.inl (Or.inl (Or.inr (taskRefused_tightens hc hp h)))))
  · refine Or.inl (Or.inl (Or.inl (Or.inr ?_)))
    exact Nat.lt_of_le_of_lt hc.risk (Nat.lt_of_lt_of_le h hp.risk)
  · exact Or.inl (Or.inl (Or.inr (hdepth h)))
  · have hmode' := contradictionMode_tightens hconf hmode (by decide)
    exact Or.inl (Or.inr ⟨hcontra h, hmode'.elim id id⟩)
  · refine Or.inr ⟨hsource h, ?_⟩
    by_contra hexp
    rw [Bool.not_eq_false] at hexp
    rw [hcons.expansion hexp] at hexpansion
    cases hexpansion

/-- Each part tightens, where the stricter side does not deny. -/
theorem verdict_tightens {confirmed confirmed' : Bool}
    (hc : c.record.policy.Tightens c'.record.policy) (hp : purpose.Tightens purpose')
    (hcons : consumer.Tightens consumer') (hconf : config.Tightens config')
    (hconfirmed : confirmed' = true → confirmed = true)
    (h : denies c' purpose' consumer' config' = false →
      (c.standing.depthExceeded = true → c'.standing.depthExceeded = true) ∧
      (hasHighRiskContradiction c purpose = true →
        hasHighRiskContradiction c' purpose' = true)) :
    (verdict c purpose consumer confirmed config).1.rank
      ≤ (verdict c' purpose' consumer' confirmed' config').1.rank := by
  refine verdict_rank_le fun hallowed => ?_
  obtain ⟨hdepth, hcontra⟩ := h hallowed
  refine ⟨?_, fun hconfirm => ?_, sourceRequired_tightens hc hp hconf hcontra hallowed,
    stateVerdict_tightens hc hp hcons⟩
  · by_contra hdenied
    rw [Bool.not_eq_false] at hdenied
    rw [denies_tightens hc hp hcons hconf hdepth hcontra hdenied] at hallowed
    cases hallowed
  · rw [Bool.and_eq_true, Bool.not_eq_true'] at hconfirm ⊢
    refine ⟨confirmationRequired_tightens hc hp hconf hcontra hallowed hconfirm.1, ?_⟩
    by_contra hyes
    rw [Bool.not_eq_false] at hyes
    rw [hconfirmed hyes] at hconfirm
    cases hconfirm.2

/-- Making the candidate, the purpose, the consumer, the confirmation or the configuration more
restrictive never makes the decision more permissive. -/
theorem evaluate_monotone (services : Services) (decisionId decisionId' : String)
    (hc : c.Tightens c') (hp : purpose.Tightens purpose') (hcons : consumer.Tightens consumer')
    {confirmed confirmed' : Bool} (hconfirmed : confirmed' = true → confirmed = true)
    (hconf : config.Tightens config') :
    (evaluate services decisionId c purpose consumer confirmed config).decision.rank
      ≤ (evaluate services decisionId' c' purpose' consumer' confirmed' config').decision.rank := by
  exact verdict_tightens hc.policy hp hcons hconf hconfirmed fun _ =>
    ⟨depthExceeded_tightens hc, hasHighRiskContradiction_tightens hc hp⟩

end Monotone

/-- A purpose of the local operator. -/
def operatorPurpose (taskType : String) (risk : ActionRisk) : VerifiedRecallPurpose where
  requestId := "q"
  subjectAgentId := none
  «namespace» := DEFAULT_NAMESPACE
  project := "notes"
  taskType := taskType
  intendedAction := none
  actionRisk := risk
  requireSourceBacking := false
  authority := .localOperator
  attestationId := none
  confirmationReceiptId := none
  issuedAt := 0
  expiresAt := none

/-! ## Two candidates under one policy

Under one policy the state, the tasks and the risk are the same on both sides. The depth and the
contradiction are left, and each only matters where the policy lets something through. -/

/-- Where the depth or a contradiction decided about `a`, nothing gets through
about `b`. -/
def Standing.Bounds (a b : Standing) : Prop :=
  (a.depthExceeded = true → b.admits = false) ∧
    (a.contradicted = true → b.contradicted = false → b.admitsHighRisk = false)

theorem MemoryInfluencePolicy.Tightens.refl (p : MemoryInfluencePolicy) : p.Tightens p where
  state := le_refl _
  denied := List.Subset.refl _
  allowed := by
    by_cases h : p.allowedTaskTypes = []
    · exact Or.inl h
    · exact Or.inr ⟨h, List.Subset.refl _⟩
  risk := Nat.le_refl _
  depth m h := ⟨m, h, le_refl m⟩
  source := id
  confirmation := id

/-- The default policy restricts nothing. -/
theorem MemoryInfluencePolicy.Tightens.default (p : MemoryInfluencePolicy) :
    MemoryInfluencePolicy.Tightens {} p where
  state := Nat.zero_le _
  denied := List.nil_subset _
  allowed := Or.inl rfl
  risk := by cases h : p.maximumActionRisk <;> decide
  depth m h := by cases h
  source h := by cases h
  confirmation h := by cases h

theorem VerifiedRecallPurpose.Tightens.refl (p : VerifiedRecallPurpose) : p.Tightens p :=
  ⟨rfl, id, Nat.le_refl _, id⟩

theorem ConsumerCapabilities.Tightens.refl (c : ConsumerCapabilities) : c.Tightens c := ⟨id, id⟩

theorem InfluenceConfig.Tightens.refl (config : InfluenceConfig) : config.Tightens config :=
  ⟨id, id, Or.inr (Or.inl rfl)⟩

section Bounds

variable {c c' : CandidatePolicyContext}

/-- A task type both lists let through. -/
theorem exists_task (h : c.standing.admitsTask = true) :
    ∃ t, ∀ purpose : VerifiedRecallPurpose, purpose.taskType = t →
      taskRefused c purpose = false := by
  simp only [Standing.admitsTask, CandidatePolicyContext.standing, Bool.or_eq_true,
    List.any_eq_true, Bool.not_eq_true', List.isEmpty_iff, List.contains_eq_mem,
    decide_eq_false_iff_not] at h
  rcases h with hnil | ⟨t, ht, hdenied⟩
  · obtain ⟨t, ht⟩ := Infinite.exists_notMem_finset c.record.policy.deniedTaskTypes.toFinset
    rw [List.mem_toFinset] at ht
    exact ⟨t, fun purpose heq => by simp [taskRefused, heq, hnil, ht]⟩
  · exact ⟨t, fun purpose heq => by simp [taskRefused, heq, hdenied, ht]⟩

theorem admitsTask_of_not_refused {purpose : VerifiedRecallPurpose}
    (h : taskRefused c purpose = false) : c.standing.admitsTask = true := by
  simp only [taskRefused, Bool.or_eq_false_iff, Bool.and_eq_false_iff, Bool.not_eq_false',
    List.isEmpty_iff, List.contains_eq_mem, decide_eq_false_iff_not, decide_eq_true_eq] at h
  simp only [Standing.admitsTask, CandidatePolicyContext.standing, Bool.or_eq_true,
    List.any_eq_true, Bool.not_eq_true', List.isEmpty_iff, List.contains_eq_mem,
    decide_eq_false_iff_not]
  exact h.2.imp_right fun hmem => ⟨_, hmem, h.1⟩

/-- What a candidate that is not denied has. -/
theorem admits_of_not_denies {purpose : VerifiedRecallPurpose} {consumer : ConsumerCapabilities}
    {config : InfluenceConfig} (h : denies c purpose consumer config = false) :
    c.standing.admits = true ∧
      (ActionRisk.high ≤ purpose.actionRisk → c.standing.admitsHighRisk = true) := by
  simp only [denies, Bool.or_eq_false_iff, beq_eq_false_iff_ne, decide_eq_false_iff_not] at h
  obtain ⟨⟨⟨⟨⟨hstate, htask⟩, hrisk⟩, hdepth⟩, -⟩, -⟩ := h
  have hadmits := admitsTask_of_not_refused htask
  rw [ActionRisk.not_lt] at hrisk
  have hopen : c.record.policy.state.level < 3 := by
    by_contra hge
    exact hstate (stateVerdict_closed (by omega))
  constructor
  · rw [Standing.admits, hdepth, hadmits]
    cases hs : c.record.policy.state <;> rw [hs] at hopen <;>
      simp [CandidatePolicyContext.standing, hs, InfluenceState.level] at hopen ⊢
  · intro hhigh
    have haction : purpose.useKind = .action := by
      rw [ActionRisk.le_def] at hhigh
      cases hr : purpose.actionRisk <;> rw [hr] at hhigh <;>
        simp [ActionRisk.rank, VerifiedRecallPurpose.useKind, hr] at hhigh ⊢
    have hlow : c.record.policy.state.level < 2 := by
      by_contra hge
      exact hstate (stateVerdict_action (by omega) haction)
    rw [Standing.admitsHighRisk, hdepth, hadmits]
    have hmax : ActionRisk.high ≤ c.record.policy.maximumActionRisk := Nat.le_trans hhigh hrisk
    cases hs : c.record.policy.state <;> rw [hs] at hlow <;>
      simp [CandidatePolicyContext.standing, hs, hmax, InfluenceState.level] at hlow ⊢

/-- Every capability, and nothing else that would deny. -/
def fullConsumer : ConsumerCapabilities := ⟨true, true, true⟩

/-- A candidate that admits something lets a purpose without risk through. -/
theorem exists_not_denies (h : c.standing.admits = true) :
    ∃ purpose, denies c purpose fullConsumer {} = false := by
  simp only [Standing.admits, Bool.and_eq_true, Bool.not_eq_true', Bool.or_eq_true,
    beq_iff_eq] at h
  obtain ⟨⟨hdepth, htask⟩, hstate⟩ := h
  obtain ⟨t, ht⟩ := exists_task htask
  refine ⟨operatorPurpose t .none, ?_⟩
  have hverdict : (stateVerdict c.record.policy (operatorPurpose t .none) fullConsumer).1 ≠ .deny := by
    change (c.record.policy.state = _ ∨ c.record.policy.state = _) ∨
      c.record.policy.state = _ at hstate
    rcases hstate with (hs | hs) | hs <;>
      simp [stateVerdict, stateDisposition, hs, VerifiedRecallPurpose.useKind, operatorPurpose,
        fullConsumer]
  have hrisk : ¬ c.record.policy.maximumActionRisk < ActionRisk.none := Nat.not_lt_zero _
  simp only [denies, ht (operatorPurpose t .none) rfl, hdepth, beq_eq_false_iff_ne.mpr hverdict,
    Bool.false_or]
  simp [operatorPurpose, hrisk, hasHighRiskContradiction, fullConsumer, ActionRisk.le_def,
    ActionRisk.rank]

/-- Denying unresolved contradictions at high risk. -/
def denyContradictions : InfluenceConfig := { contradictionHighRiskMode := .deny }

theorem exists_highRisk_not_denies (h : c.standing.admitsHighRisk = true)
    (hcontra : c.standing.contradicted = false) :
    ∃ purpose, purpose.actionRisk = .high ∧
      denies c purpose fullConsumer denyContradictions = false := by
  simp only [Standing.admitsHighRisk, Bool.and_eq_true, Bool.not_eq_true', Bool.or_eq_true,
    beq_iff_eq, decide_eq_true_eq] at h
  obtain ⟨⟨⟨hdepth, htask⟩, hstate⟩, hmax⟩ := h
  obtain ⟨t, ht⟩ := exists_task htask
  refine ⟨operatorPurpose t .high, rfl, ?_⟩
  change ActionRisk.high ≤ c.record.policy.maximumActionRisk at hmax
  have hverdict : (stateVerdict c.record.policy (operatorPurpose t .high) fullConsumer).1 ≠ .deny := by
    change c.record.policy.state = _ ∨ c.record.policy.state = _ at hstate
    rcases hstate with hs | hs <;>
      simp [stateVerdict, stateDisposition, hs, VerifiedRecallPurpose.useKind, operatorPurpose, hmax]
  have hrisk : ¬ c.record.policy.maximumActionRisk < ActionRisk.high := ActionRisk.not_lt.mpr hmax
  have hnone : c.unresolvedContradictionSetIds.isEmpty = true := by
    simpa [CandidatePolicyContext.standing] using hcontra
  simp only [denies, ht (operatorPurpose t .high) rfl, hdepth, beq_eq_false_iff_ne.mpr hverdict,
    Bool.false_or]
  simp [operatorPurpose, hrisk, hasHighRiskContradiction, hnone, fullConsumer]

/-- Under one policy, or where there was none before, every decision about `c'` is
at least as strict as the one about `c` exactly when the standing of `c'` bounds
it. -/
theorem decisions_le_iff
    (hpolicy : c.record.policy = c'.record.policy ∨ c.record.policy = {}) :
    (∀ purpose consumer confirmed config,
      (verdict c purpose consumer confirmed config).1.rank
        ≤ (verdict c' purpose consumer confirmed config).1.rank) ↔
      c.standing.Bounds c'.standing := by
  constructor
  · intro hle
    have hdeny : ∀ purpose config, denies c purpose fullConsumer config = true →
        denies c' purpose fullConsumer config = false → False := by
      intro purpose config hdenied hopen
      have h := hle purpose fullConsumer true config
      rw [(verdict_eq_deny c purpose fullConsumer true config).mpr hdenied] at h
      have hdenied' := (verdict_eq_deny c' purpose fullConsumer true config).mp
        (InfluenceDecisionKind.eq_deny_of_le h)
      rw [hdenied'] at hopen
      cases hopen
    constructor
    · intro hdepth
      by_contra hadmits
      rw [Bool.not_eq_false] at hadmits
      obtain ⟨purpose, hopen⟩ := exists_not_denies hadmits
      have hdenied : denies c purpose fullConsumer {} = true := by simp [denies, hdepth]
      exact hdeny purpose {} hdenied hopen
    · intro hcontra hresolved
      by_contra hadmits
      rw [Bool.not_eq_false] at hadmits
      obtain ⟨purpose, hhigh, hopen⟩ := exists_highRisk_not_denies hadmits hresolved
      have hrisky : hasHighRiskContradiction c purpose = true := by
        rw [hasHighRiskContradiction, hhigh, Bool.and_eq_true]
        exact ⟨hcontra, by decide⟩
      have hdenied : denies c purpose fullConsumer denyContradictions = true := by
        simp [denies, hrisky, denyContradictions]
      exact hdeny purpose denyContradictions hdenied hopen
  · rintro ⟨hdepth, hcontra⟩ purpose consumer confirmed config
    have htightens : c.record.policy.Tightens c'.record.policy := by
      rcases hpolicy with heq | hdefault
      · exact heq ▸ .refl _
      · exact hdefault ▸ .default _
    refine verdict_tightens htightens (.refl purpose) (.refl consumer) (.refl config) id
      fun hallowed => ?_
    obtain ⟨hadmits, hhigh⟩ := admits_of_not_denies hallowed
    constructor
    · intro hexceeded
      rw [hdepth hexceeded] at hadmits
      cases hadmits
    · intro hcontradiction
      rw [hasHighRiskContradiction, Bool.and_eq_true, decide_eq_true_eq] at hcontradiction
      obtain ⟨hsets, hrisk⟩ := hcontradiction
      by_cases hresolved : c'.standing.contradicted = true
      · rw [hasHighRiskContradiction, Bool.and_eq_true, decide_eq_true_eq]
        exact ⟨hresolved, hrisk⟩
      · rw [Bool.not_eq_true] at hresolved
        have hno := hcontra hsets hresolved
        rw [hhigh hrisk] at hno
        cases hno

end Bounds

/-- A candidate under an explicit policy. -/
def candidateUnder (policy : MemoryInfluencePolicy) (depth : Nat) (sets : List String) :
    CandidatePolicyContext where
  record := ⟨1, DEFAULT_NAMESPACE, policy, true, none, none⟩
  derivationDepth := depth
  evidenceRootCount := 1
  recordHash := none
  unresolvedContradictionSetIds := sets

/-- Services of a deployment without keys. -/
def keylessServices : Services where
  codec := jsonCodec []
  tokens := ⟨fun _ => none, fun _ _ _ => false, fun _ => none, fun _ => none⟩
  readFile _ := .error "no such file"
  taskListFromStr _ := .ok []
  configToVec _ := []

/-- Deployments only, up to medium risk, confirmed. -/
def deployOnly : MemoryInfluencePolicy where
  state := .actionRestricted
  allowedTaskTypes := ["deploy"]
  maximumActionRisk := .medium
  maximumDerivationDepth := some 4
  requiresHumanConfirmation := true

/-- Sources for high risk, and unresolved contradictions denied. -/
def strictConfig : InfluenceConfig where
  highRiskRequiresSource := true
  contradictionHighRiskMode := .deny

theorem evaluate_monotone_deploy :
    (evaluate keylessServices "d" (candidateUnder { allowedTaskTypes := ["deploy", "review"] } 1 [])
      (operatorPurpose "deploy" .low) ⟨true, true, false⟩ true
      { contradictionHighRiskMode := .requireSource }).decision.rank
    ≤ (evaluate keylessServices "e" (candidateUnder deployOnly 2 ["s1"])
      (operatorPurpose "deploy" .medium) ⟨true, false, false⟩ false strictConfig).decision.rank :=
  evaluate_monotone keylessServices "d" "e"
    ⟨⟨by decide, by decide, by decide, by decide, by decide, by decide, by decide⟩,
      by decide, by decide⟩
    ⟨rfl, by decide, by decide, by decide⟩ ⟨by decide, by decide⟩ (by decide)
    ⟨by decide, by decide, by decide⟩

end IronMem
