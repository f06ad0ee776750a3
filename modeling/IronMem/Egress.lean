import IronMem.Database
import IronMem.Purpose

/-!
# The egress decision

`evaluate` of `egress.rs` and the contexts it is given by `influence_contexts_for`
of `db.rs`. The evaluator starts from the state matrix and only ever tightens:
each later check is an instance of `Verdict.restrict`.

The checks come in the order of the source, since the reason codes are listed in the
order in which they were found. What the decision comes to, and what makes it tighter, is
shown in `Permissiveness`. A context is read from the metadata, the policy and the
contradiction sets of one memory; a policy that cannot be read fails the whole batch.
-/

namespace IronMem

inductive InfluenceMode where
  | advisory | strict
deriving DecidableEq, Repr

inductive ContradictionHighRiskMode where
  | annotate | requireSource | requireConfirmation | deny
deriving DecidableEq, Repr

structure InfluenceConfig where
  enabled : Bool := false
  mode : InfluenceMode := .advisory
  requirePurpose : Bool := false
  requireTrustedAttestation : Bool := false
  recordDenials : Bool := true
  failClosedOnPolicyError : Bool := true
  confirmationReplayProtection : Bool := true
  highRiskRequiresSource : Bool := false
  criticalRiskRequiresConfirmation : Bool := false
  contradictionHighRiskMode : ContradictionHighRiskMode := .annotate
  attestationKeyFile : Option String := none
  confirmationKeyFile : Option String := none
deriving DecidableEq, Repr

structure ConsumerCapabilities where
  reasoningOnlyChannel : Bool := false
  exactSourceExpansion : Bool := false
  denialDiagnostics : Bool := false
deriving DecidableEq, Repr

structure CandidatePolicyContext where
  record : MemoryInfluencePolicyRecord
  derivationDepth : Nat
  evidenceRootCount : Nat
  recordHash : Option String
  unresolvedContradictionSetIds : List String
deriving DecidableEq, Repr

inductive InfluenceDecisionKind where
  | allow | allowReasoningOnly | requireOriginalSource | requireHumanConfirmation | deny
deriving DecidableEq, Repr

/-! ## The evaluator

A verdict is a decision and the reasons found so far. A check that applies puts its own decision
in place of the one before and adds its reason; after a `deny` no check applies. -/

/-- The decision so far and its reason codes. -/
abbrev Verdict := InfluenceDecisionKind × List String

/-- One check: unless the verdict is `deny` already, `cond` turns it into
`kind`. -/
def Verdict.restrict (v : Verdict) (cond : Bool) (reason : String)
    (kind : InfluenceDecisionKind) : Verdict :=
  if v.1 ≠ .deny ∧ cond then (kind, v.2 ++ [reason]) else v

/-- The reason a state denies. -/
def InfluenceState.denialReason : InfluenceState → String
  | .blocked => "state_blocked"
  | .quarantined => "state_quarantined"
  | .superseded => "state_superseded"
  | .reasoningOnly => "state_reasoning_only_for_action"
  | .actionRestricted => "action_risk_exceeded"
  | .eligible => "policy_denied"

/-- Reasoning or action, by what the purpose says. -/
def VerifiedRecallPurpose.useKind (purpose : VerifiedRecallPurpose) : InfluenceUse :=
  if purpose.intendedAction.isSome || purpose.actionRisk != .none then .action else .reasoning

/-- The verdict of the policy state. -/
def stateVerdict (policy : MemoryInfluencePolicy) (purpose : VerifiedRecallPurpose)
    (consumer : ConsumerCapabilities) : Verdict :=
  match stateDisposition policy purpose.useKind purpose.actionRisk with
  | .allow => (.allow, [])
  | .allowReasoningOnly =>
      if consumer.reasoningOnlyChannel then (.allowReasoningOnly, [])
      else (.deny, ["consumer_cannot_enforce_reasoning_only"])
  | .deny => (.deny, [policy.state.denialReason])

/-- The task lists. -/
def taskVerdict (policy : MemoryInfluencePolicy) (purpose : VerifiedRecallPurpose)
    (v : Verdict) : Verdict :=
  if policy.deniedTaskTypes.contains purpose.taskType then
    v.restrict true "task_explicitly_denied" .deny
  else
    v.restrict (!policy.allowedTaskTypes.isEmpty &&
      !policy.allowedTaskTypes.contains purpose.taskType) "task_not_allowed" .deny

/-- A high-risk purpose meets an unresolved contradiction. -/
def hasHighRiskContradiction (candidate : CandidatePolicyContext)
    (purpose : VerifiedRecallPurpose) : Bool :=
  !candidate.unresolvedContradictionSetIds.isEmpty && decide (ActionRisk.high ≤ purpose.actionRisk)

def sourceRequired (candidate : CandidatePolicyContext) (purpose : VerifiedRecallPurpose)
    (config : InfluenceConfig) : Bool :=
  candidate.record.policy.requiresOriginalSource || purpose.requireSourceBacking ||
    (config.highRiskRequiresSource && decide (ActionRisk.high ≤ purpose.actionRisk)) ||
    (hasHighRiskContradiction candidate purpose &&
      config.contradictionHighRiskMode == .requireSource)

def confirmationRequired (candidate : CandidatePolicyContext) (purpose : VerifiedRecallPurpose)
    (config : InfluenceConfig) : Bool :=
  candidate.record.policy.requiresHumanConfirmation ||
    (config.criticalRiskRequiresConfirmation && purpose.actionRisk == .critical) ||
    (hasHighRiskContradiction candidate purpose &&
      config.contradictionHighRiskMode == .requireConfirmation)

/-- The decision and the reason codes of `evaluate`. -/
def verdict (candidate : CandidatePolicyContext) (purpose : VerifiedRecallPurpose)
    (consumer : ConsumerCapabilities) (confirmationValid : Bool) (config : InfluenceConfig) :
    Verdict :=
  let policy := candidate.record.policy
  let v := taskVerdict policy purpose (stateVerdict policy purpose consumer)
  let v := v.restrict (decide (policy.maximumActionRisk < purpose.actionRisk))
    "action_risk_exceeded" .deny
  let v := v.restrict (policy.maximumDerivationDepth.any fun maximum =>
      decide (maximum < candidate.derivationDepth)) "derivation_depth_exceeded" .deny
  let v := v.restrict (hasHighRiskContradiction candidate purpose &&
      config.contradictionHighRiskMode == .deny) "unresolved_contradiction" .deny
  let v := v.restrict (sourceRequired candidate purpose config) "source_expansion_required"
    (if consumer.exactSourceExpansion then .requireOriginalSource else .deny)
  v.restrict (confirmationRequired candidate purpose config && !confirmationValid)
    "human_confirmation_required" .requireHumanConfirmation

def EVALUATOR_VERSION : String := "influence-v1"

structure InfluenceDecision where
  decisionId : String
  requestId : String
  memoryId : Int
  decision : InfluenceDecisionKind
  reasonCodes : List String
  policy : MemoryInfluencePolicy
  purpose : VerifiedRecallPurpose
  policyVersion : Nat
  evaluatorVersion : String
  configHash : String
  evidenceRootCount : Nat
  derivationDepth : Nat
  contradictionSetIds : List String
deriving DecidableEq, Repr

/-- What the gate calls outside the repository: the encoders, the key files,
and `serde_json` at a list of strings and at the configuration. -/
structure Services where
  codec : Codec
  tokens : TokenCodec
  readFile : String → Except String Bytes
  taskListFromStr : String → Except String (List String)
  configToVec : InfluenceConfig → Bytes

/-- `evaluate`. The decision id is drawn by the caller. -/
def evaluate (services : Services) (decisionId : String) (candidate : CandidatePolicyContext)
    (purpose : VerifiedRecallPurpose) (consumer : ConsumerCapabilities)
    (confirmationValid : Bool) (config : InfluenceConfig) : InfluenceDecision :=
  let v := verdict candidate purpose consumer confirmationValid config
  { decisionId
    requestId := purpose.requestId
    memoryId := candidate.record.memoryId
    decision := v.1
    reasonCodes := v.2
    policy := candidate.record.policy
    purpose
    policyVersion := candidate.record.policy.version
    evaluatorVersion := EVALUATOR_VERSION
    configHash := services.codec.digest (services.configToVec config)
    evidenceRootCount := candidate.evidenceRootCount
    derivationDepth := candidate.derivationDepth
    contradictionSetIds := candidate.unresolvedContradictionSetIds }

/-! ## Contexts -/

/-- `influence_policy_record_from_row` on a metadata row and its left-joined
policy row. -/
def influencePolicyRecordFromRow (services : Services) (metaRow : Record)
    (policy : Option Record) : Except String MemoryInfluencePolicyRecord := do
  let memoryId := (metaRow.i64 "memory_id").getD 0
  let ns := (metaRow.text "namespace").getD ""
  let row := policy.getD ∅
  match row.i64 "version" with
  | none => return ⟨memoryId, ns, {}, false, none, none⟩
  | some version =>
      let policy ← MemoryInfluencePolicy.fromStorage services.taskListFromStr {
        version
        state := (row.text "state").getD ""
        allowedTaskTypes := (row.text "allowed_task_types").getD ""
        deniedTaskTypes := (row.text "denied_task_types").getD ""
        maximumActionRisk := (row.text "maximum_action_risk").getD ""
        requiresOriginalSource := (row.i64 "requires_original_source").getD 0 != 0
        requiresHumanConfirmation := (row.i64 "requires_human_confirmation").getD 0 != 0
        maximumDerivationDepth := row.i64 "maximum_derivation_depth" }
      return ⟨memoryId, ns, policy, true, row.text "updated_by", row.i64 "updated_at"⟩

/-- The policy row of a memory. -/
def Database.policyRow (db : Database) (id : Int) : Option Record :=
  (db.table "memory_influence_policy").find? fun r => r.col "memory_id" = .int id

/-- `COUNT(DISTINCT evidence_root_id)`. -/
def Database.evidenceRootCount (db : Database) (id : Int) : Nat :=
  (((db.table "memory_evidence_roots").filter fun r => r.col "memory_id" = .int id).map
    fun r => r.col "evidence_root_id").dedup.length

/-- The unresolved contradiction sets of the namespace that list the memory. -/
def Database.unresolvedSets (db : Database) (ns : String) (id : Int) : List String :=
  let sets := (db.table "contradiction_sets").filter fun s =>
    s.text "namespace" == some ns && s.text "status" == some "unresolved"
  let members := (db.table "contradiction_members").filter fun m => m.col "memory_id" = .int id
  RowDiff.sortBy (fun s => s) (members.flatMap fun m =>
    (sets.filter fun s => s.col "id" = m.col "contradiction_set_id").filterMap fun s =>
      s.text "id")

/-- `u32::try_from(depth).unwrap_or(u32::MAX)`. -/
def depthU32 (n : Int) : Nat := (toU32 n).getD (2 ^ 32 - 1)

/-- The context of one memory that has metadata in the namespace. -/
def Database.influenceContext (services : Services) (db : Database) (ns : String)
    (metaRow : Record) (id : Int) : Except String CandidatePolicyContext := do
  let record ← influencePolicyRecordFromRow services metaRow (db.policyRow id)
  return {
    record
    derivationDepth := depthU32 ((metaRow.i64 "derivation_depth").getD 0)
    evidenceRootCount := db.evidenceRootCount id
    recordHash := metaRow.text "record_hash"
    unresolvedContradictionSetIds := db.unresolvedSets ns id }

/-- `influence_contexts_for`: the context of each listed memory whose metadata
is in the namespace; one unreadable policy fails them all. -/
def influenceContextsFor (services : Services) (db : Database) (ids : List Int) (ns : String) :
    Except String (List (Int × CandidatePolicyContext)) :=
  let ns := normalizeNamespace ns
  let rows := (db.table "memory_meta").filter fun r =>
    r.text "namespace" == some ns && ids.any fun id => r.col "memory_id" = .int id
  rows.mapM fun r => do
    let id := (r.i64 "memory_id").getD 0
    return (id, ← db.influenceContext services ns r id)

end IronMem
