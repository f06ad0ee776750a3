import IronMem.Egress
import IronMem.Json

/-!
# The egress gate

`gate_memories_with_query`: admit the request (`admit`), consume its tokens
(`claimTokens`), then evaluate every candidate (`release`). Only the middle part
writes anything a later call depends on, the replay nonces.

Admission depends on the call alone, and so does everything it refuses for. The clock
is read more than once on the way: at verification, and again for each nonce that is
registered, which is why the call carries all of its readings. The record of the
decisions is written by the call too, and nothing reads it back.
-/

namespace IronMem

inductive PurposeChannel where
  | localOperator (actor : String)
  | remote (authenticatedAgent : Option String)
deriving DecidableEq, Repr

/-- The arguments of one call, the clock readings it takes on its way, and the
identifiers it draws. -/
structure GateCall where
  memories : List Memory
  «namespace» : String
  project : String
  suppliedPurpose : Option RecallPurpose
  channel : PurposeChannel
  consumer : ConsumerCapabilities
  config : InfluenceConfig
  query : Option String := none
  now : Int
  attestationNow : Int
  confirmationNow : Int
  recordNow : Int
  freshRequestId : String
  freshDecisionId : Nat → String
  freshEventId : Nat → String

structure GateResult where
  authorized : List Memory := []
  advisory : List Memory := []
  sourceRequired : List Memory := []
  deniedMemoryIds : List Int := []
  decisions : List InfluenceDecision := []
deriving DecidableEq

/-! ## Admission

The request is refused for what it says, before anything is read or written: an invalid purpose,
a scope that is not the call's, an authority the principal has not. -/

/-- The purpose the call is judged by: the supplied one, or the legacy purpose
where that is permitted. -/
def GateCall.wire (call : GateCall) : Except String RecallPurpose :=
  match call.suppliedPurpose with
  | some purpose => .ok purpose
  | none =>
      if call.config.requirePurpose ∨ call.config.mode = .strict then .error "purpose_required"
      else .ok {
        requestId := call.freshRequestId
        «namespace» := call.namespace
        project := call.project
        taskType := "legacy_recall"
        intendedAction := none
        actionRisk := .none }

/-- The verifier the channel calls for. -/
def GateCall.verify (services : Services) (call : GateCall) (wire : RecallPurpose) :
    Except String (VerifiedRecallPurpose × Option PurposeAttestationClaims) :=
  match call.channel with
  | .localOperator actor =>
      ((localOperatorPurpose wire actor call.now).map fun v => (v, none)).mapError
        PurposeError.display
  | .remote agent =>
      if call.config.mode = .strict ∨ call.config.requireTrustedAttestation then do
        let path ← match call.config.attestationKeyFile with
          | some path => pure path
          | none => throw "trusted attestation key file is not configured"
        let key ← services.readFile path
        (trustedRuntimeVerify services.tokens key wire agent call.now).mapError
          PurposeError.display
      else (advisoryVerify wire agent call.now).mapError PurposeError.display

/-- What an admitted request carries. -/
structure Admission where
  purpose : VerifiedRecallPurpose
  attestation : Option PurposeAttestationClaims
  confirmation : Option ConfirmationClaims
deriving DecidableEq

/-- Everything up to the replay registration: verification, scope, authority,
confirmation. It depends on the call alone. -/
def GateCall.admit (services : Services) (call : GateCall) : Except String Admission := do
  let wire ← call.wire
  let (verified, attestation) ← call.verify services wire
  ensure (verified.namespace == normalizeNamespace call.namespace &&
    verified.project == call.project) "purpose_scope_mismatch"
  ensure (call.config.mode != .strict || verified.authority.isTrusted) "purpose_unattested"
  match wire.confirmationReceipt with
  | none => return ⟨verified, attestation, none⟩
  | some token =>
      let path ← match call.config.confirmationKeyFile with
        | some path => pure path
        | none => throw "confirmation key file is not configured"
      let key ← services.readFile path
      let claims ← (verifyConfirmation services.codec services.tokens token key verified
        call.now).mapError PurposeError.display
      return ⟨{ verified with confirmationReceiptId := some claims.receiptId }, attestation,
        some claims⟩

/-! ## Replay registration -/

/-- `claim_influence_nonce` at the clock reading `row.consumedAt`: purge the
expired rows, insert this one `ON CONFLICT DO NOTHING`. -/
def claimInfluenceNonce (db : Database) (row : NonceRow) : Database × Except String Unit :=
  let kept := db.influenceReplayNonces.filter fun r => ¬ r.expiresAt < row.consumedAt
  if kept.any fun r => r.key = row.key then
    ({ db with influenceReplayNonces := kept }, .error (row.tokenKind ++ "_replayed"))
  else ({ db with influenceReplayNonces := kept ++ [row] }, .ok ())

/-- The tokens of an admitted request, in the order they are registered: the
attestation, then the receipt if it may be used once only. -/
def Admission.tokens (a : Admission) (call : GateCall) : List NonceRow :=
  (a.attestation.toList.map fun c =>
    { tokenKind := "purpose_attestation", issuer := c.issuer, nonce := c.nonce
      requestId := c.requestId, expiresAt := c.expiresAt
      consumedAt := call.attestationNow }) ++
  (a.confirmation.toList.filter fun c =>
      c.singleUse || call.config.confirmationReplayProtection).map fun c =>
    { tokenKind := "confirmation_receipt", issuer := c.issuer, nonce := c.nonce
      requestId := c.requestId, expiresAt := c.expiresAt
      consumedAt := call.confirmationNow }

/-- Register the tokens in turn; the first refusal ends the call. -/
def claimTokens (db : Database) : List NonceRow → Database × Except String Unit
  | [] => (db, .ok ())
  | row :: rows =>
      match claimInfluenceNonce db row with
      | (db, .ok ()) => claimTokens db rows
      | (db, .error e) => (db, .error e)

/-! ## Evaluation

Every candidate is judged by itself, in the order given. A memory without a context, since its
metadata is not in the namespace, is denied or let through as the configuration says. -/

/-- Where a decision puts its memory. -/
def GateResult.place (result : GateResult) (memory : Memory) : InfluenceDecisionKind → GateResult
  | .allow => { result with authorized := result.authorized ++ [memory] }
  | .allowReasoningOnly => { result with advisory := result.advisory ++ [memory] }
  | .requireOriginalSource => { result with sourceRequired := result.sourceRequired ++ [memory] }
  | .requireHumanConfirmation | .deny =>
      { result with deniedMemoryIds := result.deniedMemoryIds ++ [memory.id] }

/-- One iteration of the loop over the candidates. -/
def GateCall.judge (services : Services) (call : GateCall) (admission : Admission)
    (contexts : List (Int × CandidatePolicyContext)) (result : GateResult) (memory : Memory) :
    GateResult :=
  match contexts.lookup memory.id with
  | none =>
      if call.config.failClosedOnPolicyError then
        { result with deniedMemoryIds := result.deniedMemoryIds ++ [memory.id] }
      else { result with authorized := result.authorized ++ [memory] }
  | some context =>
      let decision := evaluate services (call.freshDecisionId result.decisions.length) context
        admission.purpose call.consumer admission.confirmation.isSome call.config
      let placed := result.place memory decision.decision
      { placed with decisions := placed.decisions ++ [decision] }

/-- The lower-case name serde gives a decision. -/
def InfluenceDecisionKind.name : InfluenceDecisionKind → String
  | .allow => "allow"
  | .allowReasoningOnly => "allow_reasoning_only"
  | .requireOriginalSource => "require_original_source"
  | .requireHumanConfirmation => "require_human_confirmation"
  | .deny => "deny"

def PurposeAuthority.name : PurposeAuthority → String
  | .selfDeclared => "self_declared"
  | .authenticatedAgent => "authenticated_agent"
  | .trustedRuntime => "trusted_runtime"
  | .localOperator => "local_operator"

/-- The row `record_influence_decisions` inserts for one decision. -/
def influenceEventRow (services : Services) (call : GateCall)
    (contexts : List (Int × CandidatePolicyContext)) (d : InfluenceDecision) (eventId : String) :
    Record :=
  let codec := services.codec
  let hash (s : String) : String := codec.digest (utf8 s)
  [("id", .str eventId), ("decision_id", .str d.decisionId), ("request_id", .str d.requestId),
    ("memory_id", .int d.memoryId), ("project", .str d.purpose.project),
    ("namespace", .str d.purpose.namespace),
    ("agent_id", Value.ofOptionStr d.purpose.subjectAgentId),
    ("purpose_authority", .str d.purpose.authority.name),
    ("attestation_id", Value.ofOptionStr d.purpose.attestationId),
    ("confirmation_receipt_id", Value.ofOptionStr d.purpose.confirmationReceiptId),
    ("task_type", .str d.purpose.taskType),
    ("intended_action_hash", Value.ofOptionStr (d.purpose.intendedAction.map hash)),
    ("action_risk", .str d.purpose.actionRisk.name), ("decision", .str d.decision.name),
    ("reason_codes", .str (jsonStrings d.reasonCodes)), ("policy_version", .int d.policyVersion),
    ("evaluator_version", .str d.evaluatorVersion), ("config_hash", .str d.configHash),
    ("purpose_hash", .str (purposeHash codec d.purpose)),
    ("query_hash", Value.ofOptionStr (call.query.map hash)),
    ("memory_record_hash",
      Value.ofOptionStr ((contexts.lookup d.memoryId).bind CandidatePolicyContext.recordHash)),
    ("created_at", .int call.recordNow)].foldl (fun r (f, v) => r.set f v) ∅

/-- `record_influence_decisions`. -/
def recordInfluenceDecisions (services : Services) (call : GateCall)
    (contexts : List (Int × CandidatePolicyContext)) (db : Database)
    (decisions : List InfluenceDecision) : Database :=
  let kept := decisions.filter fun d => call.config.recordDenials ||
    (d.decision != .deny && d.decision != .requireHumanConfirmation)
  (kept.zipIdx).foldl (fun db (d, i) => db.insertRow "memory_influence_events"
    (influenceEventRow services call contexts d (call.freshEventId i))) db

/-- Contexts, decisions, and their record. -/
def GateCall.release (services : Services) (call : GateCall) (admission : Admission)
    (db : Database) : Database × Except String GateResult :=
  match influenceContextsFor services db (call.memories.map (·.id)) call.namespace with
  | .error e => (db, .error e)
  | .ok contexts =>
      let result := call.memories.foldl (call.judge services admission contexts) {}
      (recordInfluenceDecisions services call contexts db result.decisions, .ok result)

/-- `gate_memories_with_query`. -/
def gateMemoriesWithQuery (services : Services) (db : Database) (call : GateCall) :
    Database × Except String GateResult :=
  if !call.config.enabled then (db, .ok { authorized := call.memories })
  else match call.admit services with
    | .error e => (db, .error e)
    | .ok admission =>
        match claimTokens db (admission.tokens call) with
        | (db, .error e) => (db, .error e)
        | (db, .ok ()) => call.release services admission db

end IronMem
