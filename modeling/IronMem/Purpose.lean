import IronMem.Checkpoint
import IronMem.Governance
import IronMem.Influence

/-!
# Purposes and confirmation receipts

`purpose.rs`: what a caller says it wants memory for, the signed tokens that
make the statement trustworthy, and the acceptance window of a token. The
signature check is HMAC over base64 parts; the primitives are behind
`TokenCodec`.

The verifiers differ in what they trust, not in what they compute: the advisory one
normalizes the fields, the one of a trusted runtime also requires a token whose claims
agree with every normalized field. Times are 64-bit integers, and the sums with the
tolerated skew wrap as they do in a release build (`validateWindow`).
-/

namespace IronMem

def TOKEN_VERSION : String := "v1"
def MAX_FIELD_BYTES : Nat := 512
def CLOCK_SKEW_SECONDS : Int := 30

structure RecallPurpose where
  requestId : String
  «namespace» : String
  project : String
  taskType : String
  intendedAction : Option String
  actionRisk : ActionRisk
  requireSourceBacking : Bool := false
  purposeAttestation : Option String := none
  confirmationReceipt : Option String := none
deriving DecidableEq, Repr

inductive PurposeAuthority where
  | selfDeclared | authenticatedAgent | trustedRuntime | localOperator
deriving DecidableEq, Repr

def PurposeAuthority.isTrusted : PurposeAuthority → Bool
  | .trustedRuntime | .localOperator => true
  | _ => false

structure VerifiedRecallPurpose where
  requestId : String
  subjectAgentId : Option String
  «namespace» : String
  project : String
  taskType : String
  intendedAction : Option String
  actionRisk : ActionRisk
  requireSourceBacking : Bool
  authority : PurposeAuthority
  attestationId : Option String
  confirmationReceiptId : Option String
  issuedAt : Int
  expiresAt : Option Int
deriving DecidableEq, Repr

structure PurposeAttestationClaims where
  attestationId : String
  issuer : String
  subjectAgentId : Option String
  requestId : String
  «namespace» : String
  project : String
  taskType : String
  intendedAction : Option String
  actionRisk : ActionRisk
  requireSourceBacking : Bool
  issuedAt : Int
  expiresAt : Int
  nonce : String
deriving DecidableEq, Repr

structure ConfirmationClaims where
  receiptId : String
  issuer : String
  confirmingActor : String
  requestId : String
  purposeHash : String
  «namespace» : String
  project : String
  taskType : String
  intendedAction : Option String
  maximumAuthorizedRisk : ActionRisk
  issuedAt : Int
  expiresAt : Int
  nonce : String
  singleUse : Bool := true
deriving DecidableEq, Repr

inductive PurposeError where
  | invalid (message : String)
  | missingAttestation
  | invalidAttestation
  | expiredAttestation
  | scopeMismatch
  | invalidConfirmation
  | expiredConfirmation
  | confirmationRiskExceeded
deriving DecidableEq, Repr

/-- `PurposeError::code`. -/
def PurposeError.code : PurposeError → String
  | .invalid _ => "purpose_invalid"
  | .missingAttestation => "purpose_unattested"
  | .invalidAttestation => "purpose_attestation_invalid"
  | .expiredAttestation => "purpose_attestation_expired"
  | .scopeMismatch => "purpose_attestation_scope_mismatch"
  | .invalidConfirmation => "confirmation_receipt_invalid"
  | .expiredConfirmation => "confirmation_receipt_expired"
  | .confirmationRiskExceeded => "confirmation_risk_exceeded"

/-- `Display`. -/
def PurposeError.display : PurposeError → String
  | .invalid message => message
  | other => other.code

/-- The primitives under the tokens: URL-safe base64, the HMAC comparison, and
`serde_json` at the two kinds of claims. -/
structure TokenCodec where
  urlSafeDecode : String → Option Bytes
  verifySlice : (key message signature : Bytes) → Bool
  attestationFromSlice : Bytes → Option PurposeAttestationClaims
  confirmationFromSlice : Bytes → Option ConfirmationClaims

/-! ## Normalization -/

/-- `validate_field`. -/
def validateField (name value : String) : Except PurposeError Unit :=
  let value := trim value
  if value.isEmpty ∨ MAX_FIELD_BYTES < byteLen value ∨ value.toList.any isControl then
    .error (.invalid ("invalid " ++ name))
  else .ok ()

/-- `RecallPurpose::normalized`. -/
def RecallPurpose.normalized (p : RecallPurpose) : Except PurposeError RecallPurpose := do
  validateField "request_id" p.requestId
  validateField "namespace" p.namespace
  validateField "project" p.project
  if let some action := p.intendedAction then validateField "intended_action" action
  let taskType ← (normalizeTaskType p.taskType).mapError .invalid
  return {
    p with
    requestId := trim p.requestId
    «namespace» := normalizeNamespace p.namespace
    project := trim p.project
    taskType
    intendedAction := (p.intendedAction.map trim).filter fun v => !v.isEmpty }

/-! ## Tokens -/

/-- `validate_window`: the token is young enough and old enough, up to the
tolerated clock skew on either side. The two sums are 64-bit and wrap around. -/
def validateWindow (issuedAt expiresAt now : Int) : Except PurposeError Unit :=
  if expiresAt ≤ issuedAt ∨ Int.bmod (now + CLOCK_SKEW_SECONDS) (2 ^ 64) < issuedAt ∨
      Int.bmod (now - CLOCK_SKEW_SECONDS) (2 ^ 64) > expiresAt then
    .error .expiredAttestation
  else .ok ()

/-- `decode_signed`: three dot-separated parts, the known version, a signature
over the first two, and a payload that parses. -/
def decodeSigned {α : Type} (tokens : TokenCodec) (fromSlice : Bytes → Option α)
    (token : String) (key : Bytes) : Except PurposeError α :=
  match token.toList.splitOn '.' with
  | [version, payload, signature] =>
      if String.ofList version ≠ TOKEN_VERSION then .error .invalidAttestation
      else match tokens.urlSafeDecode (String.ofList signature) with
        | none => .error .invalidAttestation
        | some signature =>
            let message := utf8 (TOKEN_VERSION ++ "." ++ String.ofList payload)
            if tokens.verifySlice key message signature then
              match (tokens.urlSafeDecode (String.ofList payload)).bind fromSlice with
              | some claims => .ok claims
              | none => .error .invalidAttestation
            else .error .invalidAttestation
  | _ => .error .invalidAttestation

/-- `AdvisoryPurposeVerifier::verify`. -/
def advisoryVerify (purpose : RecallPurpose) (authenticatedAgent : Option String) (now : Int) :
    Except PurposeError (VerifiedRecallPurpose × Option PurposeAttestationClaims) := do
  let purpose ← purpose.normalized
  return ({
    requestId := purpose.requestId
    subjectAgentId := authenticatedAgent
    «namespace» := purpose.namespace
    project := purpose.project
    taskType := purpose.taskType
    intendedAction := purpose.intendedAction
    actionRisk := purpose.actionRisk
    requireSourceBacking := purpose.requireSourceBacking
    authority := if authenticatedAgent.isSome then .authenticatedAgent else .selfDeclared
    attestationId := none
    confirmationReceiptId := none
    issuedAt := now
    expiresAt := none }, none)

/-- `TrustedRuntimeVerifier::new` followed by its `verify`. -/
def trustedRuntimeVerify (tokens : TokenCodec) (key : Bytes) (purpose : RecallPurpose)
    (authenticatedAgent : Option String) (now : Int) :
    Except PurposeError (VerifiedRecallPurpose × Option PurposeAttestationClaims) := do
  if key.length < 32 then throw (.invalid "attestation key must contain at least 32 bytes")
  let purpose ← purpose.normalized
  let token ← match purpose.purposeAttestation with
    | some token => pure token
    | none => throw .missingAttestation
  let claims ← (decodeSigned tokens tokens.attestationFromSlice token key).mapError fun _ =>
    .invalidAttestation
  (validateWindow claims.issuedAt claims.expiresAt now).mapError fun _ => .expiredAttestation
  let claimTask ← (normalizeTaskType claims.taskType).mapError fun _ => .invalidAttestation
  let otherAgent := match authenticatedAgent, claims.subjectAgentId with
    | some transport, some claim => transport != claim
    | _, _ => false
  if claims.requestId != purpose.requestId ||
      normalizeNamespace claims.namespace != purpose.namespace ||
      claims.project != purpose.project || claimTask != purpose.taskType ||
      claims.intendedAction != purpose.intendedAction ||
      claims.actionRisk != purpose.actionRisk ||
      claims.requireSourceBacking != purpose.requireSourceBacking || otherAgent then
    throw .scopeMismatch
  return ({
    requestId := purpose.requestId
    subjectAgentId := claims.subjectAgentId
    «namespace» := purpose.namespace
    project := purpose.project
    taskType := purpose.taskType
    intendedAction := purpose.intendedAction
    actionRisk := purpose.actionRisk
    requireSourceBacking := purpose.requireSourceBacking
    authority := .trustedRuntime
    attestationId := some claims.attestationId
    confirmationReceiptId := none
    issuedAt := claims.issuedAt
    expiresAt := some claims.expiresAt }, some claims)

/-- `local_operator_purpose`. -/
def localOperatorPurpose (purpose : RecallPurpose) (actor : String) (now : Int) :
    Except PurposeError VerifiedRecallPurpose := do
  let purpose ← purpose.normalized
  return {
    requestId := purpose.requestId
    subjectAgentId := some actor
    «namespace» := purpose.namespace
    project := purpose.project
    taskType := purpose.taskType
    intendedAction := purpose.intendedAction
    actionRisk := purpose.actionRisk
    requireSourceBacking := purpose.requireSourceBacking
    authority := .localOperator
    attestationId := none
    confirmationReceiptId := none
    issuedAt := now
    expiresAt := none }

/-- `purpose_hash`: the digest of the fields a confirmation binds to. -/
def purposeHash (codec : Codec) (purpose : VerifiedRecallPurpose) : String :=
  let fields : Record := [
    ("version", .int 1),
    ("request_id", .str purpose.requestId),
    ("namespace", .str purpose.namespace),
    ("project", .str purpose.project),
    ("task_type", .str purpose.taskType),
    ("intended_action", Value.ofOptionStr purpose.intendedAction),
    ("action_risk", .str purpose.actionRisk.name),
    ("require_source_backing", .bool purpose.requireSourceBacking)].foldl
      (fun r (f, v) => r.set f v) ∅
  codec.digest (utf8 (codec.recordToString fields))

/-- `verify_confirmation`. -/
def verifyConfirmation (codec : Codec) (tokens : TokenCodec) (token : String) (key : Bytes)
    (purpose : VerifiedRecallPurpose) (now : Int) : Except PurposeError ConfirmationClaims := do
  let claims ← (decodeSigned tokens tokens.confirmationFromSlice token key).mapError fun _ =>
    .invalidConfirmation
  (validateWindow claims.issuedAt claims.expiresAt now).mapError fun _ => .expiredConfirmation
  if claims.requestId != purpose.requestId ||
      claims.purposeHash != purposeHash codec purpose ||
      normalizeNamespace claims.namespace != purpose.namespace ||
      claims.project != purpose.project ||
      (normalizeTaskType claims.taskType).toOption != some purpose.taskType ||
      claims.intendedAction != purpose.intendedAction then
    throw .invalidConfirmation
  if purpose.actionRisk > claims.maximumAuthorizedRisk then throw .confirmationRiskExceeded
  return claims

/-! ## Minting -/

/-- The other direction of the primitives. -/
structure TokenEncoder where
  urlSafeEncode : Bytes → String
  finalize : (key message : Bytes) → Bytes
  confirmationToVec : ConfirmationClaims → Bytes

/-- `encode_signed`. -/
def encodeSigned {α : Type} (encoder : TokenEncoder) (toVec : α → Bytes) (claims : α)
    (key : Bytes) : String :=
  let payload := encoder.urlSafeEncode (toVec claims)
  let message := TOKEN_VERSION ++ "." ++ payload
  let signature := encoder.urlSafeEncode (encoder.finalize key (utf8 message))
  message ++ "." ++ signature

/-- The arguments of `mint_confirmation_token`, and the two ids it draws. -/
structure MintRequest where
  purpose : RecallPurpose
  key : Bytes
  issuer : String
  confirmingActor : String
  maximumAuthorizedRisk : ActionRisk
  issuedAt : Int64
  expiresAt : Int64
  receiptId : String
  nonce : String
deriving DecidableEq

/-- `mint_confirmation_token`. -/
def mintConfirmationToken (codec : Codec) (encoder : TokenEncoder) (m : MintRequest) :
    Except PurposeError String := do
  if m.key.length < 32 then throw (.invalid "confirmation key must contain at least 32 bytes")
  validateField "issuer" m.issuer
  validateField "confirming_actor" m.confirmingActor
  validateWindow m.issuedAt.toInt m.expiresAt.toInt m.issuedAt.toInt
  let verified ← localOperatorPurpose m.purpose m.confirmingActor m.issuedAt.toInt
  let claims : ConfirmationClaims := {
    receiptId := m.receiptId
    issuer := m.issuer
    confirmingActor := m.confirmingActor
    requestId := verified.requestId
    purposeHash := purposeHash codec verified
    «namespace» := verified.namespace
    project := verified.project
    taskType := verified.taskType
    intendedAction := verified.intendedAction
    maximumAuthorizedRisk := m.maximumAuthorizedRisk
    issuedAt := m.issuedAt.toInt
    expiresAt := m.expiresAt.toInt
    nonce := m.nonce
    singleUse := true }
  return encodeSigned encoder encoder.confirmationToVec claims m.key

end IronMem
