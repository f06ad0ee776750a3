import IronMem.RestoreDecision
import IronMem.TaskTypes

/-!
# Policy updates

`update_memory_influence_policy`: one write transaction that reads the policy, checks the
version the request was made for, writes the patched policy under the next version and
appends to the ledger. Restores rewrite the same row. The order in which the transactions
of any number of clients ran is a list of calls here; a call that fails is rolled back.

A patch has an entry for every field of a policy but its version, absent where the field is
to stay. A task list of the patch is canonicalized when it is applied; the reason and the request
id are bounded in bytes.
-/

namespace IronMem

open Fallible

/-! ## Requests -/

def MAX_REASON_BYTES : Nat := 512
def MAX_REQUEST_ID_BYTES : Nat := 128

structure MemoryInfluencePolicyPatch where
  state : Option InfluenceState := none
  allowedTaskTypes : Option (List String) := none
  deniedTaskTypes : Option (List String) := none
  maximumActionRisk : Option ActionRisk := none
  requiresOriginalSource : Option Bool := none
  requiresHumanConfirmation : Option Bool := none
  maximumDerivationDepth : Option (Option UInt32) := none
deriving DecidableEq

def MemoryInfluencePolicyPatch.isEmpty (patch : MemoryInfluencePolicyPatch) : Bool :=
  patch.state.isNone && patch.allowedTaskTypes.isNone && patch.deniedTaskTypes.isNone &&
    patch.maximumActionRisk.isNone && patch.requiresOriginalSource.isNone &&
      patch.requiresHumanConfirmation.isNone && patch.maximumDerivationDepth.isNone

/-- A task list of the patch, or the one there is. -/
def patchedTaskTypes (current : List String) : Option (List String) → Except String (List String)
  | some taskTypes => canonicalizeTaskTypes taskTypes
  | none => .ok current

/-- `MemoryInfluencePolicyPatch::apply`. -/
def MemoryInfluencePolicyPatch.apply (patch : MemoryInfluencePolicyPatch)
    (current : MemoryInfluencePolicy) : Except String MemoryInfluencePolicy := do
  ensure (!patch.isEmpty) "policy update contains no changes"
  let allowed ← patchedTaskTypes current.allowedTaskTypes patch.allowedTaskTypes
  let denied ← patchedTaskTypes current.deniedTaskTypes patch.deniedTaskTypes
  return { current with
    state := patch.state.getD current.state
    allowedTaskTypes := allowed
    deniedTaskTypes := denied
    maximumActionRisk := patch.maximumActionRisk.getD current.maximumActionRisk
    requiresOriginalSource := patch.requiresOriginalSource.getD current.requiresOriginalSource
    requiresHumanConfirmation :=
      patch.requiresHumanConfirmation.getD current.requiresHumanConfirmation
    maximumDerivationDepth := match patch.maximumDerivationDepth with
      | some depth => depth.map UInt32.toNat
      | none => current.maximumDerivationDepth }

/-- `validate_bounded_text`. -/
def validateBoundedText (field value : String) (maximumBytes : Nat) : Except String Unit := do
  ensure (!(trim value).isEmpty) (field ++ " must not be empty")
  ensure (decide (byteLen (trim value) ≤ maximumBytes))
    (field ++ " exceeds " ++ toString maximumBytes ++ " bytes")
  ensure (!(trim value).toList.any isControl) (field ++ " contains control characters")

structure PolicyMutationRequest where
  expectedVersion : Nat
  patch : MemoryInfluencePolicyPatch
  reason : String
  requestId : String
deriving DecidableEq

/-- `PolicyMutationRequest::validate`. -/
def PolicyMutationRequest.validate (request : PolicyMutationRequest) : Except String Unit := do
  validateBoundedText "reason" request.reason MAX_REASON_BYTES
  validateBoundedText "request_id" request.requestId MAX_REQUEST_ID_BYTES
  ensure (!request.patch.isEmpty) "policy update contains no changes"

/-- The arguments of `update_memory_influence_policy` and its two readings of the clock. -/
structure PolicyUpdate where
  memoryId : Int64
  «namespace» : String
  actor : String
  authority : String
  request : PolicyMutationRequest
  now : Int64
  ledgerNow : Int
deriving DecidableEq

/-! ## The row -/

/-- `InfluenceState`'s `Display`. -/
def InfluenceState.name : InfluenceState → String
  | .eligible => "eligible"
  | .quarantined => "quarantined"
  | .reasoningOnly => "reasoning_only"
  | .actionRestricted => "action_restricted"
  | .blocked => "blocked"
  | .superseded => "superseded"

/-- The columns the upsert sets. -/
def policyColumns (policy : MemoryInfluencePolicy) (actor : String) (now : Int64) :
    List (String × Value) :=
  [("version", .int policy.version), ("state", .str policy.state.name),
    ("allowed_task_types", .str (jsonStrings policy.allowedTaskTypes)),
    ("denied_task_types", .str (jsonStrings policy.deniedTaskTypes)),
    ("maximum_action_risk", .str policy.maximumActionRisk.name),
    ("requires_original_source", .int (if policy.requiresOriginalSource then 1 else 0)),
    ("requires_human_confirmation", .int (if policy.requiresHumanConfirmation then 1 else 0)),
    ("maximum_derivation_depth", Value.ofOption (policy.maximumDerivationDepth.map Int.ofNat)),
    ("updated_by", .str actor), ("updated_at", .int now.toInt)]

/-- `INSERT INTO memory_influence_policy … ON CONFLICT(memory_id) DO UPDATE`. -/
def upsertPolicyRow (id : Int) (columns : List (String × Value)) (db : Database) :
    Except String Database := do
  if (db.policyRow id).isSome then
    return db.updateRows "memory_influence_policy" (fun r => r.col "memory_id" = .int id)
      fun r => r.setAll columns
  let row := Record.setAll ∅ (("memory_id", .int id) :: columns)
  checkRow db "memory_influence_policy" row
  return db.insertRow "memory_influence_policy" row

/-- A policy as `serde_json` prints it. -/
def policyJson (codec : Codec) (policy : MemoryInfluencePolicy) : String :=
  codec.recordToString (jsonObject [
    ("version", .int policy.version), ("state", .str policy.state.name),
    ("allowed_task_types", .nested (jsonStrings policy.allowedTaskTypes)),
    ("denied_task_types", .nested (jsonStrings policy.deniedTaskTypes)),
    ("maximum_action_risk", .str policy.maximumActionRisk.name),
    ("requires_original_source", .bool policy.requiresOriginalSource),
    ("requires_human_confirmation", .bool policy.requiresHumanConfirmation),
    ("maximum_derivation_depth", Value.ofOption (policy.maximumDerivationDepth.map Int.ofNat))])

/-- What the ledger says of an update. -/
def policyPayload (codec : Codec) (u : PolicyUpdate) (old new : MemoryInfluencePolicy) : String :=
  codec.recordToString (jsonObject [
    ("actor", .str u.actor), ("authority", .str u.authority),
    ("new_policy", .nested (policyJson codec new)), ("new_version", .int new.version),
    ("old_policy", .nested (policyJson codec old)), ("old_version", .int u.request.expectedVersion),
    ("reason", .str (trim u.request.reason)), ("request_id", .str (trim u.request.requestId))])

/-! ## The transaction -/

/-- `influence_policy_record_on_connection`. -/
def influencePolicyRecordOnConnection (services : Services) (id : Int) (ns : String) (db : Database) :
    Except String MemoryInfluencePolicyRecord :=
  match (db.table "memory_meta").find? fun r =>
      r.col "memory_id" = .int id && r.text "namespace" == some ns with
  | none => .error ("memory " ++ toString id ++ " was not found in namespace '" ++ ns ++ "'")
  | some metaRow => influencePolicyRecordFromRow services metaRow (db.policyRow id)

/-- `update_memory_influence_policy_on_connection`. -/
def updateMemoryInfluencePolicyOnConnection (services : Services) (u : PolicyUpdate) (ns : String)
    (db : Database) : Except String (MemoryInfluencePolicyRecord × Database) := do
  let id := u.memoryId.toInt
  let current ← influencePolicyRecordOnConnection services id ns db
  ensure (current.policy.version == u.request.expectedVersion) ("policy version conflict: expected "
    ++ toString u.request.expectedVersion ++ ", current version is "
    ++ toString current.policy.version)
  let patched ← u.request.patch.apply current.policy
  ensure (patched != current.policy) "policy update does not change the policy"
  ensure (decide (current.policy.version + 1 < 2 ^ 64)) "policy version overflow"
  let next := { patched with version := current.policy.version + 1 }
  ensure (decide (next.version < 2 ^ 63)) "policy version exceeds storage range"
  let db ← upsertPolicyRow id (policyColumns next u.actor u.now) db
  let (_, db) ← appendMemoryLedger services.codec ns (some id) "influence_policy_update"
    (some u.actor) (policyPayload services.codec u current.policy next) u.ledgerNow db
  return (⟨id, ns, next, true, some u.actor, some u.now.toInt⟩, db)

/-- `update_memory_influence_policy`. -/
def updateMemoryInfluencePolicy (services : Services) (u : PolicyUpdate) (db : Database) :
    Except String (MemoryInfluencePolicyRecord × Database) := do
  u.request.validate
  updateMemoryInfluencePolicyOnConnection services u (normalizeNamespace u.namespace) db

end IronMem
