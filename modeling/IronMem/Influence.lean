import Mathlib.Order.Lattice
import IronMem.Text
import IronMem.Value

/-!
# Influence policies

`influence.rs`: the states of a policy, its stored form and the baseline matrix
`state_disposition`. A memory without an explicit row has the default policy,
which restricts nothing.

`normalize_task_type` is the loop over the characters it is in the source, with a flag for
the last separator. What it leaves of a text, and that a second pass leaves that alone, is
shown in `TaskTypes`.
-/

namespace IronMem

def MAX_TASK_TYPES : Nat := 64
def MAX_TASK_TYPE_BYTES : Nat := 64

inductive InfluenceState where
  | eligible | quarantined | reasoningOnly | actionRestricted | blocked | superseded
deriving DecidableEq, Repr

inductive ActionRisk where
  | none | low | medium | high | critical
deriving DecidableEq, Repr

namespace ActionRisk

/-- The derived `Ord`: declaration order. -/
def rank : ActionRisk → Nat
  | .none => 0
  | .low => 1
  | .medium => 2
  | .high => 3
  | .critical => 4

instance : LE ActionRisk := ⟨fun a b => a.rank ≤ b.rank⟩
instance : LT ActionRisk := ⟨fun a b => a.rank < b.rank⟩
instance (a b : ActionRisk) : Decidable (a ≤ b) := inferInstanceAs (Decidable (a.rank ≤ b.rank))
instance (a b : ActionRisk) : Decidable (a < b) := inferInstanceAs (Decidable (a.rank < b.rank))

theorem le_def {a b : ActionRisk} : a ≤ b ↔ a.rank ≤ b.rank := Iff.rfl
theorem lt_def {a b : ActionRisk} : a < b ↔ a.rank < b.rank := Iff.rfl

theorem not_lt {a b : ActionRisk} : ¬ a < b ↔ b ≤ a := Nat.not_lt

/-- `Display`. -/
def name : ActionRisk → String
  | .none => "none"
  | .low => "low"
  | .medium => "medium"
  | .high => "high"
  | .critical => "critical"

/-- `FromStr`. -/
def parse (value : String) : Except String ActionRisk :=
  match toAsciiLowercase (trim value) with
  | "none" => .ok .none
  | "low" => .ok .low
  | "medium" => .ok .medium
  | "high" => .ok .high
  | "critical" => .ok .critical
  | _ => .error ("unknown action risk '" ++ value ++ "'")

end ActionRisk

/-- `InfluenceState::from_str`. -/
def InfluenceState.parse (value : String) : Except String InfluenceState :=
  match toAsciiLowercase (trim value) with
  | "eligible" => .ok .eligible
  | "quarantined" => .ok .quarantined
  | "reasoning_only" | "reasoning-only" => .ok .reasoningOnly
  | "action_restricted" | "action-restricted" => .ok .actionRestricted
  | "blocked" => .ok .blocked
  | "superseded" => .ok .superseded
  | _ => .error ("unknown influence state '" ++ value ++ "'")

structure MemoryInfluencePolicy where
  version : Nat := 1
  state : InfluenceState := .eligible
  allowedTaskTypes : List String := []
  deniedTaskTypes : List String := []
  maximumActionRisk : ActionRisk := .critical
  requiresOriginalSource : Bool := false
  requiresHumanConfirmation : Bool := false
  maximumDerivationDepth : Option Nat := none
deriving DecidableEq, Repr

/-! ## Task types -/

def isAsciiAlphanumeric (c : Char) : Bool :=
  ('a' ≤ c && c ≤ 'z') || ('A' ≤ c && c ≤ 'Z') || ('0' ≤ c && c ≤ '9')

/-- The loop of `normalize_task_type`: the characters so far (last first) and
whether the last one was a separator. -/
def normalizeTaskChars (value : String) : List Char → List Char → Bool →
    Except String (List Char)
  | [], acc, _ => .ok acc
  | c :: cs, acc, separator =>
      if isAsciiAlphanumeric c then normalizeTaskChars value cs (lowerAscii c :: acc) false
      else if c = '_' ∨ c = '-' ∨ c = ' ' then
        if separator || acc.isEmpty then normalizeTaskChars value cs acc separator
        else normalizeTaskChars value cs ('_' :: acc) true
      else .error ("task type '" ++ value ++ "' contains unsupported characters")

/-- `normalize_task_type`. -/
def normalizeTaskType (value : String) : Except String String := do
  let value := trim value
  if value.isEmpty then throw "task type must not be empty"
  if MAX_TASK_TYPE_BYTES < byteLen value then
    throw ("task type exceeds " ++ toString MAX_TASK_TYPE_BYTES ++ " bytes")
  if value.toList.any isControl then throw "task type contains control characters"
  let reversed ← normalizeTaskChars value value.toList [] false
  let normalized := (reversed.dropWhile (· == '_')).reverse
  if normalized.isEmpty then throw "task type must contain letters or digits"
  return String.ofList normalized

/-- `canonicalize_task_types`: normalized, sorted, without repetition. -/
def canonicalizeTaskTypes (taskTypes : List String) : Except String (List String) := do
  if MAX_TASK_TYPES < taskTypes.length then
    throw ("task list exceeds the maximum of " ++ toString MAX_TASK_TYPES ++ " entries")
  let normalized ← taskTypes.mapM normalizeTaskType
  return (normalized.foldl (fun (m : BTreeMap Unit) t => m.insert t ()) ∅).keys

/-! ## The stored form -/

structure StoredInfluencePolicy where
  version : Int
  state : String
  allowedTaskTypes : String
  deniedTaskTypes : String
  maximumActionRisk : String
  requiresOriginalSource : Bool
  requiresHumanConfirmation : Bool
  maximumDerivationDepth : Option Int

/-- `u32::try_from`. -/
def toU32 (n : Int) : Option Nat := if 0 ≤ n ∧ n < 2 ^ 32 then some n.toNat else none

/-- `MemoryInfluencePolicy::from_storage`. `listFromStr` is
`serde_json::from_str` at a list of strings. -/
def MemoryInfluencePolicy.fromStorage (listFromStr : String → Except String (List String))
    (stored : StoredInfluencePolicy) : Except String MemoryInfluencePolicy := do
  if stored.version < 0 then throw "stored policy version is negative"
  if stored.version = 0 then throw "stored policy version must be at least 1"
  let maximumDerivationDepth ← match stored.maximumDerivationDepth with
    | none => pure none
    | some depth => match toU32 depth with
      | some depth => pure (some depth)
      | none => throw "stored maximum derivation depth is out of range"
  let state ← InfluenceState.parse stored.state
  let allowed ← (listFromStr stored.allowedTaskTypes).mapError fun e =>
    "stored allowed task list is invalid JSON: " ++ e
  let denied ← (listFromStr stored.deniedTaskTypes).mapError fun e =>
    "stored denied task list is invalid JSON: " ++ e
  let maximumActionRisk ← ActionRisk.parse stored.maximumActionRisk
  return {
    version := stored.version.toNat
    state
    allowedTaskTypes := ← canonicalizeTaskTypes allowed
    deniedTaskTypes := ← canonicalizeTaskTypes denied
    maximumActionRisk
    requiresOriginalSource := stored.requiresOriginalSource
    requiresHumanConfirmation := stored.requiresHumanConfirmation
    maximumDerivationDepth }

structure MemoryInfluencePolicyRecord where
  memoryId : Int
  «namespace» : String
  policy : MemoryInfluencePolicy
  explicit : Bool
  updatedBy : Option String
  updatedAt : Option Int
deriving DecidableEq, Repr

/-! ## The baseline matrix -/

inductive InfluenceUse where
  | reasoning | action
deriving DecidableEq, Repr

inductive StateDisposition where
  | allow | allowReasoningOnly | deny
deriving DecidableEq, Repr

/-- `state_disposition`. -/
def stateDisposition (policy : MemoryInfluencePolicy) (use : InfluenceUse) (risk : ActionRisk) :
    StateDisposition :=
  match policy.state with
  | .blocked | .quarantined | .superseded => .deny
  | .reasoningOnly => match use with
    | .reasoning => .allowReasoningOnly
    | .action => .deny
  | .actionRestricted => match use with
    | .reasoning => .allow
    | .action => if risk ≤ policy.maximumActionRisk then .allow else .deny
  | .eligible => .allow

end IronMem
