import IronMem.Text
import IronMem.Value

/-!
# Governance metadata

The enumerations of `governance.rs`, the record a write carries, and the two
functions every layer above calls: `normalize_namespace` and `validate`.

Enumerations are stored by name. `fromName` is the one reader of all of them, over
the function that names the members.
-/

namespace IronMem

def DEFAULT_NAMESPACE : String := "local"

inductive MemorySourceType where
  | userInput | toolOutput | agentGenerated | derived | external | syncPeer
deriving DecidableEq, Repr

inductive TrustTier where
  | high | medium | low | untrusted
deriving DecidableEq, Repr

inductive DataClassification where
  | «public» | internal | confidential | restricted | phi | pii
deriving DecidableEq, Repr

inductive ConsentState where
  | required | granted | denied | withdrawn
deriving DecidableEq, Repr

structure MemoryGovernance where
  «namespace» : String := DEFAULT_NAMESPACE
  sourceType : MemorySourceType := .derived
  trustTier : TrustTier := .medium
  writerIdentity : Option String := some "ironmem"
  sourceRef : Option String := none
  parentMemoryId : Option Int := none
  classification : DataClassification := .internal
  consentState : Option ConsentState := none
  residency : Option String := none
  retentionPolicyId : Option String := none
  expiresAt : Option Int := none
  legalHold : Bool := false
deriving DecidableEq, Repr

/-! ## Stored names -/

def sourceTypeStr : MemorySourceType → String
  | .userInput => "user_input"
  | .toolOutput => "tool_output"
  | .agentGenerated => "agent_generated"
  | .derived => "derived"
  | .external => "external"
  | .syncPeer => "sync_peer"

def trustTierStr : TrustTier → String
  | .high => "high"
  | .medium => "medium"
  | .low => "low"
  | .untrusted => "untrusted"

def classificationStr : DataClassification → String
  | .public => "public"
  | .internal => "internal"
  | .confidential => "confidential"
  | .restricted => "restricted"
  | .phi => "phi"
  | .pii => "pii"

def consentStateStr : ConsentState → String
  | .required => "required"
  | .granted => "granted"
  | .denied => "denied"
  | .withdrawn => "withdrawn"

/-- The `Deserialize` of an enumeration in snake case: exactly the stored names
are accepted. -/
def fromName {α : Type} (name : α → String) (all : List α) (s : String) : Option α :=
  all.find? fun a => name a == s

def sourceTypeFromName : String → Option MemorySourceType :=
  fromName sourceTypeStr [.userInput, .toolOutput, .agentGenerated, .derived, .external, .syncPeer]

def trustTierFromName : String → Option TrustTier :=
  fromName trustTierStr [.high, .medium, .low, .untrusted]

def classificationFromName : String → Option DataClassification :=
  fromName classificationStr [.public, .internal, .confidential, .restricted, .phi, .pii]

def consentStateFromName : String → Option ConsentState :=
  fromName consentStateStr [.required, .granted, .denied, .withdrawn]

/-! ## Validation -/

/-- `{:?}` of a classification. -/
def DataClassification.debug : DataClassification → String
  | .public => "Public"
  | .internal => "Internal"
  | .confidential => "Confidential"
  | .restricted => "Restricted"
  | .phi => "Phi"
  | .pii => "Pii"

/-- `MemoryGovernance::validate`: health and personal data need granted
consent. -/
def MemoryGovernance.validate (g : MemoryGovernance) : Except String Unit :=
  if (g.classification = .phi ∨ g.classification = .pii) ∧ g.consentState ≠ some .granted then
    .error (g.classification.debug ++
      " memory requires consent_state=granted before it can be stored")
  else .ok ()

/-- One character of a namespace. -/
def namespaceChar (c : Char) : Char := if isControl c || isWhitespace c then '_' else c

/-- `normalize_namespace`: trimmed, blanks and control characters replaced, the
default namespace for an empty one. -/
def normalizeNamespace (ns : String) : String :=
  let cleaned := trimChars ns.toList
  if cleaned.isEmpty then DEFAULT_NAMESPACE else String.ofList (cleaned.map namespaceChar)

/-! ## Normalized namespaces are fixed points -/

theorem namespaceChar_not_whitespace (c : Char) : isWhitespace (namespaceChar c) = false := by
  unfold namespaceChar
  split
  · decide
  · next h => simpa using (by simpa using h : _ ∧ isWhitespace c = false).2

theorem namespaceChar_idem (c : Char) : namespaceChar (namespaceChar c) = namespaceChar c := by
  unfold namespaceChar
  split
  · decide
  · rfl

theorem trimChars_of_no_whitespace {cs : List Char} (h : ∀ c ∈ cs, isWhitespace c = false) :
    trimChars cs = cs := by
  have hdrop : ∀ l : List Char, (∀ c ∈ l, isWhitespace c = false) →
      l.dropWhile isWhitespace = l := by
    intro l hl
    cases l with
    | nil => rfl
    | cons c l => simp [hl c (List.mem_cons_self ..)]
  rw [trimChars, hdrop cs h, hdrop cs.reverse fun c hc => h c (List.mem_reverse.mp hc),
    List.reverse_reverse]

/-- Normalizing twice is normalizing once. -/
theorem normalizeNamespace_idem (ns : String) :
    normalizeNamespace (normalizeNamespace ns) = normalizeNamespace ns := by
  unfold normalizeNamespace
  by_cases h : (trimChars ns.toList).isEmpty
  · simp only [h, if_true]
    decide +kernel
  · simp only [h, Bool.false_eq_true, if_false, String.toList_ofList]
    have hws : ∀ c ∈ (trimChars ns.toList).map namespaceChar, isWhitespace c = false := by
      intro c hc
      obtain ⟨d, -, rfl⟩ := List.mem_map.mp hc
      exact namespaceChar_not_whitespace d
    rw [trimChars_of_no_whitespace hws, List.isEmpty_map, if_neg h, List.map_map]
    congr 1
    exact List.map_congr_left fun c _ => namespaceChar_idem c

end IronMem
