import IronMem.Governance

/-!
# Assertion events

The immutable events of `assertions.rs` as far as checkpoints look into them.
-/

namespace IronMem

structure Scope where
  «namespace» : String
  project : String
  subject : String
  predicate : String
deriving DecidableEq

structure Event where
  scope : Scope
  version : Int
  memoryId : Int
  evidenceHash : String
  value : Option String
  validFrom : Int
  validUntil : Option Int
  supersedes : Option String
  recordedAt : Int
  actor : String
  previousHash : Option String
deriving DecidableEq

structure Entry where
  id : String
  event : Event
deriving DecidableEq

/-- One field of a scope: not empty, trimmed, bounded, printable. -/
def validateScopeField (name value : String) (max : Nat) : Except String Unit :=
  ensure (!value.isEmpty && trim value == value && decide (byteLen value ≤ max) &&
    !value.toList.any isControl) ("invalid assertion " ++ name)

/-- `Scope::validate`. -/
def Scope.validate (s : Scope) : Except String Unit := do
  validateScopeField "namespace" s.namespace 128
  validateScopeField "project" s.project 4096
  validateScopeField "subject" s.subject 256
  validateScopeField "predicate" s.predicate 128
  ensure (normalizeNamespace s.namespace == s.namespace) "namespace must be canonical"

end IronMem
