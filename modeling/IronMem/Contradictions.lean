import IronMem.GraphRaces
import IronMem.Handles
import IronMem.Lib.Debts

/-!
# Contradiction sets

Sets of memories that compete for one claim. An operator creates a set and settles it for
one of its members, each in a transaction; the graph detector adds members to it and
reopens it, statement by statement; and a member goes with the metadata of its memory.

A set that is settled must not dangle or hide a later conflict: its preferred memory is
one of its members, and nobody has joined since it was settled. A detector that adds a
member owes the reopening.

The store is the database with, for each set, the members it had when its status was last
set (`ContradictionStore`). The second part is not in the tables: it is what "has joined
since" is about. `ResolutionsStand` is the property; which runs keep it is the subject of
`Resolutions`.
-/

namespace IronMem

open Fallible

/-! ## Sets -/

def ClaimCardinality.display : ClaimCardinality → String
  | .single => "single"
  | .set => "set"
  | .ordered => "ordered"
  | .custom => "custom"

inductive ContradictionStatus where
  | unresolved
  | preferred
  | resolved
  | obsolete
deriving DecidableEq

def ContradictionStatus.display : ContradictionStatus → String
  | .unresolved => "unresolved"
  | .preferred => "preferred"
  | .resolved => "resolved"
  | .obsolete => "obsolete"

inductive MemberStance where
  | supports
  | contradicts
  | competing
deriving DecidableEq

def MemberStance.display : MemberStance → String
  | .supports => "supports"
  | .contradicts => "contradicts"
  | .competing => "competing"

/-- `parse` of an enumeration: the member with this name. -/
def parseAs {α : Type} (display : α → String) (values : List α) (kind value : String) :
    Except String α :=
  match values.find? fun a => display a == toAsciiLowercase (trim value) with
  | some a => .ok a
  | none => .error ("unknown " ++ kind ++ " '" ++ value ++ "'")

def ClaimCardinality.fromStr : String → Except String ClaimCardinality :=
  parseAs display [.single, .set, .ordered, .custom] "claim cardinality"

def ContradictionStatus.fromStr : String → Except String ContradictionStatus :=
  parseAs display [.unresolved, .preferred, .resolved, .obsolete] "contradiction status"

def MemberStance.fromStr : String → Except String MemberStance :=
  parseAs display [.supports, .contradicts, .competing] "contradiction stance"

structure ContradictionMember where
  memoryId : Int
  stance : MemberStance
deriving DecidableEq

structure ContradictionSet where
  id : String
  «namespace» : String
  realm : String
  project : Option String
  claimKey : String
  claimSchemaVersion : Nat
  cardinality : ClaimCardinality
  preferredMemoryId : Option Int
  status : ContradictionStatus
  resolutionBasis : Option String
  resolvedBy : Option String
  version : Nat
  createdAt : Int
  updatedAt : Int
  members : List ContradictionMember

structure CreateContradictionRequest where
  realm : String := "project"
  project : Option String
  cardinality : ClaimCardinality := .single
  members : List ContradictionMember
  reason : String

structure UpdateContradictionRequest where
  expectedVersion : Nat
  status : ContradictionStatus
  preferredMemoryId : Option Int
  basis : String

/-- The members of a set. -/
def Database.contradictionMembers (db : Database) (setId : String) : List Int :=
  ((db.table "contradiction_members").filter fun m =>
    m.col "contradiction_set_id" = .str setId).map fun m => (m.integer "memory_id").getD 0

/-- `contradiction_set_on_connection`. -/
def contradictionSetOnConnection (id ns : String) (db : Database) :
    Except String ContradictionSet := do
  let row ← match (db.table "contradiction_sets").find? fun r =>
      r.col "id" = .str id ∧ r.col "namespace" = .str ns with
    | some row => .ok row
    | none => .error ("contradiction set '" ++ id ++ "' was not found")
  let outOfRange := "out of range integral type conversion attempted"
  let claimSchemaVersion ← match toU32 ((row.integer "claim_schema_version").getD 0) with
    | some n => .ok n
    | none => .error outOfRange
  let cardinality ← ClaimCardinality.fromStr ((row.text "cardinality").getD "")
  let status ← ContradictionStatus.fromStr ((row.text "status").getD "")
  let version := (row.integer "version").getD 0
  ensure (decide (0 ≤ version)) outOfRange
  -- `ORDER BY memory_id`
  let memberRows := ((db.table "contradiction_members").filter fun m =>
    m.col "contradiction_set_id" = .str id).insertionSort fun a b =>
      (a.integer "memory_id").getD 0 ≤ (b.integer "memory_id").getD 0
  let members ← memberRows.mapM fun m => do
    return ⟨(m.integer "memory_id").getD 0, ← MemberStance.fromStr ((m.text "stance").getD "")⟩
  return {
    id := (row.text "id").getD ""
    «namespace» := (row.text "namespace").getD ""
    realm := (row.text "realm").getD ""
    project := row.text "project"
    claimKey := (row.text "claim_key").getD ""
    claimSchemaVersion
    cardinality
    preferredMemoryId := row.integer "preferred_memory_id"
    status
    resolutionBasis := row.text "resolution_basis"
    resolvedBy := row.text "resolved_by"
    version := version.toNat
    createdAt := (row.integer "created_at").getD 0
    updatedAt := (row.integer "updated_at").getD 0
    members }

/-! ## The transactions

A set is written together with its members and its ledger entry, or not at all. The creation
checks its members first, in a statement of its own; the update checks that the preferred memory
is a member and that the version is the one expected. -/

/-- `validate_contradiction_members`. -/
def validateContradictionMembers (request : CreateContradictionRequest) (ns : String)
    (db : Database) : Except String Unit := do
  let metas := (db.table "memory_meta").filter fun mm =>
    request.members.any fun member => mm.col "memory_id" = .int member.memoryId
  let rows := metas.flatMap fun mm =>
    ((db.table "memories").filter fun m => m.col "rowid" = mm.col "memory_id").map fun m => (mm, m)
  ensure (rows.length == request.members.length)
    "one or more contradiction members do not exist"
  rows.forM fun (mm, m) => do
    ensure (mm.text "namespace" == some ns)
      "contradiction members must share the requested namespace"
    if request.realm = "user" then
      ensure (mm.text "scope" == some "user")
        "user-realm contradiction members must have user scope"
    else if request.realm = "project" then
      ensure (request.project == m.text "project")
        "project-realm contradiction members must share the project"

/-- A JSON array of ids. -/
def jsonIds (ids : List Int) : Value := .nested ("[" ++ ",".intercalate (ids.map toString) ++ "]")

/-- `create_contradiction_set_on_connection`. -/
def createContradictionSetOnConnection (codec : Codec) (actor : String)
    (request : CreateContradictionRequest) (ns claimKey id : String) (now ledgerNow : Int)
    (db : Database) : Except String (ContradictionSet × Database) := do
  let db ← insertChecked "contradiction_sets" (jsonObject [
    ("id", .str id), ("namespace", .str ns), ("realm", .str request.realm),
    ("project", Value.ofOptionStr request.project), ("claim_key", .str claimKey),
    ("claim_schema_version", .int 1), ("cardinality", .str request.cardinality.display),
    ("status", .str "unresolved"), ("version", .int 1), ("created_at", .int now),
    ("updated_at", .int now)]) db
  let db ← request.members.foldlM (fun db member =>
    insertChecked "contradiction_members" (jsonObject [
      ("contradiction_set_id", .str id), ("memory_id", .int member.memoryId),
      ("stance", .str member.stance.display), ("created_at", .int now)]) db) db
  let payload := codec.recordToString (jsonObject [("contradiction_set_id", .str id),
    ("claim_key", .str claimKey), ("claim_schema_version", .int 1),
    ("cardinality", .str request.cardinality.display), ("realm", .str request.realm),
    ("project", Value.ofOptionStr request.project),
    ("member_ids", jsonIds (request.members.map ContradictionMember.memoryId)),
    ("reason", .str (trim request.reason))])
  let (_, db) ← appendMemoryLedger codec ns
    (request.members.head?.map ContradictionMember.memoryId) "contradiction_create" (some actor)
    payload ledgerNow db
  return (← contradictionSetOnConnection id ns db, db)

/-- The columns an update sets. -/
def settleColumns (request : UpdateContradictionRequest) (actor : String) (version now : Int) :
    List (String × Value) :=
  [("preferred_memory_id", Value.ofOption request.preferredMemoryId),
    ("status", .str request.status.display), ("resolution_basis", .str (trim request.basis)),
    ("resolved_by", .str actor), ("version", .int version), ("updated_at", .int now)]

/-- `update_contradiction_set_on_connection`. -/
def updateContradictionSetOnConnection (codec : Codec) (actor id ns : String)
    (request : UpdateContradictionRequest) (now ledgerNow : Int) (db : Database) :
    Except String (ContradictionSet × Database) := do
  let current ← contradictionSetOnConnection id ns db
  ensure (current.version == request.expectedVersion) ("policy version conflict: expected " ++
    toString request.expectedVersion ++ ", current version is " ++ toString current.version)
  ensure (!((request.status == .preferred || request.status == .resolved) &&
    request.preferredMemoryId.isNone)) "preferred and resolved states require a preferred memory"
  ensure (request.preferredMemoryId.all fun preferred =>
      current.members.any fun member => member.memoryId == preferred)
    "preferred memory must be a contradiction-set member"
  let nextVersion := current.version + 1
  ensure (decide (nextVersion < 2 ^ 64)) "version overflow"
  ensure (decide (nextVersion < 2 ^ 63)) "out of range integral type conversion attempted"
  let db := db.updateRows "contradiction_sets"
    (fun r => r.col "id" = .str id ∧ r.col "namespace" = .str ns)
    fun r => r.setAll (settleColumns request actor nextVersion now)
  let payload := codec.recordToString (jsonObject [("contradiction_set_id", .str id),
    ("old_status", .str current.status.display), ("new_status", .str request.status.display),
    ("old_version", .int current.version), ("new_version", .int nextVersion),
    ("preferred_memory_id", Value.ofOption request.preferredMemoryId),
    ("basis", .str (trim request.basis))])
  let (_, db) ← appendMemoryLedger codec ns (request.preferredMemoryId.or
      (current.members.head?.map ContradictionMember.memoryId)) "contradiction_update" (some actor)
    payload ledgerNow db
  return (← contradictionSetOnConnection id ns db, db)

/-! ## The calls

An operator creates and updates sets in transactions; a detector and a purge go statement by
statement. Only the update changes the record beside the database. -/

inductive ContradictionStatement where
  | validate
  | create
  | update
  | detect (statement : EnsureStatement)
  | purge (statement : Statement)

/-- The database, and for each set the members it had when its status was last set. -/
abbrev ContradictionStore := Database × (String → List Int)

inductive ContradictionCall where
  | create (actor ns claimKey id : String) (request : CreateContradictionRequest)
      (now ledgerNow : Int)
  | update (actor id ns : String) (request : UpdateContradictionRequest) (now ledgerNow : Int)
  | ensure (proposedId : String) (now ledgerNow : Int) (ns realm : String)
      (project : Option String) (claimKey : String) (memoryIds : List Int)
  | deleteMemoryMeta (id : Int)

def ContradictionCall.body (codec : Codec) :
    ContradictionCall → Proc ContradictionStatement ContradictionStore String Unit
  | create actor ns claimKey id request now ledgerNow => do
      Proc.exec .validate fun s => do
        validateContradictionMembers request ns s.1
        return ((), s)
      Proc.exec .create fun s => do
        let (_, db) ← createContradictionSetOnConnection codec actor request ns claimKey id now
          ledgerNow s.1
        return ((), (db, s.2))
  | update actor id ns request now ledgerNow =>
      Proc.exec .update fun s => do
        let (_, db) ← updateContradictionSetOnConnection codec actor id ns request now ledgerNow s.1
        return ((), (db, fun x => if x = id then s.1.contradictionMembers id else s.2 x))
  | ensure proposedId now ledgerNow ns realm project claimKey memoryIds => do
      let _ ← (ensureGraphContradictionSet (fun e => e) codec proposedId now ledgerNow ns realm project claimKey
        memoryIds).onFst .detect (String → List Int)
  | deleteMemoryMeta id => (IronMem.deleteMemoryMeta id).onFst .purge (String → List Int)

/-- The status of a set that has been settled for a member. -/
def isSettled (r : Record) : Bool :=
  r.text "status" = some "preferred" ∨ r.text "status" = some "resolved"

/-- Every settled set prefers one of its members, and each of its members was there when it
was settled. -/
def ResolutionsStand (s : ContradictionStore) : Prop :=
  ∀ r ∈ s.1.table "contradiction_sets", isSettled r = true → ∃ id, r.col "id" = .str id ∧
    (∃ m ∈ s.1.contradictionMembers id, r.col "preferred_memory_id" = .int m) ∧
      ∀ m ∈ s.1.contradictionMembers id, m ∈ s.2 id

end IronMem
