import IronMem.Lib.GuardedRuns
import IronMem.Restore

/-!
# Graph edges

`insert_memory_edge` and its reconciliation: the row, the contradiction sets the new
edge gives rise to, and two updates that mark other active edges superseded. Every
statement commits on its own.

The calls are processes (`EdgeProc`), so that the same definition is run in turn, with
failing statements and interleaved with others. What a call draws from outside is in the
`EdgeCall`: the clock, the id the table gives, the proposed id of a contradiction set.
Normal forms go through the Unicode tables of the standard library (`Unicode`), of which
each result names what it needs.
-/

namespace IronMem

/-! ## Normal forms -/

/-- What the standard library takes from the Unicode tables. -/
structure Unicode where
  isAlphanumeric : Char → Bool
  toLowercase : String → String

/-- ASCII letters and digits only. -/
def asciiUnicode : Unicode := ⟨Char.isAlphanum, toAsciiLowercase⟩

/-- `normalize_graph_text`. -/
def normalizeGraphText (u : Unicode) (value : String) : String :=
  String.intercalate " " (((value.toList.splitOnP fun c => !u.isAlphanumeric c).filter fun t =>
    !t.isEmpty).map fun t => u.toLowercase (String.ofList t))

/-- `normalize_relation`. -/
def normalizeRelation (u : Unicode) (value : String) : String :=
  String.ofList ((normalizeGraphText u value).toList.map fun c => if c = ' ' then '_' else c)

def isCurrentStateRelation (relationNorm : String) : Bool :=
  "current_".toList.isPrefixOf relationNorm.toList || relationNorm ∈ ["is", "status", "state",
    "role", "location", "works_at", "lives_at", "assigned_to", "owner", "primary"]

inductive ClaimCardinality where
  | single
  | set
  | ordered
  | custom
deriving DecidableEq

def relationCardinality (relation : String) : Option ClaimCardinality :=
  let r := toAsciiLowercase (trim relation)
  if r ∈ ["auth_mode", "authentication_mode", "deployment_target", "status", "version"] then
    some .single
  else if r ∈ ["depends_on", "member_of", "supports", "tagged", "uses"] then some .set
  else none

def MAX_CLAIM_KEY_BYTES : Nat := 160

/-- One character of `canonical_claim_key`: the key so far, and whether it ends in a
separator. -/
def claimKeyChar (acc : List Char × Bool) (c : Char) : Except String (List Char × Bool) :=
  if c.isAlphanum then .ok (acc.1 ++ [lowerAscii c], false)
  else if c ∈ ['.', '_', '-', ' ', ':', '/'] ∧ acc.2 = false ∧ acc.1 ≠ [] then
    .ok (acc.1 ++ ['.'], true)
  else if isControl c then .error "claim key contains a control character"
  else .ok acc

/-- `canonical_claim_key`. -/
def canonicalClaimKey (value : String) : Except String String := do
  let (chars, _) ← (trimChars value.toList).foldlM claimKeyChar ([], false)
  let result := String.ofList (chars.reverse.dropWhile (· == '.')).reverse
  ensure (!result.isEmpty && decide (byteLen result ≤ MAX_CLAIM_KEY_BYTES))
    ("claim key must contain 1 to " ++ toString MAX_CLAIM_KEY_BYTES ++ " bytes")
  return result

/-! ## Rows -/

/-- What is asked for. The confidence is the clamped one, as it is stored. -/
structure NewMemoryEdge where
  project : String
  memoryId : Int
  source : String
  relation : String
  target : String
  validFrom : Option String := none
  validUntil : Option String := none
  confidence : String := "1.0"

/-- What a call draws from outside: the clock, the id the table gives, and the id and
the clock readings of a contradiction set. -/
structure EdgeCall where
  edge : NewMemoryEdge
  now : Int
  autoId : List Record → Int
  setId : String
  setNow : Int
  ledgerNow : Int

/-- The edges of one source and relation. -/
structure EdgeKey where
  project : String
  sourceNorm : String
  relationNorm : String
deriving DecidableEq

/-- The row of a new edge. -/
def EdgeCall.newRow (c : EdgeCall) (key : EdgeKey) (targetNorm : String) (id : Int) : Record :=
  jsonObject [("id", .int id), ("project", .str key.project), ("memory_id", .int c.edge.memoryId),
    ("source", .str (trim c.edge.source)), ("source_norm", .str key.sourceNorm),
    ("relation", .str (trim c.edge.relation)), ("relation_norm", .str key.relationNorm),
    ("target", .str (trim c.edge.target)), ("target_norm", .str targetNorm),
    ("valid_from", Value.ofOptionStr c.edge.validFrom),
    ("valid_until", Value.ofOptionStr c.edge.validUntil), ("observed_at", .int c.now),
    ("confidence", .real c.edge.confidence), ("superseded_by", .null),
    ("superseded_reason", .null), ("created_at", .int c.now)]

/-- `INSERT`, under the constraints of the table. -/
def insertChecked (name : String) (r : Record) (db : Database) : Except String Database := do
  checkRow db name r
  return db.insertRow name r

/-- `INSERT … ON CONFLICT DO NOTHING`, with the number of rows. -/
def insertOrIgnore (name : String) (r : Record) (db : Database) :
    Except String (Nat × Database) :=
  if (schema name).unique.any fun parts => (db.table name).any fun old => collides parts old r then
    .ok (0, db)
  else do
    let db ← insertChecked name r db
    return (1, db)

/-- Why an edge is superseded. -/
inductive SupersededReason where
  | duplicate (validFrom : Option String)
  | currentStateUpdate (closesAt : String)
deriving DecidableEq

/-- One of the two updates of `reconcile_inserted_memory_edge`. -/
structure EdgeUpdate where
  newId : Int
  key : EdgeKey
  targetNorm : String
  reason : SupersededReason
deriving DecidableEq

/-- The row is one of this source and relation. -/
def EdgeKey.has (key : EdgeKey) (r : Record) : Bool :=
  r.col "project" == .str key.project && r.col "source_norm" == .str key.sourceNorm
    && r.col "relation_norm" == .str key.relationNorm

/-- `COALESCE(valid_from, '')`. -/
def coalesced (v : Value) : Value := if v.isNull then .str "" else v

/-- The `WHERE` of the update. -/
def EdgeUpdate.selects (u : EdgeUpdate) (r : Record) : Bool :=
  u.key.has r && (match u.reason with
      | .duplicate validFrom => r.col "target_norm" == .str u.targetNorm
          && coalesced (r.col "valid_from") == coalesced (Value.ofOptionStr validFrom)
      | .currentStateUpdate _ => !(r.col "target_norm").isNull
          && r.col "target_norm" != .str u.targetNorm)
    && r.col "id" != .int u.newId && (r.col "superseded_by").isNull

/-- The columns of an edge that is superseded by another. -/
def SupersededReason.mark (reason : SupersededReason) (winner : Int) (r : Record) : Record :=
  let r := r.set "superseded_by" (.int winner)
  match reason with
  | .duplicate _ => r.set "superseded_reason" (.str "duplicate")
  | .currentStateUpdate closesAt =>
      (r.set "superseded_reason" (.str "current_state_update")).set "valid_until"
        (if (r.col "valid_until").isNull then .str closesAt else r.col "valid_until")

/-- The `SET` of the update. -/
def EdgeUpdate.set (u : EdgeUpdate) (r : Record) : Record := u.reason.mark u.newId r

def EdgeUpdate.apply (u : EdgeUpdate) (db : Database) : Database :=
  db.updateRows "memory_edges" u.selects u.set

/-! ## The call -/

/-- The statements of the call. -/
inductive EdgeStatement where
  | insert
  | lastInsertRowid
  | detect
  | supersede (update : EdgeUpdate)
  | curate (edgeId : Int)
  | deleteOf (memoryId : Int)
  | reconcile

abbrev EdgeProc := Proc EdgeStatement Database String

/-- The statements of `ensure_graph_contradiction_set`, with the id it has proposed and the
number of members it has inserted. -/
inductive EnsureStatement where
  | create
  | find
  | member (setId proposedId : String) (inserted : Nat) (memoryId : Int)
  | reopen (setId proposedId : String)
  | ledger

/-- The members of a set, one by one, with the number of new ones. -/
def insertMembers {ℓ : Type} (label : EnsureStatement → ℓ) (setId proposedId : String) (now : Int) :
    Nat → List Int → Proc ℓ Database String Nat
  | inserted, [] => pure inserted
  | inserted, id :: ids => do
      let n ← Proc.exec (label (.member setId proposedId inserted id))
        (insertOrIgnore "contradiction_members" (jsonObject [
          ("contradiction_set_id", .str setId), ("memory_id", .int id),
          ("stance", .str "competing"), ("created_at", .int now)]))
      insertMembers label setId proposedId now (inserted + n) ids

/-- The set is reopened, unless the call has just created it. -/
def reopenContradictionSet (setId proposedId : String) (now : Int) (db : Database) : Database :=
  db.updateRows "contradiction_sets"
    (fun r => r.col "id" = .str setId ∧ r.col "id" ≠ .str proposedId) fun r =>
      ((((((r.set "status" (.str "unresolved")).set "preferred_memory_id" .null).set
        "resolution_basis" .null).set "resolved_by" .null).set "version"
        (.int ((r.integer "version").getD 0 + 1))).set "updated_at" (.int now))

/-- `ensure_graph_contradiction_set`, with the id it proposes and its clock readings. -/
def ensureGraphContradictionSet {ℓ : Type} (label : EnsureStatement → ℓ) (codec : Codec)
    (proposedId : String) (now ledgerNow : Int) (ns realm : String) (project : Option String)
    (claimKey : String) (memoryIds : List Int) : Proc ℓ Database String String := do
  let ns := normalizeNamespace ns
  let _ ← Proc.exec (label .create) (insertOrIgnore "contradiction_sets" (jsonObject [
    ("id", .str proposedId), ("namespace", .str ns), ("realm", .str realm),
    ("project", Value.ofOptionStr project), ("claim_key", .str claimKey),
    ("claim_schema_version", .int 1), ("cardinality", .str "single"),
    ("status", .str "unresolved"), ("version", .int 1), ("created_at", .int now),
    ("updated_at", .int now)]))
  let found ← Proc.query (label .find) fun db => (db.table "contradiction_sets").find? fun r =>
    r.col "namespace" = .str ns ∧ r.col "realm" = .str realm ∧
      coalesced (r.col "project") = coalesced (Value.ofOptionStr project) ∧
      r.col "claim_key" = .str claimKey
  match found.bind fun r => r.text "id" with
  | none => Proc.fail "no rows returned"
  | some id =>
      let inserted ← insertMembers label id proposedId now 0 memoryIds
      if inserted = 0 then return id
      Proc.exec (label (.reopen id proposedId)) fun db =>
        .ok ((), reopenContradictionSet id proposedId now db)
      let payload := codec.recordToString (jsonObject [("contradiction_set_id", .str id),
        ("claim_key", .str claimKey),
        ("member_ids", .nested ("[" ++ ",".intercalate (memoryIds.map toString) ++ "]")),
        ("detector", .str "graph_reconciliation_v1")])
      let _ ← Proc.exec (label .ledger) (appendMemoryLedger codec ns memoryIds.head?
        "contradiction_detected" (some "ironmem:graph-reconciler") payload ledgerNow)
      return id

/-- The memories whose active edges of this source and relation have another target. -/
def competingMemories (db : Database) (key : EdgeKey) (targetNorm ns scope : String) : List Int :=
  ((db.table "memory_edges").filter fun r => key.has r
      && !(r.col "target_norm").isNull && r.col "target_norm" != .str targetNorm
      && (r.col "superseded_by").isNull
      && (db.table "memory_meta").any fun m => m.col "memory_id" == r.col "memory_id"
        && m.col "namespace" == .str ns && m.col "scope" == .str scope).filterMap fun r =>
    r.integer "memory_id"

/-- `detect_graph_contradiction`. -/
def detectGraphContradiction (codec : Codec) (c : EdgeCall) (key : EdgeKey) (targetNorm : String) :
    EdgeProc Unit := do
  if relationCardinality key.relationNorm ≠ some .single ∨ c.edge.validUntil.isSome then return
  let owner ← Proc.query .detect fun db => (db.table "memory_meta").find? fun m =>
    m.col "memory_id" = .int c.edge.memoryId
  match owner with
  | none => return
  | some owner =>
      let ns := (owner.text "namespace").getD ""
      let scope := (owner.text "scope").getD ""
      let rows ← Proc.query .detect fun db => competingMemories db key targetNorm ns scope
      if rows.isEmpty then return
      -- a `BTreeSet`: sorted, every id once
      let memoryIds := ((c.edge.memoryId :: rows).dedup).insertionSort (· ≤ ·)
      let claimKey ← Proc.lift (canonicalClaimKey (key.sourceNorm ++ "." ++ key.relationNorm))
      let (realm, project) :=
        if scope = "user" then ("user", none) else ("project", some c.edge.project)
      let _ ← ensureGraphContradictionSet (fun _ => .detect) codec c.setId c.setNow c.ledgerNow ns
        realm project claimKey memoryIds

/-- `reconcile_inserted_memory_edge`. -/
def reconcileInsertedMemoryEdge (codec : Codec) (c : EdgeCall) (newId : Int) (key : EdgeKey)
    (targetNorm : String) : EdgeProc Unit := do
  detectGraphContradiction codec c key targetNorm
  let duplicates : EdgeUpdate := ⟨newId, key, targetNorm, .duplicate c.edge.validFrom⟩
  Proc.exec (.supersede duplicates) fun db => .ok ((), duplicates.apply db)
  if c.edge.validUntil.isNone && isCurrentStateRelation key.relationNorm then
    let others : EdgeUpdate := ⟨newId, key, targetNorm,
      .currentStateUpdate (c.edge.validFrom.getD (toString c.now))⟩
    Proc.exec (.supersede others) fun db => .ok ((), others.apply db)

/-- The key of the edge a call inserts. -/
def EdgeCall.key (u : Unicode) (c : EdgeCall) : EdgeKey :=
  ⟨c.edge.project, normalizeGraphText u c.edge.source, normalizeRelation u c.edge.relation⟩

/-- The statement that inserts the row of a call. -/
def EdgeCall.insertRow (c : EdgeCall) (key : EdgeKey) (targetNorm : String) (db : Database) :
    Except String (Int × Database) := do
  let id := c.autoId (db.table "memory_edges")
  let db ← insertChecked "memory_edges" (c.newRow key targetNorm id) db
  return (id, db)

/-- `insert_memory_edge`. -/
def insertMemoryEdge (codec : Codec) (u : Unicode) (c : EdgeCall) : EdgeProc Int := do
  let key := c.key u
  let targetNorm := normalizeGraphText u c.edge.target
  if key.sourceNorm.isEmpty || key.relationNorm.isEmpty || targetNorm.isEmpty then
    Proc.fail "memory edge source, relation, and target must not be empty"
  else
    let inserted ← Proc.exec .insert (c.insertRow key targetNorm)
    -- `last_insert_rowid` belongs to the connection of the insertion
    let id ← Proc.query .lastInsertRowid fun _ => inserted
    reconcileInsertedMemoryEdge codec c id key targetNorm
    return id

def EdgeCall.body (codec : Codec) (u : Unicode) (c : EdgeCall) : EdgeProc Unit := do
  let _ ← insertMemoryEdge codec u c

end IronMem
