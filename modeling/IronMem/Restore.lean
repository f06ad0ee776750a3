import IronMem.Remember
import IronMem.Snapshot

/-!
# Restore

`restore` replaces the rows of a project by those of a checkpoint, in one
transaction. Before anything is written the checkpoint's rows are merged with
the live authorization: governance per memory (`mergeMeta`), the record hash
over the result, the live influence policies. Everything else comes from the
checkpoint as it is.
-/

namespace IronMem

/-- The arguments of `restore`, the clock reading, the id drawn for the restore
event, and the next `AUTOINCREMENT` id of a table. -/
structure RestoreArgs where
  snapshotId : String
  dryRun : Bool := false
  now : Int
  eventId : String
  autoId : String → List Record → Int

/-- The columns of a captured table. -/
def fieldsOf (tables : BTreeMap Table) (name : String) : List (String × String) :=
  ((tables[name]?).map Table.fields).getD []

def setTableRows (tables : BTreeMap Table) (name : String) (rows : List Record) :
    BTreeMap Table :=
  tables.insert name ⟨fieldsOf tables name, rows⟩

/-! ## Merging with the live state -/

/-- The live assertions the checkpoint does not have are kept; the ones it has
must be the same. -/
def mergeAssertion (saved : List Record) (live : Record) : Except String (List Record) :=
  match saved.find? fun r => r.col "id" = live.col "id" with
  | some historical => do
      ensure (historical == live) "assertion immutable identity collision"
      return saved
  | none => .ok (saved ++ [live])

def mergeAssertions (codec : Codec) (current tables : BTreeMap Table) :
    Except String (BTreeMap Table) := do
  let saved := (tables[ASSERTIONS]?).getD ⟨fieldsOf current ASSERTIONS, []⟩
  let rows ← (rowsOf current ASSERTIONS).foldlM mergeAssertion saved.rows
  let merged : Table := { saved with rows := codec.sortRows rows }
  validateAssertions codec merged
  return tables.insert ASSERTIONS merged

/-- The position of a name in a list of names, lowest first. -/
def position (names : List String) (v : Value) : Option Nat :=
  v.asStr.bind fun s => names.idxOf? s

def TIERS : List String := ["untrusted", "low", "medium", "high"]

def CLASSES : List String := ["public", "internal", "confidential", "restricted"]

/-- An unknown trust tier ranks lowest. -/
def trustRank (v : Value) : Nat := (position TIERS v).getD 0

/-- The provenance of a memory cannot differ. -/
def sameProvenance (live row : Record) : Except String Unit :=
  ["namespace", "source_type", "writer_identity"].forM fun field =>
    ensure (live.col field == row.col field) ("current " ++ field
      ++ " differs from historical provenance; use a separate recovery database")

/-- Residency and retention cannot conflict, and the live one stays. -/
def mergePlacement (live row : Record) (field : String) : Except String Record := do
  ensure ((live.col field).isNull || (row.col field).isNull || live.col field == row.col field)
    ("incompatible current and historical " ++ field)
  return if (live.col field).isNull then row else row.set field (live.col field)

def mergeScope (live row : Record) : Record :=
  if live.col "scope" = .str "project" then row.set "scope" (.str "project") else row

def mergeTrust (live row : Record) : Record :=
  if trustRank (live.col "trust_tier") < trustRank (row.col "trust_tier") then
    row.set "trust_tier" (live.col "trust_tier")
  else row

/-- The higher classification stays; the ones outside the order must agree. -/
def mergeClassification (live row : Record) : Except String Record :=
  let old := row.col "classification"
  let new := live.col "classification"
  if old.asStr.getD "" = new.asStr.getD "" then .ok row
  else match position CLASSES old, position CLASSES new with
    | some a, some b => .ok (if a < b then row.set "classification" new else row)
    | _, _ => .error "incompatible sensitive-data classifications; review required"

def mergeConsent (live row : Record) : Record :=
  match live.text "consent_state" with
  | some "denied" | some "withdrawn" | some "required" =>
      row.set "consent_state" (live.col "consent_state")
  | _ => row

/-- The earlier expiry. -/
def mergeExpiry (live row : Record) : Record :=
  row.set "expires_at" (Value.ofOption (match row.i64 "expires_at", live.i64 "expires_at" with
    | some a, some b => some (min a b)
    | some a, none => some a
    | none, b => b))

def mergeHold (live row : Record) : Record :=
  if live.i64 "legal_hold" = some 1 then row.set "legal_hold" (.int 1) else row

def mergeTombstone (live row : Record) : Record :=
  if (live.col "tombstoned_at").isNull then row
  else (row.set "tombstoned_at" (live.col "tombstoned_at")).set "tombstone_reason"
    (live.col "tombstone_reason")

/-- A checkpoint row under the live row of the same memory. -/
def mergeLive (live row : Record) : Except String Record := do
  sameProvenance live row
  let row ← mergePlacement live row "residency"
  let row ← mergePlacement live row "retention_policy_id"
  let row ← mergeClassification live (mergeTrust live (mergeScope live row))
  return mergeTombstone live (mergeHold live (mergeExpiry live (mergeConsent live row)))

/-- Whether a memory that is not live has been known here before. -/
def knownBefore (db : Database) (snapshotId : String) (id : Int) : Bool :=
  (db.table "memory_ledger").any (fun r => r.col "memory_id" = .int id) ||
    db.brainSnapshots.any fun s => s.id = snapshotId

/-- A checkpoint row without a live counterpart: tombstoned if the memory was
known here before. -/
def mergeAbsent (db : Database) (args : RestoreArgs) (row : Record) : Except String Record :=
  match row.i64 "memory_id" with
  | none => .error "invalid memory identity"
  | some id =>
      .ok (if knownBefore db args.snapshotId id then
        (row.set "tombstoned_at" (.int args.now)).set "tombstone_reason"
          (.str "Historical memory restored after removal; review required")
      else row)

/-- The live metadata row of the memory a checkpoint row is about. -/
def liveMeta (current : BTreeMap Table) (row : Record) : Option Record :=
  (rowsOf current "memory_meta").find? fun r => r.col "memory_id" = row.col "memory_id"

def mergeMeta (db : Database) (args : RestoreArgs) (current : BTreeMap Table) (row : Record) :
    Except String Record :=
  match liveMeta current row with
  | some live => mergeLive live row
  | none => mergeAbsent db args row

/-! ## The record hash -/

/-- `serde_json::from_value` of a string field. -/
def strField (r : Record) (field : String) : Except String String :=
  match r.text field with
  | some s => .ok s
  | none => .error ("invalid type: " ++ field)

def optStrField (r : Record) (field : String) : Except String (Option String) :=
  match r.col field with
  | .null => .ok none
  | .str s => .ok (some s)
  | _ => .error ("invalid type: " ++ field)

def intField (r : Record) (field : String) : Except String Int :=
  match r.i64 field with
  | some n => .ok n
  | none => .error ("invalid type: " ++ field)

def optIntField (r : Record) (field : String) : Except String (Option Int) :=
  if (r.col field).isNull then .ok none else (intField r field).map some

def enumField {α : Type} (fromName : String → Option α) (r : Record) (field : String) :
    Except String α :=
  match (r.text field).bind fromName with
  | some a => .ok a
  | none => .error ("unknown variant: " ++ field)

def optEnumField {α : Type} (fromName : String → Option α) (r : Record) (field : String) :
    Except String (Option α) :=
  if (r.col field).isNull then .ok none else (enumField fromName r field).map some

/-- A row of a checkpoint as a `Memory`. -/
def readMemory (r : Record) : Except String Memory := do
  return {
    id := ← intField r "id"
    project := ← strField r "project"
    sessionId := ← strField r "session_id"
    summary := ← strField r "summary"
    tags := ← optStrField r "tags"
    createdAt := ← intField r "created_at" }

/-- A row of metadata as a `MemoryGovernance`. -/
def readGovernance (r : Record) : Except String MemoryGovernance := do
  return {
    «namespace» := ← strField r "namespace"
    sourceType := ← enumField sourceTypeFromName r "source_type"
    trustTier := ← enumField trustTierFromName r "trust_tier"
    writerIdentity := ← optStrField r "writer_identity"
    sourceRef := ← optStrField r "source_ref"
    parentMemoryId := ← optIntField r "parent_memory_id"
    classification := ← enumField classificationFromName r "classification"
    consentState := ← optEnumField consentStateFromName r "consent_state"
    residency := ← optStrField r "residency"
    retentionPolicyId := ← optStrField r "retention_policy_id"
    expiresAt := ← optIntField r "expires_at"
    legalHold := r.i64 "legal_hold" = some 1 }

/-- The record hash over the merged row and the memory it governs. -/
def rehash (codec : Codec) (memories : List Record) (row : Record) : Except String Record := do
  let memory ← match memories.find? fun m => m.col "id" = row.col "memory_id" with
    | some m => readMemory m
    | none => .error "missing governed memory"
  let governance ← readGovernance row
  return row.set "record_hash" (.str (memoryRecordHash codec memory.project memory.sessionId
    memory.summary memory.tags ((row.text "scope").getD "project")
    ((row.text "kind").getD "session") governance))

/-! ## Live policies -/

/-- One live policy over the checkpoint's: in place of the one for the same
memory, else added. -/
def overlayPolicy (memories : List Record) (rows : List Record) (policy : Record) : List Record :=
  if memories.any fun m => m.col "id" = policy.col "memory_id" then
    match rows.findIdx? fun r => r.col "memory_id" = policy.col "memory_id" with
    | some i => rows.set i policy
    | none => rows ++ [policy]
  else rows

/-! ## Before writing -/

/-- The captured columns of every table are those of the checkpoint. -/
def sameSchema (current tables : BTreeMap Table) : Except String Unit :=
  TABLES.forM fun name =>
    if name = ASSERTIONS ∧ !tables.contains name then .ok ()
    else ensure (fieldsOf current name == fieldsOf tables name)
      ("checkpoint schema differs for " ++ name)

/-- `CAST(column AS TEXT)`, and the text an `id` is compared as. -/
def idText : Value → String
  | .null => "null"
  | .bool b => if b then "true" else "false"
  | .int n => toString n
  | .real text | .nested text => text
  | .str s => s

/-- No row's id belongs to another project. -/
def noCollision (db : Database) (project : String) (tables : BTreeMap Table) :
    Except String Unit :=
  TABLES.forM fun name => ensure ((rowsOf tables name).all fun row =>
    match row["id"]? with
    | none => true
    | some id =>
        let column := if name = "memories" then "rowid" else "id"
        !(db.table name).any fun r => !(r.col column).isNull && idText (r.col column) == idText id
          && !(r.col "project").isNull && r.col "project" != .str project)
    ("checkpoint identity collision in " ++ name ++ "; use a separate database")

/-- The rows that will replace the project's: everything up to the dry run. -/
def prepareRestore (codec : Codec) (args : RestoreArgs) (state : State) (db : Database) :
    Except String (BTreeMap Table) := do
  validate codec state
  let current := (← capture codec db state.project false).tables
  sameSchema current state.tables
  let tables ← mergeAssertions codec current state.tables
  let rows ← (rowsOf tables "memory_meta").mapM (mergeMeta db args current)
  let rows ← rows.mapM (rehash codec (rowsOf tables "memories"))
  let policies := (rowsOf current "memory_influence_policy").foldl
    (overlayPolicy (rowsOf tables "memories")) (rowsOf tables "memory_influence_policy")
  let tables := setTableRows (setTableRows tables "memory_meta" rows)
    "memory_influence_policy" policies
  noCollision db state.project tables
  return tables

/-! ## Writing -/

/-- What a foreign key says about a row of the parent table going. -/
def refersTo (ref : Reference) (gone : List Record) (r : Record) : Bool :=
  gone.any fun g => !(r.col ref.column).isNull && g.col ref.parentColumn == r.col ref.column

/-- The foreign keys that refer to a table, with the tables that have them. -/
def referrers (name : String) : List (String × Reference) :=
  TABLES.flatMap fun child =>
    ((schema child).references.filter fun ref => ref.parent = name).map fun ref => (child, ref)

/-- One foreign key when rows of its parent table go: its rows go too, or block. -/
def followReference (gone : List Record) (db : Database) (referrer : String × Reference) :
    Except String Database :=
  if referrer.2.cascade then .ok (db.deleteRows referrer.1 (refersTo referrer.2 gone))
  else do
    ensure (!(db.table referrer.1).any (refersTo referrer.2 gone)) "FOREIGN KEY constraint failed"
    return db

/-- `DELETE FROM name WHERE …`. -/
def deleteCascade (name : String) (p : Record → Bool) (db : Database) : Except String Database :=
  (referrers name).foldlM (followReference ((db.table name).filter p)) (db.deleteRows name p)

/-- Children before their parents. -/
def deleteProject (project : String) (db : Database) : Except String Database :=
  TABLES.reverse.foldlM (fun (db : Database) name =>
    deleteCascade name (db.inProject project name) db) db

/-- The key of `memories` is its rowid. -/
def columnOf (name f : String) : String := if name = "memories" ∧ f = "id" then "rowid" else f

/-- The row an `INSERT` of a checkpoint row writes. -/
def castRow (codec : Codec) (name : String) (fields : List (String × String)) (row : Record) :
    Except String Record :=
  fields.foldlM (fun (r : Record) (f, kind) => do
    return r.set (columnOf name f) (← castTo codec kind (row.col f))) ∅

/-- A `NULL` in an `AUTOINCREMENT` key is filled in. -/
def assignId (args : RestoreArgs) (name : String) (rows : List Record) (r : Record) : Record :=
  if (schema name).autoIncrement && (r.col "id").isNull then
    r.set "id" (.int (args.autoId name rows))
  else r

/-- The constraints of a table on a new row. -/
def checkRow (db : Database) (name : String) (r : Record) : Except String Unit := do
  ensure ((schema name).notNull.all fun f => !(r.col f).isNull) "NOT NULL constraint failed"
  ensure ((schema name).unique.all fun parts => (db.table name).all fun old =>
    !collides parts old r) "UNIQUE constraint failed"
  ensure ((schema name).references.all fun ref => (r.col ref.column).isNull ||
    (db.table ref.parent).any fun g => g.col ref.parentColumn == r.col ref.column)
    "FOREIGN KEY constraint failed"

/-- `insert_record`. -/
def insertRecord (codec : Codec) (args : RestoreArgs) (name : String)
    (fields : List (String × String)) (db : Database) (row : Record) : Except String Database := do
  let r := assignId args name (db.table name) (← castRow codec name fields row)
  checkRow db name r
  return db.insertRow name r

def insertTables (codec : Codec) (args : RestoreArgs) (tables : BTreeMap Table) (db : Database) :
    Except String Database :=
  TABLES.foldlM (fun (db : Database) name =>
    (rowsOf tables name).foldlM (insertRecord codec args name (fieldsOf tables name)) db) db

/-- The source bytes: inserted uncounted, or rewritten in place. Whatever chunks the
object was made of before are not its any more. -/
def upsertSource (codec : Codec) (db : Database) (source : String × String) :
    Except String Database := do
  let original ← codec.base64Decode source.2
  let refcount := match db.blobs[source.1]? with
    | some b => b.refcount
    | none => 0
  let blob : Blob := { original, compLen := codec.compressedLen original, refcount }
  return { db with
    blobs := db.blobs.insert source.1 blob
    ccrObjectChunks := db.ccrObjectChunks.filter fun (object, _) => object != source.1 }

/-- One record of audit evidence, `ON CONFLICT(project,evidence_hash) DO
NOTHING`. -/
def insertEvidence (codec : Codec) (project : String) (db : Database) (record : Record) :
    Database :=
  let data := codec.recordToString record
  let hash := codec.digest (utf8 data)
  if (db.table "checkpoint_audit_evidence").any fun r =>
      r.col "project" = .str project ∧ r.col "evidence_hash" = .str hash then db
  else db.insertRow "checkpoint_audit_evidence" (jsonObject [
    ("project", .str project), ("evidence_hash", .str hash), ("data", .str data)])

/-- The high-water mark covers every id there is. -/
def raiseHighwater (db : Database) : Database :=
  let stored := max (maxColumn (db.table "memories") "rowid")
    (maxColumn (db.table "memory_meta") "memory_id")
  { db with identityHighwater := max db.identityHighwater stored }

/-- Everything after the dry run. -/
def writeRestore (codec : Codec) (args : RestoreArgs) (state : State) (tables : BTreeMap Table)
    (db : Database) : Except String Database := do
  let db ← deleteProject state.project (raiseHighwater db)
  let db ← state.sources.toList.foldlM (upsertSource codec) db
  let db ← insertTables codec args tables db
  let db := state.auditEvidence.foldl (insertEvidence codec state.project) db
  ensure (!(db.table "checkpoint_restore_events").any fun r => r.col "id" = .str args.eventId)
    "UNIQUE constraint failed: checkpoint_restore_events.id"
  return db.insertRow "checkpoint_restore_events" (jsonObject [
    ("id", .str args.eventId), ("snapshot_id", .str args.snapshotId),
    ("project", .str state.project),
    ("state_hash", .str (codec.stateHash { state with tables })), ("created_at", .int args.now)])

structure RestoreCounts where
  memories : Nat := 0
  edges : Nat := 0
  policies : Nat := 0
  contradictions : Nat := 0
deriving DecidableEq

/-- `restore`. -/
def restore (codec : Codec) (args : RestoreArgs) (state : State) (db : Database) :
    Except String (RestoreCounts × Database) := do
  let tables ← prepareRestore codec args state db
  if args.dryRun then return ({}, db)
  let db ← writeRestore codec args state tables db
  return ({
    memories := (rowsOf tables "memories").length
    edges := (rowsOf tables "memory_edges").length
    policies := (rowsOf tables "memory_influence_policy").length
    contradictions := (rowsOf tables "contradiction_sets").length }, db)

/-- `import` of an envelope read from a file. -/
def importCheckpoint (codec : Codec) (args : RestoreArgs) (e : Envelope) (db : Database) :
    Except String (Nat × Database) := do
  ensure (e.version == 5 && e.depth == 0 && e.parent.isNone && e.delta.isNone)
    "export must be a full independent checkpoint"
  let state ← match e.full with
    | some state => .ok state
    | none => .error "missing exported state"
  ensure (state.project == e.project && codec.stateHash state == e.stateHash)
    "export integrity mismatch"
  let (counts, db) ← restore codec { args with snapshotId := "import" } state db
  return (counts.memories, db)

end IronMem
