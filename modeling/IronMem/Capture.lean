import IronMem.Schema

/-!
# Capture

`capture` reads everything a checkpoint holds of one project: the rows of the
captured tables in canonical order, the exact bytes they refer to, and the audit
evidence so far.

The bytes come from `load_blob`, which hashes what it has put together once more: a source
that is captured is one whose bytes have the hash they are named by. Rows are sorted by their
serialized form, so that equal tables are captured as equal lists whatever order SQLite has
returned the rows in.
-/

namespace IronMem

/-- One chunk of an object, re-hashed. -/
def loadChunk (codec : Codec) (db : Database) (hash chunk : String) : Except String Bytes := do
  ensure (db.ccrObjectChunks.contains (hash, chunk)) ("missing CCR chunk " ++ chunk)
  match db.ccrChunks[chunk]? with
  | none => throw ("missing CCR chunk " ++ chunk)
  | some c =>
      ensure (codec.digest c.original == chunk) "CCR chunk integrity mismatch"
      return c.original

/-- The bytes of a blob, put together as its format says. -/
def decodeBlob (codec : Codec) (db : Database) (hash : String) (b : Blob) : Except String Bytes :=
  match b.format with
  | .zstd => .ok b.original
  | .dictZstd dictHash => do
      ensure (db.ccrDicts.contains dictHash)
        ("CCR dictionary " ++ dictHash ++ " for blob " ++ hash ++ " not found")
      return b.original
  | .fastcdc chunks => do
      let parts ← chunks.mapM (loadChunk codec db hash)
      return parts.flatten

/-- `load_blob`: the original bytes, re-hashed. -/
def loadBlob (codec : Codec) (db : Database) (hash : String) : Except String Bytes :=
  match db.blobs[hash]? with
  | none => .error ("CCR blob not found: " ++ hash)
  | some b => do
      let original ← decodeBlob codec db hash b
      let actual := codec.digest original
      ensure (actual == hash) ("CCR blob integrity check failed for " ++ hash
          ++ ": decompressed bytes hash to " ++ actual)
      return original

namespace Database

/-- `SELECT rowid FROM memories WHERE project=$1`. -/
def memoryIds (db : Database) (project : String) : List Value :=
  ((db.table "memories").filter fun r => r.col "project" = .str project).map fun r =>
    r.col "rowid"

/-- `SELECT id FROM contradiction_sets WHERE project=$1`. -/
def contradictionSetIds (db : Database) (project : String) : List Value :=
  ((db.table "contradiction_sets").filter fun r => r.col "project" = .str project).map fun r =>
    r.col "id"

/-- `filter`: which rows of a table belong to the project. -/
def inProject (db : Database) (project name : String) (r : Record) : Bool :=
  match name with
  | "memory_meta" | "memory_evidence_roots" | "memory_influence_policy" | "memory_entities"
  | "memory_ledger" => r.col "memory_id" ∈ db.memoryIds project
  | "contradiction_members" => r.col "contradiction_set_id" ∈ db.contradictionSetIds project
  | _ => r.col "project" = .str project

section InProject

variable (db : Database) (project : String) (r : Record)

theorem inProject_memory_meta : db.inProject project "memory_meta" r
    = decide (r.col "memory_id" ∈ db.memoryIds project) := rfl

theorem inProject_memory_influence_policy : db.inProject project "memory_influence_policy" r
    = decide (r.col "memory_id" ∈ db.memoryIds project) := rfl

theorem inProject_contradiction_members : db.inProject project "contradiction_members" r
    = decide (r.col "contradiction_set_id" ∈ db.contradictionSetIds project) := rfl

theorem inProject_contradiction_sets : db.inProject project "contradiction_sets" r
    = decide (r.col "project" = .str project) := rfl

theorem inProject_assertion_events : db.inProject project "assertion_events" r
    = decide (r.col "project" = .str project) := rfl

end InProject

end Database

/-- `json_object('name', name, …)` of a row. -/
def rowObject (fields : List (String × String)) (r : Record) : Record :=
  fields.foldl (fun o (f, _) => o.set f (r.col f)) ∅

/-- The key of `memories` is called `id` in a checkpoint. -/
def portableMemory (r : Record) : Record :=
  let r : Record := r.erase "search_vector"
  match r["rowid"]? with
  | some id => Record.set (r.erase "rowid") "id" id
  | none => r

def memoryFields : List (String × String) :=
  [("id", "BIGINT"), ("project", "TEXT"), ("session_id", "TEXT"), ("summary", "TEXT"),
    ("tags", "TEXT"), ("created_at", "BIGINT")]

/-- One row as it is captured. -/
def captureRow (name : String) (r : Record) : Record :=
  if name = "memories" then
    portableMemory (rowObject (("rowid", "BIGINT") :: (schema name).columns) r)
  else rowObject (schema name).columns r

/-- `capture_table`. -/
def captureTable (codec : Codec) (db : Database) (project name : String) : Except String Table := do
  let columns := (schema name).columns
  ensure (!columns.isEmpty) ("missing checkpoint table " ++ name)
  let rows := ((db.table name).filter (db.inProject project name)).map (captureRow name)
  let fields ← (if name = "memories" then memoryFields else columns).mapM fun (f, kind) => do
    return (f, ← normalizedType kind)
  return { fields, rows := codec.sortRows rows }

/-- The columns that name a content hash. -/
def SOURCE_FIELDS : List (String × String) :=
  [("memory_meta", "session_blob"), ("observations", "output_blob"),
    ("memory_chunks", "source_hash")]

/-- The rows of a captured table. -/
def rowsOf (tables : BTreeMap Table) (name : String) : List Record :=
  ((tables[name]?).map Table.rows).getD []

/-- The content hashes the rows refer to. -/
def sourceHashes (tables : BTreeMap Table) : BTreeMap Unit :=
  SOURCE_FIELDS.foldl (fun acc (table, field) =>
    (rowsOf tables table).foldl (fun acc r =>
      match r.text field with
      | some hash => acc.insert hash ()
      | none => acc) acc) ∅

/-- The sets whose members are not all memories of their own project, counted by
the memberships. -/
def crossProjectMembers (db : Database) (project : String) : Nat :=
  let ids := db.memoryIds project
  ((db.table "contradiction_members").flatMap fun cm =>
    ((db.table "contradiction_sets").filter fun cs =>
      cs.col "id" = cm.col "contradiction_set_id" && !(cs.col "id").isNull).map fun cs =>
        (cm.col "memory_id", cs.col "project")).countP fun (memoryId, owner) =>
    (memoryId ∈ ids && owner != .str project) || (owner == .str project && memoryId ∉ ids)

/-- `dedup`: equal neighbours become one. -/
def dedupRows : List Record → List Record
  | a :: b :: rest => if a = b then dedupRows (b :: rest) else a :: dedupRows (b :: rest)
  | rows => rows

/-- The rows of `checkpoint_restore_events` as evidence, `ORDER BY id`. -/
def restoreEvidence (db : Database) (project : String) : List Record :=
  let events := (db.table "checkpoint_restore_events").filter fun r =>
    r.col "project" = .str project
  (events.insertionSort fun a b => (a.text "id").getD "" ≤ (b.text "id").getD "").map fun r =>
    jsonObject [("_evidence_table", .str "checkpoint_restore_events"), ("id", r.col "id"),
      ("snapshot_id", r.col "snapshot_id"), ("project", r.col "project"),
      ("state_hash", r.col "state_hash"), ("created_at", r.col "created_at")]

/-- The audit evidence of the project: its ledger rows, the evidence it was
restored with, its restore events. -/
def captureEvidence (codec : Codec) (db : Database) (project : String) :
    Except String (List Record) := do
  let ledger ← captureTable codec db project "memory_ledger"
  let entries := ledger.rows.map fun r => r.set "_evidence_table" (.str "memory_ledger")
  let saved ← ((db.table "checkpoint_audit_evidence").filter fun r =>
    r.col "project" = .str project).mapM fun r => codec.recordFromStr ((r.text "data").getD "")
  return dedupRows (codec.sortRows (entries ++ saved ++ restoreEvidence db project))

/-- `capture`. -/
def capture (codec : Codec) (db : Database) (project : String) (includeSources : Bool) :
    Except String State := do
  let tables ← TABLES.foldlM (fun (acc : BTreeMap Table) name => do
    return acc.insert name (← captureTable codec db project name)) ∅
  ensure (crossProjectMembers db project == 0)
    "project has cross-project contradiction sets; checkpoint requires an explicit shared-scope export"
  let hashes := (sourceHashes tables).keys.filter fun _ => includeSources
  let sources ← hashes.foldlM (fun (acc : BTreeMap String) hash => do
    return acc.insert hash (codec.base64Encode (← loadBlob codec db hash))) ∅
  let auditEvidence ← captureEvidence codec db project
  return { project, tables, sources, auditEvidence }

end IronMem
