import IronMem.Checkpoint
import IronMem.Governance

/-!
# The database

The tables the modelled code reads and writes, in the SQLite layout. Tables a
checkpoint captures are lists of `Record`s under their SQL names, so that
capture, restore and the SQL of `db.rs` work on one representation; the FTS
table `memories` carries its key as the column `rowid`. A blob is kept by its
original bytes and the format they are stored in: compression is lossless and left
out, but `load_blob` needs the dictionary or the chunks the format names.

Every function on a `Database` below is one SQL statement, or one read. A column that
is `NULL`, absent from a row or of another type reads as the query's fallback, which
the views of a row (`Memory.ofRow`, `MemoryMetaInfo.ofRow`) repeat field by field. Row
lists have an order, since some queries take the first row, but no statement promises
one unless it sorts.
-/

namespace IronMem

/-! ## Rows of the typed tables -/

/-- How a blob is stored: compressed, compressed under a dictionary, or as a manifest
of chunks. -/
inductive BlobFormat where
  | zstd
  | dictZstd (dictHash : String)
  | fastcdc (chunks : List String)
deriving DecidableEq

/-- A row of `blobs`. -/
structure Blob where
  original : Bytes
  compLen : Int
  refcount : Int
  format : BlobFormat := .zstd
deriving DecidableEq

/-- A row of `ccr_chunks`. -/
structure Chunk where
  original : Bytes
  compLen : Int
deriving DecidableEq

/-- A row of `brain_snapshots`. -/
structure BrainSnapshot where
  id : String
  label : Option String
  project : Option String
  memoryCount : Nat
  edgeCount : Nat
  blobHash : String
  createdAt : Int
deriving DecidableEq

/-- A row of `influence_replay_nonces`. -/
structure NonceRow where
  tokenKind : String
  issuer : String
  nonce : String
  requestId : String
  expiresAt : Int
  consumedAt : Int
deriving DecidableEq, Repr

/-- The primary key of `influence_replay_nonces`. -/
def NonceRow.key (r : NonceRow) : String × String × String := (r.tokenKind, r.issuer, r.nonce)

structure Database where
  table : String → List Record := fun _ => []
  blobs : BTreeMap Blob := ∅
  ccrDicts : List String := []
  ccrChunks : BTreeMap Chunk := ∅
  ccrObjectChunks : List (String × String) := []
  brainSnapshots : List BrainSnapshot := []
  checkpointHeads : BTreeMap String := ∅
  checkpointDependencies : List (String × String) := []
  checkpointObjects : List String := []
  influenceReplayNonces : List NonceRow := []
  identityHighwater : Int := 0

namespace Database

/-! ## Statements on a table of records -/

def setRows (db : Database) (name : String) (rows : List Record) : Database :=
  { db with table := fun n => if n = name then rows else db.table n }

/-- `INSERT`. -/
def insertRow (db : Database) (name : String) (row : Record) : Database :=
  db.setRows name (db.table name ++ [row])

/-- `UPDATE … SET … WHERE …`. -/
def updateRows (db : Database) (name : String) (p : Record → Bool) (f : Record → Record) :
    Database :=
  db.setRows name ((db.table name).map fun r => if p r then f r else r)

/-- `DELETE FROM … WHERE …`. -/
def deleteRows (db : Database) (name : String) (p : Record → Bool) : Database :=
  db.setRows name ((db.table name).filter fun r => !p r)

section Frame

variable (db : Database) (name : String)

@[simp] theorem table_setRows (rows : List Record) (n : String) :
    (db.setRows name rows).table n = if n = name then rows else db.table n := rfl

@[simp] theorem table_insertRow (row : Record) (n : String) :
    (db.insertRow name row).table n
      = if n = name then db.table name ++ [row] else db.table n := rfl

@[simp] theorem table_updateRows (p : Record → Bool) (f : Record → Record) (n : String) :
    (db.updateRows name p f).table n
      = if n = name then (db.table name).map fun r => if p r then f r else r
        else db.table n := rfl

@[simp] theorem table_deleteRows (p : Record → Bool) (n : String) :
    (db.deleteRows name p).table n
      = if n = name then (db.table name).filter fun r => !p r else db.table n := rfl

@[simp] theorem blobs_setRows (rows : List Record) : (db.setRows name rows).blobs = db.blobs := rfl

@[simp] theorem blobs_insertRow (row : Record) : (db.insertRow name row).blobs = db.blobs := rfl

@[simp] theorem blobs_updateRows (p : Record → Bool) (f : Record → Record) :
    (db.updateRows name p f).blobs = db.blobs := rfl

@[simp] theorem blobs_deleteRows (p : Record → Bool) :
    (db.deleteRows name p).blobs = db.blobs := rfl

end Frame

end Database

/-! ## Columns as typed values -/

namespace Record

/-- `try_get::<i64>`. -/
def i64 (r : Record) (field : String) : Option Int := (r.col field).asI64

/-- `try_get::<Option<String>>`, flattened. -/
def text (r : Record) (field : String) : Option String := (r.col field).asStr

end Record

/-! ## Memories and their metadata -/

structure Memory where
  id : Int
  project : String
  sessionId : String
  summary : String
  tags : Option String
  createdAt : Int
deriving DecidableEq, Repr

/-- A row of `memories` as the queries return it. -/
def Memory.ofRow (r : Record) : Memory where
  id := (r.i64 "rowid").getD 0
  project := (r.text "project").getD ""
  sessionId := (r.text "session_id").getD ""
  summary := (r.text "summary").getD ""
  tags := r.text "tags"
  createdAt := (r.i64 "created_at").getD 0

/-- `get_memory_meta_full`'s view of a row. `importance` is the decimal text of
the number. -/
structure MemoryMetaInfo where
  importance : String := "0.5"
  scope : String := "project"
  kind : String := "session"
  eventTime : Option String := none
  «namespace» : String := DEFAULT_NAMESPACE
  sourceType : String := "derived"
  trustTier : String := "medium"
  writerIdentity : Option String := none
  sourceRef : Option String := none
  parentMemoryId : Option Int := none
  evidenceRootId : Option String := none
  derivationDepth : Nat := 0
  classification : String := "internal"
  consentState : Option String := none
  residency : Option String := none
  retentionPolicyId : Option String := none
  expiresAt : Option Int := none
  legalHold : Bool := false
  recordHash : Option String := none
  tombstonedAt : Option Int := none
  tombstoneReason : Option String := none
deriving DecidableEq, Repr

/-- The columns of one row, each with its fallback. -/
def MemoryMetaInfo.ofRow (r : Record) : MemoryMetaInfo where
  importance := match r.col "importance" with
    | .real text => text
    | .int n => toString n
    | _ => "0.5"
  scope := (r.text "scope").getD "project"
  kind := (r.text "kind").getD "session"
  eventTime := r.text "event_time"
  «namespace» := (r.text "namespace").getD DEFAULT_NAMESPACE
  sourceType := (r.text "source_type").getD "derived"
  trustTier := (r.text "trust_tier").getD "medium"
  writerIdentity := r.text "writer_identity"
  sourceRef := r.text "source_ref"
  parentMemoryId := r.i64 "parent_memory_id"
  evidenceRootId := (r.text "evidence_root_id").filter fun root => !root.isEmpty
  derivationDepth := ((r.i64 "derivation_depth").getD 0).toNat
  classification := (r.text "classification").getD "internal"
  consentState := r.text "consent_state"
  residency := r.text "residency"
  retentionPolicyId := r.text "retention_policy_id"
  expiresAt := r.i64 "expires_at"
  legalHold := (r.i64 "legal_hold").getD 0 != 0
  recordHash := r.text "record_hash"
  tombstonedAt := r.i64 "tombstoned_at"
  tombstoneReason := r.text "tombstone_reason"

namespace Database

/-- The row of `memories` with this rowid. -/
def memoryRow (db : Database) (id : Int) : Option Record :=
  (db.table "memories").find? fun r => r.col "rowid" = .int id

/-- The row of `memory_meta` of this memory. -/
def metaRow (db : Database) (id : Int) : Option Record :=
  (db.table "memory_meta").find? fun r => r.col "memory_id" = .int id

/-- `get_memory_by_id_any_namespace`. -/
def getMemoryByIdAnyNamespace (db : Database) (id : Int) : Option Memory :=
  (db.memoryRow id).map Memory.ofRow

/-- `get_memory_meta_full`: a missing row reads as the defaults. -/
def getMemoryMetaFull (db : Database) (id : Int) : MemoryMetaInfo :=
  ((db.metaRow id).map MemoryMetaInfo.ofRow).getD {}

/-- `get_memory_session_blob`. -/
def getMemorySessionBlob (db : Database) (id : Int) : Option String :=
  (db.metaRow id).bind fun r => r.text "session_blob"

/-- The condition on the left-joined metadata row that every namespace-scoped
query repeats: `COALESCE(mm.namespace,'local') = ns AND mm.tombstoned_at IS NULL
AND (mm.expires_at IS NULL OR mm.expires_at > now)`. -/
def admitsMeta (now : Int) (ns : String) : Option Record → Bool
  | none => ns == DEFAULT_NAMESPACE
  | some r =>
      (r.text "namespace").getD DEFAULT_NAMESPACE == ns &&
      (r.col "tombstoned_at").isNull &&
      match r.i64 "expires_at" with
      | none => true
      | some t => t > now

/-- Whether the namespace-scoped queries see this memory. -/
def visibleIn (db : Database) (now : Int) (ns : String) (id : Int) : Bool :=
  admitsMeta now ns (db.metaRow id)

/-- `get_memory_by_id_in_namespace`. -/
def getMemoryByIdInNamespace (db : Database) (now : Int) (id : Int) (ns : String) :
    Option Memory :=
  if db.visibleIn now (normalizeNamespace ns) id then db.getMemoryByIdAnyNamespace id else none

end Database

end IronMem
