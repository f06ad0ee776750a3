import IronMem.Deletion
import IronMem.Handles

/-!
# Stored originals

The calls that store original bytes, attach them to a row and let go of them again:
`store_blob` in its three formats, `insert_observation`, `store_session_transcript`,
`purge_memory`. A store leaves one count with its caller; a row that refers to the
bytes keeps them from collection whatever the count is.

Which format a store takes depends on thresholds, the detected content type and the
dictionary that is selected. None of it matters for what is stored, so it comes down to a
`StorePlan` that the caller brings along. A dictionary is persisted before the first row that
needs it, in a statement of its own.
-/

namespace IronMem

/-! ## Storing -/

/-- `insert_blob`: one count more, or a new row with one. -/
def insertBlob (hash : String) (blob : Blob) (db : Database) : Database :=
  let stored := match db.blobs[hash]? with
    | some b => { b with refcount := b.refcount + 1 }
    | none => blob
  { db with blobs := db.blobs.insert hash stored }

/-- `insert_dict`. -/
def insertDict (dictHash : String) (db : Database) : Database :=
  { db with ccrDicts := insertNew dictHash db.ccrDicts }

/-- One of the pieces of an object: a chunk that is there already is shared. -/
def insertChunk (codec : Codec) (hash : String) (db : Database) (piece : String × Bytes) :
    Except String Database := do
  let (chunk, bytes) := piece
  ensure (!db.ccrObjectChunks.contains (hash, chunk))
    "UNIQUE constraint failed: ccr_object_chunks.object_hash, ccr_object_chunks.chunk_hash"
  return { db with
    ccrChunks := db.ccrChunks.insertIfNew chunk ⟨bytes, codec.compressedLen bytes⟩
    ccrObjectChunks := db.ccrObjectChunks ++ [(hash, chunk)] }

/-- The pieces of an object by their hashes, each once. -/
def uniquePieces (codec : Codec) (bytes : Bytes) : BTreeMap Bytes :=
  (codec.cuts bytes).foldl (fun (m : BTreeMap Bytes) p => m.insertIfNew (codec.digest p) p) ∅

/-- A row in the chunked format. -/
def chunkedBlob (codec : Codec) (bytes : Bytes) (refcount : Int) : Blob where
  original := bytes
  compLen := codec.manifestLen bytes
  refcount := refcount
  format := .fastcdc ((codec.cuts bytes).map codec.digest)

/-- `chunked::store`, one transaction: an object that is there keeps its format. -/
def storeChunked (codec : Codec) (bytes : Bytes) (db : Database) :
    Except String (String × Database) := do
  ensure (decide (bytes.length ≤ 512 * 1024 * 1024)) "CCR chunked object exceeds 512 MiB safety limit"
  let hash := codec.digest bytes
  let stored := insertBlob hash (chunkedBlob codec bytes 1) db
  if db.blobs.contains hash then return (hash, stored)
  let stored ← (uniquePieces codec bytes).toList.foldlM (insertChunk codec hash) stored
  return (hash, stored)

/-- What the threshold, the detected content type and `select_dict` come to. -/
inductive StorePlan where
  | floor
  | dict (dictHash : String)
  | chunked
deriving DecidableEq

/-- `store_blob`. A dictionary is persisted before the first blob that needs it. -/
def storeBlob (codec : Codec) (plan : StorePlan) (bytes : Bytes) : Call String :=
  let hash := codec.digest bytes
  let blob : Blob := { original := bytes, compLen := codec.compressedLen bytes, refcount := 1 }
  match plan with
  | .floor => Proc.exec (.storeBlob hash) fun db => .ok (hash, insertBlob hash blob db)
  | .dict dictHash => do
      Proc.exec .insertDict fun db => .ok ((), insertDict dictHash db)
      Proc.exec (.storeBlob hash) fun db =>
        .ok (hash, insertBlob hash { blob with format := .dictZstd dictHash } db)
  | .chunked => Proc.exec (.storeBlob hash) (storeChunked codec bytes)

/-! ## Attaching -/

/-- The arguments of `insert_observation`, the clock reading, the next `AUTOINCREMENT`
id and the format an output over the limit is stored in. -/
structure ObservationArgs where
  sessionId : String
  project : String
  tool : String
  input : Option String := none
  output : Option String := none
  maxBytes : Nat
  plan : StorePlan := .floor
  now : Int
  id : Int

/-- The output, where it is over the limit. -/
def ObservationArgs.original (args : ObservationArgs) : Option String :=
  args.output.filter fun o => decide (args.maxBytes < byteLen o)

/-- The row, with the output cut to the limit. -/
def ObservationArgs.newRow (args : ObservationArgs) (outputBlob : Option String) : Record :=
  jsonObject [
    ("id", .int args.id), ("session_id", .str args.sessionId), ("project", .str args.project),
    ("tool", .str args.tool), ("input", Value.ofOptionStr args.input),
    ("output", Value.ofOptionStr (args.output.map fun o => safeTruncate o args.maxBytes)),
    ("output_blob", Value.ofOptionStr outputBlob), ("created_at", .int args.now)]

/-- The `INSERT` of `insert_observation`. -/
def ObservationArgs.insertRow (args : ObservationArgs) (outputBlob : Option String)
    (db : Database) : Except String (Int × Database) := do
  checkRow db "observations" (args.newRow outputBlob)
  return (args.id, db.insertRow "observations" (args.newRow outputBlob))

/-- The store of an output over the limit. -/
def storeOutput (codec : Codec) (plan : StorePlan) : Option String → Call (Option String)
  | some output => do
      let hash ← storeBlob codec plan (utf8 output)
      return some hash
  | none => return none

/-- `insert_observation`: the whole output is stored before the row refers to it. -/
def insertObservation (codec : Codec) (args : ObservationArgs) : Call Int := do
  let outputBlob ← storeOutput codec args.plan args.original
  Proc.exec .insertObservation (args.insertRow outputBlob)

structure Observation where
  id : Int
  tool : String
  input : Option String
  output : Option String
deriving DecidableEq, Repr

/-- One section of the transcript. -/
def Observation.section (o : Observation) : String :=
  "## " ++ o.tool ++ "\n" ++ ((o.input.map fun i => "input: " ++ i ++ "\n").getD "")
    ++ ((o.output.map fun t => "output: " ++ t ++ "\n").getD "") ++ "\n"

/-- `build_transcript`. -/
def buildTranscript (observations : List Observation) : String :=
  observations.foldl (fun s o => s ++ o.section) ""

/-- The `UPDATE` of `set_memory_session_blob`. -/
def attachSessionBlob (id : Int) (hash : String) (db : Database) : Database :=
  db.updateRows "memory_meta" (fun r => r.col "memory_id" = .int id) fun r =>
    r.set "session_blob" (.str hash)

/-- `set_memory_session_blob`. -/
def setMemorySessionBlob (id : Int) (hash : String) : Call Unit :=
  Proc.exec (.setSessionBlob id hash) fun db => .ok ((), attachSessionBlob id hash db)

/-- `store_session_transcript`. -/
def storeSessionTranscript (codec : Codec) (plan : StorePlan) (id : Int)
    (observations : List Observation) : Call (Option String) := do
  let transcript := buildTranscript observations
  if transcript = "" then return none
  let hash ← storeBlob codec plan (utf8 transcript)
  setMemorySessionBlob id hash
  return some hash

/-! ## Letting go -/

/-- `DELETE FROM name WHERE memory_id=$1`. -/
def deleteSide (name : String) (id : Int) : Call Unit :=
  Proc.exec (.deleteSide id) fun db =>
    .ok ((), db.deleteRows name fun r => r.col "memory_id" = .int id)

/-- `purge_memory`, past the vectors: `delete_memory_meta`, then the tables that have no
foreign key. -/
def purgeMemory (id : Int) : Call Unit := do
  deleteMemoryMeta id
  deleteSide "memory_entities" id
  deleteSide "memory_edges" id
  deleteSide "memory_chunks" id

/-- Forgetting as the callers do it: what was deleted is purged. -/
def forgetAndPurge (codec : Codec) (id : Int) (args : DeleteArgs) : Call Unit := do
  let deleted ← governedDeleteMemory codec id args
  if deleted then purgeMemory id

end IronMem
