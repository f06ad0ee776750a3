import IronMem.Statements
import IronMem.Validation

/-!
# Stored checkpoints

`create`, `load` and `delete`. A checkpoint is stored as an envelope in a blob
addressed by its digest: a full state, or a delta over a parent envelope, at
most eight deltas over one full base.

`create` compares the new state with that of the project's head and decides between
the envelope that is there already, a delta and a full state (`chooseEnvelope`). The
writes are one transaction. `delete` takes the row away and moves the head, if it was
the head, to the latest checkpoint that is left; the bytes stay until they are
collected.
-/

namespace IronMem

/-! ## Loading -/

/-- The loop of `load` that follows the parents; the list ends up base first. -/
def loadChain (codec : Codec) (db : Database) :
    Nat → String → List String → List Envelope → Except String (List Envelope)
  | 0, _, _, chain => .ok chain
  | n + 1, next, seen, chain => do
      ensure (!seen.contains next) "cyclic checkpoint chain"
      let bytes ← loadBlob codec db next
      let e ← codec.envelopeFromSlice bytes
      ensure (e.version == 5 && decide (e.depth ≤ 8) && (e.full.isSome ^^ e.delta.isSome))
        "invalid checkpoint envelope"
      match e.parent with
      | some parent => loadChain codec db n parent (next :: seen) (e :: chain)
      | none => return e :: chain

/-- The loop of `load` that applies the deltas. -/
def replayChain (codec : Codec) : State → Nat → List Envelope → Except String State
  | state, _, [] => .ok state
  | state, depth, e :: rest => do
      ensure (e.project == state.project && e.depth == depth + 1 &&
        e.parentHash == some (codec.stateHash state)) "checkpoint parent mismatch"
      let delta ← match e.delta with
        | some delta => .ok delta
        | none => .error "missing delta"
      let next ← applyDelta codec state delta
      ensure (codec.stateHash next == e.stateHash) "delta result hash mismatch"
      replayChain codec next (depth + 1) rest

/-- The base of a chain: a full envelope at depth 0 with its own hash. -/
def baseState (codec : Codec) (full : Envelope) : Except String State := do
  ensure (full.depth == 0 && full.parent.isNone && full.parentHash.isNone)
    "checkpoint chain has no base"
  let state ← match full.full with
    | some state => .ok state
    | none => .error "checkpoint base missing"
  ensure (codec.stateHash state == full.stateHash) "checkpoint state hash mismatch"
  return state

/-- `load`. -/
def load (codec : Codec) (db : Database) (hash : String) : Except String State := do
  match ← loadChain codec db 9 hash [] [] with
  | [] => throw "empty checkpoint chain"
  | full :: rest =>
      let state ← baseState codec full
      let state ← replayChain codec state 0 rest
      validate codec state
      return state

/-! ## Creating -/

/-- The arguments of `create`; `uuid` and `now` are drawn on the way. -/
structure CreateArgs where
  label : Option String := none
  project : String
  incremental : Bool
  uuid : String
  now : Int

/-- The envelope of a full checkpoint. -/
def fullEnvelope (codec : Codec) (project : String) (state : State) : Envelope where
  version := 5
  project := project
  stateHash := codec.stateHash state
  parent := none
  parentHash := none
  depth := 0
  full := some state
  delta := none

/-- The envelope of a delta over the envelope `parent`, stored under `hash`. -/
def deltaEnvelope (codec : Codec) (project : String) (state : State) (hash : String)
    (parent : Envelope) (delta : Delta) : Envelope where
  version := 5
  project := project
  stateHash := codec.stateHash state
  parent := some hash
  parentHash := some parent.stateHash
  depth := parent.depth + 1
  full := none
  delta := some delta

/-- What `create` stores for a state: the head's envelope again when nothing has
changed, a delta over it when that is less than half the size, else all of it. -/
def chooseEnvelope (codec : Codec) (db : Database) (args : CreateArgs) (state : State) :
    Except String Envelope := do
  let envelope := fullEnvelope codec args.project state
  match if args.incremental then db.checkpointHeads[args.project]? else none with
  | none => return envelope
  | some hash =>
      let bytes ← loadBlob codec db hash
      match codec.envelopeFromSlice bytes with
      | .error _ => return envelope
      | .ok parent =>
          let base ← load codec db hash
          if parent.stateHash = envelope.stateHash then return parent
          else if parent.depth < 8 && sameKeys base.tables state.tables then
            let delta ← difference codec base state
            let candidate := deltaEnvelope codec args.project state hash parent delta
            if (codec.envelopeToVec candidate).length * 2 < (codec.envelopeToVec envelope).length
            then return candidate else return envelope
          else return envelope

/-- `persist_blob`. -/
def persistBlob (codec : Codec) (bytes : Bytes) (db : Database) : String × Database :=
  let hash := codec.digest bytes
  let blob := match db.blobs[hash]? with
    | some b => { b with refcount := b.refcount + 1 }
    | none => { original := bytes, compLen := codec.compressedLen bytes, refcount := 1 }
  (hash, { db with blobs := db.blobs.insert hash blob })

/-- `ON CONFLICT DO NOTHING`. -/
def insertNew {α : Type} [DecidableEq α] (a : α) (l : List α) : List α :=
  if a ∈ l then l else l ++ [a]

/-- The writes of `create`. -/
def publish (codec : Codec) (args : CreateArgs) (state : State) (envelope : Envelope)
    (db : Database) : Except String (BrainSnapshot × Database) := do
  let (hash, db) := persistBlob codec (codec.envelopeToVec envelope) db
  ensure (envelope.parent.all fun p => db.blobs.contains p) "FOREIGN KEY constraint failed"
  let snap : BrainSnapshot := {
    id := "snap-" ++ args.uuid
    label := args.label
    project := some args.project
    memoryCount := (rowsOf state.tables "memories").length
    edgeCount := (rowsOf state.tables "memory_edges").length
    blobHash := hash
    createdAt := args.now }
  ensure (db.brainSnapshots.all fun s => s.id != snap.id)
    "UNIQUE constraint failed: brain_snapshots.id"
  return (snap, { db with
    checkpointObjects := insertNew hash db.checkpointObjects
    checkpointDependencies := match envelope.parent with
      | some parent => insertNew (hash, parent) db.checkpointDependencies
      | none => db.checkpointDependencies
    brainSnapshots := db.brainSnapshots ++ [snap]
    checkpointHeads := db.checkpointHeads.insert args.project hash })

/-- What `create` captures and checks. -/
def captureChecked (codec : Codec) (db : Database) (project : String) : Except String State := do
  let state ← capture codec db project true
  validate codec state
  return state

/-- `create`. -/
def create (codec : Codec) (args : CreateArgs) (db : Database) :
    Except String (BrainSnapshot × Database) := do
  let state ← captureChecked codec db args.project
  let envelope ← chooseEnvelope codec db args state
  publish codec args state envelope db

/-! ## Deleting -/

/-- `ORDER BY created_at DESC, id DESC`: `b` comes before `a`. -/
def BrainSnapshot.before (b a : BrainSnapshot) : Bool :=
  a.createdAt < b.createdAt || (a.createdAt = b.createdAt && a.id < b.id)

def latestSnapshot (snaps : List BrainSnapshot) : Option BrainSnapshot :=
  snaps.foldl (fun best s => match best with
    | none => some s
    | some b => if s.before b then some s else some b) none

/-- The head of a project after one of its snapshots, stored under `hash`, is
gone: if it was the head, the latest one left takes its place. -/
def reassignHead (project hash : String) (db : Database) : Database :=
  let heads := if db.checkpointHeads[project]? = some hash then db.checkpointHeads.erase project
    else db.checkpointHeads
  { db with checkpointHeads :=
      if heads.contains project then heads
      else match latestSnapshot (db.brainSnapshots.filter fun s => s.project = some project) with
        | some s => heads.insert project s.blobHash
        | none => heads }

/-- `delete`. -/
def delete (snapshotId : String) (db : Database) : Except String Database :=
  match db.brainSnapshots.find? fun s => s.id = snapshotId with
  | none => .error "snapshot not found"
  | some snap =>
      let db := decrefBlob snap.blobHash
        { db with brainSnapshots := db.brainSnapshots.filter fun s => s.id ≠ snapshotId }
      match snap.project with
      | some project => .ok (reassignHead project snap.blobHash db)
      | none => .ok db

end IronMem
