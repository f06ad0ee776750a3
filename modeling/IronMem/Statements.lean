import IronMem.Database
import IronMem.Lib.Proc

/-!
# Statements of the memory calls

The writes that `remember`, `forget` and the governance update are made of, each
one committed by itself: a single SQL statement, or a transaction that takes the
write reservation first. Labels name them for the results about interleavings.

A statement is a function from a database to a result and a database; what fails has
changed nothing. Collection is a statement too, with everything the foreign keys take
along, and what it keeps is decided on the database it meets (`Database.pinned`).
-/

namespace IronMem

/-- The statements a call commits one by one. -/
inductive Statement where
  | select
  | tombstone (memoryId : Int)
  | appendLedger
  | decref (hash : String)
  | gc
  | deleteMemory (memoryId : Int)
  | deleteProject (project : String)
  | deleteSide (memoryId : Int)
  | deleteMeta (memoryId : Int)
  | insertMemory
  | upsertMeta (memoryId : Int)
  | setScopeKind (memoryId : Int)
  | setGovernance (memoryId : Int)
  | evidenceRoot (memoryId : Int)
  | insertDict
  | storeBlob (hash : String)
  | insertObservation
  | setSessionBlob (memoryId : Int) (hash : String)
  | createCheckpoint
  | deleteCheckpoint
  | restoreCheckpoint
deriving DecidableEq, Repr

/-- A call against the database. -/
abbrev Call := Proc Statement Database String

/-! ## The ledger -/

/-- `ledger_entry_hash`. -/
def ledgerEntryHash (codec : Codec) (prevHash : Option String) (ns : String)
    (memoryId : Option Int) (opType : String) (actor : Option String) (payload : String)
    (createdAt : Int) : String :=
  codec.digest (utf8 (codec.recordToString (jsonObject [
    ("actor", Value.ofOptionStr actor), ("created_at", .int createdAt),
    ("memory_id", Value.ofOption memoryId), ("namespace", .str (normalizeNamespace ns)),
    ("op_type", .str opType), ("payload", .str payload),
    ("prev_hash", Value.ofOptionStr prevHash)])))

/-- The integer in a column: SQLite stores none that `i64` does not hold. -/
def Record.integer (r : Record) (field : String) : Option Int :=
  match r.col field with
  | .int n => some n
  | _ => none

/-- `ORDER BY id DESC LIMIT 1`. -/
def latest (rows : List Record) : Option Record :=
  rows.foldl (fun best r => match best with
    | none => some r
    | some b => if (b.integer "id").getD 0 < (r.integer "id").getD 0 then some r else some b) none

/-- The hash a new entry of the namespace chains to. -/
def Database.ledgerHead (db : Database) (ns : String) : Option String :=
  (latest ((db.table "memory_ledger").filter fun r => r.text "namespace" == some ns)).bind
    fun r => r.text "entry_hash"

/-- The next `AUTOINCREMENT` id of the ledger. -/
def Database.nextLedgerId (db : Database) : Int :=
  ((latest (db.table "memory_ledger")).bind fun r => r.integer "id").getD 0 + 1

/-- `append_memory_ledger`: one transaction that reads the head, chains the new
entry to it and inserts it. `entry_hash` is `UNIQUE`. -/
def appendMemoryLedger (codec : Codec) (ns : String) (memoryId : Option Int) (opType : String)
    (actor : Option String) (payload : String) (now : Int) (db : Database) :
    Except String (String × Database) :=
  let ns := normalizeNamespace ns
  let prevHash := db.ledgerHead ns
  let entryHash := ledgerEntryHash codec prevHash ns memoryId opType actor payload now
  if (db.table "memory_ledger").any fun r => r.text "entry_hash" == some entryHash then
    .error "UNIQUE constraint failed: memory_ledger.entry_hash"
  else .ok (entryHash, db.insertRow "memory_ledger" (jsonObject [
    ("id", .int db.nextLedgerId), ("namespace", .str ns),
    ("memory_id", Value.ofOption memoryId), ("op_type", .str opType),
    ("actor", Value.ofOptionStr actor), ("prev_hash", Value.ofOptionStr prevHash),
    ("entry_hash", .str entryHash), ("payload", .str payload), ("created_at", .int now)]))

/-- What `append_memory_ledger` does when it succeeds: one row more. -/
theorem appendMemoryLedger_ok {codec : Codec} {db db' : Database} {ns opType payload hash : String} {memoryId : Option Int}
    {actor : Option String} {now : Int}
    (h : appendMemoryLedger codec ns memoryId opType actor payload now db = .ok (hash, db')) :
    ∃ row : Record, db' = db.insertRow "memory_ledger" row
      ∧ row.col "op_type" = .str opType ∧ row.col "memory_id" = Value.ofOption memoryId := by
  simp only [appendMemoryLedger] at h
  split at h
  · cases h
  · obtain ⟨-, rfl⟩ := Prod.mk.inj (Except.ok.inj h)
    exact ⟨_, rfl, by simp [jsonObject], by simp [jsonObject]⟩

/-! ## Blobs -/

/-- `decref_blob`: one reference less, not below zero. -/
def decrefBlob (hash : String) (db : Database) : Database :=
  match db.blobs[hash]? with
  | some b =>
      if 0 < b.refcount then
        { db with blobs := db.blobs.insert hash { b with refcount := b.refcount - 1 } }
      else db
  | none => db

theorem decrefBlob_table (hash : String) (db : Database) :
    (decrefBlob hash db).table = db.table := by
  unfold decrefBlob
  split
  · split <;> rfl
  · rfl

/-- A blob some durable root refers to. -/
def Database.pinned (db : Database) (hash : String) : Bool :=
  (db.table "memory_meta").any (fun r => r.text "session_blob" == some hash) ||
  (db.table "observations").any (fun r => r.text "output_blob" == some hash) ||
  (db.table "memory_chunks").any (fun r => r.text "source_hash" == some hash) ||
  db.brainSnapshots.any (fun s => s.blobHash == hash) ||
  db.checkpointDependencies.any (fun (_, parent) => parent == hash) ||
  db.checkpointHeads.toList.any (fun (_, head) => head == hash)

/-- What `gc_blobs` deletes: uncounted and unpinned. -/
def Database.garbage (db : Database) (hash : String) (b : Blob) : Bool :=
  decide (b.refcount ≤ 0) && !db.pinned hash

/-- A chunk no object is made of. -/
def Database.looseChunk (db : Database) (chunk : String) : Bool :=
  !db.ccrObjectChunks.any fun (_, c) => c == chunk

/-- Delete the chunks no object is made of; the number of bytes that frees. -/
def gcChunks (db : Database) : Int × Database :=
  ((((db.ccrChunks.filter fun c _ => db.looseChunk c).toList).map fun (_, c) => c.compLen).sum,
    { db with ccrChunks := db.ccrChunks.filter fun c _ => !db.looseChunk c })

/-- Delete the garbage. The foreign keys cascade from a deleted blob to the dependency
rows it is the child of, to its `checkpoint_objects` row and to the rows that say which
chunks it is made of. -/
def dropGarbage (db : Database) : Database :=
  let kept := db.blobs.filter fun h b => !db.garbage h b
  { db with
    blobs := kept
    ccrObjectChunks := db.ccrObjectChunks.filter fun (object, _) => kept.contains object
    checkpointDependencies := db.checkpointDependencies.filter fun (child, _) =>
      kept.contains child
    checkpointObjects := db.checkpointObjects.filter fun h => kept.contains h }

/-- `gc_blobs`: the garbage, then the chunks nothing is made of any more. -/
def gcBlobs (db : Database) : (Nat × Int) × Database :=
  let removed := db.blobs.filter db.garbage
  let bytes := (removed.toList.map fun (_, b) => b.compLen).sum
  let (chunkBytes, swept) := gcChunks (dropGarbage db)
  ((removed.size, bytes + chunkBytes), swept)

/-- Collection keeps what is pinned. -/
theorem gcBlobs_of_pinned {db : Database} {hash : String} (h : db.pinned hash = true) :
    (gcBlobs db).2.blobs[hash]? = db.blobs[hash]? := by
  simp only [gcBlobs, gcChunks, dropGarbage, Std.ExtTreeMap.getElem?_filter']
  cases hb : db.blobs[hash]? with
  | none => rfl
  | some b => simp [Option.filter, Database.garbage, h]

/-! ## Memories -/

/-- The tombstone update of `governed_delete_memory`. -/
def tombstoneMemory (id now : Int) (reason : Option String) (db : Database) : Database :=
  db.updateRows "memory_meta" (fun r => r.col "memory_id" = .int id) fun r =>
    (r.set "tombstoned_at" (.int now)).set "tombstone_reason" (Value.ofOptionStr reason)

/-- An update that keeps the key rewrites the row of each memory in place. -/
theorem Database.metaRow_updateRows {db : Database} {p : Record → Bool} {f : Record → Record}
    (hkey : ∀ r : Record, (f r).col "memory_id" = r.col "memory_id") (id : Int) :
    (db.updateRows "memory_meta" p f).metaRow id
      = (db.metaRow id).map fun r => if p r then f r else r := by
  simp only [metaRow, table_updateRows, if_true, List.find?_map]
  congr 2
  funext r
  simp only [Function.comp_apply]
  split
  · rw [hkey]
  · rfl

theorem metaRow_tombstoneMemory (id now : Int) (reason : Option String) (db : Database) (k : Int) :
    (tombstoneMemory id now reason db).metaRow k
      = (db.metaRow k).map fun r => if r.col "memory_id" = .int id then
          (r.set "tombstoned_at" (.int now)).set "tombstone_reason" (Value.ofOptionStr reason)
        else r := by
  rw [tombstoneMemory, Database.metaRow_updateRows (fun r => by simp)]
  simp

/-- `delete_memory`: the row of `memories` goes, its metadata stays. -/
def deleteMemory (id : Int) (db : Database) : Bool × Database :=
  ((db.table "memories").any fun r => r.col "rowid" = .int id,
    db.deleteRows "memories" fun r => r.col "rowid" = .int id)

end IronMem
