import IronMem.Deletion
import IronMem.JsonLossless
import IronMem.Lib.HashChain

/-!
# The governance ledger

`memory_ledger` as its readers see it, the forward-only migration that starts a
new epoch, and the two verifiers of `compliance.rs`.

An entry's hash is over its fields and the hash before it. The verifier of a whole
ledger starts from nothing and requires every link; the verifier of the current epoch
starts from whatever link its first entry has. Both read the entries by namespace, in
the order of their ids, and both compare the recomputed hash with the stored one.
-/

namespace IronMem

/-- An entry without its row id: the hashed fields and the hash. -/
structure LedgerRecord where
  «namespace» : String
  memoryId : Option Int
  opType : String
  actor : Option String
  prevHash : Option String
  entryHash : String
  payload : String
  createdAt : Int
deriving DecidableEq

structure MemoryLedgerEntry extends LedgerRecord where
  id : Int
deriving DecidableEq

def MemoryLedgerEntry.ofRow (r : Record) : MemoryLedgerEntry where
  id := (r.integer "id").getD 0
  «namespace» := (r.text "namespace").getD ""
  memoryId := r.integer "memory_id"
  opType := (r.text "op_type").getD ""
  actor := r.text "actor"
  prevHash := r.text "prev_hash"
  entryHash := (r.text "entry_hash").getD ""
  payload := (r.text "payload").getD ""
  createdAt := (r.integer "created_at").getD 0

/-- `memory_ledger_for_namespace`. -/
def memoryLedgerForNamespace (db : Database) (ns : String) : List MemoryLedgerEntry :=
  RowDiff.sortBy MemoryLedgerEntry.id
    (((db.table "memory_ledger").filter fun r => r.text "namespace" == some (normalizeNamespace ns)).map
      MemoryLedgerEntry.ofRow)

/-! ## Epochs -/

structure MemoryLedgerEpoch where
  «namespace» : String
  epoch : Int
  startEntryId : Int
  startEntryHash : String
  evidenceSha256 : String
  priorEntryCount : Int
  createdAt : Int
deriving DecidableEq

def MemoryLedgerEpoch.ofRow (r : Record) : MemoryLedgerEpoch where
  «namespace» := (r.text "namespace").getD ""
  epoch := (r.integer "epoch").getD 0
  startEntryId := (r.integer "start_entry_id").getD 0
  startEntryHash := (r.text "start_entry_hash").getD ""
  evidenceSha256 := (r.text "evidence_sha256").getD ""
  priorEntryCount := (r.integer "prior_entry_count").getD 0
  createdAt := (r.integer "created_at").getD 0

/-- The epochs of a namespace, oldest first. -/
def ledgerEpochs (db : Database) (ns : String) : List MemoryLedgerEpoch :=
  RowDiff.sortBy MemoryLedgerEpoch.epoch
    (((db.table "memory_ledger_epochs").filter fun r =>
      r.text "namespace" == some (normalizeNamespace ns)).map MemoryLedgerEpoch.ofRow)

/-- `latest_memory_ledger_epoch`. -/
def latestMemoryLedgerEpoch (db : Database) (ns : String) : Option MemoryLedgerEpoch :=
  (ledgerEpochs db ns).getLast?

/-- `append_memory_ledger_with_expected_head`. -/
def appendMemoryLedgerWithExpectedHead (codec : Codec) (ns : String) (memoryId : Option Int)
    (opType : String) (actor : Option String) (payload : String) (expectedPrevHash : Option String)
    (now : Int) (db : Database) : Except String (String × Database) := do
  match expectedPrevHash with
  | some expected =>
      ensure (db.ledgerHead (normalizeNamespace ns) == some expected)
        "ledger head changed while migration evidence was being prepared"
  | none => pure ()
  appendMemoryLedger codec ns memoryId opType actor payload now db

/-- `record_memory_ledger_epoch_on_connection`. -/
def recordMemoryLedgerEpoch (ns startEntryHash evidenceSha256 : String) (priorEntryCount now : Int)
    (db : Database) : Except String (MemoryLedgerEpoch × Database) :=
  match (db.table "memory_ledger").find? fun r => r.text "entry_hash" == some startEntryHash with
  | none => .error "no rows returned by a query that expected to return at least one row"
  | some row =>
      let startEntryId := (row.integer "id").getD 0
      let epoch := ((ledgerEpochs db ns).getLast?.map MemoryLedgerEpoch.epoch).getD 0 + 1
      if (db.table "memory_ledger_epochs").any fun r =>
          r.text "start_entry_hash" == some startEntryHash then
        .error "UNIQUE constraint failed: memory_ledger_epochs.start_entry_hash"
      else .ok ({
          «namespace» := normalizeNamespace ns, epoch, startEntryId, startEntryHash
          evidenceSha256, priorEntryCount, createdAt := now },
        db.insertRow "memory_ledger_epochs" (jsonObject [
          ("namespace", .str (normalizeNamespace ns)), ("epoch", .int epoch),
          ("start_entry_id", .int startEntryId), ("start_entry_hash", .str startEntryHash),
          ("evidence_sha256", .str evidenceSha256), ("prior_entry_count", .int priorEntryCount),
          ("created_at", .int now)]))

/-- `append_memory_ledger_migration`: one transaction, the genesis entry and its
epoch. -/
def appendMemoryLedgerMigration (codec : Codec) (ns actor payload expectedPrevHash : String)
    (evidenceSha256 : String) (priorEntryCount now epochNow : Int) (db : Database) :
    Except String (MemoryLedgerEpoch × Database) := do
  let (entryHash, db) ← appendMemoryLedgerWithExpectedHead codec ns none "migration_genesis"
    (some actor) payload (some expectedPrevHash) now db
  recordMemoryLedgerEpoch ns entryHash evidenceSha256 priorEntryCount epochNow db

/-! ## The migration -/

structure LedgerForkEvidence where
  prevHash : Option String
  childIds : List Int
  childHashes : List String

structure LedgerEvidence where
  formatVersion : Nat
  «namespace» : String
  entries : List MemoryLedgerEntry
  forks : List LedgerForkEvidence
  tipHashes : List String

structure LedgerEvidenceBundle where
  evidenceSha256 : String
  evidence : LedgerEvidence

/-- `build_ledger_evidence`. `evidenceToVec` is `serde_json::to_vec` on the evidence. -/
def buildLedgerEvidence (codec : Codec) (evidenceToVec : LedgerEvidence → Bytes) (db : Database)
    (ns : String) : LedgerEvidenceBundle :=
  let entries := memoryLedgerForNamespace db ns
  let links := entries.map fun e => e.prevHash
  -- the order of `BTreeMap<Option<String>, _>`: no predecessor first
  let key : Option String → WithBot String := fun link => link
  let forks := (RowDiff.sortBy key links.dedup).filterMap fun link =>
    let children := entries.filter fun e => e.prevHash == link
    if 1 < children.length then some {
      prevHash := link, childIds := children.map fun e => e.id
      childHashes := children.map fun e => e.entryHash }
    else none
  let tipHashes := (entries.filter fun e => !links.contains (some e.entryHash)).map fun e =>
    e.entryHash
  let evidence : LedgerEvidence := {
    formatVersion := 1, «namespace» := normalizeNamespace ns, entries, forks, tipHashes }
  ⟨codec.digest (evidenceToVec evidence), evidence⟩

/-- The payload of the genesis entry. -/
def migrationPayload (codec : Codec) (bundle : LedgerEvidenceBundle) (last : MemoryLedgerEntry) :
    String :=
  codec.recordToString (jsonObject [
    ("evidence_format_version", .int bundle.evidence.formatVersion),
    ("evidence_sha256", .str bundle.evidenceSha256),
    ("fork_points", .int bundle.evidence.forks.length),
    ("namespace", .str bundle.evidence.namespace),
    ("prior_entries", .int bundle.evidence.entries.length),
    ("prior_last_entry_hash", .str last.entryHash),
    ("repair_mode", .str "forward_only_epoch")])

/-- `apply_ledger_migration`. -/
def applyLedgerMigration (codec : Codec) (evidenceToVec : LedgerEvidence → Bytes)
    (bundle : LedgerEvidenceBundle) (actor : String) (now epochNow : Int) :
    Call MemoryLedgerEpoch := do
  let epoch ← Proc.query .select fun db => latestMemoryLedgerEpoch db bundle.evidence.namespace
  if epoch.isSome then
    Proc.fail ("namespace '" ++ bundle.evidence.namespace ++ "' already has a ledger migration epoch")
  else if codec.digest (evidenceToVec bundle.evidence) ≠ bundle.evidenceSha256 then
    Proc.fail "ledger evidence hash does not match its contents"
  else
    match bundle.evidence.entries.getLast? with
    | none => Proc.fail "cannot migrate an empty ledger"
    | some last => Proc.exec .appendLedger (appendMemoryLedgerMigration codec
        bundle.evidence.namespace actor (migrationPayload codec bundle last) last.entryHash
        bundle.evidenceSha256 bundle.evidence.entries.length now epochNow)

/-! ## Verification -/

structure ChainVerification where
  «namespace» : String
  entries : Nat
  valid : Bool
  firstBrokenId : Option Int := none
  epoch : Option Int := none
  historicalEntries : Int := 0
  historicalForkPoints : Nat := 0

/-- What the verifiers read and recompute of an entry. -/
def ledgerFormat (codec : Codec) : HashChain.Format LedgerRecord String where
  link := LedgerRecord.prevHash
  hash := LedgerRecord.entryHash
  derive e := ledgerEntryHash codec e.prevHash e.namespace e.memoryId e.opType e.actor e.payload
    e.createdAt

/-- `verify_ledger_chain`. -/
def verifyLedgerChain (codec : Codec) (db : Database) (ns : String) : ChainVerification :=
  let entries := memoryLedgerForNamespace db ns
  match HashChain.firstBroken ((ledgerFormat codec).comap MemoryLedgerEntry.toLedgerRecord) none
      entries with
  | some e => {
      «namespace» := ns, entries := entries.length, valid := false, firstBrokenId := some e.id }
  | none => { «namespace» := ns, entries := entries.length, valid := true }

/-- The predecessors with several children among some entries. -/
def historicalForkPoints (entries : List MemoryLedgerEntry) : Nat :=
  let links := entries.map fun e => e.prevHash
  (links.dedup.filter fun link => 1 < links.count link).length

/-- The entries from the start of an epoch on. -/
def epochEntries (epoch : MemoryLedgerEpoch) (entries : List MemoryLedgerEntry) :
    List MemoryLedgerEntry :=
  entries.filter fun e => epoch.startEntryId ≤ e.id

/-- `verify_current_ledger_epoch`. -/
def verifyCurrentLedgerEpoch (codec : Codec) (db : Database) (ns : String) : ChainVerification :=
  match latestMemoryLedgerEpoch db ns with
  | none => verifyLedgerChain codec db ns
  | some epoch =>
      let allEntries := memoryLedgerForNamespace db ns
      let forkPoints := historicalForkPoints (allEntries.take epoch.priorEntryCount.toNat)
      let entries := epochEntries epoch allEntries
      let prev := entries.head?.bind fun e => e.prevHash
      match HashChain.firstBroken ((ledgerFormat codec).comap MemoryLedgerEntry.toLedgerRecord) prev
          entries with
      | some e => {
          «namespace» := ns, entries := entries.length, valid := false, firstBrokenId := some e.id
          epoch := some epoch.epoch, historicalEntries := epoch.priorEntryCount
          historicalForkPoints := forkPoints }
      | none => {
          «namespace» := ns, entries := entries.length, valid := !entries.isEmpty
          epoch := some epoch.epoch, historicalEntries := epoch.priorEntryCount
          historicalForkPoints := forkPoints }

end IronMem
