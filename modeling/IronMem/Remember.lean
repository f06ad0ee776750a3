import IronMem.Json
import IronMem.Statements

/-!
# Governed writes

`remember_with_governance` up to the point where the governance is applied. What
follows is best effort, never fails the call and is not modelled: the skim and the
embedding write to other tables; the profile, which a memory of scope `user` may
bring up to date, deletes the memories of kind `profile` and inserts one with
metadata, policy and ledger entries of its own, when the governed write is over.

`insert_memory` publishes the row and a default metadata row in one transaction.
Every later statement refines that metadata row in place: what a reader may see
in between, and after an error, is the default governance.

The roots and record hashes are computed to the byte: the fields of a preimage have
length prefixes (`evidenceRootId`). `apply_memory_governance` first reads what the
lineage depends on (`lineageSource`) and writes afterwards; two of its writes are to
`memory_meta`, so that a property of `memory_meta` and `memories` which these two keep
is kept by the call (`applyMemoryGovernance_preserves`).
-/

namespace IronMem

def MEMORY_KINDS : List String :=
  ["session", "error_solution", "preference", "procedural", "architecture", "learned_pattern",
    "project_config", "profile", "fact", "inference", "observation"]

def clampKind (kind : String) : String :=
  let k := toAsciiLowercase (trim kind)
  (MEMORY_KINDS.find? fun v => v == k).getD "session"

def clampScope (scope : String) : String :=
  if toAsciiLowercase (trim scope) = "user" then "user" else "project"

/-! ## Hashes and roots -/

/-- `u64::to_be_bytes`. -/
def beBytes64 (n : Nat) : Bytes :=
  [56, 48, 40, 32, 24, 16, 8, 0].map fun shift => UInt8.ofNat (n >>> shift)

def pushLenPrefixed (value : Bytes) : Bytes := beBytes64 value.length ++ value

def pushOptionalLenPrefixed : Option String → Bytes
  | some value => 1 :: pushLenPrefixed (utf8 value)
  | none => [0]

/-- `evidence_root_id`, version 1 of the preimage. -/
def evidenceRootId (codec : Codec) (ns sourceType : String) (sourceRef : Option String)
    (canonicalSourceHash : String) : String :=
  "evr1:" ++ codec.digest (utf8 "ironmem:evidence-root" ++ [1]
    ++ pushLenPrefixed (utf8 (normalizeNamespace ns)) ++ pushLenPrefixed (utf8 sourceType)
    ++ pushOptionalLenPrefixed sourceRef ++ pushLenPrefixed (utf8 canonicalSourceHash))

/-- `new_evidence_root_id` of a fresh UUID. -/
def newEvidenceRootId (uuid : String) : String := "evr1:uuid:" ++ uuid

def memoryRecordHash (codec : Codec) (project sessionId summary : String) (tags : Option String)
    (scope kind : String) (g : MemoryGovernance) : String :=
  codec.digest (utf8 (codec.recordToString (jsonObject [
    ("classification", .str (classificationStr g.classification)),
    ("consent_state", Value.ofOptionStr (g.consentState.map consentStateStr)),
    ("expires_at", Value.ofOption g.expiresAt), ("kind", .str kind),
    ("legal_hold", .bool g.legalHold), ("namespace", .str (normalizeNamespace g.namespace)),
    ("parent_memory_id", Value.ofOption g.parentMemoryId), ("project", .str project),
    ("residency", Value.ofOptionStr g.residency),
    ("retention_policy_id", Value.ofOptionStr g.retentionPolicyId), ("scope", .str scope),
    ("session_id", .str sessionId), ("source_ref", Value.ofOptionStr g.sourceRef),
    ("source_type", .str (sourceTypeStr g.sourceType)), ("summary", .str summary),
    ("tags", Value.ofOptionStr tags), ("trust_tier", .str (trustTierStr g.trustTier)),
    ("writer_identity", Value.ofOptionStr g.writerIdentity)])))

/-! ## Statements

What changes the database here is one SQL statement, or a transaction that counts as one. The
clock is an argument. -/

/-- Several assignments of one `SET` clause. -/
def Record.setAll (r : Record) (fields : List (String × Value)) : Record :=
  fields.foldl (fun r (f, v) => r.set f v) r

/-- The column defaults of `memory_meta`. -/
def memoryMetaDefaults : Record :=
  jsonObject [("session_blob", .null), ("scope", .str "project"), ("kind", .str "session"),
    ("event_time", .null), ("namespace", .str "local"), ("source_type", .str "derived"),
    ("trust_tier", .str "medium"), ("writer_identity", .null), ("source_ref", .null),
    ("parent_memory_id", .null), ("classification", .str "internal"), ("consent_state", .null),
    ("residency", .null), ("retention_policy_id", .null), ("expires_at", .null),
    ("legal_hold", .int 0), ("record_hash", .null), ("tombstoned_at", .null),
    ("tombstone_reason", .null), ("trust_first_seen_at", .null),
    ("trust_last_validated_at", .null), ("trust_ref_count", .int 0), ("maturity", .null),
    ("evidence_root_id", .null), ("derivation_depth", .int 0)]

/-- `INSERT INTO memory_meta … ON CONFLICT(memory_id) DO UPDATE`: `always` is set
either way, `fresh` only on a new row. -/
def upsertMetaRow (id : Int) (fresh always : List (String × Value)) (db : Database) : Database :=
  if (db.metaRow id).isSome then
    db.updateRows "memory_meta" (fun r => r.col "memory_id" = .int id) fun r => r.setAll always
  else db.insertRow "memory_meta"
    (memoryMetaDefaults.setAll (("memory_id", .int id) :: fresh ++ always))

/-- The largest integer in a column, at least 0. -/
def maxColumn (rows : List Record) (field : String) : Int :=
  rows.foldl (fun m r => match r.col field with
    | .int n => max m n
    | _ => m) 0

/-- The id `insert_memory` takes: above the high-water mark and every stored id. -/
def Database.nextMemoryId (db : Database) : Int :=
  max db.identityHighwater
    (max (maxColumn (db.table "memories") "rowid") (maxColumn (db.table "memory_meta") "memory_id"))
    + 1

/-- The row of `memories` a new memory gets. -/
def newMemoryRow (id : Int) (project sessionId summary : String) (tags : Option String)
    (now : Int) : Record :=
  jsonObject [("rowid", .int id), ("project", .str project), ("session_id", .str sessionId),
    ("summary", .str summary), ("tags", Value.ofOptionStr tags), ("created_at", .int now)]

/-- The row of `memory_meta` a new memory gets: the column defaults. -/
def newMetaRow (id now : Int) (root : String) : Record :=
  memoryMetaDefaults.setAll [("memory_id", .int id), ("importance", .real "0.5"),
    ("created_at", .int now), ("evidence_root_id", .str root), ("derivation_depth", .int 0)]

def primaryRootRow (id : Int) (root : String) (now : Int) : Record :=
  jsonObject [("memory_id", .int id), ("evidence_root_id", .str root), ("role", .str "primary"),
    ("created_at", .int now)]

/-- The root `insert_memory` gives a memory. -/
def insertedRoot (codec : Codec) (project sessionId summary : String) (tags : Option String)
    (uuid : String) : String :=
  if sessionId ≠ "remember" then
    evidenceRootId codec DEFAULT_NAMESPACE (sourceTypeStr .derived)
      (some ("session:" ++ sessionId))
      (memoryRecordHash codec project sessionId summary tags "project" "session" {})
  else newEvidenceRootId uuid

/-- The transaction of `insert_memory`. -/
def insertMemory (codec : Codec) (project sessionId summary : String) (tags : Option String)
    (now : Int) (uuid : String) (db : Database) : Except String (Int × Database) :=
  let id := db.nextMemoryId
  let root := insertedRoot codec project sessionId summary tags uuid
  if 2 ^ 63 ≤ id then .error "integer overflow"
  else if (db.table "memory_evidence_roots").any fun r =>
      r.col "memory_id" = .int id ∧ r.text "evidence_root_id" == some root then
    .error "UNIQUE constraint failed: memory_evidence_roots"
  else
    .ok (id, (({ db with identityHighwater := id }.insertRow "memories"
        (newMemoryRow id project sessionId summary tags now)).insertRow "memory_meta"
        (newMetaRow id now root)).insertRow "memory_evidence_roots" (primaryRootRow id root now))

def upsertMemoryMeta (id : Int) (importance : String) (now : Int) : Database → Database :=
  upsertMetaRow id [("created_at", .int now)] [("importance", .real importance)]

def setMemoryScopeKind (id : Int) (scope kind : String) (now : Int) : Database → Database :=
  upsertMetaRow id [("importance", .real "0.5"), ("created_at", .int now)]
    [("scope", .str (clampScope scope)), ("kind", .str (clampKind kind))]

/-- What `load_evidence_meta` returns of a metadata row, as far as it is used. -/
structure EvidenceMetaRow where
  «namespace» : String
  evidenceRootId : Option String
  derivationDepth : Int
deriving DecidableEq

def EvidenceMetaRow.ofRow (r : Record) : EvidenceMetaRow where
  «namespace» := (r.text "namespace").getD DEFAULT_NAMESPACE
  evidenceRootId := (r.text "evidence_root_id").filter fun root => !root.isEmpty
  derivationDepth := (r.i64 "derivation_depth").getD 0

/-- `load_evidence_meta`. -/
def Database.loadEvidenceMeta (db : Database) (id : Int) : Option EvidenceMetaRow :=
  (db.metaRow id).map EvidenceMetaRow.ofRow

/-- The columns `apply_memory_governance` writes. -/
def governanceFields (scope kind recordHash root : String) (depth : Int) (g : MemoryGovernance) :
    List (String × Value) :=
  [("scope", .str scope), ("kind", .str kind), ("namespace", .str (normalizeNamespace g.namespace)),
    ("source_type", .str (sourceTypeStr g.sourceType)),
    ("trust_tier", .str (trustTierStr g.trustTier)),
    ("writer_identity", Value.ofOptionStr g.writerIdentity),
    ("source_ref", Value.ofOptionStr g.sourceRef),
    ("parent_memory_id", Value.ofOption g.parentMemoryId),
    ("classification", .str (classificationStr g.classification)),
    ("consent_state", Value.ofOptionStr (g.consentState.map consentStateStr)),
    ("residency", Value.ofOptionStr g.residency),
    ("retention_policy_id", Value.ofOptionStr g.retentionPolicyId),
    ("expires_at", Value.ofOption g.expiresAt),
    ("legal_hold", .int (if g.legalHold then 1 else 0)), ("record_hash", .str recordHash),
    ("evidence_root_id", .str root), ("derivation_depth", .int depth)]

def setGovernance (id : Int) (scope kind recordHash root : String) (depth : Int)
    (g : MemoryGovernance) (now : Int) : Database → Database :=
  upsertMetaRow id
    [("importance", .real "0.5"), ("created_at", .int now), ("trust_first_seen_at", .int now)]
    (governanceFields scope kind recordHash root depth g)

/-- The three statements of `persist_primary_evidence_root`. -/
def persistPrimaryEvidenceRoot (id : Int) (root : String) (depth now : Int) : Call Unit := do
  Proc.exec (.evidenceRoot id) fun db => .ok ((), db.updateRows "memory_meta"
    (fun r => r.col "memory_id" = .int id)
    fun r => r.setAll [("evidence_root_id", .str root), ("derivation_depth", .int depth)])
  Proc.exec (.evidenceRoot id) fun db => .ok ((), db.deleteRows "memory_evidence_roots"
    fun r => r.col "memory_id" = .int id ∧ r.text "role" == some "primary")
  Proc.exec (.evidenceRoot id) fun db =>
    let mine (r : Record) : Bool :=
      r.col "memory_id" = .int id ∧ r.text "evidence_root_id" == some root
    .ok ((), if (db.table "memory_evidence_roots").any mine then
        db.updateRows "memory_evidence_roots" mine fun r => r.set "role" (.str "primary")
      else db.insertRow "memory_evidence_roots" (primaryRootRow id root now))

/-! ## Calls -/

/-- The root and depth of a memory derived from `parentMemoryId`. -/
def parentLineage (id parentMemoryId : Int) (ns : String) (parent : Option EvidenceMetaRow) :
    Except String (String × Int) :=
  match parent with
  | none => .error ("parent memory metadata not found: " ++ toString parentMemoryId)
  | some parent =>
      if normalizeNamespace parent.namespace ≠ ns then
        .error ("derived memory namespace '" ++ ns ++ "' does not match parent "
          ++ toString parentMemoryId ++ " namespace '" ++ parent.namespace ++ "'")
      else match parent.evidenceRootId with
        | none => .error ("parent memory " ++ toString parentMemoryId ++ " has no evidence root")
        | some root =>
            if parent.derivationDepth + 1 < 2 ^ 63 then .ok (root, parent.derivationDepth + 1)
            else .error ("derivation depth overflow at memory " ++ toString id)

/-- The source reference a direct record is rooted in, if it has one. -/
def stableSourceRef (g : MemoryGovernance) (sessionId : String) : Option String :=
  g.sourceRef.or (if sessionId ≠ "remember" then some ("session:" ++ sessionId) else none)

/-- The row of metadata the lineage depends on, if any. -/
def lineageSource (id : Int) (g : MemoryGovernance) (sessionId : String) : Option Int :=
  match g.parentMemoryId, stableSourceRef g sessionId with
  | some parent, _ => some parent
  | none, some _ => none
  | none, none => some id

/-- The root and depth, given the row `lineageSource` names. -/
def resolveLineage (codec : Codec) (id : Int) (g : MemoryGovernance) (sessionId recordHash uuid : String)
    (source : Option EvidenceMetaRow) : Except String (String × Int) :=
  match g.parentMemoryId, stableSourceRef g sessionId with
  | some parent, _ => parentLineage id parent (normalizeNamespace g.namespace) source
  | none, some sourceRef =>
      .ok (evidenceRootId codec (normalizeNamespace g.namespace) (sourceTypeStr g.sourceType)
        (some sourceRef) recordHash, 0)
  | none, none =>
      .ok ((source.bind fun own => own.evidenceRootId).getD (newEvidenceRootId uuid), 0)

/-- The payload of the governance entry. -/
def governancePayload (codec : Codec) (project scope kind recordHash root : String) (depth : Int)
    (g : MemoryGovernance) : String :=
  codec.recordToString (jsonObject [
    ("classification", .str (classificationStr g.classification)),
    ("consent_state", Value.ofOptionStr (g.consentState.map consentStateStr)),
    ("expires_at", Value.ofOption g.expiresAt), ("kind", .str kind),
    ("legal_hold", .bool g.legalHold), ("namespace", .str (normalizeNamespace g.namespace)),
    ("parent_memory_id", Value.ofOption g.parentMemoryId), ("evidence_root_id", .str root),
    ("derivation_depth", .int depth), ("project", .str project),
    ("record_hash", .str recordHash), ("residency", Value.ofOptionStr g.residency),
    ("retention_policy_id", Value.ofOptionStr g.retentionPolicyId), ("scope", .str scope),
    ("source_ref", Value.ofOptionStr g.sourceRef),
    ("source_type", .str (sourceTypeStr g.sourceType)),
    ("trust_tier", .str (trustTierStr g.trustTier)),
    ("writer_identity", Value.ofOptionStr g.writerIdentity)])

/-- What is asked of `apply_memory_governance`; `now`, `ledgerNow` are its clock
readings and `uuid` the root it draws if it needs one. -/
structure GovernanceArgs where
  scope : String
  kind : String
  governance : MemoryGovernance := {}
  actor : Option String := none
  opType : String
  now : Int
  ledgerNow : Int
  uuid : String

def GovernanceArgs.recordHash (codec : Codec) (a : GovernanceArgs) (memory : Memory) : String :=
  memoryRecordHash codec memory.project memory.sessionId memory.summary memory.tags
    (clampScope a.scope) (clampKind a.kind) a.governance

def GovernanceArgs.lineage (codec : Codec) (a : GovernanceArgs) (id : Int) (memory : Memory)
    (source : Option EvidenceMetaRow) : Except String (String × Int) :=
  resolveLineage codec id a.governance memory.sessionId (a.recordHash codec memory) a.uuid source

/-- The ledger entry of the call. -/
def GovernanceArgs.append (codec : Codec) (a : GovernanceArgs) (id : Int) (memory : Memory)
    (root : String) (depth : Int) (db : Database) : Except String (String × Database) :=
  appendMemoryLedger codec (normalizeNamespace a.governance.namespace) (some id) a.opType
    (a.actor.or a.governance.writerIdentity)
    (governancePayload codec memory.project (clampScope a.scope) (clampKind a.kind)
      (a.recordHash codec memory) root depth a.governance) a.ledgerNow db

/-- The root and depth `apply_memory_governance` settles on. -/
def readLineage (codec : Codec) (id : Int) (a : GovernanceArgs) (memory : Memory) :
    Call (String × Int) :=
  match lineageSource id a.governance memory.sessionId with
  | some source => do
      let row ← Proc.query .select fun db => db.loadEvidenceMeta source
      Proc.lift (a.lineage codec id memory row)
  | none => Proc.lift (a.lineage codec id memory none)

/-- The writes of `apply_memory_governance`. -/
def writeGovernance (codec : Codec) (id : Int) (a : GovernanceArgs) (memory : Memory)
    (root : String) (depth : Int) : Call String := do
  Proc.exec (.setGovernance id) fun db => .ok ((), setGovernance id (clampScope a.scope)
    (clampKind a.kind) (a.recordHash codec memory) root depth a.governance a.now db)
  persistPrimaryEvidenceRoot id root depth a.now
  Proc.exec .appendLedger (a.append codec id memory root depth)

/-- `apply_memory_governance`. -/
def applyMemoryGovernance (codec : Codec) (id : Int) (a : GovernanceArgs) : Call String := do
  Proc.lift a.governance.validate
  let memory ← Proc.query .select fun db => db.getMemoryByIdAnyNamespace id
  match memory with
  | none => Proc.fail ("memory not found: " ++ toString id)
  | some memory =>
      let lineage ← readLineage codec id a memory
      writeGovernance codec id a memory lineage.1 lineage.2

/-- The arguments of `remember_with_governance`, the clock readings of its
statements and the roots it draws. -/
structure RememberArgs where
  project : String
  scope : String
  kind : String
  text : String
  tags : Option String := none
  governance : MemoryGovernance := {}
  now : Int
  metaNow : Int
  scopeNow : Int
  governanceNow : Int
  ledgerNow : Int
  insertUuid : String
  governanceUuid : String

def RememberArgs.governanceArgs (a : RememberArgs) : GovernanceArgs where
  scope := a.scope
  kind := a.kind
  governance := a.governance
  actor := a.governance.writerIdentity
  opType := "remember"
  now := a.governanceNow
  ledgerNow := a.ledgerNow
  uuid := a.governanceUuid

/-- The statements after the insertion. -/
def governRemembered (codec : Codec) (a : RememberArgs) (id : Int) : Call Int := do
  Proc.exec (.upsertMeta id) fun db => .ok ((), upsertMemoryMeta id "0.7" a.metaNow db)
  Proc.exec (.setScopeKind id) fun db => .ok ((), setMemoryScopeKind id a.scope a.kind a.scopeNow db)
  let _ ← applyMemoryGovernance codec id a.governanceArgs
  return id

/-- `remember_with_governance`. -/
def rememberWithGovernance (codec : Codec) (a : RememberArgs) : Call Int := do
  Proc.lift a.governance.validate
  let id ← Proc.exec .insertMemory
    (insertMemory codec a.project "remember" a.text a.tags a.now a.insertUuid)
  governRemembered codec a id

/-! ## What the calls preserve

A property is kept by a call if each of its statements keeps it, whatever the statements before
have answered. The lemmas reduce this to the few statements that write `memory_meta`. -/

section Preserved

variable {codec : Codec} {inv : Database → Prop} {id : Int}

theorem appendMemoryLedger_frame {db db' : Database} {ns opType payload hash name : String}
    {memoryId : Option Int} {actor : Option String} {now : Int}
    (h : appendMemoryLedger codec ns memoryId opType actor payload now db = .ok (hash, db'))
    (hname : name ≠ "memory_ledger") : db'.table name = db.table name := by
  obtain ⟨row, rfl, -, -⟩ := appendMemoryLedger_ok h
  rw [Database.table_insertRow, if_neg hname]

/-- The governance update preserves whatever its two writes to `memory_meta`
preserve and the other tables cannot disturb. -/
theorem applyMemoryGovernance_preserves {a : GovernanceArgs}
    (hgov : ∀ hash root depth s, inv s → inv (setGovernance id (clampScope a.scope)
      (clampKind a.kind) hash root depth a.governance a.now s))
    (hroot : ∀ root depth s, inv s → inv (s.updateRows "memory_meta"
      (fun r => r.col "memory_id" = .int id)
      fun r => r.setAll [("evidence_root_id", .str root), ("derivation_depth", .int depth)]))
    (hframe : ∀ s s' : Database, s'.table "memory_meta" = s.table "memory_meta" →
      s'.table "memories" = s.table "memories" → inv s → inv s') :
    (applyMemoryGovernance codec id a).Preserves inv := by
  have hpersist : ∀ root depth now,
      (persistPrimaryEvidenceRoot id root depth now).Preserves inv := by
    intro root depth now
    refine .bind (.exec ?_) fun _ => .bind (.exec ?_) fun _ => .exec ?_
    · intro s b s' hs h
      cases h
      exact hroot root depth s hs
    · intro s b s' hs h
      cases h
      exact hframe s _ (by simp) (by simp) hs
    · intro s b s' hs h
      cases h
      split
      · exact hframe s _ (by simp) (by simp) hs
      · exact hframe s _ (by simp) (by simp) hs
  have hwrite : ∀ memory root depth,
      (writeGovernance codec id a memory root depth).Preserves inv := by
    intro memory root depth
    refine .bind (.exec ?_) fun _ => .bind (hpersist root depth _) fun _ => .exec ?_
    · intro s b s' hs h
      cases h
      exact hgov _ root depth s hs
    · intro s hash s' hs h
      have hledger : ∀ name, name ≠ "memory_ledger" → s'.table name = s.table name :=
        fun name hname => appendMemoryLedger_frame h hname
      exact hframe s s' (hledger _ (by decide)) (hledger _ (by decide)) hs
  refine .bind (.done _) fun _ => .bind (.query _ _) fun memory => ?_
  cases memory with
  | none => exact .done _
  | some memory =>
      refine .bind ?_ fun lineage => hwrite memory lineage.1 lineage.2
      unfold readLineage
      split
      · exact .bind (.query _ _) fun row => .done _
      · exact .done _

end Preserved

/-! ## When the calls succeed

A call that meets no fault can still be refused, for its lineage or by the ledger. Both can be
decided on the database before the call. -/

section Succeeds

variable {codec : Codec} {id : Int} {memory : Memory} {s : Database}

theorem appendMemoryLedger_isOk (db : Database) (ns opType payload : String)
    (memoryId : Option Int) (actor : Option String) (now : Int) :
    (appendMemoryLedger codec ns memoryId opType actor payload now db).isOk
      = !((db.table "memory_ledger").any fun r => r.text "entry_hash" == some
          (ledgerEntryHash codec (db.ledgerHead (normalizeNamespace ns)) (normalizeNamespace ns)
            memoryId opType actor payload now)) := by
  simp only [appendMemoryLedger]
  split
  · next hdup => simp [hdup, Except.isOk, Except.toBool]
  · next hdup => simp [hdup, Except.isOk, Except.toBool]

theorem upsertMetaRow_frame {fresh always : List (String × Value)} {db : Database} {name : String}
    (hname : name ≠ "memory_meta") :
    (upsertMetaRow id fresh always db).table name = db.table name := by
  unfold upsertMetaRow
  split
  · rw [Database.table_updateRows, if_neg hname]
  · rw [Database.table_insertRow, if_neg hname]

theorem isOk_writeGovernance {a : GovernanceArgs} {root : String} {depth : Int}
    (fault : Nat → Option String) (s : Database) :
    ((writeGovernance codec id a memory root depth).run fault s).1.isOk = true ↔
      (∀ i < 5, fault i = none) ∧ (a.append codec id memory root depth s).isOk = true := by
  simp only [writeGovernance, persistPrimaryEvidenceRoot, Proc.exec_bind, Proc.step_bind]
  rw [Proc.run_step_isOk fault rfl, Proc.run_step_isOk _ rfl, Proc.run_step_isOk _ rfl,
    Proc.run_step_isOk _ rfl, Proc.run_exec_isOk]
  simp only [Proc.forall_lt_succ_later, Nat.not_lt_zero, false_implies, implies_true, and_true,
    and_assoc]
  have hledger : ∀ t : Database, t.table "memory_ledger" = s.table "memory_ledger" →
      (a.append codec id memory root depth t).isOk = (a.append codec id memory root depth s).isOk :=
    fun t h => by
      simp only [GovernanceArgs.append, appendMemoryLedger_isOk, Database.ledgerHead, h]
  rw [hledger]
  split <;> simp [setGovernance, upsertMetaRow_frame]

/-- What `apply_memory_governance` needs to succeed: no fault, a lineage, room in
the ledger. -/
theorem isOk_applyMemoryGovernance {a : GovernanceArgs} (fault : Nat → Option String)
    (hval : a.governance.validate = .ok ()) (hmem : s.getMemoryByIdAnyNamespace id = some memory) :
    ((applyMemoryGovernance codec id a).run fault s).1.isOk = true ↔
      (∀ i < (if (lineageSource id a.governance memory.sessionId).isSome then 7 else 6),
        fault i = none) ∧
      ∃ lineage, a.lineage codec id memory
          ((lineageSource id a.governance memory.sessionId).bind s.loadEvidenceMeta) = .ok lineage
        ∧ (a.append codec id memory lineage.1 lineage.2 s).isOk = true := by
  simp only [applyMemoryGovernance, hval, Proc.lift, Proc.done_ok_bind, Proc.query_bind]
  rw [Proc.run_step_isOk fault rfl, hmem]
  dsimp only [readLineage]
  cases hsource : lineageSource id a.governance memory.sessionId with
  | none =>
      simp only [Option.isSome_none, Bool.false_eq_true, if_false, Option.bind_none, Proc.lift,
        Proc.forall_lt_succ_later fault 5, and_assoc]
      refine and_congr_right fun _ => ?_
      cases hlin : a.lineage codec id memory none with
      | error e => simp [Except.isOk, Except.toBool]
      | ok lineage =>
          simp only [Proc.done_ok_bind, isOk_writeGovernance]
          simp
  | some source =>
      simp only [Option.isSome_some, if_true, Option.bind_some, Proc.query_bind, Proc.lift,
        Proc.step_bind, Proc.forall_lt_succ_later fault 6, and_assoc]
      refine and_congr_right fun _ => ?_
      rw [Proc.run_step_isOk _ rfl, Proc.forall_lt_succ_later _ 5, and_assoc]
      refine and_congr_right fun _ => ?_
      cases hlin : a.lineage codec id memory (s.loadEvidenceMeta source) with
      | error e => simp [Except.isOk, Except.toBool]
      | ok lineage =>
          simp only [Proc.done_ok_bind, isOk_writeGovernance]
          simp

end Succeeds

/-! ## Metadata of one memory -/

/-- A `SET` clause that leaves the key alone. -/
theorem setAll_col_of_not_mem {fields : List (String × Value)} {key : String}
    (h : ∀ p ∈ fields, p.1 ≠ key) (r : Record) : (r.setAll fields).col key = r.col key := by
  unfold Record.setAll
  induction fields generalizing r with
  | nil => rfl
  | cons p fields ih =>
      rw [List.foldl_cons, ih (fun q hq => h q (List.mem_cons_of_mem _ hq)),
        Record.col_set_of_ne _ _ (h p (List.mem_cons_self ..))]

theorem setAll_col_of_mem {fields : List (String × Value)} (hnodup : (fields.map Prod.fst).Nodup)
    {c : String} {v : Value} (h : (c, v) ∈ fields) (r : Record) : (r.setAll fields).col c = v := by
  induction fields generalizing r with
  | nil => cases h
  | cons p fields ih =>
      rw [List.map_cons, List.nodup_cons] at hnodup
      rw [Record.setAll, List.foldl_cons, ← Record.setAll]
      rcases List.mem_cons.mp h with rfl | h
      · rw [setAll_col_of_not_mem, Record.col_set_self]
        exact fun q hq heq => hnodup.1 (List.mem_map.mpr ⟨q, hq, heq⟩)
      · exact ih hnodup.2 h _

theorem metaRow_insertRow (db : Database) (row : Record) (k : Int) :
    (db.insertRow "memory_meta" row).metaRow k
      = (db.metaRow k).or (if row.col "memory_id" = .int k then some row else none) := by
  rw [Database.metaRow, Database.table_insertRow, if_pos rfl, List.find?_append]
  congr 1
  by_cases h : row.col "memory_id" = .int k <;> simp [h]

theorem metaRow_upsertMetaRow {fresh always : List (String × Value)}
    (hfresh : ∀ p ∈ fresh, p.1 ≠ "memory_id") (halways : ∀ p ∈ always, p.1 ≠ "memory_id")
    (id k : Int) (db : Database) :
    (upsertMetaRow id fresh always db).metaRow k
      = if k = id then some (match db.metaRow id with
          | some r => r.setAll always
          | none => memoryMetaDefaults.setAll (("memory_id", .int id) :: fresh ++ always))
        else db.metaRow k := by
  have hkey : (memoryMetaDefaults.setAll (("memory_id", .int id) :: fresh ++ always)).col
      "memory_id" = .int id := by
    rw [List.cons_append, Record.setAll, List.foldl_cons, ← Record.setAll,
      setAll_col_of_not_mem (fun p hp => (List.mem_append.mp hp).elim (hfresh p) (halways p)),
      Record.col_set_self]
  unfold upsertMetaRow
  cases hrow : db.metaRow id with
  | some row =>
      have hid : row.col "memory_id" = .int id := by
        simpa using List.find?_some hrow
      rw [Option.isSome_some, if_pos rfl,
        Database.metaRow_updateRows fun r => setAll_col_of_not_mem halways r]
      by_cases hk : k = id
      · subst hk
        simp [hrow, hid]
      · rw [if_neg hk]
        cases hother : db.metaRow k with
        | none => rfl
        | some r =>
            have hrk : r.col "memory_id" = .int k := by simpa using List.find?_some hother
            simp [hrk, hk]
  | none =>
      rw [Option.isSome_none, if_neg (by decide), metaRow_insertRow, hkey]
      by_cases hk : k = id
      · subst hk
        simp [hrow]
      · rw [if_neg hk, if_neg (by simpa using fun h => hk h.symm), Option.or_none]

end IronMem
