import IronMem.Capture

/-!
# Validation of a checkpoint

`validate` and what it asks of the assertion table. Every state goes through it
before it is stored, after it is loaded and before it is restored.

The checks are in the order of the source, each with its message. The ids of the
checkpoint's memories are collected first, and every row that names a memory has to name one
of these. The assertion table may be missing; where it is there, its columns have to repeat what
the stored event says, and the events of each scope, by version, have to be a chain.
-/

namespace IronMem

/-! ## Assertion history -/

/-- `event_id`. -/
def eventId (codec : Codec) (event : Event) : String := codec.digest (codec.eventToVec event)

/-- One round of `validate_chain`. -/
def validateEntry (codec : Codec) (entries : List Entry) (previous : Option Entry) (entry : Entry) :
    Except String Unit := do
  let event := entry.event
  event.scope.validate
  ensure (eventId codec event == entry.id) "assertion hash mismatch"
  ensure (event.version == (match previous with
      | some p => p.event.version + 1
      | none => 1) && event.previousHash == previous.map Entry.id)
    "assertion history is not contiguous"
  ensure (previous.all fun p =>
      p.event.scope == event.scope && decide (p.event.recordedAt ≤ event.recordedAt))
    "assertion scope or clock mismatch"
  ensure (event.validUntil.all fun stop => stop > event.validFrom) "invalid validity interval"
  ensure (event.value.all fun v => !(trim v).isEmpty && decide (byteLen v ≤ 4096))
    "invalid assertion value"
  ensure (event.value.isSome || event.supersedes.isSome) "retraction requires a target"
  ensure (event.supersedes.all fun target => entries.any fun p =>
      p.id == target && decide (p.event.version < event.version) && p.event.value.isSome &&
        decide (p.event.validFrom ≤ event.validFrom))
    "invalid supersession target"

/-- `validate_chain`. -/
def validateChain (codec : Codec) (entries : List Entry) : Except String Unit :=
  go none entries
where
  go (previous : Option Entry) : List Entry → Except String Unit
    | [] => .ok ()
    | entry :: rest => do
        validateEntry codec entries previous entry
        go (some entry) rest

/-- The columns that repeat what the event says. -/
def eventColumns (event : Event) : List (String × Value) :=
  [("project", .str event.scope.project), ("namespace", .str event.scope.namespace),
    ("subject", .str event.scope.subject), ("predicate", .str event.scope.predicate),
    ("version", .int event.version), ("memory_id", .int event.memoryId),
    ("recorded_at", .int event.recordedAt)]

/-- One row of the assertion table as an entry. -/
def readAssertion (codec : Codec) (row : Record) : Except String Entry := do
  ensure (["id", "project", "namespace", "subject", "predicate", "version", "memory_id",
    "recorded_at", "data"].all fun k => row.contains k) "incomplete assertion row"
  let data ← match row.text "data" with
    | some data => .ok data
    | none => .error "invalid assertion data"
  let event ← codec.eventFromStr data
  ensure ((eventColumns event).all fun (field, value) => row[field]? == some value)
    "assertion row projection mismatch"
  match row.text "id" with
  | some id => return { id, event }
  | none => throw "invalid assertion ID"

/-- `assertions::validate_checkpoint`: the rows of each scope, by version, form a
valid chain. -/
def validateAssertions (codec : Codec) (table : Table) : Except String Unit := do
  let scopes ← table.rows.foldlM (fun (acc : BTreeMap (List Entry)) row => do
    let entry ← readAssertion codec row
    let key := codec.scopeToString entry.event.scope
    return acc.insert key ((acc[key]?).getD [] ++ [entry])) ∅
  scopes.toList.forM fun (_, entries) =>
    validateChain codec (entries.insertionSort fun a b => a.event.version ≤ b.event.version)

/-! ## `validate` -/

def ASSERTIONS : String := "assertion_events"

def isIdentChar (c : Char) : Bool :=
  ('a' ≤ c ∧ c ≤ 'z') || ('A' ≤ c ∧ c ≤ 'Z') || ('0' ≤ c ∧ c ≤ '9') || c = '_'

/-- The tables are those of `TABLES`, at most the assertion table missing. -/
def validInventory (tables : BTreeMap Table) : Bool :=
  (tables.size == TABLES.length || tables.size + 1 == TABLES.length) &&
  (TABLES.filter (· != ASSERTIONS)).all (fun t => tables.contains t) &&
  tables.keys.all fun t => TABLES.contains t

/-- A table has sound column names, known types, and rows with exactly its
columns. -/
def validateShape (table : Table) : Except String Unit := do
  table.fields.forM fun (name, kind) => do
    ensure (name.toList.all isIdentChar) "invalid checkpoint column"
    let _ ← normalizedType kind
  ensure (table.rows.all fun row => row.size == table.fields.length &&
    table.fields.all fun (f, _) => row.contains f) "record schema mismatch"

/-- The tables whose rows carry the project. -/
def PROJECT_TABLES : List String :=
  ["sessions", "observations", "memories", "memory_edges", "memory_chunks", "code_anchors",
    "reflection_proposals", "contradiction_sets"]

/-- The tables whose rows carry a memory. -/
def MEMORY_TABLES : List String :=
  ["memory_meta", "memory_evidence_roots", "memory_influence_policy", "memory_entities",
    "memory_edges", "memory_chunks", "code_anchors", "contradiction_members"]

/-- The memory ids of a checkpoint. -/
def checkpointMemoryIds (state : State) : Except String (List Int) :=
  (rowsOf state.tables "memories").mapM fun r =>
    match r.i64 "id" with
    | some id => .ok id
    | none => .error "invalid memory ID"

/-- The assertion table, where there is one. -/
def validateAssertionTable (codec : Codec) (state : State) : Except String Unit :=
  match state.tables[ASSERTIONS]? with
  | some table => do
      validateAssertions codec table
      ensure (table.rows.all fun r => r.text "project" == some state.project)
        "cross-project assertion"
  | none => .ok ()

/-- `validate`. -/
def validate (codec : Codec) (state : State) : Except String Unit := do
  ensure (validInventory state.tables) "checkpoint table inventory mismatch"
  validateAssertionTable codec state
  state.tables.toList.forM fun (_, table) => validateShape table
  PROJECT_TABLES.forM fun name => ensure ((rowsOf state.tables name).all fun r =>
    r.text "project" == some state.project) "cross-project checkpoint record"
  let ids ← checkpointMemoryIds state
  ensure (decide ids.Nodup) "duplicate memory identity"
  MEMORY_TABLES.forM fun name => ensure ((rowsOf state.tables name).all fun r =>
    (r.i64 "memory_id").any fun id => ids.contains id)
    ("foreign memory in checkpoint table " ++ name)
  state.sources.toList.forM fun (hash, encoded) => do
    let bytes ← codec.base64Decode encoded
    ensure (codec.digest bytes == hash) "checkpoint source mismatch"
  SOURCE_FIELDS.forM fun (table, field) => ensure ((rowsOf state.tables table).all fun r =>
    (r.text field).all fun hash => state.sources.contains hash)
    "checkpoint source closure incomplete"

end IronMem
