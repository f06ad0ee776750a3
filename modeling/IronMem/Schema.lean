import IronMem.Database

/-!
# The captured tables

`PRAGMA table_info` of the tables a checkpoint captures, their constraints, and
the conversions SQLite applies when a checkpoint row is inserted.

Values travel as text and are cast to the type of the column. A value that has the type
already goes through unchanged (`castTo_of_hasType`), except for floating-point numbers,
which are read once more from their text.
-/

namespace IronMem

/-- One part of a key: a column, or `COALESCE(column, '')`. -/
inductive KeyPart where
  | column (name : String)
  | coalesced (name : String)
deriving DecidableEq

/-- A foreign key. Without `ON DELETE CASCADE` a referenced row cannot go. -/
structure Reference where
  column : String
  parent : String
  parentColumn : String
  cascade : Bool
deriving DecidableEq

structure TableSchema where
  columns : List (String × String)
  notNull : List String := []
  unique : List (List KeyPart) := []
  references : List Reference := []
  autoIncrement : Bool := false

def TABLES : List String :=
  ["sessions", "observations", "memories", "memory_meta", "memory_evidence_roots",
    "memory_influence_policy", "memory_entities", "memory_edges", "memory_chunks",
    "code_anchors", "reflection_proposals", "contradiction_sets", "contradiction_members",
    "assertion_events"]

/-- The foreign key of the side tables of `memory_meta`. -/
def ownedByMeta : Reference := ⟨"memory_id", "memory_meta", "memory_id", true⟩

def schema : String → TableSchema
  | "sessions" => {
      columns := [("id", "TEXT"), ("project", "TEXT"), ("started_at", "BIGINT"),
        ("ended_at", "BIGINT"), ("compressed", "BIGINT")]
      notNull := ["project", "started_at", "compressed"]
      unique := [[.column "id"]] }
  | "observations" => {
      columns := [("id", "INTEGER"), ("session_id", "TEXT"), ("project", "TEXT"),
        ("tool", "TEXT"), ("input", "TEXT"), ("output", "TEXT"), ("created_at", "INTEGER"),
        ("output_blob", "TEXT")]
      notNull := ["session_id", "project", "tool", "created_at"]
      unique := [[.column "id"]]
      references := [⟨"session_id", "sessions", "id", false⟩]
      autoIncrement := true }
  | "memories" => {
      columns := [("project", ""), ("session_id", ""), ("summary", ""), ("tags", ""),
        ("created_at", "")]
      unique := [[.column "rowid"]] }
  | "memory_meta" => {
      columns := [("memory_id", "BIGINT"), ("importance", "REAL"), ("created_at", "BIGINT"),
        ("session_blob", "TEXT"), ("scope", "TEXT"), ("kind", "TEXT"), ("event_time", "TEXT"),
        ("namespace", "TEXT"), ("source_type", "TEXT"), ("trust_tier", "TEXT"),
        ("writer_identity", "TEXT"), ("source_ref", "TEXT"), ("parent_memory_id", "BIGINT"),
        ("classification", "TEXT"), ("consent_state", "TEXT"), ("residency", "TEXT"),
        ("retention_policy_id", "TEXT"), ("expires_at", "BIGINT"), ("legal_hold", "BIGINT"),
        ("record_hash", "TEXT"), ("tombstoned_at", "BIGINT"), ("tombstone_reason", "TEXT"),
        ("trust_first_seen_at", "BIGINT"), ("trust_last_validated_at", "BIGINT"),
        ("trust_ref_count", "BIGINT"), ("maturity", "TEXT"), ("evidence_root_id", "TEXT"),
        ("derivation_depth", "BIGINT")]
      notNull := ["memory_id", "importance", "created_at", "scope", "kind", "namespace",
        "source_type", "trust_tier", "classification", "legal_hold", "trust_ref_count",
        "derivation_depth"]
      unique := [[.column "memory_id"]] }
  | "memory_evidence_roots" => {
      columns := [("memory_id", "BIGINT"), ("evidence_root_id", "TEXT"), ("role", "TEXT"),
        ("created_at", "BIGINT")]
      notNull := ["memory_id", "evidence_root_id", "role", "created_at"]
      unique := [[.column "memory_id", .column "evidence_root_id"]]
      references := [ownedByMeta] }
  | "memory_influence_policy" => {
      columns := [("memory_id", "BIGINT"), ("version", "BIGINT"), ("state", "TEXT"),
        ("allowed_task_types", "TEXT"), ("denied_task_types", "TEXT"),
        ("maximum_action_risk", "TEXT"), ("requires_original_source", "BIGINT"),
        ("requires_human_confirmation", "BIGINT"), ("maximum_derivation_depth", "BIGINT"),
        ("updated_by", "TEXT"), ("updated_at", "BIGINT")]
      notNull := ["version", "state", "allowed_task_types", "denied_task_types",
        "maximum_action_risk", "requires_original_source", "requires_human_confirmation",
        "updated_at"]
      unique := [[.column "memory_id"]]
      references := [ownedByMeta] }
  | "memory_entities" => {
      columns := [("memory_id", "BIGINT"), ("entity", "TEXT")]
      notNull := ["memory_id", "entity"] }
  | "memory_edges" => {
      columns := [("id", "INTEGER"), ("project", "TEXT"), ("memory_id", "BIGINT"),
        ("source", "TEXT"), ("source_norm", "TEXT"), ("relation", "TEXT"),
        ("relation_norm", "TEXT"), ("target", "TEXT"), ("target_norm", "TEXT"),
        ("valid_from", "TEXT"), ("valid_until", "TEXT"), ("observed_at", "BIGINT"),
        ("confidence", "REAL"), ("superseded_by", "BIGINT"), ("superseded_reason", "TEXT"),
        ("created_at", "BIGINT")]
      notNull := ["project", "memory_id", "source", "source_norm", "relation", "relation_norm",
        "target", "target_norm", "observed_at", "confidence", "created_at"]
      unique := [[.column "id"]]
      autoIncrement := true }
  | "memory_chunks" => {
      columns := [("id", "INTEGER"), ("chunk_id", "TEXT"), ("project", "TEXT"),
        ("memory_id", "BIGINT"), ("session_id", "TEXT"), ("ordinal", "BIGINT"),
        ("density", "TEXT"), ("kind", "TEXT"), ("title", "TEXT"), ("summary", "TEXT"),
        ("source_hash", "TEXT"), ("source_start", "BIGINT"), ("source_end", "BIGINT"),
        ("token_estimate", "BIGINT"), ("created_at", "BIGINT")]
      notNull := ["chunk_id", "project", "memory_id", "session_id", "ordinal", "density", "kind",
        "title", "summary", "token_estimate", "created_at"]
      unique := [[.column "id"], [.column "chunk_id"]]
      autoIncrement := true }
  | "code_anchors" => {
      columns := [("id", "INTEGER"), ("project", "TEXT"), ("memory_id", "BIGINT"),
        ("path", "TEXT"), ("language", "TEXT"), ("symbol_kind", "TEXT"),
        ("symbol_name", "TEXT"), ("ast_hash", "TEXT"), ("context_hash", "TEXT"),
        ("start_byte", "BIGINT"), ("end_byte", "BIGINT"), ("created_at", "BIGINT"),
        ("updated_at", "BIGINT")]
      notNull := ["project", "memory_id", "path", "language", "symbol_kind", "symbol_name",
        "ast_hash", "context_hash", "start_byte", "end_byte", "created_at", "updated_at"]
      unique := [[.column "id"]]
      autoIncrement := true }
  | "reflection_proposals" => {
      columns := [("id", "INTEGER"), ("project", "TEXT"), ("kind", "TEXT"),
        ("source_memory_ids", "TEXT"), ("proposed_summary", "TEXT"), ("status", "TEXT"),
        ("created_at", "BIGINT"), ("applied_at", "BIGINT")]
      notNull := ["project", "kind", "source_memory_ids", "proposed_summary", "status",
        "created_at"]
      unique := [[.column "id"]]
      autoIncrement := true }
  | "contradiction_sets" => {
      columns := [("id", "TEXT"), ("namespace", "TEXT"), ("realm", "TEXT"), ("project", "TEXT"),
        ("claim_key", "TEXT"), ("claim_schema_version", "BIGINT"), ("cardinality", "TEXT"),
        ("preferred_memory_id", "BIGINT"), ("status", "TEXT"), ("resolution_basis", "TEXT"),
        ("resolved_by", "TEXT"), ("version", "BIGINT"), ("created_at", "BIGINT"),
        ("updated_at", "BIGINT")]
      notNull := ["namespace", "realm", "claim_key", "claim_schema_version", "cardinality",
        "status", "version", "created_at", "updated_at"]
      unique := [[.column "id"], [.column "namespace", .column "realm", .coalesced "project",
        .column "claim_key"]] }
  | "contradiction_members" => {
      columns := [("contradiction_set_id", "TEXT"), ("memory_id", "BIGINT"), ("stance", "TEXT"),
        ("created_at", "BIGINT")]
      notNull := ["contradiction_set_id", "memory_id", "stance", "created_at"]
      unique := [[.column "contradiction_set_id", .column "memory_id"]]
      references := [⟨"contradiction_set_id", "contradiction_sets", "id", true⟩, ownedByMeta] }
  | "assertion_events" => {
      columns := [("id", "TEXT"), ("project", "TEXT"), ("namespace", "TEXT"),
        ("subject", "TEXT"), ("predicate", "TEXT"), ("version", "BIGINT"),
        ("memory_id", "BIGINT"), ("recorded_at", "BIGINT"), ("data", "TEXT")]
      notNull := ["project", "namespace", "subject", "predicate", "version", "memory_id",
        "recorded_at", "data"]
      unique := [[.column "id"], [.column "namespace", .column "project", .column "subject",
        .column "predicate", .column "version"]] }
  | "memory_ledger" => {
      columns := [("id", "INTEGER"), ("namespace", "TEXT"), ("memory_id", "BIGINT"),
        ("op_type", "TEXT"), ("actor", "TEXT"), ("prev_hash", "TEXT"), ("entry_hash", "TEXT"),
        ("payload", "TEXT"), ("created_at", "BIGINT")]
      notNull := ["namespace", "op_type", "entry_hash", "payload", "created_at"]
      unique := [[.column "id"], [.column "entry_hash"]]
      autoIncrement := true }
  | _ => { columns := [] }

theorem references_memory_meta : (schema "memory_meta").references = [] := rfl

/-- `normalized_type`. -/
def normalizedType (kind : String) : Except String String :=
  match toAsciiLowercase kind with
  | "integer" | "bigint" | "bigserial" => .ok "BIGINT"
  | "real" | "double precision" => .ok "DOUBLE PRECISION"
  | "text" | "" => .ok "TEXT"
  | _ => .error ("unsupported checkpoint column type " ++ kind)

/-! ## Keys -/

/-- The value a key part takes on a row; `NULL`s make keys distinct. -/
def KeyPart.value (r : Record) : KeyPart → Option Value
  | .column name => if (r.col name).isNull then none else some (r.col name)
  | .coalesced name => some (if (r.col name).isNull then .str "" else r.col name)

/-- The key of a row, unless a part is `NULL`. -/
def keyOf (parts : List KeyPart) (r : Record) : Option (List Value) :=
  parts.mapM (KeyPart.value r)

/-- Whether two rows collide on one key. -/
def collides (parts : List KeyPart) (a b : Record) : Bool :=
  match keyOf parts a with
  | some key => keyOf parts b == some key
  | none => false

/-! ## `CAST` -/

def isSqlSpace (c : Char) : Bool := c = ' ' || (9 ≤ c.toNat && c.toNat ≤ 13)

/-- The integer a run of decimal digits starts with. -/
def leadingDigits (cs : List Char) : Nat :=
  (cs.takeWhile Char.isDigit).foldl (fun n c => 10 * n + (c.toNat - 48)) 0

/-- Integers saturate to 64 bits. -/
def saturate (n : Int) : Int := max (-2 ^ 63) (min n (2 ^ 63 - 1))

/-- `CAST(text AS BIGINT)`: the longest integer prefix after blanks. -/
def castInteger (s : String) : Int :=
  match s.toList.dropWhile isSqlSpace with
  | '-' :: cs => saturate (-(leadingDigits cs : Int))
  | '+' :: cs => saturate (leadingDigits cs)
  | cs => saturate (leadingDigits cs)

/-- `CAST($n AS kind)` of a scalar, which is bound as text. -/
def castTo (codec : Codec) (kind : String) (v : Value) : Except String Value :=
  match v with
  | .null => .ok .null
  | .bool _ | .nested _ => .error "non-scalar checkpoint value"
  | .int n =>
      match kind with
      | "BIGINT" => .ok (.int (saturate n))
      | "DOUBLE PRECISION" => .ok (.real (codec.realFromText (toString n)))
      | _ => .ok (.str (toString n))
  | .real text | .str text =>
      match kind with
      | "BIGINT" => .ok (.int (castInteger text))
      | "DOUBLE PRECISION" => .ok (.real (codec.realFromText text))
      | _ => .ok (.str text)

/-- The values a column of this type holds. -/
def hasType (kind : String) : Value → Bool
  | .null => true
  | .int n => kind = "BIGINT" && decide (-2 ^ 63 ≤ n) && decide (n < 2 ^ 63)
  | .str _ => kind = "TEXT"
  | .real _ => kind = "DOUBLE PRECISION"
  | _ => false

theorem castTo_eq_null {codec : Codec} {kind : String} {v w : Value}
    (h : castTo codec kind v = .ok w) : w = .null ↔ v = .null := by
  unfold castTo at h
  split at h
  · rw [← Except.ok.inj h]
  · cases h
  · cases h
  all_goals
    have hw : w ≠ .null := by
      split at h <;> rw [← Except.ok.inj h] <;> nofun
    exact ⟨fun hnull => absurd hnull hw, nofun⟩

/-- A column value goes through `CAST` unchanged. -/
theorem castTo_of_hasType {codec : Codec} {kind : String} {v : Value} (h : hasType kind v = true)
    (hreal : kind ≠ "DOUBLE PRECISION") : castTo codec kind v = .ok v := by
  cases v with
  | null => rfl
  | bool b => cases h
  | nested t => cases h
  | int n =>
      simp only [hasType, Bool.and_eq_true, decide_eq_true_eq] at h
      obtain ⟨⟨rfl, hlo⟩, hhi⟩ := h
      have hsat : saturate n = n := by unfold saturate; omega
      simp [castTo, hsat]
  | real t =>
      simp only [hasType, decide_eq_true_eq] at h
      exact absurd h hreal
  | str s =>
      simp only [hasType, decide_eq_true_eq] at h
      subst h
      rfl

end IronMem
