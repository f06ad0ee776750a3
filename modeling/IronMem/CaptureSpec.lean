import IronMem.CheckpointDelta
import IronMem.Lib.Fallible
import IronMem.Validation

/-!
# What a capture holds

The rows, columns and sources of a captured state in terms of the database, and
what `validate` has checked of a state it accepts.

`capture` is a nest of loops over names, rows and columns. Nothing that follows
looks into them again: `Captures` says of a captured state what each of its tables
and sources is, and `Validated` says of a state that was checked which ids its rows
have and what they refer to. The results about restore and about chains of
checkpoints start from these two.
-/

namespace IronMem

open Fallible

/-! ## One row -/

section Rows

variable {fields : List (String × String)} {r : Record} {f : String}

theorem rowObject_col (fields : List (String × String)) (r : Record) (f : String) :
    (rowObject fields r).col f = if f ∈ fields.map Prod.fst then r.col f else .null := by
  have hfold : ∀ (fields : List (String × String)) (acc : Record),
      (fields.foldl (fun o g => o.set g.1 (r.col g.1)) acc).col f
        = if f ∈ fields.map Prod.fst then r.col f else acc.col f := by
    intro fields
    induction fields with
    | nil => intro acc; simp
    | cons g fields ih =>
        intro acc
        rw [List.foldl_cons, ih]
        by_cases hf : f ∈ fields.map Prod.fst
        · simp [hf]
        · by_cases hg : g.1 = f
          · subst hg; simp
          · simp only [hf, if_false, List.map_cons, List.mem_cons, Ne.symm hg, false_or]
            exact Record.col_set_of_ne _ _ hg
  exact hfold fields ∅

theorem captureRow_col {name : String} (hname : name ≠ "memories")
    (hf : f ∈ (schema name).columns.map Prod.fst) : (captureRow name r).col f = r.col f := by
  rw [captureRow, if_neg hname, rowObject_col, if_pos hf]

end Rows

/-! ## Tables

The loops of `capture` fill maps from lists of names. What is in a map afterwards is said by
name (`foldlM_insert_ok`), once for the tables and once for the sources. -/

/-- The column types a capture records. -/
def captureFields (name : String) : List (String × String) :=
  (if name = "memories" then memoryFields else (schema name).columns).map fun f =>
    (f.1, ((normalizedType f.2).toOption).getD "")

/-- The columns that the results on restore look at, computed together: the column types of a
table come out of one evaluation. -/
theorem captured_types :
    (∀ f ∈ ["memory_id", "derivation_depth", "expires_at", "legal_hold", "tombstoned_at"],
      (f, "BIGINT") ∈ captureFields "memory_meta") ∧
    (∀ f ∈ ["namespace", "source_type", "trust_tier", "writer_identity", "classification",
      "consent_state", "residency", "retention_policy_id", "scope", "tombstone_reason"],
      (f, "TEXT") ∈ captureFields "memory_meta") ∧
    (("id", "BIGINT") ∈ captureFields "memories" ∧
      ∀ f ∈ ["project", "session_id", "summary", "tags"], (f, "TEXT") ∈ captureFields "memories") ∧
    ("memory_id", "BIGINT") ∈ captureFields "memory_influence_policy" ∧
    (∀ f ∈ captureFields "memory_influence_policy", f.2 ≠ "DOUBLE PRECISION") ∧
    ∀ name ∈ ["memory_meta", "memory_influence_policy"],
      ∀ f ∈ captureFields name, f.1 ∈ (schema name).columns.map Prod.fst := by
  decide +kernel

theorem captured_bigint : ∀ f ∈ ["memory_id", "derivation_depth", "expires_at", "legal_hold",
    "tombstoned_at"], (f, "BIGINT") ∈ captureFields "memory_meta" :=
  captured_types.1

theorem captured_text : ∀ f ∈ ["namespace", "source_type", "trust_tier", "writer_identity",
    "classification", "consent_state", "residency", "retention_policy_id", "scope",
    "tombstone_reason"], (f, "TEXT") ∈ captureFields "memory_meta" :=
  captured_types.2.1

theorem captured_memories : ("id", "BIGINT") ∈ captureFields "memories" ∧
    ∀ f ∈ ["project", "session_id", "summary", "tags"], (f, "TEXT") ∈ captureFields "memories" :=
  captured_types.2.2.1

theorem captured_policy_memory_id :
    ("memory_id", "BIGINT") ∈ captureFields "memory_influence_policy" :=
  captured_types.2.2.2.1

theorem captured_policy_not_real :
    ∀ f ∈ captureFields "memory_influence_policy", f.2 ≠ "DOUBLE PRECISION" :=
  captured_types.2.2.2.2.1

theorem captured_column : ∀ name ∈ ["memory_meta", "memory_influence_policy"],
    ∀ f ∈ captureFields name, f.1 ∈ (schema name).columns.map Prod.fst :=
  captured_types.2.2.2.2.2

section Tables

variable {codec : Codec} {db : Database} {project name : String}

theorem captureTable_ok {t : Table} (h : captureTable codec db project name = .ok t) :
    t.fields = captureFields name ∧ t.rows = codec.sortRows
      (((db.table name).filter (db.inProject project name)).map (captureRow name)) := by
  obtain ⟨_, -, h⟩ := bind_eq_ok.mp h
  obtain ⟨fields, hfields, h⟩ := bind_eq_ok.mp h
  obtain rfl := pure_eq_ok.mp h
  refine ⟨?_, rfl⟩
  have hall := forall₂_of_mapM hfields
  rw [captureFields, ← List.forall₂_eq_eq_eq, List.forall₂_map_right_iff]
  refine hall.flip.imp fun g f hfg => ?_
  obtain ⟨kind, hkind, hg⟩ := bind_eq_ok.mp hfg
  obtain rfl := pure_eq_ok.mp hg
  rw [hkind]
  rfl

/-- A captured row is the image of a row of the project. -/
theorem mem_captureTable {t : Table} (h : captureTable codec db project name = .ok t)
    {c : Record} : c ∈ t.rows ↔
      ∃ r ∈ db.table name, db.inProject project name r = true ∧ captureRow name r = c := by
  rw [(captureTable_ok h).2, Codec.sortRows, RowDiff.mem_sortBy, List.mem_map]
  simp only [List.mem_filter, and_assoc]

/-- A loop that fills a map from a list of names. -/
theorem foldlM_insert_ok {f : String → Except String Table} {names : List String}
    {acc tables : BTreeMap Table}
    (h : names.foldlM (fun (acc : BTreeMap Table) name => do
      return acc.insert name (← f name)) acc = .ok tables) :
    (∀ n ∈ names, names.Nodup → ∃ t, f n = .ok t ∧ tables[n]? = some t) ∧
      ∀ n, n ∉ names → tables[n]? = acc[n]? := by
  induction names generalizing acc with
  | nil =>
      obtain rfl := foldlM_nil_eq_ok.mp h
      exact ⟨by simp, fun _ _ => rfl⟩
  | cons name names ih =>
      obtain ⟨acc', hacc, h⟩ := foldlM_cons_eq_ok.mp h
      obtain ⟨t, ht, hacc⟩ := bind_eq_ok.mp hacc
      obtain rfl := pure_eq_ok.mp hacc
      obtain ⟨hmem, hframe⟩ := ih h
      refine ⟨fun n hn hnodup => ?_, fun n hn => ?_⟩
      · rw [List.nodup_cons] at hnodup
        rcases List.mem_cons.mp hn with rfl | hn
        · exact ⟨t, ht, by rw [hframe n hnodup.1]; simp⟩
        · exact hmem n hn hnodup.2
      · rw [List.mem_cons, not_or] at hn
        rw [hframe n hn.2, Std.ExtTreeMap.getElem?_insert]
        simp [Ne.symm hn.1]

/-- What a captured state holds. -/
structure Captures (codec : Codec) (db : Database) (project : String) (state : State) : Prop where
  project_eq : state.project = project
  tables : ∀ name ∈ TABLES, ∃ t, captureTable codec db project name = .ok t
    ∧ state.tables[name]? = some t
  noOther : ∀ name, name ∉ TABLES → state.tables[name]? = none
  noCross : crossProjectMembers db project = 0

theorem capture_ok {includeSources : Bool} {state : State}
    (h : capture codec db project includeSources = .ok state) :
    Captures codec db project state := by
  obtain ⟨tables, htables, h⟩ := bind_eq_ok.mp h
  obtain ⟨_, hcross, h⟩ := bind_eq_ok.mp h
  obtain ⟨sources, -, h⟩ := bind_eq_ok.mp h
  obtain ⟨evidence, -, h⟩ := bind_eq_ok.mp h
  obtain rfl := pure_eq_ok.mp h
  obtain ⟨hmem, hframe⟩ := foldlM_insert_ok htables
  refine ⟨rfl, fun name hname => hmem name hname (by decide), fun name hname => ?_, ?_⟩
  · rw [hframe name hname]
    simp
  · simpa using ensure_eq_ok.mp hcross

variable {state : State}

theorem Captures.fields (h : Captures codec db project state) (hname : name ∈ TABLES) :
    (state.tables[name]?).map Table.fields = some (captureFields name) := by
  obtain ⟨t, ht, hget⟩ := h.tables name hname
  rw [hget, Option.map_some, (captureTable_ok ht).1]

theorem Captures.mem_rowsOf (h : Captures codec db project state) (hname : name ∈ TABLES)
    {c : Record} : c ∈ rowsOf state.tables name ↔
      ∃ r ∈ db.table name, db.inProject project name r = true ∧ captureRow name r = c := by
  obtain ⟨t, ht, hget⟩ := h.tables name hname
  rw [rowsOf, hget]
  exact mem_captureTable ht

end Tables

/-! ## Validated states

Of the many checks of `validate` the results about restore use few: the tables there are, the
ids of the memories, and that rows which name a memory name one of these. -/

section Validated

variable {codec : Codec} {state : State}

/-- What the results about restore need of a validated checkpoint. -/
structure Validated (codec : Codec) (state : State) : Prop where
  project : ∀ name ∈ PROJECT_TABLES, ∀ r ∈ rowsOf state.tables name,
    r.col "project" = .str state.project
  memoryId : ∀ m ∈ rowsOf state.tables "memories", ∃ id : Int, m.col "id" = .int id
    ∧ -2 ^ 63 ≤ id ∧ id < 2 ^ 63
  distinct : ∀ m ∈ rowsOf state.tables "memories", ∀ m' ∈ rowsOf state.tables "memories",
    m.col "id" = m'.col "id" → m = m'
  owned : ∀ name ∈ MEMORY_TABLES, ∀ r ∈ rowsOf state.tables name,
    ∃ m ∈ rowsOf state.tables "memories", m.col "id" = r.col "memory_id"
  sources : ∀ e ∈ state.sources.toList, ∃ bytes, codec.base64Decode e.2 = .ok bytes
    ∧ codec.digest bytes = e.1
  closure : ∀ source ∈ SOURCE_FIELDS, ∀ r ∈ rowsOf state.tables source.1, ∀ hash,
    r.text source.2 = some hash → state.sources.contains hash = true

theorem Record.i64_eq_some {r : Record} {f : String} {n : Int} (h : r.i64 f = some n) :
    r.col f = .int n ∧ -2 ^ 63 ≤ n ∧ n < 2 ^ 63 := by
  have hcol := Value.asI64_eq_some h
  refine ⟨hcol, ?_⟩
  rw [Record.i64, hcol, Value.asI64] at h
  split at h
  · assumption
  · cases h

/-- The ids a checkpoint has, in order. -/
theorem checkpointMemoryIds_ok {ids : List Int} (h : checkpointMemoryIds state = .ok ids) :
    List.Forall₂ (fun r id => r.i64 "id" = some id) (rowsOf state.tables "memories") ids := by
  refine (forall₂_of_mapM h).imp fun r id hid => ?_
  cases hr : r.i64 "id" with
  | none => rw [hr] at hid; cases hid
  | some n => rw [hr] at hid; rw [Except.ok.inj hid]

theorem validate_ok (h : validate codec state = .ok ()) : Validated codec state := by
  obtain ⟨_, -, h⟩ := bind_eq_ok.mp h
  obtain ⟨_, -, h⟩ := bind_eq_ok.mp h
  obtain ⟨_, -, h⟩ := bind_eq_ok.mp h
  obtain ⟨_, hproject, h⟩ := bind_eq_ok.mp h
  obtain ⟨ids, hids, h⟩ := bind_eq_ok.mp h
  obtain ⟨_, hnodup, h⟩ := bind_eq_ok.mp h
  obtain ⟨_, howned, h⟩ := bind_eq_ok.mp h
  obtain ⟨_, hsources, hclosure⟩ := bind_eq_ok.mp h
  have hall := checkpointMemoryIds_ok hids
  rw [ensure_eq_ok, decide_eq_true_eq] at hnodup
  have hsome : ∀ m ∈ rowsOf state.tables "memories", ∃ id ∈ ids, m.i64 "id" = some id := by
    intro m hm
    obtain ⟨i, hi, rfl⟩ := List.mem_iff_getElem.mp hm
    obtain ⟨hlen, hget⟩ := List.forall₂_iff_get.mp hall
    exact ⟨ids.get ⟨i, hlen ▸ hi⟩, List.get_mem .., hget i hi (hlen ▸ hi)⟩
  have hmap : (rowsOf state.tables "memories").map (fun r => (r.i64 "id").getD 0) = ids := by
    rw [← List.forall₂_eq_eq_eq, List.forall₂_map_left_iff]
    exact hall.imp fun r id hid => by rw [hid]; rfl
  refine ⟨fun name hname r hr => ?_, fun m hm => ?_, fun m hm m' hm' heq => ?_,
    fun name hname r hr => ?_, fun e he => ?_, fun source hsource r hr hash htext => ?_⟩
  · have hrows := ensure_eq_ok.mp (forM_eq_ok.mp hproject name hname)
    exact Value.asStr_eq_some.mp (beq_iff_eq.mp (List.all_eq_true.mp hrows r hr))
  · obtain ⟨id, -, hid⟩ := hsome m hm
    exact ⟨id, Record.i64_eq_some hid⟩
  · refine List.inj_on_of_nodup_map (hmap ▸ hnodup) hm hm' ?_
    simp only [Record.i64, heq]
  · have hrows := ensure_eq_ok.mp (forM_eq_ok.mp howned name hname)
    have hr := List.all_eq_true.mp hrows r hr
    cases hid : r.i64 "memory_id" with
    | none => rw [hid] at hr; cases hr
    | some id =>
        rw [hid, Option.any_some, List.contains_iff_mem, ← hmap] at hr
        obtain ⟨m, hm, hmid⟩ := List.mem_map.mp hr
        obtain ⟨id', -, hid'⟩ := hsome m hm
        rw [hid', Option.getD_some] at hmid
        exact ⟨m, hm, (Record.i64_eq_some hid').1.trans
          (hmid ▸ (Record.i64_eq_some hid).1.symm)⟩
  · have hsource := forM_eq_ok.mp hsources e he
    obtain ⟨bytes, hbytes, hdigest⟩ := bind_eq_ok.mp hsource
    exact ⟨bytes, hbytes, beq_iff_eq.mp (ensure_eq_ok.mp hdigest)⟩
  · have hrows := ensure_eq_ok.mp (forM_eq_ok.mp hclosure source hsource)
    have hr := List.all_eq_true.mp hrows r hr
    rwa [htext] at hr

end Validated

end IronMem
