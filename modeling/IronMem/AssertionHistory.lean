import Mathlib.Data.List.Sort
import IronMem.Lib.Numbered
import IronMem.RestoreSpec

/-!
# Restore and assertion history

Assertion events are immutable, and `restore` must not take any back. It unites
the events of the checkpoint with the live ones by id, sorts each scope by version
and validates every chain. That such a union is the longer of two histories, or
refused, rests on one fact about valid chains: their versions are `1, 2, 3, …`, so
two events of one valid chain with the same version are one event.

The way there:

- **events for rows** (`AssertionRow`, `entries_of_rows`): what `entries` reads of
  one scope is the list of events its rows hold, by version. A validated table is a
  `History`: every row holds an event, every scope of them is a valid chain.
- **the merge** (`mem_mergeAssertion`, `MergedAssertions.longer`): the merged rows
  are the saved ones and the live ones. Both histories of a scope are among them, and
  a valid chain that contains two chains from their beginnings on makes one of them
  a prefix of the other.
- **the replacement** (`writeRestore_assertions`): only the deletion of the
  project's own rows reaches the table, and an inserted row holds the event of the
  row it was made from. A scope names its project, so the other scopes keep what
  they had.

A restore over histories that have parted never gets as far as writing
(`restore_parted`).
-/

namespace IronMem

open Fallible

/-! ## The history of one scope

`entries` selects the rows of a scope, sorts them by version and reads each. `scopeHistory` is
the same on events instead of rows, and the results below are about it. -/

/-- The rows the query of `entries` selects. -/
def inScope (scope : Scope) (r : Record) : Bool :=
  r.col "namespace" = .str scope.namespace ∧ r.col "project" = .str scope.project ∧
    r.col "subject" = .str scope.subject ∧ r.col "predicate" = .str scope.predicate

def readEntry (codec : Codec) (r : Record) : Except String Entry := do
  let id ← strField r "id"
  let data ← strField r "data"
  let event ← codec.eventFromStr data
  return { id, event }

/-- `ORDER BY version`. -/
def byVersion (rows : List Record) : List Record :=
  rows.insertionSort fun a b => (a.integer "version").getD 0 ≤ (b.integer "version").getD 0

/-- `entries`: the validated history of one scope. -/
def entries (codec : Codec) (rows : List Record) (scope : Scope) : Except String (List Entry) := do
  let result ← (byVersion (rows.filter (inScope scope))).mapM (readEntry codec)
  validateChain codec result
  return result

/-- The events of one scope, by version. -/
def scopeHistory (es : List Entry) (scope : Scope) : List Entry :=
  (es.filter fun e => e.event.scope = scope).insertionSort fun a b =>
    a.event.version ≤ b.event.version

theorem mem_scopeHistory {es : List Entry} {scope : Scope} {e : Entry} :
    e ∈ scopeHistory es scope ↔ e ∈ es ∧ e.event.scope = scope := by
  rw [scopeHistory, List.mem_insertionSort, List.mem_filter, decide_eq_true_eq]

/-! ## Valid chains

`validate_chain` compares each event with the one before. Two things follow from all of its
rounds together: the versions of a valid chain are its positions, which is all that `Numbered`
asks for, and its events are of one scope. -/

section Chain

variable {codec : Codec} {es : List Entry}

/-- What one round of the validation establishes about versions and scopes. -/
theorem validateEntry_ok {previous : Option Entry} {entry : Entry}
    (h : validateEntry codec es previous entry = .ok ()) :
    entry.event.version = previous.elim 1 (fun p => p.event.version + 1) ∧
      ∀ p, previous = some p → p.event.scope = entry.event.scope := by
  obtain ⟨_, -, h⟩ := bind_eq_ok.mp h
  obtain ⟨_, -, h⟩ := bind_eq_ok.mp h
  obtain ⟨_, hversion, h⟩ := bind_eq_ok.mp h
  obtain ⟨_, hscope, -⟩ := bind_eq_ok.mp h
  rw [ensure_eq_ok, Bool.and_eq_true, beq_iff_eq] at hversion
  refine ⟨?_, fun p hp => ?_⟩
  · rw [hversion.1]
    cases previous <;> rfl
  · rw [ensure_eq_ok, hp, Option.all_some, Bool.and_eq_true, beq_iff_eq] at hscope
    exact hscope.1

/-- After a valid beginning the versions go on counting and the scope stays. -/
theorem validateChain_go {before rest : List Entry} (hbefore : before ≠ [])
    (hnumbered : Numbered (fun e : Entry => e.event.version) before) {scope : Scope}
    (hscope : ∀ e ∈ before, e.event.scope = scope)
    (h : validateChain.go codec es before.getLast? rest = .ok ()) :
    Numbered (fun e : Entry => e.event.version) (before ++ rest) ∧
      ∀ e ∈ before ++ rest, e.event.scope = scope := by
  induction rest generalizing before with
  | nil =>
      rw [List.append_nil]
      exact ⟨hnumbered, hscope⟩
  | cons entry rest ih =>
      obtain ⟨_, hentry, hrest⟩ := bind_eq_ok.mp h
      obtain ⟨hversion, hsame⟩ := validateEntry_ok hentry
      have hlast := List.getLast?_eq_some_getLast hbefore
      rw [hlast, Option.elim_some] at hversion
      have hlen : 0 < before.length := List.length_pos_iff.mpr hbefore
      have hcount : (before.getLast hbefore).event.version = before.length := by
        have hnumber : before[before.length - 1].event.version = (before.length - 1 : Nat) + 1 :=
          hnumbered (before.length - 1) (by omega)
        rw [List.getLast_eq_getElem, hnumber]
        omega
      have happend := @ih (before ++ [entry]) (by simp)
        (hnumbered.append_singleton (by rw [hversion, hcount])) (fun e he => by
          rcases List.mem_append.mp he with he | he
          · exact hscope e he
          · rw [List.mem_singleton.mp he, ← hsame _ hlast]
            exact hscope _ (List.getLast_mem hbefore))
        (by rwa [List.getLast?_concat])
      rwa [List.append_assoc, List.singleton_append] at happend

/-- A valid chain counts `1, 2, 3, …` within one scope. -/
theorem validateChain_ok (h : validateChain codec es = .ok ()) :
    Numbered (fun e : Entry => e.event.version) es ∧
      ∀ e ∈ es, ∀ e' ∈ es, e.event.scope = e'.event.scope := by
  cases es with
  | nil => exact ⟨fun i hi => absurd hi (Nat.not_lt_zero i), by simp⟩
  | cons entry rest =>
      obtain ⟨_, hentry, hrest⟩ := bind_eq_ok.mp h
      obtain ⟨hversion, -⟩ := validateEntry_ok hentry
      have hone : Numbered (fun e : Entry => e.event.version) [entry] := by
        intro i hi
        obtain rfl : i = 0 := by simpa using hi
        simpa using hversion
      obtain ⟨hnumbered, hscope⟩ := @validateChain_go codec (entry :: rest) [entry] rest (by simp)
        hone entry.event.scope (by simp) hrest
      exact ⟨hnumbered, fun e he e' he' => (hscope e he).trans (hscope e' he').symm⟩

end Chain

/-! ## Rows that hold events -/

/-- The row holds this event: its id, its text, and the columns that repeat it. -/
structure AssertionRow (codec : Codec) (r : Record) (e : Entry) : Prop where
  id : r.col "id" = .str e.id
  data : ∃ text, r.col "data" = .str text ∧ codec.eventFromStr text = .ok e.event
  columns : ∀ c ∈ eventColumns e.event, r.col c.1 = c.2

section Rows

variable {codec : Codec} {r r' : Record} {e : Entry} {rows : List Record} {es : List Entry}

theorem AssertionRow.col (h : AssertionRow codec r e) {f : String} {v : Value}
    (hf : (f, v) ∈ eventColumns e.event) : r.col f = v :=
  h.columns (f, v) hf

theorem readAssertion_ok (h : readAssertion codec r = .ok e) : AssertionRow codec r e := by
  obtain ⟨_, -, h⟩ := bind_eq_ok.mp h
  dsimp only at h
  split at h
  · next text htext =>
      obtain ⟨data, hdata, h⟩ := bind_eq_ok.mp h
      obtain rfl := Except.ok.inj hdata
      obtain ⟨event, hevent, h⟩ := bind_eq_ok.mp h
      obtain ⟨_, hcolumns, h⟩ := bind_eq_ok.mp h
      split at h
      · next id hid =>
          obtain rfl := pure_eq_ok.mp h
          refine ⟨Value.asStr_eq_some.mp hid, ⟨_, Value.asStr_eq_some.mp htext, hevent⟩,
            fun c hc => ?_⟩
          have heq := List.all_eq_true.mp (ensure_eq_ok.mp hcolumns) c hc
          rw [Record.col, beq_iff_eq.mp heq]
          rfl
      · cases h
  · cases h

theorem AssertionRow.readEntry (h : AssertionRow codec r e) : readEntry codec r = .ok e := by
  obtain ⟨text, htext, hevent⟩ := h.data
  have hid : strField r "id" = .ok e.id := by rw [strField, Record.text, h.id]; rfl
  have hdata : strField r "data" = .ok text := by rw [strField, Record.text, htext]; rfl
  rw [IronMem.readEntry, hid, hdata]
  exact bind_eq_ok.mpr ⟨_, rfl, bind_eq_ok.mpr ⟨_, rfl, bind_eq_ok.mpr ⟨_, hevent, rfl⟩⟩⟩

theorem AssertionRow.version (h : AssertionRow codec r e) :
    r.integer "version" = some e.event.version := by
  have hcol : r.col "version" = .int e.event.version := h.col (by simp [eventColumns])
  rw [Record.integer, hcol]

theorem AssertionRow.inScope (h : AssertionRow codec r e) (scope : Scope) :
    inScope scope r = true ↔ e.event.scope = scope := by
  have hnamespace : r.col "namespace" = .str e.event.scope.namespace :=
    h.col (by simp [eventColumns])
  have hproject : r.col "project" = .str e.event.scope.project := h.col (by simp [eventColumns])
  have hsubject : r.col "subject" = .str e.event.scope.subject := h.col (by simp [eventColumns])
  have hpredicate : r.col "predicate" = .str e.event.scope.predicate :=
    h.col (by simp [eventColumns])
  simp only [IronMem.inScope, hnamespace, hproject, hsubject, hpredicate, decide_eq_true_eq,
    Value.str.injEq]
  constructor
  · rintro ⟨h1, h2, h3, h4⟩
    cases hs : e.event.scope
    cases scope
    simp_all
  · rintro rfl
    exact ⟨rfl, rfl, rfl, rfl⟩

theorem AssertionRow.congr (h : AssertionRow codec r e)
    (hcol : ∀ f ∈ (schema ASSERTIONS).columns, r'.col f.1 = r.col f.1) :
    AssertionRow codec r' e := by
  simp only [schema, ASSERTIONS, List.forall_mem_cons] at hcol
  obtain ⟨hid, hproject, hnamespace, hsubject, hpredicate, hversion, hmemory, hrecorded, hdata, -⟩ :=
    hcol
  refine ⟨hid.trans h.id, ?_, fun c hc => ?_⟩
  · rw [hdata]
    exact h.data
  · rw [← h.columns c hc]
    simp only [eventColumns, List.mem_cons, List.not_mem_nil, or_false] at hc
    rcases hc with rfl | rfl | rfl | rfl | rfl | rfl | rfl <;> assumption

/-- Reading the rows of one scope gives its events, by version. -/
theorem entries_of_rows (hrows : List.Forall₂ (AssertionRow codec) rows es) {scope : Scope}
    (hvalid : validateChain codec (scopeHistory es scope) = .ok ()) :
    entries codec rows scope = .ok (scopeHistory es scope) := by
  have hfilter : List.Forall₂ (AssertionRow codec) (rows.filter (inScope scope))
      (es.filter fun e => e.event.scope = scope) :=
    List.rel_filter (fun r e h => by simpa using h.inScope scope) hrows
  have hsorted : List.Forall₂ (AssertionRow codec) (byVersion (rows.filter (inScope scope)))
      (scopeHistory es scope) :=
    RowDiff.forall₂_insertionSort (fun r r' e e' h h' => by rw [h.version, h'.version]; rfl) hfilter
  exact bind_eq_ok.mpr ⟨_, mapM_of_forall₂ (hsorted.imp fun r e h => h.readEntry),
    bind_eq_ok.mpr ⟨(), hvalid, rfl⟩⟩

/-! ## The validated assertion table

The validation groups the rows by the printed scope in a map and checks each group. Two scopes
that print alike would share a group; the round over their events compares the scopes, so that a
group that passes holds the events of one scope. -/

/-- The groups by scope, collected row by row. -/
theorem groupRows_ok {acc groups : BTreeMap (List Entry)} {before : List Entry}
    (hacc : ∀ key, (acc[key]?).getD []
      = before.filter fun e => codec.scopeToString e.event.scope = key)
    (h : rows.foldlM (fun (acc : BTreeMap (List Entry)) row => do
      let entry ← readAssertion codec row
      let key := codec.scopeToString entry.event.scope
      return acc.insert key ((acc[key]?).getD [] ++ [entry])) acc = .ok groups) :
    ∃ es, List.Forall₂ (AssertionRow codec) rows es ∧ ∀ key, (groups[key]?).getD []
      = (before ++ es).filter fun e => codec.scopeToString e.event.scope = key := by
  induction rows generalizing acc before with
  | nil =>
      obtain rfl := foldlM_nil_eq_ok.mp h
      exact ⟨[], .nil, by simpa using hacc⟩
  | cons row rows ih =>
      obtain ⟨t, ht, h⟩ := foldlM_cons_eq_ok.mp h
      obtain ⟨entry, hentry, ht⟩ := bind_eq_ok.mp ht
      obtain rfl := pure_eq_ok.mp ht
      obtain ⟨es, hes, hgroups⟩ := @ih _ (before ++ [entry]) (fun key => by
        rw [Std.ExtTreeMap.getElem?_insert, List.filter_append, ← hacc key]
        by_cases hkey : codec.scopeToString entry.event.scope = key
        · simp [hkey]
        · simp [hkey]) h
      exact ⟨entry :: es, .cons (readAssertion_ok hentry) hes, by simpa using hgroups⟩

/-- The rows of a validated table hold events, and every scope has a valid chain.
A group has one key, and a valid group has one scope. -/
theorem validateAssertions_ok {table : Table} (h : validateAssertions codec table = .ok ()) :
    ∃ es, List.Forall₂ (AssertionRow codec) table.rows es ∧
      ∀ scope, validateChain codec (scopeHistory es scope) = .ok () := by
  obtain ⟨groups, hgroups, h⟩ := bind_eq_ok.mp h
  obtain ⟨es, hes, hget⟩ := @groupRows_ok codec table.rows ∅ groups [] (by simp) hgroups
  refine ⟨es, hes, fun scope => ?_⟩
  rcases List.eq_nil_or_concat' (scopeHistory es scope) with hnil | ⟨_, e, he⟩
  · rw [hnil]
    rfl
  · have he : e ∈ scopeHistory es scope := by simp [he]
    obtain ⟨hmem, rfl⟩ := mem_scopeHistory.mp he
    have hkey := hget (codec.scopeToString e.event.scope)
    rw [List.nil_append] at hkey
    have hgroup : e ∈ es.filter fun e' =>
        codec.scopeToString e'.event.scope = codec.scopeToString e.event.scope := by simp [hmem]
    cases hlookup : groups[codec.scopeToString e.event.scope]? with
    | none =>
        rw [hlookup, Option.getD_none] at hkey
        rw [← hkey] at hgroup
        exact absurd hgroup List.not_mem_nil
    | some group =>
        rw [hlookup, Option.getD_some] at hkey
        have hvalid := forM_eq_ok.mp h _ (Std.ExtTreeMap.mem_toList_iff_getElem?_eq_some.mpr hlookup)
        have hscope := (validateChain_ok hvalid).2
        have heq : es.filter (fun e' => e'.event.scope = e.event.scope) = group := by
          rw [hkey]
          refine List.filter_congr fun e' he' => decide_eq_decide.mpr
            ⟨fun heq => by rw [heq], fun heq => ?_⟩
          refine hscope e' ?_ e ?_
          · rw [List.mem_insertionSort, hkey]
            simp [he', heq]
          · rw [List.mem_insertionSort, hkey]
            exact hgroup
        rw [scopeHistory, heq]
        exact hvalid

end Rows

/-! ## The merge

The merge adds to the checkpoint's rows every live row whose id is not there, and refuses a live
row whose id is there with other contents. The merged table is validated before anything is
written, so that what is in it is a `History` again. -/

section Merge

variable {codec : Codec} {args : RestoreArgs} {state : State} {db db' : Database}
  {tables : BTreeMap Table}

/-- The merge unites the rows: a live row the checkpoint knows is the same row. -/
theorem mem_mergeAssertion {saved live rows : List Record}
    (h : live.foldlM mergeAssertion saved = .ok rows) (r : Record) :
    r ∈ rows ↔ r ∈ saved ∨ r ∈ live := by
  induction live generalizing saved with
  | nil =>
      obtain rfl := foldlM_nil_eq_ok.mp h
      simp
  | cons a live ih =>
      obtain ⟨t, ht, h⟩ := foldlM_cons_eq_ok.mp h
      have hstep : r ∈ t ↔ r ∈ saved ∨ r = a := by
        unfold mergeAssertion at ht
        split at ht
        · next historical hfind =>
            obtain ⟨_, heq, ht⟩ := bind_eq_ok.mp ht
            obtain rfl := pure_eq_ok.mp ht
            obtain rfl := beq_iff_eq.mp (ensure_eq_ok.mp heq)
            refine ⟨Or.inl, ?_⟩
            rintro (hr | rfl)
            · exact hr
            · exact List.mem_of_find?_eq_some hfind
        · obtain rfl := Except.ok.inj ht
          rw [List.mem_append, List.mem_singleton]
      rw [ih h, hstep, List.mem_cons, or_assoc]

/-- The rows hold these events, and every scope of them has a valid chain. -/
structure History (codec : Codec) (rows : List Record) (es : List Entry) : Prop where
  rows : List.Forall₂ (AssertionRow codec) rows es
  valid : ∀ scope, validateChain codec (scopeHistory es scope) = .ok ()

theorem History.of_validateAssertions {table : Table}
    (h : validateAssertions codec table = .ok ()) : ∃ es, History codec table.rows es :=
  let ⟨es, hrows, hvalid⟩ := validateAssertions_ok h
  ⟨es, hrows, hvalid⟩

theorem History.entries {rows : List Record} {es : List Entry} (h : History codec rows es)
    (scope : Scope) : entries codec rows scope = .ok (scopeHistory es scope) :=
  entries_of_rows h.rows (h.valid scope)

/-- The assertion rows that replace the project's. -/
structure MergedAssertions (codec : Codec) (state : State) (db : Database)
    (tables : BTreeMap Table) : Prop where
  saved : ∃ es, History codec (rowsOf state.tables ASSERTIONS) es
  merged : ∃ es, History codec (rowsOf tables ASSERTIONS) es
  project : ∀ r ∈ rowsOf state.tables ASSERTIONS, r.col "project" = .str state.project
  fields : fieldsOf tables ASSERTIONS = captureFields ASSERTIONS
  mem : ∀ r, r ∈ rowsOf tables ASSERTIONS ↔ r ∈ rowsOf state.tables ASSERTIONS ∨
    ∃ r' ∈ db.table ASSERTIONS, r'.col "project" = .str state.project ∧
      captureRow ASSERTIONS r' = r

theorem savedAssertions_ok (h : validate codec state = .ok ()) :
    (∃ es, History codec (rowsOf state.tables ASSERTIONS) es) ∧
      ∀ r ∈ rowsOf state.tables ASSERTIONS, r.col "project" = .str state.project := by
  obtain ⟨_, -, h⟩ := bind_eq_ok.mp h
  obtain ⟨_, h, -⟩ := bind_eq_ok.mp h
  unfold validateAssertionTable at h
  split at h
  · next table htable =>
      obtain ⟨_, hvalid, hproject⟩ := bind_eq_ok.mp h
      rw [rowsOf, htable]
      refine ⟨History.of_validateAssertions hvalid, fun r hr => ?_⟩
      have htext := List.all_eq_true.mp (ensure_eq_ok.mp hproject) r hr
      exact Value.asStr_eq_some.mp (beq_iff_eq.mp htext)
  · next hnone =>
      rw [rowsOf, hnone]
      exact ⟨⟨[], .nil, fun _ => rfl⟩, by simp⟩

theorem prepareRestore_assertions (h : prepareRestore codec args state db = .ok tables) :
    MergedAssertions codec state db tables := by
  obtain ⟨_, hvalid, h⟩ := bind_eq_ok.mp h
  obtain ⟨current, hcapture, h⟩ := bind_eq_ok.mp h
  obtain ⟨_, hschema, h⟩ := bind_eq_ok.mp h
  obtain ⟨merged, hmerged, h⟩ := bind_eq_ok.mp h
  obtain ⟨rows, -, h⟩ := bind_eq_ok.mp h
  obtain ⟨rows', -, h⟩ := bind_eq_ok.mp h
  obtain ⟨_, -, h⟩ := bind_eq_ok.mp h
  obtain rfl := pure_eq_ok.mp h
  obtain ⟨union, hunion, hmerged⟩ := bind_eq_ok.mp hmerged
  obtain ⟨_, hchains, hmerged⟩ := bind_eq_ok.mp hmerged
  obtain rfl := pure_eq_ok.mp hmerged
  have hcaptures := capture_ok hcapture
  obtain ⟨hsaved, hproject⟩ := savedAssertions_ok hvalid
  have hcurrent : fieldsOf current.tables ASSERTIONS = captureFields ASSERTIONS := by
    rw [fieldsOf, hcaptures.fields (by decide), Option.getD_some]
  have hrows : ((state.tables[ASSERTIONS]?).getD ⟨fieldsOf current.tables ASSERTIONS, []⟩).rows
      = rowsOf state.tables ASSERTIONS := by
    rw [rowsOf]
    cases state.tables[ASSERTIONS]? <;> rfl
  -- the metadata and the policies are put into other tables
  have hother : "memory_meta" ≠ ASSERTIONS ∧ "memory_influence_policy" ≠ ASSERTIONS := by decide
  refine ⟨hsaved, ?_, hproject, ?_, fun r => ?_⟩
  · rw [rowsOf_setTableRows, if_neg hother.2, rowsOf_setTableRows, if_neg hother.1, rowsOf_insert,
      if_pos rfl]
    exact History.of_validateAssertions hchains
  · simp only [fieldsOf_setTableRows, fieldsOf_insert, if_true]
    cases htable : state.tables[ASSERTIONS]? with
    | none => exact hcurrent
    | some table =>
        have heq := forM_eq_ok.mp hschema ASSERTIONS (by decide)
        rw [if_neg (by simp [Std.ExtTreeMap.contains_eq_isSome_getElem?, htable]), ensure_eq_ok,
          beq_iff_eq, hcurrent, fieldsOf, htable] at heq
        exact heq.symm
  · have hmem : r ∈ codec.sortRows union ↔ r ∈ rowsOf state.tables ASSERTIONS ∨
        r ∈ rowsOf current.tables ASSERTIONS := by
      rw [Codec.sortRows, RowDiff.mem_sortBy, mem_mergeAssertion hunion, hrows]
    have hlive : r ∈ rowsOf current.tables ASSERTIONS ↔ ∃ r' ∈ db.table ASSERTIONS,
        r'.col "project" = .str state.project ∧ captureRow ASSERTIONS r' = r := by
      rw [hcaptures.mem_rowsOf (by decide)]
      simp [Database.inProject_assertion_events, ASSERTIONS]
    rw [← hlive, ← hmem, rowsOf_setTableRows, if_neg hother.2, rowsOf_setTableRows,
      if_neg hother.1, rowsOf_insert, if_pos rfl]

/-! ## The replacement -/

/-- Only the project's own deletion reaches the assertion table. -/
theorem assertions_deleteProject {project : String} (h : deleteProject project db = .ok db') :
    db'.table ASSERTIONS
      = (db.table ASSERTIONS).filter fun r => decide (r.col "project" ≠ .str project) := by
  obtain ⟨s, t, hs, ht, h⟩ := deleteProject_split [] "assertion_events" ["contradiction_members",
    "contradiction_sets", "reflection_proposals", "code_anchors", "memory_chunks",
    "memory_edges", "memory_entities", "memory_influence_policy", "memory_evidence_roots",
    "memory_meta", "memories", "observations", "sessions"] rfl h
  obtain rfl := foldlM_nil_eq_ok.mp hs
  rw [ASSERTIONS, deleteTables_frame h (by decide),
    (@followReferences_table _ _ "assertion_events" _ _ ht).2.2 fun ref href => ?_,
    Database.table_deleteRows, if_pos rfl]
  · refine List.filter_congr fun r _ => ?_
    simp [Database.inProject_assertion_events]
  · obtain ⟨-, href, hparent⟩ := mem_referrers.mp href
    simp [schema] at href

theorem captureFields_assertions : captureFields ASSERTIONS = (schema ASSERTIONS).columns := by
  decide +kernel

/-- `serde_json` reads an `i64` as one. -/
def Codec.ReadsI64 (codec : Codec) : Prop :=
  ∀ text event, codec.eventFromStr text = .ok event →
    ∀ n ∈ [event.version, event.memoryId, event.recordedAt], -2 ^ 63 ≤ n ∧ n < 2 ^ 63

/-- The row an insertion writes holds the event of the row it was given. -/
theorem AssertionRow.inserted {row r : Record} {e : Entry} (hcodec : codec.ReadsI64)
    (h : AssertionRow codec row e)
    (hins : InsertedRow codec args ASSERTIONS (captureFields ASSERTIONS) row r) :
    AssertionRow codec r e := by
  have htyped : ∀ f ∈ (schema ASSERTIONS).columns, f.2 ≠ "DOUBLE PRECISION" ∧
      hasType f.2 (row.col f.1) = true := by
    obtain ⟨text, htext, hevent⟩ := h.data
    have hrange := hcodec text e.event hevent
    simp only [List.forall_mem_cons] at hrange
    have hcols := h.columns
    simp only [eventColumns, List.forall_mem_cons] at hcols
    simp only [schema, ASSERTIONS, List.forall_mem_cons, h.id, htext, hcols]
    simp [hasType]
    omega
  refine h.congr fun f hf => ?_
  have hcol := hins.col_eq (by decide) rfl (by rwa [captureFields_assertions]) (htyped f hf).1
    (htyped f hf).2
  rwa [columnOf, if_neg (by simp [ASSERTIONS])] at hcol

/-- The assertion table after a restore: the other projects' rows as they were, and
the merged rows. -/
theorem writeRestore_assertions (h : writeRestore codec args state tables db = .ok db')
    (hfields : fieldsOf tables ASSERTIONS = captureFields ASSERTIONS) :
    ∃ new, List.Forall₂ (InsertedRow codec args ASSERTIONS (captureFields ASSERTIONS))
        (rowsOf tables ASSERTIONS) new ∧
      db'.table ASSERTIONS = (db.table ASSERTIONS).filter
        (fun r => decide (r.col "project" ≠ .str state.project)) ++ new := by
  obtain ⟨s, t, u, hdelete, ht, hinsert, htable⟩ := writeRestore_ok h
  obtain ⟨new, hnew, hu, -⟩ := insertTables_ok hinsert (n := ASSERTIONS) (by decide)
  rw [hfields] at hnew
  exact ⟨new, hnew, by rw [htable _ (by decide), hu, ht, assertions_deleteProject hdelete]; rfl⟩

end Merge

/-! ## Restore never rewinds -/

section Rewind

variable {codec : Codec} {args : RestoreArgs} {state : State} {db db' : Database} {scope : Scope}

theorem entries_congr {rows rows' : List Record}
    (h : rows.filter (inScope scope) = rows'.filter (inScope scope)) :
    entries codec rows scope = entries codec rows' scope := by
  rw [entries, entries, h]

/-- A history is a valid chain of the events of the scope's rows. -/
theorem entries_ok {rows : List Record} {es : List Entry}
    (h : entries codec rows scope = .ok es) :
    validateChain codec es = .ok () ∧ ∀ e, e ∈ es ↔
      ∃ r ∈ rows, inScope scope r = true ∧ readEntry codec r = .ok e := by
  obtain ⟨result, hresult, h⟩ := bind_eq_ok.mp h
  obtain ⟨_, hvalid, h⟩ := bind_eq_ok.mp h
  obtain rfl := pure_eq_ok.mp h
  have hall := forall₂_of_mapM hresult
  refine ⟨hvalid, fun e => ⟨fun he => ?_, ?_⟩⟩
  · obtain ⟨r, hr, hread⟩ := forall₂_right hall e he
    rw [byVersion, List.mem_insertionSort, List.mem_filter] at hr
    exact ⟨r, hr.1, hr.2, hread⟩
  · rintro ⟨r, hr, hscope, hread⟩
    obtain ⟨e', he', hread'⟩ := forall₂_left hall r
      (by rw [byVersion, List.mem_insertionSort, List.mem_filter]; exact ⟨hr, hscope⟩)
    obtain rfl := Except.ok.inj (hread.symm.trans hread')
    exact he'

/-- The three histories of one scope around a restore: the result keeps both the
live and the saved one, and is one of them. -/
def KeepsHistory (codec : Codec) (state : State) (db db' : Database) (scope : Scope) : Prop :=
  ∃ live saved merged, entries codec (db.table ASSERTIONS) scope = .ok live ∧
    entries codec (rowsOf state.tables ASSERTIONS) scope = .ok saved ∧
    entries codec (db'.table ASSERTIONS) scope = .ok merged ∧ validateChain codec merged = .ok () ∧
    live <+: merged ∧ saved <+: merged ∧ (merged = live ∨ merged = saved)

/-- The merged table has the longer of the two histories of every scope of the
project. -/
theorem MergedAssertions.longer {tables : BTreeMap Table}
    (h : MergedAssertions codec state db tables) {es live : List Entry}
    (hes : History codec (rowsOf tables ASSERTIONS) es) (hproject : scope.project = state.project)
    (hlive : entries codec (db.table ASSERTIONS) scope = .ok live) :
    ∃ saved, entries codec (rowsOf state.tables ASSERTIONS) scope = .ok saved ∧
      live <+: scopeHistory es scope ∧ saved <+: scopeHistory es scope ∧
      (scopeHistory es scope = live ∨ scopeHistory es scope = saved) := by
  obtain ⟨saved, hsaved⟩ := h.saved
  obtain ⟨hlivechain, hlivemem⟩ := entries_ok hlive
  -- an event of the merged table comes from a row the checkpoint has, or from a live one
  have hrow : ∀ e ∈ es, ∃ r ∈ rowsOf tables ASSERTIONS, AssertionRow codec r e :=
    forall₂_right hes.rows
  have hevent : ∀ r e, r ∈ rowsOf tables ASSERTIONS → AssertionRow codec r e → e ∈ es := by
    intro r e hr he
    obtain ⟨e', he', hr'⟩ := forall₂_left hes.rows r hr
    obtain rfl := Except.ok.inj (he.readEntry.symm.trans hr'.readEntry)
    exact he'
  have hcaptured : ∀ r e, AssertionRow codec (captureRow ASSERTIONS r) e →
      AssertionRow codec r e := fun r e he => he.congr fun f hf =>
    (captureRow_col (by decide) (List.mem_map_of_mem hf)).symm
  have hlivesub : live ⊆ scopeHistory es scope := by
    intro e he
    obtain ⟨r, hr, hscope, hread⟩ := (hlivemem e).mp he
    have hrproject : r.col "project" = .str state.project := by
      simp only [inScope, decide_eq_true_eq] at hscope
      rw [hscope.2.1, hproject]
    have hmem := (h.mem _).mpr (Or.inr ⟨r, hr, hrproject, rfl⟩)
    obtain ⟨e', he', hassertion⟩ := forall₂_left hes.rows _ hmem
    have hassertion := hcaptured r e' hassertion
    obtain rfl := Except.ok.inj (hread.symm.trans hassertion.readEntry)
    exact mem_scopeHistory.mpr ⟨he', (hassertion.inScope scope).mp hscope⟩
  have hsavedsub : scopeHistory saved scope ⊆ scopeHistory es scope := by
    intro e he
    obtain ⟨he, hscope⟩ := mem_scopeHistory.mp he
    obtain ⟨r, hr, hassertion⟩ := forall₂_right hsaved.rows e he
    exact mem_scopeHistory.mpr ⟨hevent r e ((h.mem r).mpr (Or.inl hr)) hassertion, hscope⟩
  have hcover : ∀ e ∈ scopeHistory es scope, e ∈ live ∨ e ∈ scopeHistory saved scope := by
    intro e he
    obtain ⟨he, hscope⟩ := mem_scopeHistory.mp he
    obtain ⟨r, hr, hassertion⟩ := hrow e he
    rcases (h.mem r).mp hr with hr | ⟨r', hr', -, rfl⟩
    · obtain ⟨e', he', hr'⟩ := forall₂_left hsaved.rows r hr
      obtain rfl := Except.ok.inj (hassertion.readEntry.symm.trans hr'.readEntry)
      exact Or.inr (mem_scopeHistory.mpr ⟨he', hscope⟩)
    · have hassertion := hcaptured r' e hassertion
      exact Or.inl ((hlivemem e).mpr
        ⟨r', hr', (hassertion.inScope scope).mpr hscope, hassertion.readEntry⟩)
  have hnumbered := (validateChain_ok (hes.valid scope)).1
  have hnumbered₁ := (validateChain_ok hlivechain).1
  have hnumbered₂ := (validateChain_ok (hsaved.valid scope)).1
  exact ⟨_, hsaved.entries scope, hnumbered₁.prefix_of_subset hnumbered hlivesub,
    hnumbered₂.prefix_of_subset hnumbered hsavedsub,
    hnumbered₁.eq_of_cover hnumbered₂ hnumbered hlivesub hsavedsub hcover⟩

theorem filter_inScope_eq_nil {rows : List Record}
    (h : ∀ r ∈ rows, r.col "project" ≠ .str scope.project) :
    rows.filter (inScope scope) = [] := by
  refine List.filter_eq_nil_iff.mpr fun r hr hscope => h r hr ?_
  simp only [inScope, decide_eq_true_eq] at hscope
  exact hscope.2.1

/-- The rows of one project have no history in the scopes of another. -/
theorem entries_otherProject {rows : List Record} {project : String}
    (h : ∀ r ∈ rows, r.col "project" = .str project) (hproject : scope.project ≠ project) :
    entries codec rows scope = .ok [] := by
  have hnil : rows.filter (inScope scope) = [] := filter_inScope_eq_nil fun r hr heq =>
    hproject (Value.str.inj ((h r hr).symm.trans heq)).symm
  rw [entries, hnil]
  rfl

/-- The merged rows are all of the restored project. -/
theorem MergedAssertions.rows_project {tables : BTreeMap Table}
    (h : MergedAssertions codec state db tables) {r : Record} (hr : r ∈ rowsOf tables ASSERTIONS) :
    r.col "project" = .str state.project := by
  rcases (h.mem r).mp hr with hr | ⟨r', -, hproject', rfl⟩
  · exact h.project r hr
  · rw [captureRow_col (by decide) (by decide), hproject']

theorem restore_keepsHistory {counts : RestoreCounts} (hcodec : codec.ReadsI64)
    {live : List Entry} (hlive : entries codec (db.table ASSERTIONS) scope = .ok live)
    (hdry : args.dryRun = false) (h : restore codec args state db = .ok (counts, db')) :
    KeepsHistory codec state db db' scope := by
  obtain ⟨tables, hprepare, h⟩ := bind_eq_ok.mp h
  rw [hdry, if_neg (by decide)] at h
  obtain ⟨db'', hwrite, h⟩ := bind_eq_ok.mp h
  obtain ⟨-, rfl⟩ := Prod.mk.inj (pure_eq_ok.mp h)
  have hmerged := prepareRestore_assertions hprepare
  obtain ⟨es, hes⟩ := hmerged.merged
  obtain ⟨new, hnew, htable⟩ := writeRestore_assertions hwrite hmerged.fields
  have hrows : List.Forall₂ (AssertionRow codec) new es :=
    (forall₂_comp hnew.flip hes.rows).imp fun r e hre =>
      let ⟨row, hins, hrow⟩ := hre
      hrow.inserted hcodec hins
  by_cases hproject : scope.project = state.project
  · obtain ⟨saved, hsaved, hpre, hpre', hlonger⟩ := hmerged.longer hes hproject hlive
    have hkept : (db''.table ASSERTIONS).filter (inScope scope) = new.filter (inScope scope) := by
      rw [htable, List.filter_append, filter_inScope_eq_nil, List.nil_append]
      intro r hr
      simpa [hproject] using (List.mem_filter.mp hr).2
    exact ⟨live, saved, scopeHistory es scope, hlive, hsaved,
      (entries_congr hkept).trans (History.entries ⟨hrows, hes.valid⟩ scope), hes.valid scope,
      hpre, hpre', hlonger⟩
  · -- the checkpoint has nothing of another project, and its rows stay
    have hne : Value.str state.project ≠ .str scope.project :=
      fun heq => hproject (Value.str.inj heq).symm
    have hnew' : ∀ r ∈ new, r.col "project" ≠ .str scope.project := by
      intro r hr
      obtain ⟨row, hrow, hins⟩ := forall₂_right hnew r hr
      obtain ⟨e, -, hassertion⟩ := forall₂_left hes.rows row hrow
      have hsame : ∀ s, AssertionRow codec s e → s.col "project" = .str e.event.scope.project :=
        fun s hs => hs.col (by simp [eventColumns])
      rw [hsame r (hassertion.inserted hcodec hins), ← hsame row hassertion,
        hmerged.rows_project hrow]
      exact hne
    have hkept : (db''.table ASSERTIONS).filter (inScope scope)
        = (db.table ASSERTIONS).filter (inScope scope) := by
      rw [htable, List.filter_append, filter_inScope_eq_nil hnew', List.append_nil,
        List.filter_filter]
      refine List.filter_congr fun r _ => ?_
      rw [Bool.and_eq_left_iff_imp]
      intro hscope
      simp only [inScope, decide_eq_true_eq] at hscope
      rw [hscope.2.1, decide_eq_true_eq]
      exact hne.symm
    exact ⟨live, [], live, hlive, entries_otherProject hmerged.project hproject,
      (entries_congr hkept).trans hlive, (entries_ok hlive).1,
      List.prefix_rfl, List.nil_prefix, Or.inl rfl⟩

/-- What gets as far as the replacement has no two histories that have parted. -/
theorem MergedAssertions.isPrefix_or_isPrefix {tables : BTreeMap Table}
    (h : MergedAssertions codec state db tables) {live saved : List Entry}
    (hlive : entries codec (db.table ASSERTIONS) scope = .ok live)
    (hsaved : entries codec (rowsOf state.tables ASSERTIONS) scope = .ok saved) :
    live <+: saved ∨ saved <+: live := by
  by_cases hproject : scope.project = state.project
  · obtain ⟨es, hes⟩ := h.merged
    obtain ⟨saved', hsaved', hpre, hpre', hlonger⟩ := h.longer hes hproject hlive
    obtain rfl := Except.ok.inj (hsaved.symm.trans hsaved')
    rcases hlonger with heq | heq
    · exact Or.inr (heq ▸ hpre')
    · exact Or.inl (heq ▸ hpre)
  · rw [entries_otherProject h.project hproject] at hsaved
    obtain rfl := Except.ok.inj hsaved
    exact Or.inr List.nil_prefix

/-- A restore between histories that have parted is refused. -/
theorem restore_parted {live saved : List Entry}
    (hlive : entries codec (db.table ASSERTIONS) scope = .ok live)
    (hsaved : entries codec (rowsOf state.tables ASSERTIONS) scope = .ok saved)
    (h : ¬ live <+: saved) (h' : ¬ saved <+: live) :
    ∃ e, restore codec args state db = .error e := by
  cases hrestore : restore codec args state db with
  | error e => exact ⟨e, rfl⟩
  | ok result =>
      obtain ⟨tables, hprepare, -⟩ := bind_eq_ok.mp hrestore
      rcases (prepareRestore_assertions hprepare).isPrefix_or_isPrefix hlive hsaved with hp | hp
      · exact absurd hp h
      · exact absurd hp h'

/-- After a restore every scope has the longer of its two histories; a restore
between histories that have parted fails and changes nothing. -/
theorem restore_never_rewinds (hcodec : codec.ReadsI64)
    (hlive : ∀ scope, ∃ live, entries codec (db.table ASSERTIONS) scope = .ok live) :
    (∀ counts db', restore codec args state db = .ok (counts, db') →
      (args.dryRun = true → db' = db) ∧
        (args.dryRun = false → ∀ scope, KeepsHistory codec state db db' scope)) ∧
    ∀ scope live saved, entries codec (db.table ASSERTIONS) scope = .ok live →
      entries codec (rowsOf state.tables ASSERTIONS) scope = .ok saved →
      ¬ live <+: saved → ¬ saved <+: live → ∀ fault, ∃ e,
        (Proc.exec Statement.restoreCheckpoint (restore codec args state) :
          Call RestoreCounts).run fault db = (.error e, db) := by
  refine ⟨fun counts db' h => ⟨fun hdry => ?_, fun hdry scope => ?_⟩, ?_⟩
  · obtain ⟨tables, -, h⟩ := bind_eq_ok.mp h
    rw [hdry, if_pos rfl] at h
    exact (Prod.mk.inj (pure_eq_ok.mp h)).2.symm
  · obtain ⟨live, hscope⟩ := hlive scope
    exact restore_keepsHistory hcodec hscope hdry h
  · intro scope live saved hl hs hparted hparted' fault
    obtain ⟨e, he⟩ := restore_parted hl hs hparted hparted'
    cases hfault : fault 0 with
    | some e' => exact ⟨e', Proc.run_step_fault hfault ..⟩
    | none => exact ⟨e, Proc.run_step_error hfault he⟩

end Rewind

/-! ### The editor theme

One memory and what was asserted of it: a checkpoint that is behind the live store, and one whose
first event is another. -/

/-- A first event about the editor theme. -/
def themeEvent (value : String) : Event where
  scope := ⟨"team", "app", "editor", "theme"⟩
  version := 1
  memoryId := 1
  evidenceHash := "root"
  value := some value
  validFrom := 0
  validUntil := none
  supersedes := none
  recordedAt := 100
  actor := "ana"
  previousHash := none

/-- The event after "dark". -/
def themeChange : Event :=
  { themeEvent "dusk" with
    version := 2
    recordedAt := 150
    previousHash := some "dark" }

/-- A codec that prints an event as its value, and reads the events about the theme. -/
def themeCodec : Codec :=
  { jsonCodec [] with
    eventToVec := fun e => utf8 (e.value.getD "")
    eventFromStr := fun s =>
      match [themeEvent "dark", themeEvent "light", themeChange].find? fun e => e.value == some s with
      | some e => .ok e
      | none => .error "expected value" }

/-- The row of an event. -/
def eventRow (e : Event) : Record :=
  jsonObject (("id", .str (eventId themeCodec e)) :: ("data", Value.ofOptionStr e.value)
    :: eventColumns e)

/-- A memory with events. -/
def themeDb (events : List Event) : Database :=
  events.foldl (fun db e => db.insertRow ASSERTIONS (eventRow e))
    ((({} : Database).insertRow "memories" (newMemoryRow 1 "app" "s1" "themes" none 100)).insertRow
      "memory_meta" (newMetaRow 1 100 "root"))

/-- The checkpoint of this state. -/
def themeCheckpoint (events : List Event) : State :=
  match capture themeCodec (themeDb events) "app" true with
  | .ok state => state
  | .error _ => ⟨"app", ∅, ∅, []⟩

def themeArgs : RestoreArgs := ⟨"s1", false, 200, "r1", fun _ _ => 1⟩

theorem themeCodec_readsI64 : themeCodec.ReadsI64 := by
  intro text event h
  simp only [themeCodec] at h
  split at h
  · next e hfind =>
      obtain rfl := Except.ok.inj h
      have hmem := List.mem_of_find?_eq_some hfind
      simp only [List.mem_cons, List.not_mem_nil, or_false] at hmem
      rcases hmem with rfl | rfl | rfl <;> decide
  · cases h

/-- Both live stores have valid histories. -/
theorem themeDb_entries {events : List Event}
    (h : events ∈ [[themeEvent "dark"], [themeEvent "dark", themeChange]]) (scope : Scope) :
    ∃ live, entries themeCodec ((themeDb events).table ASSERTIONS) scope = .ok live := by
  have hvalid : ∀ events ∈ [[themeEvent "dark"], [themeEvent "dark", themeChange]],
      okAnd (fun _ => true)
        (validateAssertions themeCodec ⟨[], (themeDb events).table ASSERTIONS⟩) = true := by
    decide +kernel
  obtain ⟨⟨⟩, hok, -⟩ := okAnd_eq_true.mp (hvalid events h)
  obtain ⟨es, hes⟩ := History.of_validateAssertions hok
  exact ⟨_, hes.entries scope⟩

/-- What the calls on the two checkpoints come to. -/
theorem themeCodec_computes :
    (∀ value ∈ ["dark", "light"], okAnd (fun _ => true)
      (capture themeCodec (themeDb [themeEvent value]) "app" true) = true) ∧
    okAnd (fun r => okAnd (· == [⟨"dark", themeEvent "dark"⟩, ⟨"dusk", themeChange⟩])
        (entries themeCodec (r.2.table ASSERTIONS) (themeEvent "dark").scope))
      (restore themeCodec themeArgs (themeCheckpoint [themeEvent "dark"])
        (themeDb [themeEvent "dark", themeChange])) = true ∧
    (okAnd (· == [⟨"dark", themeEvent "dark"⟩]) (entries themeCodec
        ((themeDb [themeEvent "dark"]).table ASSERTIONS) (themeEvent "dark").scope) = true ∧
      okAnd (· == [⟨"light", themeEvent "light"⟩]) (entries themeCodec
        (rowsOf (themeCheckpoint [themeEvent "light"]).tables ASSERTIONS) (themeEvent "dark").scope)
        = true ∧
      (match restore themeCodec themeArgs (themeCheckpoint [themeEvent "light"])
          (themeDb [themeEvent "dark"]) with
        | .error e => e == "assertion history is not contiguous"
        | .ok _ => false) = true) := by
  decide +kernel

/-- A restore of an older checkpoint keeps the newer event; over a parted history it fails. -/
theorem restore_never_rewinds_theme :
    (∀ value ∈ ["dark", "light"],
      capture themeCodec (themeDb [themeEvent value]) "app" true
        = .ok (themeCheckpoint [themeEvent value])) ∧
    (∃ counts db', restore themeCodec themeArgs (themeCheckpoint [themeEvent "dark"])
        (themeDb [themeEvent "dark", themeChange]) = .ok (counts, db') ∧
      (∀ scope, KeepsHistory themeCodec (themeCheckpoint [themeEvent "dark"])
        (themeDb [themeEvent "dark", themeChange]) db' scope) ∧
      entries themeCodec (db'.table ASSERTIONS) (themeEvent "dark").scope
        = .ok [⟨"dark", themeEvent "dark"⟩, ⟨"dusk", themeChange⟩]) ∧
    (Proc.exec Statement.restoreCheckpoint
      (restore themeCodec themeArgs (themeCheckpoint [themeEvent "light"])) : Call RestoreCounts).run
        Proc.noFault (themeDb [themeEvent "dark"])
      = (.error "assertion history is not contiguous", themeDb [themeEvent "dark"]) := by
  obtain ⟨hcaptured, hrun, hlive, hsaved, hmessage⟩ := themeCodec_computes
  refine ⟨?_, ?_, ?_⟩
  · intro value hvalue
    obtain ⟨state, hstate, -⟩ := okAnd_eq_true.mp (hcaptured value hvalue)
    rw [themeCheckpoint, hstate]
  · obtain ⟨⟨counts, db'⟩, hok, hentries⟩ := okAnd_eq_true.mp hrun
    obtain ⟨merged, hmerged, heq⟩ := okAnd_eq_true.mp hentries
    have hkeeps := ((restore_never_rewinds themeCodec_readsI64 (themeDb_entries (by simp))).1
      counts db' hok).2 rfl
    exact ⟨counts, db', hok, hkeeps, hmerged.trans (congrArg Except.ok (beq_iff_eq.mp heq))⟩
  · obtain ⟨live, hl, hlive⟩ := okAnd_eq_true.mp hlive
    obtain ⟨saved, hs, hsaved⟩ := okAnd_eq_true.mp hsaved
    obtain rfl := beq_iff_eq.mp hlive
    obtain rfl := beq_iff_eq.mp hsaved
    have hfails : ∃ e, (Proc.exec Statement.restoreCheckpoint
        (restore themeCodec themeArgs (themeCheckpoint [themeEvent "light"])) :
          Call RestoreCounts).run Proc.noFault (themeDb [themeEvent "dark"])
        = (.error e, themeDb [themeEvent "dark"]) :=
      (restore_never_rewinds themeCodec_readsI64 (themeDb_entries (by simp))).2
        (themeEvent "dark").scope _ _ hl hs (by decide) (by decide) Proc.noFault
    obtain ⟨e, he⟩ := hfails
    split at hmessage
    · next e' he' =>
        obtain rfl := beq_iff_eq.mp hmessage
        have hsame := he.symm.trans (Proc.run_step_error rfl he')
        rw [he, Except.error.inj (Prod.mk.inj hsame).1]
    · cases hmessage

end IronMem
