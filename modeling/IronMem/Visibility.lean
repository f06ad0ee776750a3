import Mathlib.Data.List.Sort
import IronMem.Remember

/-!
# What readers see of a governed write

The readers are the namespace-scoped queries. A call is observed through
`Proc.states`: after each of its statements another reader may come by. The
result is exact: a write is never seen with governance it did not ask for, and a
failed one leaves nothing, if and only if it publishes nothing at all or asks
for what the column defaults already say and goes through.

- **the insertion** (`Inserted`): the row and a metadata row with the defaults are published
  at once, so that there is a state in which readers get the default governance.
- **afterwards** (`HasMeta`): every later statement on the metadata row is a list of `SET`
  clauses. What all of them keep holds in every state from the insertion on; for a request
  of the defaults that is the five governed columns (`DefaultColumns.setAll`).
- **success** (`isOk_governRemembered`): the call goes through when no statement fails, the
  parent is accepted and the ledger takes the entry. All of this is decided by the arguments
  and the database before the call.
-/

namespace IronMem

namespace Database

/-- The metadata row joined to a row of `memories`. -/
def joinedMeta (db : Database) (r : Record) : Option Record :=
  (db.table "memory_meta").find? fun m => m.col "memory_id" = r.col "rowid"

/-- The namespace-scoped searches: their own condition on the joined row, the
shared condition, their order, their limit (a negative one is none). -/
def searchInNamespace (db : Database) (selects : Record → Option Record → Bool)
    (before : Record → Record → Bool) (limit now : Int) (ns : String) : List Record :=
  let rows := (db.table "memories").filter fun r =>
    selects r (db.joinedMeta r) && admitsMeta now (normalizeNamespace ns) (db.joinedMeta r)
  let sorted := rows.insertionSort fun a b => before a b
  if limit < 0 then sorted else sorted.take limit.toNat

/-- A reader at time `now` gets the memory from the namespace, by id or by a
search. -/
def Shows (db : Database) (now : Int) (ns : String) (id : Int) : Prop :=
  (db.getMemoryByIdInNamespace now id ns).isSome = true ∨
    ∃ selects before limit, ∃ r ∈ db.searchInNamespace selects before limit now ns,
      r.col "rowid" = .int id

variable {db : Database} {now id : Int} {ns : String}

theorem shows_iff :
    db.Shows now ns id ↔
      (db.memoryRow id).isSome = true ∧ db.visibleIn now (normalizeNamespace ns) id = true := by
  have hget : (db.getMemoryByIdInNamespace now id ns).isSome = true ↔
      (db.memoryRow id).isSome = true ∧ db.visibleIn now (normalizeNamespace ns) id = true := by
    unfold getMemoryByIdInNamespace getMemoryByIdAnyNamespace
    split <;> simp_all
  constructor
  · rintro (h | ⟨selects, before, limit, r, hr, hid⟩)
    · exact hget.mp h
    · have hmem : r ∈ ((db.table "memories").filter fun r => selects r (db.joinedMeta r)
          && admitsMeta now (normalizeNamespace ns) (db.joinedMeta r)) := by
        unfold searchInNamespace at hr
        split at hr
        · exact (List.mem_insertionSort _).mp hr
        · exact (List.mem_insertionSort _).mp (List.mem_of_mem_take hr)
      obtain ⟨hrow, hcond⟩ := List.mem_filter.mp hmem
      rw [Bool.and_eq_true] at hcond
      refine ⟨List.find?_isSome.mpr ⟨r, hrow, by simp [hid]⟩, ?_⟩
      have hjoin : db.joinedMeta r = db.metaRow id := by rw [joinedMeta, metaRow, hid]
      rw [visibleIn, ← hjoin]
      exact hcond.2
  · intro h
    exact Or.inl (hget.mpr h)

end Database

/-! ## The property -/

/-- The reader sees the governance that was asked for. -/
structure AsRequested (g : MemoryGovernance) (ns : String) (info : MemoryMetaInfo) : Prop where
  «namespace» : normalizeNamespace ns = normalizeNamespace g.namespace
  classification : info.classification = classificationStr g.classification
  consentState : info.consentState = g.consentState.map consentStateStr
  expiresAt : info.expiresAt = g.expiresAt
  trustTier : info.trustTier = trustTierStr g.trustTier

/-- What a refused write must leave behind: nothing. -/
structure NothingWritten (id : Int) (db db' : Database) : Prop where
  absent : ∀ now ns, ¬ db'.Shows now ns id
  metadata : db'.table "memory_meta" = db.table "memory_meta"
  evidenceRoots : db'.table "memory_evidence_roots" = db.table "memory_evidence_roots"
  ledger : db'.table "memory_ledger" = db.table "memory_ledger"

/-- One call: its arguments, and which of its statements are made to fail. -/
structure RememberCall where
  args : RememberArgs
  fault : Nat → Option String

def RememberCall.run (codec : Codec) (c : RememberCall) (db : Database) :
    Except String Int × Database :=
  (rememberWithGovernance codec c.args).run c.fault db

def RememberCall.states (codec : Codec) (c : RememberCall) (db : Database) : List Database :=
  (rememberWithGovernance codec c.args).states c.fault db

structure NeverHalfGoverned (codec : Codec) (c : RememberCall) (db : Database) : Prop where
  observed : ∀ s ∈ c.states codec db, ∀ now ns, s.Shows now ns db.nextMemoryId →
    AsRequested c.args.governance ns (s.getMemoryMetaFull db.nextMemoryId)
  refused : ∀ e, (c.run codec db).1 = .error e →
    NothingWritten db.nextMemoryId db (c.run codec db).2

/-! ## The condition

A call publishes nothing when it is refused before or by the insertion. Otherwise it is seen
with the default governance right after the insertion, and has to have asked for it and to
succeed. -/

/-- The request asks for what the column defaults say. -/
structure DefaultGovernance (g : MemoryGovernance) : Prop where
  «namespace» : normalizeNamespace g.namespace = DEFAULT_NAMESPACE
  classification : g.classification = .internal
  consentState : g.consentState = none
  expiresAt : g.expiresAt = none
  trustTier : g.trustTier = .medium

namespace RememberArgs

variable (codec : Codec) (a : RememberArgs) (id : Int) (db : Database)

/-- The transaction that publishes the memory. -/
def insert : Except String (Int × Database) :=
  insertMemory codec a.project "remember" a.text a.tags a.now a.insertUuid db

/-- The memory as `apply_memory_governance` reads it back. -/
def memory : Memory :=
  Memory.ofRow (newMemoryRow id a.project "remember" a.text a.tags a.now)

/-- The metadata row it starts with. -/
def metaRow : Record := newMetaRow id a.now (newEvidenceRootId a.insertUuid)

/-- What the lineage is read from: the stored row of the parent, or the new row
itself. -/
def evidenceSource : Option EvidenceMetaRow :=
  (lineageSource id a.governance "remember").bind fun source =>
    if source = id then some (.ofRow (a.metaRow id)) else db.loadEvidenceMeta source

/-- The statements after the insertion. -/
def laterStatements : Nat :=
  (if (lineageSource id a.governance "remember").isSome then 7 else 6) + 2

/-- The parent, if any, is one the memory may derive from, and the ledger takes
the entry. -/
def Accepted : Prop :=
  ∃ lineage, a.governanceArgs.lineage codec id (a.memory id) (a.evidenceSource id db) = .ok lineage
    ∧ (a.governanceArgs.append codec id (a.memory id) lineage.1 lineage.2 db).isOk = true

end RememberArgs

/-- The call publishes nothing (validation or the insertion fails), or it asks
for the defaults and nothing after the insertion fails. -/
def PublishesAsRequested (codec : Codec) (c : RememberCall) (db : Database) : Prop :=
  (c.args.governance.validate.isOk = false ∨ c.fault 0 ≠ none
    ∨ (c.args.insert codec db).isOk = false) ∨
  (DefaultGovernance c.args.governance
    ∧ (∀ i ≤ c.args.laterStatements db.nextMemoryId, c.fault i = none)
    ∧ c.args.Accepted codec db.nextMemoryId db)

/-! ## The insertion -/

theorem le_foldl {f : Int → Record → Int} (hf : ∀ m r, m ≤ f m r) (rows : List Record) (m : Int) :
    m ≤ rows.foldl f m := by
  induction rows generalizing m with
  | nil => exact le_refl m
  | cons r rows ih => exact le_trans (hf m r) (ih _)

theorem le_maxColumn {rows : List Record} {field : String} {r : Record} {n : Int} (hr : r ∈ rows)
    (hn : r.col field = .int n) : n ≤ maxColumn rows field := by
  unfold maxColumn
  generalize (0 : Int) = m
  induction rows generalizing m with
  | nil => cases hr
  | cons a rows ih =>
      rcases List.mem_cons.mp hr with rfl | hr
      · simp only [List.foldl_cons, hn]
        refine le_trans (le_max_right m n) (le_foldl (fun m r => ?_) rows _)
        split
        · exact le_max_left ..
        · exact le_refl m
      · exact ih hr _

theorem fresh_memoryRow (db : Database) : db.memoryRow db.nextMemoryId = none := by
  refine List.find?_eq_none.mpr fun r hr hid => ?_
  have hle := le_maxColumn hr (of_decide_eq_true hid)
  unfold Database.nextMemoryId at hle
  omega

theorem fresh_metaRow (db : Database) : db.metaRow db.nextMemoryId = none := by
  refine List.find?_eq_none.mpr fun r hr hid => ?_
  have hle := le_maxColumn hr (of_decide_eq_true hid)
  unfold Database.nextMemoryId at hle
  omega

theorem newMemoryRow_rowid (id : Int) (project sessionId summary : String) (tags : Option String)
    (now : Int) : (newMemoryRow id project sessionId summary tags now).col "rowid" = .int id := by
  simp [newMemoryRow, jsonObject]

theorem newMetaRow_memory_id (id now : Int) (root : String) :
    (newMetaRow id now root).col "memory_id" = .int id := by
  simp [newMetaRow, Record.setAll]

/-- What the insertion publishes. -/
structure Inserted (a : RememberArgs) (id : Int) (db db' : Database) : Prop where
  memoryRow : db'.memoryRow id = some (newMemoryRow id a.project "remember" a.text a.tags a.now)
  metaTable : db'.table "memory_meta" = db.table "memory_meta" ++ [a.metaRow id]
  ledger : db'.table "memory_ledger" = db.table "memory_ledger"

theorem insert_ok {codec : Codec} {a : RememberArgs} {db db' : Database} {id : Int}
    (h : a.insert codec db = .ok (id, db')) :
    id = db.nextMemoryId ∧ Inserted a id db db' := by
  simp only [RememberArgs.insert, insertMemory] at h
  split at h
  · cases h
  split at h
  · cases h
  obtain ⟨rfl, rfl⟩ := Prod.mk.inj (Except.ok.inj h)
  have hroot : insertedRoot codec a.project "remember" a.text a.tags a.insertUuid
      = newEvidenceRootId a.insertUuid := if_neg (by simp)
  refine ⟨rfl, ?_, ?_, ?_⟩
  · rw [Database.memoryRow, Database.table_insertRow, if_neg (by decide),
      Database.table_insertRow, if_neg (by decide), Database.table_insertRow, if_pos rfl,
      List.find?_append]
    exact Option.or_eq_some_iff.mpr (Or.inr ⟨fresh_memoryRow db, by simp [newMemoryRow_rowid]⟩)
  · rw [Database.table_insertRow, if_neg (by decide), Database.table_insertRow, if_pos rfl, hroot]
    rfl
  · rw [Database.table_insertRow, if_neg (by decide), Database.table_insertRow,
      if_neg (by decide), Database.table_insertRow, if_neg (by decide)]

/-! ## The statements after the insertion

They rewrite the metadata row of the new memory in place and append to the ledger. Whether they
all go through is decided by the faults, the parent and the ledger. -/

section Governed

variable {codec : Codec} {a : RememberArgs} {id : Int} {db s : Database}

theorem Inserted.row_of_fresh (h : Inserted a id db s) (hfresh : db.metaRow id = none) :
    s.metaRow id = some (a.metaRow id) := by
  rw [Database.metaRow, h.metaTable, List.find?_append]
  exact Option.or_eq_some_iff.mpr
    (Or.inr ⟨hfresh, by simp [RememberArgs.metaRow, newMetaRow_memory_id]⟩)

theorem Inserted.loadEvidenceMeta (h : Inserted a id db s) (hfresh : db.metaRow id = none)
    (source : Int) : s.loadEvidenceMeta source
      = if source = id then some (.ofRow (a.metaRow id)) else db.loadEvidenceMeta source := by
  by_cases hid : source = id
  · subst hid
    rw [if_pos rfl, Database.loadEvidenceMeta, h.row_of_fresh hfresh, Option.map_some]
  · have hother : (a.metaRow id).col "memory_id" ≠ .int source := by
      rw [RememberArgs.metaRow, newMetaRow_memory_id]
      simpa using fun he => hid he.symm
    rw [if_neg hid, Database.loadEvidenceMeta, Database.loadEvidenceMeta, Database.metaRow,
      h.metaTable, List.find?_append]
    simp [hother, Database.metaRow]

/-- A `SET` clause without lineage columns keeps the lineage. -/
theorem evidenceMeta_setAll {fields : List (String × Value)}
    (h : ∀ p ∈ fields, p.1 ≠ "namespace" ∧ p.1 ≠ "evidence_root_id" ∧ p.1 ≠ "derivation_depth")
    (r : Record) : EvidenceMetaRow.ofRow (r.setAll fields) = .ofRow r := by
  simp only [EvidenceMetaRow.ofRow, Record.text, Record.i64,
    setAll_col_of_not_mem fun p hp => (h p hp).1, setAll_col_of_not_mem fun p hp => (h p hp).2.1,
    setAll_col_of_not_mem fun p hp => (h p hp).2.2]

theorem loadEvidenceMeta_upsertMetaRow {fresh always : List (String × Value)}
    (hfresh : ∀ p ∈ fresh, p.1 ≠ "memory_id") (hkey : ∀ p ∈ always, p.1 ≠ "memory_id")
    (halways : ∀ p ∈ always,
      p.1 ≠ "namespace" ∧ p.1 ≠ "evidence_root_id" ∧ p.1 ≠ "derivation_depth")
    (hrow : (s.metaRow id).isSome = true) (source : Int) :
    (upsertMetaRow id fresh always s).loadEvidenceMeta source = s.loadEvidenceMeta source := by
  obtain ⟨r, hr⟩ := Option.isSome_iff_exists.mp hrow
  rw [Database.loadEvidenceMeta, metaRow_upsertMetaRow hfresh hkey, Database.loadEvidenceMeta]
  by_cases hid : source = id
  · subst hid
    simp [hr, evidenceMeta_setAll halways]
  · rw [if_neg hid]

theorem isSome_metaRow_upsertMetaRow {fresh always : List (String × Value)}
    (hfresh : ∀ p ∈ fresh, p.1 ≠ "memory_id") (hkey : ∀ p ∈ always, p.1 ≠ "memory_id") :
    ((upsertMetaRow id fresh always s).metaRow id).isSome = true := by
  rw [metaRow_upsertMetaRow hfresh hkey, if_pos rfl, Option.isSome_some]

/-- The call succeeds after the insertion exactly when no statement fails, the
lineage is accepted and so is the ledger entry. -/
theorem isOk_governRemembered (hins : Inserted a id db s) (hfresh : db.metaRow id = none)
    (hval : a.governance.validate = .ok ()) (fault : Nat → Option String) :
    ((governRemembered codec a id).run fault s).1.isOk = true ↔
      (∀ i < a.laterStatements id, fault i = none) ∧ a.Accepted codec id db := by
  have hrow : (s.metaRow id).isSome = true := by rw [hins.row_of_fresh hfresh]; rfl
  let published := setMemoryScopeKind id a.scope a.kind a.scopeNow
    (upsertMemoryMeta id "0.7" a.metaNow s)
  have hmem : published.getMemoryByIdAnyNamespace id = some (a.memory id) := by
    rw [Database.getMemoryByIdAnyNamespace, Database.memoryRow,
      show published.table "memories" = s.table "memories" from
        (upsertMetaRow_frame (by decide)).trans (upsertMetaRow_frame (by decide)),
      ← Database.memoryRow, hins.memoryRow]
    rfl
  have hload : published.loadEvidenceMeta = fun source =>
      if source = id then some (.ofRow (a.metaRow id)) else db.loadEvidenceMeta source := by
    funext source
    rw [← hins.loadEvidenceMeta hfresh]
    exact (loadEvidenceMeta_upsertMetaRow (by simp) (by simp) (by simp)
      (isSome_metaRow_upsertMetaRow (by simp) (by simp)) source).trans
      (loadEvidenceMeta_upsertMetaRow (by simp) (by simp) (by simp) hrow source)
  have hledger : published.table "memory_ledger" = db.table "memory_ledger" := by
    rw [← hins.ledger]
    exact (upsertMetaRow_frame (by decide)).trans (upsertMetaRow_frame (by decide))
  have hsession : (a.memory id).sessionId = "remember" := by
    simp [RememberArgs.memory, Memory.ofRow, newMemoryRow, jsonObject, Record.text]
  simp only [governRemembered, Proc.exec_bind, Proc.pure_eq]
  rw [Proc.run_step_isOk fault rfl, Proc.run_step_isOk _ rfl, Proc.run_bind_done_isOk,
    isOk_applyMemoryGovernance _ hval hmem, hsession, hload, RememberArgs.laterStatements,
    Proc.forall_lt_succ_later, Proc.forall_lt_succ_later, and_assoc, and_assoc]
  simp only [RememberArgs.Accepted, RememberArgs.evidenceSource, GovernanceArgs.append,
    appendMemoryLedger_isOk, Database.ledgerHead, hledger]
  rfl

end Governed

/-! ## What the metadata row of the new memory keeps -/

/-- The memory has a metadata row, and it satisfies `p`. -/
def HasMeta (id : Int) (p : Record → Prop) (db : Database) : Prop :=
  ∃ r, db.metaRow id = some r ∧ p r

section Kept

variable {codec : Codec} {a : RememberArgs} {id : Int} {p : Record → Prop}

theorem HasMeta.upsertMetaRow {fresh always : List (String × Value)} {db : Database}
    (hfresh : ∀ p ∈ fresh, p.1 ≠ "memory_id") (hkey : ∀ p ∈ always, p.1 ≠ "memory_id")
    (hp : ∀ r, p r → p (r.setAll always)) (h : HasMeta id p db) :
    HasMeta id p (upsertMetaRow id fresh always db) := by
  obtain ⟨r, hr, hpr⟩ := h
  exact ⟨r.setAll always, by rw [metaRow_upsertMetaRow hfresh hkey, if_pos rfl, hr], hp r hpr⟩

theorem HasMeta.updateRows {fields : List (String × Value)} {db : Database}
    (hkey : ∀ p ∈ fields, p.1 ≠ "memory_id") (hp : ∀ r, p r → p (r.setAll fields))
    (h : HasMeta id p db) :
    HasMeta id p (db.updateRows "memory_meta" (fun r => r.col "memory_id" = .int id)
      fun r => r.setAll fields) := by
  obtain ⟨r, hr, hpr⟩ := h
  have hid : r.col "memory_id" = .int id := by simpa using List.find?_some hr
  exact ⟨r.setAll fields, by
    rw [Database.metaRow_updateRows fun r => setAll_col_of_not_mem hkey r, hr]
    simp [hid], hp r hpr⟩

/-- Every statement after the insertion keeps what all its `SET` clauses keep. -/
theorem governRemembered_preserves
    (himportance : ∀ r, p r → p (r.setAll [("importance", .real "0.7")]))
    (hscope : ∀ r scope kind, p r → p (r.setAll [("scope", .str scope), ("kind", .str kind)]))
    (hgov : ∀ r hash root depth, p r → p (r.setAll (governanceFields (clampScope a.scope)
      (clampKind a.kind) hash root depth a.governance)))
    (hroot : ∀ r root depth, p r →
      p (r.setAll [("evidence_root_id", .str root), ("derivation_depth", .int depth)])) :
    (governRemembered codec a id).Preserves (HasMeta id p) := by
  refine .bind (.exec ?_) fun _ => .bind (.exec ?_) fun _ => .bind ?_ fun _ => .done _
  · intro s b s' hs h
    cases h
    exact hs.upsertMetaRow (by simp) (by simp) himportance
  · intro s b s' hs h
    cases h
    exact hs.upsertMetaRow (by simp) (by simp) fun r => hscope r _ _
  · refine applyMemoryGovernance_preserves (fun hash root depth s hs => ?_)
      (fun root depth s hs => hs.updateRows (by simp) fun r => hroot r root depth)
      fun s s' hmeta _ hs => ?_
    · exact hs.upsertMetaRow (by simp) (by simp [governanceFields])
        fun r => hgov r hash root depth
    · obtain ⟨r, hr, hpr⟩ := hs
      exact ⟨r, by rw [Database.metaRow, hmeta]; exact hr, hpr⟩

end Kept

/-! ## The default governance, as columns -/

/-- The five governed columns hold the defaults. -/
structure DefaultColumns (r : Record) : Prop where
  «namespace» : r.col "namespace" = .str DEFAULT_NAMESPACE
  classification : r.col "classification" = .str "internal"
  consentState : r.col "consent_state" = .null
  expiresAt : r.col "expires_at" = .null
  trustTier : r.col "trust_tier" = .str "medium"

theorem newMetaRow_default (id now : Int) (root : String) :
    DefaultColumns (newMetaRow id now root) := by
  constructor <;>
    simp [newMetaRow, Record.setAll, memoryMetaDefaults, jsonObject, DEFAULT_NAMESPACE]

/-- A `SET` clause without governed columns keeps them. -/
theorem DefaultColumns.setAll {fields : List (String × Value)} {r : Record}
    (h : DefaultColumns r)
    (hfields : ∀ p ∈ fields, p.1 ≠ "namespace" ∧ p.1 ≠ "classification" ∧
      p.1 ≠ "consent_state" ∧ p.1 ≠ "expires_at" ∧ p.1 ≠ "trust_tier") :
    DefaultColumns (r.setAll fields) where
  «namespace» := (setAll_col_of_not_mem (fun p hp => (hfields p hp).1) r).trans h.namespace
  classification :=
    (setAll_col_of_not_mem (fun p hp => (hfields p hp).2.1) r).trans h.classification
  consentState :=
    (setAll_col_of_not_mem (fun p hp => (hfields p hp).2.2.1) r).trans h.consentState
  expiresAt := (setAll_col_of_not_mem (fun p hp => (hfields p hp).2.2.2.1) r).trans h.expiresAt
  trustTier := (setAll_col_of_not_mem (fun p hp => (hfields p hp).2.2.2.2) r).trans h.trustTier

/-- A request for the defaults writes the defaults. -/
theorem defaultColumns_governanceFields {g : MemoryGovernance} (hg : DefaultGovernance g)
    (scope kind hash root : String) (depth : Int) (r : Record) :
    DefaultColumns (r.setAll (governanceFields scope kind hash root depth g)) := by
  obtain ⟨hns, hclass, hconsent, hexpires, htrust⟩ := hg
  constructor <;>
    simp [governanceFields, Record.setAll, hns, hclass, hconsent, hexpires, htrust,
      classificationStr, trustTierStr, Value.ofOption, Value.ofOptionStr]

theorem DefaultColumns.info {r : Record} (h : DefaultColumns r) :
    (MemoryMetaInfo.ofRow r).classification = "internal" ∧
      (MemoryMetaInfo.ofRow r).consentState = none ∧ (MemoryMetaInfo.ofRow r).expiresAt = none ∧
      (MemoryMetaInfo.ofRow r).trustTier = "medium" := by
  simp [MemoryMetaInfo.ofRow, Record.text, Record.i64, h.classification, h.consentState,
    h.expiresAt, h.trustTier, Value.asStr, Value.asI64]

theorem DefaultColumns.admits {r : Record} (h : DefaultColumns r) (now : Int) (ns : String) :
    Database.admitsMeta now ns (some r) = true → ns = DEFAULT_NAMESPACE := by
  simp only [Database.admitsMeta, Record.text, h.namespace, Value.asStr_str, Option.getD_some,
    Bool.and_eq_true, beq_iff_eq]
  exact fun hadm => hadm.1.1.symm

/-! ## The result

In one direction the state right after the insertion is what a reader finds. In the other the
five governed columns hold the defaults in every state from there on. -/

section Result

variable {codec : Codec} {c : RememberCall} {db s : Database}

theorem not_shows_fresh (db : Database) (now : Int) (ns : String) :
    ¬ db.Shows now ns db.nextMemoryId := by
  rw [Database.shows_iff, fresh_memoryRow]
  simp

theorem NothingWritten.of_unchanged (db : Database) : NothingWritten db.nextMemoryId db db :=
  ⟨not_shows_fresh db, rfl, rfl, rfl⟩

/-- A call that does nothing is never seen. -/
theorem neverHalfGoverned_of_idle (hrun : (c.run codec db).2 = db)
    (hstates : c.states codec db = [db]) : NeverHalfGoverned codec c db where
  observed := fun s hs now ns hshow => by
    rw [hstates, List.mem_singleton] at hs
    exact absurd (hs ▸ hshow) (not_shows_fresh db now ns)
  refused := fun e _ => by
    rw [hrun]
    exact .of_unchanged db

/-- Either the call does nothing, or it publishes the memory and goes on. -/
theorem publishes_or_idle (codec : Codec) (c : RememberCall) (db : Database) :
    ((c.args.governance.validate.isOk = false ∨ c.fault 0 ≠ none
        ∨ (c.args.insert codec db).isOk = false)
      ∧ (c.run codec db).2 = db ∧ c.states codec db = [db]) ∨
    (∃ s, c.args.governance.validate = .ok () ∧ c.fault 0 = none
      ∧ c.args.insert codec db = .ok (db.nextMemoryId, s)
      ∧ Inserted c.args db.nextMemoryId db s
      ∧ c.run codec db = (governRemembered codec c.args db.nextMemoryId).run (Proc.later c.fault) s
      ∧ c.states codec db
          = db :: (governRemembered codec c.args db.nextMemoryId).states (Proc.later c.fault) s) := by
  simp only [RememberCall.run, RememberCall.states, rememberWithGovernance]
  cases hval : c.args.governance.validate with
  | error e => exact Or.inl ⟨Or.inl rfl, rfl, rfl⟩
  | ok u =>
      simp only [Proc.lift, Proc.done_ok_bind, Proc.exec_bind]
      cases h0 : c.fault 0 with
      | some e => exact Or.inl ⟨Or.inr (Or.inl (by simp)), by rw [Proc.run_step_fault h0], by
          simp [Proc.states, h0]⟩
      | none =>
          cases hins : c.args.insert codec db with
          | error e =>
              have hact := hins
              unfold RememberArgs.insert at hact
              exact Or.inl ⟨by simp [Except.isOk, Except.toBool], by rw [Proc.run_step_error h0 hact], by
                simp [Proc.states, h0, hact]⟩
          | ok r =>
              obtain ⟨id, s⟩ := r
              have hact := hins
              unfold RememberArgs.insert at hact
              obtain ⟨rfl, hinserted⟩ := insert_ok hins
              exact Or.inr ⟨s, trivial, rfl, rfl, hinserted, Proc.run_step_ok h0 hact,
                Proc.states_step_ok h0 hact⟩

/-- Right after the insertion, readers of the default namespace get the memory
with the default governance. -/
theorem defaultGovernance_of_observed (hins : Inserted c.args db.nextMemoryId db s)
    (hseen : s ∈ c.states codec db) (h : NeverHalfGoverned codec c db) :
    DefaultGovernance c.args.governance := by
  have hrow := hins.row_of_fresh (fresh_metaRow db)
  have hcols : DefaultColumns (c.args.metaRow db.nextMemoryId) := newMetaRow_default ..
  have hns : normalizeNamespace DEFAULT_NAMESPACE = DEFAULT_NAMESPACE := by decide +kernel
  have hshow : s.Shows 0 DEFAULT_NAMESPACE db.nextMemoryId := by
    rw [Database.shows_iff, hins.memoryRow, Database.visibleIn, hrow, hns]
    have hlive : (c.args.metaRow db.nextMemoryId).col "tombstoned_at" = .null := by
      simp [RememberArgs.metaRow, newMetaRow, Record.setAll, memoryMetaDefaults, jsonObject]
    simp [Database.admitsMeta, Record.text, Record.i64, hcols.namespace, hcols.expiresAt, hlive,
      Value.asI64]
  obtain ⟨hnamespace, hclass, hconsent, hexpires, htrust⟩ := h.observed s hseen 0 _ hshow
  rw [Database.getMemoryMetaFull, hrow, Option.map_some, Option.getD_some] at hclass hconsent hexpires htrust
  obtain ⟨hc, hco, he, ht⟩ := hcols.info
  refine ⟨hnamespace.symm.trans hns, ?_, ?_, hexpires.symm.trans he, ?_⟩
  · rw [hc] at hclass
    cases hg : c.args.governance.classification <;> simp_all [classificationStr]
  · rw [hco] at hconsent
    simpa using hconsent.symm
  · rw [ht] at htrust
    cases hg : c.args.governance.trustTier <;> simp_all [trustTierStr]

/-- A call that fails after the insertion leaves the metadata row. -/
theorem isOk_of_nothingWritten (hins : Inserted c.args db.nextMemoryId db s)
    (hrun : c.run codec db
      = (governRemembered codec c.args db.nextMemoryId).run (Proc.later c.fault) s)
    (h : NeverHalfGoverned codec c db) : (c.run codec db).1.isOk = true := by
  cases hres : (c.run codec db).1 with
  | ok id => rfl
  | error e =>
      have hkeeps : (governRemembered codec c.args db.nextMemoryId).Preserves
          (HasMeta db.nextMemoryId fun _ => True) :=
        governRemembered_preserves (fun _ _ => trivial) (fun _ _ _ _ => trivial)
          (fun _ _ _ _ _ => trivial) (fun _ _ _ _ => trivial)
      obtain ⟨r, hr, -⟩ := hkeeps.run (Proc.later c.fault)
        ⟨_, hins.row_of_fresh (fresh_metaRow db), trivial⟩
      have hmeta := (h.refused e hres).metadata
      rw [hrun] at hmeta
      rw [Database.metaRow, hmeta, ← Database.metaRow, fresh_metaRow] at hr
      cases hr

/-- A request for the defaults is seen as requested all along. -/
theorem asRequested_of_default (hg : DefaultGovernance c.args.governance) {ns : String} {now : Int}
    (hs : HasMeta db.nextMemoryId DefaultColumns s) (hshow : s.Shows now ns db.nextMemoryId) :
    AsRequested c.args.governance ns (s.getMemoryMetaFull db.nextMemoryId) := by
  obtain ⟨r, hr, hcols⟩ := hs
  obtain ⟨-, hvisible⟩ := Database.shows_iff.mp hshow
  rw [Database.visibleIn, hr] at hvisible
  obtain ⟨hc, hco, he, ht⟩ := hcols.info
  rw [Database.getMemoryMetaFull, hr, Option.map_some, Option.getD_some]
  exact ⟨(hcols.admits now _ hvisible).trans hg.namespace.symm,
    by rw [hc, hg.classification]; rfl, by rw [hco, hg.consentState]; rfl,
    by rw [he, hg.expiresAt], by rw [ht, hg.trustTier]; rfl⟩

/-- A governed write is never visible half-governed, and leaves nothing when it
fails, exactly when it publishes nothing or asks for the column defaults and
nothing after its insertion fails. -/
theorem remember_governed_iff (codec : Codec) (c : RememberCall) (db : Database) :
    NeverHalfGoverned codec c db ↔ PublishesAsRequested codec c db := by
  rcases publishes_or_idle codec c db with
    ⟨hidle, hrun, hstates⟩ | ⟨s, hval, h0, hinsert, hins, hrun, hstates⟩
  · exact ⟨fun _ => Or.inl hidle, fun _ => neverHalfGoverned_of_idle hrun hstates⟩
  have hfresh := fresh_metaRow db
  constructor
  · intro h
    have hseen : s ∈ c.states codec db := by
      rw [hstates]
      exact List.mem_cons_of_mem _ (Proc.mem_states_self ..)
    have hok := isOk_of_nothingWritten hins hrun h
    rw [hrun, isOk_governRemembered hins hfresh hval] at hok
    refine Or.inr ⟨defaultGovernance_of_observed hins hseen h, fun i hi => ?_, hok.2⟩
    cases i with
    | zero => exact h0
    | succ i => exact hok.1 i hi
  · rintro (hidle | ⟨hg, hfault, haccepted⟩)
    · rcases hidle with hbad | hbad | hbad
      · rw [hval] at hbad
        cases hbad
      · exact absurd h0 hbad
      · rw [hinsert] at hbad
        cases hbad
    have hok : (c.run codec db).1.isOk = true := by
      rw [hrun, isOk_governRemembered hins hfresh hval]
      exact ⟨fun i hi => hfault (i + 1) hi, haccepted⟩
    have hkeeps : (governRemembered codec c.args db.nextMemoryId).Preserves
        (HasMeta db.nextMemoryId DefaultColumns) :=
      governRemembered_preserves (fun r h => h.setAll (by simp))
        (fun r _ _ h => h.setAll (by simp))
        (fun r _ _ _ _ => defaultColumns_governanceFields hg ..)
        (fun r _ _ h => h.setAll (by simp))
    refine ⟨fun t ht now ns hshow => ?_, fun e he => ?_⟩
    · rw [hstates, List.mem_cons] at ht
      rcases ht with rfl | ht
      · exact absurd hshow (not_shows_fresh _ now ns)
      · exact asRequested_of_default hg
          (hkeeps.states _ ⟨_, hins.row_of_fresh hfresh, newMetaRow_default ..⟩ t ht) hshow
    · rw [he] at hok
      cases hok

end Result

/-! ## The defect, concretely -/

/-- A health record of another namespace, with consent. -/
def clinicalNote (parent : Option Int) : RememberCall where
  args := {
    project := "p", scope := "project", kind := "fact", text := "m"
    governance := {
      «namespace» := "clinic", classification := .phi, consentState := some .granted
      parentMemoryId := parent }
    now := 100, metaNow := 100, scopeNow := 100, governanceNow := 100, ledgerNow := 100
    insertUuid := "u", governanceUuid := "v" }
  fault := Proc.noFault

/-- A successful write is first visible in the default namespace as internal
data; and a write refused for its parent stays visible there. -/
theorem remember_half_governed :
    ¬ NeverHalfGoverned (jsonCodec []) (clinicalNote none) {}
      ∧ ((clinicalNote none).states (jsonCodec []) {}).any (fun s =>
          (s.getMemoryByIdInNamespace 100 1 "local").isSome
            && (s.getMemoryMetaFull 1).classification == "internal") = true
      ∧ ((clinicalNote (some 7)).run (jsonCodec []) {}).1
          = .error "parent memory metadata not found: 7"
      ∧ (((clinicalNote (some 7)).run (jsonCodec []) {}).2.getMemoryByIdInNamespace 100 1
          "local").isSome = true := by
  refine ⟨fun h => ?_, by decide +kernel, by decide +kernel, by decide +kernel⟩
  rcases publishes_or_idle (jsonCodec []) (clinicalNote none) {} with
    ⟨hidle, -, -⟩ | ⟨s, -, -, -, hins, -, hstates⟩
  · exact absurd hidle (by decide +kernel)
  · have hseen : s ∈ (clinicalNote none).states (jsonCodec []) {} := by
      rw [hstates]
      exact List.mem_cons_of_mem _ (Proc.mem_states_self ..)
    have hg := defaultGovernance_of_observed hins hseen h
    exact absurd hg.classification (by decide)

end IronMem
