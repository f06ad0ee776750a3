import IronMem.Restore
import IronMem.WellFormed

/-!
# What a successful restore has done

One lemma for each part of `restore`: which rows the deletions leave, which rows
the insertions add, what the merge puts into the replacement. The results about
restore use these and never unfold the loops.

- **deletions** (`mem_deleteCascade`): a `DELETE` takes the rows it selects and, through
  the foreign keys, rows that refer to them. The tables go one after the other, so the
  list of tables is split around the one in question (`deleteProject_split`): those before
  it and after it leave it alone, or take rows that the project's rows take along.
- **insertions** (`insertTables_ok`): every row of the checkpoint is inserted once, with
  its values cast (`InsertedRow`). A value that has its column's type stays as it is.
- **the whole call** (`restore_ok`): each table is what was kept and what was inserted
  (`Replaced`), and of five tables it is known which rows those are (`Restored`).

The results about authorization, handles, assertions, originals and the graph all start from
here. What becomes of a column is said through `InsertedRow.col_eq` and `MergedRow`, without the
list of the columns of a table.
-/

namespace IronMem

open Fallible

/-! ## Deletions

A table loses the rows a statement selects, and through foreign keys those that refer to rows
that go. The order of the statements puts children before their parents. -/

section Delete

variable {db db' : Database} {name n : String} {p : Record → Bool}

theorem mem_referrers {child parent : String} {ref : Reference} :
    (child, ref) ∈ referrers parent ↔
      child ∈ TABLES ∧ ref ∈ (schema child).references ∧ ref.parent = parent := by
  simp only [referrers, List.mem_flatMap, List.mem_map, List.mem_filter, decide_eq_true_eq,
    Prod.mk.injEq]
  constructor
  · rintro ⟨c, hc, r, ⟨hr, hp⟩, rfl, rfl⟩
    exact ⟨hc, hr, hp⟩
  · rintro ⟨hc, hr, hp⟩
    exact ⟨child, hc, ref, ⟨hr, hp⟩, rfl, rfl⟩

/-- Following foreign keys only takes rows away from the tables that have them. -/
theorem followReferences_table {gone : List Record} {refs : List (String × Reference)}
    (h : refs.foldlM (followReference gone) db = .ok db') :
    (db'.table n).Sublist (db.table n) ∧
      (∀ r, r ∈ db'.table n ↔ r ∈ db.table n ∧
        ∀ ref, (n, ref) ∈ refs → ref.cascade = true → refersTo ref gone r = false) ∧
      ((∀ ref, (n, ref) ∉ refs) → db'.table n = db.table n) := by
  induction refs generalizing db with
  | nil =>
      obtain rfl := foldlM_nil_eq_ok.mp h
      exact ⟨.refl _, by simp, fun _ => rfl⟩
  | cons referrer refs ih =>
      obtain ⟨t, ht, h⟩ := foldlM_cons_eq_ok.mp h
      obtain ⟨hsub, hmem, hframe⟩ := ih h
      obtain ⟨child, ref⟩ := referrer
      simp only [followReference] at ht
      split at ht
      · next hcascade =>
          obtain rfl := Except.ok.inj ht
          refine ⟨hsub.trans ?_, fun r => ?_, fun hno => ?_⟩
          · rw [Database.table_deleteRows]
            split
            · next hn => exact hn ▸ List.filter_sublist
            · exact .refl _
          · rw [hmem, Database.table_deleteRows]
            by_cases hn : n = child
            · subst hn
              simp only [if_true, List.mem_filter, List.mem_cons, Prod.mk.injEq, true_and,
                forall_eq_or_imp, hcascade, forall_const, Bool.not_eq_true']
              rw [and_assoc]
            · simp [hn]
          · have hne : n ≠ child := fun hn => hno ref (by simp [hn])
            rw [hframe fun r hr => hno r (List.mem_cons_of_mem _ hr), Database.table_deleteRows,
              if_neg hne]
      · next hcascade =>
          obtain ⟨_, -, ht⟩ := bind_eq_ok.mp ht
          obtain rfl := pure_eq_ok.mp ht
          refine ⟨hsub, fun r => ?_, fun hno =>
            hframe fun r hr => hno r (List.mem_cons_of_mem _ hr)⟩
          rw [hmem]
          refine and_congr_right fun _ => ⟨fun hall q hq hc => ?_,
            fun hall q hq => hall q (List.mem_cons_of_mem _ hq)⟩
          rcases List.mem_cons.mp hq with heq | hq
          · exact absurd ((Prod.mk.inj heq).2 ▸ hc) hcascade
          · exact hall q hq hc

/-- What one `DELETE` leaves in any table. -/
theorem mem_deleteCascade (h : deleteCascade name p db = .ok db') (r : Record) :
    r ∈ db'.table n ↔ r ∈ db.table n ∧ (n = name → p r = false) ∧
      ∀ ref, n ∈ TABLES → ref ∈ (schema n).references → ref.parent = name → ref.cascade = true →
        refersTo ref ((db.table name).filter p) r = false := by
  obtain ⟨-, hmem, -⟩ := @followReferences_table _ _ n _ _ h
  rw [hmem, Database.table_deleteRows]
  have hrefs : (∀ ref, (n, ref) ∈ referrers name → ref.cascade = true →
        refersTo ref ((db.table name).filter p) r = false) ↔
      ∀ ref, n ∈ TABLES → ref ∈ (schema n).references → ref.parent = name →
        ref.cascade = true → refersTo ref ((db.table name).filter p) r = false := by
    simp only [mem_referrers, and_imp]
  rw [hrefs, ← and_assoc]
  refine and_congr_left fun _ => ?_
  by_cases hn : n = name
  · subst hn
    simp
  · simp [hn]

theorem deleteCascade_sublist (h : deleteCascade name p db = .ok db') (n : String) :
    (db'.table n).Sublist (db.table n) := by
  refine (@followReferences_table _ _ n _ _ h).1.trans ?_
  rw [Database.table_deleteRows]
  split
  · next hn => exact hn ▸ List.filter_sublist
  · exact .refl _

/-- A table without foreign keys into the deleted one is left alone. -/
theorem deleteCascade_frame (h : deleteCascade name p db = .ok db') (hn : n ≠ name)
    (hrefs : ∀ ref ∈ (schema n).references, ref.parent ≠ name) : db'.table n = db.table n := by
  rw [(@followReferences_table _ _ n _ _ h).2.2 fun ref href =>
    hrefs ref (mem_referrers.mp href).2.1 (mem_referrers.mp href).2.2,
    Database.table_deleteRows, if_neg hn]

/-- Deletions in other tables, none of which the table refers to. -/
theorem deleteTables_frame {project : String} {names : List String}
    (h : names.foldlM (fun (db : Database) name =>
      deleteCascade name (db.inProject project name) db) db = .ok db')
    (hn : ∀ name ∈ names, n ≠ name ∧ ∀ ref ∈ (schema n).references, ref.parent ≠ name) :
    db'.table n = db.table n := by
  refine foldlM_induction (p := fun s : Database => s.table n = db.table n) h
    (fun s name s' hname hs hstep => ?_) rfl
  obtain ⟨hne, hrefs⟩ := hn name hname
  exact (deleteCascade_frame hstep hne hrefs).trans hs

theorem deleteProject_sublist {project : String} (h : deleteProject project db = .ok db')
    (n : String) : (db'.table n).Sublist (db.table n) :=
  foldlM_induction (p := fun s : Database => (s.table n).Sublist (db.table n)) h
    (fun _ _ _ _ hs hstep => (deleteCascade_sublist hstep n).trans hs) (.refl _)

/-! ### The tables the authorization is read from -/

variable {project : String}

/-- The deletions before, at and after one table. -/
theorem deleteProject_split (before : List String) (name : String) (after : List String)
    (hnames : TABLES.reverse = before ++ name :: after) (h : deleteProject project db = .ok db') :
    ∃ s t, before.foldlM (fun (db : Database) name =>
          deleteCascade name (db.inProject project name) db) db = .ok s
      ∧ deleteCascade name (s.inProject project name) s = .ok t
      ∧ after.foldlM (fun (db : Database) name =>
          deleteCascade name (db.inProject project name) db) t = .ok db' := by
  rw [deleteProject, hnames, foldlM_append_eq_ok] at h
  obtain ⟨s, hs, h⟩ := h
  obtain ⟨t, ht, h⟩ := foldlM_cons_eq_ok.mp h
  exact ⟨s, t, hs, ht, h⟩

/-- A table whose rows carry the project. The tables before it in the order have no row
it refers to, those after it no row it goes with. -/
theorem mem_ownTable_deleteProject (before after : List String)
    (hnames : TABLES.reverse = before ++ n :: after)
    (hbefore : ∀ name ∈ before, n ≠ name ∧ ∀ ref ∈ (schema n).references, ref.parent ≠ name)
    (hafter : ∀ name ∈ after, n ≠ name ∧ ∀ ref ∈ (schema n).references, ref.parent = name →
      ref.cascade = false)
    (hself : ∀ ref ∈ (schema n).references, ref.parent ≠ n)
    (hown : ∀ (s : Database) r, s.inProject project n r = decide (r.col "project" = .str project))
    (h : deleteProject project db = .ok db') (r : Record) :
    r ∈ db'.table n ↔ r ∈ db.table n ∧ r.col "project" ≠ .str project := by
  obtain ⟨s, t, hs, ht, h⟩ := deleteProject_split before n after hnames h
  have hrest : ∀ r, r ∈ db'.table n ↔ r ∈ t.table n := by
    refine foldlM_induction (p := fun d : Database => ∀ r, r ∈ d.table n ↔ r ∈ t.table n) h
      (fun d name d' hname hd hstep r => ?_) fun _ => Iff.rfl
    rw [mem_deleteCascade hstep, ← hd r]
    refine and_iff_left ⟨fun hn => absurd hn (hafter name hname).1, fun ref _ href hparent hcasc => ?_⟩
    rw [(hafter name hname).2 ref href hparent] at hcasc
    cases hcasc
  rw [hrest, mem_deleteCascade ht, deleteTables_frame hs hbefore, hown, decide_eq_false_iff_not]
  constructor
  · rintro ⟨hr, hp, -⟩
    exact ⟨hr, hp rfl⟩
  · rintro ⟨hr, hp⟩
    exact ⟨hr, fun _ => hp, fun ref _ href hparent => absurd hparent (hself ref href)⟩

theorem mem_memories_deleteProject (h : deleteProject project db = .ok db') (r : Record) :
    r ∈ db'.table "memories" ↔ r ∈ db.table "memories" ∧ r.col "project" ≠ .str project :=
  mem_ownTable_deleteProject ["assertion_events", "contradiction_members",
    "contradiction_sets", "reflection_proposals", "code_anchors", "memory_chunks",
    "memory_edges", "memory_entities", "memory_influence_policy", "memory_evidence_roots",
    "memory_meta"] ["observations", "sessions"] rfl (by decide) (by decide) (by decide)
    (fun _ _ => rfl) h r

theorem mem_observations_deleteProject (h : deleteProject project db = .ok db') (r : Record) :
    r ∈ db'.table "observations" ↔
      r ∈ db.table "observations" ∧ r.col "project" ≠ .str project :=
  mem_ownTable_deleteProject ["assertion_events", "contradiction_members",
    "contradiction_sets", "reflection_proposals", "code_anchors", "memory_chunks",
    "memory_edges", "memory_entities", "memory_influence_policy", "memory_evidence_roots",
    "memory_meta", "memories"] ["sessions"] rfl (by decide) (by decide) (by decide)
    (fun _ _ => rfl) h r

theorem mem_memory_chunks_deleteProject (h : deleteProject project db = .ok db') (r : Record) :
    r ∈ db'.table "memory_chunks" ↔
      r ∈ db.table "memory_chunks" ∧ r.col "project" ≠ .str project :=
  mem_ownTable_deleteProject ["assertion_events", "contradiction_members",
    "contradiction_sets", "reflection_proposals", "code_anchors"] ["memory_edges",
    "memory_entities", "memory_influence_policy", "memory_evidence_roots", "memory_meta",
    "memories", "observations", "sessions"] rfl (by decide) (by decide) (by decide)
    (fun _ _ => rfl) h r

/-- The metadata of the project's memories goes. -/
theorem mem_memory_meta_deleteProject (h : deleteProject project db = .ok db') (r : Record) :
    r ∈ db'.table "memory_meta" ↔
      r ∈ db.table "memory_meta" ∧ r.col "memory_id" ∉ db.memoryIds project := by
  obtain ⟨s, t, hs, ht, h⟩ := deleteProject_split ["assertion_events", "contradiction_members",
    "contradiction_sets", "reflection_proposals", "code_anchors", "memory_chunks",
    "memory_edges", "memory_entities", "memory_influence_policy", "memory_evidence_roots"]
    "memory_meta" ["memories", "observations", "sessions"] rfl h
  have hids : s.memoryIds project = db.memoryIds project := by
    rw [Database.memoryIds, Database.memoryIds, deleteTables_frame hs (by decide)]
  rw [deleteTables_frame h (by decide), mem_deleteCascade ht, deleteTables_frame hs (by decide)]
  simp [Database.inProject_memory_meta, references_memory_meta, hids]

/-- What goes with the metadata of the project's memories. -/
theorem refersTo_ownedByMeta {gone : List Record} {ids : List Value} {r : Record}
    (hgone : ∀ g ∈ gone, g.col "memory_id" ∈ ids) (hr : r.col "memory_id" ∉ ids) :
    refersTo ownedByMeta gone r = false := by
  simp only [refersTo, ownedByMeta, List.any_eq_false, Bool.and_eq_true, beq_iff_eq, not_and]
  intro g hg _ heq
  exact hr (heq ▸ hgone g hg)

theorem mem_policies_deleteProject (h : deleteProject project db = .ok db') (r : Record) :
    r ∈ db'.table "memory_influence_policy" ↔
      r ∈ db.table "memory_influence_policy" ∧ r.col "memory_id" ∉ db.memoryIds project := by
  obtain ⟨s, t, hs, ht, h⟩ := deleteProject_split ["assertion_events", "contradiction_members",
    "contradiction_sets", "reflection_proposals", "code_anchors", "memory_chunks",
    "memory_edges", "memory_entities"] "memory_influence_policy" ["memory_evidence_roots",
    "memory_meta", "memories", "observations", "sessions"] rfl h
  obtain ⟨u, hu, h⟩ := foldlM_cons_eq_ok.mp h
  obtain ⟨v, hv, h⟩ := foldlM_cons_eq_ok.mp h
  have hmemories : u.table "memories" = db.table "memories" := by
    rw [deleteCascade_frame hu (by decide) (by decide),
      deleteCascade_frame ht (by decide) (by decide), deleteTables_frame hs (by decide)]
  have hids : s.memoryIds project = db.memoryIds project := by
    rw [Database.memoryIds, Database.memoryIds, deleteTables_frame hs (by decide)]
  have hids' : u.memoryIds project = db.memoryIds project := by
    rw [Database.memoryIds, Database.memoryIds, hmemories]
  rw [deleteTables_frame h (by decide), mem_deleteCascade hv,
    deleteCascade_frame hu (by decide) (by decide), mem_deleteCascade ht,
    deleteTables_frame hs (by decide)]
  simp only [Database.inProject_memory_influence_policy, hids, decide_eq_false_iff_not]
  constructor
  · rintro ⟨⟨hr, hid, -⟩, -, -⟩
    exact ⟨hr, hid trivial⟩
  · rintro ⟨hr, hid⟩
    refine ⟨⟨hr, fun _ => hid, fun ref _ href hparent => ?_⟩, by simp, fun ref _ href _ _ => ?_⟩
    · obtain rfl := List.mem_singleton.mp href
      exact absurd hparent (by decide)
    · obtain rfl := List.mem_singleton.mp href
      refine @refersTo_ownedByMeta _ (db.memoryIds project) _ (fun g hg => ?_) hid
      have hproject := (List.mem_filter.mp hg).2
      rwa [Database.inProject_memory_meta, hids', decide_eq_true_eq] at hproject

theorem mem_contradiction_sets_deleteProject (h : deleteProject project db = .ok db')
    (r : Record) : r ∈ db'.table "contradiction_sets" ↔
      r ∈ db.table "contradiction_sets" ∧ r.col "project" ≠ .str project :=
  mem_ownTable_deleteProject ["assertion_events", "contradiction_members"]
    ["reflection_proposals", "code_anchors", "memory_chunks", "memory_edges",
    "memory_entities", "memory_influence_policy", "memory_evidence_roots", "memory_meta",
    "memories", "observations", "sessions"] rfl (by decide) (by decide) (by decide)
    (fun _ _ => rfl) h r

/-- Members go with their set, or with the metadata of their memory. -/
theorem mem_contradiction_members_deleteProject (h : deleteProject project db = .ok db')
    (r : Record) : r ∈ db'.table "contradiction_members" ↔
      r ∈ db.table "contradiction_members"
        ∧ r.col "contradiction_set_id" ∉ db.contradictionSetIds project
        ∧ ∀ m ∈ db.table "memory_meta", m.col "memory_id" ∈ db.memoryIds project →
            (r.col "memory_id").isNull = true ∨ m.col "memory_id" ≠ r.col "memory_id" := by
  obtain ⟨s, t, hs, ht, h⟩ := deleteProject_split ["assertion_events"] "contradiction_members"
    ["contradiction_sets", "reflection_proposals", "code_anchors", "memory_chunks",
    "memory_edges", "memory_entities", "memory_influence_policy", "memory_evidence_roots",
    "memory_meta", "memories", "observations", "sessions"] rfl h
  obtain ⟨u, hu, h⟩ := foldlM_cons_eq_ok.mp h
  obtain ⟨v, hv, h⟩ := (foldlM_append_eq_ok (l := ["reflection_proposals", "code_anchors",
    "memory_chunks", "memory_edges", "memory_entities", "memory_influence_policy",
    "memory_evidence_roots"])).mp h
  obtain ⟨w, hw, h⟩ := foldlM_cons_eq_ok.mp h
  have hmemories : v.table "memories" = db.table "memories" := by
    rw [deleteTables_frame hv (by decide), deleteCascade_frame hu (by decide) (by decide),
      deleteCascade_frame ht (by decide) (by decide), deleteTables_frame hs (by decide)]
  have hmeta : v.table "memory_meta" = db.table "memory_meta" := by
    rw [deleteTables_frame hv (by decide), deleteCascade_frame hu (by decide) (by decide),
      deleteCascade_frame ht (by decide) (by decide), deleteTables_frame hs (by decide)]
  have hsets : t.table "contradiction_sets" = db.table "contradiction_sets" := by
    rw [deleteCascade_frame ht (by decide) (by decide), deleteTables_frame hs (by decide)]
  have hsets' : s.contradictionSetIds project = db.contradictionSetIds project := by
    rw [Database.contradictionSetIds, Database.contradictionSetIds,
      deleteTables_frame hs (by decide)]
  have hids : v.memoryIds project = db.memoryIds project := by
    rw [Database.memoryIds, Database.memoryIds, hmemories]
  rw [deleteTables_frame h (by decide), mem_deleteCascade hw, deleteTables_frame hv (by decide),
    mem_deleteCascade hu, mem_deleteCascade ht, deleteTables_frame hs (by decide)]
  have hgone : ∀ m, m ∈ (v.table "memory_meta").filter (v.inProject project "memory_meta") ↔
      m ∈ db.table "memory_meta" ∧ m.col "memory_id" ∈ db.memoryIds project := by
    intro m
    simp [Database.inProject_memory_meta, hids, hmeta]
  have hcascade : refersTo ownedByMeta ((v.table "memory_meta").filter
        (v.inProject project "memory_meta")) r = false ↔
      ∀ m ∈ db.table "memory_meta", m.col "memory_id" ∈ db.memoryIds project →
        (r.col "memory_id").isNull = true ∨ m.col "memory_id" ≠ r.col "memory_id" := by
    simp only [refersTo, ownedByMeta, List.any_eq_false, hgone, Bool.and_eq_true, beq_iff_eq,
      Bool.not_eq_true', not_and, and_imp]
    refine forall₂_congr fun m _ => imp_congr_right fun _ => ?_
    cases (r.col "memory_id").isNull <;> simp
  have hown : s.inProject project "contradiction_members" r = false ↔
      r.col "contradiction_set_id" ∉ db.contradictionSetIds project := by
    simp [Database.inProject_contradiction_members, hsets']
  constructor
  · rintro ⟨⟨⟨hr, hset, -⟩, -, -⟩, -, hmetas⟩
    exact ⟨hr, hown.mp (hset rfl),
      hcascade.mp (hmetas ownedByMeta (by decide) (List.mem_pair.mpr (Or.inr rfl)) rfl rfl)⟩
  · rintro ⟨hr, hset, hmetas⟩
    refine ⟨⟨⟨hr, fun _ => hown.mpr hset, fun ref _ href hparent => ?_⟩,
      fun hne => absurd hne (by decide), fun ref _ href hparent _ => ?_⟩,
      fun hne => absurd hne (by decide), fun ref _ href hparent _ => ?_⟩
    · rcases List.mem_pair.mp href with rfl | rfl
      · exact absurd hparent (by decide)
      · exact absurd hparent (by decide)
    · rcases List.mem_pair.mp href with rfl | rfl
      · simp only [refersTo, hsets, List.any_eq_false, Bool.and_eq_true, beq_iff_eq, not_and]
        intro g hg _ heq
        obtain ⟨hg, hproject⟩ := List.mem_filter.mp hg
        refine hset (heq ▸ List.mem_map.mpr ⟨g, List.mem_filter.mpr ⟨hg, ?_⟩, rfl⟩)
        simpa [Database.inProject_contradiction_sets] using hproject
      · exact absurd hparent (by decide)
    · rcases List.mem_pair.mp href with rfl | rfl
      · exact absurd hparent (by decide)
      · exact hcascade.mpr hmetas

end Delete

/-! ## Insertions

A row is written column by column under the names of the table, an absent key is filled in, and
the constraints are checked against what is there already. -/

section Insert

variable {codec : Codec} {args : RestoreArgs} {db db' : Database} {name n : String}
  {fields : List (String × String)}

/-- A row as an insertion writes it. -/
def InsertedRow (codec : Codec) (args : RestoreArgs) (name : String)
    (fields : List (String × String)) (row r : Record) : Prop :=
  ∃ cast rows, castRow codec name fields row = .ok cast ∧ r = assignId args name rows cast

theorem insertRecord_ok {row : Record} (h : insertRecord codec args name fields db row = .ok db') :
    ∃ r, InsertedRow codec args name fields row r ∧ checkRow db name r = .ok ()
      ∧ db' = db.insertRow name r := by
  obtain ⟨cast, hcast, h⟩ := bind_eq_ok.mp h
  obtain ⟨_, hcheck, h⟩ := bind_eq_ok.mp h
  exact ⟨_, ⟨cast, _, hcast, rfl⟩, hcheck, (pure_eq_ok.mp h).symm⟩

theorem checkRow_ok {r : Record} (h : checkRow db name r = .ok ()) :
    (∀ f ∈ (schema name).notNull, r.col f ≠ .null) ∧
      (∀ parts ∈ (schema name).unique, ∀ old ∈ db.table name, collides parts old r = false) ∧
      ∀ ref ∈ (schema name).references, r.col ref.column = .null ∨
        ∃ g ∈ db.table ref.parent, g.col ref.parentColumn = r.col ref.column := by
  obtain ⟨_, hnull, h⟩ := bind_eq_ok.mp h
  obtain ⟨_, hunique, href⟩ := bind_eq_ok.mp h
  rw [ensure_eq_ok, List.all_eq_true] at hnull hunique href
  refine ⟨fun f hf => ?_, fun parts hparts old hold => ?_, fun ref href' => ?_⟩
  · have hf := hnull f hf
    rw [Bool.not_eq_true'] at hf
    exact Value.isNull_eq_false.mp hf
  · have hold := List.all_eq_true.mp (hunique parts hparts) old hold
    rwa [Bool.not_eq_true'] at hold
  · have hr := href ref href'
    rw [Bool.or_eq_true, List.any_eq_true] at hr
    rcases hr with hr | ⟨g, hg, heq⟩
    · exact Or.inl (Value.isNull_eq_true.mp hr)
    · exact Or.inr ⟨g, hg, beq_iff_eq.mp heq⟩

/-- The rows of one table, inserted one by one. -/
theorem insertRows_ok {rows : List Record}
    (h : rows.foldlM (insertRecord codec args name fields) db = .ok db') :
    ∃ new, List.Forall₂ (InsertedRow codec args name fields) rows new
      ∧ db'.table name = db.table name ++ new
      ∧ (∀ n, n ≠ name → db'.table n = db.table n)
      ∧ (UniqueKeys name (db.table name) → UniqueKeys name (db'.table name)) := by
  induction rows generalizing db with
  | nil =>
      obtain rfl := foldlM_nil_eq_ok.mp h
      exact ⟨[], .nil, by simp, fun _ _ => rfl, id⟩
  | cons row rows ih =>
      obtain ⟨t, ht, h⟩ := foldlM_cons_eq_ok.mp h
      obtain ⟨r, hr, hcheck, rfl⟩ := insertRecord_ok ht
      obtain ⟨new, hnew, htable, hframe, hunique⟩ := ih h
      refine ⟨r :: new, .cons hr hnew, ?_, fun n hn => ?_, fun hkeys => hunique ?_⟩
      · rw [htable, Database.table_insertRow, if_pos rfl, List.append_assoc]
        rfl
      · rw [hframe n hn, Database.table_insertRow, if_neg hn]
      · intro parts hparts
        rw [Database.table_insertRow, if_pos rfl, List.pairwise_append]
        exact ⟨hkeys parts hparts, List.pairwise_singleton .., fun a ha b hb =>
          List.mem_singleton.mp hb ▸ (checkRow_ok hcheck).2.1 parts hparts a ha⟩

theorem insertTables_frame {tables : BTreeMap Table} {names : List String}
    (h : names.foldlM (fun (db : Database) name =>
      (rowsOf tables name).foldlM (insertRecord codec args name (fieldsOf tables name)) db) db
        = .ok db') (hn : n ∉ names) : db'.table n = db.table n := by
  refine foldlM_induction (p := fun s : Database => s.table n = db.table n) h
    (fun s name s' hname hs hstep => ?_) rfl
  obtain ⟨-, -, -, hframe, -⟩ := insertRows_ok hstep
  rw [hframe n fun hne => hn (hne ▸ hname), hs]

/-- The rows of every table, in the order of `TABLES`. -/
theorem insertTables_ok {tables : BTreeMap Table} (h : insertTables codec args tables db = .ok db')
    (hn : n ∈ TABLES) :
    ∃ new, List.Forall₂ (InsertedRow codec args n (fieldsOf tables n)) (rowsOf tables n) new
      ∧ db'.table n = db.table n ++ new
      ∧ (UniqueKeys n (db.table n) → UniqueKeys n (db'.table n)) := by
  obtain ⟨before, after, hnames⟩ := List.append_of_mem hn
  have hnodup : (before ++ n :: after).Nodup := hnames ▸ (by decide : TABLES.Nodup)
  rw [insertTables, hnames, foldlM_append_eq_ok] at h
  obtain ⟨s, hs, h⟩ := h
  obtain ⟨t, ht, h⟩ := foldlM_cons_eq_ok.mp h
  obtain ⟨new, hnew, htable, -, hunique⟩ := insertRows_ok ht
  have hbefore : n ∉ before := fun hmem =>
    (List.nodup_append.mp hnodup).2.2 n hmem n (List.mem_cons_self ..) rfl
  have hafter : n ∉ after := (List.nodup_cons.mp (List.nodup_append.mp hnodup).2.1).1
  rw [insertTables_frame hs hbefore] at htable hunique
  rw [insertTables_frame h hafter]
  exact ⟨new, hnew, htable, hunique⟩

/-- Casting column by column: the cast columns hold what `CAST` makes of them, the
others what they held. -/
theorem castColumns_ok {row acc r : Record}
    (h : fields.foldlM (fun (r : Record) (f, kind) => do
      return r.set (columnOf name f) (← castTo codec kind (row.col f))) acc = .ok r)
    (hnodup : (fields.map fun f => columnOf name f.1).Nodup) :
    (∀ f ∈ fields, castTo codec f.2 (row.col f.1) = .ok (r.col (columnOf name f.1))) ∧
      ∀ c, c ∉ fields.map (fun f => columnOf name f.1) → r.col c = acc.col c := by
  induction fields generalizing acc with
  | nil =>
      obtain rfl := foldlM_nil_eq_ok.mp h
      exact ⟨by simp, fun _ _ => rfl⟩
  | cons f fields ih =>
      obtain ⟨t, ht, h⟩ := foldlM_cons_eq_ok.mp h
      obtain ⟨v, hv, ht⟩ := bind_eq_ok.mp ht
      obtain rfl := pure_eq_ok.mp ht
      rw [List.map_cons, List.nodup_cons] at hnodup
      obtain ⟨hcols, hrest⟩ := ih h hnodup.2
      refine ⟨fun g hg => ?_, fun c hc => ?_⟩
      · rcases List.mem_cons.mp hg with rfl | hg
        · rw [hrest _ hnodup.1, Record.col_set_self]
          exact hv
        · exact hcols g hg
      · rw [List.map_cons, List.mem_cons, not_or] at hc
        rw [hrest c hc.2, Record.col_set_of_ne _ _ (Ne.symm hc.1)]

theorem InsertedRow.col {row r : Record} (h : InsertedRow codec args name fields row r)
    (hnodup : (fields.map fun f => columnOf name f.1).Nodup) {f : String × String}
    (hf : f ∈ fields) (hid : (schema name).autoIncrement = false) :
    castTo codec f.2 (row.col f.1) = .ok (r.col (columnOf name f.1)) := by
  obtain ⟨cast, rows, hcast, rfl⟩ := h
  rw [assignId, hid, Bool.false_and, if_neg (by decide)]
  exact (castColumns_ok hcast hnodup).1 f hf

/-- Only the id is filled in. -/
theorem InsertedRow.col_of_ne {row r : Record} (h : InsertedRow codec args name fields row r)
    (hnodup : (fields.map fun f => columnOf name f.1).Nodup) {f : String × String}
    (hf : f ∈ fields) (hid : columnOf name f.1 ≠ "id") :
    castTo codec f.2 (row.col f.1) = .ok (r.col (columnOf name f.1)) := by
  obtain ⟨cast, rows, hcast, rfl⟩ := h
  have hassign : (assignId args name rows cast).col (columnOf name f.1)
      = cast.col (columnOf name f.1) := by
    unfold assignId
    split
    · exact Record.col_set_of_ne _ _ (Ne.symm hid)
    · rfl
  rw [hassign]
  exact (castColumns_ok hcast hnodup).1 f hf

theorem captureFields_nodup :
    ∀ name ∈ TABLES, ((captureFields name).map fun f => columnOf name f.1).Nodup := by
  decide +kernel

/-- A value of the column's type is inserted as it is. -/
theorem InsertedRow.col_eq {row r : Record} {f k : String}
    (h : InsertedRow codec args name (captureFields name) row r) (hname : name ∈ TABLES)
    (hid : (schema name).autoIncrement = false) (hf : (f, k) ∈ captureFields name)
    (hreal : k ≠ "DOUBLE PRECISION") (htype : hasType k (row.col f) = true) :
    r.col (columnOf name f) = row.col f := by
  have hcast := h.col (captureFields_nodup name hname) hf hid
  rw [castTo_of_hasType htype hreal] at hcast
  exact (Except.ok.inj hcast).symm

end Insert

/-! ## The replacement -/

section Prepare

variable {codec : Codec} {args : RestoreArgs} {state : State} {db : Database}
  {tables : BTreeMap Table}

theorem rowsOf_insert (tables : BTreeMap Table) (k : String) (t : Table) (n : String) :
    rowsOf (tables.insert k t) n = if k = n then t.rows else rowsOf tables n := by
  by_cases h : k = n
  · subst h; simp [rowsOf]
  · simp [rowsOf, Std.ExtTreeMap.getElem?_insert, h]

theorem fieldsOf_insert (tables : BTreeMap Table) (k : String) (t : Table) (n : String) :
    fieldsOf (tables.insert k t) n = if k = n then t.fields else fieldsOf tables n := by
  by_cases h : k = n
  · subst h; simp [fieldsOf]
  · simp [fieldsOf, Std.ExtTreeMap.getElem?_insert, h]

@[simp] theorem rowsOf_setTableRows (tables : BTreeMap Table) (k : String) (rows : List Record)
    (n : String) :
    rowsOf (setTableRows tables k rows) n = if k = n then rows else rowsOf tables n :=
  rowsOf_insert ..

@[simp] theorem fieldsOf_setTableRows (tables : BTreeMap Table) (k : String) (rows : List Record)
    (n : String) : fieldsOf (setTableRows tables k rows) n = fieldsOf tables n := by
  rw [setTableRows, fieldsOf_insert]
  split
  · next h => rw [h]
  · rfl

theorem mergeAssertions_ok {current merged : BTreeMap Table}
    (h : mergeAssertions codec current tables = .ok merged) {n : String} (hn : n ≠ ASSERTIONS) :
    rowsOf merged n = rowsOf tables n ∧ fieldsOf merged n = fieldsOf tables n := by
  obtain ⟨rows, -, h⟩ := bind_eq_ok.mp h
  obtain ⟨_, -, h⟩ := bind_eq_ok.mp h
  obtain rfl := pure_eq_ok.mp h
  rw [rowsOf_insert, fieldsOf_insert, if_neg hn.symm, if_neg hn.symm]
  exact ⟨rfl, rfl⟩

/-- A checkpoint row of metadata and what restore makes of it. -/
def MergedRow (codec : Codec) (db : Database) (args : RestoreArgs) (state current : State)
    (row row' : Record) : Prop :=
  ∃ merged, mergeMeta db args current.tables row = .ok merged
    ∧ rehash codec (rowsOf state.tables "memories") merged = .ok row'

/-- What the rows that replace the project's are made of. -/
structure Prepared (codec : Codec) (args : RestoreArgs) (state : State) (db : Database)
    (current : State) (tables : BTreeMap Table) : Prop where
  valid : Validated codec state
  captures : Captures codec db state.project current
  fields : ∀ n ∈ TABLES, n ≠ ASSERTIONS → fieldsOf tables n = captureFields n
  rows : ∀ n, n ≠ ASSERTIONS → n ≠ "memory_meta" → n ≠ "memory_influence_policy" →
    rowsOf tables n = rowsOf state.tables n
  metadata : List.Forall₂ (MergedRow codec db args state current)
    (rowsOf state.tables "memory_meta") (rowsOf tables "memory_meta")
  policies : rowsOf tables "memory_influence_policy"
    = (rowsOf current.tables "memory_influence_policy").foldl
        (overlayPolicy (rowsOf state.tables "memories"))
        (rowsOf state.tables "memory_influence_policy")
  noCollision : noCollision db state.project tables = .ok ()

theorem forall₂_comp {α β γ : Type} {R : α → β → Prop} {S : β → γ → Prop} {l : List α}
    {l' : List β} {l'' : List γ} (h : List.Forall₂ R l l') (h' : List.Forall₂ S l' l'') :
    List.Forall₂ (fun a c => ∃ b, R a b ∧ S b c) l l'' := by
  induction h generalizing l'' with
  | nil => cases h'; exact .nil
  | cons hab _ ih =>
      cases h' with
      | cons hbc hrest => exact .cons ⟨_, hab, hbc⟩ (ih hrest)

theorem prepareRestore_ok (h : prepareRestore codec args state db = .ok tables) :
    ∃ current, Prepared codec args state db current tables := by
  obtain ⟨_, hvalid, h⟩ := bind_eq_ok.mp h
  obtain ⟨current, hcapture, h⟩ := bind_eq_ok.mp h
  obtain ⟨_, hschema, h⟩ := bind_eq_ok.mp h
  obtain ⟨merged, hmerged, h⟩ := bind_eq_ok.mp h
  obtain ⟨rows, hrows, h⟩ := bind_eq_ok.mp h
  obtain ⟨rows', hrows', h⟩ := bind_eq_ok.mp h
  obtain ⟨_, hcollision, h⟩ := bind_eq_ok.mp h
  obtain rfl := pure_eq_ok.mp h
  have hcaptures := capture_ok hcapture
  have hstate : ∀ n, n ≠ ASSERTIONS → rowsOf merged n = rowsOf state.tables n ∧
      fieldsOf merged n = fieldsOf state.tables n := fun n hn => mergeAssertions_ok hmerged hn
  have hmemories := (hstate "memories" (by decide)).1
  rw [(hstate "memory_meta" (by decide)).1] at hrows
  rw [hmemories] at hrows'
  refine ⟨current, validate_ok hvalid, hcaptures, fun n hn hna => ?_, fun n hna hnm hnp => ?_, ?_,
    ?_, hcollision⟩
  · have heq := forM_eq_ok.mp hschema n hn
    rw [if_neg fun hc => hna hc.1, ensure_eq_ok, beq_iff_eq] at heq
    simp only [fieldsOf_setTableRows, (hstate n hna).2, ← heq]
    rw [fieldsOf, hcaptures.fields hn, Option.getD_some]
  · simp [hnm.symm, hnp.symm, (hstate n hna).1]
  · have hmeta : rowsOf (setTableRows (setTableRows merged "memory_meta" rows')
        "memory_influence_policy" ((rowsOf current.tables "memory_influence_policy").foldl
          (overlayPolicy (rowsOf merged "memories"))
          (rowsOf merged "memory_influence_policy"))) "memory_meta" = rows' := by simp
    rw [hmeta]
    exact forall₂_comp (forall₂_of_mapM hrows) (forall₂_of_mapM hrows')
  · simp [hmemories, (hstate "memory_influence_policy" (by decide)).1]

end Prepare

/-! ## The whole call -/

section Whole

variable {codec : Codec} {args : RestoreArgs} {state : State} {db db' : Database}

/-- A table after restore: the rows that were kept, and one for each row that was
inserted. -/
structure Replaced (codec : Codec) (args : RestoreArgs) (name : String) (kept : Record → Prop)
    (rows : List Record) (db db' : Database) : Prop where
  only : ∀ r ∈ db'.table name, (r ∈ db.table name ∧ kept r) ∨
    ∃ row ∈ rows, InsertedRow codec args name (captureFields name) row r
  keeps : ∀ r ∈ db.table name, kept r → r ∈ db'.table name
  inserts : ∀ row ∈ rows, ∃ r ∈ db'.table name,
    InsertedRow codec args name (captureFields name) row r

/-- The tables the authorization of a memory is read from, after a restore. -/
structure Restored (codec : Codec) (args : RestoreArgs) (state : State) (db : Database)
    (tables : BTreeMap Table) (db' : Database) : Prop where
  memories : Replaced codec args "memories" (fun r => r.col "project" ≠ .str state.project)
    (rowsOf tables "memories") db db'
  metadata : Replaced codec args "memory_meta"
    (fun r => r.col "memory_id" ∉ db.memoryIds state.project) (rowsOf tables "memory_meta") db db'
  policies : Replaced codec args "memory_influence_policy"
    (fun r => r.col "memory_id" ∉ db.memoryIds state.project)
    (rowsOf tables "memory_influence_policy") db db'
  sets : Replaced codec args "contradiction_sets"
    (fun r => r.col "project" ≠ .str state.project) (rowsOf tables "contradiction_sets") db db'
  members : Replaced codec args "contradiction_members"
    (fun r => r.col "contradiction_set_id" ∉ db.contradictionSetIds state.project ∧
      ∀ m ∈ db.table "memory_meta", m.col "memory_id" ∈ db.memoryIds state.project →
        (r.col "memory_id").isNull = true ∨ m.col "memory_id" ≠ r.col "memory_id")
    (rowsOf tables "contradiction_members") db db'
  keys : ∀ n ∈ TABLES, UniqueKeys n (db.table n) → UniqueKeys n (db'.table n)

/-- Sources, evidence and the restore event leave the captured tables alone. -/
theorem writeRestore_ok {tables : BTreeMap Table}
    (h : writeRestore codec args state tables db = .ok db') :
    ∃ s t u, deleteProject state.project (raiseHighwater db) = .ok s
      ∧ t.table = s.table ∧ insertTables codec args tables t = .ok u
      ∧ ∀ n ∈ TABLES, db'.table n = u.table n := by
  obtain ⟨s, hs, h⟩ := bind_eq_ok.mp h
  obtain ⟨t, ht, h⟩ := bind_eq_ok.mp h
  obtain ⟨u, hu, h⟩ := bind_eq_ok.mp h
  obtain ⟨_, -, h⟩ := bind_eq_ok.mp h
  obtain rfl := pure_eq_ok.mp h
  have hsources : t.table = s.table := by
    refine foldlM_induction (p := fun d : Database => d.table = s.table) ht
      (fun d e d' _ hd hstep => ?_) rfl
    obtain ⟨bytes, -, hstep⟩ := bind_eq_ok.mp hstep
    obtain rfl := pure_eq_ok.mp hstep
    exact hd
  have hevidence : ∀ (records : List Record) (d : Database) (n : String), n ∈ TABLES →
      (records.foldl (insertEvidence codec state.project) d).table n = d.table n := by
    intro records
    induction records with
    | nil => intros; rfl
    | cons record records ih =>
        intro d n hn
        rw [List.foldl_cons, ih _ n hn, insertEvidence]
        split
        · rfl
        · rw [Database.table_insertRow, if_neg fun hne => absurd (hne ▸ hn) (by decide)]
  refine ⟨s, t, u, hs, hsources, hu, fun n hn => ?_⟩
  rw [Database.table_insertRow, if_neg fun hne => absurd (hne ▸ hn) (by decide), hevidence _ _ n hn]

/-- A restore that was not a dry run has prepared the rows and written them. -/
theorem restore_written {counts : RestoreCounts} (hdry : args.dryRun = false)
    (h : restore codec args state db = .ok (counts, db')) :
    ∃ current tables, Prepared codec args state db current tables
      ∧ writeRestore codec args state tables db = .ok db' := by
  obtain ⟨tables, hprepare, h⟩ := bind_eq_ok.mp h
  obtain ⟨current, hprepared⟩ := prepareRestore_ok hprepare
  rw [hdry, if_neg (by decide)] at h
  obtain ⟨db'', hwrite, h⟩ := bind_eq_ok.mp h
  obtain ⟨-, rfl⟩ := Prod.mk.inj (pure_eq_ok.mp h)
  exact ⟨current, tables, hprepared, hwrite⟩

/-- A table is what the deletion keeps of it and the rows that are inserted. -/
theorem writeRestore_replaced {current : State} {tables : BTreeMap Table} {kept : Record → Prop}
    (hprepared : Prepared codec args state db current tables)
    (hwrite : writeRestore codec args state tables db = .ok db') (hn : n ∈ TABLES)
    (hna : n ≠ ASSERTIONS)
    (hkept : ∀ s, deleteProject state.project (raiseHighwater db) = .ok s →
      ∀ r, r ∈ s.table n ↔ r ∈ db.table n ∧ kept r) :
    Replaced codec args n kept (rowsOf tables n) db db' := by
  obtain ⟨s, t, u, hdelete, ht, hinsert, htable⟩ := writeRestore_ok hwrite
  have hkept := hkept s hdelete
  obtain ⟨new, hnew, hu, -⟩ := insertTables_ok hinsert hn
  rw [hprepared.fields n hn hna] at hnew
  rw [ht] at hu
  refine ⟨fun r hr => ?_, fun r hr hk => ?_, fun row hrow => ?_⟩
  · rw [htable n hn, hu, List.mem_append] at hr
    rcases hr with hr | hr
    · exact Or.inl ((hkept r).mp hr)
    · exact Or.inr (forall₂_right hnew r hr)
  · rw [htable n hn, hu, List.mem_append]
    exact Or.inl ((hkept r).mpr ⟨hr, hk⟩)
  · obtain ⟨r, hr, hins⟩ := forall₂_left hnew row hrow
    exact ⟨r, by rw [htable n hn, hu, List.mem_append]; exact Or.inr hr, hins⟩

/-- What a restore that was not a dry run has done. -/
theorem restore_ok {counts : RestoreCounts} (hdry : args.dryRun = false)
    (h : restore codec args state db = .ok (counts, db')) :
    ∃ current tables, Prepared codec args state db current tables
      ∧ Restored codec args state db tables db' := by
  obtain ⟨current, tables, hprepared, hwrite⟩ := restore_written hdry h
  obtain ⟨s, t, u, hdelete, ht, hinsert, htable⟩ := writeRestore_ok hwrite
  have hraise : (raiseHighwater db).table = db.table := rfl
  have hids : (raiseHighwater db).memoryIds state.project = db.memoryIds state.project := by
    rw [Database.memoryIds, Database.memoryIds, hraise]
  have hsets : (raiseHighwater db).contradictionSetIds state.project
      = db.contradictionSetIds state.project := by
    rw [Database.contradictionSetIds, Database.contradictionSetIds, hraise]
  refine ⟨current, tables, hprepared, ?_, ?_, ?_, ?_, ?_, ?_⟩
  · refine writeRestore_replaced hprepared hwrite (by decide) (by decide) fun s hs r => ?_
    rw [mem_memories_deleteProject hs, hraise]
  · refine writeRestore_replaced hprepared hwrite (by decide) (by decide) fun s hs r => ?_
    rw [mem_memory_meta_deleteProject hs, hraise, hids]
  · refine writeRestore_replaced hprepared hwrite (by decide) (by decide) fun s hs r => ?_
    rw [mem_policies_deleteProject hs, hraise, hids]
  · refine writeRestore_replaced hprepared hwrite (by decide) (by decide) fun s hs r => ?_
    rw [mem_contradiction_sets_deleteProject hs, hraise]
  · refine writeRestore_replaced hprepared hwrite (by decide) (by decide) fun s hs r => ?_
    rw [mem_contradiction_members_deleteProject hs, hraise, hids, hsets]
  · intro n hn hkeys
    obtain ⟨new, -, -, hunique⟩ := insertTables_ok hinsert hn
    rw [htable n hn]
    refine hunique fun parts hparts => ?_
    rw [ht]
    exact (hkeys parts hparts).sublist (deleteProject_sublist hdelete n)

end Whole

end IronMem
