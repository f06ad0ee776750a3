import IronMem.GraphCuration
import IronMem.Lib.Newest
import IronMem.Lib.Words

/-!
# Reconciling the graph in bulk

`reconcile_memory_graph` groups the active edges twice: by what they say, and, of those
that are left, by source and relation. What becomes of an edge is said here without the
groups and their hash maps. From that follow the counts of the report, that a second
run has nothing to do, and what the pointers of one run can do to the others.

- **outcomes** (`Outcome`, `settle_outcome`): an edge is a duplicate of the newest that says
  the same, or overtaken by the newest of its state, or kept. Which of these it is depends
  on the edges alone and not on the order of the maps (`Outcome.unique`). The lists of
  updates are replayed by `settle`, of which the first update of an edge counts.
- **afterwards** (`not_duplicates_settled`, `not_overtaken_settled`): among the edges that
  are left nothing has a newer copy and nothing is overtaken.
- **counts** (`countActiveMemoryEdges_settled`): every update retires one active edge.
- **pointers** (`settled_acyclic`, `mutual_settled`): the one an edge gives way to is active
  and can only be overtaken itself, by an edge that stays. Pointers from before the run are
  left as they are, those of edges deleted by hand, which point to themselves, included.
- **keys** (`edgeStateKey_inj`, `SameState.of_edgeExactKey`): the keys are texts joined by a
  separator. The key of a state tells states apart; the exact key ends in the start of the
  edge, which is any text, and does so only where that has no separator in it.

The primary key is the one condition on the table (`EdgeTable`): without it `recency` does not
break every tie. Of the Unicode tables it is asked that a word in lower case has no control
characters (`Unicode.Lowers`), so that a separator is never part of a normal form.

Two things the code does not do as intended. A dry run counts edges as active that were
superseded before it. And the newest edge of a state can be merged into an edge of another state
with the same joined key and be lost with it (`LostToAnother`).
-/

namespace IronMem

open Newest Words

/-! ## What becomes of an edge

Ids are unique and break every tie of recency, so every group has one newest edge. An edge loses
in one of the two phases at most: one with a newer copy takes no part in the second. -/

/-- Rows that an id tells apart. -/
def DistinctIds (edges : List Record) : Prop := edges.Pairwise fun a b => edgeId a ≠ edgeId b

instance (edges : List Record) : Decidable (DistinctIds edges) :=
  inferInstanceAs (Decidable (edges.Pairwise _))

/-- The primary key of the table. -/
structure EdgeTable (db : Database) : Prop where
  unique : DistinctIds (db.table "memory_edges")
  keyed : ∀ r ∈ db.table "memory_edges", r.col "id" = .int (edgeId r)

/-- The edge says what a newer one says. -/
def Duplicates (u : Unicode) (edges : List Record) (r w : Record) : Prop :=
  LosesTo (edgeExactKey u) recency (edges.filter isActive) r w

/-- An open edge of a current-state relation that no newer edge repeats. -/
def IsCurrentEdge (u : Unicode) (edges : List Record) (r : Record) : Prop :=
  IsNewest (edgeExactKey u) recency (edges.filter isActive) r ∧
    isCurrentStateRelation (edgeRelation u r) = true ∧ r.text "valid_until" = none

/-- The newest of the current edges of one source and relation. -/
def IsNewestState (u : Unicode) (edges : List Record) (w : Record) : Prop :=
  IsCurrentEdge u edges w ∧ ∀ b, IsCurrentEdge u edges b → edgeStateKey u b = edgeStateKey u w →
    recency b ≤ recency w

/-- The newest state has another target. -/
def OvertakenBy (u : Unicode) (edges : List Record) (r w : Record) : Prop :=
  IsCurrentEdge u edges r ∧ IsNewestState u edges w ∧ edgeStateKey u r = edgeStateKey u w ∧
    normOf u r "target" ≠ normOf u w "target"

/-- An edge before and after the run. -/
inductive Outcome (u : Unicode) (edges : List Record) (r : Record) : Record → Prop where
  | duplicate {w : Record} (h : Duplicates u edges r w) :
      Outcome u edges r ((duplicateReason w).mark (edgeId w) r)
  | overtaken {w : Record} (h : OvertakenBy u edges r w) :
      Outcome u edges r ((stateReason w).mark (edgeId w) r)
  | kept (hdup : ∀ w, ¬ Duplicates u edges r w) (hstate : ∀ w, ¬ OvertakenBy u edges r w) :
      Outcome u edges r r

section Outcomes

variable {u : Unicode} {edges : List Record} {r r' w w' : Record} {it : Iteration}

theorem DistinctIds.eq (h : DistinctIds edges) (hr : r ∈ edges) (hw : w ∈ edges)
    (hid : edgeId r = edgeId w) : r = w := by
  by_contra hne
  have hsymm : Std.Symm fun a b : Record => edgeId a ≠ edgeId b := ⟨fun a b hab => hab.symm⟩
  exact List.Pairwise.forall h hr hw hne hid

theorem DistinctIds.nodup (h : DistinctIds edges) : edges.Nodup :=
  List.Pairwise.imp (fun hab heq => hab (congrArg edgeId heq)) h

theorem DistinctIds.filter (h : DistinctIds edges) (p : Record → Bool) :
    DistinctIds (edges.filter p) := List.Pairwise.filter p h

/-- The id breaks every tie. -/
theorem DistinctIds.recency_inj (h : DistinctIds edges) :
    ∀ a ∈ edges, ∀ b ∈ edges, recency a = recency b → a = b := by
  intro a ha b hb heq
  have hinner := (Prod.mk.inj (toLex.injective heq)).2
  exact h.eq ha hb (Prod.mk.inj (toLex.injective hinner)).2

theorem olderEdges_eq : olderEdges = losers recency := by
  have hsort : ∀ group, edgeSortNewest group
      = group.insertionSort fun a b => recency b ≤ recency a := by
    intro group
    unfold edgeSortNewest
    congr!
  funext group
  rw [olderEdges, losers, hsort]
  cases group.insertionSort fun a b => recency b ≤ recency a <;> rfl

/-- What an older edge of the first phase loses to. -/
theorem mem_duplicateUpdates (h : DistinctIds edges) :
    (r, w) ∈ duplicateUpdates it u edges ↔ Duplicates u edges r w := by
  rw [duplicateUpdates, olderEdges_eq]
  exact mem_flatMap_losers (h.filter _).nodup (h.filter _).recency_inj (it.duplicates_perm _)

theorem mem_currentEdges (h : DistinctIds edges) :
    r ∈ currentEdges u edges ((duplicateUpdates it u edges).map fun p => edgeId p.1)
      ↔ IsCurrentEdge u edges r := by
  have hactive : r ∈ edges.filter isActive →
      (edgeId r ∉ (duplicateUpdates it u edges).map (fun p => edgeId p.1)
        ↔ IsNewest (edgeExactKey u) recency (edges.filter isActive) r) := by
    intro hr
    rw [isNewest_iff (h.filter _).recency_inj hr]
    constructor
    · intro hfresh w hlost
      exact hfresh (List.mem_map.mpr ⟨(r, w), (mem_duplicateUpdates h).mpr hlost, rfl⟩)
    · intro hnewest hmem
      obtain ⟨⟨a, w⟩, hup, hid⟩ := List.mem_map.mp hmem
      have hlost := (mem_duplicateUpdates h).mp hup
      exact hnewest w ((h.filter _).eq hlost.1 hr hid ▸ hlost)
  rw [currentEdges, List.mem_filter, List.mem_filter, Bool.and_eq_true, Option.isNone_iff_eq_none,
    decide_eq_true_eq, IsCurrentEdge]
  constructor
  · rintro ⟨⟨hr, hfresh⟩, hopen⟩
    exact ⟨(hactive hr).mp hfresh, hopen⟩
  · rintro ⟨hnewest, hopen⟩
    exact ⟨⟨hnewest.1, (hactive hnewest.1).mpr hnewest⟩, hopen⟩

/-- The second phase, before the targets are compared. -/
theorem stateUpdates_eq : stateUpdates it u edges = ((it.states (groups (edgeStateKey u)
    (currentEdges u edges ((duplicateUpdates it u edges).map fun p => edgeId p.1)))).flatMap
      (losers recency)).filter fun p => normOf u p.1 "target" ≠ normOf u p.2 "target" := by
  rw [List.filter_flatMap, ← olderEdges_eq]
  rfl

theorem distinctIds_currentEdges (h : DistinctIds edges) (ids : List Int) :
    DistinctIds (currentEdges u edges ids) := ((h.filter _).filter _).filter _

/-- What an older edge of the second phase loses to. -/
theorem mem_stateUpdates (h : DistinctIds edges) :
    (r, w) ∈ stateUpdates it u edges ↔ OvertakenBy u edges r w := by
  have hcurrent := distinctIds_currentEdges (u := u) h
    ((duplicateUpdates it u edges).map fun p => edgeId p.1)
  have hlose := @mem_flatMap_losers _ _ _ _ _ (edgeStateKey u) recency _ _ r w hcurrent.nodup
    hcurrent.recency_inj (it.states_perm _)
  rw [stateUpdates_eq, List.mem_filter, hlose, LosesTo, IsNewest, mem_currentEdges h,
    mem_currentEdges h, decide_eq_true_eq]
  simp only [mem_currentEdges h]
  constructor
  · rintro ⟨⟨hr, hw, hkey, -⟩, hne⟩
    exact ⟨hr, hw, hkey, hne⟩
  · rintro ⟨hr, hw, hkey, hne⟩
    exact ⟨⟨hr, hw, hkey, fun heq => hne (heq ▸ rfl)⟩, hne⟩

theorem Duplicates.unique (h : DistinctIds edges) (hw : Duplicates u edges r w)
    (hw' : Duplicates u edges r w') : w = w' :=
  hw.2.1.eq (h.filter _).recency_inj hw'.2.1 (hw.2.2.1.symm.trans hw'.2.2.1)

theorem IsCurrentEdge.mem (h : IsCurrentEdge u edges r) : r ∈ edges.filter isActive := h.1.1

theorem IsNewestState.unique (h : DistinctIds edges) (hw : IsNewestState u edges w)
    (hw' : IsNewestState u edges w') (hkey : edgeStateKey u w = edgeStateKey u w') : w = w' :=
  (h.filter _).recency_inj w hw.1.mem w' hw'.1.mem
    (le_antisymm (hw'.2 w hw.1 hkey) (hw.2 w' hw'.1 hkey.symm))

/-- An edge that has a newer copy takes no part in the second phase. -/
theorem IsCurrentEdge.not_duplicates (h : DistinctIds edges) (hr : IsCurrentEdge u edges r) :
    ¬ Duplicates u edges r w :=
  (isNewest_iff (h.filter _).recency_inj hr.mem).mp hr.1 w

/-- The outcome does not depend on the maps. -/
theorem Outcome.unique {r₁ r₂ : Record} (h : DistinctIds edges) (h₁ : Outcome u edges r r₁)
    (h₂ : Outcome u edges r r₂) : r₁ = r₂ := by
  cases h₁ with
  | duplicate hdup =>
      cases h₂ with
      | duplicate hdup' => rw [hdup.unique h hdup']
      | overtaken hstate => exact absurd hdup (hstate.1.not_duplicates h)
      | kept hnone _ => exact absurd hdup (hnone _)
  | overtaken hstate =>
      cases h₂ with
      | duplicate hdup => exact absurd hdup (hstate.1.not_duplicates h)
      | overtaken hstate' =>
          rw [hstate.2.1.unique h hstate'.2.1 (hstate.2.2.1.symm.trans hstate'.2.2.1)]
      | kept _ hnone => exact absurd hstate (hnone _)
  | kept hdup hstate =>
      cases h₂ with
      | duplicate hdup' => exact absurd hdup' (hdup _)
      | overtaken hstate' => exact absurd hstate' (hstate _)
      | kept _ _ => rfl

end Outcomes

/-! ## The run

The updates of a phase that name an edge as the loser all name one winner, so that the first of
them is what counts; and what was superseded in the first phase is skipped in the second.
`settle` is what both phases make of one edge. -/

/-- The statements of one phase, on one row. -/
def settleRow (reason : Record → SupersededReason) (updates : List (Record × Record)) (r : Record) :
    Record :=
  updates.foldl (fun r up => if r.col "id" == .int (edgeId up.1) && isActive r then
    (reason up.2).mark (edgeId up.2) r else r) r

section Run

variable {u : Unicode} {it : Iteration} {project : Option String} {db : Database}
  {reason : Record → SupersededReason} {updates : List (Record × Record)} {edges : List Record}
  {r w : Record}

theorem updateRows_updateRows (name : String) (p q : Record → Bool) (f g : Record → Record) :
    (db.updateRows name p f).updateRows name q g = db.updateRows name (fun _ => true)
      fun r => let r := if p r then f r else r; if q r then g r else r := by
  simp only [Database.updateRows, Database.setRows, if_pos, List.map_map]
  congr 1
  funext n
  by_cases hn : n = name
  · simp [hn, Function.comp_def]
  · simp [hn]

theorem updateRows_congr (name : String) {f g : Record → Record}
    (h : ∀ r ∈ db.table name, f r = g r) :
    db.updateRows name (fun _ => true) f = db.updateRows name (fun _ => true) g := by
  simp only [Database.updateRows, if_pos]
  rw [List.map_congr_left h]

theorem updateRows_self (name : String) {f : Record → Record} (h : ∀ r ∈ db.table name, f r = r) :
    db.updateRows name (fun _ => true) f = db := by
  rw [updateRows_congr name (g := fun r => r) h]
  simp only [Database.updateRows, Database.setRows, if_pos, List.map_id']
  congr 1
  funext n
  by_cases hn : n = name
  · simp [hn]
  · simp [hn]

theorem applySuperseded_run (reason : Record → SupersededReason) (updates : List (Record × Record))
    (db : Database) : (applySuperseded reason updates).run Proc.noFault db
      = (.ok (), db.updateRows "memory_edges" (fun _ => true) (settleRow reason updates)) := by
  induction updates generalizing db with
  | nil =>
      have hself : db.updateRows "memory_edges" (fun _ => true) (settleRow reason []) = db :=
        updateRows_self _ fun r _ => rfl
      rw [hself]
      rfl
  | cons update rest ih =>
      have hstep : (applySuperseded reason (update :: rest)).run Proc.noFault db
          = (applySuperseded reason rest).run Proc.noFault (db.updateRows "memory_edges"
              (fun r => r.col "id" == .int (edgeId update.1) && isActive r)
              ((reason update.2).mark (edgeId update.2))) := rfl
      rw [hstep, ih, updateRows_updateRows]
      rfl

theorem settleRow_inactive (h : isActive r = false) : settleRow reason updates r = r := by
  induction updates with
  | nil => rfl
  | cons update rest ih =>
      rw [settleRow, List.foldl_cons, h, Bool.and_false, if_neg Bool.false_ne_true]
      exact ih

theorem settleRow_other (h : ∀ up ∈ updates, r.col "id" ≠ .int (edgeId up.1)) :
    settleRow reason updates r = r := by
  induction updates with
  | nil => rfl
  | cons update rest ih =>
      have hne : (r.col "id" == .int (edgeId update.1)) = false :=
        beq_eq_false_iff_ne.mpr (h update List.mem_cons_self)
      rw [settleRow, List.foldl_cons, hne, Bool.false_and, if_neg Bool.false_ne_true]
      exact ih fun up hup => h up (List.mem_cons_of_mem _ hup)

/-- The first update of an edge is the one that counts, and all of them name one winner. -/
theorem settleRow_mark (hactive : isActive r = true)
    (hmem : ∃ up ∈ updates, r.col "id" = .int (edgeId up.1))
    (hwinner : ∀ up ∈ updates, r.col "id" = .int (edgeId up.1) → up.2 = w) :
    settleRow reason updates r = (reason w).mark (edgeId w) r := by
  induction updates with
  | nil => exact absurd hmem (by simp)
  | cons update rest ih =>
      rw [settleRow, List.foldl_cons]
      by_cases hid : r.col "id" = .int (edgeId update.1)
      · rw [hactive, Bool.and_true, if_pos (beq_iff_eq.mpr hid), hwinner update List.mem_cons_self hid]
        exact settleRow_inactive isActive_mark
      · rw [beq_eq_false_iff_ne.mpr hid, Bool.false_and, if_neg Bool.false_ne_true]
        obtain ⟨up, hup, hupid⟩ := hmem
        refine ih ⟨up, ?_, hupid⟩ fun up hup => hwinner up (List.mem_cons_of_mem _ hup)
        exact (List.mem_cons.mp hup).resolve_left fun heq => hid (heq ▸ hupid)

/-- An edge after both phases. -/
def settle (it : Iteration) (u : Unicode) (edges : List Record) (r : Record) : Record :=
  settleRow stateReason (stateUpdates it u edges)
    (settleRow duplicateReason (duplicateUpdates it u edges) r)

theorem mem_allMemoryEdges : r ∈ allMemoryEdges db project →
    r ∈ db.table "memory_edges" := List.mem_of_mem_filter

theorem EdgeTable.distinctIds (h : EdgeTable db) : DistinctIds (allMemoryEdges db project) :=
  h.unique.filter _

theorem EdgeTable.id_eq (h : EdgeTable db) (hr : r ∈ db.table "memory_edges")
    (hw : w ∈ db.table "memory_edges") (hid : r.col "id" = .int (edgeId w)) : r = w := by
  rw [h.keyed r hr] at hid
  exact h.unique.eq hr hw (Value.int.inj hid)

/-- What becomes of an edge of the table, scanned or not. -/
theorem settle_outcome (u : Unicode) (it : Iteration) (project : Option String)
    (h : EdgeTable db) (hr : r ∈ db.table "memory_edges") :
    Outcome u (allMemoryEdges db project) r (settle it u (allMemoryEdges db project) r) := by
  have hdistinct := @EdgeTable.distinctIds project db h
  have hactive : ∀ {w}, w ∈ (allMemoryEdges db project).filter isActive → isActive w = true :=
    fun hw => (List.mem_filter.mp hw).2
  have htable : ∀ {w}, w ∈ (allMemoryEdges db project).filter isActive →
      w ∈ db.table "memory_edges" := fun hw => mem_allMemoryEdges (List.mem_of_mem_filter hw)
  have hown : ∀ {a}, a ∈ (allMemoryEdges db project).filter isActive →
      r.col "id" = .int (edgeId a) → a = r := fun ha hid => (h.id_eq hr (htable ha) hid).symm
  by_cases hdup : ∃ w, Duplicates u (allMemoryEdges db project) r w
  · obtain ⟨w, hw⟩ := hdup
    have hmark : settleRow duplicateReason (duplicateUpdates it u (allMemoryEdges db project)) r
        = (duplicateReason w).mark (edgeId w) r := by
      refine settleRow_mark (hactive hw.1)
        ⟨(r, w), (mem_duplicateUpdates hdistinct).mpr hw, h.keyed r hr⟩ fun up hup hid => ?_
      have hlost := (mem_duplicateUpdates (r := up.1) (w := up.2) hdistinct).mp hup
      exact Duplicates.unique hdistinct (hown hlost.1 hid ▸ hlost) hw
    rw [settle, hmark, settleRow_inactive isActive_mark]
    exact .duplicate hw
  · have hself : settleRow duplicateReason (duplicateUpdates it u (allMemoryEdges db project)) r
        = r := by
      refine settleRow_other fun up hup hid => hdup ⟨up.2, ?_⟩
      have hlost := (mem_duplicateUpdates (r := up.1) (w := up.2) hdistinct).mp hup
      exact hown hlost.1 hid ▸ hlost
    rw [settle, hself]
    by_cases hstate : ∃ w, OvertakenBy u (allMemoryEdges db project) r w
    · obtain ⟨w, hw⟩ := hstate
      have hmark : settleRow stateReason (stateUpdates it u (allMemoryEdges db project)) r
          = (stateReason w).mark (edgeId w) r := by
        refine settleRow_mark (hactive hw.1.mem)
          ⟨(r, w), (mem_stateUpdates hdistinct).mpr hw, h.keyed r hr⟩ fun up hup hid => ?_
        have hlost := (mem_stateUpdates (r := up.1) (w := up.2) hdistinct).mp hup
        have heq : up.1 = r := hown hlost.1.mem hid
        rw [heq] at hlost
        exact hlost.2.1.unique hdistinct hw.2.1 (hlost.2.2.1.symm.trans hw.2.2.1)
      rw [hmark]
      exact .overtaken hw
    · have hself : settleRow stateReason (stateUpdates it u (allMemoryEdges db project)) r = r := by
        refine settleRow_other fun up hup hid => hstate ⟨up.2, ?_⟩
        have hlost := (mem_stateUpdates (r := up.1) (w := up.2) hdistinct).mp hup
        exact hown hlost.1.mem hid ▸ hlost
      rw [hself]
      exact .kept (fun w hw => hdup ⟨w, hw⟩) fun w hw => hstate ⟨w, hw⟩

theorem settle_inactive (h : isActive r = false) : settle it u edges r = r := by
  rw [settle, settleRow_inactive h, settleRow_inactive h]

/-- The table after a run. -/
def settled (it : Iteration) (u : Unicode) (project : Option String) (db : Database) : Database :=
  db.updateRows "memory_edges" (fun _ => true) (settle it u (allMemoryEdges db project))

theorem reconcileMemoryGraph_dryRun : (reconcileMemoryGraph it u project true).run Proc.noFault db
    = (.ok ⟨(allMemoryEdges db project).length,
        (duplicateUpdates it u (allMemoryEdges db project)).length,
        (stateUpdates it u (allMemoryEdges db project)).length,
        (allMemoryEdges db project).length
          - (duplicateUpdates it u (allMemoryEdges db project)).length
          - (stateUpdates it u (allMemoryEdges db project)).length, true⟩, db) := rfl

theorem reconcileMemoryGraph_run : (reconcileMemoryGraph it u project false).run Proc.noFault db
    = (.ok ⟨(allMemoryEdges db project).length,
        (duplicateUpdates it u (allMemoryEdges db project)).length,
        (stateUpdates it u (allMemoryEdges db project)).length,
        countActiveMemoryEdges (settled it u project db) project, false⟩,
      settled it u project db) := by
  have hsettled : (db.updateRows "memory_edges" (fun _ => true) (settleRow duplicateReason
      (duplicateUpdates it u (allMemoryEdges db project)))).updateRows "memory_edges"
        (fun _ => true) (settleRow stateReason (stateUpdates it u (allMemoryEdges db project)))
      = settled it u project db := updateRows_updateRows _ _ _ _ _
  rw [reconcileMemoryGraph, Proc.query_bind, Proc.run_step_ok rfl rfl]
  dsimp only
  rw [if_neg Bool.false_ne_true, Proc.later_noFault,
    Proc.run_bind_of_ok (applySuperseded_run _ _ _), Proc.run_bind_of_ok (applySuperseded_run _ _ _),
    hsettled]
  rfl

end Run

/-! ## After a run

Outcomes change the columns of a superseded edge and nothing else. Hence the edges that stay
keep their keys and their ages, and no new winner appears among them. -/

section Settled

variable {u : Unicode} {it it' : Iteration} {project : Option String} {db : Database}
  {edges : List Record} {r r' w : Record}

/-- Only the columns of a superseded edge change. -/
theorem Outcome.col (h : Outcome u edges r r') {f : String}
    (hf : f ∉ ["superseded_by", "superseded_reason", "valid_until"]) : r'.col f = r.col f := by
  cases h with
  | duplicate _ => exact SupersededReason.mark_col hf
  | overtaken _ => exact SupersededReason.mark_col hf
  | kept _ _ => rfl

theorem Outcome.edgeId_eq (h : Outcome u edges r r') : edgeId r' = edgeId r := by
  rw [edgeId, edgeId, Record.integer, Record.integer, h.col (by decide)]

/-- An edge is active afterwards when it was and no other one takes its place. -/
theorem Outcome.active (h : Outcome u edges r r') (hactive : isActive r' = true) :
    r' = r ∧ (∀ w, ¬ Duplicates u edges r w) ∧ ∀ w, ¬ OvertakenBy u edges r w := by
  cases h with
  | duplicate _ => rw [isActive_mark] at hactive; cases hactive
  | overtaken _ => rw [isActive_mark] at hactive; cases hactive
  | kept hdup hstate => exact ⟨rfl, hdup, hstate⟩

theorem mem_settled : r ∈ (settled it u project db).table "memory_edges" ↔
    ∃ r₀ ∈ db.table "memory_edges", settle it u (allMemoryEdges db project) r₀ = r := by
  rw [settled, Database.table_updateRows, if_pos rfl]
  simp

theorem EdgeTable.settled (h : EdgeTable db) : EdgeTable (settled it u project db) where
  unique := by
    rw [IronMem.settled, Database.table_updateRows, if_pos rfl, DistinctIds, List.pairwise_map]
    refine List.Pairwise.imp_of_mem ?_ h.unique
    intro a b ha hb hab
    simp only [if_true]
    rwa [(settle_outcome u it project h ha).edgeId_eq, (settle_outcome u it project h hb).edgeId_eq]
  keyed r hr := by
    obtain ⟨r₀, hr₀, rfl⟩ := mem_settled.mp hr
    have houtcome := settle_outcome u it project h hr₀
    rw [houtcome.col (by decide), houtcome.edgeId_eq, h.keyed r₀ hr₀]

/-- The scanned edges afterwards. -/
theorem allMemoryEdges_settled (h : EdgeTable db) :
    allMemoryEdges (IronMem.settled it u project db) project
      = (allMemoryEdges db project).map (settle it u (allMemoryEdges db project)) := by
  rw [allMemoryEdges, IronMem.settled, Database.table_updateRows, if_pos rfl, List.filter_map]
  simp only [if_true]
  congr 1
  refine List.filter_congr fun r hr => ?_
  have hcol := (settle_outcome u it project h hr).col
    (f := "project") (by decide)
  cases project with
  | none => rfl
  | some p => rw [Function.comp_apply, hcol]

theorem mem_active_settled (h : EdgeTable db) :
    r ∈ (allMemoryEdges (IronMem.settled it u project db) project).filter isActive ↔
      r ∈ (allMemoryEdges db project).filter isActive ∧
        (∀ w, ¬ Duplicates u (allMemoryEdges db project) r w) ∧
          ∀ w, ¬ OvertakenBy u (allMemoryEdges db project) r w := by
  rw [allMemoryEdges_settled h, List.mem_filter, List.mem_filter, List.mem_map]
  constructor
  · rintro ⟨⟨r₀, hr₀, rfl⟩, hactive⟩
    obtain ⟨heq, hdup, hstate⟩ :=
      (settle_outcome u it project h (mem_allMemoryEdges hr₀)).active hactive
    rw [heq] at hactive ⊢
    exact ⟨⟨hr₀, hactive⟩, hdup, hstate⟩
  · rintro ⟨⟨hr, hactive⟩, hdup, hstate⟩
    have hself := (settle_outcome u it project h (mem_allMemoryEdges hr)).unique
      (h.distinctIds) (.kept hdup hstate)
    exact ⟨⟨r, hr, hself⟩, hactive⟩

/-- No edge is left that says what a newer one says. -/
theorem not_duplicates_settled (h : EdgeTable db) :
    ¬ Duplicates u (allMemoryEdges (IronMem.settled it u project db) project) r w := by
  rintro ⟨hr, hw, hkey, hne⟩
  have hr' := (mem_active_settled h).mp hr
  have hw' := (mem_active_settled h).mp hw.1
  have hdistinct := @EdgeTable.distinctIds project db h
  have hnewest : ∀ {a}, a ∈ (allMemoryEdges (IronMem.settled it u project db) project).filter
      isActive → IsNewest (edgeExactKey u) recency ((allMemoryEdges db project).filter isActive) a :=
    fun ha => (isNewest_iff (hdistinct.filter _).recency_inj ((mem_active_settled h).mp ha).1).mpr
      ((mem_active_settled h).mp ha).2.1
  exact hne ((hnewest hr).eq (hdistinct.filter _).recency_inj (hnewest hw.1) hkey)

theorem isCurrentEdge_of_settled (h : EdgeTable db)
    (hr : IsCurrentEdge u (allMemoryEdges (IronMem.settled it u project db) project) r) :
    IsCurrentEdge u (allMemoryEdges db project) r ∧
      ∀ w, ¬ OvertakenBy u (allMemoryEdges db project) r w := by
  obtain ⟨hactive, hdup, hstate⟩ := (mem_active_settled h).mp hr.mem
  have hdistinct := @EdgeTable.distinctIds project db h
  exact ⟨⟨(isNewest_iff (hdistinct.filter _).recency_inj hactive).mpr hdup, hr.2⟩, hstate⟩

/-- There is a newest state of every source and relation. -/
theorem exists_newestState (hr : IsCurrentEdge u edges r) :
    ∃ w, IsNewestState u edges w ∧ edgeStateKey u w = edgeStateKey u r := by
  classical
  obtain ⟨w, ⟨hw, hnewest⟩, hkey⟩ := exists_newest (edgeStateKey u) recency
    (l := (edges.filter isActive).filter fun r => decide (IsCurrentEdge u edges r))
    (List.mem_filter.mpr ⟨hr.mem, by simpa using hr⟩)
  refine ⟨w, ⟨by simpa using (List.mem_filter.mp hw).2, fun b hb hbw => hnewest b ?_ hbw⟩, hkey⟩
  exact List.mem_filter.mpr ⟨hb.mem, by simpa using hb⟩

/-- The open edges that are left of a state agree on the target. -/
theorem not_overtaken_settled (h : EdgeTable db) :
    ¬ OvertakenBy u (allMemoryEdges (IronMem.settled it u project db) project) r w := by
  rintro ⟨hr, hw, hkey, htarget⟩
  obtain ⟨hr', hrkept⟩ := isCurrentEdge_of_settled h hr
  obtain ⟨hw', hwkept⟩ := isCurrentEdge_of_settled h hw.1
  obtain ⟨n, hn, hnkey⟩ := exists_newestState hr'
  have hagree : ∀ a, IsCurrentEdge u (allMemoryEdges db project) a →
      (∀ w, ¬ OvertakenBy u (allMemoryEdges db project) a w) →
        edgeStateKey u a = edgeStateKey u n → normOf u a "target" = normOf u n "target" := by
    intro a ha hkept hkey
    by_contra hne
    exact hkept n ⟨ha, hn, hkey, hne⟩
  exact htarget ((hagree r hr' hrkept hnkey.symm).trans
    (hagree w hw' hwkept (hkey.symm.trans hnkey.symm)).symm)

/-! ### The counts -/

theorem countActiveMemoryEdges_settled (u : Unicode) (it : Iteration) (project : Option String)
    (h : EdgeTable db) :
    countActiveMemoryEdges (IronMem.settled it u project db) project
      + (duplicateUpdates it u (allMemoryEdges db project)).length
      + (stateUpdates it u (allMemoryEdges db project)).length
        = ((allMemoryEdges db project).filter isActive).length := by
  classical
  have hdistinct := @EdgeTable.distinctIds project db h
  generalize hdups : duplicateUpdates it u (allMemoryEdges db project) = dups
  generalize hstates : stateUpdates it u (allMemoryEdges db project) = states
  have hdup : ∀ r w, (r, w) ∈ dups ↔ Duplicates u (allMemoryEdges db project) r w := fun r w =>
    hdups ▸ mem_duplicateUpdates hdistinct
  have hstate : ∀ r w, (r, w) ∈ states ↔ OvertakenBy u (allMemoryEdges db project) r w :=
    fun r w => hstates ▸ mem_stateUpdates hdistinct
  have hfst : ∀ (l : List (Record × Record)) r, r ∈ l.map Prod.fst ↔ ∃ w, (r, w) ∈ l := by
    intro l r
    simp
  have hnodup : (dups.map Prod.fst ++ states.map Prod.fst).Nodup := by
    refine List.nodup_append.mpr ⟨?_, ?_, ?_⟩
    · rw [← hdups, duplicateUpdates, olderEdges_eq]
      exact nodup_losers (hdistinct.filter _).nodup (it.duplicates_perm _)
    · rw [← hstates, stateUpdates_eq]
      exact (nodup_losers (distinctIds_currentEdges hdistinct _).nodup (it.states_perm _)).sublist
        (List.filter_sublist.map _)
    · intro a ha b hb hab
      obtain ⟨w, hw⟩ := (hfst _ _).mp ha
      obtain ⟨n, hn⟩ := (hfst _ _).mp hb
      exact ((hstate b n).mp hn).1.not_duplicates hdistinct (hab ▸ (hdup a w).mp hw)
  have hsub : ∀ r ∈ dups.map Prod.fst ++ states.map Prod.fst,
      r ∈ (allMemoryEdges db project).filter isActive := by
    intro r hr
    rcases List.mem_append.mp hr with hr | hr
    · obtain ⟨w, hw⟩ := (hfst _ _).mp hr
      exact ((hdup r w).mp hw).1
    · obtain ⟨w, hw⟩ := (hfst _ _).mp hr
      exact ((hstate r w).mp hw).1.mem
  have hkept : ∀ r, r ∈ (allMemoryEdges (IronMem.settled it u project db) project).filter isActive ↔
      r ∈ (allMemoryEdges db project).filter isActive ∧
        r ∉ dups.map Prod.fst ++ states.map Prod.fst := by
    intro r
    rw [mem_active_settled h, List.mem_append, hfst, hfst]
    simp only [hdup, hstate, not_or, not_exists]
  have hcount := length_kept_add (hdistinct.filter isActive).nodup hnodup
    (h.settled.distinctIds.filter _).nodup hsub hkept
  rw [List.length_append, List.length_map, List.length_map] at hcount
  rw [countActiveMemoryEdges]
  omega

/-- The order of the hash maps does not show in the numbers of updates. -/
theorem duplicateUpdates_perm (u : Unicode) (it it' : Iteration) (edges : List Record) :
    (duplicateUpdates it u edges).Perm (duplicateUpdates it' u edges) :=
  ((it.duplicates_perm _).trans (it'.duplicates_perm _).symm).flatMap_right _

theorem length_stateUpdates (u : Unicode) (it it' : Iteration) (edges : List Record) :
    (stateUpdates it u edges).length = (stateUpdates it' u edges).length := by
  have hcurrent : currentEdges u edges ((duplicateUpdates it u edges).map fun p => edgeId p.1)
      = currentEdges u edges ((duplicateUpdates it' u edges).map fun p => edgeId p.1) := by
    refine congrArg (List.filter _) (List.filter_congr fun r _ => ?_)
    simp only [(duplicateUpdates_perm u it it' edges).mem_iff, List.mem_map]
  rw [stateUpdates_eq, stateUpdates_eq, hcurrent]
  exact (((it.states_perm _).trans (it'.states_perm _).symm).flatMap_right _).filter _ |>.length_eq

/-- A dry run foresees the active edges exactly when no edge was superseded before: those
it leaves in its count. -/
theorem reconcileMemoryGraph_foreseen_iff (h : EdgeTable db) : ∃ foreseen applied,
    ((reconcileMemoryGraph it u project true).run Proc.noFault db).1 = .ok foreseen ∧
    ((reconcileMemoryGraph it' u project false).run Proc.noFault db).1 = .ok applied ∧
    ((foreseen.scanned = applied.scanned ∧ foreseen.duplicates = applied.duplicates ∧
        foreseen.currentStateUpdates = applied.currentStateUpdates ∧
          foreseen.activeEdges = applied.activeEdges)
      ↔ ∀ r ∈ allMemoryEdges db project, isActive r = true) := by
  have hdups := (duplicateUpdates_perm u it it' (allMemoryEdges db project)).length_eq
  have hstates := length_stateUpdates u it it' (allMemoryEdges db project)
  have hcount := countActiveMemoryEdges_settled u it' project h
  have hle := List.length_filter_le isActive (allMemoryEdges db project)
  refine ⟨_, _, congrArg Prod.fst reconcileMemoryGraph_dryRun,
    congrArg Prod.fst reconcileMemoryGraph_run, ?_⟩
  rw [← List.length_filter_eq_length_iff]
  dsimp only
  omega

end Settled

/-! ## The keys -/

/-- What the Unicode tables promise of a word in lowercase: no control characters, no blanks,
and of ASCII only small letters and digits. -/
def Unicode.Lowers (u : Unicode) : Prop :=
  ∀ s : String, (∀ c ∈ s.toList, u.isAlphanumeric c = true) → ∀ c ∈ (u.toLowercase s).toList,
    isControl c = false ∧ isWhitespace c = false ∧
      (c.toNat < 128 → c.isAlphanum = true ∧ lowerAscii c = c)

theorem isAlphanum_lt {c : Char} (h : c.isAlphanum = true) : c.toNat < 123 := by
  simp only [Char.isAlphanum, Char.isAlpha, Char.isUpper, Char.isLower, Char.isDigit,
    Bool.or_eq_true, Bool.and_eq_true, decide_eq_true_eq] at h
  simp only [Char.toNat, UInt32.le_iff_toNat_le] at h ⊢
  have htop : 'Z'.val.toNat = 90 ∧ 'z'.val.toNat = 122 ∧ '9'.val.toNat = 57 := by decide
  omega

theorem lowerAscii_normal {c : Char} (h : c.isAlphanum = true) :
    isControl (lowerAscii c) = false ∧ isWhitespace (lowerAscii c) = false ∧
      (lowerAscii c).isAlphanum = true ∧ lowerAscii (lowerAscii c) = lowerAscii c := by
  have hsmall : ∀ n < 123, (Char.ofNat n).isAlphanum = true →
      isControl (lowerAscii (Char.ofNat n)) = false ∧
        isWhitespace (lowerAscii (Char.ofNat n)) = false ∧
          (lowerAscii (Char.ofNat n)).isAlphanum = true ∧
            lowerAscii (lowerAscii (Char.ofNat n)) = lowerAscii (Char.ofNat n) := by
    decide
  have hfacts := hsmall c.toNat (isAlphanum_lt h)
  rw [Char.ofNat_toNat] at hfacts
  exact hfacts h

theorem asciiUnicode_lowers : asciiUnicode.Lowers := by
  intro s hs c hc
  have hlower : c ∈ s.toList.map lowerAscii := by
    simpa [asciiUnicode, toAsciiLowercase] using hc
  obtain ⟨d, hd, rfl⟩ := List.mem_map.mp hlower
  obtain ⟨hcontrol, hwhite, hnormal⟩ := lowerAscii_normal (hs d hd)
  exact ⟨hcontrol, hwhite, fun _ => hnormal⟩

section Keys

variable {u : Unicode} {a b : Record}

/-- The characters of a normal form. -/
theorem mem_normalizeGraphText (hu : u.Lowers) {s : String} {c : Char}
    (h : c ∈ (normalizeGraphText u s).toList) : c = ' ' ∨ isControl c = false ∧
      isWhitespace c = false ∧ (c.toNat < 128 → c.isAlphanum = true ∧ lowerAscii c = c) := by
  rw [normalizeGraphText, String.toList_intercalate] at h
  rcases mem_intercalate h with hsep | ⟨word, hword, hc⟩
  · exact Or.inl (by simpa using hsep)
  · simp only [List.mem_map] at hword
    obtain ⟨_, ⟨chars, hchars, rfl⟩, rfl⟩ := hword
    refine Or.inr (hu _ (fun c hc => ?_) c hc)
    rw [String.toList_ofList] at hc
    simpa using (mem_splitOnP (List.mem_filter.mp hchars).1 hc).1

theorem normalizeGraphText_separator (hu : u.Lowers) (s : String) :
    Char.ofNat 0x1f ∉ (normalizeGraphText u s).toList := by
  intro h
  rcases mem_normalizeGraphText hu h with hspace | ⟨hcontrol, -, -⟩
  · exact absurd hspace (by decide)
  · exact absurd hcontrol (by decide)

theorem edgeRelation_separator (hu : u.Lowers) (r : Record) :
    Char.ofNat 0x1f ∉ (edgeRelation u r).toList := by
  intro h
  rw [edgeRelation, normalizeRelation, String.toList_ofList, List.mem_map] at h
  obtain ⟨c, hc, heq⟩ := h
  by_cases hspace : c = ' '
  · rw [if_pos hspace] at heq
    exact absurd heq (by decide)
  · rw [if_neg hspace] at heq
    exact normalizeGraphText_separator hu _ (heq ▸ hc)

/-- Edges of one project, source and relation. -/
def SameState (u : Unicode) (a b : Record) : Prop :=
  (a.text "project").getD "" = (b.text "project").getD "" ∧
    normOf u a "source" = normOf u b "source" ∧ edgeRelation u a = edgeRelation u b

/-- The joined key of a state tells states apart. -/
theorem edgeStateKey_inj (hu : u.Lowers) :
    edgeStateKey u a = edgeStateKey u b ↔ SameState u a b := by
  have hkey : ∀ r : Record, (edgeStateKey u r).toList = (((r.text "project").getD "").toList
      ++ Char.ofNat 0x1f :: (normOf u r "source").toList)
        ++ Char.ofNat 0x1f :: (edgeRelation u r).toList := by
    intro r
    rw [edgeStateKey, String.toList_intercalate]
    simp [keySeparator, List.intercalate]
  constructor
  · intro h
    have hlist := congrArg String.toList h
    rw [hkey, hkey] at hlist
    obtain ⟨hfront, hrelation⟩ := append_separator_inj (edgeRelation_separator hu a)
      (edgeRelation_separator hu b) hlist
    obtain ⟨hproject, hsource⟩ := append_separator_inj (normalizeGraphText_separator hu _)
      (normalizeGraphText_separator hu _) hfront
    exact ⟨String.ext hproject, String.ext hsource, String.ext hrelation⟩
  · rintro ⟨hproject, hsource, hrelation⟩
    rw [edgeStateKey, edgeStateKey, hproject, hsource, hrelation]

/-- The start of an edge is text without a separator. -/
def PlainStart (r : Record) : Prop := Char.ofNat 0x1f ∉ ((r.text "valid_from").getD "").toList

instance (r : Record) : Decidable (PlainStart r) := inferInstanceAs (Decidable (_ ∉ _))

/-- Then the joined key of an edge tells its state. -/
theorem SameState.of_edgeExactKey (hu : u.Lowers) (ha : PlainStart a) (hb : PlainStart b)
    (h : edgeExactKey u a = edgeExactKey u b) : SameState u a b := by
  have hkey : ∀ r : Record, (edgeExactKey u r).toList = ((edgeStateKey u r).toList
      ++ Char.ofNat 0x1f :: (normOf u r "target").toList)
        ++ Char.ofNat 0x1f :: ((r.text "valid_from").getD "").toList := by
    intro r
    rw [edgeExactKey, edgeStateKey, String.toList_intercalate, String.toList_intercalate]
    simp [keySeparator, List.intercalate]
  have hlist := congrArg String.toList h
  rw [hkey, hkey] at hlist
  obtain ⟨hfront, -⟩ := append_separator_inj ha hb hlist
  obtain ⟨hstate, -⟩ := append_separator_inj (normalizeGraphText_separator hu _)
    (normalizeGraphText_separator hu _) hfront
  exact (edgeStateKey_inj hu).mp (String.ext hstate)

end Keys

/-! ## What a run leaves behind

`GivesWay` is the pointer a run writes, as a relation on the edges before it. A winner of the
first phase may lose in the second and a winner of the second stays, which is why no chain of
new pointers closes. -/

/-- An active open-ended edge of a current-state relation. -/
def IsOpenState (u : Unicode) (edges : List Record) (e : Record) : Prop :=
  e ∈ edges ∧ isActive e = true ∧ isCurrentStateRelation (edgeRelation u e) = true ∧
    e.text "valid_until" = none

/-- The newest edge of a project, source and relation. -/
def IsNewestOpen (u : Unicode) (edges : List Record) (e : Record) : Prop :=
  IsOpenState u edges e ∧ ∀ b, IsOpenState u edges b → SameState u b e → recency b ≤ recency e

/-- An edge and the one it is superseded by. -/
def Points (db : Database) (a b : Record) : Prop :=
  a ∈ db.table "memory_edges" ∧ b ∈ db.table "memory_edges" ∧ a.col "superseded_by" = b.col "id"

/-- A pointer of an edge that was active before. -/
def NewlyPoints (db db' : Database) (a b : Record) : Prop :=
  Points db' a b ∧ ∃ a₀ ∈ db.table "memory_edges", a₀.col "id" = a.col "id" ∧ isActive a₀ = true

/-- What a run must leave behind. -/
structure Reconciled (u : Unicode) (project : Option String) (db db' : Database) : Prop where
  idempotent : ∀ it, ∃ report,
    (reconcileMemoryGraph it u project false).run Proc.noFault db' = (.ok report, db') ∧
      report.duplicates = 0 ∧ report.currentStateUpdates = 0
  newest : ∀ e, IsNewestOpen u (allMemoryEdges db project) e → ∃ w,
    edgeExactKey u w = edgeExactKey u e ∧
      IsNewest (edgeExactKey u) recency ((allMemoryEdges db project).filter isActive) w ∧
        w ∈ db'.table "memory_edges"
  direct : ∀ e w, Points db' e w → ¬ Points db' w e
  acyclic : ∀ e w, Points db' e w → ¬ Relation.TransGen (NewlyPoints db db') w e

/-- The newest edge of a state is merged into an edge of another state with the same joined
key, and that edge is overtaken in its own state. -/
def LostToAnother (u : Unicode) (edges : List Record) : Prop :=
  ∃ e w n, IsNewestOpen u edges e ∧ Duplicates u edges e w ∧ ¬ SameState u w e ∧
    OvertakenBy u edges w n

/-- Two edges are superseded by each other before the run, or one by itself, as an edge is
that was deleted by hand. -/
def AlreadyMutual (db : Database) : Prop := ∃ a b, Points db a b ∧ Points db b a

section Reconciled

variable {u : Unicode} {it it' : Iteration} {project : Option String} {db : Database}
  {edges : List Record} {r r' w e : Record}

/-- No edge is lost where the keys tell the states apart. -/
theorem not_lostToAnother (hu : u.Lowers) (h : ∀ r ∈ edges, PlainStart r) :
    ¬ LostToAnother u edges := by
  rintro ⟨e, w, n, -, ⟨he, hw, hkey, -⟩, hother, -⟩
  have hplain : ∀ {r}, r ∈ edges.filter isActive → PlainStart r :=
    fun hr => h _ (List.mem_of_mem_filter hr)
  exact hother (.of_edgeExactKey hu (hplain hw.1) (hplain he) hkey.symm)

/-- A second run has nothing to do. -/
theorem reconcileMemoryGraph_idempotent (h : EdgeTable db) : ∃ report,
    (reconcileMemoryGraph it' u project false).run Proc.noFault (settled it u project db)
        = (.ok report, settled it u project db) ∧
      report.duplicates = 0 ∧ report.currentStateUpdates = 0 := by
  have hids : EdgeTable (settled it u project db) := h.settled
  have hdups : duplicateUpdates it' u (allMemoryEdges (settled it u project db) project) = [] := by
    refine List.eq_nil_iff_forall_not_mem.mpr fun p hp => ?_
    exact not_duplicates_settled h
      ((mem_duplicateUpdates (r := p.1) (w := p.2) hids.distinctIds).mp hp)
  have hstates : stateUpdates it' u (allMemoryEdges (settled it u project db) project) = [] := by
    refine List.eq_nil_iff_forall_not_mem.mpr fun p hp => ?_
    exact not_overtaken_settled h
      ((mem_stateUpdates (r := p.1) (w := p.2) hids.distinctIds).mp hp)
  have hself : settled it' u project (settled it u project db) = settled it u project db := by
    refine updateRows_self _ fun r _ => ?_
    rw [settle, hdups, hstates]
    rfl
  refine ⟨_, reconcileMemoryGraph_run.trans (Prod.ext rfl hself), ?_, ?_⟩
  · rw [hdups]
    rfl
  · rw [hstates]
    rfl

/-- The maps make no difference. -/
theorem reconcileMemoryGraph_order (h : EdgeTable db) :
    (reconcileMemoryGraph it u project false).run Proc.noFault db
      = (reconcileMemoryGraph it' u project false).run Proc.noFault db := by
  have hsettled : settled it u project db = settled it' u project db := by
    refine updateRows_congr _ fun r hr => ?_
    exact (settle_outcome u it project h hr).unique h.distinctIds (settle_outcome u it' project h hr)
  rw [reconcileMemoryGraph_run, reconcileMemoryGraph_run, hsettled,
    length_stateUpdates u it it', (duplicateUpdates_perm u it it' _).length_eq]

/-- The edges one loses to, in either phase. -/
def GivesWay (u : Unicode) (edges : List Record) (r w : Record) : Prop :=
  Duplicates u edges r w ∨ OvertakenBy u edges r w

/-- Who wins in the second phase gives way to none. -/
theorem IsNewestState.not_givesWay (h : DistinctIds edges) (hw : IsNewestState u edges w) :
    ¬ GivesWay u edges w r := by
  rintro (hdup | hstate)
  · exact hw.1.not_duplicates h hdup
  · exact hstate.2.2.2 (hw.unique h hstate.2.1 hstate.2.2.1 ▸ rfl)

/-- Who wins in the first phase can only be overtaken. -/
theorem GivesWay.then_overtaken (h : DistinctIds edges) (hr : GivesWay u edges r e)
    (he : GivesWay u edges e w) : OvertakenBy u edges e w := by
  rcases hr with hdup | hstate
  · rcases he with hdup' | hstate'
    · exact absurd hdup' ((isNewest_iff (h.filter _).recency_inj hdup'.1).mp hdup.2.1 w)
    · exact hstate'
  · exact absurd he (hstate.2.1.not_givesWay h)

/-- A pointer of an edge that was active is one of this run. -/
theorem givesWay_of_points (h : EdgeTable db) (hr : r ∈ db.table "memory_edges")
    (hactive : isActive r = true)
    (hw : w ∈ db.table "memory_edges") (hpoints : Points (settled it u project db)
      (settle it u (allMemoryEdges db project) r) (settle it u (allMemoryEdges db project) w)) :
    GivesWay u (allMemoryEdges db project) r w := by
  have hwid : (settle it u (allMemoryEdges db project) w).col "id" = .int (edgeId w) := by
    rw [(settle_outcome u it project h hw).col (by decide), h.keyed w hw]
  have hptr := hpoints.2.2
  rw [hwid] at hptr
  have hwinner : ∀ n ∈ (allMemoryEdges db project).filter isActive, edgeId n = edgeId w → n = w :=
    fun n hn hid => h.unique.eq (mem_allMemoryEdges (List.mem_of_mem_filter hn)) hw hid
  have houtcome := settle_outcome u it project h hr
  generalize settle it u (allMemoryEdges db project) r = r' at hptr houtcome
  cases houtcome with
  | duplicate hdup =>
      rw [SupersededReason.mark_supersededBy] at hptr
      exact Or.inl (hwinner _ hdup.2.1.1 (Value.int.inj hptr) ▸ hdup)
  | overtaken hstate =>
      rw [SupersededReason.mark_supersededBy] at hptr
      exact Or.inr (hwinner _ hstate.2.1.1.mem (Value.int.inj hptr) ▸ hstate)
  | kept _ _ =>
      rw [isActive, hptr] at hactive
      cases hactive

theorem NewlyPoints.givesWay (h : EdgeTable db) {a b : Record}
    (hab : NewlyPoints db (settled it u project db) a b) : ∃ a₀ b₀,
      settle it u (allMemoryEdges db project) a₀ = a ∧ settle it u (allMemoryEdges db project) b₀ = b ∧
        b₀ ∈ db.table "memory_edges" ∧ GivesWay u (allMemoryEdges db project) a₀ b₀ := by
  obtain ⟨hpoints, a₁, ha₁, hid, hactive⟩ := hab
  obtain ⟨a₀, ha₀, rfl⟩ := mem_settled.mp hpoints.1
  obtain ⟨b₀, hb₀, rfl⟩ := mem_settled.mp hpoints.2.1
  have heq : a₁ = a₀ := by
    rw [(settle_outcome u it project h ha₀).col (by decide), h.keyed a₀ ha₀] at hid
    exact h.id_eq ha₁ ha₀ hid
  exact ⟨a₀, b₀, rfl, rfl, hb₀, givesWay_of_points h ha₀ (heq ▸ hactive) hb₀ hpoints⟩

/-- The pointers of a run lead to an edge that stays, in two steps at most. -/
theorem settled_acyclic (h : EdgeTable db) (hpoints : Points (settled it u project db) e w) :
    ¬ Relation.TransGen (NewlyPoints db (settled it u project db)) w e := by
  intro hchain
  obtain ⟨x, hwx, -⟩ := Relation.TransGen.head'_iff.mp hchain
  obtain ⟨y, -, hye⟩ := Relation.TransGen.tail'_iff.mp hchain
  obtain ⟨w₀, x₀, rfl, -, -, hgive⟩ := hwx.givesWay h
  obtain ⟨y₀, e₀, -, rfl, he₀, hgiven⟩ := hye.givesWay h
  have hmem : ∀ {r}, r ∈ (allMemoryEdges db project).filter isActive →
      r ∈ db.table "memory_edges" ∧ isActive r = true := fun hr =>
    ⟨mem_allMemoryEdges (List.mem_of_mem_filter hr), (List.mem_filter.mp hr).2⟩
  have hactive : isActive e₀ = true := by
    rcases hgiven with hdup | hstate
    · exact (hmem hdup.2.1.1).2
    · exact (hmem hstate.2.1.1.mem).2
  have hw₀ : w₀ ∈ db.table "memory_edges" := by
    rcases hgive with hdup | hstate
    · exact (hmem hdup.1).1
    · exact (hmem hstate.1.mem).1
  have hstate := hgiven.then_overtaken h.distinctIds
    (givesWay_of_points h he₀ hactive hw₀ hpoints)
  exact hstate.2.1.not_givesWay h.distinctIds hgive

/-- A pointer of an edge that was superseded before is an old one. -/
theorem points_of_inactive (h : EdgeTable db) (hr : r ∈ db.table "memory_edges")
    (hinactive : isActive r = false) (hw : w ∈ db.table "memory_edges")
    (hpoints : Points (settled it u project db) (settle it u (allMemoryEdges db project) r)
      (settle it u (allMemoryEdges db project) w)) : Points db r w := by
  have hptr := hpoints.2.2
  rw [settle_inactive hinactive, (settle_outcome u it project h hw).col (by decide)] at hptr
  exact ⟨hr, hw, hptr⟩

theorem points_settled (h : EdgeTable db) (hpoints : Points db r w)
    (hinactive : isActive r = false) : Points (settled it u project db)
      (settle it u (allMemoryEdges db project) r) (settle it u (allMemoryEdges db project) w) := by
  refine ⟨mem_settled.mpr ⟨r, hpoints.1, rfl⟩, mem_settled.mpr ⟨w, hpoints.2.1, rfl⟩, ?_⟩
  rw [settle_inactive hinactive, (settle_outcome u it project h hpoints.2.1).col (by decide)]
  exact hpoints.2.2

theorem Points.inactive (h : EdgeTable db) (hpoints : Points db r w) : isActive r = false := by
  rw [isActive, hpoints.2.2, h.keyed w hpoints.2.1]
  rfl

/-- After a run two edges are superseded by each other exactly when they were before. -/
theorem mutual_settled (h : EdgeTable db) :
    (∃ a b, Points (settled it u project db) a b ∧ Points (settled it u project db) b a)
      ↔ AlreadyMutual db := by
  constructor
  · rintro ⟨a, b, hab, hba⟩
    obtain ⟨a₀, ha₀, rfl⟩ := mem_settled.mp hab.1
    obtain ⟨b₀, hb₀, rfl⟩ := mem_settled.mp hab.2.1
    -- a pointer this run wrote would close a chain of this run
    have hold : ∀ {r w}, r ∈ db.table "memory_edges" → w ∈ db.table "memory_edges" →
        Points (settled it u project db) (settle it u (allMemoryEdges db project) r)
          (settle it u (allMemoryEdges db project) w) →
        Points (settled it u project db) (settle it u (allMemoryEdges db project) w)
          (settle it u (allMemoryEdges db project) r) → Points db r w := by
      intro r w hr hw hrw hwr
      by_cases hactive : isActive r = true
      · have hid := (settle_outcome u it project h hr).col (f := "id") (by decide)
        exact absurd (.single ⟨hrw, r, hr, hid.symm, hactive⟩) (settled_acyclic h hwr)
      · exact points_of_inactive h hr (Bool.eq_false_iff.mpr hactive) hw hrw
    exact ⟨a₀, b₀, hold ha₀ hb₀ hab hba, hold hb₀ ha₀ hba hab⟩
  · rintro ⟨a, b, hab, hba⟩
    exact ⟨_, _, points_settled h hab (hab.inactive h), points_settled h hba (hba.inactive h)⟩

/-- The newest edge of a state is overtaken only through a copy in another state. -/
theorem settled_newest (hu : u.Lowers) (h : EdgeTable db)
    (he : IsNewestOpen u (allMemoryEdges db project) e) :
    (∃ w, edgeExactKey u w = edgeExactKey u e ∧
      IsNewest (edgeExactKey u) recency ((allMemoryEdges db project).filter isActive) w ∧
        w ∈ (settled it u project db).table "memory_edges") ↔
      ∀ w n, Duplicates u (allMemoryEdges db project) e w → ¬ SameState u w e →
        ¬ OvertakenBy u (allMemoryEdges db project) w n := by
  have hdistinct := @EdgeTable.distinctIds project db h
  have heactive : e ∈ (allMemoryEdges db project).filter isActive :=
    List.mem_filter.mpr ⟨he.1.1, he.1.2.1⟩
  -- the newest copy stays active exactly when it is not overtaken
  have hstays : ∀ w, IsNewest (edgeExactKey u) recency
      ((allMemoryEdges db project).filter isActive) w →
        (w ∈ (settled it u project db).table "memory_edges"
          ↔ ∀ n, ¬ OvertakenBy u (allMemoryEdges db project) w n) := by
    intro w hw
    have hwmem := List.mem_filter.mp hw.1
    have hdup := (isNewest_iff (hdistinct.filter _).recency_inj hw.1).mp hw
    constructor
    · intro hmem
      have hscanned : w ∈ allMemoryEdges (settled it u project db) project :=
        List.mem_filter.mpr ⟨hmem, (List.mem_filter.mp hwmem.1).2⟩
      exact ((mem_active_settled h).mp (List.mem_filter.mpr ⟨hscanned, hwmem.2⟩)).2.2
    · intro hstate
      exact mem_allMemoryEdges (List.mem_of_mem_filter
        ((mem_active_settled h).mpr ⟨hw.1, hdup, hstate⟩))
  obtain ⟨w, hw, hkey⟩ := exists_newest (edgeExactKey u) recency heactive
  have hunique : ∀ w', edgeExactKey u w' = edgeExactKey u e → IsNewest (edgeExactKey u) recency
      ((allMemoryEdges db project).filter isActive) w' → w' = w := fun w' hkey' hw' =>
    hw'.eq (hdistinct.filter _).recency_inj hw (hkey'.trans hkey.symm)
  constructor
  · rintro ⟨w', hkey', hw', hmem⟩ v n hdup - hstate
    have hv : v = w' := (hunique v hdup.2.2.1.symm hdup.2.1).trans (hunique w' hkey' hw').symm
    exact (hstays w' hw').mp hmem n (hv ▸ hstate)
  · intro hnone
    refine ⟨w, hkey, hw, (hstays w hw).mpr fun n hstate => ?_⟩
    have hopen : IsOpenState u (allMemoryEdges db project) w :=
      ⟨List.mem_of_mem_filter hw.1, (List.mem_filter.mp hw.1).2, hstate.1.2⟩
    by_cases hsame : SameState u w e
    · -- a copy in the same state is the edge itself, and nothing there is newer
      have hwe : w = e := (hdistinct.filter _).recency_inj w hw.1 e heactive
        (le_antisymm (he.2 w hopen hsame) (hw.2 e heactive hkey.symm))
      subst hwe
      have hn : n = w := by
        refine (hdistinct.filter _).recency_inj n hstate.2.1.1.mem w heactive
          (le_antisymm (he.2 n ?_ ?_) (hstate.2.1.2 w hstate.1 hstate.2.2.1))
        · exact ⟨List.mem_of_mem_filter hstate.2.1.1.mem,
            (List.mem_filter.mp hstate.2.1.1.mem).2, hstate.2.1.1.2⟩
        · exact (edgeStateKey_inj hu).mp hstate.2.2.1.symm
      exact hstate.2.2.2 (hn ▸ rfl)
    · refine hnone w n ⟨heactive, hw, hkey.symm, fun hew => hsame ?_⟩ hsame hstate
      exact hew ▸ ⟨rfl, rfl, rfl⟩

/-- A run is idempotent, keeps the newest states, leaves no edges superseded by each other
and does not depend on the maps, except in two cases: a joined key takes the newest edge of
one state for a copy of an edge of another, which is overtaken there, or there were edges
superseded by each other, or by themselves, before the run. -/
theorem reconcileMemoryGraph_reconciled_iff (hu : u.Lowers) (h : EdgeTable db) :
    ((∀ it it', (reconcileMemoryGraph it u project false).run Proc.noFault db
        = (reconcileMemoryGraph it' u project false).run Proc.noFault db) ∧
      ∀ it, ∃ report db', (reconcileMemoryGraph it u project false).run Proc.noFault db
        = (.ok report, db') ∧ Reconciled u project db db')
      ↔ ¬ LostToAnother u (allMemoryEdges db project) ∧ ¬ AlreadyMutual db := by
  constructor
  · rintro ⟨-, hall⟩
    obtain ⟨report, db', hrun, hreconciled⟩ := hall .asInserted
    rw [reconcileMemoryGraph_run] at hrun
    obtain ⟨-, rfl⟩ := Prod.mk.inj hrun
    constructor
    · rintro ⟨e, w, n, he, hdup, hother, hstate⟩
      exact (settled_newest hu h he).mp (hreconciled.newest e he) w n hdup hother hstate
    · intro hmutual
      obtain ⟨a, b, hab, hba⟩ := (mutual_settled h).mpr hmutual
      exact hreconciled.direct a b hab hba
  · rintro ⟨hlost, hmutual⟩
    refine ⟨fun it it' => reconcileMemoryGraph_order h, fun it => ?_⟩
    refine ⟨_, _, reconcileMemoryGraph_run, fun it' => reconcileMemoryGraph_idempotent h,
      fun e he => (settled_newest hu h he).mpr ?_, fun a b hab hba => ?_, fun e w => settled_acyclic h⟩
    · exact fun w n hdup hother hstate => hlost ⟨e, w, n, he, hdup, hother, hstate⟩
    · exact hmutual ((mutual_settled h).mp ⟨a, b, hab, hba⟩)

end Reconciled

/-! ### Edges of two projects -/

/-- A state without an end. -/
def stateEdge (id : Int) (project source target : String) (validFrom : Option String) : Record :=
  let c : EdgeCall := {
    edge := { project, memoryId := 1, source, relation := "is", target, validFrom }
    now := id
    autoId := nextEdgeId
    setId := ""
    setNow := 0
    ledgerNow := 0 }
  c.newRow ⟨project, source, "is"⟩ target id

/-- The project contains separators. -/
def mergedEdge : Record :=
  stateEdge 1 (keySeparator.intercalate ["p", "a", "is", "b"]) "c" "d" (some "2024")

/-- The start of the second edge makes its key that of the first. -/
def collidingEdges : Database :=
  ((({} : Database).insertRow "memory_edges" mergedEdge).insertRow "memory_edges"
    (stateEdge 2 "p" "a" "b" (some (keySeparator.intercalate ["c", "is", "d", "2024"])))).insertRow
      "memory_edges" (stateEdge 3 "p" "a" "z" none)

instance (u : Unicode) (a b : Record) : Decidable (SameState u a b) :=
  inferInstanceAs (Decidable (_ ∧ _))

/-- One edge was superseded by hand. -/
def curatedEdges : Database :=
  ({} : Database).insertRow "memory_edges"
    ((stateEdge 1 "p" "a" "b" none).set "superseded_by" (.int 1))

theorem curatedEdges_edgeTable : EdgeTable curatedEdges := by
  obtain ⟨hunique, hkeyed⟩ : DistinctIds (curatedEdges.table "memory_edges") ∧
      ∀ r ∈ curatedEdges.table "memory_edges", r.col "id" = .int (edgeId r) := by
    decide +kernel
  exact ⟨hunique, hkeyed⟩

/-- The dry run counts it as active. -/
theorem reconcileMemoryGraph_unforeseen : ¬ ∀ project it it' foreseen applied,
    ((reconcileMemoryGraph it asciiUnicode project true).run Proc.noFault curatedEdges).1
        = .ok foreseen →
      ((reconcileMemoryGraph it' asciiUnicode project false).run Proc.noFault curatedEdges).1
          = .ok applied →
        foreseen.scanned = applied.scanned ∧ foreseen.duplicates = applied.duplicates ∧
          foreseen.currentStateUpdates = applied.currentStateUpdates ∧
            foreseen.activeEdges = applied.activeEdges := by
  intro hforeseen
  have hactive := (hforeseen none .asInserted .asInserted _ _
    (congrArg Prod.fst reconcileMemoryGraph_dryRun)
    (congrArg Prod.fst reconcileMemoryGraph_run)).2.2.2
  revert hactive
  decide +kernel

theorem reconcileMemoryGraph_foreseen_curated : ∃ foreseen applied,
    ((reconcileMemoryGraph .asInserted asciiUnicode none true).run Proc.noFault curatedEdges).1
        = .ok foreseen ∧
    ((reconcileMemoryGraph .asInserted asciiUnicode none false).run Proc.noFault curatedEdges).1
        = .ok applied ∧
    ((foreseen.scanned = applied.scanned ∧ foreseen.duplicates = applied.duplicates ∧
        foreseen.currentStateUpdates = applied.currentStateUpdates ∧
          foreseen.activeEdges = applied.activeEdges)
      ↔ ∀ r ∈ allMemoryEdges curatedEdges none, isActive r = true) :=
  reconcileMemoryGraph_foreseen_iff curatedEdges_edgeTable

/-- The only edge of the first project is merged into the second edge, which the third one
supersedes. -/
theorem reconcileMemoryGraph_loses_newest :
    ¬ ((∀ it it', (reconcileMemoryGraph it asciiUnicode none false).run Proc.noFault collidingEdges
        = (reconcileMemoryGraph it' asciiUnicode none false).run Proc.noFault collidingEdges) ∧
      ∀ it, ∃ report db', (reconcileMemoryGraph it asciiUnicode none false).run Proc.noFault
        collidingEdges = (.ok report, db') ∧ Reconciled asciiUnicode none collidingEdges db') := by
  rintro ⟨-, hall⟩
  obtain ⟨report, db', hrun, hreconciled⟩ := hall .asInserted
  rw [reconcileMemoryGraph_run] at hrun
  obtain ⟨-, rfl⟩ := Prod.mk.inj hrun
  have hopen : mergedEdge ∈ allMemoryEdges collidingEdges none ∧ isActive mergedEdge = true ∧
      isCurrentStateRelation (edgeRelation asciiUnicode mergedEdge) = true ∧
        mergedEdge.text "valid_until" = none := by
    decide +kernel
  have hnewest : ∀ b ∈ allMemoryEdges collidingEdges none, SameState asciiUnicode b mergedEdge →
      recency b ≤ recency mergedEdge := by
    decide +kernel
  have hlost : ∀ w ∈ (settled .asInserted asciiUnicode none collidingEdges).table "memory_edges",
      isActive w = true → edgeExactKey asciiUnicode w ≠ edgeExactKey asciiUnicode mergedEdge := by
    decide +kernel
  obtain ⟨w, hkey, hw, hmem⟩ := hreconciled.newest mergedEdge
    ⟨hopen, fun b hb => hnewest b hb.1⟩
  exact hlost w hmem (List.mem_filter.mp hw.1).2 hkey

/-- An edge, the same edge again, and an edge to another target. -/
def plainEdges : Database :=
  ((({} : Database).insertRow "memory_edges" (stateEdge 1 "p" "a" "b" none)).insertRow
    "memory_edges" (stateEdge 2 "p" "a" "b" none)).insertRow
      "memory_edges" (stateEdge 3 "p" "a" "z" none)

theorem plainEdges_edgeTable : EdgeTable plainEdges := by
  obtain ⟨hunique, hkeyed⟩ : DistinctIds (plainEdges.table "memory_edges") ∧
      ∀ r ∈ plainEdges.table "memory_edges", r.col "id" = .int (edgeId r) := by
    decide +kernel
  exact ⟨hunique, hkeyed⟩

/-- The first edge is a duplicate of the second, which the third one supersedes. -/
theorem reconcileMemoryGraph_reconciled_plain :
    ((reconcileMemoryGraph .asInserted asciiUnicode none false).run Proc.noFault plainEdges).1
        = .ok ⟨3, 1, 1, 1, false⟩ ∧
      (∀ it it', (reconcileMemoryGraph it asciiUnicode none false).run Proc.noFault plainEdges
        = (reconcileMemoryGraph it' asciiUnicode none false).run Proc.noFault plainEdges) ∧
      ∀ it, ∃ report db', (reconcileMemoryGraph it asciiUnicode none false).run Proc.noFault
        plainEdges = (.ok report, db') ∧ Reconciled asciiUnicode none plainEdges db' := by
  have hplain : ∀ r ∈ allMemoryEdges plainEdges none, PlainStart r := by decide +kernel
  have hactive : ∀ r ∈ plainEdges.table "memory_edges", r.col "superseded_by" = .null := by
    decide +kernel
  have hmutual : ¬ AlreadyMutual plainEdges := by
    rintro ⟨a, b, ⟨ha, hb, hptr⟩, -⟩
    rw [hactive a ha, plainEdges_edgeTable.keyed b hb] at hptr
    cases hptr
  exact ⟨by rw [reconcileMemoryGraph_run]; decide +kernel,
    (reconcileMemoryGraph_reconciled_iff asciiUnicode_lowers plainEdges_edgeTable).mpr
      ⟨not_lostToAnother asciiUnicode_lowers hplain, hmutual⟩⟩

/-- An edge that was deleted by hand is superseded by itself, before a run and after it. -/
example : AlreadyMutual curatedEdges := by
  have hself : ∀ r ∈ curatedEdges.table "memory_edges", r.col "superseded_by" = r.col "id" := by
    decide +kernel
  have hmem := List.mem_cons_self (a := (stateEdge 1 "p" "a" "b" none).set "superseded_by" (.int 1))
    (l := [])
  exact ⟨_, _, ⟨hmem, hmem, hself _ hmem⟩, hmem, hmem, hself _ hmem⟩

end IronMem
