import IronMem.GraphRaces

/-!
# Curating the graph

Edges are edited and deleted by hand, dropped with their memory, and reconciled in
bulk. Of these only the edit can bring an edge back or move it to another key, and it
is the only one that does not reconcile: calls one after the other keep the active
edges in agreement as long as no edit puts an edge where another active one is.

`EdgesAgree` speaks of active edges only, so whatever retires or drops edges leaves the
others in agreement (`EdgesAgree.of_active`). An insertion adds an edge and then retires what
it contradicts, in two updates (`reconcileInsertedMemoryEdge_active`). An edit is looked at
edge by edge: the edited one and another one, which has to keep out of its way
(`EdgeCuration.Clear.avoids`).

`reconcile_memory_graph` groups the edges in two hash maps. The orders in which these give
their groups are an argument, an `Iteration`; what depends on them, and that nothing does,
is the subject of `GraphReconcile`.
-/

namespace IronMem

open Fallible

/-! ## The calls -/

/-- `curate_memory_edge_delete`. -/
def curateMemoryEdgeDelete (edgeId : Int) : EdgeProc Bool :=
  let selects (r : Record) : Bool := r.col "id" == .int edgeId && (r.col "superseded_by").isNull
  Proc.exec (.curate edgeId) fun db => .ok ((db.table "memory_edges").any selects,
    db.updateRows "memory_edges" selects fun r =>
      (r.set "superseded_by" (r.col "id")).set "superseded_reason" (.str "user_deleted"))

/-- The arguments of `curate_memory_edge_update`; the confidence is the clamped one. -/
structure EdgeCuration where
  edgeId : Int
  source : String
  relation : String
  target : String
  validFrom : Option String := none
  validUntil : Option String := none
  confidence : String := "1.0"

/-- The columns an edit writes. -/
def EdgeCuration.fields (u : Unicode) (e : EdgeCuration) : List (String × Value) :=
  [("source", .str (trim e.source)), ("source_norm", .str (normalizeGraphText u e.source)),
    ("relation", .str (trim e.relation)), ("relation_norm", .str (normalizeRelation u e.relation)),
    ("target", .str (trim e.target)), ("target_norm", .str (normalizeGraphText u e.target)),
    ("valid_from", Value.ofOptionStr e.validFrom), ("valid_until", Value.ofOptionStr e.validUntil),
    ("confidence", .real e.confidence), ("superseded_by", .null), ("superseded_reason", .null)]

/-- `curate_memory_edge_update`. -/
def curateMemoryEdgeUpdate (u : Unicode) (e : EdgeCuration) : EdgeProc Bool :=
  if (normalizeGraphText u e.source).isEmpty || (normalizeRelation u e.relation).isEmpty
      || (normalizeGraphText u e.target).isEmpty then
    Proc.fail "source, relation, and target must not be empty"
  else
    let selects (r : Record) : Bool := r.col "id" == .int e.edgeId
    Proc.exec (.curate e.edgeId) fun db => .ok ((db.table "memory_edges").any selects,
      db.updateRows "memory_edges" selects fun r => r.setAll (e.fields u))

/-- `delete_memory_edges`. -/
def deleteMemoryEdges (memoryId : Int) : EdgeProc Unit :=
  Proc.exec (.deleteOf memoryId) fun db => .ok ((),
    db.deleteRows "memory_edges" fun r => r.col "memory_id" == .int memoryId)

/-! ### Bulk reconciliation -/

/-- `all_memory_edges`. Its order is lost in the groups. -/
def allMemoryEdges (db : Database) (project : Option String) : List Record :=
  (db.table "memory_edges").filter fun r => match project with
    | some p => r.col "project" == .str p
    | none => true

/-- The normal form of a text column. -/
def normOf (u : Unicode) (r : Record) (field : String) : String :=
  normalizeGraphText u ((r.text field).getD "")

def edgeRelation (u : Unicode) (r : Record) : String :=
  normalizeRelation u ((r.text "relation").getD "")

def keySeparator : String := String.singleton (Char.ofNat 0x1f)

/-- `edge_exact_key`. -/
def edgeExactKey (u : Unicode) (r : Record) : String :=
  keySeparator.intercalate [(r.text "project").getD "", normOf u r "source", edgeRelation u r,
    normOf u r "target", (r.text "valid_from").getD ""]

/-- `edge_state_key`. -/
def edgeStateKey (u : Unicode) (r : Record) : String :=
  keySeparator.intercalate [(r.text "project").getD "", normOf u r "source", edgeRelation u r]

/-- What `edge_sort_newest` compares. -/
def recency (r : Record) : Lex (Int × Lex (Int × Int)) :=
  toLex ((r.integer "observed_at").getD 0,
    toLex ((r.integer "created_at").getD 0, (r.integer "id").getD 0))

/-- `edge_sort_newest`. -/
def edgeSortNewest (edges : List Record) : List Record :=
  edges.insertionSort fun a b => recency b ≤ recency a

/-- The groups of a `HashMap` by key, each with its edges in the order of the list. In which
order the map gives the groups is up to an `Iteration`. -/
def groupEdges (key : Record → String) (edges : List Record) : List (List Record) :=
  (edges.map key).dedup.map fun k => edges.filter fun r => key r = k

/-- The older edges of a group with the newest one. -/
def olderEdges (group : List Record) : List (Record × Record) :=
  match edgeSortNewest group with
  | [] => []
  | winner :: older => older.map fun r => (r, winner)

def isActive (r : Record) : Bool := (r.col "superseded_by").isNull

def edgeId (r : Record) : Int := (r.integer "id").getD 0

/-- The orders in which the two hash maps give their groups. -/
structure Iteration where
  duplicates : List (List Record) → List (List Record)
  states : List (List Record) → List (List Record)
  duplicates_perm : ∀ gs, (duplicates gs).Perm gs
  states_perm : ∀ gs, (states gs).Perm gs

/-- The groups as they come. -/
def Iteration.asInserted : Iteration := ⟨id, id, fun gs => .refl gs, fun gs => .refl gs⟩

def duplicateUpdates (it : Iteration) (u : Unicode) (edges : List Record) :
    List (Record × Record) :=
  (it.duplicates (groupEdges (edgeExactKey u) (edges.filter isActive))).flatMap olderEdges

/-- The edges among which the newest state is looked for. -/
def currentEdges (u : Unicode) (edges : List Record) (duplicates : List Int) : List Record :=
  ((edges.filter isActive).filter fun r => edgeId r ∉ duplicates).filter fun r =>
    isCurrentStateRelation (edgeRelation u r) && (r.text "valid_until").isNone

def stateUpdates (it : Iteration) (u : Unicode) (edges : List Record) : List (Record × Record) :=
  let duplicates := (duplicateUpdates it u edges).map fun (older, _) => edgeId older
  (it.states (groupEdges (edgeStateKey u) (currentEdges u edges duplicates))).flatMap fun group =>
    (olderEdges group).filter fun (older, winner) => normOf u older "target" ≠ normOf u winner "target"

def duplicateReason (winner : Record) : SupersededReason := .duplicate (winner.text "valid_from")

def stateReason (winner : Record) : SupersededReason :=
  .currentStateUpdate ((winner.text "valid_from").getD
    (toString ((winner.integer "observed_at").getD 0)))

/-- Updates of one edge each, unless it is superseded already. -/
def applySuperseded (reason : Record → SupersededReason) : List (Record × Record) → EdgeProc Unit
  | [] => pure ()
  | (older, winner) :: rest => do
      Proc.exec .reconcile fun db => .ok ((), db.updateRows "memory_edges"
        (fun r => r.col "id" == .int (edgeId older) && isActive r)
        ((reason winner).mark (edgeId winner)))
      applySuperseded reason rest

structure ReconcileReport where
  scanned : Nat
  duplicates : Nat
  currentStateUpdates : Nat
  activeEdges : Nat
  dryRun : Bool
deriving DecidableEq, Repr

/-- `count_active_memory_edges`. -/
def countActiveMemoryEdges (db : Database) (project : Option String) : Nat :=
  ((allMemoryEdges db project).filter isActive).length

/-- `reconcile_memory_graph`, the maps in any order. -/
def reconcileMemoryGraph (it : Iteration) (u : Unicode) (project : Option String) (dryRun : Bool) :
    EdgeProc ReconcileReport := do
  let edges ← Proc.query .reconcile fun db => allMemoryEdges db project
  let duplicates := duplicateUpdates it u edges
  let states := stateUpdates it u edges
  let report (active : Nat) : ReconcileReport :=
    ⟨edges.length, duplicates.length, states.length, active, dryRun⟩
  if dryRun then return report (edges.length - duplicates.length - states.length)
  else
    applySuperseded duplicateReason duplicates
    applySuperseded stateReason states
    let active ← Proc.query .reconcile fun db => countActiveMemoryEdges db project
    return report active

/-! ### One call -/

inductive GraphCall where
  | insert (call : EdgeCall)
  | update (curation : EdgeCuration)
  | delete (edgeId : Int)
  | deleteOf (memoryId : Int)
  | reconcile (it : Iteration) (project : Option String)

def GraphCall.body (codec : Codec) (u : Unicode) : GraphCall → EdgeProc Unit
  | insert call => call.body codec u
  | update curation => do let _ ← curateMemoryEdgeUpdate u curation
  | delete edgeId => do let _ ← curateMemoryEdgeDelete edgeId
  | deleteOf memoryId => deleteMemoryEdges memoryId
  | reconcile it project => do let _ ← reconcileMemoryGraph it u project false

/-! ## The property -/

/-- The open edges of a current-state relation agree on the target, and the active edges
of one key and target differ in where they start. Targets are not `NULL`. -/
structure EdgesAgree (db : Database) : Prop where
  current : ∀ a ∈ db.table "memory_edges", ∀ b ∈ db.table "memory_edges",
    isActive a = true → isActive b = true → a.col "valid_until" = .null →
      b.col "valid_until" = .null → ∀ key : EdgeKey, key.has a = true → key.has b = true →
        isCurrentStateRelation key.relationNorm = true → a.col "target_norm" = b.col "target_norm"
  exact : ∀ a ∈ db.table "memory_edges", ∀ b ∈ db.table "memory_edges", a.col "id" ≠ b.col "id" →
    isActive a = true → isActive b = true → ∀ key : EdgeKey, key.has a = true → key.has b = true →
      a.col "target_norm" = b.col "target_norm" →
        coalesced (a.col "valid_from") ≠ coalesced (b.col "valid_from")
  targets : ∀ r ∈ db.table "memory_edges", r.col "target_norm" ≠ .null

/-- An active edge of the key an edited one goes to has another start, and, if both are
open-ended edges of a current-state relation, the same target. -/
def EdgeCuration.Avoids (u : Unicode) (e : EdgeCuration) (r : Record) : Prop :=
  (r.col "target_norm" = .str (normalizeGraphText u e.target) →
      coalesced (r.col "valid_from") ≠ coalesced (Value.ofOptionStr e.validFrom)) ∧
    (isCurrentStateRelation (normalizeRelation u e.relation) = true ∧ e.validUntil = none ∧
        r.col "valid_until" = .null →
      r.col "target_norm" = .str (normalizeGraphText u e.target))

instance (u : Unicode) (e : EdgeCuration) (r : Record) : Decidable (e.Avoids u r) :=
  inferInstanceAs (Decidable (_ ∧ _))

/-- The key an edited edge goes to. -/
def EdgeCuration.goesTo (u : Unicode) (e : EdgeCuration) (own r : Record) : Bool :=
  r.col "project" == own.col "project" && r.col "source_norm" == .str (normalizeGraphText u e.source)
    && r.col "relation_norm" == .str (normalizeRelation u e.relation)

/-- No other active edge is in the way of an edited one. -/
def EdgeCuration.Clear (u : Unicode) (e : EdgeCuration) (db : Database) : Prop :=
  ∀ own ∈ db.table "memory_edges", own.col "id" = .int e.edgeId →
    ∀ r ∈ db.table "memory_edges", r.col "id" ≠ .int e.edgeId → isActive r = true →
      e.goesTo u own r = true → e.Avoids u r

instance (u : Unicode) (e : EdgeCuration) (db : Database) : Decidable (e.Clear u db) :=
  inferInstanceAs (Decidable (∀ own ∈ db.table "memory_edges", _))

/-- The condition on the calls of a run. -/
def GraphCall.Clear (u : Unicode) : GraphCall → Database → Prop
  | update curation, db => curation.Clear u db
  | _, _ => True

instance (u : Unicode) (call : GraphCall) (db : Database) : Decidable (call.Clear u db) :=
  match call with
  | .update curation => inferInstanceAs (Decidable (curation.Clear u db))
  | .insert _ | .delete _ | .deleteOf _ | .reconcile _ _ => .isTrue trivial

/-! ## What the calls do to it

An edge that becomes inactive is out of the property, so that deletions and bulk reconciliation
need a look at the active edges only. What is left is to compare a new or edited edge with the
active ones of its key. -/

section Steps

variable {codec : Codec} {u : Unicode} {db db' : Database} {r : Record}

/-- Edges that are retired or dropped leave the others in agreement. -/
theorem EdgesAgree.of_active (h : EdgesAgree db)
    (hactive : ∀ r ∈ db'.table "memory_edges", isActive r = true → r ∈ db.table "memory_edges")
    (htargets : ∀ r ∈ db'.table "memory_edges", r.col "target_norm" ≠ .null) : EdgesAgree db' where
  current a ha b hb hactA hactB := h.current a (hactive a ha hactA) b (hactive b hb hactB) hactA hactB
  exact a ha b hb hne hactA hactB :=
    h.exact a (hactive a ha hactA) b (hactive b hb hactB) hne hactA hactB
  targets := htargets

theorem EdgesAgree.retire (h : EdgesAgree db) {p : Record → Bool} {f : Record → Record}
    (hretired : ∀ r, p r = true → isActive (f r) = false)
    (htarget : ∀ r : Record, (f r).col "target_norm" = r.col "target_norm") :
    EdgesAgree (db.updateRows "memory_edges" p f) := by
  have hrows : ∀ r ∈ (db.updateRows "memory_edges" p f).table "memory_edges",
      ∃ r' ∈ db.table "memory_edges", (if p r' then f r' else r') = r := by
    intro r hr
    rw [Database.table_updateRows, if_pos rfl] at hr
    exact List.mem_map.mp hr
  refine h.of_active (fun r hr hactive => ?_) fun r hr => ?_
  · obtain ⟨r', hr', rfl⟩ := hrows r hr
    split at hactive
    · next hp => rw [hretired r' hp] at hactive; cases hactive
    · next hp => rwa [if_neg hp]
  · obtain ⟨r', hr', rfl⟩ := hrows r hr
    split
    · rw [htarget]
      exact h.targets r' hr'
    · exact h.targets r' hr'

theorem isActive_mark {reason : SupersededReason} {winner : Int} :
    isActive (reason.mark winner r) = false := by
  rw [isActive, SupersededReason.mark_supersededBy]
  rfl

theorem applySuperseded_agree (reason : Record → SupersededReason)
    (updates : List (Record × Record)) : (applySuperseded reason updates).Preserves EdgesAgree := by
  induction updates with
  | nil => exact .done _
  | cons update rest ih =>
      refine .bind (.exec fun s b s' hs h => ?_) fun _ => ih
      obtain ⟨-, rfl⟩ := Prod.mk.inj (Except.ok.inj h)
      exact hs.retire (fun r _ => isActive_mark) fun r => SupersededReason.mark_col (by decide)

theorem reconcileMemoryGraph_agree (it : Iteration) (project : Option String) (dryRun : Bool) :
    (reconcileMemoryGraph it u project dryRun).Preserves EdgesAgree := by
  refine .bind (.query _ _) fun edges => ?_
  dsimp only
  split
  · exact .done _
  · exact .bind (applySuperseded_agree _ _) fun _ => .bind (applySuperseded_agree _ _) fun _ =>
      .bind (.query _ _) fun _ => .done _

theorem deleteMemoryEdges_agree (memoryId : Int) :
    (deleteMemoryEdges memoryId).Preserves EdgesAgree := by
  refine .exec fun s b s' hs h => ?_
  obtain ⟨-, rfl⟩ := Prod.mk.inj (Except.ok.inj h)
  have hrows : ∀ r ∈ (s.deleteRows "memory_edges" fun r => r.col "memory_id" == .int memoryId).table
      "memory_edges", r ∈ s.table "memory_edges" := by
    intro r hr
    rw [Database.table_deleteRows, if_pos rfl] at hr
    exact List.mem_of_mem_filter hr
  exact hs.of_active (fun r hr _ => hrows r hr) fun r hr => hs.targets r (hrows r hr)

theorem curateMemoryEdgeDelete_agree (id : Int) :
    (curateMemoryEdgeDelete id).Preserves EdgesAgree := by
  refine .exec fun s b s' hs h => ?_
  obtain ⟨-, rfl⟩ := Prod.mk.inj (Except.ok.inj h)
  refine hs.retire (fun r hp => ?_) fun r => by simp
  rw [Bool.and_eq_true, beq_iff_eq] at hp
  simp [isActive, hp.1, Value.isNull]

/-- What an update leaves active was there and is not selected. -/
theorem active_apply {w : EdgeUpdate} (hr : r ∈ (w.apply db).table "memory_edges")
    (hactive : isActive r = true) : r ∈ db.table "memory_edges" ∧ w.selects r = false := by
  obtain ⟨r', hr', rfl⟩ := mem_apply.mp hr
  cases hselects : w.selects r' with
  | false => exact ⟨by simpa [hselects] using hr', by simp [hselects]⟩
  | true =>
      rw [hselects, if_pos rfl, EdgeUpdate.set, isActive_mark] at hactive
      cases hactive

theorem target_apply {w : EdgeUpdate} (h : ∀ r ∈ db.table "memory_edges", r.col "target_norm" ≠ .null) :
    ∀ r ∈ (w.apply db).table "memory_edges", r.col "target_norm" ≠ .null := by
  intro r hr
  obtain ⟨r', hr', rfl⟩ := mem_apply.mp hr
  split
  · rw [EdgeUpdate.set, SupersededReason.mark_col (by decide)]
    exact h r' hr'
  · exact h r' hr'

section Insert

variable {c : EdgeCall} {key : EdgeKey} {targetNorm : String} {id newId : Int} {s : Database}

/-- The two updates of an insertion. -/
def EdgeCall.duplicates (c : EdgeCall) (key : EdgeKey) (targetNorm : String) (id : Int) : EdgeUpdate :=
  ⟨id, key, targetNorm, .duplicate c.edge.validFrom⟩

def EdgeCall.others (c : EdgeCall) (key : EdgeKey) (targetNorm : String) (id : Int) : EdgeUpdate :=
  ⟨id, key, targetNorm, .currentStateUpdate (c.edge.validFrom.getD (toString c.now))⟩

/-- The edges after reconciliation: the contradiction sets are elsewhere. -/
theorem reconcileInsertedMemoryEdge_table
    (h : (reconcileInsertedMemoryEdge codec c id key targetNorm).run Proc.noFault s = (.ok (), db')) :
    db'.table "memory_edges"
      = (if c.edge.validUntil.isNone && isCurrentStateRelation key.relationNorm then
          (c.others key targetNorm id).apply ((c.duplicates key targetNorm id).apply s)
        else (c.duplicates key targetNorm id).apply s).table "memory_edges" := by
  obtain ⟨_, s₁, hdetect, h⟩ := Proc.run_bind_ok h
  obtain ⟨_, s₂, hdup, h⟩ := Proc.run_bind_ok h
  obtain ⟨-, rfl⟩ := Prod.mk.inj (Except.ok.inj (Proc.run_exec_ok hdup))
  have hedges : s₁.table "memory_edges" = s.table "memory_edges" := by
    have hpreserves : Proc.Preserves
        (fun d : Database => d.table "memory_edges" = s.table "memory_edges")
        (detectGraphContradiction codec c key targetNorm) :=
      Proc.PreservesWhen.preserves (detectGraphContradiction_preserves fun a b hab ha => hab.trans ha)
    have hframe := hpreserves.run Proc.noFault (s := s) rfl
    rw [hdetect] at hframe
    exact hframe
  have happly : ∀ (w : EdgeUpdate) (d d' : Database), d.table "memory_edges" = d'.table "memory_edges" →
      (w.apply d).table "memory_edges" = (w.apply d').table "memory_edges" := by
    intro w d d' hd
    rw [EdgeUpdate.apply, EdgeUpdate.apply, Database.table_updateRows, Database.table_updateRows, hd]
  have hdups := happly (c.duplicates key targetNorm id) s₁ s hedges
  dsimp only at h
  split at h
  · next hopen =>
      obtain ⟨-, rfl⟩ := Prod.mk.inj (Except.ok.inj (Proc.run_exec_ok h))
      rw [if_pos hopen]
      exact happly (c.others key targetNorm id) _ _ hdups
  · next hclosed =>
      obtain ⟨-, rfl⟩ := Prod.mk.inj h
      rw [if_neg hclosed]
      exact hdups

/-- The active edges after reconciliation are those neither update selects. -/
theorem reconcileInsertedMemoryEdge_active
    (h : (reconcileInsertedMemoryEdge codec c id key targetNorm).run Proc.noFault s = (.ok (), db')) :
    (∀ r ∈ db'.table "memory_edges", isActive r = true → r ∈ s.table "memory_edges" ∧
        (c.duplicates key targetNorm id).selects r = false ∧
          (c.edge.validUntil = none → isCurrentStateRelation key.relationNorm = true →
            (c.others key targetNorm id).selects r = false)) ∧
      ((∀ r ∈ s.table "memory_edges", r.col "target_norm" ≠ .null) →
        ∀ r ∈ db'.table "memory_edges", r.col "target_norm" ≠ .null) := by
  rw [reconcileInsertedMemoryEdge_table h]
  split
  · refine ⟨fun r hr hactive => ?_, fun htargets => target_apply (target_apply htargets)⟩
    obtain ⟨hr, hothers⟩ := active_apply hr hactive
    obtain ⟨hr, hdups⟩ := active_apply hr hactive
    exact ⟨hr, hdups, fun _ _ => hothers⟩
  · next hclosed =>
      refine ⟨fun r hr hactive => ?_, target_apply⟩
      obtain ⟨hr, hdups⟩ := active_apply hr hactive
      refine ⟨hr, hdups, fun hopen hstate => absurd ?_ hclosed⟩
      rw [hopen, hstate]
      rfl

theorem EdgeCall.duplicates_selects (hkey : key.has r = true) (hid : r.col "id" ≠ .int id)
    (hactive : isActive r = true) (htarget : r.col "target_norm" = .str targetNorm)
    (hfrom : coalesced (r.col "valid_from") = coalesced (Value.ofOptionStr c.edge.validFrom)) :
    (c.duplicates key targetNorm id).selects r = true := by
  simp only [isActive] at hactive
  simp [EdgeUpdate.selects, EdgeCall.duplicates, hkey, hid, hactive, htarget, hfrom]

theorem EdgeCall.others_selects (hkey : key.has r = true) (hid : r.col "id" ≠ .int id)
    (hactive : isActive r = true) (hnull : r.col "target_norm" ≠ .null)
    (htarget : r.col "target_norm" ≠ .str targetNorm) :
    (c.others key targetNorm id).selects r = true := by
  simp only [isActive] at hactive
  have hnull : (r.col "target_norm").isNull = false := Value.isNull_eq_false.mpr hnull
  simp [EdgeUpdate.selects, EdgeCall.others, hkey, hid, hactive, htarget, hnull]

/-- An insertion leaves the edges in agreement: what the new one contradicts is retired. -/
theorem insertMemoryEdge_agree (hs : EdgesAgree db)
    (h : (insertMemoryEdge codec u c).run Proc.noFault db = (.ok newId, db')) : EdgesAgree db' := by
  unfold insertMemoryEdge at h
  dsimp only at h
  split at h
  · cases h
  · obtain ⟨id, s, hinsert, h⟩ := Proc.run_bind_ok h
    obtain ⟨rowid, s₁, hrowid, h⟩ := Proc.run_bind_ok h
    obtain ⟨_, s₂, hreconcile, h⟩ := Proc.run_bind_ok h
    obtain ⟨-, rfl⟩ := Prod.mk.inj h
    obtain ⟨rfl, rfl⟩ := Prod.mk.inj (Except.ok.inj (Proc.run_exec_ok hrowid))
    obtain ⟨hfresh, hrows⟩ := EdgeCall.insertRow_ok (Proc.run_exec_ok hinsert)
    obtain ⟨hactive, htargets⟩ := reconcileInsertedMemoryEdge_active hreconcile
    generalize hk : c.key u = key at hactive hrows hfresh
    generalize normalizeGraphText u c.edge.target = targetNorm at hactive hrows
    have hnew : key.has (c.newRow key targetNorm id) = true ∧
        (c.newRow key targetNorm id).col "id" = .int id ∧
        (c.newRow key targetNorm id).col "target_norm" = .str targetNorm ∧
        (c.newRow key targetNorm id).col "valid_from" = Value.ofOptionStr c.edge.validFrom ∧
        (c.newRow key targetNorm id).col "valid_until" = Value.ofOptionStr c.edge.validUntil := by
      simp [EdgeKey.has, EdgeCall.newRow, jsonObject]
    obtain ⟨hnewKey, hnewId, hnewTarget, hnewFrom, hnewUntil⟩ := hnew
    generalize c.newRow key targetNorm id = new at *
    have hrow : ∀ r ∈ s₂.table "memory_edges", isActive r = true →
        r = new ∨ r ∈ db.table "memory_edges" ∧ r.col "id" ≠ .int id := by
      intro r hr hact
      have hmem := (hactive r hr hact).1
      rw [hrows, List.mem_append, List.mem_singleton] at hmem
      rcases hmem with hold | rfl
      · exact Or.inr ⟨hold, fun hid => hfresh (hid ▸ List.mem_map_of_mem hold)⟩
      · exact Or.inl rfl
    -- an active edge of the new one's key starts elsewhere, or has its target
    have hstart : ∀ r ∈ s₂.table "memory_edges", isActive r = true → key.has r = true →
        r.col "id" ≠ .int id → r.col "target_norm" = .str targetNorm →
          coalesced (r.col "valid_from") ≠ coalesced (Value.ofOptionStr c.edge.validFrom) := by
      intro r hr hact hkey hid htarget hfrom
      have hselects := EdgeCall.duplicates_selects hkey hid hact htarget hfrom
      rw [(hactive r hr hact).2.1] at hselects
      cases hselects
    have htarget : ∀ r ∈ s₂.table "memory_edges", isActive r = true → key.has r = true →
        r.col "id" ≠ .int id → isCurrentStateRelation key.relationNorm = true →
          c.edge.validUntil = none → r.col "target_norm" = .str targetNorm := by
      intro r hr hact hkey hid hstate hopen
      by_contra hne
      have hnull := htargets (by
        intro r hr
        rw [hrows, List.mem_append, List.mem_singleton] at hr
        rcases hr with hr | rfl
        · exact hs.targets r hr
        · rw [hnewTarget]; simp) r hr
      have hselects := EdgeCall.others_selects (c := c) hkey hid hact hnull hne
      rw [(hactive r hr hact).2.2 hopen hstate] at hselects
      cases hselects
    have hopen : new.col "valid_until" = .null → c.edge.validUntil = none := by
      rw [hnewUntil]
      cases c.edge.validUntil with
      | none => exact fun _ => rfl
      | some t => simp [Value.ofOptionStr]
    refine ⟨fun a ha b hb hactA hactB huntilA huntilB k hkA hkB hstate => ?_,
      fun a ha b hb hne hactA hactB k hkA hkB hsame => ?_, ?_⟩
    · rcases hrow a ha hactA with rfl | ⟨holdA, hidA⟩
      · obtain rfl := EdgeKey.has_inj hkA hnewKey
        rcases hrow b hb hactB with rfl | ⟨holdB, hidB⟩
        · rfl
        · rw [hnewTarget, htarget b hb hactB hkB hidB hstate (hopen huntilA)]
      · rcases hrow b hb hactB with rfl | ⟨holdB, hidB⟩
        · obtain rfl := EdgeKey.has_inj hkB hnewKey
          rw [hnewTarget, htarget a ha hactA hkA hidA hstate (hopen huntilB)]
        · exact hs.current a holdA b holdB hactA hactB huntilA huntilB k hkA hkB hstate
    · rcases hrow a ha hactA with rfl | ⟨holdA, hidA⟩
      · obtain rfl := EdgeKey.has_inj hkA hnewKey
        rcases hrow b hb hactB with rfl | ⟨holdB, hidB⟩
        · exact absurd rfl hne
        · rw [hnewFrom]
          exact (hstart b hb hactB hkB hidB (hsame.symm.trans hnewTarget)).symm
      · rcases hrow b hb hactB with rfl | ⟨holdB, hidB⟩
        · obtain rfl := EdgeKey.has_inj hkB hnewKey
          rw [hnewFrom]
          exact hstart a ha hactA hkA hidA (hsame.trans hnewTarget)
        · exact hs.exact a holdA b holdB hne hactA hactB k hkA hkB hsame
    · refine htargets fun r hr => ?_
      rw [hrows, List.mem_append, List.mem_singleton] at hr
      rcases hr with hr | rfl
      · exact hs.targets r hr
      · rw [hnewTarget]
        simp

end Insert

section Edit

variable {e : EdgeCuration}

/-- The edit, on one row. -/
def EdgeCuration.edit (u : Unicode) (e : EdgeCuration) (r : Record) : Record :=
  if r.col "id" == .int e.edgeId then r.setAll (e.fields u) else r

theorem EdgeCuration.edit_col {f : String} (hf : f ∈ ["id", "project"]) :
    (e.edit u r).col f = r.col f := by
  simp only [List.mem_cons, List.not_mem_nil, or_false] at hf
  unfold edit
  split
  · rcases hf with rfl | rfl <;> simp [Record.setAll, fields]
  · rfl

/-- The columns of the edited edge. -/
theorem EdgeCuration.edit_own (hid : r.col "id" = .int e.edgeId) :
    (e.edit u r).col "source_norm" = .str (normalizeGraphText u e.source) ∧
      (e.edit u r).col "relation_norm" = .str (normalizeRelation u e.relation) ∧
      (e.edit u r).col "target_norm" = .str (normalizeGraphText u e.target) ∧
      (e.edit u r).col "valid_from" = Value.ofOptionStr e.validFrom ∧
      (e.edit u r).col "valid_until" = Value.ofOptionStr e.validUntil := by
  unfold edit
  rw [if_pos (beq_iff_eq.mpr hid)]
  simp [Record.setAll, fields]

theorem EdgeCuration.edit_other (hid : r.col "id" ≠ .int e.edgeId) : e.edit u r = r := by
  unfold edit
  rw [if_neg]
  simpa using hid

/-- Another active edge of the edited edge's new key avoids it. -/
theorem EdgeCuration.Clear.avoids (h : e.Clear u db) {own : Record} (hown : own ∈ db.table "memory_edges")
    (hid : own.col "id" = .int e.edgeId) (hr : r ∈ db.table "memory_edges")
    (hne : r.col "id" ≠ .int e.edgeId) (hactive : isActive r = true) {key : EdgeKey}
    (hkey : key.has (e.edit u own) = true) (hkey' : key.has r = true) :
    key.relationNorm = normalizeRelation u e.relation ∧ e.Avoids u r := by
  obtain ⟨hsource, hrelation, -, -, -⟩ := edit_own (u := u) hid
  have hproject := edit_col (u := u) (e := e) (r := own) (f := "project") (by simp)
  simp only [EdgeKey.has, Bool.and_eq_true, beq_iff_eq, hsource, hrelation, hproject] at hkey hkey'
  obtain ⟨⟨hkeyProject, hkeySource⟩, hkeyRelation⟩ := hkey
  obtain ⟨⟨hproject', hsource'⟩, hrelation'⟩ := hkey'
  refine ⟨(Value.str.inj hkeyRelation).symm, h own hown hid r hr hne hactive ?_⟩
  simp only [goesTo, Bool.and_eq_true, beq_iff_eq, hproject', hsource', hrelation', hkeyProject,
    hkeySource, hkeyRelation, and_true]

/-- An edit with nothing in its way leaves the edges in agreement. -/
theorem curateMemoryEdgeUpdate_agree (hclear : e.Clear u db) (hs : EdgesAgree db) {found : Bool}
    (h : (curateMemoryEdgeUpdate u e).run Proc.noFault db = (.ok found, db')) : EdgesAgree db' := by
  unfold curateMemoryEdgeUpdate at h
  split at h
  · cases h
  · obtain ⟨-, rfl⟩ := Prod.mk.inj (Except.ok.inj (Proc.run_exec_ok h))
    have hopen : Value.ofOptionStr e.validUntil = .null → e.validUntil = none := by
      cases e.validUntil with
      | none => exact fun _ => rfl
      | some t => nofun
    have hrows : ∀ r' ∈ (db.updateRows "memory_edges" (fun r => r.col "id" == .int e.edgeId)
        fun r => r.setAll (e.fields u)).table "memory_edges",
          ∃ r ∈ db.table "memory_edges", r' = e.edit u r := by
      intro r' hr'
      rw [Database.table_updateRows, if_pos rfl] at hr'
      obtain ⟨r, hr, rfl⟩ := List.mem_map.mp hr'
      exact ⟨r, hr, rfl⟩
    refine ⟨fun a' ha' b' hb' hactA hactB huntilA huntilB key hkeyA hkeyB hstate => ?_,
      fun a' ha' b' hb' hne hactA hactB key hkeyA hkeyB hsame => ?_, fun r' hr' => ?_⟩
    · obtain ⟨a, ha, rfl⟩ := hrows a' ha'
      obtain ⟨b, hb, rfl⟩ := hrows b' hb'
      by_cases hidA : a.col "id" = .int e.edgeId
      · obtain ⟨-, -, htargetA, -, huntilA'⟩ := EdgeCuration.edit_own (u := u) hidA
        by_cases hidB : b.col "id" = .int e.edgeId
        · rw [htargetA, (EdgeCuration.edit_own (u := u) hidB).2.2.1]
        · rw [EdgeCuration.edit_other hidB] at hactB huntilB hkeyB ⊢
          obtain ⟨hrelation, -, havoid⟩ := hclear.avoids ha hidA hb hidB hactB hkeyA hkeyB
          rw [htargetA, havoid ⟨hrelation ▸ hstate, hopen (huntilA' ▸ huntilA), huntilB⟩]
      · rw [EdgeCuration.edit_other hidA] at hactA huntilA hkeyA ⊢
        by_cases hidB : b.col "id" = .int e.edgeId
        · obtain ⟨-, -, htargetB, -, huntilB'⟩ := EdgeCuration.edit_own (u := u) hidB
          obtain ⟨hrelation, -, havoid⟩ := hclear.avoids hb hidB ha hidA hactA hkeyB hkeyA
          rw [htargetB, havoid ⟨hrelation ▸ hstate, hopen (huntilB' ▸ huntilB), huntilA⟩]
        · rw [EdgeCuration.edit_other hidB] at hactB huntilB hkeyB ⊢
          exact hs.current a ha b hb hactA hactB huntilA huntilB key hkeyA hkeyB hstate
    · obtain ⟨a, ha, rfl⟩ := hrows a' ha'
      obtain ⟨b, hb, rfl⟩ := hrows b' hb'
      by_cases hidA : a.col "id" = .int e.edgeId
      · obtain ⟨-, -, htargetA, hfromA, -⟩ := EdgeCuration.edit_own (u := u) hidA
        by_cases hidB : b.col "id" = .int e.edgeId
        · rw [EdgeCuration.edit_col (by simp), EdgeCuration.edit_col (by simp), hidA, hidB] at hne
          exact absurd rfl hne
        · rw [EdgeCuration.edit_other hidB] at hactB hkeyB hsame ⊢
          have havoid := (hclear.avoids ha hidA hb hidB hactB hkeyA hkeyB).2.1
          rw [hfromA]
          exact (havoid (hsame.symm.trans htargetA)).symm
      · rw [EdgeCuration.edit_other hidA] at hactA hkeyA hsame hne ⊢
        by_cases hidB : b.col "id" = .int e.edgeId
        · obtain ⟨-, -, htargetB, hfromB, -⟩ := EdgeCuration.edit_own (u := u) hidB
          have havoid := (hclear.avoids hb hidB ha hidA hactA hkeyB hkeyA).2.1
          rw [hfromB]
          exact havoid (hsame.trans htargetB)
        · rw [EdgeCuration.edit_other hidB] at hactB hkeyB hsame hne ⊢
          exact hs.exact a ha b hb hne hactA hactB key hkeyA hkeyB hsame
    · obtain ⟨r, hr, rfl⟩ := hrows r' hr'
      by_cases hid : r.col "id" = .int e.edgeId
      · rw [(EdgeCuration.edit_own (u := u) hid).2.2.1]
        nofun
      · rw [EdgeCuration.edit_other hid]
        exact hs.targets r hr

end Edit

/-- Each call that meets the condition and succeeds keeps the edges in agreement. -/
theorem GraphCall.agree {call : GraphCall} (hclear : call.Clear u db) (hs : EdgesAgree db)
    (h : (call.body codec u).run Proc.noFault db = (.ok (), db')) : EdgesAgree db' := by
  have hpreserves : ∀ {α : Type} {p : EdgeProc α} {a : α}, p.Preserves EdgesAgree →
      p.run Proc.noFault db = (.ok a, db') → EdgesAgree db' := by
    intro α p a hp hrun
    have hinv := hp.run Proc.noFault hs
    rwa [hrun] at hinv
  cases call with
  | insert c =>
      obtain ⟨id, s, hinsert, h⟩ := Proc.run_bind_ok h
      obtain ⟨-, rfl⟩ := Prod.mk.inj h
      exact insertMemoryEdge_agree hs hinsert
  | update e =>
      obtain ⟨found, s, hupdate, h⟩ := Proc.run_bind_ok h
      obtain ⟨-, rfl⟩ := Prod.mk.inj h
      exact curateMemoryEdgeUpdate_agree hclear hs hupdate
  | delete id => exact hpreserves (.bind (curateMemoryEdgeDelete_agree id) fun _ => .done _) h
  | deleteOf memoryId => exact hpreserves (deleteMemoryEdges_agree memoryId) h
  | reconcile it project =>
      exact hpreserves (.bind (reconcileMemoryGraph_agree it project false) fun _ => .done _) h

end Steps

/-- In every run of calls one after the other whose edits have nothing in their way, the
active edges agree. -/
theorem graph_calls_agree {codec : Codec} {u : Unicode} {s₀ s : Database} (hs₀ : EdgesAgree s₀)
    (h : Proc.Serial (GraphCall.Clear u) (GraphCall.body codec u) s₀ s) : EdgesAgree s := by
  refine Proc.Serial.invariant ?_ h hs₀
  intro call t t' hclear ht hrun
  exact GraphCall.agree hclear ht hrun

theorem edgesAgree_empty : EdgesAgree {} :=
  ⟨fun _ ha => absurd ha List.not_mem_nil, fun _ ha => absurd ha List.not_mem_nil,
    fun _ ha => absurd ha List.not_mem_nil⟩

/-! ### An edit that brings an edge back -/

/-- The target of this edge, written again. -/
def adaEdit (edgeId : Int) (place : String) : EdgeCuration where
  edgeId
  source := "Ada"
  relation := "works at"
  target := place

/-- Ada has moved on, then the old edge is edited. -/
def editOldEdge : List GraphCall :=
  [.insert (adaWorksAt "Acme"), .insert (adaWorksAt "Initech"), .update (adaEdit 1 "Acme Inc")]

/-- Afterwards two current places are active. -/
theorem graph_calls_disagree : ∃ s,
    Proc.Serial (fun _ _ => True) (GraphCall.body (jsonCodec []) asciiUnicode) {} s ∧
      ¬ EdgesAgree s := by
  have hrun : (Proc.runCalls (fun _ _ => True) (GraphCall.body (jsonCodec []) asciiUnicode)
      editOldEdge {}).any (fun s => (s.table "memory_edges").any fun a =>
        (s.table "memory_edges").any fun b => decide (IsCurrent [] adaKey a ∧ IsCurrent [] adaKey b ∧
          a.col "target_norm" ≠ b.col "target_norm")) = true := by decide +kernel
  obtain ⟨s, hcalls, hs⟩ := Option.any_eq_true _ _ |>.mp hrun
  obtain ⟨a, ha, hs⟩ := List.any_eq_true.mp hs
  obtain ⟨b, hb, hs⟩ := List.any_eq_true.mp hs
  obtain ⟨⟨-, hkeyA, hactA, huntilA⟩, ⟨-, hkeyB, hactB, huntilB⟩, htarget⟩ := of_decide_eq_true hs
  refine ⟨s, .of_runCalls hcalls, fun hagree => htarget ?_⟩
  exact hagree.current a ha b hb (Value.isNull_eq_true.mpr hactA) (Value.isNull_eq_true.mpr hactB)
    huntilA huntilB adaKey hkeyA hkeyB (by decide)

/-- Editing the current edge meets the condition. -/
def editCurrentEdge : List GraphCall :=
  [.insert (adaWorksAt "Acme"), .insert (adaWorksAt "Initech"), .update (adaEdit 2 "Initech Ltd"),
    .insert (adaWorksAt "Globex"), .reconcile .asInserted none, .delete 1, .deleteOf 9]

/-- The first two places are superseded, one after the other. -/
theorem graph_calls_agree_current : ∃ s,
    Proc.Serial (GraphCall.Clear asciiUnicode) (GraphCall.body (jsonCodec []) asciiUnicode) {} s ∧
      (s.table "memory_edges").map (fun r => (r.col "id", r.col "target_norm", r.col "superseded_by"))
        = [(.int 1, .str "acme", .int 2), (.int 2, .str "initech ltd", .int 3),
            (.int 3, .str "globex", .null)] ∧
      EdgesAgree s := by
  have hrun : (Proc.runCalls (GraphCall.Clear asciiUnicode) (GraphCall.body (jsonCodec []) asciiUnicode)
      editCurrentEdge {}).any (fun s => decide ((s.table "memory_edges").map (fun r =>
        (r.col "id", r.col "target_norm", r.col "superseded_by"))
          = [(.int 1, .str "acme", .int 2), (.int 2, .str "initech ltd", .int 3),
              (.int 3, .str "globex", .null)])) = true := by decide +kernel
  obtain ⟨s, hcalls, hedges⟩ := Option.any_eq_true _ _ |>.mp hrun
  have hserial := Proc.Serial.of_runCalls hcalls
  exact ⟨s, hserial, of_decide_eq_true hedges, graph_calls_agree edgesAgree_empty hserial⟩

end IronMem
