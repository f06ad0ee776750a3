import IronMem.GraphEdges
import IronMem.RestoreSpec

/-!
# Concurrent graph insertions

The two updates of a call mark every other active edge of its key, whatever its age,
and nothing tells a call that its own edge has been marked meanwhile. Two calls can
mark each other's edge. They do not as long as every update spares one of the open
edges that were inserted, and the edge its own edge has lost to.

Each statement of each call is a step, in any order. What is to be kept is about the
edges (`AboutEdges`), so that the statements on contradiction sets pass at once and three
kinds remain: the insertion of a row, and the two updates. The condition `OwnEdgeStands` is
on the state an update meets: it runs while its own edge is active. Then its own edge is
what the key is left with (`HasCurrent.apply`), and as that edge has lost to none, no pair
comes about (`NoMutual.apply`).
-/

namespace IronMem

open Fallible

/-! ## The property -/

/-- An active, open-ended edge of the key that was not there at the start. -/
def IsCurrent (old : List Value) (key : EdgeKey) (r : Record) : Prop :=
  r.col "id" ∉ old ∧ key.has r = true ∧ r.col "superseded_by" = .null ∧
    r.col "valid_until" = .null

instance (old : List Value) (key : EdgeKey) (r : Record) : Decidable (IsCurrent old key r) :=
  inferInstanceAs (Decidable (_ ∧ _))

/-- The key has such an edge. -/
def HasCurrent (old : List Value) (key : EdgeKey) (db : Database) : Prop :=
  ∃ r ∈ db.table "memory_edges", IsCurrent old key r

instance (old : List Value) (key : EdgeKey) (db : Database) : Decidable (HasCurrent old key db) :=
  inferInstanceAs (Decidable (∃ r ∈ db.table "memory_edges", _))

/-- The edge of one row is superseded by that of the other. -/
def SupersededBy (a b : Record) : Prop := b.col "id" ≠ .null ∧ a.col "superseded_by" = b.col "id"

instance (a b : Record) : Decidable (SupersededBy a b) := inferInstanceAs (Decidable (_ ∧ _))

/-- No two edges supersede each other. -/
def NoMutual (db : Database) : Prop :=
  ∀ a ∈ db.table "memory_edges", ∀ b ∈ db.table "memory_edges", a.col "id" ≠ b.col "id" →
    SupersededBy a b → ¬ SupersededBy b a

instance (db : Database) : Decidable (NoMutual db) :=
  inferInstanceAs (Decidable (∀ a ∈ db.table "memory_edges", _))

/-- The ids of the edges. -/
def edgeIds (db : Database) : List Value := (db.table "memory_edges").map fun r => r.col "id"

/-- An update that marks anything runs while its own edge is active, and marks no open
edge of a current-state relation unless its own is open too. -/
def OwnStands (old : List Value) (u : EdgeUpdate) (db : Database) : Prop :=
  ∀ r ∈ db.table "memory_edges", u.selects r = true →
    (∀ own ∈ db.table "memory_edges", own.col "id" = .int u.newId →
        own.col "superseded_by" = .null) ∧
      (isCurrentStateRelation u.key.relationNorm = true → IsCurrent old u.key r →
        ∃ own ∈ db.table "memory_edges", own.col "id" = .int u.newId ∧ IsCurrent old u.key own)

instance (old : List Value) (u : EdgeUpdate) (db : Database) : Decidable (OwnStands old u db) :=
  inferInstanceAs (Decidable (∀ r ∈ db.table "memory_edges", _ → _ ∧ (_ → _ → _)))

/-- The condition on the statements of a run. -/
def OwnEdgeStands (old : List Value) : EdgeStatement → Database → Prop
  | .supersede u, db => OwnStands old u db
  | _, _ => True

instance (old : List Value) (l : EdgeStatement) (db : Database) :
    Decidable (OwnEdgeStands old l db) :=
  match l with
  | .supersede u => inferInstanceAs (Decidable (OwnStands old u db))
  | .insert | .lastInsertRowid | .detect | .curate _ | .deleteOf _ | .reconcile => .isTrue trivial

/-! ## Statements that leave the edges alone -/

section Detect

variable {codec : Codec} {ok : EdgeStatement → Database → Prop} {inv : Database → Prop}
  {c : EdgeCall} {key : EdgeKey} {targetNorm : String}

/-- The invariant is about the edges only. -/
def AboutEdges (inv : Database → Prop) : Prop :=
  ∀ s s' : Database, s'.table "memory_edges" = s.table "memory_edges" → inv s → inv s'

theorem insertOrIgnore_frame {name : String} {r : Record} {db db' : Database} {n : Nat}
    (h : insertOrIgnore name r db = .ok (n, db')) {m : String} (hm : m ≠ name) :
    db'.table m = db.table m := by
  unfold insertOrIgnore at h
  split at h
  · obtain ⟨-, rfl⟩ := Prod.mk.inj (Except.ok.inj h)
    rfl
  · obtain ⟨t, ht, h⟩ := bind_eq_ok.mp h
    obtain ⟨-, rfl⟩ := Prod.mk.inj (pure_eq_ok.mp h)
    obtain ⟨_, -, ht⟩ := bind_eq_ok.mp ht
    obtain rfl := pure_eq_ok.mp ht
    rw [Database.table_insertRow, if_neg hm]

theorem insertMembers_preserves (hinv : AboutEdges inv) (label : EnsureStatement → EdgeStatement)
    (setId proposedId : String) (now : Int) (inserted : Nat) (ids : List Int) :
    Proc.PreservesWhen ok inv (insertMembers label setId proposedId now inserted ids) := by
  induction ids generalizing inserted with
  | nil => exact .done _
  | cons id ids ih =>
      refine .bind (.exec fun s n s' _ hs h => ?_) fun n => ih (inserted + n)
      exact hinv s s' (insertOrIgnore_frame h (by decide)) hs

theorem ensureGraphContradictionSet_preserves (hinv : AboutEdges inv)
    (label : EnsureStatement → EdgeStatement) (ns realm : String) (project : Option String)
    (claimKey : String) (memoryIds : List Int) :
    Proc.PreservesWhen ok inv (ensureGraphContradictionSet label codec c.setId c.setNow c.ledgerNow
      ns realm project claimKey memoryIds) := by
  refine .bind (.exec fun s n s' _ hs h => ?_) fun _ => .bind (.query _ _) fun found => ?_
  · exact hinv s s' (insertOrIgnore_frame h (by decide)) hs
  · dsimp only
    split
    · exact .done _
    · refine .bind (insertMembers_preserves hinv _ _ _ _ _ _) fun inserted => ?_
      split
      · exact .done _
      · refine .bind (.exec fun s b s' _ hs h => ?_) fun _ =>
          .bind (.exec fun s hash s' _ hs h => ?_) fun _ => .done _
        · obtain ⟨-, rfl⟩ := Prod.mk.inj (Except.ok.inj h)
          refine hinv s _ ?_ hs
          rw [reopenContradictionSet, Database.table_updateRows, if_neg (by decide)]
        · obtain ⟨row, rfl, -, -⟩ := appendMemoryLedger_ok h
          refine hinv s _ ?_ hs
          rw [Database.table_insertRow, if_neg (by decide)]

theorem detectGraphContradiction_preserves (hinv : AboutEdges inv) :
    Proc.PreservesWhen ok inv (detectGraphContradiction codec c key targetNorm) := by
  unfold detectGraphContradiction
  split
  · exact .done _
  · refine .bind (.query _ _) fun owner => ?_
    split
    · exact .done _
    · refine .bind (.query _ _) fun rows => ?_
      split
      · exact .done _
      · refine .bind (.done _) fun claimKey => ?_
        exact .bind (ensureGraphContradictionSet_preserves hinv _ _ _ _ _ _) fun _ => .done _

end Detect

/-! ## What the updates preserve

An update marks edges as superseded by its own. As its own is active and not among them, it goes
on to be a current edge of the key, and has itself lost to none. -/

section Updates

variable {old : List Value} {u : EdgeUpdate} {key : EdgeKey} {db db' : Database} {r : Record}

theorem mem_apply : r ∈ (u.apply db).table "memory_edges" ↔
    ∃ r' ∈ db.table "memory_edges", (if u.selects r' then u.set r' else r') = r := by
  rw [EdgeUpdate.apply, Database.table_updateRows, if_pos rfl, List.mem_map]

/-- Marking an edge writes three columns. -/
theorem SupersededReason.mark_col {reason : SupersededReason} {winner : Int} {f : String}
    (hf : f ∉ ["superseded_by", "superseded_reason", "valid_until"]) :
    (reason.mark winner r).col f = r.col f := by
  simp only [List.mem_cons, List.not_mem_nil, or_false, not_or] at hf
  obtain ⟨hby, hreason, huntil⟩ := hf
  unfold SupersededReason.mark
  dsimp only
  split
  · rw [Record.col_set_of_ne _ _ (Ne.symm hreason), Record.col_set_of_ne _ _ (Ne.symm hby)]
  · rw [Record.col_set_of_ne _ _ (Ne.symm huntil), Record.col_set_of_ne _ _ (Ne.symm hreason),
      Record.col_set_of_ne _ _ (Ne.symm hby)]

theorem SupersededReason.mark_supersededBy {reason : SupersededReason} {winner : Int} :
    (reason.mark winner r).col "superseded_by" = .int winner := by
  unfold SupersededReason.mark
  dsimp only
  split <;> simp

theorem EdgeUpdate.set_supersededBy : (u.set r).col "superseded_by" = .int u.newId :=
  SupersededReason.mark_supersededBy

/-- A selected row is an active one of the key, and not the update's own. -/
theorem EdgeUpdate.selects_ok (h : u.selects r = true) :
    u.key.has r = true ∧ r.col "id" ≠ .int u.newId ∧ r.col "superseded_by" = .null := by
  simp only [EdgeUpdate.selects, Bool.and_eq_true, bne_iff_ne] at h
  exact ⟨h.1.1.1, h.1.2, Value.isNull_eq_true.mp h.2⟩

theorem EdgeKey.has_inj {key' : EdgeKey} (h : key.has r = true) (h' : key'.has r = true) :
    key = key' := by
  simp only [EdgeKey.has, Bool.and_eq_true, beq_iff_eq] at h h'
  have hproject := Value.str.inj (h.1.1.symm.trans h'.1.1)
  have hsource := Value.str.inj (h.1.2.symm.trans h'.1.2)
  have hrelation := Value.str.inj (h.2.symm.trans h'.2)
  cases key
  cases key'
  simp_all

/-- The ids stay. -/
theorem edgeIds_apply (u : EdgeUpdate) (db : Database) : edgeIds (u.apply db) = edgeIds db := by
  rw [edgeIds, edgeIds, EdgeUpdate.apply, Database.table_updateRows, if_pos rfl, List.map_map]
  refine List.map_congr_left fun r _ => ?_
  simp only [Function.comp]
  split
  · exact SupersededReason.mark_col (by decide)
  · rfl

/-- An update whose own edge stands leaves a current-state key its current edge: its own,
if it has marked one. -/
theorem HasCurrent.apply (hstate : isCurrentStateRelation key.relationNorm = true)
    (hstands : OwnStands old u db) (h : HasCurrent old key db) :
    HasCurrent old key (u.apply db) := by
  have hkeep : ∃ r ∈ db.table "memory_edges", IsCurrent old key r ∧ u.selects r = false := by
    obtain ⟨r, hr, hcurrent⟩ := h
    cases hselects : u.selects r with
    | false => exact ⟨r, hr, hcurrent, hselects⟩
    | true =>
        obtain rfl := EdgeKey.has_inj (EdgeUpdate.selects_ok hselects).1 hcurrent.2.1
        obtain ⟨own, hown, hid, hcurrent'⟩ := (hstands r hr hselects).2 hstate hcurrent
        refine ⟨own, hown, hcurrent', ?_⟩
        rw [Bool.eq_false_iff]
        exact fun hsel => (EdgeUpdate.selects_ok hsel).2.1 hid
  obtain ⟨r, hr, hcurrent, hselects⟩ := hkeep
  exact ⟨r, mem_apply.mpr ⟨r, hr, by rw [hselects, if_neg (by decide)]⟩, hcurrent⟩

/-- Such an update makes no pair: its own edge has lost to none. -/
theorem NoMutual.apply (hstands : OwnStands old u db) (h : NoMutual db) :
    NoMutual (u.apply db) := by
  intro a' ha' b' hb' hne hab hba
  obtain ⟨a, ha, rfl⟩ := mem_apply.mp ha'
  obtain ⟨b, hb, rfl⟩ := mem_apply.mp hb'
  have hid : ∀ r : Record, (if u.selects r then u.set r else r).col "id" = r.col "id" := by
    intro r
    split
    · exact SupersededReason.mark_col (by decide)
    · rfl
  simp only [SupersededBy, hid] at hne hab hba
  -- a marked row has lost to the update's own edge, which is active
  have hmarked : ∀ a ∈ db.table "memory_edges", ∀ b ∈ db.table "memory_edges",
      u.selects a = true → (u.set a).col "superseded_by" = b.col "id" → a.col "id" ≠ .null →
        b.col "superseded_by" ≠ a.col "id" := by
    intro a ha b hb hselects hlost hnull hback
    rw [EdgeUpdate.set_supersededBy] at hlost
    rw [(hstands a ha hselects).1 b hb hlost.symm] at hback
    exact hnull hback.symm
  cases hsa : u.selects a with
  | false =>
      cases hsb : u.selects b with
      | false =>
          simp only [hsa, hsb, if_false, Bool.false_eq_true] at hab hba
          exact h a ha b hb hne hab hba
      | true =>
          simp only [hsa, hsb, if_true, if_false, Bool.false_eq_true] at hab hba
          exact hmarked b hb a ha hsb hba.2 hab.1 hab.2
  | true =>
      cases hsb : u.selects b with
      | false =>
          simp only [hsa, hsb, if_true, if_false, Bool.false_eq_true] at hab hba
          exact hmarked a ha b hb hsa hab.2 hba.1 hba.2
      | true =>
          simp only [hsa, if_true] at hab
          rw [EdgeUpdate.set_supersededBy] at hab
          exact (EdgeUpdate.selects_ok hsb).2.1 hab.2.symm

end Updates

/-! ## What an insertion does -/

section Insertion

variable {codec : Codec} {unicode : Unicode} {old : List Value} {key : EdgeKey} {c : EdgeCall}
  {targetNorm : String} {db db' : Database} {id : Int}

/-- The edges of the start are still there. -/
def OldKept (old : List Value) (db : Database) : Prop := ∀ v ∈ old, v ∈ edgeIds db

theorem EdgeCall.insertRow_ok (h : c.insertRow key targetNorm db = .ok (id, db')) :
    .int id ∉ edgeIds db ∧
      db'.table "memory_edges" = db.table "memory_edges" ++ [c.newRow key targetNorm id] := by
  obtain ⟨d, hchecked, h⟩ := bind_eq_ok.mp h
  obtain ⟨rfl, rfl⟩ := Prod.mk.inj (pure_eq_ok.mp h)
  obtain ⟨_, hcheck, hchecked⟩ := bind_eq_ok.mp hchecked
  obtain rfl := pure_eq_ok.mp hchecked
  refine ⟨fun hmem => ?_, by rw [Database.table_insertRow, if_pos rfl]⟩
  obtain ⟨r, hr, hid⟩ := List.mem_map.mp hmem
  have hfree := (checkRow_ok hcheck).2.1 [.column "id"] (by simp [schema]) r hr
  have hnew : (c.newRow key targetNorm (c.autoId (db.table "memory_edges"))).col "id"
      = .int (c.autoId (db.table "memory_edges")) := by simp [EdgeCall.newRow, jsonObject]
  rw [Bool.eq_false_iff, ne_eq, collides_eq_true] at hfree
  refine hfree ⟨_, keyOf_column (by rw [hid]; simp), ?_⟩
  rw [hid, ← hnew]
  exact keyOf_column (by rw [hnew]; simp)

theorem edgeIds_insertRow (h : c.insertRow key targetNorm db = .ok (id, db')) :
    edgeIds db' = edgeIds db ++ [.int id] := by
  rw [edgeIds, (EdgeCall.insertRow_ok h).2, List.map_append]
  simp [edgeIds, EdgeCall.newRow, jsonObject]

theorem OldKept.insertRow (hkept : OldKept old db)
    (h : c.insertRow key targetNorm db = .ok (id, db')) : OldKept old db' := by
  intro v hv
  rw [edgeIds_insertRow h]
  exact List.mem_append_left _ (hkept v hv)

theorem HasCurrent.insertRow (hcurrent : HasCurrent old key db) {k : EdgeKey}
    (h : c.insertRow k targetNorm db = .ok (id, db')) : HasCurrent old key db' := by
  obtain ⟨r, hr, hcur⟩ := hcurrent
  exact ⟨r, (EdgeCall.insertRow_ok h).2 ▸ List.mem_append_left _ hr, hcur⟩

/-- A new row has lost to none, and none has lost to it in a table without its id. -/
theorem NoMutual.insertRow (hmutual : NoMutual db)
    (h : c.insertRow key targetNorm db = .ok (id, db')) : NoMutual db' := by
  have hnew : (c.newRow key targetNorm id).col "superseded_by" = .null := by
    simp [EdgeCall.newRow, jsonObject]
  have hloses : ∀ b, ¬ SupersededBy (c.newRow key targetNorm id) b := by
    rintro b ⟨hnull, hlost⟩
    exact hnull (hlost.symm.trans hnew)
  intro a ha b hb hne hab hba
  rw [(EdgeCall.insertRow_ok h).2, List.mem_append, List.mem_singleton] at ha hb
  rcases ha with ha | rfl
  · rcases hb with hb | rfl
    · exact hmutual a ha b hb hne hab hba
    · exact hloses a hba
  · exact hloses b hab

/-- An open-ended call gives its key a current edge. -/
theorem HasCurrent.of_insertRow (hkept : OldKept old db) (hopen : c.edge.validUntil = none)
    (h : c.insertRow (c.key unicode) targetNorm db = .ok (id, db')) :
    HasCurrent old (c.key unicode) db' := by
  refine ⟨c.newRow (c.key unicode) targetNorm id,
    (EdgeCall.insertRow_ok h).2 ▸ List.mem_append_right _ (List.mem_singleton.mpr rfl), ?_⟩
  have hid : (c.newRow (c.key unicode) targetNorm id).col "id" = .int id := by
    simp [EdgeCall.newRow, jsonObject]
  refine ⟨fun hmem => (EdgeCall.insertRow_ok h).1 (hkept _ (hid ▸ hmem)), ?_, ?_, ?_⟩
  · simp [EdgeKey.has, EdgeCall.newRow, jsonObject]
  · simp [EdgeCall.newRow, jsonObject]
  · simp [EdgeCall.newRow, jsonObject, hopen, Value.ofOptionStr]

end Insertion

/-! ## Runs

An insertion that got as far as its row has given the key a current edge, and every later
statement of any call keeps one. So the key has one when the call succeeds, whatever it
succeeded with. -/

section Runs

variable {codec : Codec} {unicode : Unicode} {ok : EdgeStatement → Database → Prop}
  {inv : Database → Prop} {old : List Value}

theorem reconcileInsertedMemoryEdge_preserves (hinv : AboutEdges inv)
    (hupdate : ∀ u s, ok (.supersede u) s → inv s → inv (EdgeUpdate.apply u s)) (c : EdgeCall)
    (newId : Int) (key : EdgeKey) (targetNorm : String) :
    Proc.PreservesWhen ok inv (reconcileInsertedMemoryEdge codec c newId key targetNorm) := by
  have hexec : ∀ u : EdgeUpdate, Proc.PreservesWhen ok inv
      (Proc.exec (.supersede u) fun db => .ok ((), u.apply db) : EdgeProc Unit) := by
    intro u
    refine .exec fun s b s' hok hs h => ?_
    obtain ⟨-, rfl⟩ := Prod.mk.inj (Except.ok.inj h)
    exact hupdate u s hok hs
  refine .bind (detectGraphContradiction_preserves hinv) fun _ => .bind (hexec _) fun _ => ?_
  dsimp only
  split
  · exact hexec _
  · exact .done _

/-- A call keeps what an insertion and the updates it is allowed keep. -/
theorem EdgeCall.preserves (hinv : AboutEdges inv)
    (hinsert : ∀ (c : EdgeCall) key targetNorm s id s', inv s →
      c.insertRow key targetNorm s = .ok (id, s') → inv s')
    (hupdate : ∀ u s, ok (.supersede u) s → inv s → inv (EdgeUpdate.apply u s)) (c : EdgeCall) :
    Proc.PreservesWhen ok inv (c.body codec unicode) := by
  refine .bind ?_ fun _ => .done _
  unfold insertMemoryEdge
  dsimp only
  split
  · exact .done _
  · refine .bind (.exec fun s id s' _ hs h => hinsert c _ _ s id s' hs h) fun _ =>
      .bind (.query _ _) fun id =>
        .bind (reconcileInsertedMemoryEdge_preserves hinv hupdate c id _ _) fun _ => .done _

/-- Before anything else an open-ended call inserts a current edge. -/
theorem EdgeCall.leads {c : EdgeCall} (hopen : c.edge.validUntil = none) :
    Proc.Leads (fun l s => ok l s ∧ OldKept old s) (HasCurrent old (c.key unicode))
      (c.body codec unicode) := by
  refine Proc.Leads.bind_left ?_
  unfold insertMemoryEdge
  dsimp only
  split
  · exact .error _
  · refine Proc.Leads.bind_left (.here fun s id s' hok h => ?_)
    exact HasCurrent.of_insertRow hok.2 hopen h

theorem oldKept_aboutEdges : AboutEdges (OldKept old) := by
  intro s s' htable hs v hv
  rw [edgeIds, htable]
  exact hs v hv

theorem hasCurrent_aboutEdges {key : EdgeKey} : AboutEdges (HasCurrent old key) := by
  rintro s s' htable ⟨r, hr, hcurrent⟩
  exact ⟨r, htable ▸ hr, hcurrent⟩

theorem noMutual_aboutEdges : AboutEdges NoMutual := by
  intro s s' htable hs a ha b hb
  rw [htable] at ha hb
  exact hs a ha b hb

/-- In every interleaving whose updates run while their own edge stands, a current-state
key that got an open-ended edge has a current one, and no two edges supersede each
other. -/
theorem graph_inserts_keep_current {s₀ s : Database}
    {pool : List (Proc.Thread EdgeCall EdgeStatement Database String)} (hmutual : NoMutual s₀)
    (h : Proc.ReachesWhen (OwnEdgeStands (edgeIds s₀)) (EdgeCall.body codec unicode) (s₀, [])
      (s, pool)) :
    NoMutual s ∧ ∀ t ∈ pool, t.rest = .done (.ok ()) → t.call.edge.validUntil = none →
      isCurrentStateRelation (t.call.key unicode).relationNorm = true →
        HasCurrent (edgeIds s₀) (t.call.key unicode) s := by
  have hmutual' : ∀ c : EdgeCall, Proc.PreservesWhen (OwnEdgeStands (edgeIds s₀)) NoMutual
      (c.body codec unicode) :=
    EdgeCall.preserves noMutual_aboutEdges (fun _ _ _ _ _ _ hs h => hs.insertRow h)
      fun _ _ hok hs => hs.apply hok
  refine ⟨Proc.ReachesWhen.invariant hmutual' .refl h hmutual, fun t ht hdone hopen hstate => ?_⟩
  have hkept : ∀ c : EdgeCall, Proc.PreservesWhen (OwnEdgeStands (edgeIds s₀))
      (OldKept (edgeIds s₀)) (c.body codec unicode) :=
    EdgeCall.preserves oldKept_aboutEdges (fun _ _ _ _ _ _ hs h => hs.insertRow h)
      fun u s _ hs v hv => by rw [edgeIds_apply]; exact hs v hv
  have hcurrent : ∀ c : EdgeCall, Proc.PreservesWhen
      (fun l s => OwnEdgeStands (edgeIds s₀) l s ∧ OldKept (edgeIds s₀) s)
      (HasCurrent (edgeIds s₀) (t.call.key unicode)) (c.body codec unicode) :=
    EdgeCall.preserves hasCurrent_aboutEdges (fun _ _ _ _ _ _ hs h => hs.insertRow h)
      fun u s hok hs => hs.apply hstate hok.1
  have hleads : ∀ c : EdgeCall, c.edge.validUntil = none ∧ c.key unicode = t.call.key unicode →
      Proc.Leads (fun l s => OwnEdgeStands (edgeIds s₀) l s ∧ OldKept (edgeIds s₀) s)
        (HasCurrent (edgeIds s₀) (t.call.key unicode)) (c.body codec unicode) := by
    rintro c ⟨hopen, hkey⟩
    rw [← hkey]
    exact EdgeCall.leads hopen
  exact (h.strengthen hkept fun v hv => hv).established hcurrent hleads ht ⟨hopen, rfl⟩ hdone

end Runs

/-! ### Two writers of one state -/

def nextEdgeId (rows : List Record) : Int := maxColumn rows "id" + 1

/-- Ada works at this place, from now on. -/
def adaWorksAt (place : String) : EdgeCall where
  edge := { project := "notes", memoryId := 1, source := "Ada", relation := "works at", target := place }
  now := 100
  autoId := nextEdgeId
  setId := "c1"
  setNow := 100
  ledgerNow := 100

def adaKey : EdgeKey := ⟨"notes", "ada", "works_at"⟩

/-- Both calls insert before either reconciles. -/
def bothInsert : List (Proc.Move EdgeCall) :=
  [.call (adaWorksAt "Acme"), .call (adaWorksAt "Initech"), .run 0, .run 0, .run 1, .run 1, .run 0,
    .run 0, .run 1, .run 1]

/-- Both calls succeed, and each edge is superseded by the other. -/
theorem graph_inserts_hide_each_other : ∃ s pool,
    Proc.Reaches (EdgeCall.body (jsonCodec []) asciiUnicode) ({}, []) (s, pool) ∧
      (∀ t ∈ pool, t.rest = .done (.ok ()) ∧ t.call.edge.validUntil = none ∧
        t.call.key asciiUnicode = adaKey) ∧ pool ≠ [] ∧
          isCurrentStateRelation adaKey.relationNorm = true ∧ ¬ HasCurrent [] adaKey s ∧
            ¬ NoMutual s := by
  have hrun : (Proc.runMoves (fun _ _ => True) (EdgeCall.body (jsonCodec []) asciiUnicode)
      bothInsert ({}, [])).any (fun c => (c.2.all fun t => t.rest.succeeded &&
        decide (t.call.edge.validUntil = none ∧ t.call.key asciiUnicode = adaKey))
          && !c.2.isEmpty && decide (¬ HasCurrent [] adaKey c.1 ∧ ¬ NoMutual c.1)) = true := by
    decide +kernel
  obtain ⟨⟨s, pool⟩, hmoves, hc⟩ := Option.any_eq_true _ _ |>.mp hrun
  simp only [Bool.and_eq_true, List.all_eq_true, decide_eq_true_eq, Bool.not_eq_true',
    List.isEmpty_eq_false_iff] at hc
  obtain ⟨⟨hpool, hne⟩, hcurrent, hmutual⟩ := hc
  exact ⟨s, pool, (Proc.ReachesWhen.of_moves hmoves).reaches,
    fun t ht => ⟨Proc.eq_done_of_succeeded (hpool t ht).1, (hpool t ht).2⟩, hne, by decide,
    hcurrent, hmutual⟩

/-- One call after the other. -/
def insertInTurn : List (Proc.Move EdgeCall) :=
  [.call (adaWorksAt "Acme"), .run 0, .run 0, .run 0, .run 0, .call (adaWorksAt "Initech"), .run 1,
    .run 1, .run 1, .run 1]

/-- In turn, the later edge supersedes the earlier one and stays. -/
theorem graph_inserts_keep_current_in_turn : ∃ s pool,
    Proc.ReachesWhen (OwnEdgeStands []) (EdgeCall.body (jsonCodec []) asciiUnicode) ({}, [])
      (s, pool) ∧ NoMutual s ∧ HasCurrent [] adaKey s := by
  have hrun : (Proc.runMoves (OwnEdgeStands []) (EdgeCall.body (jsonCodec []) asciiUnicode)
      insertInTurn ({}, [])).any (fun c => c.2.any fun t => t.rest.succeeded &&
        decide (t.call.edge.validUntil = none ∧ t.call.key asciiUnicode = adaKey)) = true := by
    decide +kernel
  obtain ⟨⟨s, pool⟩, hmoves, hc⟩ := Option.any_eq_true _ _ |>.mp hrun
  obtain ⟨t, ht, hc⟩ := List.any_eq_true.mp hc
  rw [Bool.and_eq_true, decide_eq_true_eq] at hc
  obtain ⟨hdone, hopen, hkey⟩ := hc
  have hreach := Proc.ReachesWhen.of_moves hmoves
  have hempty : NoMutual {} := fun a ha => absurd ha List.not_mem_nil
  obtain ⟨hmutual, hcurrent⟩ := graph_inserts_keep_current hempty hreach
  have hada := hcurrent t ht (Proc.eq_done_of_succeeded hdone) hopen (hkey ▸ by decide)
  exact ⟨s, pool, hreach, hmutual, hkey ▸ hada⟩

end IronMem
