import IronMem.GraphRaces

/-!
# Failed graph insertions

The row of an edge is committed before anything that can fail on what it says. A call
that fails leaves the graph alone exactly when it has not got as far as its row.

For the one direction, no later statement takes an edge away
(`reconcileInsertedMemoryEdge_longer`), so that the new row is still there when a later
statement fails. The failing input needs no fault: a claim key of more than 160 bytes is
refused by the detection, when the row is there already.
-/

namespace IronMem

open Fallible

/-- The tables a graph insertion writes about edges and their contradictions. -/
def SameGraph (db db' : Database) : Prop :=
  ∀ name ∈ ["memory_edges", "contradiction_sets", "contradiction_members"],
    db'.table name = db.table name

/-- The call does not insert its row: a normal form is empty, the statement is told to
fail, or the table refuses the row. -/
def InsertFails (u : Unicode) (fault : Nat → Option String) (c : EdgeCall) (db : Database) : Prop :=
  ((c.key u).sourceNorm.isEmpty || (c.key u).relationNorm.isEmpty
      || (normalizeGraphText u c.edge.target).isEmpty) = true ∨
    fault 0 ≠ none ∨
      ∃ e, c.insertRow (c.key u) (normalizeGraphText u c.edge.target) db = .error e

section Failure

variable {codec : Codec} {u : Unicode} {fault : Nat → Option String} {c : EdgeCall}
  {db db' : Database} {key : EdgeKey} {targetNorm e : String} {n : Nat}

theorem longer_aboutEdges : AboutEdges fun s => n < (s.table "memory_edges").length := by
  intro s s' htable hs
  rw [htable]
  exact hs

/-- Reconciliation takes no edge away. -/
theorem reconcileInsertedMemoryEdge_longer (newId : Int) :
    Proc.Preserves (fun s => n < (s.table "memory_edges").length)
      (reconcileInsertedMemoryEdge codec c newId key targetNorm) := by
  refine Proc.PreservesWhen.preserves (reconcileInsertedMemoryEdge_preserves longer_aboutEdges
    (fun u s _ hs => ?_) c newId key targetNorm)
  rw [EdgeUpdate.apply, Database.table_updateRows, if_pos rfl, List.length_map]
  exact hs

/-- A failed call has left the graph as it was exactly when its row was not inserted. -/
theorem insertMemoryEdge_atomic_iff
    (h : (insertMemoryEdge codec u c).run fault db = (.error e, db')) :
    SameGraph db db' ↔ InsertFails u fault c db := by
  unfold insertMemoryEdge at h
  dsimp only at h
  split at h
  · next hempty =>
      obtain ⟨-, rfl⟩ := Prod.mk.inj h
      exact ⟨fun _ => Or.inl hempty, fun _ _ _ => rfl⟩
  · next hfull =>
      cases hfault : fault 0 with
      | some e' =>
          rw [Proc.exec_bind, Proc.run_step_fault hfault] at h
          obtain ⟨-, rfl⟩ := Prod.mk.inj h
          exact ⟨fun _ => Or.inr (Or.inl (by simp [hfault])), fun _ _ _ => rfl⟩
      | none =>
          cases hinsert : c.insertRow (c.key u) (normalizeGraphText u c.edge.target) db with
          | error e' =>
              rw [Proc.exec_bind, Proc.run_step_error hfault hinsert] at h
              obtain ⟨-, rfl⟩ := Prod.mk.inj h
              exact ⟨fun _ => Or.inr (Or.inr ⟨e', hinsert⟩), fun _ _ _ => rfl⟩
          | ok inserted =>
              obtain ⟨id, s⟩ := inserted
              rw [Proc.exec_bind, Proc.run_step_ok hfault hinsert] at h
              have hrow : (db.table "memory_edges").length < (s.table "memory_edges").length := by
                rw [(EdgeCall.insertRow_ok hinsert).2, List.length_append]
                exact Nat.lt_succ_self _
              have hlonger : (db.table "memory_edges").length
                  < (db'.table "memory_edges").length := by
                have hrest : ((Except.error e, db') : Except String Int × Database).2 = db' := rfl
                rw [← hrest, ← h]
                exact Proc.Preserves.run (.bind (.query _ _) fun id =>
                  .bind (reconcileInsertedMemoryEdge_longer id) fun _ => .done _) _ hrow
              refine ⟨fun hsame => ?_, fun hfails => ?_⟩
              · rw [hsame "memory_edges" (by simp)] at hlonger
                exact absurd hlonger (lt_irrefl _)
              · rcases hfails with hempty | hfault' | ⟨e', he'⟩
                · exact absurd hempty hfull
                · exact absurd hfault hfault'
                · rw [hinsert] at he'
                  cases he'

end Failure

/-! ### A claim key that is too long -/

/-- A status whose claim key has more than 160 bytes. -/
def longStatus (memoryId : Int) (target : String) : EdgeCall where
  edge := { project := "notes", memoryId, source := String.ofList (List.replicate 160 'a'),
            relation := "status", target }
  now := 100
  autoId := nextEdgeId
  setId := "c1"
  setNow := 100
  ledgerNow := 100

/-- Lower-case ASCII text. -/
def lowerUnicode : Unicode := ⟨Char.isAlphanum, id⟩

/-- Two memories, and the status the first gave. -/
def oneStatus : Database where
  table
    | "memory_meta" => [newMetaRow 1 100 "r1", newMetaRow 2 100 "r2"]
    | "memory_edges" => [(longStatus 1 "open").newRow
        ⟨"notes", (longStatus 1 "open").edge.source, "status"⟩ "open" 1]
    | _ => []

/-- Detection refuses the claim key; the row of the new edge stays. -/
theorem insertMemoryEdge_leaves_row : ∃ db',
    (insertMemoryEdge (jsonCodec []) lowerUnicode (longStatus 2 "closed")).run Proc.noFault oneStatus
        = (.error "claim key must contain 1 to 160 bytes", db') ∧ ¬ SameGraph oneStatus db' := by
  have hrun : ((insertMemoryEdge (jsonCodec []) lowerUnicode (longStatus 2 "closed")).run Proc.noFault
        oneStatus).1 = .error "claim key must contain 1 to 160 bytes" ∧
      (((insertMemoryEdge (jsonCodec []) lowerUnicode (longStatus 2 "closed")).run Proc.noFault
        oneStatus).2.table "memory_edges").length = 2 := by decide +kernel
  generalize (insertMemoryEdge (jsonCodec []) lowerUnicode (longStatus 2 "closed")).run Proc.noFault
      oneStatus = call at hrun ⊢
  obtain ⟨result, db'⟩ := call
  dsimp only at hrun
  obtain ⟨hresult, hrows⟩ := hrun
  subst hresult
  refine ⟨db', rfl, fun hsame => ?_⟩
  rw [hsame "memory_edges" (.head _)] at hrows
  have hbefore : (oneStatus.table "memory_edges").length = 1 := rfl
  omega

/-- An edge whose target has no letter or digit is refused before anything is written. -/
theorem insertMemoryEdge_atomic_blank :
    SameGraph oneStatus oneStatus ↔
      InsertFails lowerUnicode Proc.noFault (longStatus 2 "--") oneStatus := by
  have hblank : (normalizeGraphText lowerUnicode "--").isEmpty = true := by decide +kernel
  have hrun : (insertMemoryEdge (jsonCodec []) lowerUnicode (longStatus 2 "--")).run Proc.noFault
      oneStatus = (.error "memory edge source, relation, and target must not be empty", oneStatus) := by
    unfold insertMemoryEdge
    dsimp only
    have htarget : (longStatus 2 "--").edge.target = "--" := rfl
    rw [htarget, hblank, Bool.or_true, if_pos rfl]
    rfl
  exact insertMemoryEdge_atomic_iff hrun

end IronMem
