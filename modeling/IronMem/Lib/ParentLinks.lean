import Mathlib.Logic.Relation
import Mathlib.Data.List.Chain

/-!
# Parent links

A forest kept as one optional parent for each node. Climbing goes from a node to its
parent. When the links have no cycle, giving one node another parent makes none as
long as the new parent is not the node itself or below it. A climb that comes back to
a node it has passed has gone round one cycle, and the nodes since then are that cycle.
-/

namespace ParentLinks

open Relation

variable {α : Type} {parent parent' : α → Option α} {a b c x y : α}

/-- The parent of the first is the second. -/
def Link (parent : α → Option α) (a b : α) : Prop := parent a = some b

/-- No climb comes back to where it started. -/
def Acyclic (parent : α → Option α) : Prop := ∀ a, ¬ TransGen (Link parent) a a

theorem Link.unique (h : Link parent a b) (h' : Link parent a c) : b = c :=
  Option.some.inj (h.symm.trans h')

theorem acyclic_of_none (h : ∀ a, parent a = none) : Acyclic parent := by
  intro a hcycle
  obtain ⟨b, hb, -⟩ := TransGen.head'_iff.mp hcycle
  rw [Link, h] at hb
  cases hb

/-! ## One node gets another parent -/

section Relink

/-- The links of every node but one are the same. -/
def SameBut (a : α) (parent parent' : α → Option α) : Prop := ∀ x, x ≠ a → parent' x = parent x

/-- Up to that node a climb goes the same way. -/
theorem SameBut.climb (h : SameBut a parent parent') (hx : ReflTransGen (Link parent') x a) :
    ReflTransGen (Link parent) x a := by
  induction hx using ReflTransGen.head_induction_on with
  | refl => exact .refl
  | @head x y hxy _ ih =>
      by_cases hxa : x = a
      · rw [hxa]
      · refine .head ?_ ih
        rw [Link, ← h x hxa]
        exact hxy

/-- A climb that does not pass the node goes the same way. -/
theorem SameBut.climb_or (h : SameBut a parent parent') (hxy : TransGen (Link parent') x y) :
    TransGen (Link parent) x y ∨
      ReflTransGen (Link parent') x a ∧ TransGen (Link parent') a y := by
  induction hxy with
  | @single y hy =>
      by_cases hxa : x = a
      · subst hxa
        exact Or.inr ⟨.refl, .single hy⟩
      · exact Or.inl (.single ((h x hxa).symm.trans hy))
  | @tail y z hy hz ih =>
      rcases ih with hold | ⟨hxa, hay⟩
      · by_cases hya : y = a
        · subst hya
          exact Or.inr ⟨hy.to_reflTransGen, .single hz⟩
        · exact Or.inl (hold.tail ((h y hya).symm.trans hz))
      · exact Or.inr ⟨hxa, hay.tail hz⟩

/-- A new parent that is neither the node nor below it closes no cycle. -/
theorem Acyclic.relink (hac : Acyclic parent) (h : SameBut a parent parent')
    (hnew : ∀ b, parent' a = some b → ¬ ReflTransGen (Link parent) b a) : Acyclic parent' := by
  intro x hcycle
  rcases h.climb_or hcycle with hold | ⟨hxa, hax⟩
  · exact hac x hold
  · obtain ⟨b, hb, hba⟩ := TransGen.head'_iff.mp (hax.trans_left hxa)
    exact hnew b hb (h.climb hba)

end Relink

/-! ## Round a cycle -/

/-- The nodes of a climb that comes back to its first are all that can be reached
from there. -/
theorem reach_iff_mem {l : List α} (hclimb : (a :: l).IsChain (Link parent))
    (hback : Link parent ((a :: l).getLast (List.cons_ne_nil a l)) a) :
    ReflTransGen (Link parent) a x ↔ x ∈ a :: l := by
  constructor
  · intro h
    induction h with
    | refl => exact List.mem_cons_self
    | @tail y z _ hyz ih =>
        -- the parent of a node of the climb is the next one, or the first
        obtain ⟨i, hi, hy⟩ := List.getElem_of_mem ih
        by_cases hlast : i + 1 < (a :: l).length
        · have hnext := List.isChain_iff_getElem.mp hclimb i hlast
          rw [hy] at hnext
          rw [← hnext.unique hyz]
          exact List.getElem_mem hlast
        · have hend : (a :: l).getLast (List.cons_ne_nil a l) = y := by
            rw [List.getLast_eq_getElem, ← hy]
            congr 1
            omega
          rw [hend] at hback
          rw [← hback.unique hyz]
          exact List.mem_cons_self
  · intro hx
    obtain ⟨i, hi, rfl⟩ := List.getElem_of_mem hx
    induction i with
    | zero => exact .refl
    | succ i ih =>
        exact .tail (ih (by omega) (List.getElem_mem _)) (List.isChain_iff_getElem.mp hclimb i hi)

/-- Such a climb is a cycle. -/
theorem cycle_of_climb {l : List α} (h : (a :: l ++ [a]).IsChain (Link parent)) :
    TransGen (Link parent) a a ∧ ∀ x, ReflTransGen (Link parent) a x ↔ x ∈ a :: l := by
  obtain ⟨hclimb, -, hlast⟩ := List.isChain_append.mp h
  have hback : Link parent ((a :: l).getLast (List.cons_ne_nil a l)) a :=
    hlast _ (List.getLast_mem_getLast? _) a rfl
  exact ⟨.tail' ((reach_iff_mem hclimb hback).mpr (List.getLast_mem _)) hback,
    fun x => reach_iff_mem hclimb hback⟩

end ParentLinks
