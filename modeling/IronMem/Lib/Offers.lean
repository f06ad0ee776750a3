import Mathlib.Data.List.Nodup

/-!
# Taking what fits

Elements are offered one after the other, in any order and any number of times. An element is
taken when there is room for it: the list has not reached its limit, none of its elements has
the key already, and the list fits with it. Nothing that was taken is given back.

What is taken is `Packed` whatever is offered. That nothing is left out that would have fitted
(`run_maximal`) needs that a list which fits goes on to fit when something is taken out
before its last element (`Shrinks`): an element that was refused early is then refused at the
end too.
-/

namespace Offers

variable {α κ : Type*} [DecidableEq κ] (key : α → κ) (fits : List α → Bool) (limit : Nat)

/-- Whether an element is taken. -/
def takes (l : List α) (a : α) : Bool :=
  decide (l.length < limit) && !(l.map key).contains (key a) && fits (l ++ [a])

def offer (l : List α) (a : α) : List α := if takes key fits limit l a then l ++ [a] else l

/-- The elements of `xs`, one after the other. -/
def run (l xs : List α) : List α := xs.foldl (offer key fits limit) l

variable {key fits limit} {l xs ys : List α} {a : α}

theorem takes_eq_true : takes key fits limit l a = true ↔
    l.length < limit ∧ key a ∉ l.map key ∧ fits (l ++ [a]) = true := by
  rw [takes, Bool.and_eq_true, Bool.and_eq_true, decide_eq_true_eq, Bool.not_eq_true',
    List.contains_eq_mem, decide_eq_false_iff_not, and_assoc]

theorem run_append : run key fits limit l (xs ++ ys)
    = run key fits limit (run key fits limit l xs) ys := List.foldl_append

theorem prefix_offer (l : List α) (a : α) : l <+: offer key fits limit l a := by
  unfold offer
  split
  · exact List.prefix_append l [a]
  · exact List.prefix_refl l

theorem prefix_run (l xs : List α) : l <+: run key fits limit l xs := by
  induction xs generalizing l with
  | nil => exact List.prefix_refl l
  | cons a xs ih => exact (prefix_offer l a).trans (ih _)

/-- What a list of taken elements is like. -/
structure Packed (key : α → κ) (fits : List α → Bool) (limit : Nat) (xs l : List α) : Prop where
  subset : l ⊆ xs
  bounded : l.length ≤ limit
  nodup : (l.map key).Nodup
  fits : l = [] ∨ fits l = true

theorem Packed.offer (h : Packed key fits limit xs l) (ha : a ∈ xs) :
    Packed key fits limit xs (offer key fits limit l a) := by
  unfold Offers.offer
  split
  · next htakes =>
      obtain ⟨hroom, hnew, hfits⟩ := takes_eq_true.mp htakes
      refine ⟨List.append_subset.mpr ⟨h.subset, List.cons_subset.mpr ⟨ha, List.nil_subset _⟩⟩, ?_, ?_,
        .inr hfits⟩
      · rw [List.length_append, List.length_singleton]
        exact hroom
      · rw [List.map_append, List.map_singleton, List.nodup_append]
        refine ⟨h.nodup, List.nodup_singleton _, fun x hx y hy heq => hnew ?_⟩
        rwa [← List.mem_singleton.mp hy, ← heq]
  · exact h

theorem Packed.run (h : Packed key fits limit xs l) (hys : ys ⊆ xs) :
    Packed key fits limit xs (run key fits limit l ys) := by
  induction ys generalizing l with
  | nil => exact h
  | cons a ys ih =>
      obtain ⟨ha, hys⟩ := List.cons_subset.mp hys
      exact ih (h.offer ha) hys

theorem packed_run (xs : List α) : Packed key fits limit xs (run key fits limit [] xs) :=
  Packed.run ⟨List.nil_subset _, Nat.zero_le _, List.nodup_nil, .inl rfl⟩ (List.Subset.refl xs)

/-- What fits at the end of a list fits at the end of its prefixes. -/
def Shrinks (fits : List α → Bool) : Prop :=
  ∀ l l' a, l <+: l' → fits (l' ++ [a]) = true → fits (l ++ [a]) = true

/-- Where there is room left, nothing that was offered would have fitted. -/
theorem run_maximal (hfits : Shrinks fits) (ha : a ∈ xs)
    (hroom : (run key fits limit l xs).length < limit)
    (hnew : key a ∉ (run key fits limit l xs).map key) :
    fits (run key fits limit l xs ++ [a]) = false := by
  obtain ⟨before, after, rfl⟩ := List.append_of_mem ha
  rw [run_append] at hroom hnew ⊢
  generalize run key fits limit l before = m at hroom hnew ⊢
  have hrest : offer key fits limit m a <+: run key fits limit m (a :: after) :=
    prefix_run (offer key fits limit m a) after
  have hpre : m <+: run key fits limit m (a :: after) := (prefix_offer m a).trans hrest
  by_cases htakes : takes key fits limit m a = true
  · rw [offer, if_pos htakes] at hrest
    refine absurd (List.mem_map_of_mem ?_) hnew
    exact hrest.subset (List.mem_append_right _ List.mem_cons_self)
  · rw [Bool.eq_false_iff]
    intro hfit
    refine htakes (takes_eq_true.mpr ⟨?_, fun hmem => hnew ?_, hfits _ _ _ hpre hfit⟩)
    · exact Nat.lt_of_le_of_lt hpre.length_le hroom
    · exact (hpre.map key).subset hmem

/-- The first element that is offered is taken where it fits alone. -/
theorem mem_run_of_fits (hlimit : 0 < limit) (hfit : fits [a] = true) :
    a ∈ run key fits limit [] (a :: xs) := by
  have htakes : takes key fits limit [] a = true :=
    takes_eq_true.mpr ⟨hlimit, List.not_mem_nil, hfit⟩
  have hpre : offer key fits limit [] a <+: run key fits limit [] (a :: xs) := prefix_run _ xs
  rw [offer, if_pos htakes] at hpre
  exact hpre.subset List.mem_cons_self

end Offers
