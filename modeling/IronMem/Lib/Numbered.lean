import Mathlib.Data.List.Basic

/-!
# Numbered lists

A list whose entries carry the numbers `1, 2, 3, …`, in order. Such a list is
determined by its set of entries: one that is contained in another is a prefix of
it, and one that two others cover is the longer of the two.
-/

variable {α : Type} {number : α → Int} {l l' m : List α}

/-- The numbers are `1, 2, 3, …`, in order. -/
def Numbered (number : α → Int) (l : List α) : Prop :=
  ∀ i (hi : i < l.length), number l[i] = i + 1

namespace Numbered

theorem append_singleton {a : α} (hl : Numbered number l) (ha : number a = l.length + 1) :
    Numbered number (l ++ [a]) := by
  intro i hi
  rw [List.length_append, List.length_singleton] at hi
  rcases Nat.lt_or_eq_of_le (Nat.le_of_lt_succ hi) with hlt | rfl
  · rw [List.getElem_append_left hlt]
    exact hl i hlt
  · rw [List.getElem_concat_length rfl]
    exact ha

/-- An entry of both lists stands at the same place. -/
theorem getElem_eq (hl : Numbered number l) (hm : Numbered number m) {i : Nat}
    (hi : i < l.length) (hmem : l[i] ∈ m) : ∃ h : i < m.length, m[i] = l[i] := by
  obtain ⟨j, hj, heq⟩ := List.mem_iff_getElem.mp hmem
  have hnumber := hm j hj
  rw [heq, hl i hi] at hnumber
  obtain rfl : i = j := by omega
  exact ⟨hj, heq⟩

theorem prefix_of_subset (hl : Numbered number l) (hm : Numbered number m) (h : l ⊆ m) :
    l <+: m := by
  have hat : ∀ i (hi : i < l.length), ∃ h : i < m.length, m[i] = l[i] :=
    fun i hi => hl.getElem_eq hm hi (h (List.getElem_mem hi))
  rw [List.prefix_iff_getElem]
  refine ⟨?_, fun i hi => (hat i hi).2.symm⟩
  rcases Nat.eq_zero_or_pos l.length with hzero | hpos
  · omega
  · obtain ⟨hlast, -⟩ := hat (l.length - 1) (by omega)
    omega

/-- A list that two lists of its entries cover is one of the two. -/
theorem eq_of_cover (hl : Numbered number l) (hl' : Numbered number l') (hm : Numbered number m)
    (h : l ⊆ m) (h' : l' ⊆ m) (hcover : ∀ a ∈ m, a ∈ l ∨ a ∈ l') : m = l ∨ m = l' := by
  rcases Nat.eq_zero_or_pos m.length with hzero | hpos
  · obtain rfl := List.length_eq_zero_iff.mp hzero
    exact Or.inl (List.subset_nil.mp h).symm
  · have hlast : m.length - 1 < m.length := by omega
    -- the last entry of the whole is the last one of the list it comes from
    rcases hcover _ (List.getElem_mem hlast) with hmem | hmem
    · obtain ⟨hlen, -⟩ := hm.getElem_eq hl hlast hmem
      exact Or.inl ((hl.prefix_of_subset hm h).eq_of_length_le (by omega)).symm
    · obtain ⟨hlen, -⟩ := hm.getElem_eq hl' hlast hmem
      exact Or.inr ((hl'.prefix_of_subset hm h').eq_of_length_le (by omega)).symm

end Numbered
