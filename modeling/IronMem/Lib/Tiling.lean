import Mathlib.Algebra.BigOperators.Group.List.Basic
import Mathlib.Algebra.Ring.Nat
import Mathlib.Data.List.TakeDrop

/-!
# Cutting a list into pieces

What a content-defined chunker promises of the places it cuts at: the cuts follow one
another from the start to the end, none is empty or longer than a maximum, and all but
the last have at least a minimum length.

`Tiles` follows the cuts from the left, with what is left to cut. It bounds the number of
pieces (`Tiles.count_le`), and the pieces put together are what was cut
(`Tiles.flatten_slices`); where the cuts are depends on the contents and is left open.
-/

namespace Tiling

/-- One piece: where it starts and how long it is. -/
structure Cut where
  offset : Nat
  length : Nat
deriving DecidableEq, Repr

/-- The cuts tile what is left of `n` elements from `s` on. -/
inductive Tiles (lo hi n : Nat) : Nat → List Cut → Prop
  | done : Tiles lo hi n n []
  | cut {s len : Nat} {cuts : List Cut} (hpos : 0 < len) (hhi : len ≤ hi)
      (hlo : cuts = [] ∨ lo ≤ len) (rest : Tiles lo hi n (s + len) cuts) :
      Tiles lo hi n s (⟨s, len⟩ :: cuts)

variable {α : Type} {lo hi n s : Nat} {cuts : List Cut} {c : Cut}

/-- `xs[offset..offset + length]`. -/
def Cut.slice (xs : List α) (c : Cut) : List α := (xs.drop c.offset).take c.length

theorem Tiles.add_sum (h : Tiles lo hi n s cuts) : s + (cuts.map Cut.length).sum = n := by
  induction h with
  | done => simp
  | cut hpos hhi hlo rest ih =>
      rw [List.map_cons, List.sum_cons, ← Nat.add_assoc]
      exact ih

theorem Tiles.bounds (h : Tiles lo hi n s cuts) (hc : c ∈ cuts) :
    0 < c.length ∧ c.length ≤ hi ∧ c.offset + c.length ≤ n := by
  induction h with
  | done => cases hc
  | cut hpos hhi hlo rest ih =>
      rcases List.mem_cons.mp hc with rfl | hc
      · refine ⟨hpos, hhi, ?_⟩
        rw [← rest.add_sum]
        exact Nat.le_add_right _ _
      · exact ih hc

/-- Only the last piece is shorter than the minimum. -/
theorem Tiles.count_le (h : Tiles lo hi n s cuts) : s + lo * (cuts.length - 1) ≤ n := by
  induction h with
  | done => simp
  | @cut s len cuts hpos hhi hlo rest ih =>
      rcases hlo with rfl | hlo
      · have hsum := rest.add_sum
        show s + lo * 0 ≤ n
        omega
      · cases cuts with
        | nil =>
            have hsum := rest.add_sum
            show s + lo * 0 ≤ n
            omega
        | cons c cuts =>
            rw [List.length_cons, Nat.add_sub_cancel] at ih ⊢
            rw [List.length_cons, Nat.mul_succ]
            omega

theorem Tiles.length_slice {xs : List α} (h : Tiles lo hi xs.length s cuts) (hc : c ∈ cuts) :
    (c.slice xs).length = c.length := by
  obtain ⟨-, -, hend⟩ := h.bounds hc
  rw [Cut.slice, List.length_take, List.length_drop]
  omega

/-- The pieces put together are what was cut. -/
theorem Tiles.flatten_slices {xs : List α} (h : Tiles lo hi xs.length s cuts) :
    (cuts.map (Cut.slice xs)).flatten = xs.drop s := by
  generalize hn : xs.length = n at h
  induction h with
  | done => rw [← hn, List.drop_length]; rfl
  | @cut s len cuts hpos hhi hlo rest ih =>
      rw [List.map_cons, List.flatten_cons, ih]
      show (xs.drop s).take len ++ xs.drop (s + len) = xs.drop s
      rw [← List.drop_drop, List.take_append_drop]

end Tiling
