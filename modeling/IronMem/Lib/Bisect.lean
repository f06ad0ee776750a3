import Mathlib.Order.Basic

/-!
# Bisection

The largest index whose candidate fits, when every smaller one fits too.

The loop is the usual one, with a range and the best candidate so far. `Narrowed` is its
invariant: the best candidate fits, and what is larger and fits is still in the range. That
fitting is closed downwards (`DownClosed`) is used where a candidate does not fit: then no
larger one does.
-/

namespace Bisect

variable {α : Type*} {candidate : Nat → α} {fits : α → Bool} {low high top : Nat} {best : α}

/-- The loop, with the best candidate so far. -/
def search (candidate : Nat → α) (fits : α → Bool) (low high : Nat) (best : α) : α :=
  if low ≤ high then
    let mid := low + (high - low) / 2
    if fits (candidate mid) then search candidate fits (mid + 1) high (candidate mid)
    else if mid = 0 then best
    else search candidate fits low (mid - 1) best
  else best
termination_by high + 1 - low
decreasing_by all_goals omega

/-- The candidates that fit are the first ones. -/
def DownClosed (candidate : Nat → α) (fits : α → Bool) (top : Nat) : Prop :=
  ∀ i j, i ≤ j → j ≤ top → fits (candidate j) = true → fits (candidate i) = true

/-- Index `k` is the last one that fits. -/
structure IsLast (candidate : Nat → α) (fits : α → Bool) (top k : Nat) : Prop where
  le : k ≤ top
  holds : fits (candidate k) = true
  last : ∀ j, k < j → j ≤ top → fits (candidate j) = false

/-- The best candidate so far fits, and whatever fits and is larger is in the range. -/
structure Narrowed (candidate : Nat → α) (fits : α → Bool) (top low high : Nat) (best : α) :
    Prop where
  found : ∃ k ≤ top, best = candidate k ∧ fits (candidate k) = true ∧ low ≤ k + 1
  bounded : high ≤ top
  above : ∀ j, high < j → j ≤ top → fits (candidate j) = false

theorem Narrowed.search (hdown : DownClosed candidate fits top)
    (h : Narrowed candidate fits top low high best) :
    ∃ k, IsLast candidate fits top k ∧ search candidate fits low high best = candidate k := by
  induction low, high, best using Bisect.search.induct candidate fits with
  | case1 low high best hle mid hfits ih =>
      have hstep : Bisect.search candidate fits low high best
          = Bisect.search candidate fits (mid + 1) high (candidate mid) := by
        rw [Bisect.search, if_pos hle]
        exact if_pos hfits
      have hmid : mid ≤ top := by have := h.bounded; omega
      rw [hstep]
      exact ih ⟨⟨mid, hmid, rfl, hfits, Nat.le_refl _⟩, h.bounded, h.above⟩
  | case2 low high best hle mid hfits hzero =>
      obtain ⟨k, hk, -, hkfits, -⟩ := h.found
      exact absurd (hdown mid k (by omega) hk hkfits) hfits
  | case3 low high best hle mid hfits hzero ih =>
      have hstep : Bisect.search candidate fits low high best
          = Bisect.search candidate fits low (mid - 1) best := by
        rw [Bisect.search, if_pos hle]
        exact (if_neg hfits).trans (if_neg hzero)
      rw [hstep]
      refine ih ⟨h.found, by have := h.bounded; omega, fun j hj hjtop => ?_⟩
      exact Bool.eq_false_iff.mpr fun hjfits => hfits (hdown mid j (by omega) hjtop hjfits)
  | case4 low high best hle =>
      obtain ⟨k, hk, rfl, hkfits, hlow⟩ := h.found
      rw [Bisect.search, if_neg hle]
      exact ⟨k, ⟨hk, hkfits, fun j hj hjtop => h.above j (by omega) hjtop⟩, rfl⟩

/-- The search ends on the last candidate that fits. -/
theorem search_isLast (hdown : DownClosed candidate fits top) (h0 : fits (candidate 0) = true) :
    ∃ k, IsLast candidate fits top k ∧
      search candidate fits 0 top (candidate 0) = candidate k :=
  Narrowed.search hdown ⟨⟨0, Nat.zero_le _, rfl, h0, Nat.zero_le _⟩, Nat.le_refl _,
    fun _ hj hjtop => absurd hj (Nat.not_lt.mpr hjtop)⟩

end Bisect
