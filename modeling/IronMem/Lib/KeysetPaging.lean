import Mathlib.Data.List.Nodup
import Mathlib.Order.Lattice

/-!
# Paging by a strict bound on a key

A reader walks a list in key order page by page: the next page holds the first
`k` items whose key lies strictly above the last key of the page before. Keys may
repeat, so a page that ends inside a run of equal keys skips the rest of the run.

`pages_complete_iff` says that this is the only way to lose an item: the pages
hold everything exactly when no multiple of `k` falls inside such a run.
-/

namespace KeysetPaging

variable {α β : Type} [LinearOrder β] (key : α → β) (items : List α) (k : Nat)

/-- The items strictly above a bound. -/
def above (bound : β) : List α := items.filter fun a => decide (bound < key a)

def page (bound : β) : List α := (above key items bound).take k

/-- The pages up to the first empty one; `none` when `fuel` pages do not reach
it. -/
def pages : Nat → β → Option (List (List α))
  | 0, _ => none
  | fuel + 1, bound =>
      match (page key items k bound).getLast? with
      | none => some []
      | some last => (pages fuel (key last)).map fun rest => page key items k bound :: rest

/-- No page boundary falls between items of one key. -/
def NoSplit (l : List α) : Prop :=
  ∀ n, 1 ≤ n → n * k < l.length → (l[n * k - 1]?).map key ≠ (l[n * k]?).map key

variable {key items k} {bound : β}

theorem above_above {b b' : β} (h : b ≤ b') :
    (above key items b).filter (fun a => decide (b' < key a)) = above key items b' := by
  rw [above, above, List.filter_filter]
  refine List.filter_congr fun a _ => ?_
  by_cases hb : b' < key a
  · simp [hb, lt_of_le_of_lt h hb]
  · simp [hb]

theorem mem_above {a : α} : a ∈ above key items bound ↔ a ∈ items ∧ bound < key a := by
  simp [above]

/-- The items above the last key of a page, cut out of the items before. -/
theorem above_last {l : List α} {last : α} (hl : l.Pairwise fun a b => key a ≤ key b)
    (hlast : (l.take k).getLast? = some last) :
    l.filter (fun a => decide (key last < key a))
      = (l.drop k).filter fun a => decide (key last < key a) := by
  conv_lhs => rw [← List.take_append_drop k l, List.filter_append]
  have hnone : (l.take k).filter (fun a => decide (key last < key a)) = [] := by
    rw [List.filter_eq_nil_iff]
    intro a ha hlt
    have hpw : (l.take k).Pairwise fun a b => key a ≤ key b := hl.sublist (List.take_sublist k l)
    obtain ⟨ys, hys⟩ := List.getLast?_eq_some_iff.mp hlast
    rw [hys, List.pairwise_append] at hpw
    rw [hys] at ha
    rcases List.mem_append.mp ha with ha | ha
    · exact absurd (of_decide_eq_true hlt) (not_lt.mpr (hpw.2.2 a ha last (List.mem_singleton_self _)))
    · rw [List.mem_singleton.mp ha] at hlt
      exact absurd (of_decide_eq_true hlt) (lt_irrefl _)
  rw [hnone, List.nil_append]

omit [LinearOrder β] in
/-- A boundary that falls between two keys leaves the rest of the list. -/
theorem noSplit_drop {l : List α} (hpos : 1 ≤ k)
    (hne : (l[k - 1]?).map key ≠ (l[k]?).map key) :
    NoSplit key k l ↔ NoSplit key k (l.drop k) := by
  have hsucc : ∀ m, (m + 1) * k = k + m * k := fun m => by rw [Nat.succ_mul, Nat.add_comm]
  have hindex : ∀ m, 1 ≤ m → k + (m * k - 1) = (m + 1) * k - 1 := fun m hm => by
    have h1 : 1 ≤ m * k := Nat.mul_pos hm hpos
    have h2 := hsucc m
    omega
  constructor
  · intro h n hn hlt
    rw [List.length_drop] at hlt
    have hnext := h (n + 1) (by omega) (by have := hsucc n; omega)
    simpa only [List.getElem?_drop, hindex n hn, ← hsucc n] using hnext
  · intro h n hn hlt
    rcases Nat.lt_or_ge n 2 with hn2 | hn2
    · obtain rfl : n = 1 := by omega
      simpa using hne
    · obtain ⟨m, rfl⟩ : ∃ m, n = m + 1 := ⟨n - 1, by omega⟩
      have hm : 1 ≤ m := by omega
      have hnext := h m hm (by have := hsucc m; rw [List.length_drop]; omega)
      simpa only [List.getElem?_drop, hindex m hm, ← hsucc m] using hnext

/-- Paging with a strict bound reaches the end, never leaves the list, and misses
nothing exactly when no page boundary splits a run of equal keys. -/
theorem pages_complete_iff (hsorted : items.Pairwise fun a b => key a ≤ key b)
    (hnodup : items.Nodup) (hk : 1 ≤ k) {fuel : Nat}
    (hfuel : (above key items bound).length < fuel) :
    ∃ ps, pages key items k fuel bound = some ps ∧
      (∀ p ∈ ps, ∀ a ∈ p, a ∈ above key items bound) ∧
      ((∀ a ∈ above key items bound, ∃ p ∈ ps, a ∈ p) ↔ NoSplit key k (above key items bound)) := by
  induction fuel generalizing bound with
  | zero => omega
  | succ fuel ih =>
  have hpw : (above key items bound).Pairwise fun a b => key a ≤ key b :=
    hsorted.sublist List.filter_sublist
  have hnd : (above key items bound).Nodup := hnodup.sublist List.filter_sublist
  rw [pages]
  cases hlast : (page key items k bound).getLast? with
  | none =>
      have hnil : above key items bound = [] := by
        rw [List.getLast?_eq_none_iff, page, List.take_eq_nil_iff] at hlast
        exact hlast.resolve_left (by omega)
      refine ⟨[], rfl, by simp, ?_⟩
      rw [hnil]
      exact ⟨fun _ n _ h => absurd h (Nat.not_lt_zero _), by simp⟩
  | some last =>
  have hmem : last ∈ above key items bound :=
    List.mem_of_mem_take (List.mem_of_getLast? hlast)
  have hbound : bound < key last := (mem_above.mp hmem).2
  have hrest : above key items (key last)
      = ((above key items bound).drop k).filter fun a => decide (key last < key a) := by
    rw [← above_above hbound.le, above_last hpw hlast]
  have hshorter : (above key items (key last)).length < fuel := by
    have h1 := List.length_filter_le (fun a => decide (key last < key a))
      ((above key items bound).drop k)
    rw [← hrest, List.length_drop] at h1
    have h2 := List.length_pos_of_mem hmem
    omega
  obtain ⟨ps, hps, hinside, hcomplete⟩ := ih hshorter
  refine ⟨page key items k bound :: ps, by simp only [hps]; rfl, fun p hp a ha => ?_, ?_⟩
  · rcases List.mem_cons.mp hp with rfl | hp
    · exact List.mem_of_mem_take ha
    · have ha' := mem_above.mp (hinside p hp a ha)
      exact mem_above.mpr ⟨ha'.1, hbound.trans ha'.2⟩
  · rcases Nat.lt_or_ge k (above key items bound).length with hlt | hge
    · -- the page is full: its last item is the `k`-th
      have hlen : (page key items k bound).length = k := by
        rw [page, List.length_take]
        omega
      have hlastk : (above key items bound)[k - 1]? = some last := by
        rw [List.getLast?_eq_getElem?, hlen, page, List.getElem?_take_of_lt (by omega)] at hlast
        exact hlast
      obtain ⟨next, hnext⟩ : ∃ next, (above key items bound)[k]? = some next :=
        ⟨_, List.getElem?_eq_getElem hlt⟩
      by_cases hsplit : key last = key next
      · -- the item after the boundary has the key of the bound: it is never read again
        have hno : ¬ NoSplit key k (above key items bound) := fun h => by
          have := h 1 (le_refl 1) (by rw [Nat.one_mul]; exact hlt)
          rw [Nat.one_mul, hlastk, hnext] at this
          exact this (congrArg some hsplit)
        refine ⟨fun hall => ?_, fun h => absurd h hno⟩
        obtain ⟨p, hp, hap⟩ := hall next (List.mem_of_getElem? hnext)
        rcases List.mem_cons.mp hp with rfl | hp
        · obtain ⟨i, hi, heq⟩ := List.mem_iff_getElem.mp hap
          have hik : i < k := by rwa [hlen] at hi
          rw [List.getElem_eq_iff, page, List.getElem?_take_of_lt hik] at heq
          have hik' := (List.getElem?_inj (by omega) hnd).mp (heq.trans hnext.symm)
          omega
        · have habove := (mem_above.mp (hinside p hp _ hap)).2
          rw [hsplit] at habove
          exact absurd habove (lt_irrefl _)
      · -- the bound lies between two keys: the next pages start where this one ended
        have hdrop : above key items (key last) = (above key items bound).drop k := by
          rw [hrest, List.filter_eq_self]
          intro a ha
          obtain ⟨i, hi⟩ := List.mem_iff_getElem?.mp ha
          rw [List.getElem?_drop] at hi
          rw [decide_eq_true_eq]
          have hle : ∀ (j m : Nat) (x y : α), j < m → (above key items bound)[j]? = some x →
              (above key items bound)[m]? = some y → key x ≤ key y := by
            intro j m x y hjm hx hy
            obtain ⟨hj, rfl⟩ := List.getElem?_eq_some_iff.mp hx
            obtain ⟨hm, rfl⟩ := List.getElem?_eq_some_iff.mp hy
            exact List.pairwise_iff_getElem.mp hpw j m hj hm hjm
          have h1 := lt_of_le_of_ne (hle (k - 1) k last next (by omega) hlastk hnext) hsplit
          rcases Nat.eq_zero_or_pos i with rfl | hi0
          · rw [Nat.add_zero, hnext] at hi
            exact Option.some.inj hi ▸ h1
          · exact lt_of_lt_of_le h1 (hle k (k + i) next a (by omega) hnext hi)
        rw [hdrop] at hcomplete hinside
        have hne : ((above key items bound)[k - 1]?).map key ≠ ((above key items bound)[k]?).map key := by
          rw [hlastk, hnext]
          exact fun h => hsplit (Option.some.inj h)
        rw [noSplit_drop hk hne, ← hcomplete]
        constructor
        · intro hall a ha
          obtain ⟨p, hp, hap⟩ := hall a (List.mem_of_mem_drop ha)
          rcases List.mem_cons.mp hp with rfl | hp
          · exact absurd ha (List.disjoint_take_drop hnd (le_refl k) hap)
          · exact ⟨p, hp, hap⟩
        · intro hall a ha
          rw [← List.take_append_drop k (above key items bound), List.mem_append] at ha
          rcases ha with ha | ha
          · exact ⟨_, List.mem_cons_self .., ha⟩
          · obtain ⟨p, hp, hap⟩ := hall a ha
            exact ⟨p, List.mem_cons_of_mem _ hp, hap⟩
    · -- the page holds all that is left
      refine ⟨fun _ n hn h => ?_, fun _ a ha => ⟨_, List.mem_cons_self .., ?_⟩⟩
      · have : 1 * k ≤ n * k := Nat.mul_le_mul_right k hn
        omega
      · rwa [page, List.take_of_length_le hge]

end KeysetPaging
