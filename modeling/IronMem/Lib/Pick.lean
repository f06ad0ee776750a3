import Mathlib.Data.List.Perm.Basic
import Mathlib.Data.List.Sort

/-!
# Picking from a ranked list

A scan down a ranked list that takes what a predicate admits until the slots are full.
What it takes is the beginning of the admitted part, so nothing it takes was preceded by
something admitted that it left.

Scans are brought to one form, a `take` of a `filter` (`pick_filter`, `pick_fresh`), and what
comes before what is then a statement about lists (`Precedes`). Several scans that share
their slots choose in several orders; sorting by rank brings the order of the list back
(`insertionSort_eq_filter`).
-/

namespace Pick

variable {α : Type} {limit n : Nat} {q : α → Bool} {chosen l : List α} {x y : α}

/-- Take what `p` admits, given what is chosen already, until `limit` are chosen. -/
def pick (limit : Nat) (p : List α → α → Bool) : List α → List α → List α
  | chosen, [] => chosen
  | chosen, a :: rest =>
      if limit ≤ chosen.length then chosen
      else pick limit p (if p chosen a then chosen ++ [a] else chosen) rest

/-- The scan for a property of the items. -/
theorem pick_filter (q : α → Bool) (chosen l : List α) :
    pick limit (fun _ a => q a) chosen l
      = chosen ++ (l.filter q).take (limit - chosen.length) := by
  induction l generalizing chosen with
  | nil => simp [pick]
  | cons a rest ih =>
      rw [pick]
      split
      · next hfull => simp [Nat.sub_eq_zero_of_le hfull]
      · next hroom =>
          obtain ⟨k, hk⟩ : ∃ k, limit - chosen.length = k + 1 := ⟨limit - chosen.length - 1, by omega⟩
          by_cases hq : q a = true
          · rw [if_pos hq, ih, List.filter_cons_of_pos hq, hk, List.take_succ_cons]
            have hlen : limit - (chosen ++ [a]).length = k := by
              rw [List.length_append, List.length_singleton]
              omega
            rw [hlen, List.append_assoc, List.singleton_append]
          · rw [if_neg hq, ih, List.filter_cons_of_neg hq]

variable [DecidableEq α]

/-- The scan for items that are not chosen yet: of equal ones it takes the first. -/
theorem pick_fresh (q : α → Bool) (chosen l : List α) :
    pick limit (fun chosen a => q a && decide (a ∉ chosen)) chosen l
      = chosen ++ ((l.filter fun a => q a && decide (a ∉ chosen)).eraseDups).take
          (limit - chosen.length) := by
  induction l generalizing chosen with
  | nil => simp [pick]
  | cons a rest ih =>
      rw [pick]
      split
      · next hfull => simp [Nat.sub_eq_zero_of_le hfull]
      · next hroom =>
          obtain ⟨k, hk⟩ : ∃ k, limit - chosen.length = k + 1 := ⟨limit - chosen.length - 1, by omega⟩
          by_cases hq : (q a && decide (a ∉ chosen)) = true
          · rw [if_pos hq, ih, hk, List.filter_cons_of_pos (p := fun a => q a && decide (a ∉ chosen)) hq,
              List.eraseDups_cons, List.take_succ_cons]
            have hlen : limit - (chosen ++ [a]).length = k := by
              rw [List.length_append, List.length_singleton]
              omega
            have hrest : (rest.filter fun b => q b && decide (b ∉ chosen)).filter (fun b => !b == a)
                = rest.filter fun b => q b && decide (b ∉ chosen ++ [a]) := by
              rw [List.filter_filter]
              refine List.filter_congr fun b _ => ?_
              by_cases hb : b = a <;> simp [hb]
            rw [hlen, hrest, List.append_assoc, List.singleton_append]
          · rw [if_neg hq, ih, List.filter_cons_of_neg (p := fun a => q a && decide (a ∉ chosen)) hq]

theorem eraseDups_of_nodup (h : l.Nodup) : l.eraseDups = l := by
  induction l with
  | nil => rfl
  | cons a rest ih =>
      rw [List.nodup_cons] at h
      have hrest : rest.filter (fun b => !b == a) = rest := by
        rw [List.filter_eq_self]
        intro b hb
        simpa using fun hba : b = a => h.1 (hba ▸ hb)
      rw [List.eraseDups_cons, hrest, ih h.2]

theorem nodup_eraseDups (l : List α) : l.eraseDups.Nodup := by
  induction hn : l.length using Nat.strong_induction_on generalizing l with
  | _ n ih =>
      cases l with
      | nil => exact List.nodup_nil
      | cons a rest =>
          rw [List.eraseDups_cons, List.nodup_cons]
          refine ⟨fun hmem => ?_, ih _ ?_ _ rfl⟩
          · have hmem := (List.mem_filter.mp (List.mem_eraseDups.mp hmem)).2
            simp at hmem
          · have hle := List.length_filter_le (fun b => !b == a) rest
            rw [← hn, List.length_cons]
            omega

/-! ## What comes before -/

/-- Of two items the first ranks higher. -/
def Precedes (l : List α) (y x : α) : Prop := [y, x].Sublist l

omit [DecidableEq α] in
theorem Precedes.filter (h : Precedes l y x) (hy : q y = true) (hx : q x = true) :
    Precedes (l.filter q) y x := by
  have hsub := List.Sublist.filter q h
  rwa [List.filter_cons_of_pos hy, List.filter_cons_of_pos hx, List.filter_nil] at hsub

omit [DecidableEq α] in
/-- What ranks above an item of the beginning is in the beginning. -/
theorem Precedes.mem_take (h : Precedes l y x) (hnodup : l.Nodup) (hx : x ∈ l.take n) :
    y ∈ l.take n := by
  have hsplit : [y, x].Sublist (l.take n ++ l.drop n) := by rwa [List.take_append_drop]
  obtain ⟨l₁, l₂, heq, h₁, h₂⟩ := List.sublist_append_iff.mp hsplit
  have hdisj := (List.nodup_append.mp ((List.take_append_drop n l).symm ▸ hnodup)).2.2
  rcases l₁ with _ | ⟨a, _ | ⟨b, l₁⟩⟩
  · have hxmem : x ∈ l₂ := by rw [← heq.trans (List.nil_append _)]; simp
    exact absurd rfl (hdisj x hx x (h₂.subset hxmem))
  · rw [List.singleton_append, List.cons.injEq] at heq
    have hxmem : x ∈ l₂ := by rw [← heq.2]; simp
    exact absurd rfl (hdisj x hx x (h₂.subset hxmem))
  · rw [List.cons_append, List.cons.injEq] at heq
    exact h₁.subset (heq.1 ▸ List.mem_cons_self)

omit [DecidableEq α] in
/-- The admitted part of a beginning is in the beginning of the admitted part. -/
theorem mem_take_filter (hx : x ∈ l.take n) (hq : q x = true) : x ∈ (l.filter q).take n := by
  have hpre : ((l.take n).filter q) <+: l.filter q :=
    ⟨(l.drop n).filter q, by rw [← List.filter_append, List.take_append_drop]⟩
  have hlen : ((l.take n).filter q).length ≤ n :=
    (List.length_filter_le _ _).trans (List.length_take_le n l)
  exact (List.prefix_take_iff.mpr ⟨hpre, hlen⟩).subset (List.mem_filter.mpr ⟨hx, hq⟩)

/-! ## Back in rank order -/

/-- Sorting what is chosen by rank gives the chosen items in the order of the list. -/
theorem insertionSort_eq_filter {rank : α → Nat} (hrank : l.Pairwise fun a b => rank a < rank b)
    (hsub : ∀ a ∈ chosen, a ∈ l) (hnodup : chosen.Nodup) :
    chosen.insertionSort (fun a b => rank a ≤ rank b) = l.filter fun a => decide (a ∈ chosen) := by
  have hmap : (l.map rank).Nodup := List.pairwise_map.mpr (hrank.imp fun h => by omega)
  have hnodupl : l.Nodup := List.Nodup.of_map rank hmap
  refine @List.Perm.eq_of_pairwise _ (fun a b => rank a ≤ rank b) _ _ ?_ ?_ ?_ ?_
  · intro a b ha hb hab hba
    rw [List.mem_insertionSort] at ha
    exact List.inj_on_of_nodup_map hmap (hsub a ha) (List.mem_filter.mp hb).1 (by omega)
  · have htotal : Std.Total fun a b : α => rank a ≤ rank b := ⟨fun a b => Nat.le_total _ _⟩
    have htrans : IsTrans α fun a b => rank a ≤ rank b := ⟨fun a b c => Nat.le_trans⟩
    exact List.pairwise_insertionSort _ _
  · exact (hrank.imp fun h => by omega).filter _
  · refine (List.perm_insertionSort _ chosen).trans ?_
    rw [List.perm_ext_iff_of_nodup hnodup (hnodupl.filter _)]
    intro a
    rw [List.mem_filter, decide_eq_true_eq]
    exact ⟨fun ha => ⟨hsub a ha, ha⟩, fun ha => ha.2⟩

end Pick
