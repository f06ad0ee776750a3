import Mathlib.Data.List.Dedup
import Mathlib.Data.List.Perm.Lattice
import Mathlib.Data.List.Sort
import Mathlib.Data.Finset.Max

/-!
# The newest of each group

A list falls into groups by key, each group is sorted by rank, and all but the first of
a group lose to it. Who loses to whom is said without the groups: an item loses to the
highest ranked item of its key. The order in which the groups come does not matter.

Ranks tell items apart, so that every key has one newest item. `mem_flatMap_losers` takes the
keys in any order without repetition, as the iteration over a hash map gives them.
-/

namespace Newest

variable {α κ ρ : Type*} [DecidableEq κ] [LinearOrder ρ] {key : α → κ} {rank : α → ρ}
  {l group : List α} {gs : List (List α)} {a b w w' : α}

/-- The items of each key. -/
def groups (key : α → κ) (l : List α) : List (List α) :=
  (l.map key).dedup.map fun k => l.filter fun a => key a = k

/-- All items of a group but the newest, each with the newest. -/
def losers (rank : α → ρ) (group : List α) : List (α × α) :=
  match group.insertionSort fun a b => rank b ≤ rank a with
  | [] => []
  | winner :: older => older.map fun a => (a, winner)

/-- No item of the same key ranks higher. -/
def IsNewest (key : α → κ) (rank : α → ρ) (l : List α) (w : α) : Prop :=
  w ∈ l ∧ ∀ b ∈ l, key b = key w → rank b ≤ rank w

/-- An item ranks below the newest one of its key. -/
def LosesTo (key : α → κ) (rank : α → ρ) (l : List α) (a w : α) : Prop :=
  a ∈ l ∧ IsNewest key rank l w ∧ key a = key w ∧ a ≠ w

/-! ## The newest item -/

theorem exists_newest (key : α → κ) (rank : α → ρ) (ha : a ∈ l) :
    ∃ w, IsNewest key rank l w ∧ key w = key a := by
  classical
  obtain ⟨w, hw, hmax⟩ := (l.toFinset.filter fun b => key b = key a).exists_max_image rank
    ⟨a, by simpa using ha⟩
  rw [Finset.mem_filter, List.mem_toFinset] at hw
  refine ⟨w, ⟨hw.1, fun b hb hkey => hmax b ?_⟩, hw.2⟩
  rw [Finset.mem_filter, List.mem_toFinset]
  exact ⟨hb, hkey.trans hw.2⟩

omit [DecidableEq κ] in
theorem IsNewest.eq (hinj : ∀ a ∈ l, ∀ b ∈ l, rank a = rank b → a = b)
    (h : IsNewest key rank l w) (h' : IsNewest key rank l w') (hkey : key w = key w') : w = w' :=
  hinj w h.1 w' h'.1 (le_antisymm (h'.2 w h.1 hkey) (h.2 w' h'.1 hkey.symm))

/-- What is not the newest of its key loses. -/
theorem isNewest_iff (hinj : ∀ a ∈ l, ∀ b ∈ l, rank a = rank b → a = b) (ha : a ∈ l) :
    IsNewest key rank l a ↔ ∀ w, ¬ LosesTo key rank l a w := by
  constructor
  · rintro hnewest w ⟨-, hw, hkey, hne⟩
    exact hne (hnewest.eq hinj hw hkey)
  · intro hnone
    obtain ⟨w, hw, hkey⟩ := exists_newest key rank ha
    by_cases haw : a = w
    · exact haw ▸ hw
    · exact absurd ⟨ha, hw, hkey.symm, haw⟩ (hnone w)

/-! ## The groups -/

theorem losers_fst (group : List α) : (losers rank group).map Prod.fst
    = (group.insertionSort fun a b => rank b ≤ rank a).tail := by
  rw [losers]
  split
  · next heq => rw [heq]; rfl
  · next winner older heq =>
      rw [heq, List.map_map]
      exact List.map_id' older

theorem mem_losers (hnodup : group.Nodup) (hinj : ∀ a ∈ group, ∀ b ∈ group, rank a = rank b → a = b) :
    (a, w) ∈ losers rank group
      ↔ a ∈ group ∧ w ∈ group ∧ (∀ b ∈ group, rank b ≤ rank w) ∧ a ≠ w := by
  have hperm := List.perm_insertionSort (fun a b : α => rank b ≤ rank a) group
  have hsorted : (group.insertionSort fun a b => rank b ≤ rank a).Pairwise
      fun a b => rank b ≤ rank a := by
    have htotal : Std.Total fun a b : α => rank b ≤ rank a := ⟨fun a b => le_total _ _⟩
    have htrans : IsTrans α fun a b => rank b ≤ rank a := ⟨fun a b c hab hbc => hbc.trans hab⟩
    exact List.pairwise_insertionSort _ _
  rw [losers]
  split
  · next heq =>
      rw [heq] at hperm
      simp [List.nil_perm.mp hperm]
  · next winner older heq =>
      rw [heq] at hperm hsorted
      rw [List.pairwise_cons] at hsorted
      have hfresh := (List.nodup_cons.mp (hperm.nodup_iff.mpr hnodup)).1
      have hmem : ∀ b, b ∈ group ↔ b = winner ∨ b ∈ older := fun b => by
        rw [← hperm.mem_iff, List.mem_cons]
      have htop : ∀ b ∈ group, rank b ≤ rank winner := fun b hb =>
        ((hmem b).mp hb).elim (fun hbw => by rw [hbw]) (hsorted.1 b)
      simp only [List.mem_map, Prod.mk.injEq]
      constructor
      · rintro ⟨b, ha, rfl, rfl⟩
        exact ⟨(hmem b).mpr (Or.inr ha), (hmem winner).mpr (Or.inl rfl), htop,
          fun hbw => hfresh (hbw ▸ ha)⟩
      · rintro ⟨ha, hw, hnewest, hne⟩
        have hwinner : w = winner := hinj w hw winner ((hmem winner).mpr (Or.inl rfl))
          (le_antisymm (htop w hw) (hnewest winner ((hmem winner).mpr (Or.inl rfl))))
        exact ⟨a, ((hmem a).mp ha).resolve_left (hwinner ▸ hne), rfl, hwinner.symm⟩

/-- Who loses to whom, whatever the order of the groups. -/
theorem mem_flatMap_losers (hnodup : l.Nodup) (hinj : ∀ a ∈ l, ∀ b ∈ l, rank a = rank b → a = b)
    (hgs : gs.Perm (groups key l)) :
    (a, w) ∈ gs.flatMap (losers rank) ↔ LosesTo key rank l a w := by
  have hgroup : ∀ k, (a, w) ∈ losers rank (l.filter fun a => key a = k) ↔
      (a ∈ l ∧ key a = k) ∧ (w ∈ l ∧ key w = k) ∧
        (∀ b ∈ l, key b = k → rank b ≤ rank w) ∧ a ≠ w := by
    intro k
    rw [mem_losers (hnodup.filter _) fun a ha b hb =>
      hinj a (List.mem_of_mem_filter ha) b (List.mem_of_mem_filter hb)]
    simp only [List.mem_filter, decide_eq_true_eq, and_imp]
  rw [List.mem_flatMap]
  constructor
  · rintro ⟨group, hmem, hlost⟩
    obtain ⟨k, -, rfl⟩ := List.mem_map.mp (hgs.mem_iff.mp hmem)
    obtain ⟨⟨ha, hka⟩, ⟨hw, hkw⟩, hnewest, hne⟩ := (hgroup k).mp hlost
    exact ⟨ha, ⟨hw, fun b hb hkey => hnewest b hb (hkey.trans hkw)⟩, hka.trans hkw.symm, hne⟩
  · rintro ⟨ha, ⟨hw, hnewest⟩, hkey, hne⟩
    refine ⟨l.filter fun a => key a = key w, hgs.mem_iff.mpr (List.mem_map_of_mem ?_),
      (hgroup (key w)).mpr ⟨⟨ha, hkey⟩, ⟨hw, rfl⟩, hnewest, hne⟩⟩
    exact List.mem_dedup.mpr (List.mem_map_of_mem hw)

/-- Every item loses once. -/
theorem nodup_losers (hnodup : l.Nodup) (hgs : gs.Perm (groups key l)) :
    ((gs.flatMap (losers rank)).map Prod.fst).Nodup := by
  rw [((hgs.flatMap_right (losers rank)).map Prod.fst).nodup_iff, List.map_flatMap,
    List.nodup_flatMap]
  have hmem : ∀ k, ∀ a ∈ (losers rank (l.filter fun a => key a = k)).map Prod.fst, key a = k := by
    intro k a ha
    rw [losers_fst] at ha
    have hsort := (List.mem_insertionSort _).mp (List.mem_of_mem_tail ha)
    simpa using (List.mem_filter.mp hsort).2
  constructor
  · intro group hgroup
    obtain ⟨k, -, rfl⟩ := List.mem_map.mp hgroup
    rw [losers_fst]
    exact (((List.perm_insertionSort _ _).nodup_iff.mpr (hnodup.filter _)).tail)
  · rw [groups, List.pairwise_map]
    refine List.Pairwise.imp ?_ (List.nodup_dedup (l.map key))
    intro k k' hne a ha ha'
    exact hne ((hmem k a ha).symm.trans (hmem k' a ha'))

omit [DecidableEq κ] [LinearOrder ρ] in
/-- What is kept and what loses are the whole list. -/
theorem length_kept_add {kept olders : List α} (hnodup : l.Nodup) (holders : olders.Nodup)
    (hkept : kept.Nodup) (hsub : ∀ a ∈ olders, a ∈ l) (hmem : ∀ a, a ∈ kept ↔ a ∈ l ∧ a ∉ olders) :
    kept.length + olders.length = l.length := by
  have hdisjoint : ∀ a ∈ kept, ∀ b ∈ olders, a ≠ b := fun a ha b hb hab =>
    ((hmem a).mp ha).2 (hab ▸ hb)
  have hperm : (kept ++ olders).Perm l := by
    rw [List.perm_ext_iff_of_nodup (List.nodup_append.mpr ⟨hkept, holders, hdisjoint⟩) hnodup]
    intro a
    rw [List.mem_append, hmem]
    by_cases ha : a ∈ olders
    · exact ⟨fun _ => hsub a ha, fun _ => Or.inr ha⟩
    · exact ⟨fun h => (h.resolve_right ha).1, fun h => Or.inl ⟨h, ha⟩⟩
  rw [← List.length_append, hperm.length_eq]

end Newest
