import Mathlib.Data.List.Sort
import Mathlib.Data.Multiset.UnionInter
import Std.Data.ExtTreeMap

/-!
# Differences of canonically sorted row lists

A table is kept as a list sorted by a key that tells its rows apart; equal rows
may repeat. A difference lists the rows to take out and the rows to put in,
computed from key counts (`tally`, `surplus`). Applying it takes rows out one
by one (`eraseEach`), appends the new ones and sorts again (`sortBy`).

As multisets the round trip is `B - (B - N) + (N - B) = N`; `sortBy_eq_of_perm`
brings the list back, since a sorted list with telling keys is determined by
its multiset. Nothing here knows what a row is.
-/

namespace RowDiff

variable {α κ : Type}

/-! ## Canonical order -/

section Sorting

variable [LinearOrder κ] (key : α → κ)

/-- Stable sort by key. -/
def sortBy (l : List α) : List α := l.insertionSort fun a b => key a ≤ key b

/-- The list is in canonical order. -/
def Canonical (l : List α) : Prop := l.Pairwise fun a b => key a ≤ key b

theorem sortBy_perm (l : List α) : (sortBy key l).Perm l :=
  List.perm_insertionSort _ l

theorem mem_sortBy {l : List α} {a : α} : a ∈ sortBy key l ↔ a ∈ l :=
  (sortBy_perm key l).mem_iff

theorem canonical_sortBy (l : List α) : Canonical key (sortBy key l) := by
  have : Std.Total fun a b : α => key a ≤ key b := ⟨fun a b => le_total (key a) (key b)⟩
  have : IsTrans α fun a b => key a ≤ key b := ⟨fun _ _ _ => le_trans⟩
  exact List.pairwise_insertionSort _ l

theorem sortBy_of_canonical {l : List α} (h : Canonical key l) : sortBy key l = l :=
  List.Pairwise.insertionSort_eq h

/-- Sorting undoes any reordering of a canonical list whose keys tell its rows
apart. -/
theorem sortBy_eq_of_perm {l l' : List α} (hp : l.Perm l') (hc : Canonical key l')
    (hkey : ∀ a ∈ l', ∀ b ∈ l', key a = key b → a = b) : sortBy key l = l' := by
  have hp' := (sortBy_perm key l).trans hp
  refine List.Perm.eq_of_pairwise ?_ (canonical_sortBy key l) hc hp'
  intro a b ha hb hab hba
  exact hkey a (hp'.mem_iff.mp ha) b hb (le_antisymm hab hba)

/-- Sorting related lists, by orders the relation respects. -/
theorem forall₂_insertionSort {β : Type} {R : α → β → Prop} {r : α → α → Prop}
    {s : β → β → Prop} [DecidableRel r] [DecidableRel s]
    (h : ∀ a a' b b', R a b → R a' b' → (r a a' ↔ s b b')) {l : List α} {l' : List β}
    (hl : List.Forall₂ R l l') : List.Forall₂ R (l.insertionSort r) (l'.insertionSort s) := by
  have hinsert : ∀ {a : α} {b : β} {l : List α} {l' : List β}, R a b → List.Forall₂ R l l' →
      List.Forall₂ R (l.orderedInsert r a) (l'.orderedInsert s b) := by
    intro a b l l' hab hl
    induction hl with
    | nil => exact .cons hab .nil
    | @cons c d l l' hcd hl ih =>
        rw [List.orderedInsert, List.orderedInsert]
        by_cases hr : r a c
        · rw [if_pos hr, if_pos ((h a c b d hab hcd).mp hr)]
          exact .cons hab (.cons hcd hl)
        · rw [if_neg hr, if_neg fun hs => hr ((h a c b d hab hcd).mpr hs)]
          exact .cons hcd ih
  induction hl with
  | nil => exact .nil
  | cons hab _ ih => exact hinsert hab ih

theorem filter_orderedInsert {l : List α} (hl : Canonical key l) (p : α → Bool) (a : α) :
    (l.orderedInsert (fun a b => key a ≤ key b) a).filter p
      = if p a then (l.filter p).orderedInsert (fun a b => key a ≤ key b) a else l.filter p := by
  induction l with
  | nil => cases h : p a <;> simp [h]
  | cons b l ih =>
      obtain ⟨hb, hl⟩ := List.pairwise_cons.mp hl
      by_cases hab : key a ≤ key b
      · rw [List.orderedInsert_cons, if_pos hab]
        cases hpa : p a with
        | false => simp [hpa]
        | true =>
            rw [List.filter_cons, if_pos hpa, if_pos rfl]
            -- whatever comes first after filtering is not below `b`
            cases hfilter : (b :: l).filter p with
            | nil => rfl
            | cons c rest =>
                have hc : c ∈ b :: l := List.mem_of_mem_filter (p := p) (by rw [hfilter]; simp)
                have hac : key a ≤ key c := by
                  rcases List.mem_cons.mp hc with rfl | hc
                  · exact hab
                  · exact le_trans hab (hb c hc)
                rw [List.orderedInsert_cons, if_pos hac]
      · rw [List.orderedInsert_cons, if_neg hab, List.filter_cons, List.filter_cons, ih hl]
        cases hpb : p b with
        | false => simp
        | true =>
            cases hpa : p a with
            | false => simp
            | true => simp [List.orderedInsert_cons, hab]

/-- Sorting and filtering commute. -/
theorem sortBy_filter (l : List α) (p : α → Bool) :
    sortBy key (l.filter p) = (sortBy key l).filter p := by
  induction l with
  | nil => rfl
  | cons a l ih =>
      have hcons : ∀ (a : α) (l : List α), sortBy key (a :: l)
          = (sortBy key l).orderedInsert (fun a b => key a ≤ key b) a := fun _ _ => rfl
      rw [hcons, filter_orderedInsert key (canonical_sortBy key l) p a, ← ih, List.filter_cons]
      split
      · exact hcons ..
      · rfl

end Sorting

/-! ## Taking rows out -/

section Erasing

variable [DecidableEq α]

/-- Remove the first occurrence of each row in turn; fails on an absent one. -/
def eraseEach : List α → List α → Option (List α)
  | rows, [] => some rows
  | rows, d :: ds => if d ∈ rows then eraseEach (rows.erase d) ds else none

theorem eraseEach_eq_some {rows ds : List α} (h : (ds : Multiset α) ≤ rows) :
    ∃ out, eraseEach rows ds = some out ∧ (out : Multiset α) = (rows : Multiset α) - ds := by
  induction ds generalizing rows with
  | nil => exact ⟨rows, rfl, by simp⟩
  | cons d ds ih =>
      have hd : d ∈ rows := Multiset.mem_coe.mp (Multiset.mem_of_le h (by simp))
      have hle : (ds : Multiset α) ≤ (rows.erase d : List α) := by
        rw [← Multiset.coe_erase, ← Multiset.cons_le_cons_iff d,
          Multiset.cons_erase (Multiset.mem_coe.mpr hd)]
        simpa using h
      obtain ⟨out, hout, heq⟩ := ih hle
      refine ⟨out, by simp only [eraseEach, if_pos hd, hout], ?_⟩
      rw [heq, ← Multiset.coe_erase, ← Multiset.cons_coe, Multiset.sub_cons]

/-- The multiset identity behind the round trip. -/
theorem sub_sub_add_sub (B N : Multiset α) : B - (B - N) + (N - B) = N := by
  ext a
  simp only [Multiset.count_add, Multiset.count_sub]
  omega

/-- A key that tells the rows of both sides apart commutes with the difference. -/
theorem map_sub_of_injOn {κ : Type} [DecidableEq κ] (key : α → κ) (B N : Multiset α)
    (hkey : ∀ a ∈ B, ∀ b ∈ N, key a = key b → a = b) :
    B.map key - N.map key = (B - N).map key := by
  induction N using Multiset.induction_on generalizing B with
  | empty => simp
  | cons a N ih =>
      rw [Multiset.map_cons, Multiset.sub_cons, Multiset.sub_cons]
      have herase : (B.map key).erase (key a) = (B.erase a).map key := by
        by_cases ha : a ∈ B
        · exact (Multiset.map_erase_of_mem key B ha).symm
        · have hka : key a ∉ B.map key := fun hk => by
            obtain ⟨b, hb, hba⟩ := Multiset.mem_map.mp hk
            exact ha (hkey b hb a (Multiset.mem_cons_self a N) hba ▸ hb)
          rw [Multiset.erase_of_notMem hka, Multiset.erase_of_notMem ha]
      rw [herase]
      exact ih (B.erase a) fun b hb c hc =>
        hkey b (Multiset.mem_of_mem_erase hb) c (Multiset.mem_cons_of_mem hc)

end Erasing

/-! ## Counting -/

section Counting

variable [Ord κ] [Std.TransOrd κ] [Std.LawfulEqOrd κ] [DecidableEq κ]

/-- How often each key occurs (`*entry(key).or_default() += 1`). -/
def tally (keys : List κ) : Std.ExtTreeMap κ Nat compare :=
  keys.foldl (fun counts k => counts.insert k ((counts[k]?).getD 0 + 1)) ∅

/-- The keys of `old` in excess of `new`, each as often as it is in excess. -/
def surplus (old new : List κ) : List κ :=
  (tally old).toList.flatMap fun (k, n) => List.replicate (n - ((tally new)[k]?).getD 0) k

theorem tally_foldl_getD (keys : List κ) (counts : Std.ExtTreeMap κ Nat compare) (k : κ) :
    ((keys.foldl (fun counts k => counts.insert k ((counts[k]?).getD 0 + 1)) counts)[k]?).getD 0
      = (counts[k]?).getD 0 + keys.count k := by
  induction keys generalizing counts with
  | nil => simp
  | cons x xs ih =>
      rw [List.foldl_cons, ih, Std.ExtTreeMap.getElem?_insert, List.count_cons]
      by_cases h : x = k
      · subst h; simp; omega
      · simp [h]

theorem tally_getD (keys : List κ) (k : κ) : ((tally keys)[k]?).getD 0 = keys.count k := by
  have h := tally_foldl_getD keys ∅ k
  simp only [Std.ExtTreeMap.getElem?_empty, Option.getD_none, Nat.zero_add] at h
  exact h

omit [Ord κ] [Std.TransOrd κ] [Std.LawfulEqOrd κ] in
/-- In a list with distinct keys, only the entry of `k` contributes copies of
`k`. -/
theorem count_flatMap_replicate (f : κ → Nat → Nat) (k : κ) (l : List (κ × Nat))
    (hl : l.Pairwise fun a b => a.1 ≠ b.1) :
    (l.flatMap fun (c, n) => List.replicate (f c n) c).count k
      = ((l.find? fun p => p.1 = k).map fun p => f k p.2).getD 0 := by
  induction l with
  | nil => rfl
  | cons p ps ih =>
      obtain ⟨hp, hps⟩ := List.pairwise_cons.mp hl
      rw [List.flatMap_cons, List.count_append, ih hps, List.find?_cons]
      by_cases h : p.1 = k
      · have hnone : ps.find? (fun q => decide (q.1 = k)) = none :=
          List.find?_eq_none.mpr fun q hq => by
            have := hp q hq
            simpa [← h] using this.symm
        simp [h, hnone]
      · simp [h, List.count_replicate]

theorem count_surplus (old new : List κ) (k : κ) :
    (surplus old new).count k = old.count k - new.count k := by
  have hdist : (tally old).toList.Pairwise fun a b => a.1 ≠ b.1 := by
    refine (Std.ExtTreeMap.distinct_keys_toList (t := tally old)).imp ?_
    intro a b hab heq
    exact hab (by rw [heq]; exact Std.ReflCmp.compare_self)
  have hcount := count_flatMap_replicate (fun k n => n - ((tally new)[k]?).getD 0) k _ hdist
  rw [surplus, hcount, ← tally_getD old k, ← tally_getD new k]
  cases hf : (tally old).toList.find? (fun p => decide (p.1 = k)) with
  | none =>
      have hnone : (tally old)[k]? = none := by
        by_contra hne
        obtain ⟨n, hn⟩ := Option.ne_none_iff_exists'.mp hne
        have hmem := Std.ExtTreeMap.mem_toList_iff_getElem?_eq_some.mpr hn
        have := List.find?_eq_none.mp hf _ hmem
        simp at this
      simp [hnone]
  | some p =>
      have hp : p.1 = k := by simpa using List.find?_some hf
      have hmem := List.mem_of_find?_eq_some hf
      obtain ⟨c, n⟩ := p
      subst hp
      simp [Std.ExtTreeMap.mem_toList_iff_getElem?_eq_some.mp hmem]

theorem surplus_eq_sub (old new : List κ) :
    (surplus old new : Multiset κ) = (old : Multiset κ) - new := by
  ext k
  rw [Multiset.count_sub, Multiset.coe_count, Multiset.coe_count, Multiset.coe_count,
    count_surplus]

end Counting

end RowDiff
