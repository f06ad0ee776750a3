import Mathlib.Algebra.BigOperators.Group.List.Basic
import Mathlib.Algebra.Order.BigOperators.Group.List
import Mathlib.Algebra.Order.Field.Basic
import Mathlib.Algebra.Order.Field.Rat
import Mathlib.Data.List.Nodup
import Mathlib.Data.List.Sort
import Mathlib.Tactic.Linarith
import Mathlib.Tactic.Positivity
import Mathlib.Tactic.Ring

/-!
# Rank fusion

Several ranked lists are merged into one: an item scores the sum of its reciprocal ranks,
and the items are sorted by score, the first seen first among equals. An item that is
ahead of another wherever the other is listed is ahead of it in the merge, and moving an
item up in one list does not move it down.

Scores are rationals, and a list that does not have an item contributes nothing to it. The
merged list is a stable sort, so its order is described by `precedes_ranked`: a higher
score, or the same one and an earlier first appearance. What changes when an item moves up is
its own score, that of the item it passes, and perhaps the first appearances of the two.
-/

namespace RankFusion

variable {α : Type*} [DecidableEq α] {l l' : List α} {a b : α}

/-! ## Order in a list -/

/-- `a` is listed before `b`. -/
def Precedes (a b : α) (l : List α) : Prop := b ∈ l ∧ l.idxOf a < l.idxOf b

theorem Precedes.mem_left (h : Precedes a b l) : a ∈ l :=
  List.idxOf_lt_length_iff.mp (h.2.trans_le List.idxOf_le_length)

theorem Precedes.ne (h : Precedes a b l) : a ≠ b := by
  rintro rfl
  exact absurd h.2 (Nat.lt_irrefl _)

theorem precedes_total (ha : a ∈ l) (hb : b ∈ l) (hne : a ≠ b) : Precedes a b l ∨ Precedes b a l := by
  rcases Nat.lt_trichotomy (l.idxOf a) (l.idxOf b) with h | h | h
  · exact .inl ⟨hb, h⟩
  · exact absurd (List.idxOf_inj ha |>.mp h) hne
  · exact .inr ⟨ha, h⟩

theorem precedes_iff_sublist (hl : l.Nodup) (hne : a ≠ b) : Precedes a b l ↔ [a, b].Sublist l := by
  induction l with
  | nil => simp [Precedes]
  | cons c l ih =>
      obtain ⟨hc, hl⟩ := List.nodup_cons.mp hl
      have hrest := ih hl
      unfold Precedes at hrest ⊢
      rw [List.idxOf_cons, List.idxOf_cons, List.mem_cons]
      by_cases hca : c = a
      · subst hca
        rw [List.cons_sublist_cons, List.singleton_sublist]
        have hcb : (c == b) = false := beq_eq_false_iff_ne.mpr hne
        simp [hne.symm, hcb]
      · have hskip : [a, b].Sublist (c :: l) ↔ [a, b].Sublist l :=
          ⟨fun h => (List.sublist_cons_iff.mp h).resolve_right fun ⟨r, heq, _⟩ =>
            hca (List.cons.inj heq).1.symm, fun h => h.cons c⟩
        rw [hskip, ← hrest]
        by_cases hcb : c = b
        · subst hcb
          simp [hc]
        · have hca' : (c == a) = false := beq_eq_false_iff_ne.mpr hca
          have hcb' : (c == b) = false := beq_eq_false_iff_ne.mpr hcb
          simp [hca', hcb', Ne.symm hcb]

/-- The items before `b` are those listed before it. -/
theorem mem_take_idxOf (ha : a ∈ l) (hb : b ∈ l) : a ∈ l.take (l.idxOf b) ↔ Precedes a b l := by
  rw [List.mem_take_iff_idxOf_lt ha]
  exact ⟨fun h => ⟨hb, h⟩, fun h => h.2⟩

/-- What has no more items before it stands no later. -/
theorem idxOf_le_of_precedes (hl' : l'.Nodup) (hb : b ∈ l) (hb' : b ∈ l')
    (h : ∀ a, Precedes a b l' → Precedes a b l) : l'.idxOf b ≤ l.idxOf b := by
  have hsub : l'.take (l'.idxOf b) ⊆ l.take (l.idxOf b) := fun a ha => by
    have hbefore := h a ((mem_take_idxOf (List.mem_of_mem_take ha) hb').mp ha)
    exact (mem_take_idxOf hbefore.mem_left hb).mpr hbefore
  have hle := ((hl'.sublist (List.take_sublist ..)).subperm hsub).length_le
  rw [List.length_take, List.length_take, Nat.min_eq_left List.idxOf_le_length,
    Nat.min_eq_left List.idxOf_le_length] at hle
  exact hle

theorem pairwise_precedes (h : l.Nodup) : l.Pairwise fun a b => Precedes a b l := by
  rw [List.pairwise_iff_getElem]
  intro i j hi hj hij
  refine ⟨List.getElem_mem hj, ?_⟩
  rwa [h.idxOf_getElem i hi, h.idxOf_getElem j hj]

/-! ## Sorting by score -/

variable {S : Type*} [LinearOrder S] {score : α → S}

/-- Best first; equals keep their order. -/
def ranked (score : α → S) (l : List α) : List α := l.insertionSort fun a b => score b ≤ score a

instance instTotalRanked : Std.Total fun a b : α => score b ≤ score a := ⟨fun a b => le_total (score b) (score a)⟩
instance instTransRanked : IsTrans α fun a b => score b ≤ score a := ⟨fun _ _ _ hab hbc => hbc.trans hab⟩

omit [DecidableEq α] in
theorem mem_ranked : a ∈ ranked score l ↔ a ∈ l := List.mem_insertionSort _

omit [DecidableEq α] in
theorem nodup_ranked (h : l.Nodup) : (ranked score l).Nodup :=
  (List.perm_insertionSort _ l).nodup_iff.mpr h

omit [DecidableEq α] in
theorem ranked_eq_self (h : l.Pairwise fun a b => score b ≤ score a) : ranked score l = l :=
  h.insertionSort_eq

/-- One item is ahead of another if it scores more, or as much and was there first. -/
theorem precedes_ranked (hl : l.Nodup) (ha : a ∈ l) (hb : b ∈ l) (hne : a ≠ b) :
    Precedes a b (ranked score l) ↔ score b < score a ∨ score a = score b ∧ Precedes a b l := by
  have hforward : ∀ x y, x ∈ l → y ∈ l → x ≠ y →
      (score y < score x ∨ score x = score y ∧ Precedes x y l) → Precedes x y (ranked score l) := by
    intro x y hx hy hxy h
    rcases h with h | ⟨heq, hbefore⟩
    · refine (precedes_total (mem_ranked.mpr hx) (mem_ranked.mpr hy) hxy).resolve_right fun hyx => ?_
      have hsub := (precedes_iff_sublist (nodup_ranked hl) hxy.symm).mp hyx
      have hpair := (List.pairwise_insertionSort (fun a b => score b ≤ score a) l).sublist hsub
      rw [List.pairwise_pair] at hpair
      exact absurd h (not_lt.mpr hpair)
    · refine (precedes_iff_sublist (nodup_ranked hl) hxy).mpr ?_
      exact List.pair_sublist_insertionSort heq.ge ((precedes_iff_sublist hl hxy).mp hbefore)
  constructor
  · intro h
    by_contra hnot
    have hback : score a < score b ∨ score b = score a ∧ Precedes b a l := by
      rcases lt_trichotomy (score a) (score b) with hlt | heq | hgt
      · exact .inl hlt
      · refine .inr ⟨heq.symm, (precedes_total ha hb hne).resolve_left fun hab => ?_⟩
        exact hnot (.inr ⟨heq, hab⟩)
      · exact absurd (.inl hgt) hnot
    exact absurd h.2 (Nat.lt_asymm (hforward b a hb ha hne.symm hback).2)
  · exact hforward a b ha hb hne

/-- The place of the item that was first: what scores more comes before it. -/
theorem idxOf_ranked_first (hl : l.Nodup) (hb : l.head? = some b) :
    (ranked score l).idxOf b = (l.filter fun a => score b < score a).length := by
  have hbl : b ∈ l := List.mem_of_mem_head? hb
  have hfirst : ∀ a, ¬ Precedes a b l := fun a h => by
    obtain ⟨rest, rfl⟩ := List.head?_eq_some_iff.mp hb
    exact absurd h.2 (by rw [List.idxOf_cons_self]; exact Nat.not_lt_zero _)
  have hperm : ((ranked score l).take ((ranked score l).idxOf b)).Perm
      (l.filter fun a => score b < score a) := by
    rw [List.perm_ext_iff_of_nodup ((nodup_ranked hl).sublist (List.take_sublist ..)) (hl.filter _)]
    intro a
    rw [List.mem_filter, decide_eq_true_eq]
    constructor
    · intro ha
      have ha' := mem_ranked.mp (List.mem_of_mem_take ha)
      have hbefore := (mem_take_idxOf (mem_ranked.mpr ha') (mem_ranked.mpr hbl)).mp ha
      refine ⟨ha', ?_⟩
      exact ((precedes_ranked hl ha' hbl hbefore.ne).mp hbefore).resolve_right fun h => hfirst a h.2
    · rintro ⟨ha, hlt⟩
      have hne : a ≠ b := fun heq => absurd hlt (heq ▸ lt_irrefl _)
      exact (mem_take_idxOf (mem_ranked.mpr ha) (mem_ranked.mpr hbl)).mpr
        ((precedes_ranked hl ha hbl hne).mpr (.inl hlt))
  rw [← hperm.length_eq, List.length_take, Nat.min_eq_left List.idxOf_le_length]

/-! ## First appearances -/

/-- The items, in the order in which they come first. -/
def firsts (l : List α) : List α := l.foldl (fun acc a => if a ∈ acc then acc else acc ++ [a]) []

theorem firsts_append_singleton (l : List α) (a : α) :
    firsts (l ++ [a]) = if a ∈ firsts l then firsts l else firsts l ++ [a] := by
  rw [firsts, List.foldl_append]
  rfl

theorem mem_firsts : a ∈ firsts l ↔ a ∈ l := by
  induction l using List.reverseRecOn generalizing a with
  | nil => rfl
  | append_singleton l c ih =>
      rw [firsts_append_singleton]
      split
      · next hc =>
          rw [ih, List.mem_append, List.mem_singleton]
          refine ⟨Or.inl, fun h => ?_⟩
          rcases h with h | rfl
          · exact h
          · exact ih.mp hc
      · rw [List.mem_append, List.mem_append, ih]

theorem nodup_firsts (l : List α) : (firsts l).Nodup := by
  induction l using List.reverseRecOn with
  | nil => exact List.nodup_nil
  | append_singleton l c ih =>
      rw [firsts_append_singleton]
      split
      · exact ih
      · next hc => exact ih.append (List.nodup_singleton c) (List.disjoint_singleton.mpr hc)

/-- What is new goes to the end. -/
theorem firsts_append_of_subset (h : l' ⊆ firsts l) : firsts (l ++ l') = firsts l := by
  induction l' using List.reverseRecOn with
  | nil => rw [List.append_nil]
  | append_singleton l' c ih =>
      have hl' : l' ⊆ firsts l := fun x hx => h (List.mem_append_left _ hx)
      rw [← List.append_assoc, firsts_append_singleton, ih hl',
        if_pos (h (List.mem_append_right _ (List.mem_singleton_self c)))]

theorem firsts_of_nodup (h : l.Nodup) : firsts l = l := by
  induction l using List.reverseRecOn with
  | nil => rfl
  | append_singleton l c ih =>
      obtain ⟨hl, -, hdisjoint⟩ := List.nodup_append'.mp h
      rw [firsts_append_singleton, ih hl, if_neg fun hc => hdisjoint hc (List.mem_singleton_self c)]

/-! ## Reciprocal ranks -/

/-- What a list contributes to the score of an item. -/
def reciprocal (k : ℚ) (l : List α) (a : α) : ℚ := if a ∈ l then 1 / (k + l.idxOf a) else 0

/-- The score of an item. -/
def fusedScore (k : ℚ) (lists : List (List α)) (a : α) : ℚ := (lists.map fun l => reciprocal k l a).sum

variable {k : ℚ} {lists : List (List α)}

theorem reciprocal_nonneg (hk : 0 < k) (l : List α) (a : α) : 0 ≤ reciprocal k l a := by
  unfold reciprocal
  split
  · positivity
  · exact le_rfl

theorem reciprocal_lt (hk : 0 < k) (h : Precedes a b l) : reciprocal k l b < reciprocal k l a := by
  rw [reciprocal, reciprocal, if_pos h.1, if_pos h.mem_left]
  have hlt : (l.idxOf a : ℚ) < l.idxOf b := Nat.cast_lt.mpr h.2
  have hpos : (0 : ℚ) ≤ l.idxOf a := Nat.cast_nonneg _
  exact one_div_lt_one_div_of_lt (by linarith) (by linarith)

/-- The rest of a list is one rank further down. -/
theorem reciprocal_cons {c : α} (hc : c ∉ l) (a : α) :
    reciprocal k (c :: l) a = (if a = c then 1 / k else 0) + reciprocal (k + 1) l a := by
  unfold reciprocal
  by_cases hac : a = c
  · subst hac
    simp [hc]
  · have hca : (c == a) = false := beq_eq_false_iff_ne.mpr (Ne.symm hac)
    rw [if_neg hac, zero_add, List.idxOf_cons, hca, cond_false]
    simp only [List.mem_cons, hac, false_or]
    split
    · push_cast
      congr 1
      ring
    · rfl

/-- Renaming the items changes nothing. -/
theorem reciprocal_map {β : Type*} [DecidableEq β] {f : α → β} (hf : ∀ c ∈ l, f c = f a → c = a) :
    reciprocal k (l.map f) (f a) = reciprocal k l a := by
  have hmem : f a ∈ l.map f ↔ a ∈ l := by
    rw [List.mem_map]
    exact ⟨fun ⟨c, hc, heq⟩ => hf c hc heq ▸ hc, fun ha => ⟨a, ha, rfl⟩⟩
  have hidx : (l.map f).idxOf (f a) = l.idxOf a := by
    clear hmem
    induction l with
    | nil => rfl
    | cons c l ih =>
        obtain ⟨hc, hl⟩ := List.forall_mem_cons.mp hf
        rw [List.map_cons, List.idxOf_cons, List.idxOf_cons, ih hl]
        by_cases hca : c = a
        · subst hca
          simp
        · have hca' : (c == a) = false := beq_eq_false_iff_ne.mpr hca
          have hfca : (f c == f a) = false := beq_eq_false_iff_ne.mpr fun heq => hca (hc heq)
          rw [hca', hfca]
  simp only [reciprocal, hmem, hidx]

/-- An item ahead of another wherever the other is listed scores more. -/
theorem fusedScore_lt (hk : 0 < k) (hb : ∃ l ∈ lists, b ∈ l)
    (h : ∀ l ∈ lists, b ∈ l → Precedes a b l) : fusedScore k lists b < fusedScore k lists a := by
  obtain ⟨l, hl, hbl⟩ := hb
  refine List.sum_lt_sum _ _ (fun l hl => ?_) ⟨l, hl, reciprocal_lt hk (h l hl hbl)⟩
  by_cases hmem : b ∈ l
  · exact (reciprocal_lt hk (h l hl hmem)).le
  · rw [reciprocal, if_neg hmem]
    exact reciprocal_nonneg hk l a

theorem fusedScore_replicate (n : Nat) (l : List α) (a : α) :
    fusedScore k (List.replicate n l) a = n * reciprocal k l a := by
  rw [fusedScore, List.map_replicate, List.sum_replicate, nsmul_eq_mul]

/-- Copies of one list are merged into that list. -/
theorem ranked_replicate (hk : 0 < k) (hl : l.Nodup) (n : Nat) :
    ranked (fusedScore k (List.replicate (n + 1) l)) (firsts (List.replicate (n + 1) l).flatten) = l := by
  have horder : firsts (List.replicate (n + 1) l).flatten = l := by
    rw [List.replicate_succ, List.flatten_cons, firsts_append_of_subset, firsts_of_nodup hl]
    intro a ha
    obtain ⟨l', hl', ha⟩ := List.mem_flatten.mp ha
    rw [firsts_of_nodup hl]
    exact (List.mem_replicate.mp hl').2 ▸ ha
  rw [horder]
  refine ranked_eq_self ((pairwise_precedes hl).imp fun h => ?_)
  rw [fusedScore_replicate, fusedScore_replicate]
  exact mul_le_mul_of_nonneg_left (reciprocal_lt hk h).le (Nat.cast_nonneg _)

/-! ## Moving an item up -/

section Swap

variable {before after : List (List α)} {pre post : List α} {x : α}

theorem fusedScore_split (l : List α) :
    fusedScore k (before ++ l :: after) a
      = fusedScore k before a + reciprocal k l a + fusedScore k after a := by
  rw [fusedScore, List.map_append, List.map_cons, List.sum_append, List.sum_cons, ← add_assoc]
  rfl

omit [DecidableEq α] in
theorem mem_swap : a ∈ pre ++ b :: x :: post ↔ a ∈ pre ++ x :: b :: post := by
  simp only [List.mem_append, List.mem_cons]
  tauto

/-- The other items keep their places. -/
theorem idxOf_swap (hb : a ≠ b) (hx : a ≠ x) :
    (pre ++ b :: x :: post).idxOf a = (pre ++ x :: b :: post).idxOf a := by
  have hb' : (b == a) = false := beq_eq_false_iff_ne.mpr hb.symm
  have hx' : (x == a) = false := beq_eq_false_iff_ne.mpr hx.symm
  simp only [List.idxOf_append, List.idxOf_cons, hb', hx', cond_false]

theorem idxOf_pair (h : (pre ++ x :: b :: post).Nodup) :
    (pre ++ x :: b :: post).idxOf x = pre.length ∧
      (pre ++ x :: b :: post).idxOf b = pre.length + 1 := by
  obtain ⟨-, hrest, hdisjoint⟩ := List.nodup_append'.mp h
  have hx : x ∉ pre := fun hmem => hdisjoint hmem List.mem_cons_self
  have hb : b ∉ pre := fun hmem => hdisjoint hmem (List.mem_cons_of_mem _ List.mem_cons_self)
  have hne : (x == b) = false :=
    beq_eq_false_iff_ne.mpr fun heq => (List.nodup_cons.mp hrest).1 (heq ▸ List.mem_cons_self)
  rw [List.idxOf_append_of_notMem hx, List.idxOf_append_of_notMem hb]
  simp [List.idxOf_cons, hne]

omit [DecidableEq α] in
theorem nodup_swap (h : (pre ++ x :: b :: post).Nodup) : (pre ++ b :: x :: post).Nodup :=
  ((List.Perm.swap x b post).append_left pre).nodup_iff.mpr h

theorem reciprocal_swap_lt (hk : 0 < k) (h : (pre ++ x :: b :: post).Nodup) :
    reciprocal k (pre ++ x :: b :: post) b < reciprocal k (pre ++ b :: x :: post) b := by
  have hpos : (0 : ℚ) ≤ pre.length := Nat.cast_nonneg _
  rw [reciprocal, reciprocal, if_pos (by simp), if_pos (by simp), (idxOf_pair h).2,
    (idxOf_pair (nodup_swap h)).1]
  push_cast
  exact one_div_lt_one_div_of_lt (by linarith) (by linarith)

/-- Moving an item up past its predecessor does not move it down in the merge. -/
theorem idxOf_ranked_swap (hk : 0 < k) (h : (pre ++ x :: b :: post).Nodup) {order order' : List α}
    (horder : order.Nodup) (horder' : order'.Nodup) (hmem : ∀ a, a ∈ order' ↔ a ∈ order)
    (hb : b ∈ order) :
    (ranked (fusedScore k (before ++ (pre ++ b :: x :: post) :: after)) order').idxOf b
      ≤ (ranked (fusedScore k (before ++ (pre ++ x :: b :: post) :: after)) order).idxOf b := by
  have hup := reciprocal_swap_lt hk h
  have hdown := reciprocal_swap_lt hk (nodup_swap h)
  refine idxOf_le_of_precedes (nodup_ranked horder') (mem_ranked.mpr hb)
    (mem_ranked.mpr ((hmem b).mpr hb)) fun a hbefore => ?_
  have hne := hbefore.ne
  have ha := mem_ranked.mp hbefore.mem_left
  have hscore : fusedScore k (before ++ (pre ++ b :: x :: post) :: after) b
      ≤ fusedScore k (before ++ (pre ++ b :: x :: post) :: after) a := by
    rcases (precedes_ranked horder' ha ((hmem b).mpr hb) hne).mp hbefore with hlt | ⟨heq, -⟩
    · exact hlt.le
    · exact heq.ge
  refine (precedes_ranked horder ((hmem a).mp ha) hb hne).mpr (.inl ?_)
  rw [fusedScore_split, fusedScore_split] at hscore ⊢
  by_cases hax : a = x
  · subst hax
    linarith
  · have hsame : reciprocal k (pre ++ b :: x :: post) a = reciprocal k (pre ++ x :: b :: post) a := by
      rw [reciprocal, reciprocal, idxOf_swap hne hax]
      simp only [mem_swap]
    rw [hsame] at hscore
    linarith

end Swap

end RankFusion
