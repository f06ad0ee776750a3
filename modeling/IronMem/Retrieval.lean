import IronMem.Database
import IronMem.Lib.RankFusion

/-!
# Merging ranked candidates

`rrf_fuse` and what the rerankers make of it. The scores are exact rationals here.

The loop over the lists keeps a map of scores and the ids in the order in which they came
first. Of lists without repetitions that is the sum of the reciprocal ranks and the list of
first appearances (`addLists_spec`), so that the merge is a stable sort of the latter by the
former (`rrfFuse_eq`); the rest is arithmetic on ranks, in `RankFusion`. The search hands
over its signals with weights, and a weight is a number of copies (`fuseSignals_sound`).
-/

namespace IronMem

open RankFusion

def RRF_K : Int := 60

/-! ## `rrf_fuse` -/

/-- The score map and the ids in the order in which they came first. -/
structure Fusion where
  score : Int → Option ℚ := fun _ => none
  order : List Int := []

/-- `score.entry(id).or_insert_with(..)`, and the addition. -/
def Fusion.add (s : Fusion) (k : Int) (id : Int) (rank : Nat) : Fusion where
  order := if (s.score id).isNone then s.order ++ [id] else s.order
  score := fun j => if j = id then some ((s.score id).getD 0 + 1 / (k + rank)) else s.score j

/-- One ranked list. -/
def Fusion.addList (k : Int) (s : Fusion) (list : List Int) : Fusion :=
  list.zipIdx.foldl (fun s entry => s.add k entry.1 entry.2) s

/-- `rrf_fuse`. -/
def rrfFuse (lists : List (List Int)) (k : Int) : List Int :=
  let s := lists.foldl (Fusion.addList k) {}
  s.order.insertionSort fun a b => (s.score b).getD 0 ≤ (s.score a).getD 0

/-- `push_weighted_signal`. -/
def pushWeightedSignal (lists : List (List Int)) (signal : List Int) (weight : Nat) :
    List (List Int) :=
  if signal.isEmpty ∨ weight = 0 then lists
  else (List.range weight).foldl (fun lists _ => lists ++ [signal]) lists

/-- What `hybrid_search_in_namespace` makes of its signals and their weights: a list alone is
taken as it is. -/
def fuseSignals (signals : List (List Int × Nat)) : List Int :=
  match signals.foldl (fun lists signal => pushWeightedSignal lists signal.1 signal.2) [] with
  | [] => []
  | [list] => list
  | lists => rrfFuse lists RRF_K

/-! ## Reranking -/

/-- `parse::<usize>` of a run of digits. -/
def parseUsize (digits : List Char) : Option Nat :=
  let n := digits.foldl (fun n c => 10 * n + (c.toNat - 48)) 0
  if digits.isEmpty ∨ 2 ^ 64 ≤ n then none else some n

/-- One token of the reply: the numbers seen, and the positions collected. -/
def rerankToken (n : Nat) (s : List Nat × List Nat) (tok : List Char) : List Nat × List Nat :=
  match parseUsize tok with
  | some k => if 1 ≤ k ∧ k ≤ n ∧ k ∉ s.1 then (k :: s.1, s.2 ++ [k - 1]) else s
  | none => s

/-- `parse_rerank_order`. -/
def parseRerankOrder (text : String) (n : Nat) : List Nat :=
  ((text.toList.splitOnP fun c => !c.isDigit).foldl (rerankToken n) ([], [])).2

/-- The map from ids to memories: the last of an id counts. -/
def byId (base : List Memory) (id : Int) : Option Memory := base.reverse.find? fun m => m.id = id

/-- `fuse_rerank`. -/
def fuseRerank (base : List Memory) (order : List Nat) (limit : Nat) : List Memory :=
  if base.isEmpty then []
  else
    let baseIds := base.map (·.id)
    let llmIds := order.filterMap fun i => base[i]?.map (·.id)
    let fused := if llmIds.isEmpty then baseIds else rrfFuse [baseIds, llmIds] RRF_K
    (fused.take limit).filterMap (byId base)

/-! ## What the loop has added up

The map of scores and the list of ids are filled together. The invariant says of both what they
are after some of the lists. -/

section Loop

variable {k : Int} {s : Fusion} {list : List Int}

/-- The score so far. -/
def Fusion.total (s : Fusion) (id : Int) : ℚ := (s.score id).getD 0

/-- The ids with a score are the ones in the order. -/
def Fusion.Consistent (s : Fusion) : Prop := ∀ id, (s.score id).isSome = true ↔ id ∈ s.order

theorem Fusion.Consistent.add (h : s.Consistent) (id : Int) (rank : Nat) :
    (s.add k id rank).Consistent ∧
      (s.add k id rank).order = (if id ∈ s.order then s.order else s.order ++ [id]) ∧
        ∀ j, (s.add k id rank).total j
          = s.total j + if j = id then 1 / ((k : ℚ) + rank) else 0 := by
  have horder : (s.add k id rank).order = if id ∈ s.order then s.order else s.order ++ [id] := by
    show (if (s.score id).isNone then s.order ++ [id] else s.order) = _
    rw [← Option.not_isSome]
    by_cases hid : id ∈ s.order
    · rw [if_pos hid, (h id).mpr hid]
      rfl
    · rw [if_neg hid, Bool.eq_false_iff.mpr fun hsome => hid ((h id).mp hsome)]
      rfl
  refine ⟨fun j => ?_, horder, fun j => ?_⟩
  · rw [horder]
    show (if j = id then some _ else s.score j).isSome = true ↔ _
    by_cases hj : j = id
    · subst hj
      rw [if_pos rfl]
      split
      · next hmem => simp [hmem]
      · simp
    · rw [if_neg hj, h j]
      split
      · rfl
      · simp [hj]
  · show ((if j = id then some _ else s.score j).getD 0) = _
    by_cases hj : j = id
    · subst hj
      rw [if_pos rfl, if_pos rfl]
      rfl
    · rw [if_neg hj, if_neg hj, add_zero]
      rfl

/-- A list without repetitions adds its reciprocal ranks. -/
theorem Fusion.Consistent.addFrom (h : s.Consistent) (hlist : list.Nodup) (n : Nat) :
    ((list.zipIdx n).foldl (fun s entry => s.add k entry.1 entry.2) s).Consistent ∧
      ((list.zipIdx n).foldl (fun s entry => s.add k entry.1 entry.2) s).order
        = list.foldl (fun acc a => if a ∈ acc then acc else acc ++ [a]) s.order ∧
      ∀ j, ((list.zipIdx n).foldl (fun s entry => s.add k entry.1 entry.2) s).total j
        = s.total j + reciprocal ((k : ℚ) + n) list j := by
  induction list generalizing s n with
  | nil => exact ⟨h, rfl, fun j => by simp [reciprocal]⟩
  | cons id list ih =>
      obtain ⟨hid, hlist⟩ := List.nodup_cons.mp hlist
      obtain ⟨hconsistent, horder, htotal⟩ := h.add (k := k) id n
      obtain ⟨hconsistent', horder', htotal'⟩ := ih hconsistent hlist (n + 1)
      rw [List.zipIdx_cons, List.foldl_cons, List.foldl_cons, ← horder]
      refine ⟨hconsistent', horder', fun j => ?_⟩
      rw [htotal', htotal, reciprocal_cons hid, add_assoc]
      push_cast
      rw [add_assoc]

/-- All lists: the order of first appearance, and the sums of reciprocal ranks. -/
theorem addLists_spec {lists : List (List Int)} (hlists : ∀ l ∈ lists, l.Nodup)
    (h : s.Consistent) :
    (lists.foldl (Fusion.addList k) s).order
        = lists.flatten.foldl (fun acc a => if a ∈ acc then acc else acc ++ [a]) s.order ∧
      ∀ j, (lists.foldl (Fusion.addList k) s).total j = s.total j + fusedScore k lists j := by
  induction lists generalizing s with
  | nil => exact ⟨rfl, fun j => by simp [fusedScore]⟩
  | cons list lists ih =>
      obtain ⟨hlist, hrest⟩ := List.forall_mem_cons.mp hlists
      obtain ⟨hconsistent, horder, htotal⟩ := h.addFrom (k := k) hlist 0
      obtain ⟨horder', htotal'⟩ := ih hrest hconsistent
      rw [List.foldl_cons, List.flatten_cons, List.foldl_append, ← horder]
      refine ⟨horder', fun j => ?_⟩
      rw [Fusion.addList, htotal', htotal, fusedScore, fusedScore, List.map_cons, List.sum_cons,
        add_assoc]
      simp

end Loop

/-- `rrf_fuse` sorts the ids by their scores. -/
theorem rrfFuse_eq {lists : List (List Int)} (hlists : ∀ l ∈ lists, l.Nodup) (k : Int) :
    rrfFuse lists k = ranked (fusedScore k lists) (firsts lists.flatten) := by
  obtain ⟨horder, htotal⟩ := addLists_spec (k := k) (s := {}) hlists fun id => by simp
  have hscore : ∀ j, ((lists.foldl (Fusion.addList k) {}).score j).getD 0 = fusedScore k lists j :=
    fun j => (htotal j).trans (zero_add _)
  unfold rrfFuse
  simp only [hscore]
  rw [horder]
  rfl

theorem mem_rrfFuse {lists : List (List Int)} (hlists : ∀ l ∈ lists, l.Nodup) {k a : Int} :
    a ∈ rrfFuse lists k ↔ ∃ l ∈ lists, a ∈ l := by
  rw [rrfFuse_eq hlists, mem_ranked, mem_firsts, List.mem_flatten]

theorem nodup_rrfFuse {lists : List (List Int)} (hlists : ∀ l ∈ lists, l.Nodup) (k : Int) :
    (rrfFuse lists k).Nodup := by
  rw [rrfFuse_eq hlists]
  exact nodup_ranked (nodup_firsts _)

/-- Weights are copies. -/
theorem pushWeightedSignal_eq (lists : List (List Int)) (signal : List Int) (weight : Nat) :
    pushWeightedSignal lists signal weight
      = lists ++ List.replicate (if signal = [] then 0 else weight) signal := by
  have hpush : ∀ n, (List.range n).foldl (fun lists _ => lists ++ [signal]) lists
      = lists ++ List.replicate n signal := by
    intro n
    induction n with
    | zero => simp
    | succ n ih => simp [List.range_succ, List.foldl_append, ih, List.replicate_succ']
  unfold pushWeightedSignal
  by_cases hsignal : signal = []
  · simp [hsignal]
  · by_cases hweight : weight = 0
    · simp [hsignal, hweight]
    · rw [if_neg (by simp [hsignal, hweight]), if_neg hsignal, hpush]

/-- What is ahead of an id wherever that id is listed is ahead of it in the merge. -/
theorem precedes_rrfFuse {k : Int} (hk : 0 < k) {lists : List (List Int)}
    (hlists : ∀ l ∈ lists, l.Nodup) {a b : Int} (hb : b ∈ rrfFuse lists k)
    (hahead : ∀ l ∈ lists, b ∈ l → Precedes a b l) : Precedes a b (rrfFuse lists k) := by
  obtain ⟨l, hl, hbl⟩ := (mem_rrfFuse hlists).mp hb
  have ha : a ∈ rrfFuse lists k := (mem_rrfFuse hlists).mpr ⟨l, hl, (hahead l hl hbl).mem_left⟩
  rw [rrfFuse_eq hlists] at ha hb ⊢
  rw [precedes_ranked (nodup_firsts _) (mem_ranked.mp ha) (mem_ranked.mp hb) (hahead l hl hbl).ne]
  exact .inl (fusedScore_lt (Int.cast_pos.mpr hk) ⟨l, hl, hbl⟩ hahead)

section Signals

variable {signals : List (List Int × Nat)}

/-- The lists that are merged are the signals that are not empty and weigh something. -/
theorem mem_pushWeightedSignals (signals : List (List Int × Nat)) (lists : List (List Int))
    (l : List Int) :
    l ∈ signals.foldl (fun lists signal => pushWeightedSignal lists signal.1 signal.2) lists ↔
      l ∈ lists ∨ l ≠ [] ∧ ∃ s ∈ signals, s.1 = l ∧ 0 < s.2 := by
  induction signals generalizing lists with
  | nil => simp
  | cons signal signals ih =>
      rw [List.foldl_cons, ih, pushWeightedSignal_eq, List.mem_append, List.mem_replicate]
      by_cases hempty : signal.1 = []
      · simp only [hempty, if_true, ne_eq, not_true_eq_false, false_and, or_false,
          List.mem_cons, exists_eq_or_imp]
        constructor
        · rintro (h | ⟨hl, h⟩)
          · exact Or.inl h
          · exact Or.inr ⟨hl, Or.inr h⟩
        · rintro (h | ⟨hl, h | h⟩)
          · exact Or.inl h
          · exact absurd h.1.symm hl
          · exact Or.inr ⟨hl, h⟩
      · simp only [if_neg hempty, List.mem_cons, exists_eq_or_imp]
        constructor
        · rintro ((h | ⟨hweight, rfl⟩) | ⟨hl, h⟩)
          · exact Or.inl h
          · exact Or.inr ⟨hempty, Or.inl ⟨rfl, Nat.pos_of_ne_zero hweight⟩⟩
          · exact Or.inr ⟨hl, Or.inr h⟩
        · rintro (h | ⟨hl, ⟨rfl, hweight⟩ | h⟩)
          · exact Or.inl (Or.inl h)
          · exact Or.inl (Or.inr ⟨hweight.ne', rfl⟩)
          · exact Or.inr ⟨hl, h⟩

/-- The candidates are those of the signals that weigh something, each once, and one that is
behind another in all of these is behind it. -/
theorem fuseSignals_sound (hsignals : ∀ s ∈ signals, s.1.Nodup) :
    (fuseSignals signals).Nodup ∧
      (∀ a, a ∈ fuseSignals signals ↔ ∃ s ∈ signals, 0 < s.2 ∧ a ∈ s.1) ∧
      ∀ a b, b ∈ fuseSignals signals →
        (∀ s ∈ signals, 0 < s.2 → b ∈ s.1 → Precedes a b s.1) → Precedes a b (fuseSignals signals) := by
  have hmem := fun l => (mem_pushWeightedSignals signals [] l).trans
    (or_iff_right List.not_mem_nil)
  unfold fuseSignals
  generalize signals.foldl (fun lists signal => pushWeightedSignal lists signal.1 signal.2) [] = lists
    at hmem ⊢
  have hlists : ∀ l ∈ lists, l.Nodup := by
    intro l hl
    obtain ⟨-, s, hs, rfl, -⟩ := (hmem l).mp hl
    exact hsignals s hs
  have hlisted : ∀ a, (∃ l ∈ lists, a ∈ l) ↔ ∃ s ∈ signals, 0 < s.2 ∧ a ∈ s.1 := by
    intro a
    constructor
    · rintro ⟨l, hl, ha⟩
      obtain ⟨-, s, hs, rfl, hweight⟩ := (hmem l).mp hl
      exact ⟨s, hs, hweight, ha⟩
    · rintro ⟨s, hs, hweight, ha⟩
      exact ⟨s.1, (hmem s.1).mpr ⟨List.ne_nil_of_mem ha, s, hs, rfl, hweight⟩, ha⟩
  have hahead : ∀ {a b}, (∀ s ∈ signals, 0 < s.2 → b ∈ s.1 → Precedes a b s.1) →
      ∀ l ∈ lists, b ∈ l → Precedes a b l := by
    intro a b h l hl hb
    obtain ⟨-, s, hs, rfl, hweight⟩ := (hmem l).mp hl
    exact h s hs hweight hb
  split
  · refine ⟨List.nodup_nil, fun a => ?_, fun a b hb => absurd hb List.not_mem_nil⟩
    rw [← hlisted]
    simp
  · next list =>
      refine ⟨hlists list List.mem_cons_self, fun a => ?_, fun a b hb h =>
        hahead h list List.mem_cons_self hb⟩
      rw [← hlisted]
      simp
  · exact ⟨nodup_rrfFuse hlists RRF_K, fun a => (mem_rrfFuse hlists).trans (hlisted a),
      fun a b hb h => precedes_rrfFuse (by decide) hlists hb (hahead h)⟩

end Signals

/-- The merge is sound and monotone. -/
theorem rrfFuse_sound {k : Int} (hk : 0 < k) {lists : List (List Int)} (hlists : ∀ l ∈ lists, l.Nodup) :
    ((rrfFuse lists k).Nodup ∧ ∀ a, a ∈ rrfFuse lists k ↔ ∃ l ∈ lists, a ∈ l) ∧
      (∀ a b, b ∈ rrfFuse lists k → (∀ l ∈ lists, b ∈ l → Precedes a b l) →
        Precedes a b (rrfFuse lists k)) ∧
      (∀ before pre x b post after, lists = before ++ (pre ++ x :: b :: post) :: after →
        (rrfFuse (before ++ (pre ++ b :: x :: post) :: after) k).idxOf b
          ≤ (rrfFuse lists k).idxOf b) ∧
      ∀ l n, lists = List.replicate (n + 1) l → rrfFuse lists k = l := by
  have hk' : (0 : ℚ) < k := Int.cast_pos.mpr hk
  refine ⟨⟨nodup_rrfFuse hlists k, fun a => mem_rrfFuse hlists⟩,
    fun a b => precedes_rrfFuse hk hlists, ?_, ?_⟩
  · rintro before pre x b post after rfl
    have hnodup := hlists _ (List.mem_append_right _ List.mem_cons_self)
    have hlists' : ∀ l ∈ before ++ (pre ++ b :: x :: post) :: after, l.Nodup := by
      intro l hl
      rcases List.mem_append.mp hl with hl | hl
      · exact hlists l (List.mem_append_left _ hl)
      · rcases List.mem_cons.mp hl with rfl | hl
        · exact nodup_swap hnodup
        · exact hlists l (List.mem_append_right _ (List.mem_cons_of_mem _ hl))
    rw [rrfFuse_eq hlists, rrfFuse_eq hlists']
    refine idxOf_ranked_swap hk' hnodup (nodup_firsts _) (nodup_firsts _) (fun a => ?_) ?_
    · rw [mem_firsts, mem_firsts]
      simp only [List.flatten_append, List.flatten_cons, List.mem_append, List.mem_cons]
      tauto
    · rw [mem_firsts, List.mem_flatten]
      exact ⟨_, List.mem_append_right _ List.mem_cons_self, by simp⟩
  · rintro l n rfl
    rw [rrfFuse_eq hlists]
    exact ranked_replicate hk' (hlists l (List.mem_replicate.mpr ⟨Nat.succ_ne_zero n, rfl⟩)) n

theorem rrfFuse_sound_three : ((rrfFuse [[1, 2, 3], [3, 1, 4]] 60).Nodup ∧
      ∀ a, a ∈ rrfFuse [[1, 2, 3], [3, 1, 4]] 60 ↔ ∃ l ∈ [[1, 2, 3], [3, 1, 4]], a ∈ l) ∧
    (∀ a b, b ∈ rrfFuse [[1, 2, 3], [3, 1, 4]] 60 →
      (∀ l ∈ [[1, 2, 3], [3, 1, 4]], b ∈ l → Precedes a b l) →
        Precedes a b (rrfFuse [[1, 2, 3], [3, 1, 4]] 60)) ∧
    (∀ before pre x b post after, [[1, 2, 3], [3, 1, 4]] = before ++ (pre ++ x :: b :: post) :: after →
      (rrfFuse (before ++ (pre ++ b :: x :: post) :: after) 60).idxOf b
        ≤ (rrfFuse [[1, 2, 3], [3, 1, 4]] 60).idxOf b) ∧
    ∀ l n, [[1, 2, 3], [3, 1, 4]] = List.replicate (n + 1) l →
      rrfFuse [[1, 2, 3], [3, 1, 4]] 60 = l :=
  rrfFuse_sound (by decide) (by decide)

end IronMem
