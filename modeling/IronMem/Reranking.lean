import Mathlib.Tactic.FieldSimp
import Mathlib.Tactic.NormNum
import IronMem.Retrieval

/-!
# What a rerank can evict

`fuse_rerank` adds the reciprocal ranks of the reply to those of the base order. What the reply
lists high gains up to as much as the first place of the base is worth, so the first memory of the
base loses its place to any candidate that stands high enough in both lists, and enough of these
push it out.

The reply is read as a list of positions without repetitions (`OrderSeen`), whatever it says.
The ids are then fused as in `Retrieval`, and comparing two scores is comparing the positions
they are made of (`score_lt_iff`): with `i` and `j` the positions of a candidate, it outranks
the first memory when `Outranks` says so, in whole numbers and without a division. The first
memory stands behind exactly these (`idxOf_first`).
-/

namespace IronMem

open RankFusion

/-! ## The reply -/

/-- The positions a reply names, as the loop collects them. -/
structure OrderSeen (n : Nat) (s : List Nat × List Nat) : Prop where
  nodup : s.2.Nodup
  valid : ∀ i ∈ s.2, i < n ∧ i + 1 ∈ s.1

theorem rerankToken_orderSeen {n : Nat} {s : List Nat × List Nat} (hs : OrderSeen n s)
    (tok : List Char) : OrderSeen n (rerankToken n s tok) := by
  unfold rerankToken
  cases parseUsize tok with
  | none => exact hs
  | some k =>
      show OrderSeen n (if 1 ≤ k ∧ k ≤ n ∧ k ∉ s.1 then (k :: s.1, s.2 ++ [k - 1]) else s)
      split
      · next hk =>
          obtain ⟨hpos, hle, hnew⟩ := hk
          have hback : k - 1 + 1 = k := by omega
          refine ⟨hs.nodup.append (List.nodup_singleton _) ?_, fun i hi => ?_⟩
          · rw [List.disjoint_singleton]
            exact fun hmem => hnew (hback ▸ (hs.valid _ hmem).2)
          · rcases List.mem_append.mp hi with hi | hi
            · exact ⟨(hs.valid i hi).1, List.mem_cons_of_mem _ (hs.valid i hi).2⟩
            · obtain rfl := List.mem_singleton.mp hi
              exact ⟨by omega, hback ▸ List.mem_cons_self⟩
      · exact hs

theorem parseRerankOrder_orderSeen (text : String) (n : Nat) :
    (parseRerankOrder text n).Nodup ∧ ∀ i ∈ parseRerankOrder text n, i < n := by
  have hloop : ∀ (toks : List (List Char)) (s : List Nat × List Nat), OrderSeen n s →
      OrderSeen n (toks.foldl (rerankToken n) s) := by
    intro toks
    induction toks with
    | nil => exact fun s hs => hs
    | cons tok toks ih => exact fun s hs => ih _ (rerankToken_orderSeen hs tok)
  obtain ⟨hnodup, hvalid⟩ := hloop (text.toList.splitOnP fun c => !c.isDigit) ([], [])
    ⟨List.nodup_nil, fun i hi => absurd hi List.not_mem_nil⟩
  exact ⟨hnodup, fun i hi => (hvalid i hi).1⟩

/-! ## The guarantee -/

/-- What the reranker promises. -/
structure RerankGuarantee (base : List Memory) (order : List Nat) (limit : Nat) : Prop where
  distinct : (fuseRerank base order limit).Nodup
  fromBase : ∀ m ∈ fuseRerank base order limit, m ∈ base
  count : (fuseRerank base order limit).length = min limit base.length
  fallback : order = [] → fuseRerank base order limit = base.take limit
  keepsFirst : ∀ m, base.head? = some m → m ∈ fuseRerank base order limit

/-- A listed candidate scores more than the first memory of the base. The candidate has
base rank `i` and place `j` in the reply; the first memory has place `p` in the reply, or
none. -/
def Outranks (order : List Nat) (i : Nat) : Prop :=
  let j := order.idxOf i
  let p := order.idxOf 0
  i ≠ 0 ∧ if 0 ∈ order then (120 + p) * ((60 + i) * (60 + j)) < (60 * (60 + p)) * (120 + i + j)
    else i * j < 3600

instance (order : List Nat) : DecidablePred (Outranks order) := fun i => by
  unfold Outranks
  infer_instance

section Rerank

variable {base : List Memory} {order : List Nat} {limit : Nat}

theorem byId_of_mem (hids : (base.map (·.id)).Nodup) {m : Memory} (hm : m ∈ base) :
    byId base m.id = some m := by
  have hsome : (byId base m.id).isSome = true :=
    List.find?_isSome.mpr ⟨m, List.mem_reverse.mpr hm, by simp⟩
  obtain ⟨m', hm'⟩ := Option.isSome_iff_exists.mp hsome
  have hid : m'.id = m.id := by simpa using List.find?_some hm'
  have hmem := List.mem_reverse.mp (List.mem_of_find?_eq_some hm')
  rw [hm', List.inj_on_of_nodup_map hids hmem hm hid]

/-- The id at a position. -/
def idAt (base : List Memory) (i : Nat) : Int := (base[i]?.map (·.id)).getD 0

theorem ids_eq (base : List Memory) : base.map (·.id) = (List.range base.length).map (idAt base) := by
  refine List.ext_getElem (by simp) fun i hi _ => ?_
  rw [List.length_map] at hi
  simp [idAt, hi]

theorem mem_ids {id : Int} : id ∈ base.map (·.id) ↔ ∃ i < base.length, idAt base i = id := by
  rw [ids_eq, List.mem_map]
  exact exists_congr fun i => and_congr_left' List.mem_range

theorem llmIds_eq (hvalid : ∀ i ∈ order, i < base.length) :
    (order.filterMap fun i => base[i]?.map (·.id)) = order.map (idAt base) := by
  rw [← List.filterMap_eq_map]
  refine List.filterMap_congr fun i hi => ?_
  simp [idAt, hvalid i hi]

theorem idAt_inj (hids : (base.map (·.id)).Nodup) {i j : Nat} (hi : i < base.length)
    (hj : j < base.length) (h : idAt base i = idAt base j) : i = j := by
  rw [ids_eq] at hids
  exact List.inj_on_of_nodup_map hids (List.mem_range.mpr hi) (List.mem_range.mpr hj) h

/-- The ids in the order the limit cuts. -/
def fusedIds (base : List Memory) (order : List Nat) : List Int :=
  if (order.map (idAt base)).isEmpty then base.map (·.id)
  else rrfFuse [base.map (·.id), order.map (idAt base)] RRF_K

theorem fuseRerank_eq (hvalid : ∀ i ∈ order, i < base.length) :
    fuseRerank base order limit = ((fusedIds base order).take limit).filterMap (byId base) := by
  unfold fuseRerank
  cases base with
  | nil =>
      have hnone : ∀ ids : List Int, ids.filterMap (byId []) = [] := fun ids =>
        List.filterMap_eq_nil_iff.mpr fun id _ => rfl
      rw [if_pos List.isEmpty_nil, hnone]
  | cons m base =>
      rw [if_neg (by simp), llmIds_eq hvalid]
      rfl

theorem fusedLists_nodup (hids : (base.map (·.id)).Nodup) (horder : order.Nodup)
    (hvalid : ∀ i ∈ order, i < base.length) :
    ∀ l ∈ [base.map (·.id), order.map (idAt base)], l.Nodup := by
  rw [List.forall_mem_cons, List.forall_mem_singleton]
  refine ⟨hids, horder.map_on fun i hi j hj h => ?_⟩
  exact idAt_inj hids (hvalid i hi) (hvalid j hj) h

theorem fusedIds_spec (hids : (base.map (·.id)).Nodup) (horder : order.Nodup)
    (hvalid : ∀ i ∈ order, i < base.length) :
    (fusedIds base order).Nodup ∧ ∀ id, id ∈ fusedIds base order ↔ id ∈ base.map (·.id) := by
  unfold fusedIds
  split
  · exact ⟨hids, fun id => Iff.rfl⟩
  · have hlists := fusedLists_nodup hids horder hvalid
    refine ⟨nodup_rrfFuse hlists _, fun id => ?_⟩
    rw [mem_rrfFuse hlists]
    simp only [List.mem_cons, List.not_mem_nil, or_false, exists_eq_or_imp, exists_eq_left]
    refine ⟨fun h => h.elim (fun h => h) fun hllm => ?_, Or.inl⟩
    obtain ⟨i, hi, rfl⟩ := List.mem_map.mp hllm
    exact mem_ids.mpr ⟨i, hvalid i hi, rfl⟩

theorem ids_filterMap_byId (hids : (base.map (·.id)).Nodup) {ids : List Int}
    (h : ∀ id ∈ ids, id ∈ base.map (·.id)) :
    (ids.filterMap (byId base)).map (·.id) = ids ∧ ∀ m ∈ ids.filterMap (byId base), m ∈ base := by
  induction ids with
  | nil => exact ⟨rfl, fun m hm => absurd hm List.not_mem_nil⟩
  | cons id ids ih =>
      obtain ⟨hid, hrest⟩ := List.forall_mem_cons.mp h
      obtain ⟨m, hm, rfl⟩ := List.mem_map.mp hid
      obtain ⟨hmap, hmem⟩ := ih hrest
      rw [List.filterMap_cons_some (byId_of_mem hids hm), List.map_cons, hmap]
      exact ⟨rfl, List.forall_mem_cons.mpr ⟨hm, hmem⟩⟩

theorem filterMap_byId_map (hids : (base.map (·.id)).Nodup) {l : List Memory}
    (h : ∀ m ∈ l, m ∈ base) : (l.map (·.id)).filterMap (byId base) = l := by
  induction l with
  | nil => rfl
  | cons m l ih =>
      obtain ⟨hm, hl⟩ := List.forall_mem_cons.mp h
      rw [List.map_cons, List.filterMap_cons_some (byId_of_mem hids hm), ih hl]

/-- What always holds: distinct memories of the base, as many as there can be. -/
theorem fuseRerank_spec (hids : (base.map (·.id)).Nodup) (horder : order.Nodup)
    (hvalid : ∀ i ∈ order, i < base.length) (limit : Nat) :
    (fuseRerank base order limit).map (·.id) = (fusedIds base order).take limit ∧
      ∀ m ∈ fuseRerank base order limit, m ∈ base := by
  rw [fuseRerank_eq hvalid]
  refine ids_filterMap_byId hids fun id hid => ?_
  exact ((fusedIds_spec hids horder hvalid).2 id).mp (List.mem_of_mem_take hid)

theorem length_fusedIds (hids : (base.map (·.id)).Nodup) (horder : order.Nodup)
    (hvalid : ∀ i ∈ order, i < base.length) : (fusedIds base order).length = base.length := by
  obtain ⟨hnodup, hmem⟩ := fusedIds_spec hids horder hvalid
  rw [((List.perm_ext_iff_of_nodup hnodup hids).mpr hmem).length_eq, List.length_map]

/-! ## Scores

Both scores are sums of two reciprocals with whole denominators. Clearing these gives
`Outranks`, an inequality between products of positions that can be evaluated. -/

theorem score_idAt (hids : (base.map (·.id)).Nodup) (hvalid : ∀ i ∈ order, i < base.length) {i : Nat}
    (hi : i < base.length) :
    fusedScore (RRF_K : ℚ) [base.map (·.id), order.map (idAt base)] (idAt base i)
      = 1 / (60 + i) + reciprocal 60 order i := by
  have hbase : reciprocal 60 (base.map (·.id)) (idAt base i) = 1 / (60 + (i : ℚ)) := by
    have hidx : (List.range base.length).idxOf i = i := by
      have hget := List.nodup_range.idxOf_getElem i (by simpa using hi)
      rwa [List.getElem_range] at hget
    rw [ids_eq, reciprocal_map fun c hc h => idAt_inj hids (List.mem_range.mp hc) hi h, reciprocal,
      if_pos (List.mem_range.mpr hi), hidx]
  have hllm : reciprocal 60 (order.map (idAt base)) (idAt base i) = reciprocal 60 order i :=
    reciprocal_map fun c hc h => idAt_inj hids (hvalid c hc) hi h
  have hk : (RRF_K : ℚ) = 60 := by
    show ((60 : Int) : ℚ) = 60
    norm_num
  rw [hk, fusedScore, List.map_cons, List.map_cons, List.map_nil, List.sum_cons, List.sum_cons,
    List.sum_nil, add_zero, hbase, hllm]

/-- Comparing the scores is comparing positions. -/
theorem score_lt_iff (order : List Nat) (i : Nat) :
    1 / (60 + ((0 : Nat) : ℚ)) + reciprocal 60 order 0 < 1 / (60 + (i : ℚ)) + reciprocal 60 order i ↔
      i ∈ order ∧ Outranks order i := by
  have hi : (0 : ℚ) ≤ i := Nat.cast_nonneg i
  by_cases hlisted : i ∈ order
  · set j := order.idxOf i with hj
    set p := order.idxOf 0 with hp
    have hj0 : (0 : ℚ) ≤ j := Nat.cast_nonneg j
    have hp0 : (0 : ℚ) ≤ p := Nat.cast_nonneg p
    have hright : 1 / (60 + (i : ℚ)) + reciprocal 60 order i
        = (120 + i + j) / ((60 + i) * (60 + j)) := by
      rw [reciprocal, if_pos hlisted, ← hj, div_add_div _ _ (by linarith) (by linarith)]
      congr 1
      ring
    by_cases hzero : i = 0
    · subst hzero
      simp [Outranks]
    have hscores : Outranks order i ↔ if 0 ∈ order
        then (120 + p) * ((60 + i) * (60 + j)) < (60 * (60 + p)) * (120 + i + j) else i * j < 3600 :=
      and_iff_right hzero
    rw [hright, hscores]
    simp only [hlisted, true_and]
    by_cases hfirst : 0 ∈ order
    · have hleft : 1 / (60 + ((0 : Nat) : ℚ)) + reciprocal 60 order 0
          = (120 + p) / (60 * (60 + p)) := by
        rw [reciprocal, if_pos hfirst, ← hp, Nat.cast_zero, add_zero,
          div_add_div _ _ (by norm_num) (by linarith)]
        congr 1
        ring
      rw [if_pos hfirst, hleft, div_lt_div_iff₀ (by positivity) (by positivity),
        mul_comm (120 + (i : ℚ) + j)]
      exact_mod_cast Iff.rfl
    · have hleft : 1 / (60 + ((0 : Nat) : ℚ)) + reciprocal 60 order 0 = 1 / 60 := by
        rw [reciprocal, if_neg hfirst, Nat.cast_zero, add_zero, add_zero]
      have hcast : i * j < 3600 ↔ (i : ℚ) * j < 3600 := by exact_mod_cast Iff.rfl
      rw [if_neg hfirst, hleft, hcast, div_lt_div_iff₀ (by norm_num) (by positivity)]
      constructor
      · intro h
        linarith
      · intro h
        linarith
  · have hle : 1 / (60 + (i : ℚ)) ≤ 1 / (60 + ((0 : Nat) : ℚ)) :=
      one_div_le_one_div_of_le (by simp) (by simp)
    have hpos := reciprocal_nonneg (k := 60) (by norm_num) order 0
    rw [reciprocal, reciprocal, if_neg hlisted] at *
    simp only [hlisted, false_and, iff_false, not_lt, add_zero]
    linarith

/-- The first memory stands behind those that outrank it. -/
theorem idxOf_first (hids : (base.map (·.id)).Nodup) (horder : order.Nodup)
    (hvalid : ∀ i ∈ order, i < base.length) {m : Memory} (hm : base.head? = some m) :
    (fusedIds base order).idxOf m.id = (order.filter fun i => Outranks order i).length := by
  obtain ⟨rest, hbase⟩ := List.head?_eq_some_iff.mp hm
  have hlength : 0 < base.length := by rw [hbase]; exact Nat.succ_pos _
  have hfirst : m.id = idAt base 0 := by rw [hbase]; rfl
  have hhead : (base.map (·.id)).head? = some m.id := by rw [hbase]; rfl
  unfold fusedIds
  split
  · next hempty =>
      obtain rfl := List.map_eq_nil_iff.mp (List.isEmpty_iff.mp hempty)
      rw [hbase, List.map_cons, List.idxOf_cons_self]
      rfl
  · have hlists := fusedLists_nodup hids horder hvalid
    have hfirsts : firsts [base.map (·.id), order.map (idAt base)].flatten = base.map (·.id) := by
      rw [List.flatten_cons, List.flatten_singleton, firsts_append_of_subset, firsts_of_nodup hids]
      intro id hid
      obtain ⟨i, hi, rfl⟩ := List.mem_map.mp hid
      rw [firsts_of_nodup hids, mem_ids]
      exact ⟨i, hvalid i hi, rfl⟩
    rw [rrfFuse_eq hlists, hfirsts, idxOf_ranked_first hids hhead]
    -- the ids that score more are those of the listed positions that outrank the first
    have hperm : ((base.map (·.id)).filter fun id =>
        fusedScore (RRF_K : ℚ) [base.map (·.id), order.map (idAt base)] m.id
          < fusedScore (RRF_K : ℚ) [base.map (·.id), order.map (idAt base)] id).Perm
        ((order.filter fun i => Outranks order i).map (idAt base)) := by
      have hright : ((order.filter fun i => Outranks order i).map (idAt base)).Nodup :=
        (horder.filter _).map_on fun i hi j hj h =>
          idAt_inj hids (hvalid i (List.mem_of_mem_filter hi)) (hvalid j (List.mem_of_mem_filter hj)) h
      refine (List.perm_ext_iff_of_nodup (hids.filter _) hright).mpr fun id => ?_
      rw [List.mem_filter, decide_eq_true_eq, hfirst, score_idAt hids hvalid hlength, mem_ids]
      constructor
      · rintro ⟨⟨i, hi, rfl⟩, hscore⟩
        rw [score_idAt hids hvalid hi] at hscore
        obtain ⟨hlisted, houtranks⟩ := (score_lt_iff order i).mp hscore
        exact List.mem_map.mpr ⟨i, List.mem_filter.mpr ⟨hlisted, decide_eq_true houtranks⟩, rfl⟩
      · intro hid
        obtain ⟨i, hi, rfl⟩ := List.mem_map.mp hid
        obtain ⟨hlisted, houtranks⟩ := List.mem_filter.mp hi
        have hlt := hvalid i hlisted
        refine ⟨⟨i, hlt, rfl⟩, ?_⟩
        · rw [score_idAt hids hvalid hlt]
          exact (score_lt_iff order i).mpr ⟨hlisted, of_decide_eq_true houtranks⟩
    rw [hperm.length_eq, List.length_map]

/-- The reranker keeps its promise exactly when fewer candidates than the limit outrank the
first memory of the base. -/
theorem rerank_guarantee_iff (hids : (base.map (·.id)).Nodup) (hlimit : 2 ≤ limit) (reply : String) :
    RerankGuarantee base (parseRerankOrder reply base.length) limit ↔
      ((parseRerankOrder reply base.length).filter fun i =>
        Outranks (parseRerankOrder reply base.length) i).length < limit := by
  obtain ⟨horder, hvalid⟩ := parseRerankOrder_orderSeen reply base.length
  generalize parseRerankOrder reply base.length = order at horder hvalid ⊢
  obtain ⟨hmap, hmem⟩ := fuseRerank_spec hids horder hvalid limit
  obtain ⟨hnodup, hsame⟩ := fusedIds_spec hids horder hvalid
  have hkept : ∀ m, base.head? = some m → (m ∈ fuseRerank base order limit ↔
      (order.filter fun i => Outranks order i).length < limit) := by
    intro m hm
    have hmb := List.mem_of_mem_head? hm
    have hmids : m.id ∈ fusedIds base order := (hsame m.id).mpr (List.mem_map.mpr ⟨m, hmb, rfl⟩)
    rw [← idxOf_first hids horder hvalid hm, ← List.mem_take_iff_idxOf_lt hmids, ← hmap, List.mem_map]
    constructor
    · exact fun h => ⟨m, h, rfl⟩
    · rintro ⟨m', hm', hid⟩
      exact List.inj_on_of_nodup_map hids (hmem m' hm') hmb hid ▸ hm'
  constructor
  · intro hguarantee
    cases hhead : base.head? with
    | none =>
        have horder_nil : order = [] := by
          refine List.eq_nil_iff_forall_not_mem.mpr fun i hi => ?_
          have hlt := hvalid i hi
          rw [List.head?_eq_none_iff.mp hhead] at hlt
          exact absurd hlt (Nat.not_lt_zero i)
        rw [horder_nil]
        show 0 < limit
        omega
    | some m => exact (hkept m hhead).mp (hguarantee.keepsFirst m hhead)
  · intro hfew
    refine ⟨?_, hmem, ?_, ?_, fun m hm => (hkept m hm).mpr hfew⟩
    · refine List.Nodup.of_map (·.id) ?_
      rw [hmap]
      exact hnodup.sublist (List.take_sublist ..)
    · rw [← List.length_map (f := (·.id)), hmap, List.length_take, length_fusedIds hids horder hvalid]
    · rintro rfl
      have hfused : fusedIds base [] = base.map (·.id) := rfl
      rw [fuseRerank_eq hvalid, hfused, ← List.map_take]
      exact filterMap_byId_map hids fun m hm => List.mem_of_mem_take hm

end Rerank

/-! ## Two named candidates -/

def rankedNote (id : Int) (summary : String) : Memory := ⟨id, "notes", "s1", summary, none, 100⟩

def rankedNotes : List Memory := [rankedNote 10 "the answer", rankedNote 11 "b", rankedNote 12 "c"]

/-- With room for two, a reply that names the second and the third evicts the first. -/
theorem rerank_evicts_first : (rankedNotes.map (·.id)).Nodup ∧
    ¬ RerankGuarantee rankedNotes (parseRerankOrder "2,3" rankedNotes.length) 2 := by
  refine ⟨by decide, fun hguarantee => ?_⟩
  have hfirst := hguarantee.keepsFirst (rankedNote 10 "the answer") rfl
  revert hfirst
  decide +kernel

theorem rerank_guarantee_one_name :
    RerankGuarantee rankedNotes (parseRerankOrder "3" rankedNotes.length) 2 ↔
      ((parseRerankOrder "3" rankedNotes.length).filter fun i =>
        Outranks (parseRerankOrder "3" rankedNotes.length) i).length < 2 :=
  rerank_guarantee_iff (by decide) (Nat.le_refl 2) "3"

end IronMem
