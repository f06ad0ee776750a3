import IronMem.Database
import IronMem.Lib.Pick

/-!
# The quotas at the end of retrieval

Two quotas compete for the slots of the final list. Exact lexical evidence is promoted
to the front, and part of the slots is reserved for memories that are not facts. For
every limit of at least one they come out even: the reserved slots leave room for the
promoted ids. A limit of zero still reserves one slot.

Both are scans with a set of what was seen. Without the sets they are filters and takes
of the ranked list: the promoted ids before the others (`promoteSourceFactFloor_eq`), the
reserved slots and then the filled ones (`reservedIds`, `filledIds`), sorted by rank at the
end. The final list is compared with the ranking it was made from (`WellFormedSelection`):
nothing is listed twice, both quotas are met, and apart from the promoted ids, of two facts
the higher one is chosen first, and so it is of two memories that are none.
-/

namespace IronMem

open Pick

/-! ## The two quotas -/

def SOURCE_FACT_FLOOR_MAX_SLOTS : Nat := 5

/-- `source_fact_floor_slots`. -/
def sourceFactFloorSlots (limit : Nat) : Nat :=
  if limit = 0 then 0 else max 1 (min (limit / 5) SOURCE_FACT_FLOOR_MAX_SLOTS)

/-- `promote_source_fact_floor`. The set `seen` always holds what is listed. -/
def promoteSourceFactFloor (candidates floorIds : List Int) (limit : Nat) : List Int :=
  if floorIds.isEmpty || decide (candidates.length ≤ limit) || limit == 0 then candidates
  else
    let promoted := pick (sourceFactFloorSlots limit)
      (fun promoted id => candidates.contains id && decide (id ∉ promoted)) [] floorIds
    if promoted.isEmpty then candidates
    else candidates.foldl (fun out id => if id ∈ out then out else out ++ [id]) promoted

/-- `kinds_for_memories`: the kind of a memory, where it has metadata. -/
def Database.kindOf (db : Database) (id : Int) : Option String :=
  (db.metaRow id).bind fun r => r.text "kind"

/-- A memory without a kind is no fact. -/
def Database.isFact (db : Database) (id : Int) : Bool := db.kindOf id == some "fact"

/-- The positions of the ids, the last one where an id occurs twice. -/
def rankMap (candidates : List Int) : Std.ExtTreeMap Int Nat :=
  candidates.zipIdx.foldl (fun m e => m.insert e.1 e.2) ∅

/-- The slots reserved for what is no fact. -/
def narrativeSlots (limit : Nat) : Nat := max (limit * 2 / 5) 1

/-- `reserve_narrative_slots`. The set `taken` always holds what is chosen. -/
def reserveNarrativeSlots (db : Database) (candidates : List Int) (limit : Nat) : List Int :=
  if candidates.length ≤ limit then candidates
  else
    let chosen := pick (narrativeSlots limit) (fun _ id => !db.isFact id) [] candidates
    let chosen := pick limit (fun chosen id => true && decide (id ∉ chosen)) chosen candidates
    let rank := rankMap candidates
    chosen.insertionSort fun a b => (rank[a]?).getD 0 ≤ (rank[b]?).getD 0

/-! ## What the scans come to

A scan that skips what it has seen is a filter, on a list without repetitions. The slots a scan
has left are a `take`, so that each pass is one expression in the ranked list. -/

section Scans

variable {db : Database} {candidates floorIds : List Int} {limit : Nat} {id : Int}

/-- The ids that are promoted. -/
def promotedIds (candidates floorIds : List Int) (limit : Nat) : List Int :=
  if candidates.length ≤ limit then []
  else ((floorIds.filter fun id => candidates.contains id).eraseDups).take (sourceFactFloorSlots limit)

theorem foldl_unlisted (hnodup : candidates.Nodup) (out : List Int) :
    candidates.foldl (fun out id => if id ∈ out then out else out ++ [id]) out
      = out ++ candidates.filter fun id => decide (id ∉ out) := by
  induction candidates generalizing out with
  | nil => simp
  | cons a rest ih =>
      rw [List.nodup_cons] at hnodup
      rw [List.foldl_cons]
      by_cases ha : a ∈ out
      · rw [if_pos ha, ih hnodup.2, List.filter_cons_of_neg (by simpa using ha)]
      · have hrest : (rest.filter fun id => decide (id ∉ out ++ [a]))
            = rest.filter fun id => decide (id ∉ out) := by
          refine List.filter_congr fun b hb => ?_
          have hne : b ≠ a := fun hba => hnodup.1 (hba ▸ hb)
          simp [hne]
        rw [if_neg ha, ih hnodup.2, hrest, List.filter_cons_of_pos (by simpa using ha),
          List.append_assoc, List.singleton_append]

/-- The promoted ids come first, the others keep their order. -/
theorem promoteSourceFactFloor_eq (hnodup : candidates.Nodup) :
    promoteSourceFactFloor candidates floorIds limit
      = promotedIds candidates floorIds limit
        ++ candidates.filter fun id => decide (id ∉ promotedIds candidates floorIds limit) := by
  have hnone : candidates = [] ++ candidates.filter fun id => decide (id ∉ ([] : List Int)) := by
    simp
  unfold promoteSourceFactFloor
  split
  · next hearly =>
      have hempty : promotedIds candidates floorIds limit = [] := by
        rw [Bool.or_eq_true, Bool.or_eq_true, List.isEmpty_iff, decide_eq_true_eq, beq_iff_eq]
          at hearly
        rw [promotedIds]
        rcases hearly with (rfl | hshort) | rfl
        · simp
        · rw [if_pos hshort]
        · simp [sourceFactFloorSlots]
      rw [hempty]
      exact hnone
  · next hlate =>
      simp only [Bool.or_eq_true, decide_eq_true_eq, not_or] at hlate
      have hpick := @pick_fresh _ (sourceFactFloorSlots limit) _ (fun id => candidates.contains id)
        [] floorIds
      simp only [List.not_mem_nil, not_false_eq_true, decide_true, Bool.and_true, List.nil_append,
        List.length_nil, Nat.sub_zero] at hpick
      rw [hpick, promotedIds, if_neg hlate.1.2]
      dsimp only
      split
      · next hempty =>
          rw [List.isEmpty_iff] at hempty
          rw [hempty]
          exact hnone
      · exact foldl_unlisted hnodup _

/-- The rank of an id is its position. -/
theorem rankMap_getElem? (hnodup : candidates.Nodup) (hid : id ∈ candidates) :
    (rankMap candidates)[id]? = some (candidates.idxOf id) := by
  have hfold : ∀ (l : List Int) (k : Nat) (m : Std.ExtTreeMap Int Nat), l.Nodup →
      ((l.zipIdx k).foldl (fun (m : Std.ExtTreeMap Int Nat) e => m.insert e.1 e.2) m)[id]?
        = if id ∈ l then some (k + l.idxOf id) else m[id]? := by
    intro l
    induction l with
    | nil => intro k m _; simp
    | cons a rest ih =>
        intro k m hl
        rw [List.nodup_cons] at hl
        rw [List.zipIdx_cons, List.foldl_cons, ih _ _ hl.2]
        by_cases hrest : id ∈ rest
        · have hne : a ≠ id := fun ha => hl.1 (ha ▸ hrest)
          rw [if_pos hrest, if_pos (List.mem_cons_of_mem _ hrest), List.idxOf_cons_ne _ hne]
          congr 1
          omega
        · rw [if_neg hrest, Std.ExtTreeMap.getElem?_insert]
          by_cases ha : a = id
          · subst ha
            simp
          · rw [if_neg (by simpa using ha), if_neg (by simpa [hrest] using fun h => ha h.symm)]
  rw [rankMap, hfold candidates 0 ∅ hnodup, if_pos hid, Nat.zero_add]

/-- The memories the reserved slots go to. -/
def reservedIds (db : Database) (candidates : List Int) (limit : Nat) : List Int :=
  (candidates.filter fun id => !db.isFact id).take (narrativeSlots limit)

/-- The memories the other slots go to. -/
def filledIds (db : Database) (candidates : List Int) (limit : Nat) : List Int :=
  (candidates.filter fun id => decide (id ∉ reservedIds db candidates limit)).take
    (limit - (reservedIds db candidates limit).length)

theorem reserveNarrativeSlots_eq (hnodup : candidates.Nodup) (hlong : limit < candidates.length) :
    reserveNarrativeSlots db candidates limit = candidates.filter fun id =>
      decide (id ∈ reservedIds db candidates limit ++ filledIds db candidates limit) := by
  have hreserved := @pick_filter _ (narrativeSlots limit) (fun id => !db.isFact id) [] candidates
  rw [List.nil_append, List.length_nil, Nat.sub_zero] at hreserved
  have hfilled := @pick_fresh _ limit _ (fun _ => true) (reservedIds db candidates limit) candidates
  simp only [Bool.true_and] at hfilled
  rw [eraseDups_of_nodup (hnodup.filter _)] at hfilled
  have hdisjoint : ∀ id ∈ filledIds db candidates limit, id ∉ reservedIds db candidates limit :=
    fun id hid => by simpa using (List.mem_filter.mp (List.mem_of_mem_take hid)).2
  rw [reserveNarrativeSlots, if_neg (by omega)]
  simp only [Bool.true_and]
  rw [hreserved, ← reservedIds, hfilled, ← filledIds]
  refine insertionSort_eq_filter ?_ (fun id hid => ?_) ?_
  · refine List.pairwise_iff_getElem.mpr fun i j hi hj hij => ?_
    rw [rankMap_getElem? hnodup (List.getElem_mem hi), rankMap_getElem? hnodup (List.getElem_mem hj),
      hnodup.idxOf_getElem, hnodup.idxOf_getElem]
    exact hij
  · rcases List.mem_append.mp hid with hid | hid
    · exact (List.mem_filter.mp (List.mem_of_mem_take hid)).1
    · exact (List.mem_filter.mp (List.mem_of_mem_take hid)).1
  · refine List.nodup_append.mpr ⟨(hnodup.filter _).take, (hnodup.filter _).take, ?_⟩
    intro a ha b hb hab
    exact hdisjoint b hb (hab ▸ ha)

end Scans

/-! ## The final list

The two quotas meet here: the promoted ids are first in the list, and the reserved slots are
taken before the others are filled. The promoted ids are chosen because the slots that are not
reserved are enough for them. -/

section Selection

variable {db : Database} {candidates floorIds : List Int} {limit : Nat} {id : Int}

theorem nodup_promotedIds : (promotedIds candidates floorIds limit).Nodup := by
  unfold promotedIds
  split
  · exact List.nodup_nil
  · exact (nodup_eraseDups _).take

theorem mem_of_promotedIds (hid : id ∈ promotedIds candidates floorIds limit) :
    id ∈ candidates := by
  unfold promotedIds at hid
  split at hid
  · exact absurd hid List.not_mem_nil
  · have hfloor := List.mem_eraseDups.mp (List.mem_of_mem_take hid)
    exact List.contains_iff_mem.mp (List.mem_filter.mp hfloor).2

/-- Nothing is lost and nothing is listed twice. -/
theorem promoteSourceFactFloor_perm (hnodup : candidates.Nodup) :
    (promoteSourceFactFloor candidates floorIds limit).Perm candidates := by
  have hsplit : (promoteSourceFactFloor candidates floorIds limit).Nodup := by
    rw [promoteSourceFactFloor_eq hnodup]
    refine List.nodup_append.mpr ⟨nodup_promotedIds, hnodup.filter _, fun a ha b hb hab => ?_⟩
    rw [List.mem_filter, decide_eq_true_eq] at hb
    exact hb.2 (hab ▸ ha)
  rw [List.perm_ext_iff_of_nodup hsplit hnodup]
  intro a
  rw [promoteSourceFactFloor_eq hnodup, List.mem_append, List.mem_filter, decide_eq_true_eq]
  constructor
  · rintro (ha | ha)
    · exact mem_of_promotedIds ha
    · exact ha.1
  · intro ha
    by_cases hpromoted : a ∈ promotedIds candidates floorIds limit
    · exact Or.inl hpromoted
    · exact Or.inr ⟨ha, hpromoted⟩

/-- What ranks above an id that is not promoted still does after the promotion. -/
theorem Precedes.promote {x y : Int} (hnodup : candidates.Nodup)
    (hx : x ∉ promotedIds candidates floorIds limit) (h : Precedes candidates y x) :
    Precedes (promoteSourceFactFloor candidates floorIds limit) y x := by
  have hxmem : x ∈ candidates.filter fun id =>
      decide (id ∉ promotedIds candidates floorIds limit) :=
    List.mem_filter.mpr ⟨h.subset (by simp), by simpa using hx⟩
  rw [promoteSourceFactFloor_eq hnodup]
  by_cases hy : y ∈ promotedIds candidates floorIds limit
  · exact List.Sublist.append (List.singleton_sublist.mpr hy) (List.singleton_sublist.mpr hxmem)
  · exact (h.filter (by simpa using hy) (by simpa using hx)).trans (List.sublist_append_right _ _)

theorem reservedIds_length : (reservedIds db candidates limit).length
    = min (narrativeSlots limit) (candidates.countP fun id => !db.isFact id) := by
  rw [reservedIds, List.length_take, List.countP_eq_length_filter]

theorem nodup_reservedIds (hnodup : candidates.Nodup) :
    (reservedIds db candidates limit).Nodup := (hnodup.filter _).take

theorem nodup_chosen (hnodup : candidates.Nodup) :
    (reservedIds db candidates limit ++ filledIds db candidates limit).Nodup := by
  refine List.nodup_append.mpr ⟨nodup_reservedIds hnodup, (hnodup.filter _).take, ?_⟩
  intro a ha b hb hab
  have hfresh := (List.mem_filter.mp (List.mem_of_mem_take hb)).2
  exact (by simpa using hfresh : b ∉ reservedIds db candidates limit) (hab ▸ ha)

theorem mem_of_chosen (hid : id ∈ reservedIds db candidates limit ++ filledIds db candidates limit) :
    id ∈ candidates := by
  rcases List.mem_append.mp hid with hid | hid
  · exact (List.mem_filter.mp (List.mem_of_mem_take hid)).1
  · exact (List.mem_filter.mp (List.mem_of_mem_take hid)).1

/-- The reserved slots count whether the limit has room for them or not. -/
theorem reserveNarrativeSlots_length (hnodup : candidates.Nodup)
    (hlong : limit < candidates.length) :
    (reserveNarrativeSlots db candidates limit).length
      = max limit (reservedIds db candidates limit).length := by
  have hperm : (reserveNarrativeSlots db candidates limit).Perm
      (reservedIds db candidates limit ++ filledIds db candidates limit) := by
    rw [reserveNarrativeSlots_eq hnodup hlong,
      List.perm_ext_iff_of_nodup (hnodup.filter _) (nodup_chosen hnodup)]
    intro a
    rw [List.mem_filter, decide_eq_true_eq]
    exact ⟨fun ha => ha.2, fun ha => ⟨mem_of_chosen ha, ha⟩⟩
  have hrest : (candidates.filter fun id =>
      decide (id ∉ reservedIds db candidates limit)).length
        = candidates.length - (reservedIds db candidates limit).length := by
    have hpart := List.length_eq_length_filter_add
      (fun id => decide (id ∈ reservedIds db candidates limit)) (l := candidates)
    have hin : (candidates.filter fun id => decide (id ∈ reservedIds db candidates limit)).Perm
        (reservedIds db candidates limit) := by
      rw [List.perm_ext_iff_of_nodup (hnodup.filter _) (nodup_reservedIds hnodup)]
      intro a
      rw [List.mem_filter, decide_eq_true_eq]
      exact ⟨fun ha => ha.2, fun ha => ⟨mem_of_chosen (List.mem_append_left _ ha), ha⟩⟩
    rw [hin.length_eq] at hpart
    simp only [decide_not]
    omega
  rw [hperm.length_eq, List.length_append, filledIds, List.length_take, hrest]
  omega

/-- The reserved memories are on the final list. -/
theorem subset_reserveNarrativeSlots (hnodup : candidates.Nodup)
    (hlong : limit < candidates.length)
    (hid : id ∈ reservedIds db candidates limit ++ filledIds db candidates limit) :
    id ∈ reserveNarrativeSlots db candidates limit := by
  rw [reserveNarrativeSlots_eq hnodup hlong, List.mem_filter, decide_eq_true_eq]
  exact ⟨mem_of_chosen hid, hid⟩

theorem reserveNarrativeSlots_sublist (hnodup : candidates.Nodup) :
    (reserveNarrativeSlots db candidates limit).Sublist candidates := by
  by_cases hlong : limit < candidates.length
  · rw [reserveNarrativeSlots_eq hnodup hlong]
    exact List.filter_sublist
  · rw [reserveNarrativeSlots, if_pos (by omega)]

/-- As many are no facts as slots are reserved. -/
theorem reservedIds_length_le (hnodup : candidates.Nodup) (hlong : limit < candidates.length) :
    (reservedIds db candidates limit).length
      ≤ (reserveNarrativeSlots db candidates limit).countP fun id => !db.isFact id := by
  rw [List.countP_eq_length_filter]
  refine ((nodup_reservedIds hnodup).subperm fun a ha => ?_).length_le
  exact List.mem_filter.mpr ⟨subset_reserveNarrativeSlots hnodup hlong (List.mem_append_left _ ha),
    (List.mem_filter.mp (List.mem_of_mem_take ha)).2⟩

/-- What ranks above a chosen memory of its kind is chosen. -/
theorem reserveNarrativeSlots_ranked {x y : Int} (hnodup : candidates.Nodup)
    (hx : x ∈ reserveNarrativeSlots db candidates limit) (hrank : Precedes candidates y x)
    (hkind : db.isFact y = db.isFact x) : y ∈ reserveNarrativeSlots db candidates limit := by
  by_cases hlong : limit < candidates.length
  · by_cases hy : y ∈ reservedIds db candidates limit
    · exact subset_reserveNarrativeSlots hnodup hlong (List.mem_append_left _ hy)
    · rw [reserveNarrativeSlots_eq hnodup hlong, List.mem_filter, decide_eq_true_eq,
        List.mem_append] at hx
      rcases hx.2 with hreserved | hfilled
      · have hno := (List.mem_filter.mp (List.mem_of_mem_take hreserved)).2
        exact absurd ((hrank.filter (by rw [hkind]; exact hno) hno).mem_take (hnodup.filter _)
          hreserved) hy
      · have hfresh := (List.mem_filter.mp (List.mem_of_mem_take hfilled)).2
        exact subset_reserveNarrativeSlots hnodup hlong (List.mem_append_right _
          ((hrank.filter (by simpa using hy) hfresh).mem_take (hnodup.filter _) hfilled))
  · rw [reserveNarrativeSlots, if_pos (by omega)]
    exact hrank.subset (by simp)

/-- Promoted ids keep their slots wherever the reserved ones leave room. -/
theorem promotedIds_chosen (hnodup : candidates.Nodup)
    (hroom : sourceFactFloorSlots limit + narrativeSlots limit ≤ limit)
    (hlong : limit < candidates.length) (hid : id ∈ promotedIds candidates floorIds limit) :
    id ∈ reserveNarrativeSlots db (promoteSourceFactFloor candidates floorIds limit) limit := by
  have hperm := @promoteSourceFactFloor_perm candidates floorIds limit hnodup
  have hC := hperm.nodup_iff.mpr hnodup
  have hlongC : limit < (promoteSourceFactFloor candidates floorIds limit).length := by
    rwa [hperm.length_eq]
  have hslots : (promotedIds candidates floorIds limit).length ≤ sourceFactFloorSlots limit := by
    unfold promotedIds
    split
    · exact Nat.zero_le _
    · exact List.length_take_le _ _
  have hfront : id ∈ (promoteSourceFactFloor candidates floorIds limit).take
      (sourceFactFloorSlots limit) := by
    rw [promoteSourceFactFloor_eq hnodup, List.take_append, List.take_of_length_le hslots]
    exact List.mem_append_left _ hid
  by_cases hreserved : id ∈ reservedIds db (promoteSourceFactFloor candidates floorIds limit) limit
  · exact subset_reserveNarrativeSlots hC hlongC (List.mem_append_left _ hreserved)
  · refine subset_reserveNarrativeSlots hC hlongC (List.mem_append_right _ ?_)
    have htake : (reservedIds db (promoteSourceFactFloor candidates floorIds limit) limit).length
        ≤ narrativeSlots limit := by
      rw [reservedIds_length]
      exact Nat.min_le_left _ _
    exact List.take_subset_take_left _ (by omega)
      (mem_take_filter hfront (by simpa using hreserved))

/-- What the final list must satisfy. -/
structure WellFormedSelection (db : Database) (candidates floorIds C R : List Int) (limit : Nat) :
    Prop where
  permutes : C.Perm candidates
  nodup : R.Nodup
  ordered : R.Sublist C
  length : R.length = min limit candidates.length
  floor : 2 ≤ limit → limit < candidates.length →
    ∀ id ∈ ((floorIds.filter fun id => candidates.contains id).eraseDups).take
      (sourceFactFloorSlots limit), id ∈ R
  narratives : 2 ≤ limit → limit < candidates.length →
    min (max (2 * limit / 5) 1) (candidates.countP fun id => !db.isFact id)
      ≤ R.countP fun id => !db.isFact id
  ranked : ∀ x ∈ R, x ∉ promotedIds candidates floorIds limit → ∀ y,
    Precedes candidates y x ∨ Precedes C y x → db.isFact y = db.isFact x → y ∈ R

/-- The quotas select a well-formed list exactly where a slot may be reserved at all: the one
slot of a limit of zero is taken by any memory that is no fact. -/
theorem wellFormedSelection_iff (hnodup : candidates.Nodup) :
    WellFormedSelection db candidates floorIds (promoteSourceFactFloor candidates floorIds limit)
        (reserveNarrativeSlots db (promoteSourceFactFloor candidates floorIds limit) limit) limit
      ↔ 1 ≤ limit ∨ ∀ id ∈ candidates, db.isFact id := by
  have hperm := @promoteSourceFactFloor_perm candidates floorIds limit hnodup
  have hC := hperm.nodup_iff.mpr hnodup
  have hno : (promoteSourceFactFloor candidates floorIds limit).countP (fun id => !db.isFact id)
      = candidates.countP fun id => !db.isFact id := hperm.countP_eq _
  have hslots : narrativeSlots limit = max (2 * limit / 5) 1 := by
    rw [narrativeSlots, Nat.mul_comm]
  constructor
  · intro hwell
    by_cases hlimit : 1 ≤ limit
    · exact Or.inl hlimit
    · refine Or.inr fun id hid => ?_
      have hlen := hwell.length
      have hpos : 0 < candidates.length := List.length_pos_of_mem hid
      rw [reserveNarrativeSlots_length hC (by rw [hperm.length_eq]; omega), reservedIds_length, hno,
        show narrativeSlots limit = 1 by rw [hslots]; omega] at hlen
      have hnone : candidates.countP (fun id => !db.isFact id) = 0 := by omega
      simpa using List.countP_eq_zero.mp hnone id hid
  · intro hroom
    have hfit : (reservedIds db (promoteSourceFactFloor candidates floorIds limit) limit).length
        ≤ limit := by
      rw [reservedIds_length, hno]
      rcases hroom with hlimit | hfacts
      · omega
      · rw [List.countP_eq_zero.mpr fun id hid => by simpa using hfacts id hid]
        omega
    refine ⟨hperm, hC.sublist (reserveNarrativeSlots_sublist hC), reserveNarrativeSlots_sublist hC,
      ?_, ?_, ?_, ?_⟩
    · by_cases hlong : limit < candidates.length
      · rw [reserveNarrativeSlots_length hC (by rwa [hperm.length_eq])]
        omega
      · rw [reserveNarrativeSlots, if_pos (by rw [hperm.length_eq]; omega), hperm.length_eq]
        omega
    · intro hlimit hlong id hid
      refine promotedIds_chosen hnodup ?_ hlong ?_
      · rw [hslots, sourceFactFloorSlots, if_neg (by omega)]
        omega
      · rwa [promotedIds, if_neg (by omega)]
    · intro hlimit hlong
      rw [← hslots, ← hno, ← reservedIds_length]
      exact reservedIds_length_le hC (by rwa [hperm.length_eq])
    · intro x hx hunpromoted y hrank hkind
      have hpromote : Precedes (promoteSourceFactFloor candidates floorIds limit) y x :=
        hrank.elim (fun h => Precedes.promote hnodup hunpromoted h) id
      exact reserveNarrativeSlots_ranked hC hx hpromote hkind

end Selection

/-- At limit zero one memory that is no fact is returned. -/
theorem reserveNarrativeSlots_zero :
    ¬ WellFormedSelection {} [7] [] (promoteSourceFactFloor [7] [] 0)
      (reserveNarrativeSlots {} (promoteSourceFactFloor [7] [] 0) 0) 0 := by
  intro hwell
  have hlen := hwell.length
  rw [reserveNarrativeSlots_length (by decide) (by decide)] at hlen
  exact absurd hlen (by decide)

/-- The lowest of three memories is promoted, and the limit leaves room for one more. -/
theorem wellFormedSelection_example :
    WellFormedSelection {} [7, 8, 9] [9] (promoteSourceFactFloor [7, 8, 9] [9] 2)
      (reserveNarrativeSlots {} (promoteSourceFactFloor [7, 8, 9] [9] 2) 2) 2 :=
  (wellFormedSelection_iff (by decide)).mpr (Or.inl (by decide))

end IronMem
