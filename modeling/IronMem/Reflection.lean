import Mathlib.Data.Finset.Card
import Mathlib.Data.List.Destutter
import Mathlib.Data.List.Sort
import IronMem.GraphEdges
import IronMem.Lib.Clusters

/-!
# Reflection

`reflection::run` groups the memories of a kind twice, by the first terms of their
summaries and by the overlap of their terms, and in apply mode writes one consolidated
memory for each group and negative feedback for each member.

The first pass partitions by signature (`mem_signatureGroups`): the groups come in the order
of their keys, as from a `BTreeMap`. The second goes through all memories once more and makes
clusters (`overlapGroups_eq`): the first that is not used yet takes what overlaps with it. What
it takes is marked as used for the pass itself; what the first pass has grouped is not, and
this is where a memory can end up in two groups.

`Separated` says when it does not, in terms of the signatures and the similarity of the list:
neither pass mixes projects, and the second takes nothing that the first took. A run goes through
the kinds one by one, and a memory has one kind, so that kinds never share a memory.
-/

namespace IronMem.Reflection

open Clusters

def REFLECT_KINDS : List String :=
  ["fact", "procedural", "preference", "architecture", "learned_pattern", "project_config",
    "error_solution"]

def stopWords : List String :=
  ["the", "and", "for", "with", "that", "this", "from", "into", "when", "then", "than", "should",
    "must", "will", "memory", "session"]

variable (u : Unicode)

/-! ## Terms -/

/-- `normalize`. -/
def normalize (text : String) : List String :=
  let words := (text.toList.splitOnP fun c => !u.isAlphanumeric c).map fun s =>
    toAsciiLowercase (String.ofList s)
  ((words.filter fun s => decide (3 ≤ byteLen s) && !stopWords.contains s).insertionSort
    (· ≤ ·)).destutter (· ≠ ·)

/-- `jaccard(a, b) >= 0.50`, without the division. -/
def similar (a b : List String) : Bool :=
  !a.isEmpty && !b.isEmpty &&
    decide ((a.toFinset ∪ b.toFinset).card ≤ 2 * (a.toFinset ∩ b.toFinset).card)

/-- The entry of a memory in the map of the normalized summaries. -/
def termsOf (memories : List Memory) (id : Int) : List String :=
  ((memories.reverse.find? fun m => m.id == id).map fun m => normalize u m.summary).getD []

def signatureText (terms : List String) : String := String.intercalate " " (terms.take 8)

/-! ## Groups -/

/-- The first pass: the memories by signature. -/
def bySignature (terms : Int → List String) (memories : List Memory) : BTreeMap (List Memory) :=
  memories.foldl (fun groups m =>
    let signature := signatureText (terms m.id)
    if signature.isEmpty then groups
    else groups.insert signature (groups.getD signature [] ++ [m])) ∅

/-- The second pass, from a memory on. -/
def overlapGroups (terms : Int → List String) : List Memory → List Int → List (List Memory)
  | [], _ => []
  | m :: rest, used =>
      if used.contains m.id then overlapGroups terms rest used
      else
        let group := m :: rest.filter fun x =>
          !used.contains x.id && similar (terms m.id) (terms x.id)
        if 1 < group.length then group :: overlapGroups terms rest (used ++ group.map (·.id))
        else overlapGroups terms rest used

/-- `find_groups`. -/
def findGroups (memories : List Memory) : List (List Memory) :=
  let terms := termsOf u memories
  (((bySignature terms memories).toList.map (·.2)).filter fun g => decide (1 < g.length)) ++
    overlapGroups terms memories []

/-! ## A run -/

/-- `proposal_summary`. -/
def proposalSummary (kind : String) (group : List Memory) : String :=
  let lines := group.foldl (fun (state : List String × List String) m =>
    let s := trim m.summary
    if state.2.contains (toAsciiLowercase s) then state
    else (state.1 ++ ["- " ++ s], toAsciiLowercase s :: state.2)) ([], [])
  String.intercalate "\n" (("Consolidated " ++ kind ++ " memory from " ++ toString group.length ++
    " overlapping fragments:") :: lines.1)

/-- One group that was applied: the memory that is written, and from what. -/
structure Consolidation where
  project : String
  kind : String
  sources : List Memory
  summary : String
deriving DecidableEq, Repr

/-- The memories that get the feedback of weight -0.5. -/
def Consolidation.feedback (c : Consolidation) : List Int := c.sources.map (·.id)

def consolidation (project : Option String) (kind : String) (group : List Memory) : Consolidation where
  project := ((group.head?.map (·.project)).or project).getD "global"
  kind := kind
  sources := group
  summary := proposalSummary kind group

/-- The groups whose keys were not proposed before. -/
def freshGroups : List (String × List Int) → List (String × List Memory) → List (String × List Memory)
  | _, [] => []
  | proposedKeys, (kind, group) :: rest =>
      if proposedKeys.contains (kind, group.map (·.id)) then freshGroups proposedKeys rest
      else (kind, group) :: freshGroups ((kind, group.map (·.id)) :: proposedKeys) rest

/-- What a run reads: the memories of each kind. A memory has one kind. -/
structure Scan where
  byKind : String → List Memory
  distinct : (REFLECT_KINDS.flatMap fun kind => (byKind kind).map (·.id)).Nodup

/-- `run` in apply mode. -/
def run (project : Option String) (scan : Scan) : List Consolidation :=
  (freshGroups [] (REFLECT_KINDS.flatMap fun kind =>
    (findGroups u (scan.byKind kind)).map fun group => (kind, group))).map fun kg =>
      consolidation project kg.1 kg.2

/-! ## The groups of a list with distinct ids

With distinct ids the first pass is a partition by signature, and the second is the greedy
clustering of `Clusters` on the same list. No map and no set of used ids is left. -/

variable {u} {memories : List Memory} {terms : Int → List String}

def signatureOf (u : Unicode) (m : Memory) : String := signatureText (normalize u m.summary)

/-- The terms of two memories overlap by half. -/
def overlaps (u : Unicode) (m x : Memory) : Bool :=
  similar (normalize u m.summary) (normalize u x.summary)

theorem termsOf_eq (hids : (memories.map (·.id)).Nodup) {m : Memory} (hm : m ∈ memories) :
    termsOf u memories m.id = normalize u m.summary := by
  have hfind : (memories.reverse.find? fun x => x.id == m.id) = some m := by
    cases hfound : memories.reverse.find? fun x => x.id == m.id with
    | none =>
        have hnot := List.find?_eq_none.mp hfound m (List.mem_reverse.mpr hm)
        simp at hnot
    | some x =>
        have hx := List.mem_reverse.mp (List.mem_of_find?_eq_some hfound)
        have hid : x.id = m.id := by simpa using List.find?_some hfound
        rw [List.inj_on_of_nodup_map hids hx hm hid]
  rw [termsOf, hfind, Option.map_some, Option.getD_some]

/-- What the first pass has under a signature. -/
theorem getD_bySignature (terms : Int → List String) (memories : List Memory) (k : String) :
    (bySignature terms memories).getD k [] =
      if k = "" then [] else memories.filter fun m => signatureText (terms m.id) == k := by
  induction memories using List.reverseRecOn with
  | nil => simp [bySignature]
  | append_singleton memories m ih =>
      have hstep : bySignature terms (memories ++ [m]) =
          if (signatureText (terms m.id)).isEmpty then bySignature terms memories
          else (bySignature terms memories).insert (signatureText (terms m.id))
            ((bySignature terms memories).getD (signatureText (terms m.id)) [] ++ [m]) := by
        rw [bySignature, List.foldl_append]
        rfl
      rw [hstep, List.filter_append, List.filter_singleton]
      generalize signatureText (terms m.id) = s
      by_cases hs : s = ""
      · rw [hs, if_pos (show "".isEmpty = true by decide), ih]
        by_cases hk : k = ""
        · rw [if_pos hk, if_pos hk]
        · rw [if_neg hk, if_neg hk, beq_eq_false_iff_ne.mpr (Ne.symm hk)]
          exact (List.append_nil _).symm
      · rw [if_neg (by rwa [String.isEmpty_iff]), Std.ExtTreeMap.getD_insert]
        by_cases hk : s = k
        · rw [if_pos (Std.LawfulEqCmp.compare_eq_iff_eq.mpr hk), ← hk, if_neg hs, beq_self_eq_true]
          rw [← hk, if_neg hs] at ih
          rw [ih]
          rfl
        · rw [if_neg fun heq => hk (Std.LawfulEqCmp.compare_eq_iff_eq.mp heq), ih,
            beq_eq_false_iff_ne.mpr hk]
          by_cases hempty : k = ""
          · rw [if_pos hempty, if_pos hempty]
          · rw [if_neg hempty, if_neg hempty]
            exact (List.append_nil _).symm

/-- The groups of the first pass. -/
theorem mem_signatureGroups {g : List Memory} :
    g ∈ (((bySignature terms memories).toList.map (·.2)).filter fun g => decide (1 < g.length)) ↔
      1 < g.length ∧ ∃ k, k ≠ "" ∧ g = memories.filter fun m => signatureText (terms m.id) == k := by
  rw [List.mem_filter, List.mem_map, decide_eq_true_eq, and_comm]
  refine and_congr_right fun hlen => ?_
  have hget := getD_bySignature terms memories
  generalize bySignature terms memories = groups at hget ⊢
  constructor
  · rintro ⟨⟨k, g'⟩, hmem, rfl⟩
    rw [Std.ExtTreeMap.mem_toList_iff_getElem?_eq_some] at hmem
    have hk := hget k
    rw [Std.ExtTreeMap.getD_eq_getD_getElem?, hmem, Option.getD_some] at hk
    by_cases hempty : k = ""
    · rw [if_pos hempty] at hk
      rw [hk] at hlen
      exact absurd hlen (Nat.not_lt_zero 1)
    · exact ⟨k, hempty, by rw [hk, if_neg hempty]⟩
  · rintro ⟨k, hk, rfl⟩
    have hsome := hget k
    rw [if_neg hk, Std.ExtTreeMap.getD_eq_getD_getElem?] at hsome
    cases hentry : groups[k]? with
    | none =>
        rw [hentry, Option.getD_none] at hsome
        rw [← hsome] at hlen
        exact absurd hlen (by decide)
    | some g =>
        rw [hentry, Option.getD_some] at hsome
        exact ⟨(k, g), Std.ExtTreeMap.mem_toList_iff_getElem?_eq_some.mpr hentry, hsome⟩

/-- Groups of the first pass with different keys have no memory in common. -/
theorem signatureGroups_disjoint :
    (((bySignature terms memories).toList.map (·.2)).filter fun g => decide (1 < g.length)).Pairwise
      fun g g' => ∀ m ∈ g, m ∉ g' := by
  refine List.Pairwise.filter _ (List.pairwise_map.mpr ?_)
  have hget := getD_bySignature terms memories
  generalize bySignature terms memories = groups at hget ⊢
  have hmem : ∀ e ∈ groups.toList, ∀ m ∈ e.2, signatureText (terms m.id) = e.1 := by
    intro e he m hm
    have hentry := Std.ExtTreeMap.mem_toList_iff_getElem?_eq_some.mp he
    have hk := hget e.1
    rw [Std.ExtTreeMap.getD_eq_getD_getElem?, hentry, Option.getD_some] at hk
    rw [hk] at hm
    split at hm
    · exact absurd hm List.not_mem_nil
    · simpa using (List.mem_filter.mp hm).2
  refine (Std.ExtTreeMap.distinct_keys_toList (t := groups)).imp_of_mem fun {e e'} he he' hne m hm hm' => ?_
  rw [← hmem e he m hm, ← hmem e' he' m hm'] at hne
  exact hne Std.ReflCmp.compare_self

/-- The second pass makes clusters of the memories that are not used yet. -/
theorem overlapGroups_eq (hids : (memories.map (·.id)).Nodup) (used : List Int) :
    overlapGroups terms memories used = clusters (fun m x => similar (terms m.id) (terms x.id))
      (memories.filter fun m => !used.contains m.id) := by
  induction memories generalizing used with
  | nil => rw [overlapGroups, List.filter_nil, clusters]
  | cons m rest ih =>
      rw [List.map_cons, List.nodup_cons] at hids
      have hnear : (rest.filter fun x => !used.contains x.id && similar (terms m.id) (terms x.id))
          = near (fun m x => similar (terms m.id) (terms x.id)) m
              (rest.filter fun x => !used.contains x.id) := by
        rw [near, List.filter_filter]
        exact List.filter_congr fun x _ => Bool.and_comm _ _
      rw [overlapGroups, hnear]
      cases hused : used.contains m.id with
      | true =>
          rw [if_pos rfl, ih hids.2, List.filter_cons_of_neg (by rw [hused]; decide)]
      | false =>
          rw [if_neg (by decide), List.filter_cons_of_pos (by rw [hused]; rfl), clusters]
          by_cases hnone : near (fun m x => similar (terms m.id) (terms x.id)) m
              (rest.filter fun x => !used.contains x.id) = []
          · rw [if_pos hnone, others_of_near_eq_nil hnone, hnone, ih hids.2]
            rfl
          · have hsome := List.length_pos_iff.mpr hnone
            rw [if_neg hnone, List.singleton_append]
            dsimp only
            rw [List.length_cons, if_pos (by omega), ih hids.2]
            congr 2
            rw [others, List.filter_filter]
            refine List.filter_congr fun x hx => ?_
            have hne : x.id ≠ m.id := fun heq => hids.1 (heq ▸ List.mem_map_of_mem hx)
            have htaken : x.id ∈ (near (fun m x => similar (terms m.id) (terms x.id)) m
                (rest.filter fun x => !used.contains x.id)).map (·.id) ↔
                  (!used.contains x.id) = true ∧ similar (terms m.id) (terms x.id) = true := by
              rw [List.mem_map]
              constructor
              · rintro ⟨y, hy, hid⟩
                obtain ⟨hmem, hsim⟩ := mem_near.mp hy
                obtain ⟨hy, hfree⟩ := List.mem_filter.mp hmem
                obtain rfl := List.inj_on_of_nodup_map hids.2 hy hx hid
                exact ⟨hfree, hsim⟩
              · rintro ⟨hfree, hsim⟩
                exact ⟨x, mem_near.mpr ⟨List.mem_filter.mpr ⟨hx, hfree⟩, hsim⟩, rfl⟩
            have hnow : (used ++ (m :: near (fun m x => similar (terms m.id) (terms x.id)) m
                (rest.filter fun x => !used.contains x.id)).map (·.id)).contains x.id
                  = (used.contains x.id || similar (terms m.id) (terms x.id)) := by
              rw [Bool.eq_iff_iff, List.contains_iff_mem, List.mem_append, List.map_cons, List.mem_cons,
                htaken, ← List.contains_iff_mem]
              cases used.contains x.id <;> simp [hne]
            rw [hnow, Bool.not_or, Bool.and_comm]

/-- The groups: those of the first pass by signature, those of the second as clusters. -/
theorem findGroups_eq (hids : (memories.map (·.id)).Nodup) :
    ∃ first, findGroups u memories = first ++ clusters (overlaps u) memories ∧
      first.Pairwise (fun g g' => ∀ m ∈ g, m ∉ g') ∧
      ∀ g, g ∈ first ↔ 1 < g.length ∧ ∃ k, k ≠ "" ∧
        g = memories.filter fun m => signatureOf u m == k := by
  have hsecond : overlapGroups (termsOf u memories) memories [] = clusters (overlaps u) memories := by
    have hall : (memories.filter fun m => !([] : List Int).contains m.id) = memories :=
      List.filter_eq_self.mpr fun _ _ => rfl
    rw [overlapGroups_eq hids, hall]
    refine clusters_congr fun m hm x hx => ?_
    rw [termsOf_eq hids hm, termsOf_eq hids hx]
    rfl
  refine ⟨_, by rw [findGroups, hsecond], signatureGroups_disjoint, fun g => ?_⟩
  rw [mem_signatureGroups]
  refine and_congr_right fun _ => exists_congr fun k => and_congr_right fun _ => ?_
  rw [List.filter_congr fun m hm => by rw [termsOf_eq hids hm]]
  rfl

/-! ## When the groups are sound

Within a pass no memory is in two groups. So only two things can go wrong: a group mixes
projects, or the second pass takes a memory that the first has grouped. -/

/-- Groups of two or more memories of one project, with no memory in two of them. -/
structure GroupsSound (groups : List (List Memory)) : Prop where
  disjoint : groups.Pairwise fun g g' => ∀ m ∈ g, m ∉ g'
  two : ∀ g ∈ groups, 2 ≤ g.length
  oneProject : ∀ g ∈ groups, ∀ m ∈ g, ∀ x ∈ g, m.project = x.project

/-- Another memory has the same signature. -/
def SharesSignature (u : Unicode) (memories : List Memory) (m : Memory) : Prop :=
  signatureOf u m ≠ "" ∧ ∃ x ∈ memories, x ≠ m ∧ signatureOf u x = signatureOf u m

/-- Neither pass mixes projects, and the second takes nothing that the first took. -/
structure Separated (u : Unicode) (memories : List Memory) : Prop where
  signatures : ∀ m ∈ memories, SharesSignature u memories m →
    ∀ x ∈ memories, signatureOf u x = signatureOf u m → x.project = m.project
  overlaps : ∀ m x, Takes (overlaps u) memories m x →
    m.project = x.project ∧ ¬ SharesSignature u memories m ∧ ¬ SharesSignature u memories x

theorem exists_ne_of_one_lt {l : List Memory} (hl : l.Nodup) (hlen : 1 < l.length) (m : Memory) :
    ∃ x ∈ l, x ≠ m := by
  by_contra hall
  push Not at hall
  rw [List.eq_replicate_of_mem hall] at hl
  exact absurd (List.nodup_replicate.mp hl) (Nat.not_le.mpr hlen)

theorem one_lt_length {l : List Memory} {m x : Memory} (hm : m ∈ l) (hx : x ∈ l) (hne : x ≠ m) :
    1 < l.length := by
  by_contra hshort
  rcases l with _ | ⟨a, _ | ⟨b, l⟩⟩
  · exact absurd hm List.not_mem_nil
  · exact hne ((List.mem_singleton.mp hx).trans (List.mem_singleton.mp hm).symm)
  · simp at hshort

theorem sharesSignature_iff (hnodup : memories.Nodup) {m : Memory} (hm : m ∈ memories) :
    SharesSignature u memories m ↔ signatureOf u m ≠ "" ∧
      1 < (memories.filter fun x => signatureOf u x == signatureOf u m).length := by
  refine and_congr_right fun _ => ⟨?_, fun hlen => ?_⟩
  · rintro ⟨x, hx, hne, hsame⟩
    exact one_lt_length (List.mem_filter.mpr ⟨hm, by simp⟩)
      (List.mem_filter.mpr ⟨hx, by simp [hsame]⟩) hne
  · obtain ⟨x, hx, hne⟩ := exists_ne_of_one_lt (hnodup.filter _) hlen m
    obtain ⟨hmem, hsame⟩ := List.mem_filter.mp hx
    exact ⟨x, hmem, hne, by simpa using hsame⟩

/-- Who is in a cluster takes something or is taken. -/
theorem mem_cluster {g : List Memory} (hg : g ∈ clusters (overlaps u) memories) {m : Memory} (hm : m ∈ g) :
    ∃ x, Takes (overlaps u) memories m x ∨ Takes (overlaps u) memories x m := by
  obtain ⟨a, taken, rfl, hne, -, htakes⟩ := mem_clusters hg
  rcases List.mem_cons.mp hm with rfl | hm
  · obtain ⟨x, hx⟩ := List.exists_mem_of_ne_nil _ hne
    exact ⟨x, .inl (htakes x hx)⟩
  · exact ⟨a, .inr (htakes m hm)⟩

theorem groupsSound_iff (hids : (memories.map (·.id)).Nodup) :
    GroupsSound (findGroups u memories) ↔ Separated u memories := by
  have hnodup : memories.Nodup := hids.of_map _
  obtain ⟨first, hgroups, hfirst, hmem⟩ := findGroups_eq (u := u) hids
  have hshared : ∀ m ∈ memories, SharesSignature u memories m →
      (memories.filter fun x => signatureOf u x == signatureOf u m) ∈ first := fun m hm hshares => by
    obtain ⟨hne, hlen⟩ := (sharesSignature_iff hnodup hm).mp hshares
    exact (hmem _).mpr ⟨hlen, _, hne, rfl⟩
  rw [hgroups]
  constructor
  · rintro ⟨hdisjoint, -, hproject⟩
    obtain ⟨-, -, hacross⟩ := List.pairwise_append.mp hdisjoint
    have happart : ∀ g ∈ clusters (overlaps u) memories, ∀ m ∈ g, m ∈ memories →
        ¬ SharesSignature u memories m := fun g hg m hm hmemory hshares =>
      hacross _ (hshared m hmemory hshares) g hg m (List.mem_filter.mpr ⟨hmemory, by simp⟩) hm
    refine ⟨fun m hm hshares x hx hsame => ?_, fun m x htakes => ?_⟩
    · exact hproject _ (List.mem_append_left _ (hshared m hm hshares)) x
        (List.mem_filter.mpr ⟨hx, by simp [hsame]⟩) m (List.mem_filter.mpr ⟨hm, by simp⟩)
    · obtain ⟨taken, hg, hx⟩ := htakes.cluster
      have hx' : x ∈ m :: taken := List.mem_cons_of_mem _ hx
      exact ⟨hproject _ (List.mem_append_right _ hg) m List.mem_cons_self x hx',
        happart _ hg m List.mem_cons_self htakes.mem.1, happart _ hg x hx' htakes.mem.2⟩
  · rintro ⟨hsignatures, hoverlaps⟩
    have hclusters := clusters_nodup (R := overlaps u) hnodup
    have hpairs : (clusters (overlaps u) memories).Pairwise fun g g' => ∀ m ∈ g, m ∉ g' :=
      (List.nodup_flatten.mp hclusters.1).2.imp fun hdisjoint m hm hm' => hdisjoint hm hm'
    refine ⟨List.pairwise_append.mpr ⟨hfirst, hpairs, fun g hg g' hg' m hm hm' => ?_⟩,
      fun g hg => ?_, fun g hg m hm x hx => ?_⟩
    · obtain ⟨hlen, k, hk, rfl⟩ := (hmem g).mp hg
      obtain ⟨hmemory, hsame⟩ := List.mem_filter.mp hm
      obtain rfl : signatureOf u m = k := by simpa using hsame
      have hshares := (sharesSignature_iff hnodup hmemory).mpr ⟨hk, hlen⟩
      obtain ⟨x, htakes | htakes⟩ := mem_cluster hg' hm'
      · exact (hoverlaps m x htakes).2.1 hshares
      · exact (hoverlaps x m htakes).2.2 hshares
    · rcases List.mem_append.mp hg with hg | hg
      · exact ((hmem g).mp hg).1
      · obtain ⟨a, taken, rfl, hne, -, -⟩ := mem_clusters hg
        have hpos := List.length_pos_iff.mpr hne
        rw [List.length_cons]
        omega
    · rcases List.mem_append.mp hg with hg | hg
      · obtain ⟨hlen, k, hk, rfl⟩ := (hmem g).mp hg
        obtain ⟨hmemory, hsame⟩ := List.mem_filter.mp hm
        obtain ⟨hxmemory, hxsame⟩ := List.mem_filter.mp hx
        obtain rfl : signatureOf u m = k := by simpa using hsame
        have hshares := (sharesSignature_iff hnodup hmemory).mpr ⟨hk, hlen⟩
        exact (hsignatures m hmemory hshares x hxmemory (by simpa using hxsame)).symm
      · obtain ⟨a, taken, rfl, hne, -, htakes⟩ := mem_clusters hg
        have hleader : ∀ y ∈ a :: taken, a.project = y.project := fun y hy => by
          rcases List.mem_cons.mp hy with rfl | hy
          · rfl
          · exact (hoverlaps a y (htakes y hy)).1
        exact (hleader m hm).symm.trans (hleader x hx)

/-! ## When a run is sound -/

/-- The groups are sound, and whatever part of a run is done, it consolidated no memory
twice, gave none the feedback twice and wrote no summary into another project. -/
structure ReflectionSound (u : Unicode) (project : Option String) (scan : Scan) : Prop where
  groups : ∀ kind ∈ REFLECT_KINDS, GroupsSound (findGroups u (scan.byKind kind))
  consolidatedOnce : ∀ done, done <+: run u project scan → ∀ id : Int,
    (done.countP fun c => (c.sources.map (·.id)).contains id) ≤ 1
  feedbackOnce : ∀ done, done <+: run u project scan → ∀ id : Int,
    (done.flatMap Consolidation.feedback).count id ≤ 1
  inProject : ∀ done, done <+: run u project scan → ∀ c ∈ done, ∀ m ∈ c.sources, m.project = c.project

theorem freshGroups_sublist (keys : List (String × List Int)) (groups : List (String × List Memory)) :
    (freshGroups keys groups).Sublist groups := by
  induction groups generalizing keys with
  | nil => exact List.Sublist.refl []
  | cons group groups ih =>
      obtain ⟨kind, group⟩ := group
      rw [freshGroups]
      split
      · exact (ih keys).cons _
      · exact (ih _).cons_cons _

variable {project : Option String} {scan : Scan}

theorem scan_ids {kind : String} (hkind : kind ∈ REFLECT_KINDS) :
    ((scan.byKind kind).map (·.id)).Nodup :=
  (List.nodup_flatMap.mp scan.distinct).1 kind hkind

/-- Sound groups of all kinds have no memory in common. -/
theorem groups_nodup (h : ∀ kind ∈ REFLECT_KINDS, GroupsSound (findGroups u (scan.byKind kind)))
    (hsub : ∀ kind ∈ REFLECT_KINDS, ∀ g ∈ findGroups u (scan.byKind kind), g.Sublist (scan.byKind kind)) :
    (REFLECT_KINDS.flatMap fun kind =>
      (findGroups u (scan.byKind kind)).flatten.map (·.id)).Nodup := by
  obtain ⟨hkinds, hapart⟩ := List.nodup_flatMap.mp scan.distinct
  refine List.nodup_flatMap.mpr ⟨fun kind hkind => ?_, ?_⟩
  · have hnodup := (hkinds kind hkind).of_map _
    have hflat : (findGroups u (scan.byKind kind)).flatten.Nodup := List.nodup_flatten.mpr
      ⟨fun g hg => hnodup.sublist (hsub kind hkind g hg),
        (h kind hkind).disjoint.imp fun hdisjoint m hm hm' => hdisjoint m hm hm'⟩
    refine hflat.map_on fun m hm x hx hid => ?_
    obtain ⟨g, hg, hmg⟩ := List.mem_flatten.mp hm
    obtain ⟨g', hg', hxg⟩ := List.mem_flatten.mp hx
    exact List.inj_on_of_nodup_map (hkinds kind hkind) ((hsub kind hkind g hg).subset hmg)
      ((hsub kind hkind g' hg').subset hxg) hid
  · refine hapart.imp_of_mem fun {kind kind'} hkind hkind' hdisjoint id hid hid' => ?_
    have hin : ∀ k ∈ REFLECT_KINDS, id ∈ (findGroups u (scan.byKind k)).flatten.map (·.id) →
        id ∈ (scan.byKind k).map (·.id) := by
      intro k hk hmem
      obtain ⟨m, hm, rfl⟩ := List.mem_map.mp hmem
      obtain ⟨g, hg, hmg⟩ := List.mem_flatten.mp hm
      exact List.mem_map_of_mem ((hsub k hk g hg).subset hmg)
    exact hdisjoint (hin kind hkind hid) (hin kind' hkind' hid')

theorem countP_le_count {l : List Consolidation} (id : Int) :
    (l.countP fun c => (c.sources.map (·.id)).contains id)
      ≤ (l.flatMap Consolidation.feedback).count id := by
  induction l with
  | nil => exact Nat.le_refl 0
  | cons c l ih =>
      rw [List.countP_cons, List.flatMap_cons, List.count_append]
      have hhead : (if ((c.sources.map (·.id)).contains id) = true then 1 else 0)
          ≤ c.feedback.count id := by
        split
        · next hmem => exact List.count_pos_iff.mpr (List.contains_iff_mem.mp hmem)
        · exact Nat.zero_le _
      omega

/-- Reflection is sound exactly where, in every kind, neither pass mixes projects and the
second pass takes nothing that the first took. -/
theorem reflection_sound_iff (u : Unicode) (project : Option String) (scan : Scan) :
    ReflectionSound u project scan ↔ ∀ kind ∈ REFLECT_KINDS, Separated u (scan.byKind kind) := by
  refine ⟨fun h kind hkind => (groupsSound_iff (scan_ids hkind)).mp (h.groups kind hkind), fun h => ?_⟩
  have hsound : ∀ kind ∈ REFLECT_KINDS, GroupsSound (findGroups u (scan.byKind kind)) :=
    fun kind hkind => (groupsSound_iff (scan_ids hkind)).mpr (h kind hkind)
  have hsub : ∀ kind ∈ REFLECT_KINDS, ∀ g ∈ findGroups u (scan.byKind kind),
      g.Sublist (scan.byKind kind) := by
    intro kind hkind g hg
    have hids : ((scan.byKind kind).map (·.id)).Nodup := scan_ids hkind
    obtain ⟨first, hgroups, -, hmem⟩ := findGroups_eq (u := u) hids
    rw [hgroups, List.mem_append] at hg
    rcases hg with hg | hg
    · obtain ⟨-, k, -, rfl⟩ := (hmem g).mp hg
      exact List.filter_sublist
    · obtain ⟨-, -, -, -, hcluster, -⟩ := mem_clusters hg
      exact hcluster
  have hrun : ((run u project scan).flatMap Consolidation.feedback).Sublist
      (REFLECT_KINDS.flatMap fun kind => (findGroups u (scan.byKind kind)).flatten.map (·.id)) := by
    have hall : (REFLECT_KINDS.flatMap fun kind =>
        (findGroups u (scan.byKind kind)).map fun group => (kind, group)).flatMap
          (fun kg => kg.2.map (·.id))
        = REFLECT_KINDS.flatMap fun kind => (findGroups u (scan.byKind kind)).flatten.map (·.id) := by
      rw [List.flatMap_assoc]
      refine List.flatMap_congr fun kind _ => ?_
      rw [List.flatMap_map, List.map_flatten, List.flatMap_def]
    rw [run, List.flatMap_map, ← hall]
    exact (freshGroups_sublist [] _).flatMap _
  have honce : ∀ done, done <+: run u project scan → ∀ id : Int,
      (done.flatMap Consolidation.feedback).count id ≤ 1 := fun done hdone id =>
    List.nodup_iff_count_le_one.mp ((groups_nodup hsound hsub).sublist
      ((hdone.sublist.flatMap _).trans hrun)) id
  refine ⟨hsound, fun done hdone id => (countP_le_count id).trans (honce done hdone id), honce,
    fun done hdone c hc m hm => ?_⟩
  obtain ⟨⟨kind, group⟩, hgroup, rfl⟩ := List.mem_map.mp (hdone.subset hc)
  obtain ⟨kind', hkind, hmem⟩ := List.mem_flatMap.mp ((freshGroups_sublist [] _).subset hgroup)
  obtain ⟨g, hg, heq⟩ := List.mem_map.mp hmem
  obtain ⟨rfl, rfl⟩ := Prod.mk.inj heq
  cases hshape : g with
  | nil =>
      rw [hshape] at hm
      exact absurd hm List.not_mem_nil
  | cons a rest =>
      have hsame := (hsound kind' hkind).oneProject g hg m hm a (hshape ▸ List.mem_cons_self)
      rw [hsame]
      rfl

/-! ## Three notes -/

def fragment (id : Int) (summary : String) : Memory := ⟨id, "demo", "remember", summary, none, 100⟩

/-- Two notes with the same words, and a third that shares most of them. -/
def threeNotes : Scan where
  byKind := fun kind => if kind = "fact" then
    [fragment 3 "retry the upload twice daily", fragment 2 "twice daily retry the upload",
      fragment 1 "retry the upload twice nightly"] else []
  distinct := by decide

theorem reflection_consolidates_twice :
    ¬ ReflectionSound asciiUnicode none threeNotes := by
  intro h
  have honce := h.feedbackOnce (run asciiUnicode none threeNotes) (List.prefix_refl _) 3
  exact absurd honce (by decide +kernel)

end IronMem.Reflection
