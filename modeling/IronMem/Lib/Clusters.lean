import Mathlib.Data.List.Nodup

/-!
# Greedy clusters

A list is read in order, and each element takes the later ones it is near to that nothing
took before. An element that was taken takes nothing.

Nearness is any relation and need not be transitive, so that clusters depend on the order of
the list. `Takes` says who takes whom without the recursion, and the clusters are the leaders
with what they take (`mem_clusters`); they are disjoint (`clusters_nodup`).
-/

namespace Clusters

variable {α : Type*} {R : α → α → Bool} {l : List α} {a b x : α}

/-- What `a` takes of the elements after it. -/
def near (R : α → α → Bool) (a : α) (l : List α) : List α := l.filter (R a)

/-- What `a` leaves. -/
def others (R : α → α → Bool) (a : α) (l : List α) : List α := l.filter fun x => !R a x

theorem mem_near : x ∈ near R a l ↔ x ∈ l ∧ R a x = true := List.mem_filter

theorem mem_others : x ∈ others R a l ↔ x ∈ l ∧ R a x = false := by
  rw [others, List.mem_filter, Bool.not_eq_true']

theorem others_of_near_eq_nil (h : near R a l = []) : others R a l = l := by
  rw [near, List.filter_eq_nil_iff] at h
  exact List.filter_eq_self.mpr fun x hx => by simpa using h x hx

/-- Every element that takes something, with what it takes. -/
def clusters (R : α → α → Bool) : List α → List (List α)
  | [] => []
  | a :: l => (if near R a l = [] then [] else [a :: near R a l]) ++ clusters R (others R a l)
termination_by l => l.length
decreasing_by exact Nat.lt_succ_of_le (List.length_filter_le _ _)

/-- In the list the element `a` takes `x`. -/
inductive Takes (R : α → α → Bool) : List α → α → α → Prop
  | first {a x : α} {l : List α} (hx : x ∈ l) (hnear : R a x = true) : Takes R (a :: l) a x
  | later {a b x : α} {l : List α} (h : Takes R (others R b l) a x) : Takes R (b :: l) a x

theorem Takes.mem (h : Takes R l a x) : a ∈ l ∧ x ∈ l := by
  induction h with
  | first hx _ => exact ⟨List.mem_cons_self, List.mem_cons_of_mem _ hx⟩
  | later _ ih =>
      exact ⟨List.mem_cons_of_mem _ (mem_others.mp ih.1).1,
        List.mem_cons_of_mem _ (mem_others.mp ih.2).1⟩

theorem clusters_congr {R' : α → α → Bool} (h : ∀ a ∈ l, ∀ x ∈ l, R a x = R' a x) :
    clusters R l = clusters R' l := by
  induction l using clusters.induct (R := R) with
  | case1 => rw [clusters, clusters]
  | case2 a l ih =>
      have hhead : ∀ x ∈ l, R a x = R' a x := fun x hx =>
        h a List.mem_cons_self x (List.mem_cons_of_mem _ hx)
      have hnear : near R a l = near R' a l := List.filter_congr hhead
      have hothers : others R a l = others R' a l :=
        List.filter_congr fun x hx => by rw [hhead x hx]
      have hrest := ih fun b hb x hx => h b (List.mem_cons_of_mem _ (mem_others.mp hb).1) x
        (List.mem_cons_of_mem _ (mem_others.mp hx).1)
      rw [clusters, clusters, hnear, hrest, hothers]

/-- Each cluster has a leader and those it takes. -/
theorem mem_clusters {g : List α} (h : g ∈ clusters R l) :
    ∃ a taken, g = a :: taken ∧ taken ≠ [] ∧ g.Sublist l ∧ ∀ x ∈ taken, Takes R l a x := by
  induction l using clusters.induct (R := R) with
  | case1 =>
      rw [clusters] at h
      exact absurd h List.not_mem_nil
  | case2 a l ih =>
      rw [clusters, List.mem_append] at h
      rcases h with h | h
      · split at h
        · exact absurd h List.not_mem_nil
        · next hsome =>
            obtain rfl := List.mem_singleton.mp h
            refine ⟨a, _, rfl, hsome, List.filter_sublist.cons_cons a, fun x hx => ?_⟩
            obtain ⟨hmem, hnear⟩ := mem_near.mp hx
            exact .first hmem hnear
      · obtain ⟨b, taken, rfl, hne, hsub, htakes⟩ := ih h
        exact ⟨b, taken, rfl, hne, (hsub.trans List.filter_sublist).cons a,
          fun x hx => .later (htakes x hx)⟩

/-- What is taken is in the cluster of its leader. -/
theorem Takes.cluster (h : Takes R l a x) : ∃ taken, a :: taken ∈ clusters R l ∧ x ∈ taken := by
  induction h with
  | @first a x l hx hnear =>
      have hmem : x ∈ near R a l := mem_near.mpr ⟨hx, hnear⟩
      refine ⟨near R a l, ?_, hmem⟩
      rw [clusters, if_neg (List.ne_nil_of_mem hmem)]
      exact List.mem_cons_self
  | @later a b x l _ ih =>
      obtain ⟨taken, htaken, hx⟩ := ih
      refine ⟨taken, ?_, hx⟩
      rw [clusters]
      exact List.mem_append_right _ htaken

/-- No element is in two clusters, or twice in one. -/
theorem clusters_nodup (h : l.Nodup) : (clusters R l).flatten.Nodup ∧ (clusters R l).flatten ⊆ l := by
  induction l using clusters.induct (R := R) with
  | case1 =>
      rw [clusters]
      exact ⟨List.nodup_nil, List.nil_subset _⟩
  | case2 a l ih =>
      obtain ⟨ha, hl⟩ := List.nodup_cons.mp h
      obtain ⟨hnodup, hsub⟩ := ih (hl.filter _)
      have hrest : ∀ x ∈ (clusters R (others R a l)).flatten, x ∈ l ∧ R a x = false :=
        fun x hx => mem_others.mp (hsub hx)
      have hcluster : ∀ x ∈ (if near R a l = [] then [] else [a :: near R a l]).flatten,
          x = a ∨ x ∈ near R a l := by
        intro x hx
        split at hx
        · exact absurd hx List.not_mem_nil
        · rw [List.flatten_singleton] at hx
          exact List.mem_cons.mp hx
      rw [clusters, List.flatten_append, List.nodup_append]
      refine ⟨⟨?_, hnodup, fun x hx y hy heq => ?_⟩, fun x hx => ?_⟩
      · split
        · exact List.nodup_nil
        · rw [List.flatten_singleton, List.nodup_cons]
          exact ⟨fun hmem => ha (mem_near.mp hmem).1, hl.filter _⟩
      · subst heq
        obtain ⟨hmem, hfar⟩ := hrest x hy
        rcases hcluster x hx with rfl | hnear
        · exact ha hmem
        · exact Bool.eq_false_iff.mp hfar (mem_near.mp hnear).2
      · rcases List.mem_append.mp hx with hx | hx
        · rcases hcluster x hx with rfl | hnear
          · exact List.mem_cons_self
          · exact List.mem_cons_of_mem _ (mem_near.mp hnear).1
        · exact List.mem_cons_of_mem _ (hrest x hx).1

end Clusters
