import Mathlib.Data.Finset.Card
import Mathlib.Data.Finset.Dedup

/-!
# Collecting without repetition

Elements are appended to a list of bounded length unless one with the same key is there
already.

What is collected is `Tidy`: no key twice, no more elements than the limit, all of them
offered. An element that is missing either shares its key with one that is there or came when
the list was full; and the list is full exactly when enough different keys have come, which is a
condition on the offers alone (`exists_mem_collect_iff`).
-/

namespace Collected

variable {α κ : Type*} [DecidableEq κ] {key : α → κ} {cap : Nat} {l xs ys : List α} {a b : α}

def push (key : α → κ) (cap : Nat) (l : List α) (a : α) : List α :=
  if cap ≤ l.length ∨ key a ∈ l.map key then l else l ++ [a]

/-- The elements of `xs`, one after the other. -/
def collect (key : α → κ) (cap : Nat) (xs : List α) : List α := xs.foldl (push key cap) []

/-- The number of keys. -/
def distinct (key : α → κ) (xs : List α) : Nat := (xs.map key).toFinset.card

theorem collect_append_singleton (xs : List α) (a : α) :
    collect key cap (xs ++ [a]) = push key cap (collect key cap xs) a := by
  rw [collect, List.foldl_append]
  rfl

theorem prefix_push (l : List α) (a : α) : l <+: push key cap l a := by
  unfold push
  split
  · exact List.prefix_refl l
  · exact List.prefix_append l [a]

/-- What was collected stays, and more is added behind it. -/
theorem collect_isPrefix (xs ys : List α) : collect key cap xs <+: collect key cap (xs ++ ys) := by
  induction ys using List.reverseRecOn with
  | nil => rw [List.append_nil]
  | append_singleton ys a ih =>
      rw [← List.append_assoc, collect_append_singleton]
      exact ih.trans (prefix_push _ a)

/-- What every collected list is like. -/
structure Tidy (key : α → κ) (cap : Nat) (xs l : List α) : Prop where
  subset : l ⊆ xs
  bounded : l.length ≤ cap
  nodup : (l.map key).Nodup
  complete : l.length < cap → ∀ x ∈ xs, key x ∈ l.map key

theorem collect_tidy (key : α → κ) (cap : Nat) (xs : List α) : Tidy key cap xs (collect key cap xs) := by
  induction xs using List.reverseRecOn with
  | nil => exact ⟨List.nil_subset _, Nat.zero_le _, List.nodup_nil, fun _ x hx => absurd hx List.not_mem_nil⟩
  | append_singleton xs a ih =>
      rw [collect_append_singleton, push]
      generalize collect key cap xs = l at ih ⊢
      split
      · next hkeep =>
          refine ⟨List.subset_append_of_subset_left _ ih.subset, ih.bounded, ih.nodup,
            fun hroom x hx => ?_⟩
          rcases List.mem_append.mp hx with hx | hx
          · exact ih.complete hroom x hx
          · rw [List.mem_singleton.mp hx]
            exact hkeep.resolve_left (Nat.not_le.mpr hroom)
      · next hnew =>
          rw [not_or, Nat.not_le] at hnew
          refine ⟨List.append_subset.mpr ⟨List.subset_append_of_subset_left _ ih.subset,
            List.subset_append_right _ _⟩, ?_, ?_, fun _ x hx => ?_⟩
          · rw [List.length_append, List.length_singleton]
            exact hnew.1
          · rw [List.map_append, List.nodup_append]
            refine ⟨ih.nodup, List.nodup_singleton _, fun k hk k' hk' heq => ?_⟩
            rw [List.map_singleton, List.mem_singleton] at hk'
            exact hnew.2 (hk' ▸ heq ▸ hk)
          · rw [List.map_append, List.mem_append]
            rcases List.mem_append.mp hx with hx | hx
            · exact .inl (ih.complete hnew.1 x hx)
            · rw [List.mem_singleton.mp hx]
              exact .inr (List.mem_singleton_self _)

theorem length_collect (key : α → κ) (cap : Nat) (xs : List α) :
    (collect key cap xs).length = min cap (distinct key xs) := by
  have h := collect_tidy key cap xs
  generalize collect key cap xs = l at h ⊢
  have hcard : (l.map key).toFinset.card = l.length := by
    rw [List.toFinset_card_of_nodup h.nodup, List.length_map]
  have hsub : (l.map key).toFinset ⊆ (xs.map key).toFinset := fun k hk => by
    rw [List.mem_toFinset] at hk ⊢
    exact List.map_subset key h.subset hk
  have hle := Finset.card_le_card hsub
  have hbounded := h.bounded
  unfold distinct
  by_cases hroom : l.length < cap
  · have hall : (xs.map key).toFinset ⊆ (l.map key).toFinset := fun k hk => by
      rw [List.mem_toFinset, List.mem_map] at hk
      obtain ⟨x, hx, rfl⟩ := hk
      exact List.mem_toFinset.mpr (h.complete hroom x hx)
    have hge := Finset.card_le_card hall
    omega
  · omega

/-- A property of the keys holds of something collected if it holds of something that came
while there was room. -/
theorem exists_mem_collect_iff {P : α → Prop} (hP : ∀ a b, key a = key b → P a → P b) :
    (∃ a ∈ collect key cap xs, P a) ↔
      ∃ before a after, xs = before ++ a :: after ∧ P a ∧ distinct key before < cap := by
  constructor
  · rintro ⟨a, ha, hPa⟩
    induction xs using List.reverseRecOn with
    | nil => exact absurd ha List.not_mem_nil
    | append_singleton xs b ih =>
        rw [collect_append_singleton, push] at ha
        split at ha
        · obtain ⟨before, a', after, rfl, hPa', hroom⟩ := ih ha
          exact ⟨before, a', after ++ [b], by simp, hPa', hroom⟩
        · next hnew =>
            rw [not_or, Nat.not_le, length_collect] at hnew
            rcases List.mem_append.mp ha with ha | ha
            · obtain ⟨before, a', after, rfl, hPa', hroom⟩ := ih ha
              exact ⟨before, a', after ++ [b], by simp, hPa', hroom⟩
            · rw [List.mem_singleton.mp ha] at hPa
              exact ⟨xs, b, [], rfl, hPa, by omega⟩
  · rintro ⟨before, a, after, rfl, hPa, hroom⟩
    have hkey : key a ∈ (collect key cap (before ++ [a])).map key := by
      rw [collect_append_singleton, push]
      split
      · next hkeep =>
          refine hkeep.resolve_left ?_
          rw [length_collect]
          omega
      · rw [List.map_append]
        exact List.mem_append_right _ (List.mem_singleton_self _)
    obtain ⟨b, hb, hsame⟩ := List.mem_map.mp hkey
    have hpre : collect key cap (before ++ [a]) <+: collect key cap (before ++ a :: after) := by
      have h : collect key cap (before ++ [a]) <+: collect key cap (before ++ [a] ++ after) :=
        collect_isPrefix _ _
      rwa [List.append_assoc, List.singleton_append] at h
    exact ⟨b, hpre.subset hb, hP a b hsame.symm hPa⟩

end Collected
