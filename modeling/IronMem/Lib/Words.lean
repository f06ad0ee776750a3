import Mathlib.Data.List.Basic

/-!
# Words

Lists that are joined by a separator and taken apart again. What a joined list says
about its parts needs that the parts are free of the separator.

Of two parts only the second has to be free of it (`append_separator_inj`): the last separator
is then the one that joins them. `words` is a split list without its empty parts, and its
lemmas follow a loop that reads the list from the left.
-/

namespace Words

variable {α : Type*} {p : α → Bool} {c : α} {l sep word x y x' y' : List α} {parts : List (List α)}

/-- The parts of a split list are made of what does not separate. -/
theorem mem_splitOnP (h : word ∈ l.splitOnP p) (hc : c ∈ word) : p c = false ∧ c ∈ l := by
  induction l generalizing word with
  | nil =>
      rw [List.splitOnP_nil, List.mem_singleton] at h
      rw [h] at hc
      cases hc
  | cons a l ih =>
      rw [List.splitOnP_cons_eq_if_modifyHead] at h
      cases ha : p a with
      | true =>
          rw [ha, if_pos rfl, List.mem_cons] at h
          rcases h with rfl | h
          · cases hc
          · exact ⟨(ih h hc).1, List.mem_cons_of_mem _ (ih h hc).2⟩
      | false =>
          rw [ha, if_neg Bool.false_ne_true] at h
          obtain ⟨first, rest, heq⟩ := List.exists_cons_of_ne_nil (List.splitOnP_ne_nil p l)
          rw [heq, List.modifyHead_cons, List.mem_cons] at h
          rcases h with rfl | h
          · rcases List.mem_cons.mp hc with rfl | hc
            · exact ⟨ha, List.mem_cons_self⟩
            · have hfirst := ih (heq ▸ List.mem_cons_self) hc
              exact ⟨hfirst.1, List.mem_cons_of_mem _ hfirst.2⟩
          · have hrest := ih (heq ▸ List.mem_cons_of_mem _ h) hc
            exact ⟨hrest.1, List.mem_cons_of_mem _ hrest.2⟩

theorem mem_intercalate (h : c ∈ sep.intercalate parts) : c ∈ sep ∨ ∃ word ∈ parts, c ∈ word := by
  induction parts with
  | nil => cases h
  | cons word rest ih =>
      rcases rest with _ | ⟨next, rest⟩
      · rw [List.intercalate_singleton] at h
        exact Or.inr ⟨word, List.mem_cons_self, h⟩
      · rw [List.intercalate_cons_cons, List.append_assoc, List.mem_append, List.mem_append] at h
        rcases h with h | h | h
        · exact Or.inr ⟨word, List.mem_cons_self, h⟩
        · exact Or.inl h
        · rcases ih h with hsep | ⟨word', hmem, hc⟩
          · exact Or.inl hsep
          · exact Or.inr ⟨word', List.mem_cons_of_mem _ hmem, hc⟩

/-- After the last separator comes what is free of it. -/
theorem append_separator_inj (hy : c ∉ y) (hy' : c ∉ y') (h : x ++ c :: y = x' ++ c :: y') :
    x = x' ∧ y = y' := by
  rcases List.append_eq_append_iff.mp h with ⟨t, hx, ht⟩ | ⟨t, hx, ht⟩
  · rcases t with _ | ⟨d, t⟩
    · exact ⟨(hx.trans (List.append_nil x)).symm, (List.cons.inj ht).2⟩
    · obtain ⟨rfl, rfl⟩ := List.cons.inj ht
      exact absurd (by simp) hy
  · rcases t with _ | ⟨d, t⟩
    · exact ⟨hx.trans (List.append_nil x'), (List.cons.inj ht).2.symm⟩
    · obtain ⟨rfl, rfl⟩ := List.cons.inj ht
      exact absurd (by simp) hy'

/-! ## Word lists -/

/-- The words between what separates. -/
def words (p : α → Bool) (l : List α) : List (List α) := (l.splitOnP p).filter fun w => !w.isEmpty

theorem words_nil : words p [] = [] := by
  rw [words, List.splitOnP_nil]
  rfl

theorem words_separator (hc : p c = true) : words p (c :: l) = words p l := by
  rw [words, List.splitOnP_cons_eq_if_modifyHead, if_pos hc]
  rfl

theorem words_append_separator (hc : p c = true) : words p (x ++ c :: y) = words p x ++ words p y := by
  rw [words, List.splitOnP_append_cons x y hc, List.filter_append]
  rfl

theorem words_singleton (hword : ∀ c ∈ word, p c = false) (hne : word ≠ []) :
    words p word = [word] := by
  rw [words, List.splitOnP_eq_singleton hword]
  simp [hne]

/-- A separator ends the word that is being read. -/
theorem words_word_separator (hword : ∀ c ∈ word, p c = false) (hne : word ≠ []) (hc : p c = true) :
    words p (word ++ c :: l) = word :: words p l := by
  rw [words_append_separator hc, words_singleton hword hne]
  rfl

theorem mem_words (h : word ∈ words p l) : word ≠ [] ∧ ∀ c ∈ word, p c = false := by
  obtain ⟨hmem, hne⟩ := List.mem_filter.mp h
  exact ⟨by simpa using hne, fun c hc => (mem_splitOnP hmem hc).1⟩

/-- Joined words say which they were. -/
theorem intercalate_inj [BEq α] [LawfulBEq α] {ws ws' : List (List α)}
    (hws : ∀ w ∈ ws, w ≠ [] ∧ c ∉ w) (hws' : ∀ w ∈ ws', w ≠ [] ∧ c ∉ w)
    (h : [c].intercalate ws = [c].intercalate ws') : ws = ws' := by
  have hnil : ∀ {ws : List (List α)}, (∀ w ∈ ws, w ≠ [] ∧ c ∉ w) → [c].intercalate ws = [] →
      ws = [] := by
    intro ws hws heq
    by_contra hne
    have hsplit := List.splitOn_intercalate c (fun w hw => (hws w hw).2) hne
    rw [heq] at hsplit
    obtain ⟨w, hw⟩ := List.exists_mem_of_ne_nil ws hne
    have hempty : w = [] := by
      rw [← hsplit] at hw
      simpa [List.splitOn_eq_splitOnP, List.splitOnP_nil] using hw
    exact (hws w hw).1 hempty
  by_cases hne : ws = []
  · subst hne
    rw [List.intercalate_nil] at h
    exact (hnil hws' h.symm).symm
  · by_cases hne' : ws' = []
    · subst hne'
      rw [List.intercalate_nil] at h
      exact absurd (hnil hws h) hne
    · rw [← List.splitOn_intercalate c (fun w hw => (hws w hw).2) hne, h,
        List.splitOn_intercalate c (fun w hw => (hws' w hw).2) hne']

theorem intercalate_concat {ws : List (List α)} (hws : ws ≠ []) :
    sep.intercalate (ws ++ [word]) = sep.intercalate ws ++ sep ++ word := by
  induction ws with
  | nil => exact absurd rfl hws
  | cons first rest ih =>
      rcases rest with _ | ⟨next, rest⟩
      · rw [List.singleton_append, List.intercalate_cons_cons, List.intercalate_singleton,
          List.intercalate_singleton]
      · rw [List.cons_append, List.cons_append, List.intercalate_cons_cons, ← List.cons_append,
          ih (List.cons_ne_nil _ _), List.intercalate_cons_cons]
        simp only [List.append_assoc]

/-- The last word grows. -/
theorem intercalate_grow {ws : List (List α)} :
    sep.intercalate (ws ++ [word ++ y]) = sep.intercalate (ws ++ [word]) ++ y := by
  by_cases hws : ws = []
  · rw [hws, List.nil_append, List.nil_append, List.intercalate_singleton, List.intercalate_singleton]
  · rw [intercalate_concat hws, intercalate_concat hws, List.append_assoc _ word]

end Words
