import Mathlib.Data.List.Forall2

/-!
# Fallible loops

What a loop over `Except` has done when it succeeded: inversion of `bind`,
`forM`, `mapM` and `foldlM`, with an induction rule for the last.

The lemmas are equivalences where they can be, so that a successful call is taken apart and a
call that has to succeed is put together with the same ones.
-/

namespace Fallible

variable {ε α β σ : Type}

theorem bind_eq_ok {x : Except ε α} {f : α → Except ε β} {b : β} :
    (x >>= f) = .ok b ↔ ∃ a, x = .ok a ∧ f a = .ok b := by
  cases x with
  | error e => simp [bind, Except.bind]
  | ok a => simp [bind, Except.bind]

theorem bind_eq_error {x : Except ε α} {f : α → Except ε β} {e : ε} :
    (x >>= f) = .error e ↔ x = .error e ∨ ∃ a, x = .ok a ∧ f a = .error e := by
  cases x with
  | error e => simp [bind, Except.bind]
  | ok a => simp [bind, Except.bind]

theorem pure_eq_ok {a b : α} : (pure a : Except ε α) = .ok b ↔ a = b := by
  simp [pure, Except.pure]

theorem throw_bind_eq_ok {e : ε} {f : α → Except ε β} {b : β} :
    (throw e >>= f) = .ok b ↔ False := by
  simp [bind_eq_ok, throw, throwThe, MonadExceptOf.throw]

theorem mapError_eq_ok {ε' : Type} {x : Except ε α} {f : ε → ε'} {a : α} :
    x.mapError f = .ok a ↔ x = .ok a := by
  cases x <;> simp [Except.mapError]

/-- The computation succeeds, with a result of this kind. -/
def okAnd (p : α → Bool) : Except ε α → Bool
  | .ok a => p a
  | .error _ => false

theorem okAnd_eq_true {p : α → Bool} {x : Except ε α} :
    okAnd p x = true ↔ ∃ a, x = .ok a ∧ p a = true := by
  cases x with
  | error e => simp [okAnd]
  | ok a => simp [okAnd]

theorem forM_eq_ok {f : α → Except ε Unit} {l : List α} :
    l.forM f = .ok () ↔ ∀ a ∈ l, f a = .ok () := by
  induction l with
  | nil => simp [List.forM, pure, Except.pure]
  | cons x xs ih =>
      change (f x >>= fun _ => xs.forM f) = .ok () ↔ _
      rw [bind_eq_ok]
      constructor
      · rintro ⟨⟨⟩, hx, hxs⟩
        exact List.forall_mem_cons.mpr ⟨hx, ih.mp hxs⟩
      · intro h
        obtain ⟨hx, hxs⟩ := List.forall_mem_cons.mp h
        exact ⟨(), hx, ih.mpr hxs⟩

/-- The results of a fallible `map`, one by one. -/
theorem forall₂_of_mapM {f : α → Except ε β} {l : List α} {l' : List β} (h : l.mapM f = .ok l') :
    List.Forall₂ (fun a b => f a = .ok b) l l' := by
  induction l generalizing l' with
  | nil =>
      rw [List.mapM_nil, pure_eq_ok] at h
      exact h ▸ .nil
  | cons x xs ih =>
      rw [List.mapM_cons, bind_eq_ok] at h
      obtain ⟨y, hy, h⟩ := h
      rw [bind_eq_ok] at h
      obtain ⟨ys, hys, h⟩ := h
      rw [pure_eq_ok] at h
      exact h ▸ .cons hy (ih hys)

theorem mapM_of_forall₂ {f : α → Except ε β} {l : List α} {l' : List β}
    (h : List.Forall₂ (fun a b => f a = .ok b) l l') : l.mapM f = .ok l' := by
  induction h with
  | nil => rfl
  | cons hab _ ih => rw [List.mapM_cons, hab, ih]; rfl

theorem forall₂_left {α β : Type} {R : α → β → Prop} {l : List α} {l' : List β}
    (h : List.Forall₂ R l l') : ∀ a ∈ l, ∃ b ∈ l', R a b := by
  induction h with
  | nil => simp
  | cons hab _ ih =>
      intro a ha
      rcases List.mem_cons.mp ha with rfl | ha
      · exact ⟨_, List.mem_cons_self .., hab⟩
      · obtain ⟨b, hb, hR⟩ := ih a ha
        exact ⟨b, List.mem_cons_of_mem _ hb, hR⟩

theorem forall₂_right {α β : Type} {R : α → β → Prop} {l : List α} {l' : List β}
    (h : List.Forall₂ R l l') : ∀ b ∈ l', ∃ a ∈ l, R a b :=
  forall₂_left h.flip

/-- A `map` that succeeds everywhere. -/
theorem exists_mapM {f : α → Except ε β} {l : List α} (h : ∀ a ∈ l, ∃ b, f a = .ok b) :
    ∃ l', l.mapM f = .ok l' := by
  induction l with
  | nil => exact ⟨[], rfl⟩
  | cons a l ih =>
      obtain ⟨⟨b, hb⟩, hl⟩ := List.forall_mem_cons.mp h
      obtain ⟨l', hl'⟩ := ih hl
      exact ⟨b :: l', by rw [List.mapM_cons, hb, hl']; rfl⟩

/-- A `map` whose results are known to succeed with one value. -/
theorem exists_mapM_of_forall {f : α → Except ε β} {l : List α} {x : α} {y : β}
    (h : ∀ a ∈ l, f a = .ok y) (hx : x ∈ l) : ∃ l', l.mapM f = .ok l' ∧ y ∈ l' := by
  have hmap : ∀ l : List α, (∀ a ∈ l, f a = .ok y) → l.mapM f = .ok (l.map fun _ => y) := by
    intro l
    induction l with
    | nil => intro _; rfl
    | cons a l ih =>
        intro hl
        obtain ⟨ha, hrest⟩ := List.forall_mem_cons.mp hl
        rw [List.mapM_cons, ha, ih hrest]
        rfl
  exact ⟨_, hmap l h, List.mem_map.mpr ⟨x, hx, rfl⟩⟩

theorem foldlM_nil_eq_ok {f : σ → α → Except ε σ} {s s' : σ} :
    [].foldlM f s = .ok s' ↔ s = s' := by
  rw [List.foldlM_nil, pure_eq_ok]

theorem foldlM_cons_eq_ok {f : σ → α → Except ε σ} {a : α} {l : List α} {s s' : σ} :
    (a :: l).foldlM f s = .ok s' ↔ ∃ t, f s a = .ok t ∧ l.foldlM f t = .ok s' := by
  rw [List.foldlM_cons, bind_eq_ok]

theorem foldlM_append_eq_ok {f : σ → α → Except ε σ} {l l' : List α} {s s' : σ} :
    (l ++ l').foldlM f s = .ok s' ↔ ∃ t, l.foldlM f s = .ok t ∧ l'.foldlM f t = .ok s' := by
  rw [List.foldlM_append, bind_eq_ok]

/-- What every iteration preserves holds after the loop. -/
theorem foldlM_induction {f : σ → α → Except ε σ} {p : σ → Prop} {l : List α} {s s' : σ}
    (h : l.foldlM f s = .ok s') (hstep : ∀ s a s', a ∈ l → p s → f s a = .ok s' → p s')
    (hs : p s) : p s' := by
  induction l generalizing s with
  | nil => exact foldlM_nil_eq_ok.mp h ▸ hs
  | cons x xs ih =>
      obtain ⟨t, ht, h⟩ := foldlM_cons_eq_ok.mp h
      exact ih h (fun s a s' ha => hstep s a s' (List.mem_cons_of_mem _ ha))
        (hstep s x t (List.mem_cons_self ..) hs ht)

end Fallible
