import IronMem.Lib.Proc

/-!
# Calls under faults

A call that is made of two parts fails in the first, or runs the second from where the first
ended under what the oracle still has to say. An invariant of both parts is one of the call.

`Keeps` looks at the store where a call stops, in a run of its own, and not at each
statement on any store, as `Preserves` in `Proc` does: what follows a read may rely on the store
the read was made on (`Keeps.query`).
-/

namespace Proc

variable {ℓ σ ε α β : Type}

/-- A sequence fails in its first part, or is its second part from where the first ended. -/
theorem run_bind_cases (fault : Nat → Option ε) (p : Proc ℓ σ ε α) (f : α → Proc ℓ σ ε β) (s : σ) :
    (∃ e, (p.run fault s).1 = .error e ∧
        (p >>= f).run fault s = (.error e, (p.run fault s).2)) ∨
      ∃ a fault', (p.run fault s).1 = .ok a ∧
        (p >>= f).run fault s = (f a).run fault' (p.run fault s).2 := by
  induction p generalizing fault s with
  | done r =>
      cases r with
      | error e => exact Or.inl ⟨e, rfl, rfl⟩
      | ok a => exact Or.inr ⟨a, fault, rfl, rfl⟩
  | step l act next ih =>
      rw [step_bind]
      cases hf : fault 0 with
      | some e =>
          rw [run_step_fault hf, run_step_fault hf]
          exact Or.inl ⟨e, rfl, rfl⟩
      | none =>
          cases hact : act s with
          | error e =>
              rw [run_step_error hf hact, run_step_error hf hact]
              exact Or.inl ⟨e, rfl, rfl⟩
          | ok r =>
              obtain ⟨c, t⟩ := r
              rw [run_step_ok hf hact, run_step_ok hf hact]
              exact ih c (later fault) t

/-- A statement that fails changes nothing. -/
theorem run_exec_error {fault : Nat → Option ε} {l : ℓ} {act : σ → Except ε (α × σ)} {s : σ} {e : ε}
    (h : ((exec l act).run fault s).1 = .error e) : ((exec l act).run fault s).2 = s := by
  rw [exec] at h ⊢
  cases hf : fault 0 with
  | some e' => rw [run_step_fault hf]
  | none =>
      cases hact : act s with
      | error e' => rw [run_step_error hf hact]
      | ok r =>
          rw [run_step_ok hf hact] at h
          cases h

/-- Wherever the call stops, the invariant it started from holds. -/
def Keeps (inv : σ → Prop) (p : Proc ℓ σ ε α) : Prop :=
  ∀ (fault : Nat → Option ε) (s : σ), inv s → inv (p.run fault s).2

variable {inv : σ → Prop}

theorem Keeps.done (r : Except ε α) : Keeps inv (.done r : Proc ℓ σ ε α) := fun _ _ hs => hs

theorem Keeps.of_preserves {p : Proc ℓ σ ε α} (h : Preserves inv p) : Keeps inv p :=
  fun fault _ hs => h.run fault hs

/-- The second part keeps the invariant wherever the first one stops. -/
theorem Keeps.after {p : Proc ℓ σ ε α} {f : α → Proc ℓ σ ε β} (hf : ∀ a, Keeps inv (f a))
    {fault : Nat → Option ε} {s : σ} (hp : inv (p.run fault s).2) :
    inv ((p >>= f).run fault s).2 := by
  rcases run_bind_cases fault p f s with ⟨e, -, h⟩ | ⟨a, fault', -, h⟩
  · rw [h]
    exact hp
  · rw [h]
    exact hf a fault' _ hp

theorem Keeps.bind {p : Proc ℓ σ ε α} {f : α → Proc ℓ σ ε β} (hp : Keeps inv p)
    (hf : ∀ a, Keeps inv (f a)) : Keeps inv (p >>= f) :=
  fun fault s hs => Keeps.after hf (hp fault s hs)

/-- A read binds what follows to the store it was made on. -/
theorem Keeps.query {l : ℓ} {read : σ → α} {f : α → Proc ℓ σ ε β}
    (h : ∀ (fault : Nat → Option ε) (s : σ), inv s → inv ((f (read s)).run fault s).2) :
    Keeps inv (Proc.query l read >>= f) := by
  intro fault s hs
  rw [query_bind, run_query]
  cases fault 0 with
  | some e => exact hs
  | none => exact h (later fault) s hs

/-- A loop keeps what each round keeps. -/
theorem Keeps.foldlM {γ : Type} {f : γ → α → Proc ℓ σ ε γ} (h : ∀ c a, Keeps inv (f c a))
    (l : List α) (c : γ) : Keeps inv (l.foldlM f c) := by
  induction l generalizing c with
  | nil => exact .done _
  | cons a l ih => exact (h c a).bind fun c' => ih c'

end Proc
