import Mathlib.Logic.Basic

/-!
# Runs of guarded actions

A system is a partial step function: an action either moves a state on or is not possible
there. A run is admissible when every action in it meets a condition on the state it finds.

Two rules come with this. `Reaches.invariant` is induction along a run. `Reaches.refine`
compares two conditions: one that implies the other wherever an invariant holds, and
keeps the invariant, has fewer runs, so that what is shown for the weaker condition holds for
the stronger one as well. `run` is the executable side, for traces.
-/

namespace Actions

variable {α σ : Type}

/-- The states that admissible runs reach from a start state. -/
inductive Reaches (step : α → σ → Option σ) (ok : α → σ → Prop) (start : σ → Prop) : σ → Prop
  | start {s : σ} (hs : start s) : Reaches step ok start s
  | step {s s' : σ} {a : α} (h : Reaches step ok start s) (hok : ok a s) (hstep : step a s = some s') :
      Reaches step ok start s'

variable {step : α → σ → Option σ} {ok : α → σ → Prop} {start : σ → Prop} {s s' : σ}

/-- What holds at the start and is kept by each admissible action holds in every state reached. -/
theorem Reaches.invariant {inv : σ → Prop} (h : Reaches step ok start s)
    (hstart : ∀ s, start s → inv s)
    (hkeep : ∀ a s s', inv s → ok a s → step a s = some s' → inv s') : inv s := by
  induction h with
  | start hs => exact hstart _ hs
  | step _ hok hstep ih => exact hkeep _ _ _ ih hok hstep

/-- Where a condition and an invariant it keeps imply another condition, its runs are runs of the
other. -/
theorem Reaches.refine {ok' : α → σ → Prop} {inv : σ → Prop} (h : Reaches step ok start s)
    (hstart : ∀ s, start s → inv s)
    (hkeep : ∀ a s s', inv s → ok a s → step a s = some s' → inv s')
    (hok : ∀ a s, inv s → ok a s → ok' a s) : Reaches step ok' start s := by
  induction h with
  | start hs => exact .start hs
  | step hreach hstepOk hstep ih =>
      exact .step ih (hok _ _ (hreach.invariant hstart hkeep) hstepOk) hstep

/-- The state after a list of actions, where all of them are possible. -/
def run (step : α → σ → Option σ) : List α → σ → Option σ
  | [], s => some s
  | a :: as, s => (step a s).bind (run step as)

/-- A run of actions that are admissible wherever they are possible. -/
theorem Reaches.run {as : List α} (h : Reaches step ok start s) (hok : ∀ a ∈ as, ∀ s, ok a s)
    (hrun : run step as s = some s') : Reaches step ok start s' := by
  induction as generalizing s with
  | nil => exact Option.some.inj hrun ▸ h
  | cons a as ih =>
      obtain ⟨t, hstep, hrest⟩ := Option.bind_eq_some_iff.mp hrun
      exact ih (h.step (hok a List.mem_cons_self s) hstep)
        (fun b hb => hok b (List.mem_cons_of_mem _ hb)) hrest

end Actions
