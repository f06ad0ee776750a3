import IronMem.Lib.Proc

/-!
# Runs whose statements meet a condition

The condition speaks about the statement a call is about to run and the store it
meets. A run is admissible when every statement in it meets the condition. Two rules
for what such runs guarantee: what every statement preserves (`PreservesWhen`), and
what a call has established once it succeeded (`Leads`). Schedules are the executable
side: what a schedule computes is a run.

Where no two calls overlap a condition on whole calls is enough. `Serial` is for those: calls
run one after the other, each to its success, and a condition and an invariant are about
the store before and after a call.
-/

namespace Proc

variable {ℓ σ ε α β γ : Type} {inv : σ → Prop}

section When

variable {ok : ℓ → σ → Prop}

/-- Every statement the call can reach preserves `inv` where it meets the condition. -/
inductive PreservesWhen (ok : ℓ → σ → Prop) (inv : σ → Prop) : Proc ℓ σ ε α → Prop
  | done (r : Except ε α) : PreservesWhen ok inv (done r)
  | step {β : Type} {l : ℓ} {act : σ → Except ε (β × σ)} {next : β → Proc ℓ σ ε α}
      (hact : ∀ s b s', ok l s → inv s → act s = .ok (b, s') → inv s')
      (hnext : ∀ b, PreservesWhen ok inv (next b)) : PreservesWhen ok inv (step l act next)

theorem Preserves.when {p : Proc ℓ σ ε α} (h : Preserves inv p) : PreservesWhen ok inv p := by
  induction h with
  | done r => exact .done r
  | step hact _ ih => exact .step (fun s b s' _ => hact s b s') ih

/-- A condition that always holds is none. -/
theorem PreservesWhen.preserves {p : Proc ℓ σ ε α} (h : PreservesWhen (fun _ _ => True) inv p) :
    Preserves inv p := by
  induction h with
  | done r => exact .done r
  | step hact _ ih => exact .step (fun s b s' => hact s b s' trivial) ih

theorem PreservesWhen.bind {p : Proc ℓ σ ε α} {f : α → Proc ℓ σ ε β}
    (hp : PreservesWhen ok inv p) (hf : ∀ a, PreservesWhen ok inv (f a)) :
    PreservesWhen ok inv (p >>= f) := by
  induction hp with
  | done r =>
      cases r with
      | ok a => exact hf a
      | error e => exact .done _
  | step hact _ ih => exact .step hact ih

theorem PreservesWhen.query (l : ℓ) (read : σ → α) :
    PreservesWhen ok inv (query l read : Proc ℓ σ ε α) :=
  (Preserves.query l read).when

theorem PreservesWhen.exec {l : ℓ} {act : σ → Except ε (α × σ)}
    (hact : ∀ s b s', ok l s → inv s → act s = .ok (b, s') → inv s') :
    PreservesWhen ok inv (exec l act : Proc ℓ σ ε α) :=
  .step hact fun _ => .done _

theorem PreservesWhen.of_step {l : ℓ} {act : σ → Except ε (β × σ)} {next : β → Proc ℓ σ ε α}
    (h : PreservesWhen ok inv (Proc.step l act next)) :
    (∀ s b s', ok l s → inv s → act s = .ok (b, s') → inv s') ∧
      ∀ b, PreservesWhen ok inv (next b) := by
  cases h with
  | step hact hnext => exact ⟨hact, hnext⟩

variable {κ : Type} {body : κ → Proc ℓ σ ε Unit}

/-- A step whose statement, if it runs one, meets the condition. -/
inductive StepWhen (ok : ℓ → σ → Prop) (body : κ → Proc ℓ σ ε Unit) :
    σ × List (Thread κ ℓ σ ε) → σ × List (Thread κ ℓ σ ε) → Prop
  | start (s : σ) (pool : List (Thread κ ℓ σ ε)) (call : κ) :
      StepWhen ok body (s, pool) (s, pool ++ [⟨call, body call⟩])
  | advance {s s' : σ} {before after : List (Thread κ ℓ σ ε)} {call : κ} {β : Type} {l : ℓ}
      {act : σ → Except ε (β × σ)} {next : β → Proc ℓ σ ε Unit} {b : β} (hok : ok l s)
      (hact : act s = .ok (b, s')) :
      StepWhen ok body (s, before ++ ⟨call, step l act next⟩ :: after)
        (s', before ++ ⟨call, next b⟩ :: after)
  | drop (s : σ) (before after : List (Thread κ ℓ σ ε)) (t : Thread κ ℓ σ ε) :
      StepWhen ok body (s, before ++ t :: after) (s, before ++ after)

/-- What an admissible run reaches. -/
abbrev ReachesWhen (ok : ℓ → σ → Prop) (body : κ → Proc ℓ σ ε Unit) :
    σ × List (Thread κ ℓ σ ε) → σ × List (Thread κ ℓ σ ε) → Prop :=
  Relation.ReflTransGen (StepWhen ok body)

theorem StepWhen.step {c c' : σ × List (Thread κ ℓ σ ε)} (h : StepWhen ok body c c') :
    Step body c c' := by
  cases h with
  | start s pool call => exact .start s pool call
  | advance _ hact => exact .advance hact
  | drop s before after t => exact .drop s before after t

/-- The calls in progress keep to what the calls do. -/
theorem StepWhen.pool (hbody : ∀ call, PreservesWhen ok inv (body call))
    {c c' : σ × List (Thread κ ℓ σ ε)} (h : StepWhen ok body c c')
    (hpool : ∀ t ∈ c.2, PreservesWhen ok inv t.rest) :
    ∀ t ∈ c'.2, PreservesWhen ok inv t.rest := by
  intro t ht
  cases h with
  | start s pool call =>
      rcases List.mem_append.mp ht with ht | ht
      · exact hpool t ht
      · rw [List.mem_singleton.mp ht]
        exact hbody call
  | @advance s s' before after call β l act next b _ _ =>
      rcases List.mem_append.mp ht with ht | ht
      · exact hpool t (List.mem_append_left _ ht)
      · rcases List.mem_cons.mp ht with rfl | ht
        · exact (hpool _ (List.mem_append_right _ List.mem_cons_self)).of_step.2 b
        · exact hpool t (List.mem_append_right _ (List.mem_cons_of_mem _ ht))
  | drop s before after u =>
      refine hpool t ?_
      rcases List.mem_append.mp ht with ht | ht
      · exact List.mem_append_left _ ht
      · exact List.mem_append_right _ (List.mem_cons_of_mem _ ht)

/-- One admissible step keeps the invariant. -/
theorem StepWhen.preserves {c c' : σ × List (Thread κ ℓ σ ε)} (h : StepWhen ok body c c')
    (hpool : ∀ t ∈ c.2, PreservesWhen ok inv t.rest) (hs : inv c.1) : inv c'.1 := by
  cases h with
  | start s pool call => exact hs
  | @advance s s' before after call β l act next b hok hact =>
      exact (hpool _ (List.mem_append_right _ List.mem_cons_self)).of_step.1 s b s' hok hs hact
  | drop s before after t => exact hs

theorem ReachesWhen.pool (hbody : ∀ call, PreservesWhen ok inv (body call))
    {c c' : σ × List (Thread κ ℓ σ ε)} (h : ReachesWhen ok body c c')
    (hpool : ∀ t ∈ c.2, PreservesWhen ok inv t.rest) :
    ∀ t ∈ c'.2, PreservesWhen ok inv t.rest := by
  induction h with
  | refl => exact hpool
  | tail _ hstep ih => exact hstep.pool hbody ih

/-- From any point of an admissible run the invariant goes on to hold. -/
theorem ReachesWhen.invariant (hbody : ∀ call, PreservesWhen ok inv (body call)) {s₀ : σ}
    {c c' : σ × List (Thread κ ℓ σ ε)} (hstart : ReachesWhen ok body (s₀, []) c)
    (h : ReachesWhen ok body c c') (hs : inv c.1) : inv c'.1 := by
  have hpool := hstart.pool hbody (by simp)
  induction h with
  | refl => exact hs
  | tail hc hstep ih => exact hstep.preserves (ReachesWhen.pool hbody hc hpool) ih

/-- An invariant of an admissible run may be used as part of the condition. -/
theorem ReachesWhen.strengthen {base : σ → Prop}
    (hbody : ∀ call, PreservesWhen ok base (body call)) {s₀ : σ} (hs : base s₀)
    {c : σ × List (Thread κ ℓ σ ε)} (h : ReachesWhen ok body (s₀, []) c) :
    ReachesWhen (fun l s => ok l s ∧ base s) body (s₀, []) c := by
  induction h with
  | refl => exact .refl
  | tail hreach hstep ih =>
      have hbase := ReachesWhen.invariant hbody .refl hreach hs
      refine .tail ih ?_
      cases hstep with
      | start s pool call => exact .start s pool call
      | advance hok hact => exact .advance ⟨hok, hbase⟩ hact
      | drop s before after t => exact .drop s before after t

/-! ### What a call leaves behind -/

/-- Every way of the call to success leads through a statement that establishes `inv`. -/
inductive Leads (ok : ℓ → σ → Prop) (inv : σ → Prop) : Proc ℓ σ ε α → Prop
  | error (e : ε) : Leads ok inv (done (.error e))
  | here {β : Type} {l : ℓ} {act : σ → Except ε (β × σ)} {next : β → Proc ℓ σ ε α}
      (hact : ∀ s b s', ok l s → act s = .ok (b, s') → inv s') : Leads ok inv (step l act next)
  | later {β : Type} {l : ℓ} {act : σ → Except ε (β × σ)} {next : β → Proc ℓ σ ε α}
      (hnext : ∀ b, Leads ok inv (next b)) : Leads ok inv (step l act next)

theorem Leads.advance {l : ℓ} {act : σ → Except ε (β × σ)} {next : β → Proc ℓ σ ε α}
    (h : Leads ok inv (Proc.step l act next)) {s s' : σ} {b : β} (hok : ok l s)
    (hact : act s = .ok (b, s')) : inv s' ∨ Leads ok inv (next b) := by
  cases h with
  | here hinv => exact Or.inl (hinv s b s' hok hact)
  | later hnext => exact Or.inr (hnext b)

theorem Leads.bind_left {p : Proc ℓ σ ε α} {f : α → Proc ℓ σ ε β} (h : Leads ok inv p) :
    Leads ok inv (p >>= f) := by
  induction h with
  | error e => exact .error e
  | here hact => exact .here hact
  | later _ ih => exact .later ih

/-- A call in progress has established the invariant or still leads there. -/
theorem StepWhen.leads {which : κ → Prop}
    (hleads : ∀ call, which call → Leads ok inv (body call))
    {c c' : σ × List (Thread κ ℓ σ ε)} (h : StepWhen ok body c c')
    (hpool : ∀ t ∈ c.2, PreservesWhen ok inv t.rest)
    (hc : ∀ t ∈ c.2, which t.call → inv c.1 ∨ Leads ok inv t.rest) :
    ∀ t ∈ c'.2, which t.call → inv c'.1 ∨ Leads ok inv t.rest := by
  intro t ht hcall
  have hkeeps : inv c.1 → inv c'.1 := h.preserves hpool
  cases h with
  | start s pool call =>
      rcases List.mem_append.mp ht with ht | ht
      · exact hc t ht hcall
      · rw [List.mem_singleton.mp ht] at hcall ⊢
        exact Or.inr (hleads call hcall)
  | @advance s s' before after call β l act next b hok hact =>
      rcases List.mem_append.mp ht with ht | ht
      · exact (hc t (List.mem_append_left _ ht) hcall).imp_left hkeeps
      · rcases List.mem_cons.mp ht with rfl | ht
        · rcases hc _ (List.mem_append_right _ List.mem_cons_self) hcall with hinv | hlead
          · exact Or.inl (hkeeps hinv)
          · exact hlead.advance hok hact
        · exact (hc t (List.mem_append_right _ (List.mem_cons_of_mem _ ht)) hcall).imp_left hkeeps
  | drop s before after u =>
      refine hc t ?_ hcall
      rcases List.mem_append.mp ht with ht | ht
      · exact List.mem_append_left _ ht
      · exact List.mem_append_right _ (List.mem_cons_of_mem _ ht)

/-- When a call that leads to the invariant has succeeded, the invariant holds and goes
on to hold. -/
theorem ReachesWhen.established {which : κ → Prop}
    (hbody : ∀ call, PreservesWhen ok inv (body call))
    (hleads : ∀ call, which call → Leads ok inv (body call)) {s₀ s : σ}
    {pool : List (Thread κ ℓ σ ε)} (h : ReachesWhen ok body (s₀, []) (s, pool))
    {t : Thread κ ℓ σ ε} (ht : t ∈ pool) (hcall : which t.call) (hdone : t.rest = done (.ok ())) :
    inv s := by
  have hall : ∀ c, ReachesWhen ok body (s₀, []) c →
      ∀ t ∈ c.2, which t.call → inv c.1 ∨ Leads ok inv t.rest := by
    intro c hc
    induction hc with
    | refl => simp
    | tail hreach hstep ih =>
        exact hstep.leads hleads (ReachesWhen.pool hbody hreach (by simp)) ih
  rcases hall _ h t ht hcall with hinv | hlead
  · exact hinv
  · rw [hdone] at hlead
    cases hlead

/-! ### Schedules -/

/-- One entry of a schedule: somebody calls, or the call at this place of the pool runs
its next statement. -/
inductive Move (κ : Type) where
  | call (call : κ)
  | run (i : Nat)

def move (ok : ℓ → σ → Prop) [∀ l s, Decidable (ok l s)] (body : κ → Proc ℓ σ ε Unit)
    (c : σ × List (Thread κ ℓ σ ε)) : Move κ → Option (σ × List (Thread κ ℓ σ ε))
  | .call call => some (c.1, c.2 ++ [⟨call, body call⟩])
  | .run i =>
      match c.2[i]? with
      | some ⟨call, .step l act next⟩ =>
          if ok l c.1 then
            match act c.1 with
            | .ok (b, s') => some (s', c.2.set i ⟨call, next b⟩)
            | .error _ => none
          else none
      | _ => none

/-- The call has returned successfully. -/
def succeeded : Proc ℓ σ ε Unit → Bool
  | done (.ok ()) => true
  | _ => false

theorem eq_done_of_succeeded {p : Proc ℓ σ ε Unit} (h : p.succeeded = true) :
    p = done (.ok ()) := by
  unfold succeeded at h
  split at h
  · rfl
  · cases h

/-- Run a schedule, as long as every statement meets the condition and none refuses. -/
def runMoves (ok : ℓ → σ → Prop) [∀ l s, Decidable (ok l s)] (body : κ → Proc ℓ σ ε Unit)
    (moves : List (Move κ)) (c : σ × List (Thread κ ℓ σ ε)) :
    Option (σ × List (Thread κ ℓ σ ε)) :=
  moves.foldlM (move ok body) c

theorem StepWhen.of_move [∀ l s, Decidable (ok l s)] {c c' : σ × List (Thread κ ℓ σ ε)}
    {m : Move κ} (h : move ok body c m = some c') : StepWhen ok body c c' := by
  cases m with
  | call call =>
      obtain rfl := Option.some.inj h
      exact .start c.1 c.2 call
  | run i =>
      obtain ⟨s, pool⟩ := c
      simp only [move] at h
      split at h
      · next call β l act next hget =>
          split at h
          · next hok =>
              split at h
              · next b s' hact =>
                  obtain rfl := Option.some.inj h
                  obtain ⟨hi, hthread⟩ := List.getElem?_eq_some_iff.mp hget
                  have hpool : pool = pool.take i ++ ⟨call, .step l act next⟩ :: pool.drop (i + 1) := by
                    rw [← hthread, ← List.drop_eq_getElem_cons hi, List.take_append_drop]
                  rw [List.set_eq_take_append_cons_drop, if_pos hi]
                  exact Eq.mpr (congrArg (fun p => StepWhen ok body (s, p) _) hpool)
                    (.advance hok hact)
              · cases h
          · cases h
      · cases h

theorem ReachesWhen.of_moves [∀ l s, Decidable (ok l s)] {moves : List (Move κ)}
    {c c' : σ × List (Thread κ ℓ σ ε)} (h : runMoves ok body moves c = some c') :
    ReachesWhen ok body c c' := by
  induction moves generalizing c with
  | nil =>
      obtain rfl := Option.some.inj h
      exact .refl
  | cons m moves ih =>
      rw [runMoves, List.foldlM_cons, Option.bind_eq_bind, Option.bind_eq_some_iff] at h
      obtain ⟨c₁, hmove, hrest⟩ := h
      exact .head (.of_move hmove) (ih hrest)

theorem ReachesWhen.reaches {c c' : σ × List (Thread κ ℓ σ ε)} (h : ReachesWhen ok body c c') :
    Reaches body c c' := by
  induction h with
  | refl => exact .refl
  | tail _ hstep ih => exact .tail ih hstep.step

end When

/-! ## Calls one after the other -/

section Serial

variable {κ : Type} {body : κ → Proc ℓ σ ε Unit} {ok : κ → σ → Prop}

/-- The parts of a call that succeeds. -/
theorem run_bind_ok {p : Proc ℓ σ ε α} {f : α → Proc ℓ σ ε β} {s s' : σ} {b : β}
    (h : (p >>= f).run noFault s = (.ok b, s')) :
    ∃ a s₁, p.run noFault s = (.ok a, s₁) ∧ (f a).run noFault s₁ = (.ok b, s') := by
  induction p generalizing s with
  | done r =>
      cases r with
      | ok a => exact ⟨a, s, rfl, h⟩
      | error e => cases h
  | step l act next ih =>
      rw [step_bind] at h
      cases hact : act s with
      | error e => rw [run_step_error rfl hact] at h; cases h
      | ok r =>
          obtain ⟨c, t⟩ := r
          rw [run_step_ok rfl hact] at h
          obtain ⟨a, s₁, hp, hf⟩ := ih c h
          exact ⟨a, s₁, by rw [run_step_ok rfl hact]; exact hp, hf⟩

/-- After a part that succeeds the rest runs from where it ended. -/
theorem run_bind_of_ok {p : Proc ℓ σ ε α} {f : α → Proc ℓ σ ε β} {s s₁ : σ} {a : α}
    (h : p.run noFault s = (.ok a, s₁)) : (p >>= f).run noFault s = (f a).run noFault s₁ := by
  induction p generalizing s with
  | done r =>
      obtain ⟨rfl, rfl⟩ := Prod.mk.inj h
      rfl
  | step l act next ih =>
      rw [step_bind]
      cases hact : act s with
      | error e => rw [run_step_error rfl hact] at h; cases h
      | ok r =>
          obtain ⟨c, t⟩ := r
          rw [run_step_ok rfl hact] at h ⊢
          exact ih c h

/-- A statement that succeeds. -/
theorem run_exec_ok {l : ℓ} {act : σ → Except ε (α × σ)} {s s' : σ} {a : α}
    (h : (exec l act).run noFault s = (.ok a, s')) : act s = .ok (a, s') := by
  cases hact : act s with
  | error e => rw [exec, run_step_error rfl hact] at h; cases h
  | ok r =>
      obtain ⟨b, t⟩ := r
      rw [exec, run_step_ok rfl hact] at h
      obtain ⟨hb, rfl⟩ := Prod.mk.inj h
      rw [Except.ok.inj hb]

theorem run_query_ok {l : ℓ} {read : σ → α} {s s' : σ} {a : α}
    (h : (query l read : Proc ℓ σ ε α).run noFault s = (.ok a, s')) : a = read s ∧ s' = s := by
  obtain ⟨ha, rfl⟩ := Prod.mk.inj (Except.ok.inj (run_exec_ok h))
  exact ⟨ha.symm, rfl⟩

theorem run_lift_ok {r : Except ε α} {s s' : σ} {a : α}
    (h : (lift r : Proc ℓ σ ε α).run noFault s = (.ok a, s')) : r = .ok a ∧ s' = s := by
  obtain ⟨hr, rfl⟩ := Prod.mk.inj h
  exact ⟨hr, rfl⟩

/-- One call that meets the condition and succeeds, whatever faults it could have met. -/
def SerialStep (ok : κ → σ → Prop) (body : κ → Proc ℓ σ ε Unit) (s s' : σ) : Prop :=
  ∃ call fault, ok call s ∧ (body call).run fault s = (.ok (), s')

/-- What calls one after the other reach. -/
abbrev Serial (ok : κ → σ → Prop) (body : κ → Proc ℓ σ ε Unit) : σ → σ → Prop :=
  Relation.ReflTransGen (SerialStep ok body)

theorem Serial.invariant
    (hstep : ∀ call s s', ok call s → inv s → (body call).run noFault s = (.ok (), s') → inv s')
    {s s' : σ} (h : Serial ok body s s') (hs : inv s) : inv s' := by
  induction h with
  | refl => exact hs
  | tail _ hlast ih =>
      obtain ⟨call, fault, hok, hrun⟩ := hlast
      exact hstep call _ _ hok ih (run_noFault_of_ok hrun)

/-- Run calls, as long as each meets the condition and succeeds. -/
def runCalls (ok : κ → σ → Prop) [∀ call s, Decidable (ok call s)] (body : κ → Proc ℓ σ ε Unit) :
    List κ → σ → Option σ
  | [], s => some s
  | call :: calls, s =>
      if ok call s then
        match (body call).run noFault s with
        | (.ok (), s') => runCalls ok body calls s'
        | (.error _, _) => none
      else none

theorem Serial.of_runCalls [∀ call s, Decidable (ok call s)] {calls : List κ} {s s' : σ}
    (h : runCalls ok body calls s = some s') : Serial ok body s s' := by
  induction calls generalizing s with
  | nil =>
      obtain rfl := Option.some.inj h
      exact .refl
  | cons call calls ih =>
      rw [runCalls] at h
      split at h
      · next hok =>
          split at h
          · next s₁ hrun => exact .head ⟨call, noFault, hok, hrun⟩ (ih h)
          · cases h
      · cases h

end Serial

end Proc
