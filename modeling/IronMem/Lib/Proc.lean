import Mathlib.Logic.Relation

/-!
# Calls made of atomic statements

A call that talks to a store is a tree of statements (`Proc`): each statement
reads and writes the store atomically, or refuses and leaves it alone; the rest
of the call depends on what it answered. Statements carry a label, so that a
condition can speak about the statement a call is about to run.

The same tree is run in three ways. `run` executes one call alone, with a fault
oracle that may make any statement fail; `states` lists the stores an observer
can see meanwhile; `Step` interleaves any number of calls statement by
statement. A rule for invariants comes with each.
-/

/-- A call: finished, or a labelled atomic statement and what follows on its
answer. -/
inductive Proc (ℓ σ ε α : Type) : Type 1 where
  | done (result : Except ε α)
  | step {β : Type} (label : ℓ) (act : σ → Except ε (β × σ)) (next : β → Proc ℓ σ ε α)

namespace Proc

variable {ℓ σ ε α β γ : Type}

/-! ## Sequencing -/

def bind (p : Proc ℓ σ ε α) (f : α → Proc ℓ σ ε β) : Proc ℓ σ ε β :=
  match p with
  | done (.ok a) => f a
  | done (.error e) => done (.error e)
  | step l act next => step l act fun b => bind (next b) f

instance : Monad (Proc ℓ σ ε) where
  pure a := done (.ok a)
  bind := bind

/-- Stop with an error. -/
def fail (e : ε) : Proc ℓ σ ε α := done (.error e)

/-- A check made in memory, between statements. -/
def lift (r : Except ε α) : Proc ℓ σ ε α := done r

/-- A statement that only reads. -/
def query (label : ℓ) (read : σ → α) : Proc ℓ σ ε α :=
  step label (fun s => .ok (read s, s)) fun a => done (.ok a)

/-- A statement (or a whole transaction) that writes. -/
def exec (label : ℓ) (act : σ → Except ε (α × σ)) : Proc ℓ σ ε α :=
  step label act fun a => done (.ok a)

@[simp] theorem pure_eq (a : α) : (pure a : Proc ℓ σ ε α) = done (.ok a) := rfl

@[simp] theorem done_ok_bind (a : α) (f : α → Proc ℓ σ ε β) :
    (done (.ok a) >>= f : Proc ℓ σ ε β) = f a := rfl

@[simp] theorem done_error_bind (e : ε) (f : α → Proc ℓ σ ε β) :
    (done (.error e) >>= f : Proc ℓ σ ε β) = done (.error e) := rfl

@[simp] theorem fail_eq (e : ε) : (fail e : Proc ℓ σ ε α) = done (.error e) := rfl

@[simp] theorem step_bind (l : ℓ) (act : σ → Except ε (γ × σ)) (next : γ → Proc ℓ σ ε α)
    (f : α → Proc ℓ σ ε β) :
    (step l act next >>= f : Proc ℓ σ ε β) = step l act fun b => next b >>= f := rfl

@[simp] theorem query_bind (l : ℓ) (read : σ → α) (f : α → Proc ℓ σ ε β) :
    (query l read >>= f : Proc ℓ σ ε β) = step l (fun s => .ok (read s, s)) f := rfl

@[simp] theorem exec_bind (l : ℓ) (act : σ → Except ε (α × σ)) (f : α → Proc ℓ σ ε β) :
    (exec l act >>= f : Proc ℓ σ ε β) = step l act f := rfl

/-! ## One call alone, with faults -/

/-- What a fault oracle says from the next statement on. -/
def later (fault : Nat → Option ε) : Nat → Option ε := fun i => fault (i + 1)

/-- Run a call alone. The oracle is asked once per statement; a statement that
is told to fail, or refuses by itself, has no effect and ends the call. -/
def run (fault : Nat → Option ε) : Proc ℓ σ ε α → σ → Except ε α × σ
  | done r, s => (r, s)
  | step _ act next, s =>
      match fault 0 with
      | some e => (.error e, s)
      | none => match act s with
        | .error e => (.error e, s)
        | .ok (b, s') => run (later fault) (next b) s'

/-- The stores an observer can see while the call runs, the last one included. -/
def states (fault : Nat → Option ε) : Proc ℓ σ ε α → σ → List σ
  | done _, s => [s]
  | step _ act next, s =>
      match fault 0 with
      | some _ => [s]
      | none => match act s with
        | .error _ => [s]
        | .ok (b, s') => s :: states (later fault) (next b) s'

/-- No statement is told to fail. -/
def noFault : Nat → Option ε := fun _ => none

@[simp] theorem later_noFault : later (noFault : Nat → Option ε) = noFault := rfl

@[simp] theorem run_done (fault : Nat → Option ε) (r : Except ε α) (s : σ) :
    run fault (done r : Proc ℓ σ ε α) s = (r, s) := rfl

theorem run_step (fault : Nat → Option ε) (l : ℓ) (act : σ → Except ε (β × σ))
    (next : β → Proc ℓ σ ε α) (s : σ) :
    run fault (step l act next) s = match fault 0 with
      | some e => (.error e, s)
      | none => match act s with
        | .error e => (.error e, s)
        | .ok (b, s') => run (later fault) (next b) s' := by
  rw [run]

theorem run_step_fault {fault : Nat → Option ε} {e : ε} (h : fault 0 = some e) (l : ℓ)
    (act : σ → Except ε (β × σ)) (next : β → Proc ℓ σ ε α) (s : σ) :
    run fault (step l act next) s = (.error e, s) := by
  rw [run_step, h]

theorem run_step_error {fault : Nat → Option ε} (h : fault 0 = none) {l : ℓ}
    {act : σ → Except ε (β × σ)} {next : β → Proc ℓ σ ε α} {s : σ} {e : ε}
    (hact : act s = .error e) : run fault (step l act next) s = (.error e, s) := by
  rw [run_step, h, hact]

theorem run_step_ok {fault : Nat → Option ε} (h : fault 0 = none) {l : ℓ}
    {act : σ → Except ε (β × σ)} {next : β → Proc ℓ σ ε α} {s s' : σ} {b : β}
    (hact : act s = .ok (b, s')) :
    run fault (step l act next) s = run (later fault) (next b) s' := by
  rw [run_step, h, hact]

theorem run_query (fault : Nat → Option ε) (l : ℓ) (read : σ → β)
    (next : β → Proc ℓ σ ε α) (s : σ) :
    run fault (step l (fun s => .ok (read s, s)) next) s
      = match fault 0 with
        | some e => (.error e, s)
        | none => run (later fault) (next (read s)) s := by
  rw [run_step]

theorem run_step_isOk (fault : Nat → Option ε) {l : ℓ} {act : σ → Except ε (β × σ)}
    {next : β → Proc ℓ σ ε α} {s s' : σ} {b : β} (hact : act s = .ok (b, s')) :
    (run fault (step l act next) s).1.isOk = true ↔
      fault 0 = none ∧ (run (later fault) (next b) s').1.isOk = true := by
  cases hf : fault 0 with
  | some e => simp [run_step_fault hf, Except.isOk, Except.toBool]
  | none => simp [run_step_ok hf hact]

theorem run_exec_isOk (fault : Nat → Option ε) (l : ℓ) (act : σ → Except ε (α × σ)) (s : σ) :
    (run fault (exec l act) s).1.isOk = true ↔ fault 0 = none ∧ (act s).isOk = true := by
  cases hact : act s with
  | error e =>
      rw [exec, run_step, hact]
      cases fault 0 <;> simp [Except.isOk, Except.toBool]
  | ok r =>
      rw [exec, run_step_isOk fault hact]
      simp [Except.isOk, Except.toBool]

/-- Replacing the result of a call does not change whether it succeeds. -/
theorem run_bind_done_isOk (fault : Nat → Option ε) (p : Proc ℓ σ ε α) (b : β) (s : σ) :
    (run fault (p >>= fun _ => done (.ok b)) s).1.isOk = (run fault p s).1.isOk := by
  induction p generalizing fault s with
  | done r => cases r <;> rfl
  | step l act next ih =>
      rw [step_bind]
      cases hf : fault 0 with
      | some e => rw [run_step_fault hf, run_step_fault hf]; rfl
      | none =>
          cases hact : act s with
          | error e => rw [run_step_error hf hact, run_step_error hf hact]; rfl
          | ok r =>
              obtain ⟨c, s'⟩ := r
              rw [run_step_ok hf hact, run_step_ok hf hact]
              exact ih c (later fault) s'

/-- None of the first `n + 1` statements is told to fail. -/
theorem forall_lt_succ_later (fault : Nat → Option ε) (n : Nat) :
    (∀ i < n + 1, fault i = none) ↔ fault 0 = none ∧ ∀ i < n, later fault i = none :=
  Nat.forall_lt_succ_left

theorem states_step (fault : Nat → Option ε) (l : ℓ) (act : σ → Except ε (β × σ))
    (next : β → Proc ℓ σ ε α) (s : σ) :
    states fault (step l act next) s = match fault 0 with
      | some _ => [s]
      | none => match act s with
        | .error _ => [s]
        | .ok (b, s') => s :: states (later fault) (next b) s' := by
  rw [states]

/-- What an observer sees starts with the store as it is. -/
theorem mem_states_self (fault : Nat → Option ε) (p : Proc ℓ σ ε α) (s : σ) :
    s ∈ states fault p s := by
  cases p with
  | done r => simp [states]
  | step l act next =>
      rw [states_step]
      cases fault 0 with
      | some e => exact List.mem_singleton_self s
      | none =>
          cases act s with
          | error e => exact List.mem_singleton_self s
          | ok r => exact List.mem_cons_self

theorem states_step_ok {fault : Nat → Option ε} (h : fault 0 = none) {l : ℓ}
    {act : σ → Except ε (β × σ)} {next : β → Proc ℓ σ ε α} {s s' : σ} {b : β}
    (hact : act s = .ok (b, s')) :
    states fault (step l act next) s = s :: states (later fault) (next b) s' := by
  rw [states_step, h, hact]

/-- A call that succeeds under faults did not meet one. -/
theorem run_noFault_of_ok {p : Proc ℓ σ ε α} {fault : Nat → Option ε} {s s' : σ} {a : α}
    (h : p.run fault s = (.ok a, s')) : p.run noFault s = (.ok a, s') := by
  induction p generalizing fault s with
  | done r => exact h
  | step l act next ih =>
      cases hf : fault 0 with
      | some e => rw [run_step_fault hf] at h; cases h
      | none =>
          cases hr : act s with
          | error e => rw [run_step_error hf hr] at h; cases h
          | ok r =>
              obtain ⟨b, t⟩ := r
              rw [run_step_ok hf hr] at h
              rw [run_step_ok rfl hr]
              exact ih b h

/-! ## Invariants of one call -/

/-- Every statement the call can reach preserves `inv`, whatever the earlier
ones answered. -/
inductive Preserves (inv : σ → Prop) : Proc ℓ σ ε α → Prop
  | done (r : Except ε α) : Preserves inv (done r)
  | step {β : Type} {l : ℓ} {act : σ → Except ε (β × σ)} {next : β → Proc ℓ σ ε α}
      (hact : ∀ s b s', inv s → act s = .ok (b, s') → inv s')
      (hnext : ∀ b, Preserves inv (next b)) : Preserves inv (step l act next)

variable {inv : σ → Prop}

theorem Preserves.bind {p : Proc ℓ σ ε α} {f : α → Proc ℓ σ ε β} (hp : Preserves inv p)
    (hf : ∀ a, Preserves inv (f a)) : Preserves inv (p >>= f) := by
  induction hp with
  | done r =>
      cases r with
      | ok a => exact hf a
      | error e => exact .done _
  | step hact _ ih => exact .step hact ih

theorem Preserves.query (l : ℓ) (read : σ → α) : Preserves inv (query l read : Proc ℓ σ ε α) :=
  .step (fun s b s' hs h => by cases h; exact hs) fun _ => .done _

theorem Preserves.exec {l : ℓ} {act : σ → Except ε (α × σ)}
    (hact : ∀ s b s', inv s → act s = .ok (b, s') → inv s') :
    Preserves inv (exec l act : Proc ℓ σ ε α) :=
  .step hact fun _ => .done _

theorem Preserves.run {p : Proc ℓ σ ε α} (hp : Preserves inv p) (fault : Nat → Option ε) {s : σ}
    (hs : inv s) : inv (p.run fault s).2 := by
  induction hp generalizing fault s with
  | done r => exact hs
  | @step β l act next hact _ ih =>
      cases hf : fault 0 with
      | some e => rw [run_step_fault hf]; exact hs
      | none =>
          cases hr : act s with
          | error e => rw [run_step_error hf hr]; exact hs
          | ok r =>
              obtain ⟨b, s'⟩ := r
              rw [run_step_ok hf hr]
              exact ih b (Proc.later fault) (hact s b s' hs hr)

theorem Preserves.states {p : Proc ℓ σ ε α} (hp : Preserves inv p) (fault : Nat → Option ε)
    {s : σ} (hs : inv s) : ∀ s' ∈ p.states fault s, inv s' := by
  induction hp generalizing fault s with
  | done r =>
      intro s' h
      obtain rfl := List.mem_singleton.mp h
      exact hs
  | @step β l act next hact _ ih =>
      intro s' h
      cases hf : fault 0 with
      | some e =>
          simp only [states_step, hf, List.mem_singleton] at h
          exact h ▸ hs
      | none =>
          cases hr : act s with
          | error e =>
              simp only [states_step, hf, hr, List.mem_singleton] at h
              exact h ▸ hs
          | ok r =>
              obtain ⟨b, t⟩ := r
              rw [states_step_ok hf hr, List.mem_cons] at h
              rcases h with rfl | h
              · exact hs
              · exact ih b (Proc.later fault) (hact s b t hs hr) s' h

/-! ## Many calls interleaved -/

/-- A call in progress: what was asked for, how many statements it has run, and
what is left. -/
structure Thread (κ ℓ σ ε : Type) where
  call : κ
  rest : Proc ℓ σ ε Unit

/-- One step of the system: somebody starts a call, a call in progress runs its
next statement (which may refuse), or a call goes away. -/
inductive Step {κ : Type} (body : κ → Proc ℓ σ ε Unit) :
    σ × List (Thread κ ℓ σ ε) → σ × List (Thread κ ℓ σ ε) → Prop
  | start (s : σ) (pool : List (Thread κ ℓ σ ε)) (call : κ) :
      Step body (s, pool) (s, pool ++ [⟨call, body call⟩])
  | advance {s s' : σ} {before after : List (Thread κ ℓ σ ε)} {call : κ} {β : Type} {l : ℓ}
      {act : σ → Except ε (β × σ)} {next : β → Proc ℓ σ ε Unit} {b : β}
      (hact : act s = .ok (b, s')) :
      Step body (s, before ++ ⟨call, step l act next⟩ :: after)
        (s', before ++ ⟨call, next b⟩ :: after)
  | drop (s : σ) (before after : List (Thread κ ℓ σ ε)) (t : Thread κ ℓ σ ε) :
      Step body (s, before ++ t :: after) (s, before ++ after)

/-- What some interleaving reaches. -/
abbrev Reaches {κ : Type} (body : κ → Proc ℓ σ ε Unit) :
    σ × List (Thread κ ℓ σ ε) → σ × List (Thread κ ℓ σ ε) → Prop :=
  Relation.ReflTransGen (Step body)

section Interleaving

variable {κ : Type} {body : κ → Proc ℓ σ ε Unit}

theorem Preserves.of_step {β : Type} {l : ℓ} {act : σ → Except ε (β × σ)}
    {next : β → Proc ℓ σ ε α} (h : Preserves inv (Proc.step l act next)) :
    (∀ s b s', inv s → act s = .ok (b, s') → inv s') ∧ ∀ b, Preserves inv (next b) := by
  cases h with
  | step hact hnext => exact ⟨hact, hnext⟩

/-- One step of the system keeps what every statement of every call keeps. -/
theorem Step.preserves (hbody : ∀ call, Preserves inv (body call))
    {c c' : σ × List (Thread κ ℓ σ ε)} (h : Step body c c')
    (hc : inv c.1 ∧ ∀ t ∈ c.2, Preserves inv t.rest) :
    inv c'.1 ∧ ∀ t ∈ c'.2, Preserves inv t.rest := by
  obtain ⟨hs, hpool⟩ := hc
  cases h with
  | start s pool call =>
      refine ⟨hs, fun t ht => ?_⟩
      rcases List.mem_append.mp ht with ht | ht
      · exact hpool t ht
      · rw [List.mem_singleton.mp ht]
        exact hbody call
  | @advance s s' before after call β l act next b hact =>
      obtain ⟨hstep, hnext⟩ := (hpool _ (List.mem_append_right _ List.mem_cons_self)).of_step
      refine ⟨hstep _ _ _ hs hact, fun t ht => ?_⟩
      rcases List.mem_append.mp ht with ht | ht
      · exact hpool t (List.mem_append_left _ ht)
      · rcases List.mem_cons.mp ht with rfl | ht
        · exact hnext b
        · exact hpool t (List.mem_append_right _ (List.mem_cons_of_mem _ ht))
  | drop s before after t =>
      refine ⟨hs, fun u hu => hpool u ?_⟩
      rcases List.mem_append.mp hu with hu | hu
      · exact List.mem_append_left _ hu
      · exact List.mem_append_right _ (List.mem_cons_of_mem _ hu)

/-- An invariant of every statement holds whatever the interleaving. -/
theorem Reaches.invariant (hbody : ∀ call, Preserves inv (body call)) {s s' : σ}
    {pool : List (Thread κ ℓ σ ε)} (h : Reaches body (s, []) (s', pool)) (hs : inv s) :
    inv s' := by
  have hall : ∀ c, Reaches body (s, []) c → inv c.1 ∧ ∀ t ∈ c.2, Preserves inv t.rest := by
    intro c hc
    induction hc with
    | refl => exact ⟨hs, fun t ht => absurd ht List.not_mem_nil⟩
    | tail _ hstep ih => exact hstep.preserves hbody ih
  exact (hall _ h).1

/-- A call that runs alone to its end is one of the interleavings. -/
theorem Reaches.of_run {p : Proc ℓ σ ε Unit} {s s' : σ} (h : p.run noFault s = (.ok (), s'))
    (call : κ) (before after : List (Thread κ ℓ σ ε)) :
    Reaches body (s, before ++ ⟨call, p⟩ :: after)
      (s', before ++ ⟨call, done (.ok ())⟩ :: after) := by
  induction p generalizing s with
  | done r =>
      obtain ⟨rfl, rfl⟩ := Prod.mk.inj h
      exact .refl
  | step l act next ih =>
      cases hr : act s with
      | error e => rw [run_step_error rfl hr] at h; cases h
      | ok r =>
          obtain ⟨b, t⟩ := r
          rw [run_step_ok rfl hr] at h
          exact .head (.advance hr) (ih b h)

theorem Reaches.call {s s' : σ} {call : κ} (h : (body call).run noFault s = (.ok (), s'))
    (pool : List (Thread κ ℓ σ ε)) :
    Reaches body (s, pool) (s', pool ++ [⟨call, done (.ok ())⟩]) :=
  .head (.start s pool call) (Reaches.of_run h call pool [])

/-- Calls one after the other, each alone to its end. -/
def runAll (body : κ → Proc ℓ σ ε Unit) : List κ → σ → Option σ
  | [], s => some s
  | call :: calls, s =>
      match (body call).run noFault s with
      | (.ok (), s') => runAll body calls s'
      | (.error _, _) => none

theorem Reaches.runAll {calls : List κ} {s s' : σ} (h : runAll body calls s = some s')
    (pool : List (Thread κ ℓ σ ε)) : ∃ pool', Reaches body (s, pool) (s', pool') := by
  induction calls generalizing s pool with
  | nil =>
      obtain rfl := Option.some.inj h
      exact ⟨pool, .refl⟩
  | cons call calls ih =>
      rw [Proc.runAll] at h
      split at h
      · next s₁ hrun =>
          obtain ⟨pool', hreach⟩ := ih h (pool ++ [⟨call, done (.ok ())⟩])
          exact ⟨pool', (Reaches.call hrun pool).trans hreach⟩
      · cases h

end Interleaving

end Proc
