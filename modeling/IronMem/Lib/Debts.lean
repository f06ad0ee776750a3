import IronMem.Lib.GuardedRuns

/-!
# Calls that owe

A statement may leave the store in a state that only a later statement of the same call
puts right again: until then the call owes. When every debt is owed by the call that has
made it, and no call stops while it owes, nothing is owed once no call is running.

What a debt is, and which labels settle it, are parameters. `Owes` looks at the tree of a call:
every way on comes to a statement that settles the debt. `Answers` asks this of all debts
the statements of a call may make. The run lemma is `StepStop.covered`: the debts that are open
are owed by calls in progress, and a call that returns has none left.

`onFst` is the other half: a call on a store that is observed together with a record of
what has happened to it.
-/

namespace Proc

variable {ℓ ℓ' σ ε α β γ δ : Type}

/-! ## Calls beside a record -/

/-- The call on the first part of a store, its statements under other labels. -/
def onFst (f : ℓ → ℓ') (γ : Type) : Proc ℓ σ ε α → Proc ℓ' (σ × γ) ε α
  | done r => done r
  | step l act next =>
      step (f l) (fun s => (act s.1).map fun out => (out.1, (out.2, s.2))) fun b => onFst f γ (next b)

section OnFst

variable {f : ℓ → ℓ'}

@[simp] theorem onFst_done (r : Except ε α) :
    onFst f γ (done r : Proc ℓ σ ε α) = done r := rfl

@[simp] theorem onFst_step (l : ℓ) (act : σ → Except ε (β × σ)) (next : β → Proc ℓ σ ε α) :
    onFst f γ (step l act next) = step (f l)
      (fun s => (act s.1).map fun out => (out.1, (out.2, s.2))) fun b => onFst f γ (next b) := rfl

/-- What a statement does beside the record. -/
theorem map_fst_eq_ok {x : Except ε (β × σ)} {g g' : γ} {b : β} {s' : σ}
    (h : x.map (fun out => (out.1, (out.2, g))) = .ok (b, (s', g'))) : x = .ok (b, s') ∧ g' = g := by
  cases x with
  | error e => cases h
  | ok out =>
      obtain ⟨rfl, hs⟩ := Prod.mk.inj (Except.ok.inj h)
      obtain ⟨rfl, rfl⟩ := Prod.mk.inj hs
      exact ⟨rfl, rfl⟩

end OnFst

/-! ## Debts -/

/-- The statement a call runs next. -/
def nextLabel : Proc ℓ σ ε α → Option ℓ
  | done _ => none
  | step l _ _ => some l

section Debts

variable {ok : ℓ → σ → Prop} {carries : ℓ → δ → Prop} {debt : σ → δ → Prop} {d : δ}

/-- Every way on leads to a statement that settles the debt, and every statement on the
way carries it. -/
inductive Owes (ok : ℓ → σ → Prop) (carries : ℓ → δ → Prop) (debt : σ → δ → Prop) (d : δ) :
    Proc ℓ σ ε α → Prop
  | pays {β : Type} {l : ℓ} {act : σ → Except ε (β × σ)} {next : β → Proc ℓ σ ε α}
      (hcarries : carries l d) (hact : ∀ s b s', ok l s → act s = .ok (b, s') → ¬ debt s' d) :
      Owes ok carries debt d (step l act next)
  | later {β : Type} {l : ℓ} {act : σ → Except ε (β × σ)} {next : β → Proc ℓ σ ε α}
      (hcarries : carries l d) (hnext : ∀ b, Owes ok carries debt d (next b)) :
      Owes ok carries debt d (step l act next)

/-- The call owes whatever debts its statements make. -/
inductive Answers (ok : ℓ → σ → Prop) (carries : ℓ → δ → Prop) (debt : σ → δ → Prop) :
    Proc ℓ σ ε α → Prop
  | done (r : Except ε α) : Answers ok carries debt (done r)
  | step {β : Type} {l : ℓ} {act : σ → Except ε (β × σ)} {next : β → Proc ℓ σ ε α}
      (hact : ∀ s b s', ok l s → act s = .ok (b, s') → ∀ d, debt s' d →
        debt s d ∨ Owes ok carries debt d (next b))
      (hnext : ∀ b, Answers ok carries debt (next b)) : Answers ok carries debt (step l act next)

theorem Owes.nextLabel {p : Proc ℓ σ ε α} (h : Owes ok carries debt d p) :
    ∃ l, p.nextLabel = some l ∧ carries l d := by
  cases h with
  | pays hcarries _ => exact ⟨_, rfl, hcarries⟩
  | later hcarries _ => exact ⟨_, rfl, hcarries⟩

theorem Owes.advance {l : ℓ} {act : σ → Except ε (β × σ)} {next : β → Proc ℓ σ ε α}
    (h : Owes ok carries debt d (Proc.step l act next)) {s s' : σ} {b : β} (hok : ok l s)
    (hact : act s = .ok (b, s')) (hdebt : debt s' d) : Owes ok carries debt d (next b) := by
  cases h with
  | pays _ hpays => exact absurd hdebt (hpays s b s' hok hact)
  | later _ hnext => exact hnext b

theorem Owes.bind_left {p : Proc ℓ σ ε α} {f : α → Proc ℓ σ ε β} (h : Owes ok carries debt d p) :
    Owes ok carries debt d (p >>= f) := by
  induction h with
  | pays hcarries hact => exact .pays hcarries hact
  | later hcarries _ ih => exact .later hcarries ih

theorem Answers.of_step {l : ℓ} {act : σ → Except ε (β × σ)} {next : β → Proc ℓ σ ε α}
    (h : Answers ok carries debt (Proc.step l act next)) :
    (∀ s b s', ok l s → act s = .ok (b, s') → ∀ d, debt s' d →
      debt s d ∨ Owes ok carries debt d (next b)) ∧ ∀ b, Answers ok carries debt (next b) := by
  cases h with
  | step hact hnext => exact ⟨hact, hnext⟩

/-- A call none of whose statements makes a debt. -/
theorem Answers.exec {l : ℓ} {act : σ → Except ε (α × σ)}
    (hact : ∀ s b s', ok l s → act s = .ok (b, s') → ∀ d, debt s' d → debt s d) :
    Answers ok carries debt (exec l act : Proc ℓ σ ε α) :=
  .step (fun s b s' hok h d hd => Or.inl (hact s b s' hok h d hd)) fun _ => .done _

theorem Answers.bind {p : Proc ℓ σ ε α} {f : α → Proc ℓ σ ε β} (hp : Answers ok carries debt p)
    (hf : ∀ a, Answers ok carries debt (f a)) : Answers ok carries debt (p >>= f) := by
  induction hp with
  | done r =>
      cases r with
      | ok a => exact hf a
      | error e => exact .done _
  | step hact _ ih =>
      exact .step (fun s b s' hok h d hd => (hact s b s' hok h d hd).imp_right Owes.bind_left) ih

/-! ### Runs -/

variable {κ : Type} {stop : ℓ → σ → Prop} {body : κ → Proc ℓ σ ε Unit}

/-- A step in which statements meet one condition, and calls that stop another on the
statement they do not come to run. -/
inductive StepStop (ok stop : ℓ → σ → Prop) (body : κ → Proc ℓ σ ε Unit) :
    σ × List (Thread κ ℓ σ ε) → σ × List (Thread κ ℓ σ ε) → Prop
  | start (s : σ) (pool : List (Thread κ ℓ σ ε)) (call : κ) :
      StepStop ok stop body (s, pool) (s, pool ++ [⟨call, body call⟩])
  | advance {s s' : σ} {before after : List (Thread κ ℓ σ ε)} {call : κ} {β : Type} {l : ℓ}
      {act : σ → Except ε (β × σ)} {next : β → Proc ℓ σ ε Unit} {b : β} (hok : ok l s)
      (hact : act s = .ok (b, s')) :
      StepStop ok stop body (s, before ++ ⟨call, step l act next⟩ :: after)
        (s', before ++ ⟨call, next b⟩ :: after)
  | drop (s : σ) (before after : List (Thread κ ℓ σ ε)) (t : Thread κ ℓ σ ε)
      (hstop : ∀ l, t.rest.nextLabel = some l → stop l s) :
      StepStop ok stop body (s, before ++ t :: after) (s, before ++ after)

/-- What such runs reach. -/
abbrev ReachesStop (ok stop : ℓ → σ → Prop) (body : κ → Proc ℓ σ ε Unit) :
    σ × List (Thread κ ℓ σ ε) → σ × List (Thread κ ℓ σ ε) → Prop :=
  Relation.ReflTransGen (StepStop ok stop body)

theorem StepStop.when {c c' : σ × List (Thread κ ℓ σ ε)} (h : StepStop ok stop body c c') :
    StepWhen ok body c c' := by
  cases h with
  | start s pool call => exact .start s pool call
  | advance hok hact => exact .advance hok hact
  | drop s before after t _ => exact .drop s before after t

theorem ReachesStop.when {c c' : σ × List (Thread κ ℓ σ ε)} (h : ReachesStop ok stop body c c') :
    ReachesWhen ok body c c' := by
  induction h with
  | refl => exact .refl
  | tail _ hstep ih => exact .tail ih hstep.when

/-- Every debt is owed by a running call. -/
def Covered (ok : ℓ → σ → Prop) (carries : ℓ → δ → Prop) (debt : σ → δ → Prop)
    (c : σ × List (Thread κ ℓ σ ε)) : Prop :=
  (∀ t ∈ c.2, Answers ok carries debt t.rest) ∧
    ∀ d, debt c.1 d → ∃ t ∈ c.2, Owes ok carries debt d t.rest

/-- One step: the debts of the other calls stand, and a new one is owed by the call that
has run its statement. -/
theorem StepStop.covered (hbody : ∀ call, Answers ok carries debt (body call))
    (hstop : ∀ l s d, stop l s → carries l d → ¬ debt s d) {c c' : σ × List (Thread κ ℓ σ ε)}
    (h : StepStop ok stop body c c') (hc : Covered ok carries debt c) :
    Covered ok carries debt c' := by
  obtain ⟨hanswers, howed⟩ := hc
  cases h with
  | start s pool call =>
      refine ⟨fun t ht => ?_, fun d hd => ?_⟩
      · rcases List.mem_append.mp ht with ht | ht
        · exact hanswers t ht
        · rw [List.mem_singleton.mp ht]
          exact hbody call
      · obtain ⟨t, ht, howes⟩ := howed d hd
        exact ⟨t, List.mem_append_left _ ht, howes⟩
  | @advance s s' before after call β l act next b hok hact =>
      have hown := (hanswers _ (List.mem_append_right _ List.mem_cons_self)).of_step
      have hmem : ⟨call, next b⟩ ∈ before ++ (⟨call, next b⟩ : Thread κ ℓ σ ε) :: after :=
        List.mem_append_right _ List.mem_cons_self
      refine ⟨fun t ht => ?_, fun d hd => ?_⟩
      · rcases List.mem_append.mp ht with ht | ht
        · exact hanswers t (List.mem_append_left _ ht)
        · rcases List.mem_cons.mp ht with rfl | ht
          · exact hown.2 b
          · exact hanswers t (List.mem_append_right _ (List.mem_cons_of_mem _ ht))
      · rcases hown.1 s b s' hok hact d hd with hold | hnew
        · obtain ⟨t, ht, howes⟩ := howed d hold
          rcases List.mem_append.mp ht with ht | ht
          · exact ⟨t, List.mem_append_left _ ht, howes⟩
          · rcases List.mem_cons.mp ht with rfl | ht
            · exact ⟨_, hmem, howes.advance hok hact hd⟩
            · exact ⟨t, List.mem_append_right _ (List.mem_cons_of_mem _ ht), howes⟩
        · exact ⟨_, hmem, hnew⟩
  | drop s before after t hdrop =>
      have hsub : ∀ u ∈ before ++ after, u ∈ before ++ t :: after := by
        intro u hu
        rcases List.mem_append.mp hu with hu | hu
        · exact List.mem_append_left _ hu
        · exact List.mem_append_right _ (List.mem_cons_of_mem _ hu)
      refine ⟨fun u hu => hanswers u (hsub u hu), fun d hd => ?_⟩
      obtain ⟨u, hu, howes⟩ := howed d hd
      rcases List.mem_append.mp hu with hu | hu
      · exact ⟨u, List.mem_append_left _ hu, howes⟩
      · rcases List.mem_cons.mp hu with rfl | hu
        · -- the call that stops does not owe this one
          obtain ⟨l, hl, hcarries⟩ := howes.nextLabel
          exact absurd hd (hstop l s d (hdrop l hl) hcarries)
        · exact ⟨u, List.mem_append_right _ hu, howes⟩

/-- When no call is running any more, nothing is owed. -/
theorem ReachesStop.nothing_owed (hbody : ∀ call, Answers ok carries debt (body call))
    (hstop : ∀ l s d, stop l s → carries l d → ¬ debt s d) {s₀ s : σ} (hs₀ : ∀ d, ¬ debt s₀ d)
    (h : ReachesStop ok stop body (s₀, []) (s, [])) : ∀ d, ¬ debt s d := by
  have hcovered : ∀ c, ReachesStop ok stop body (s₀, []) c → Covered ok carries debt c := by
    intro c hc
    induction hc with
    | refl => exact ⟨by simp, fun d hd => absurd hd (hs₀ d)⟩
    | tail _ hstep ih => exact hstep.covered hbody hstop ih
  intro d hd
  obtain ⟨t, ht, -⟩ := (hcovered _ h).2 d hd
  cases ht

/-! ### Schedules -/

/-- One entry of a schedule: a move, or the call at this place stops. -/
inductive Turn (κ : Type) where
  | move (m : Move κ)
  | stop (i : Nat)

def turn (ok stop : ℓ → σ → Prop) [∀ l s, Decidable (ok l s)] [∀ l s, Decidable (stop l s)]
    (body : κ → Proc ℓ σ ε Unit) (c : σ × List (Thread κ ℓ σ ε)) :
    Turn κ → Option (σ × List (Thread κ ℓ σ ε))
  | .move m => Proc.move ok body c m
  | .stop i =>
      match c.2[i]? with
      | some t =>
          if t.rest.nextLabel.all (fun l => stop l c.1) then some (c.1, c.2.eraseIdx i) else none
      | none => none

def runTurns (ok stop : ℓ → σ → Prop) [∀ l s, Decidable (ok l s)] [∀ l s, Decidable (stop l s)]
    (body : κ → Proc ℓ σ ε Unit) (turns : List (Turn κ)) (c : σ × List (Thread κ ℓ σ ε)) :
    Option (σ × List (Thread κ ℓ σ ε)) :=
  turns.foldlM (turn ok stop body) c

theorem StepWhen.keeps {c c' : σ × List (Thread κ ℓ σ ε)} (h : StepWhen ok body c c')
    (hkeeps : c.2.length ≤ c'.2.length) : StepStop ok stop body c c' := by
  cases h with
  | start s pool call => exact .start s pool call
  | advance hok hact => exact .advance hok hact
  | drop s before after t =>
      simp only [List.length_append, List.length_cons] at hkeeps
      omega

theorem move_length [∀ l s, Decidable (ok l s)] {c c' : σ × List (Thread κ ℓ σ ε)} {m : Move κ}
    (h : move ok body c m = some c') : c.2.length ≤ c'.2.length := by
  cases m with
  | call call =>
      obtain rfl := Option.some.inj h
      simp
  | run i =>
      simp only [move] at h
      split at h
      · split at h
        · split at h
          · obtain rfl := Option.some.inj h
            simp
          · cases h
        · cases h
      · cases h

theorem StepStop.of_turn [∀ l s, Decidable (ok l s)] [∀ l s, Decidable (stop l s)]
    {c c' : σ × List (Thread κ ℓ σ ε)} {t : Turn κ} (h : turn ok stop body c t = some c') :
    StepStop ok stop body c c' := by
  cases t with
  | move m => exact (StepWhen.of_move h).keeps (move_length h)
  | stop i =>
      obtain ⟨s, pool⟩ := c
      simp only [turn] at h
      split at h
      · next t hget =>
          split at h
          · next hall =>
              obtain rfl := Option.some.inj h
              obtain ⟨hi, rfl⟩ := List.getElem?_eq_some_iff.mp hget
              have hpool : pool = pool.take i ++ pool[i] :: pool.drop (i + 1) := by
                rw [← List.drop_eq_getElem_cons hi, List.take_append_drop]
              have hdrop : StepStop ok stop body (s, pool.take i ++ pool[i] :: pool.drop (i + 1))
                  (s, pool.take i ++ pool.drop (i + 1)) := by
                refine .drop s _ _ _ fun l hl => ?_
                simpa [hl] using hall
              rw [← hpool, ← List.eraseIdx_eq_take_drop_succ] at hdrop
              exact hdrop
          · cases h
      · cases h

theorem ReachesStop.of_turns [∀ l s, Decidable (ok l s)] [∀ l s, Decidable (stop l s)]
    {turns : List (Turn κ)} {c c' : σ × List (Thread κ ℓ σ ε)}
    (h : runTurns ok stop body turns c = some c') : ReachesStop ok stop body c c' := by
  induction turns generalizing c with
  | nil =>
      obtain rfl := Option.some.inj h
      exact .refl
  | cons t turns ih =>
      rw [runTurns, List.foldlM_cons, Option.bind_eq_bind, Option.bind_eq_some_iff] at h
      obtain ⟨c₁, hturn, hrest⟩ := h
      exact .head (.of_turn hturn) (ih hrest)

end Debts

end Proc
