import IronMem.Lib.Versioned
import IronMem.JsonLossless
import IronMem.PolicyStorage

/-!
# Runs of policy updates and restores

No update is lost: the ones that went through form one chain of versions, and the stored
policy is where the chain starts with their patches applied. It starts at the policy there
was, or at the checkpoint's, where a restore gave one to a memory that had none.

A run is a list of calls with the database before and after each of them (`PolicyEvent`);
what fails is rolled back, so every call is one of three steps (`PolicyStep`): the policy
of the memory stays, is patched under the next version, or is brought in from a
checkpoint. The last of these happens only to a memory without a policy of its own, since
the live policies are laid over those of the checkpoint.

`run_tracks` is the induction over the list: the writes that went through are one chain.
That no version is given out twice follows from its strictly increasing versions.
-/

namespace IronMem

open Fallible Versioned

/-! ## Runs -/

inductive PolicyCall where
  | update (u : PolicyUpdate)
  | restore (args : RestoreArgs) (state : State)

/-- One call, with the database before and after it and what an update returned. -/
structure PolicyEvent where
  call : PolicyCall
  before : Database
  after : Database
  result : Except String (Option MemoryInfluencePolicyRecord)

/-- What a call does when nothing goes wrong. -/
def PolicyCall.transaction (services : Services) (db : Database) :
    PolicyCall → Except String (Option MemoryInfluencePolicyRecord × Database)
  | update u => do
      let (record, db) ← updateMemoryInfluencePolicy services u db
      return (some record, db)
  | restore args state => do
      let (_, db) ← IronMem.restore services.codec args state db
      return (none, db)

/-- Commit or roll back. -/
def PolicyCall.execute (services : Services) (db : Database) (call : PolicyCall) : PolicyEvent :=
  match call.transaction services db with
  | .ok (record, db') => ⟨call, db, db', .ok record⟩
  | .error e => ⟨call, db, db, .error e⟩

/-- The calls one after another. -/
def runPolicyCalls (services : Services) : Database → List PolicyCall → List PolicyEvent
  | _, [] => []
  | db, call :: calls =>
      let event := call.execute services db
      event :: runPolicyCalls services event.after calls

/-- The database after these events. -/
def lastDatabase (db : Database) (events : List PolicyEvent) : Database :=
  events.foldl (fun _ e => e.after) db

/-- The patched policy under the next version. -/
def MemoryInfluencePolicyPatch.applyNext (patch : MemoryInfluencePolicyPatch)
    (current : MemoryInfluencePolicy) : Except String MemoryInfluencePolicy := do
  let patched ← patch.apply current
  return { patched with version := current.version + 1 }

def policyCell : Cell MemoryInfluencePolicy MemoryInfluencePolicyPatch String where
  version := MemoryInfluencePolicy.version
  patch := MemoryInfluencePolicyPatch.applyNext

/-- The write of an update of this memory that went through. -/
def PolicyEvent.success (id : Int) (e : PolicyEvent) :
    Option (Write MemoryInfluencePolicyPatch) :=
  match e.call, e.result with
  | .update u, .ok _ =>
      if u.memoryId.toInt = id then some ⟨u.request.expectedVersion, u.request.patch⟩ else none
  | _, _ => none

def successes (id : Int) (events : List PolicyEvent) : List (Write MemoryInfluencePolicyPatch) :=
  events.filterMap (PolicyEvent.success id)

/-- A restore that went through kept the memory. -/
def PolicyEvent.Keeps (id : Int) (e : PolicyEvent) : Prop :=
  match e.call, e.result with
  | .restore _ _, .ok _ => (e.after.memoryRow id).isSome = true
  | _, _ => True

/-- What it is for no update to be lost, from the policy `base` on. -/
structure NeverLost (services : Services) (id : Int) (db : Database) (calls : List PolicyCall)
    (base : Except String MemoryInfluencePolicy) : Prop where
  yields : ∀ e ∈ runPolicyCalls services db calls, ∀ u record, e.call = .update u →
    e.result = .ok (some record) → record.policy.version = u.request.expectedVersion + 1
  once : ((successes id (runPolicyCalls services db calls)).map Write.expected).Pairwise (· < ·)
  stored : storedPolicy services ((lastDatabase db (runPolicyCalls services db calls)).policyRow id)
    = base >>= fun p => (successes id (runPolicyCalls services db calls)).foldlM
        (fun p w => w.patch.applyNext p) p
  failed : ∀ e ∈ runPolicyCalls services db calls, e.result.isOk = false → e.after = e.before
  monotone : ∀ earlier later, calls = earlier ++ later → ∀ p q,
    storedPolicy services
      ((lastDatabase db (runPolicyCalls services db earlier)).policyRow id) = .ok p →
    storedPolicy services
      ((lastDatabase db (runPolicyCalls services db calls)).policyRow id) = .ok q →
    p.version ≤ q.version

/-- The memory had no policy of its own until this restore brought the checkpoint's. -/
structure Adopted (services : Services) (id : Int) (db : Database) (events : List PolicyEvent)
    (base : Except String MemoryInfluencePolicy) : Prop where
  none : db.policyRow id = none
  restored : ∃ pre e post, events = pre ++ e :: post ∧ successes id pre = [] ∧
    ∃ args state row, e.call = .restore args state ∧ e.result.isOk = true ∧
      ((castRows services.codec state "memory_influence_policy").find? fun r =>
        r.col "memory_id" = .int id) = some row ∧
      base = storedPolicy services (some row)

/-! ## One call

A call concerns one memory or, when it is a restore, all memories of a project. For a memory in
view it is one of the three steps. -/

/-- What `CAST` makes of a value is of the column's type. -/
theorem hasType_castTo {codec : Codec} {kind : String} {v w : Value}
    (hkind : kind = "BIGINT" ∨ kind = "TEXT") (h : castTo codec kind v = .ok w) :
    hasType kind w = true := by
  have hsaturate : ∀ n, hasType "BIGINT" (.int (saturate n)) = true := fun n => by
    have hlo : -2 ^ 63 ≤ saturate n := by unfold saturate; omega
    have hhi : saturate n < 2 ^ 63 := by unfold saturate; omega
    simp only [hasType, Bool.and_eq_true, decide_eq_true_eq]
    exact ⟨⟨trivial, hlo⟩, hhi⟩
  have hinteger : ∀ t, hasType "BIGINT" (.int (castInteger t)) = true := fun t => by
    unfold castInteger
    split <;> exact hsaturate _
  cases v with
  | null => exact Except.ok.inj h ▸ rfl
  | bool b => cases h
  | nested t => cases h
  | int n =>
      rcases hkind with rfl | rfl
      · exact Except.ok.inj h ▸ hsaturate n
      · exact Except.ok.inj h ▸ rfl
  | real t =>
      rcases hkind with rfl | rfl
      · exact Except.ok.inj h ▸ hinteger t
      · exact Except.ok.inj h ▸ rfl
  | str t =>
      rcases hkind with rfl | rfl
      · exact Except.ok.inj h ▸ hinteger t
      · exact Except.ok.inj h ▸ rfl

section Restore

variable {codec : Codec} {args : RestoreArgs} {state : State} {db db' : Database}
  {tables : BTreeMap Table}

/-- A restore keeps the constraints of the policies. -/
theorem Restored.policiesFormed (hrestored : Restored codec args state db tables db')
    (hformed : db.PoliciesFormed) : db'.PoliciesFormed := by
  refine ⟨hrestored.keyed hformed.keys, fun r hr f hf => ?_⟩
  rcases hrestored.policies.only r hr with ⟨hr, -⟩ | ⟨row, -, hins⟩
  · exact hformed.types r hr f hf
  · have hcast := hins.col (captureFields_nodup _ (by decide)) hf rfl
    have hkind : ∀ f ∈ captureFields "memory_influence_policy",
        (f.2 = "BIGINT" ∨ f.2 = "TEXT") ∧ columnOf "memory_influence_policy" f.1 = f.1 := by
      rw [captureFields_policy]
      decide
    rw [(hkind f hf).2] at hcast
    exact hasType_castTo (hkind f hf).1 hcast

/-- A restore either was a dry run or has replaced the project's rows. -/
theorem restore_cases {counts : RestoreCounts}
    (h : restore codec args state db = .ok (counts, db')) :
    db' = db ∨ ∃ current tables, Prepared codec args state db current tables ∧
      Restored codec args state db tables db' := by
  cases hdry : args.dryRun with
  | true =>
      obtain ⟨tables, -, h₁⟩ := bind_eq_ok.mp h
      rw [hdry, if_pos rfl] at h₁
      obtain ⟨-, rfl⟩ := Prod.mk.inj (pure_eq_ok.mp h₁)
      exact Or.inl rfl
  | false => exact Or.inr (restore_ok hdry h)

end Restore

section Step

variable {services : Services} {db db' : Database} {id : Int} {call : PolicyCall}

/-- What one call does to the policy of a memory. -/
inductive PolicyStep (services : Services) (id : Int) (e : PolicyEvent) : Prop
  | same (hsuccess : e.success id = none)
      (hpolicy : storedPolicy services (e.after.policyRow id)
        = storedPolicy services (e.before.policyRow id))
      (hrow : (e.before.policyRow id).isSome = true → (e.after.policyRow id).isSome = true)
  | written (w : Write MemoryInfluencePolicyPatch) (p q : MemoryInfluencePolicy)
      (hsuccess : e.success id = some w)
      (hbefore : storedPolicy services (e.before.policyRow id) = .ok p)
      (hexpected : p.version = w.expected) (hpatch : w.patch.applyNext p = .ok q)
      (hafter : storedPolicy services (e.after.policyRow id) = .ok q)
      (hrow : (e.after.policyRow id).isSome = true)
  | adopted (args : RestoreArgs) (state : State) (row : Record)
      (hsuccess : e.success id = none) (hnone : e.before.policyRow id = none)
      (hcall : e.call = .restore args state) (hok : e.result.isOk = true)
      (hfind : ((castRows services.codec state "memory_influence_policy").find? fun r =>
        r.col "memory_id" = .int id) = some row)
      (hafter : storedPolicy services (e.after.policyRow id) = storedPolicy services (some row))
      (hrow : (e.after.policyRow id).isSome = true)

theorem applyNext_version {patch : MemoryInfluencePolicyPatch} {p q : MemoryInfluencePolicy}
    (h : patch.applyNext p = .ok q) : q.version = p.version + 1 := by
  obtain ⟨patched, -, h₁⟩ := bind_eq_ok.mp h
  obtain rfl := pure_eq_ok.mp h₁
  rfl

/-- A call that fails is rolled back. -/
theorem execute_error (h : (call.execute services db).result.isOk = false) :
    (call.execute services db).after = (call.execute services db).before := by
  unfold PolicyCall.execute at h ⊢
  split at h
  · cases h
  · rfl

theorem execute_update {u : PolicyUpdate} {record : MemoryInfluencePolicyRecord}
    (h : updateMemoryInfluencePolicy services u db = .ok (record, db')) :
    (PolicyCall.update u).execute services db = ⟨.update u, db, db', .ok (some record)⟩ := by
  simp only [PolicyCall.execute, PolicyCall.transaction, h, bind, Except.bind, pure, Except.pure]

theorem execute_update_error {u : PolicyUpdate} {e : String}
    (h : updateMemoryInfluencePolicy services u db = .error e) :
    (PolicyCall.update u).execute services db = ⟨.update u, db, db, .error e⟩ := by
  simp only [PolicyCall.execute, PolicyCall.transaction, h, bind, Except.bind]

/-- An update is no restore. -/
theorem keeps_update {u : PolicyUpdate} : ((PolicyCall.update u).execute services db).Keeps id := by
  cases h : updateMemoryInfluencePolicy services u db with
  | error e =>
      rw [execute_update_error h]
      trivial
  | ok out =>
      rw [execute_update h]
      trivial

theorem execute_restore {args : RestoreArgs} {state : State} {counts : RestoreCounts}
    (h : restore services.codec args state db = .ok (counts, db')) :
    (PolicyCall.restore args state).execute services db
      = ⟨.restore args state, db, db', .ok none⟩ := by
  simp only [PolicyCall.execute, PolicyCall.transaction, h, bind, Except.bind, pure, Except.pure]

theorem execute_restore_error {args : RestoreArgs} {state : State} {e : String}
    (h : restore services.codec args state db = .error e) :
    (PolicyCall.restore args state).execute services db
      = ⟨.restore args state, db, db, .error e⟩ := by
  simp only [PolicyCall.execute, PolicyCall.transaction, h, bind, Except.bind]

theorem execute_formed (hformed : db.PoliciesFormed) :
    (call.execute services db).after.PoliciesFormed := by
  cases call with
  | update u =>
      cases h : updateMemoryInfluencePolicy services u db with
      | error e => rwa [execute_update_error h]
      | ok out =>
          rw [execute_update h]
          exact updateMemoryInfluencePolicy_formed hformed h
  | restore args state =>
      cases h : IronMem.restore services.codec args state db with
      | error e => rwa [execute_restore_error h]
      | ok out =>
          rw [execute_restore h]
          rcases restore_cases h with heq | ⟨current, tables, -, hrestored⟩
          · exact heq ▸ hformed
          · exact hrestored.policiesFormed hformed

/-- A restore that keeps the memory leaves its policy or brings in the checkpoint's. -/
theorem restore_step {args : RestoreArgs} {state : State} {counts : RestoreCounts}
    (hformed : db.PoliciesFormed)
    (h : restore services.codec args state db = .ok (counts, db'))
    (hthere : (db'.memoryRow id).isSome = true) :
    PolicyStep services id ⟨.restore args state, db, db', .ok none⟩ := by
  rcases restore_cases h with rfl | ⟨current, tables, hprepared, hrestored⟩
  · exact .same rfl rfl fun h => h
  cases hpolicy : db.policyRow id with
  | some p =>
      obtain ⟨after, hafter, hcols⟩ := restored_policy hprepared hrestored hformed hpolicy hthere
      refine .same rfl ?_ fun _ => ?_
      · show storedPolicy services (db'.policyRow id) = storedPolicy services (db.policyRow id)
        rw [hafter, hpolicy]
        exact storedPolicy_congr hcols
      · show (db'.policyRow id).isSome = true
        rw [hafter]
        rfl
  | none =>
      have hnext := policyRow_next hprepared hrestored hformed hpolicy
      cases hfind : (castRows services.codec state "memory_influence_policy").find? fun r =>
          r.col "memory_id" = .int id with
      | none =>
          refine .same rfl ?_ fun hsome => ?_
          · exact congrArg _ ((hnext.trans hfind).trans hpolicy.symm)
          · rw [hpolicy] at hsome
            cases hsome
      | some row =>
          refine .adopted args state row rfl hpolicy rfl rfl hfind ?_ ?_
          · exact congrArg _ (hnext.trans hfind)
          · show (db'.policyRow id).isSome = true
            rw [hnext, hfind]
            rfl

variable (hlist : ∀ l, services.taskListFromStr (jsonStrings l) = .ok l)
include hlist

theorem update_step {u : PolicyUpdate} {record : MemoryInfluencePolicyRecord}
    (h : updateMemoryInfluencePolicy services u db = .ok (record, db')) :
    PolicyStep services id ⟨.update u, db, db', .ok (some record)⟩ := by
  obtain ⟨current, patched, hcurrent, hversion, hpatched, hrecord, hstored, hrow, hothers⟩ :=
    updateMemoryInfluencePolicy_policy hlist h
  by_cases hid : u.memoryId.toInt = id
  · subst hid
    refine .written ⟨u.request.expectedVersion, u.request.patch⟩ current record.policy ?_ hcurrent
      hversion ?_ hstored hrow
    · exact if_pos rfl
    · show u.request.patch.applyNext current = .ok record.policy
      rw [MemoryInfluencePolicyPatch.applyNext, hpatched, hrecord]
      rfl
  · have hkept : db'.policyRow id = db.policyRow id := hothers id (Ne.symm hid)
    exact .same (if_neg hid) (congrArg _ hkept) fun hsome => hkept ▸ hsome

/-- Every call that keeps the memory is one of the three steps. -/
theorem execute_step (hformed : db.PoliciesFormed)
    (hkeeps : (call.execute services db).Keeps id) :
    PolicyStep services id (call.execute services db) := by
  cases call with
  | update u =>
      cases h : updateMemoryInfluencePolicy services u db with
      | error e =>
          rw [execute_update_error h]
          exact .same rfl rfl fun hsome => hsome
      | ok out =>
          rw [execute_update h]
          exact update_step hlist h
  | restore args state =>
      cases h : IronMem.restore services.codec args state db with
      | error e =>
          rw [execute_restore_error h]
          exact .same rfl rfl fun hsome => hsome
      | ok out =>
          rw [execute_restore h] at hkeeps ⊢
          exact restore_step hformed h hkeeps

end Step

/-! ## Runs -/

section Run

variable {services : Services} {id : Int}

theorem execute_before (call : PolicyCall) (db : Database) :
    (call.execute services db).before = db := by
  unfold PolicyCall.execute
  split <;> rfl

theorem runPolicyCalls_append (db : Database) (earlier later : List PolicyCall) :
    runPolicyCalls services db (earlier ++ later) = runPolicyCalls services db earlier ++
      runPolicyCalls services (lastDatabase db (runPolicyCalls services db earlier)) later := by
  induction earlier generalizing db with
  | nil => rfl
  | cons call earlier ih =>
      rw [List.cons_append, runPolicyCalls, ih, runPolicyCalls, List.cons_append]
      rfl

theorem lastDatabase_append (db : Database) (events more : List PolicyEvent) :
    lastDatabase db (events ++ more) = lastDatabase (lastDatabase db events) more := by
  rw [lastDatabase, List.foldl_append]
  rfl

theorem run_formed {calls : List PolicyCall} {db : Database} (hformed : db.PoliciesFormed) :
    (lastDatabase db (runPolicyCalls services db calls)).PoliciesFormed := by
  induction calls generalizing db with
  | nil => exact hformed
  | cons call calls ih => exact ih (execute_formed hformed)

/-- Each event of a run is a call on some database. -/
theorem mem_runPolicyCalls {calls : List PolicyCall} {db : Database} {e : PolicyEvent}
    (he : e ∈ runPolicyCalls services db calls) :
    ∃ (call : PolicyCall) (db' : Database), e = call.execute services db' := by
  induction calls generalizing db with
  | nil => cases he
  | cons call calls ih =>
      rcases List.mem_cons.mp he with rfl | he
      · exact ⟨call, db, rfl⟩
      · exact ih he

variable (hlist : ∀ l, services.taskListFromStr (jsonStrings l) = .ok l)
include hlist

/-- The updates that went through are one chain from the policy there was, or from an
adopted one. -/
theorem run_tracks {calls : List PolicyCall} {db : Database} (hformed : db.PoliciesFormed)
    (hkeeps : ∀ e ∈ runPolicyCalls services db calls, e.Keeps id) :
    ∃ base, (base = storedPolicy services (db.policyRow id) ∨
        Adopted services id db (runPolicyCalls services db calls) base) ∧
      Tracks policyCell base (successes id (runPolicyCalls services db calls))
        (storedPolicy services
          ((lastDatabase db (runPolicyCalls services db calls)).policyRow id)) := by
  induction calls generalizing db with
  | nil => exact ⟨_, Or.inl rfl, .refl _ _⟩
  | cons call calls ih =>
      obtain ⟨hkeep, hrest⟩ := List.forall_mem_cons.mp hkeeps
      obtain ⟨base, hbase, htracks⟩ := ih (execute_formed hformed) hrest
      have hstep := execute_step hlist hformed hkeep
      have hbefore : (call.execute services db).before = db := execute_before call db
      have hevents : runPolicyCalls services db (call :: calls) = call.execute services db ::
          runPolicyCalls services (call.execute services db).after calls := rfl
      have hlast : lastDatabase db (runPolicyCalls services db (call :: calls))
          = lastDatabase (call.execute services db).after
            (runPolicyCalls services (call.execute services db).after calls) := rfl
      rw [hlast, hevents, successes]
      generalize call.execute services db = e at *
      subst hbefore
      -- the rest starts at the policy that is there now, if the memory has one of its own
      have hstart : (e.after.policyRow id).isSome = true →
          base = storedPolicy services (e.after.policyRow id) := fun hsome =>
        hbase.resolve_right fun hadopted => by
          rw [hadopted.none] at hsome
          cases hsome
      cases hstep with
      | same hsuccess hpolicy hrow =>
          rw [List.filterMap_cons_none hsuccess]
          refine ⟨base, ?_, htracks⟩
          rcases hbase with hbase | ⟨hnone, pre, f, post, hsplit, hpre, hadopted⟩
          · exact Or.inl (hbase.trans hpolicy)
          · refine Or.inr ⟨?_, e :: pre, f, post, by rw [hsplit, List.cons_append], ?_, hadopted⟩
            · cases hrow' : e.before.policyRow id with
              | none => rfl
              | some p =>
                  rw [hrow', hnone] at hrow
                  exact absurd (hrow rfl) (by decide)
            · rw [successes, List.filterMap_cons_none hsuccess]
              exact hpre
      | written w p q hsuccess hcurrent hexpected hpatch hafter hrow =>
          rw [List.filterMap_cons_some hsuccess]
          refine ⟨_, Or.inl rfl, ?_⟩
          rw [hcurrent]
          rw [hstart hrow, hafter] at htracks
          refine .cons hexpected hpatch ?_ htracks
          rw [← hexpected]
          exact applyNext_version hpatch
      | adopted args state row hsuccess hnone hcall hok hfind hafter hrow =>
          rw [List.filterMap_cons_none hsuccess]
          rw [hstart hrow, hafter] at htracks
          exact ⟨_, Or.inr ⟨hnone, [], e, _, rfl, rfl, args, state, row, hcall, hok, hfind, rfl⟩, htracks⟩

omit hlist in
/-- A successful update returns the version after the expected one. -/
theorem execute_yields {call : PolicyCall} {db : Database} {u : PolicyUpdate}
    {record : MemoryInfluencePolicyRecord} (hcall : (call.execute services db).call = .update u)
    (hresult : (call.execute services db).result = .ok (some record)) :
    record.policy.version = u.request.expectedVersion + 1 := by
  cases call with
  | restore args state =>
      cases h : IronMem.restore services.codec args state db with
      | error e =>
          rw [execute_restore_error h] at hcall
          cases hcall
      | ok out =>
          rw [execute_restore h] at hcall
          cases hcall
  | update v =>
      cases h : updateMemoryInfluencePolicy services v db with
      | error e =>
          rw [execute_update_error h] at hresult
          cases hresult
      | ok out =>
          rw [execute_update h] at hcall hresult
          cases hcall
          cases hresult
          obtain ⟨current, patched, -, -, hversion, -, hrecord, -⟩ := updateMemoryInfluencePolicy_ok h
          rw [hrecord, ← hversion]

/-- Where the last readable version stands. -/
theorem run_version_le {calls : List PolicyCall} {db : Database} {p q : MemoryInfluencePolicy}
    (hformed : db.PoliciesFormed)
    (hkeeps : ∀ e ∈ runPolicyCalls services db calls, e.Keeps id)
    (hp : storedPolicy services (db.policyRow id) = .ok p)
    (hq : storedPolicy services
      ((lastDatabase db (runPolicyCalls services db calls)).policyRow id) = .ok q) :
    p.version ≤ q.version := by
  obtain ⟨base, hbase, htracks⟩ := run_tracks hlist hformed hkeeps
  rw [hq] at htracks
  rcases hbase with rfl | hadopted
  · rw [hp] at htracks
    exact htracks.version_le
  · rw [hadopted.none] at hp
    obtain rfl := Except.ok.inj hp
    exact (storedPolicy_storable hq).2

/-- No update is lost, from the policy there was or from the one a restore brought in. -/
theorem policy_updates_never_lost {db : Database} {calls : List PolicyCall}
    (hformed : db.PoliciesFormed)
    (hkeeps : ∀ e ∈ runPolicyCalls services db calls, e.Keeps id) :
    ∃ base, (base = storedPolicy services (db.policyRow id) ∨
        Adopted services id db (runPolicyCalls services db calls) base) ∧
      NeverLost services id db calls base := by
  obtain ⟨base, hbase, htracks⟩ := run_tracks hlist hformed hkeeps
  refine ⟨base, hbase, ?_, htracks.pairwise, htracks.foldlM_eq, ?_, ?_⟩
  · intro e he u record hcall hresult
    obtain ⟨call, db', rfl⟩ := mem_runPolicyCalls he
    exact execute_yields hcall hresult
  · intro e he hfailed
    obtain ⟨call, db', rfl⟩ := mem_runPolicyCalls he
    exact execute_error hfailed
  · rintro earlier later rfl p q hp hq
    rw [runPolicyCalls_append, lastDatabase_append] at hq
    refine run_version_le hlist (run_formed hformed) (fun e he => ?_) hp hq
    rw [runPolicyCalls_append] at hkeeps
    exact hkeeps e (List.mem_append_right _ he)

end Run

/-! ## A policy that comes back -/

/-- One memory, without a policy of its own. -/
def plainNote : Database :=
  (({} : Database).insertRow "memories" (newMemoryRow 1 "notes" "s1" "draft" none 100)).insertRow
    "memory_meta" (newMetaRow 1 100 "root")

def blockedPolicy : MemoryInfluencePolicy where
  version := 2
  state := .blocked

/-- The checkpoint of that memory from when it was blocked. -/
def blockedCheckpoint : State :=
  match capture (jsonCodec []) (plainNote.insertRow "memory_influence_policy"
      (Record.setAll ∅ (("memory_id", .int 1) :: policyColumns blockedPolicy "ana" 100)))
      "notes" true with
  | .ok state => state
  | .error _ => ⟨"notes", ∅, ∅, []⟩

def noteServices : Services where
  codec := jsonCodec []
  tokens := ⟨fun _ => none, fun _ _ _ => false, fun _ => none, fun _ => none⟩
  readFile _ := .error "no such file"
  taskListFromStr := parseStrings
  configToVec _ := []

theorem plainNote_formed : plainNote.PoliciesFormed :=
  Database.WellFormed.policiesFormed (by decide +kernel)

theorem blockedCheckpoint_restored : ∃ counts db',
    IronMem.restore noteServices.codec importArgs blockedCheckpoint plainNote = .ok (counts, db') ∧
      (db'.memoryRow 1).isSome = true ∧
      ∃ p, storedPolicy noteServices (db'.policyRow 1) = .ok p ∧ p.version = 2 := by
  have hrun : okAnd (fun out => (out.2.memoryRow 1).isSome
      && okAnd (fun p => p.version == 2) (storedPolicy noteServices (out.2.policyRow 1)))
      (IronMem.restore noteServices.codec importArgs blockedCheckpoint plainNote) = true := by
    decide +kernel
  obtain ⟨⟨counts, db'⟩, hok, hboth⟩ := okAnd_eq_true.mp hrun
  obtain ⟨hrow, hpolicy⟩ := Bool.and_eq_true_iff.mp hboth
  obtain ⟨p, hp, hversion⟩ := okAnd_eq_true.mp hpolicy
  exact ⟨counts, db', hok, hrow, p, hp, by simpa using hversion⟩

/-- No update went through, and the stored policy is not the one there was. -/
theorem restore_adopts_policy : plainNote.PoliciesFormed ∧
    (∀ l, noteServices.taskListFromStr (jsonStrings l) = .ok l) ∧
    (∀ e ∈ runPolicyCalls noteServices plainNote [.restore importArgs blockedCheckpoint], e.Keeps 1) ∧
    ¬ NeverLost noteServices 1 plainNote [.restore importArgs blockedCheckpoint]
      (storedPolicy noteServices (plainNote.policyRow 1)) := by
  obtain ⟨counts, db', hok, hrow, p, hp, hversion⟩ := blockedCheckpoint_restored
  have hevent := execute_restore hok
  refine ⟨plainNote_formed, parseStrings_jsonStrings, fun e he => ?_, fun hlost => ?_⟩
  · rw [runPolicyCalls, runPolicyCalls, hevent] at he
    obtain rfl := List.mem_singleton.mp he
    exact hrow
  · have hstored := hlost.stored
    have hinitial : storedPolicy noteServices (plainNote.policyRow 1) = .ok {} := rfl
    rw [runPolicyCalls, runPolicyCalls, hevent, hinitial] at hstored
    obtain rfl := Except.ok.inj (hp.symm.trans hstored)
    exact absurd hversion (by decide)

/-- The operator raises the bar for that memory. -/
def restrictNote : PolicyUpdate where
  memoryId := 1
  «namespace» := "local"
  actor := "ana"
  authority := "local_operator"
  request := ⟨2, { state := some .actionRestricted }, "reviewed", "r1"⟩
  now := 300
  ledgerNow := 300

theorem policy_updates_never_lost_note : ∃ base,
    (base = storedPolicy noteServices (plainNote.policyRow 1) ∨
      Adopted noteServices 1 plainNote (runPolicyCalls noteServices plainNote
        [.restore importArgs blockedCheckpoint, .update restrictNote]) base) ∧
    NeverLost noteServices 1 plainNote [.restore importArgs blockedCheckpoint, .update restrictNote]
      base := by
  obtain ⟨counts, db', hok, hrow, -⟩ := blockedCheckpoint_restored
  have hevent := execute_restore hok
  refine policy_updates_never_lost parseStrings_jsonStrings plainNote_formed fun e he => ?_
  rw [runPolicyCalls, runPolicyCalls, runPolicyCalls, hevent] at he
  rcases List.mem_cons.mp he with rfl | he
  · exact hrow
  · obtain rfl := List.mem_singleton.mp he
    exact keeps_update

end IronMem
