import IronMem.SessionSweeps

/-!
# Leases that outlive their work

The lease is what keeps two sweepers apart. Where no lease expires while its owner works under it,
no request compresses a session besides the sweepers and no session is observed while it is
summarised, at most one call works on a session at a time, and the runs are among those in which
every session is summarised once.

Under these conditions every call at work has its lease in the table, and a lease has one owner
(`Daemon.Leased.owner_unique`). An action concerns the call that takes it, so the step lemmas come
down to what that call has to keep to (`Daemon.Admits`): it does not work, it goes on under the
lease it has, or it has just got one that nobody held. What a call has found out about its session
stays true as long as it has the lease, and that is the condition of `SessionSweeps`
(`Daemon.Leased.foreseen`).

A lease may expire while its owner works under it. `LeasesHold` leaves such runs out, not by a
bound on times but where it matters: nobody deletes an expired lease while its owner is at work
on the session. Requests that end a session take no lease and are left out as well.
-/

namespace IronMem

namespace SessionSweeps

/-- The session a call works on under its lease. -/
def Process.holds : Process → Option String
  | .leased session _ => some session
  | .checked session _ => some session
  | .compressing session (.sweeper _) => some session
  | .reading session (.sweeper _) => some session
  | .summarising session _ (.sweeper _) => some session
  | .inserted session _ (.sweeper _) => some session
  | _ => none

/-- The session that the call found uncompressed under its lease. -/
def Process.found : Process → Option String
  | .leased _ _ => none
  | p => p.holds

/-- The observations a memory is made of. -/
def Process.material : Process → Option (String × List Observation)
  | .summarising session observations _ => some (session, observations)
  | .inserted session observations _ => some (session, observations)
  | _ => none

/-- No lease is lost at work, only sweepers compress, and a session is not observed between the
reading and the flag. -/
def LeasesHold : Action → Daemon → Prop
  | .deleteExpired pid now, t => ∀ session rest, t.procs pid = .sweeping (session :: rest) →
      ∀ lease : SweepLease, t.leases[session]? = some lease → lease.leaseUntil ≤ now →
        (t.procs lease.owner).holds ≠ some session
  | .insertObservation session _, t => ∀ pid observations,
      (t.procs pid).material ≠ some (session, observations)
  | .endSession _ _ _, _ => False
  | _, _ => True

structure Daemon.Leased (t : Daemon) : Prop where
  lease : ∀ pid session, (t.procs pid).holds = some session →
    ∃ lease : SweepLease, t.leases[session]? = some lease ∧ lease.owner = pid
  sweepers : ∀ pid session, (t.procs pid).compresses = some session →
    (t.procs pid).holds = some session
  swept : ∀ pid session, t.procs pid ≠ .ended session
  found : ∀ pid session, (t.procs pid).found = some session → t.flag session = some false
  material : ∀ pid session observations, (t.procs pid).material = some (session, observations) →
    observations = t.observationsOf session

variable {t t' : Daemon} {pid pid' : Nat} {p : Process} {session : String}

theorem Process.holds_of_found (h : p.found = some session) : p.holds = some session := by
  cases p with
  | leased session rest => cases h
  | _ => exact h

/-- A session has one lease, so it has one owner at work. -/
theorem Daemon.Leased.owner_unique (h : t.Leased) (hholds : (t.procs pid).holds = some session)
    (hholds' : (t.procs pid').holds = some session) : pid' = pid := by
  obtain ⟨lease, hlease, howner⟩ := h.lease pid session hholds
  obtain ⟨lease', hlease', howner'⟩ := h.lease pid' session hholds'
  rw [← howner, ← howner', Option.some.inj (hlease'.symm.trans hlease)]

/-- What the next state of a call has to keep to. -/
structure Daemon.Admits (t : Daemon) (pid : Nat) (p : Process) : Prop where
  lease : ∀ session, p.holds = some session →
    ∃ lease : SweepLease, t.leases[session]? = some lease ∧ lease.owner = pid
  sweepers : ∀ session, p.compresses = some session → p.holds = some session
  swept : ∀ session, p ≠ .ended session
  found : ∀ session, p.found = some session → t.flag session = some false
  material : ∀ session observations, p.material = some (session, observations) →
    observations = t.observationsOf session

/-- A step that leaves the other calls what they rely on. -/
theorem Daemon.Leased.of_step (pid : Nat) (h : t.Leased)
    (hothers : ∀ pid', pid' ≠ pid → t'.procs pid' = t.procs pid')
    (hleases : ∀ pid' session (lease : SweepLease), pid' ≠ pid →
      (t.procs pid').holds = some session → t.leases[session]? = some lease → lease.owner = pid' →
        t'.leases[session]? = some lease)
    (hflag : ∀ pid' session, pid' ≠ pid → (t.procs pid').found = some session →
      t'.flag session = some false)
    (hobservations : t'.observations = t.observations)
    (hself : t'.Admits pid (t'.procs pid)) : t'.Leased := by
  have hobs : ∀ session, t'.observationsOf session = t.observationsOf session := fun session => by
    rw [Daemon.observationsOf, hobservations]
    rfl
  refine ⟨fun pid' session hp => ?_, fun pid' session hp => ?_, fun pid' session hp => ?_,
    fun pid' session hp => ?_, fun pid' session observations hp => ?_⟩
  all_goals by_cases heq : pid' = pid
  · subst heq
    exact hself.lease session hp
  · rw [hothers pid' heq] at hp
    obtain ⟨lease, hlease, howner⟩ := h.lease pid' session hp
    exact ⟨lease, hleases pid' session lease heq hp hlease howner, howner⟩
  · subst heq
    exact hself.sweepers session hp
  · rw [hothers pid' heq] at hp ⊢
    exact h.sweepers pid' session hp
  · subst heq
    exact hself.swept session hp
  · rw [hothers pid' heq] at hp
    exact h.swept pid' session hp
  · subst heq
    exact hself.found session hp
  · rw [hothers pid' heq] at hp
    exact hflag pid' session heq hp
  · subst heq
    exact hself.material session observations hp
  · rw [hothers pid' heq] at hp
    exact (h.material pid' session observations hp).trans (hobs session).symm

/-- A call that is not at work keeps to everything. -/
theorem Daemon.Admits.of_rest (hholds : p.holds = none) (hcompresses : p.compresses = none)
    (hswept : ∀ session, p ≠ .ended session) : t.Admits pid p := by
  have hfound : p.found = none := by
    cases hf : p.found with
    | none => rfl
    | some session =>
        rw [Process.holds_of_found hf] at hholds
        cases hholds
  have hmaterial : p.material = none := by
    cases p with
    | summarising session observations caller => cases hcompresses
    | inserted session observations caller => cases hcompresses
    | _ => rfl
  refine ⟨fun session hp => ?_, fun session hp => ?_, hswept, fun session hp => ?_,
    fun session observations hp => ?_⟩
  · rw [hholds] at hp
    cases hp
  · rw [hcompresses] at hp
    cases hp
  · rw [hfound] at hp
    cases hp
  · rw [hmaterial] at hp
    cases hp

theorem Daemon.Leased.setProc (h : t.Leased) (hp : t.Admits pid p) : (t.setProc pid p).Leased := by
  refine h.of_step pid (fun pid' hne => Function.update_of_ne hne _ _)
    (fun _ _ _ _ _ hlease _ => hlease) (fun pid' session _ hf => h.found pid' session hf) rfl ?_
  rw [show (t.setProc pid p).procs pid = p from Function.update_self _ _ _]
  exact ⟨hp.lease, hp.sweepers, hp.swept, hp.found, hp.material⟩

/-- A call that goes on working under its lease. -/
theorem Daemon.Admits.of_work (h : t.Leased) (hholds : p.holds = (t.procs pid).holds)
    (hcompresses : p.compresses = (t.procs pid).compresses) (hfound : p.found = (t.procs pid).found)
    (hswept : ∀ session, p ≠ .ended session)
    (hmaterial : ∀ session observations, p.material = some (session, observations) →
      observations = t.observationsOf session) : t.Admits pid p :=
  ⟨fun session hp => h.lease pid session (hholds ▸ hp),
    fun session hp => hholds ▸ h.sweepers pid session (hcompresses ▸ hp), hswept,
    fun session hp => h.found pid session (hfound ▸ hp), hmaterial⟩

theorem admits_next (caller : Caller) : t.Admits pid (caller.next session) := by
  cases caller with
  | sweeper rest => exact .of_rest rfl rfl fun _ heq => by cases heq
  | request => exact .of_rest rfl rfl fun _ heq => by cases heq

theorem leases_deleteExpired {now : Int} {session' : String} {lease : SweepLease}
    (h : t.leases[session']? = some lease) (hkept : session' = session → now < lease.leaseUntil) :
    (t.deleteExpired session now).leases[session']? = some lease := by
  unfold Daemon.deleteExpired
  split
  · next lease' hlease' =>
      split
      · next hexpired =>
          dsimp only
          rw [Std.ExtTreeMap.getElem?_erase, if_neg]
          · exact h
          · intro heq
            obtain rfl := Std.LawfulEqOrd.eq_of_compare heq
            rw [h] at hlease'
            obtain rfl := Option.some.inj hlease'
            exact absurd (hkept rfl) (Int.not_lt.mpr hexpired)
      · exact h
  · exact h

theorem leases_releaseSweepLease {session' : String} {lease : SweepLease}
    (h : t.leases[session']? = some lease) (howner : lease.owner ≠ pid) :
    (t.releaseSweepLease session pid).leases[session']? = some lease := by
  unfold Daemon.releaseSweepLease
  split
  · next lease' hlease' =>
      split
      · next hsame =>
          dsimp only
          rw [Std.ExtTreeMap.getElem?_erase, if_neg]
          · exact h
          · intro heq
            obtain rfl := Std.LawfulEqOrd.eq_of_compare heq
            rw [h] at hlease'
            obtain rfl := Option.some.inj hlease'
            exact howner hsame
      · exact h
  · exact h

theorem flag_deleteExpired {now : Int} {session' : String} :
    (t.deleteExpired session now).flag session' = t.flag session' := by
  unfold Daemon.deleteExpired
  split
  · split <;> rfl
  · rfl

theorem flag_releaseSweepLease {session' : String} :
    (t.releaseSweepLease session pid).flag session' = t.flag session' := by
  unfold Daemon.releaseSweepLease
  split
  · split <;> rfl
  · rfl

theorem observations_deleteExpired {now : Int} :
    (t.deleteExpired session now).observations = t.observations := by
  unfold Daemon.deleteExpired
  split
  · split <;> rfl
  · rfl

theorem observations_releaseSweepLease :
    (t.releaseSweepLease session pid).observations = t.observations := by
  unfold Daemon.releaseSweepLease
  split
  · split <;> rfl
  · rfl

/-! ### The statements of a sweep -/

theorem Daemon.Leased.step_createSession {now : Int} (h : t.Leased)
    (hstep : step (.createSession session now) t = some t') : t'.Leased := by
  simp only [SessionSweeps.step] at hstep
  split at hstep
  · cases hstep
  · cases hstep
    refine ⟨h.lease, h.sweepers, h.swept, fun pid session' hf => ?_, h.material⟩
    dsimp only [Daemon.flag]
    rw [Std.ExtTreeMap.getElem?_insert]
    split
    · rfl
    · exact h.found pid session' hf

theorem Daemon.Leased.step_insertObservation {now : Int} (h : t.Leased)
    (hok : LeasesHold (.insertObservation session now) t)
    (hstep : step (.insertObservation session now) t = some t') : t'.Leased := by
  rw [SessionSweeps.step_insertObservation] at hstep
  cases hstep
  refine ⟨h.lease, h.sweepers, h.swept, h.found, fun pid session' observations hp => ?_⟩
  have hne : session ≠ session' := fun heq => hok pid observations (heq ▸ hp)
  refine (h.material pid session' observations hp).trans ?_
  simp only [Daemon.observationsOf, List.filter_append, List.filter_cons, List.filter_nil,
    decide_eq_true_eq, if_neg hne, List.append_nil]

theorem Daemon.Leased.step_listCandidates {now compressIdleSecs minObservations limit : Int}
    (h : t.Leased)
    (hstep : step (.listCandidates pid now compressIdleSecs minObservations limit) t = some t') :
    t'.Leased := by
  simp only [SessionSweeps.step] at hstep
  split at hstep
  · cases hstep
    exact h.setProc (.of_rest rfl rfl fun _ heq => by cases heq)
  · cases hstep

theorem Daemon.Leased.step_deleteExpired {now : Int} (h : t.Leased)
    (hok : LeasesHold (.deleteExpired pid now) t)
    (hstep : step (.deleteExpired pid now) t = some t') : t'.Leased := by
  simp only [SessionSweeps.step] at hstep
  split at hstep
  · next session rest hproc =>
      cases hstep
      refine h.of_step pid (fun pid' hne => ?_) (fun pid' session' lease _ hholds hlease howner => ?_)
        (fun pid' session' _ hf => flag_deleteExpired.trans (h.found pid' session' hf))
        observations_deleteExpired ?_
      · exact (Function.update_of_ne hne _ _).trans (congrFun procs_deleteExpired pid')
      · refine leases_deleteExpired hlease fun hsame => Int.not_le.mp fun hexpired => ?_
        subst hsame
        exact hok session' rest hproc lease hlease hexpired (howner ▸ hholds)
      · rw [show ((t.deleteExpired session now).setProc pid _).procs pid = _ from
          Function.update_self _ _ _]
        exact .of_rest rfl rfl fun _ heq => by cases heq
  · cases hstep

theorem Daemon.Leased.step_insertLease {leaseSecs : Int} (h : t.Leased)
    (hstep : step (.insertLease pid leaseSecs) t = some t') : t'.Leased := by
  simp only [SessionSweeps.step] at hstep
  split at hstep
  · next now session rest hproc =>
      split at hstep
      · cases hstep
        exact h.setProc (.of_rest rfl rfl fun _ heq => by cases heq)
      · next hfree =>
          cases hstep
          refine h.of_step pid (fun pid' hne => Function.update_of_ne hne _ _)
            (fun pid' session' lease _ _ hlease _ => ?_)
            (fun pid' session' _ hf => h.found pid' session' hf) rfl ?_
          · dsimp only [Daemon.setProc]
            rw [Std.ExtTreeMap.getElem?_insert, if_neg]
            · exact hlease
            · intro heq
              obtain rfl := Std.LawfulEqOrd.eq_of_compare heq
              exact hfree (Std.ExtTreeMap.contains_eq_isSome_getElem?.trans (by rw [hlease]; rfl))
          · rw [show (Daemon.setProc _ pid (.leased session rest)).procs pid = _ from
              Function.update_self _ _ _]
            refine ⟨fun session' hp => ?_, fun session' hp => (by cases hp),
              fun _ heq => (by cases heq), fun session' hp => (by cases hp),
              fun session' observations hp => (by cases hp)⟩
            obtain rfl := Option.some.inj hp
            exact ⟨_, Std.ExtTreeMap.getElem?_insert_self, rfl⟩
  · cases hstep

theorem Daemon.Leased.step_recheck (h : t.Leased)
    (hstep : step (.recheck pid) t = some t') : t'.Leased := by
  simp only [SessionSweeps.step] at hstep
  split at hstep
  · next session rest hproc =>
      split at hstep
      · next hflag =>
          cases hstep
          have hholds : (t.procs pid).holds = some session := by rw [hproc]; rfl
          refine h.setProc ⟨fun session' hp => ?_, fun session' hp => (by cases hp),
            fun _ heq => (by cases heq), fun session' hp => ?_,
            fun session' observations hp => (by cases hp)⟩
          · obtain rfl := Option.some.inj hp
            exact h.lease pid _ hholds
          · obtain rfl := Option.some.inj hp
            exact hflag
      · cases hstep
        exact h.setProc (.of_rest rfl rfl fun _ heq => by cases heq)
  · cases hstep

theorem Daemon.Leased.step_endIfOpen {now : Int} (h : t.Leased)
    (hstep : step (.endIfOpen pid now) t = some t') : t'.Leased := by
  simp only [SessionSweeps.step] at hstep
  split at hstep
  · next session rest hproc =>
      cases hstep
      have hholds : (t.procs pid).holds = some session := by rw [hproc]; rfl
      have hfound : (t.procs pid).found = some session := by rw [hproc]; rfl
      refine h.of_step pid (fun pid' hne => Function.update_of_ne hne _ _)
        (fun _ _ _ _ _ hlease _ => hlease)
        (fun pid' session' _ hf => flag_endSessionIfOpen.trans (h.found pid' session' hf)) rfl ?_
      rw [show ((t.endSessionIfOpen session now).setProc pid _).procs pid = _ from
        Function.update_self _ _ _]
      refine ⟨fun session' hp => ?_, fun session' hp => hp, fun _ heq => (by cases heq),
        fun session' hp => ?_, fun session' observations hp => (by cases hp)⟩
      · obtain rfl := Option.some.inj hp
        exact h.lease pid _ hholds
      · obtain rfl := Option.some.inj hp
        exact flag_endSessionIfOpen.trans (h.found pid _ hfound)
  · cases hstep

theorem Daemon.Leased.step_release (h : t.Leased)
    (hstep : step (.release pid) t = some t') : t'.Leased := by
  simp only [SessionSweeps.step] at hstep
  split at hstep
  · next session rest hproc =>
      cases hstep
      refine h.of_step pid (fun pid' hne => ?_) (fun pid' session' lease hne _ hlease howner => ?_)
        (fun pid' session' _ hf => flag_releaseSweepLease.trans (h.found pid' session' hf))
        observations_releaseSweepLease ?_
      · exact (Function.update_of_ne hne _ _).trans (congrFun procs_releaseSweepLease pid')
      · exact leases_releaseSweepLease hlease (howner ▸ hne)
      · rw [show ((t.releaseSweepLease session pid).setProc pid _).procs pid = _ from
          Function.update_self _ _ _]
        exact .of_rest rfl rfl fun _ heq => by cases heq
  · cases hstep

theorem Daemon.Leased.step_finish (h : t.Leased)
    (hstep : step (.finish pid) t = some t') : t'.Leased := by
  simp only [SessionSweeps.step] at hstep
  split at hstep
  · cases hstep
    exact h.setProc (.of_rest rfl rfl fun _ heq => by cases heq)
  · cases hstep

theorem Daemon.Leased.step_countObservations (h : t.Leased)
    (hstep : step (.countObservations pid) t = some t') : t'.Leased := by
  simp only [SessionSweeps.step] at hstep
  split at hstep
  · next session hproc => exact absurd hproc (h.swept pid session)
  · cases hstep

/-! ### The statements of a compression -/

theorem Daemon.Leased.step_getSession (h : t.Leased)
    (hstep : step (.getSession pid) t = some t') : t'.Leased := by
  simp only [SessionSweeps.step] at hstep
  split at hstep
  · next session caller hproc =>
      split at hstep
      · cases hstep
        refine h.setProc (.of_work h ?_ ?_ ?_ (fun _ heq => by cases heq)
          fun _ _ hp => by cases hp)
        all_goals rw [hproc]; cases caller <;> rfl
      · cases hstep
        exact h.setProc (admits_next caller)
  · cases hstep

theorem Daemon.Leased.step_readObservations (h : t.Leased)
    (hstep : step (.readObservations pid) t = some t') : t'.Leased := by
  simp only [SessionSweeps.step] at hstep
  split at hstep
  · next session caller hproc =>
      cases hstep
      refine h.setProc (.of_work h ?_ ?_ ?_ (fun _ heq => by cases heq) fun _ _ hp => ?_)
      · rw [hproc]; cases caller <;> rfl
      · rw [hproc]; rfl
      · rw [hproc]; cases caller <;> rfl
      · cases hp
        rfl
  · cases hstep

theorem Daemon.Leased.step_failCompression (h : t.Leased)
    (hstep : step (.failCompression pid) t = some t') : t'.Leased := by
  simp only [SessionSweeps.step] at hstep
  split at hstep
  · cases hstep
    exact h.setProc (admits_next _)
  · cases hstep
    exact h.setProc (admits_next _)
  · cases hstep
    exact h.setProc (admits_next _)
  · cases hstep

theorem Daemon.Leased.step_insertMemory (h : t.Leased)
    (hstep : step (.insertMemory pid) t = some t') : t'.Leased := by
  simp only [SessionSweeps.step] at hstep
  split at hstep
  · next session observations caller hproc =>
      cases hstep
      have hinserted : t.Admits pid (.inserted session observations caller) := by
        refine .of_work h ?_ ?_ ?_ (fun _ heq => by cases heq) fun _ _ hp => ?_
        · rw [hproc]; cases caller <;> rfl
        · rw [hproc]; rfl
        · rw [hproc]; cases caller <;> rfl
        · exact h.material pid _ _ (by rw [hproc]; exact hp)
      refine h.of_step pid (fun pid' hne => Function.update_of_ne hne _ _)
        (fun _ _ _ _ _ hlease _ => hlease) (fun pid' session' _ hf => h.found pid' session' hf)
        rfl ?_
      rw [show ((t.insertMemory session observations).setProc pid _).procs pid = _ from
        Function.update_self _ _ _]
      exact ⟨hinserted.lease, hinserted.sweepers, hinserted.swept, hinserted.found,
        hinserted.material⟩
  · cases hstep

theorem Daemon.Leased.step_markCompressed (h : t.Leased)
    (hstep : step (.markCompressed pid) t = some t') : t'.Leased := by
  simp only [SessionSweeps.step] at hstep
  split at hstep
  · next session observations caller hproc =>
      cases hstep
      have hholds : (t.procs pid).holds = some session :=
        h.sweepers pid session (by rw [hproc]; rfl)
      refine h.of_step pid (fun pid' hne => Function.update_of_ne hne _ _)
        (fun _ _ _ _ _ hlease _ => hlease) (fun pid' session' hne hf => ?_) rfl ?_
      · -- whoever else has found a session found another one
        refine (flag_markCompressed session').trans ?_
        rw [if_neg]
        · exact h.found pid' session' hf
        · rintro rfl
          exact hne (h.owner_unique hholds (Process.holds_of_found hf))
      · rw [show ((t.markCompressed session).setProc pid _).procs pid = _ from
          Function.update_self _ _ _]
        exact admits_next caller
  · cases hstep

/-! ### Every run -/

/-- Where leases hold, each action leaves every call its lease. -/
theorem Daemon.Leased.step {a : Action} (h : t.Leased) (hok : LeasesHold a t)
    (hstep : step a t = some t') : t'.Leased := by
  cases a with
  | createSession session now => exact h.step_createSession hstep
  | insertObservation session now => exact h.step_insertObservation hok hstep
  | listCandidates pid now compressIdleSecs minObservations limit => exact h.step_listCandidates hstep
  | deleteExpired pid now => exact h.step_deleteExpired hok hstep
  | insertLease pid leaseSecs => exact h.step_insertLease hstep
  | recheck pid => exact h.step_recheck hstep
  | endIfOpen pid now => exact h.step_endIfOpen hstep
  | release pid => exact h.step_release hstep
  | finish pid => exact h.step_finish hstep
  | endSession pid session now => exact hok.elim
  | countObservations pid => exact h.step_countObservations hstep
  | getSession pid => exact h.step_getSession hstep
  | readObservations pid => exact h.step_readObservations hstep
  | failCompression pid => exact h.step_failCompression hstep
  | insertMemory pid => exact h.step_insertMemory hstep
  | markCompressed pid => exact h.step_markCompressed hstep

theorem Daemon.Fresh.leased (h : t.Fresh) : t.Leased := by
  obtain ⟨-, -, -, hidle⟩ := h
  refine ⟨fun pid session hp => ?_, fun pid session hp => ?_, fun pid session hp => ?_,
    fun pid session hp => ?_, fun pid session observations hp => ?_⟩
  all_goals rw [hidle pid] at hp; cases hp

/-- Under its lease a call meets what exactly-once needs. -/
theorem Daemon.Leased.foreseen {a : Action} (h : t.Leased) (hok : LeasesHold a t) : Foreseen a t := by
  cases a with
  | insertMemory pid =>
      intro session observations caller hproc
      have hholds : (t.procs pid).holds = some session :=
        h.sweepers pid session (by rw [hproc]; rfl)
      refine ⟨h.found pid session ?_, h.material pid session observations (by rw [hproc]; rfl),
        fun pid' observations' caller' hother => ?_⟩
      · rw [hproc] at hholds ⊢
        exact hholds
      · have hpid := h.owner_unique hholds (h.sweepers pid' session (by rw [hother]; rfl))
        rw [hpid, hproc] at hother
        cases hother
  | insertObservation session now =>
      intro pid observations caller hproc
      exact hok pid observations (by rw [hproc]; rfl)
  | _ => trivial

/-- Where no lease is lost at work and only sweepers compress, no two calls work on one session, and
every session that is compressed is summarised in one memory of all it had when it was flagged. -/
theorem leases_exclude (h : Actions.Reaches step LeasesHold Daemon.Fresh t) :
    (∀ pid pid' session, (t.procs pid).compresses = some session →
      (t.procs pid').compresses = some session → pid' = pid) ∧ t.Summarised := by
  have hleased : t.Leased := h.invariant (fun _ hfresh => hfresh.leased)
    fun _ _ _ hinv hok hstep => hinv.step hok hstep
  have hforeseen : Actions.Reaches step Foreseen Daemon.Fresh t :=
    h.refine (fun _ hfresh => hfresh.leased) (fun _ _ _ hinv hok hstep => hinv.step hok hstep)
      fun _ _ hinv hok => hinv.foreseen hok
  refine ⟨fun pid pid' session hp hp' => ?_, fun session hf hnone => ?_⟩
  · exact hleased.owner_unique (hleased.sweepers pid session hp) (hleased.sweepers pid' session hp')
  · obtain ⟨m, hm⟩ := (hforeseen.invariant (fun _ hfresh => hfresh.inv)
      fun _ _ _ hinv hok hstep => hinv.step hok hstep).marked session hf
    exact ⟨m, hm⟩

/-- Both sweepers list the session that was observed. -/
def listing : List Action := [.listCandidates 0 10000 60 0 5, .listCandidates 1 10001 60 0 5]

/-- The first one gets the lease and begins. -/
def beginning : List Action := [.insertLease 0 60, .recheck 0, .endIfOpen 0 10000]

/-- The second one is refused, and the first one goes on to the end. -/
def finishing : List Action :=
  [.insertLease 1 60, .getSession 0, .readObservations 0, .insertMemory 0, .finish 1,
    .markCompressed 0, .release 0, .finish 0]

/-- The second sweeper looks for an expired lease while the first one is at work: it gets none,
and the session is summarised once. -/
theorem leases_exclude_observed : ∃ u t : Daemon,
    ((u.procs 0).compresses = some "s" ∧ u.procs 1 = .acquiring 10001 "s" [] ∧
      ∀ pid pid' session, (u.procs pid).compresses = some session →
        (u.procs pid').compresses = some session → pid' = pid) ∧
    Actions.run step finishing u = some t ∧
      (t.flag "s" = some true ∧ (t.memoriesOf "s").length = 1) ∧ t.Summarised := by
  have hrun : ∃ t₁, Actions.run step listing observed = some t₁ ∧ t₁.leases = ∅ ∧
      ∃ t₂, step (.deleteExpired 0 10000) t₁ = some t₂ ∧
        ∃ t₃, Actions.run step beginning t₂ = some t₃ ∧ t₃.leases["s"]? = some ⟨0, 10060⟩ ∧
          t₃.procs 1 = .sweeping ["s"] ∧
          ∃ u, step (.deleteExpired 1 10001) t₃ = some u ∧ (u.procs 0).compresses = some "s" ∧
            u.procs 1 = .acquiring 10001 "s" [] ∧
            ∃ t, Actions.run step finishing u = some t ∧ t.flag "s" = some true ∧
              (t.memoriesOf "s").length = 1 :=
    ⟨_, rfl, rfl, _, rfl, _, rfl, rfl, rfl, _, rfl, rfl, rfl, _, rfl, rfl, rfl⟩
  obtain ⟨t₁, hlisting, hempty, t₂, hfirst, t₃, hbeginning, hlease, hproc, u, hsecond, hcompresses,
    hacquiring, t, hfinishing, hstate⟩ := hrun
  have hlisted : Actions.Reaches step LeasesHold Daemon.Fresh t₁ :=
    (Actions.Reaches.start observed_fresh).run (fun a ha _ => by
      simp only [listing, List.mem_cons, List.not_mem_nil, or_false] at ha
      rcases ha with rfl | rfl <;> trivial) hlisting
  have hready : Actions.Reaches step LeasesHold Daemon.Fresh t₂ := by
    refine hlisted.step (a := Action.deleteExpired 0 10000) (fun session rest _ lease hlease => ?_)
      hfirst
    rw [hempty, Std.ExtTreeMap.getElem?_empty] at hlease
    cases hlease
  have hbegun : Actions.Reaches step LeasesHold Daemon.Fresh t₃ :=
    hready.run (fun a ha _ => by
      simp only [beginning, List.mem_cons, List.not_mem_nil, or_false] at ha
      rcases ha with rfl | rfl | rfl <;> trivial) hbeginning
  -- the lease of the first sweeper has not expired
  have hreached : Actions.Reaches step LeasesHold Daemon.Fresh u := by
    refine hbegun.step (a := Action.deleteExpired 1 10001)
      (fun session rest hsweeping lease hheld hexpired => ?_) hsecond
    rw [hproc] at hsweeping
    cases hsweeping
    rw [hlease] at hheld
    cases hheld
    exact absurd hexpired (by decide)
  have hdone := hreached.run (fun a ha _ => by
    simp only [finishing, List.mem_cons, List.not_mem_nil, or_false] at ha
    rcases ha with rfl | rfl | rfl | rfl | rfl | rfl | rfl | rfl <;> trivial) hfinishing
  exact ⟨u, t, ⟨hcompresses, hacquiring, (leases_exclude hreached).1⟩, hfinishing, hstate,
    (leases_exclude hdone).2⟩

end SessionSweeps

end IronMem
