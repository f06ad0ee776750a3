import Mathlib.Data.List.Sort
import Mathlib.Logic.Function.Basic
import IronMem.Lib.Actions

/-!
# Sweepers and the sessions they summarise

A sweep lists the sessions that are due, takes a lease on each, looks at the session again and
compresses it: reads its observations, has them summarised, stores the memory and only then sets
the flag. The request that ends a session compresses it too, without a lease and without looking
at the flag. Leases expire by the clock, whatever their owner is doing, and nobody looks at them
again. Every statement is one action, and the statements of any number of sweepers and requests
interleave.

The property is about flagged sessions (`Daemon.Summarised`): each has one memory, with the
observations it had when it was flagged. A call that has stored its memory still owes the flag,
and the invariant says so: a session has its memory exactly when the flag is set or some call is
about to set it (`Daemon.Inv`). Storing a memory and observing a session can break this, and
`Foreseen` looks at the state these two meet; each action has its lemma (`Daemon.Inv.step_*`).

A memory is modelled with the observations that were summarised in it, so that what it covers
can be read off the tables; the text of the summary is left out. Three things break the
property, and `Foreseen` forbids just these. A memory is stored for a session that is flagged or
has one already; it is made of observations that are no longer all there are; and a session is
observed between its memory and its flag. What leases do about the first is the subject of
`SweepLeases`.
-/

namespace IronMem

namespace SessionSweeps

structure SessionRow where
  startedAt : Int
  endedAt : Option Int
  compressed : Bool
deriving DecidableEq, Repr

structure Observation where
  id : Nat
  sessionId : String
  createdAt : Int
deriving DecidableEq, Repr

/-- A row of `sweep_leases`. -/
structure SweepLease where
  owner : Nat
  leaseUntil : Int
deriving DecidableEq, Repr

/-- The memory of a session, with the observations that were summarised in it. -/
structure SessionMemory where
  sessionId : String
  observations : List Observation
deriving DecidableEq, Repr

/-- Who called `compress::run`: a sweeper with the candidates it has left, or `session_end`. -/
inductive Caller where
  | sweeper (rest : List String)
  | request
deriving DecidableEq, Repr

/-- Where a sweep or a request has got to. -/
inductive Process where
  | idle
  | sweeping (todo : List String)
  /-- The expired lease is deleted. -/
  | acquiring (now : Int) (session : String) (rest : List String)
  | leased (session : String) (rest : List String)
  /-- The session was not compressed yet. -/
  | checked (session : String) (rest : List String)
  /-- `session_end` has ended the session. -/
  | ended (session : String)
  | compressing (session : String) (caller : Caller)
  | reading (session : String) (caller : Caller)
  | summarising (session : String) (observations : List Observation) (caller : Caller)
  /-- The memory is stored, the flag is not set. -/
  | inserted (session : String) (observations : List Observation) (caller : Caller)
  | releasing (session : String) (rest : List String)
deriving DecidableEq, Repr

/-- Where a call goes on after `compress::run`. -/
def Caller.next (session : String) : Caller → Process
  | .sweeper rest => .releasing session rest
  | .request => .idle

/-- The tables and the calls in progress. -/
structure Daemon where
  sessions : Std.ExtTreeMap String SessionRow
  observations : List Observation
  leases : Std.ExtTreeMap String SweepLease
  memories : List SessionMemory
  procs : Nat → Process
  /-- What was observed in a session when its flag was set. -/
  recorded : String → List Observation

namespace Daemon

def setProc (t : Daemon) (pid : Nat) (p : Process) : Daemon :=
  { t with procs := Function.update t.procs pid p }

/-- The column `compressed` of a session. -/
def flag (t : Daemon) (session : String) : Option Bool :=
  (t.sessions[session]?).map SessionRow.compressed

/-- `get_observations_for_session`. -/
def observationsOf (t : Daemon) (session : String) : List Observation :=
  (t.observations.filter fun o => o.sessionId = session).insertionSort
    fun a b => a.createdAt ≤ b.createdAt

def memoriesOf (t : Daemon) (session : String) : List SessionMemory :=
  t.memories.filter fun m => m.sessionId = session

def lastActivityAt (t : Daemon) (session : String) (row : SessionRow) : Int :=
  ((t.observationsOf session).map Observation.createdAt).max?.getD (row.endedAt.getD row.startedAt)

/-- The condition of `list_sweep_candidates`. -/
def isCandidate (t : Daemon) (idleBefore minObservations : Int) (r : String × SessionRow) : Bool :=
  !r.2.compressed && decide (0 < (t.observationsOf r.1).length) &&
    (decide (max minObservations 0 ≤ ((t.observationsOf r.1).length : Int)) ||
      decide (t.lastActivityAt r.1 r.2 ≤ idleBefore))

/-- `list_sweep_candidates`. -/
def listSweepCandidates (t : Daemon) (idleBefore minObservations limit : Int) : List String :=
  (((t.sessions.toList.filter (t.isCandidate idleBefore minObservations)).insertionSort fun a b =>
    t.lastActivityAt a.1 a.2 < t.lastActivityAt b.1 b.2 ∨
      (t.lastActivityAt a.1 a.2 = t.lastActivityAt b.1 b.2 ∧ a.2.startedAt ≤ b.2.startedAt)).take
        (max limit 0).toNat).map Prod.fst

/-- The lease of the session is deleted where it has expired. -/
def deleteExpired (t : Daemon) (session : String) (now : Int) : Daemon :=
  match t.leases[session]? with
  | some lease => if lease.leaseUntil ≤ now then { t with leases := t.leases.erase session } else t
  | none => t

/-- `release_sweep_lease`. -/
def releaseSweepLease (t : Daemon) (session : String) (owner : Nat) : Daemon :=
  match t.leases[session]? with
  | some lease => if lease.owner = owner then { t with leases := t.leases.erase session } else t
  | none => t

/-- `end_session`. -/
def endSession (t : Daemon) (session : String) (now : Int) : Daemon :=
  { t with sessions := t.sessions.modify session fun row => { row with endedAt := some now } }

/-- `end_session_if_open`. -/
def endSessionIfOpen (t : Daemon) (session : String) (now : Int) : Daemon :=
  { t with
    sessions := t.sessions.modify session fun row =>
      { row with endedAt := some (row.endedAt.getD now) } }

def insertMemory (t : Daemon) (session : String) (observations : List Observation) : Daemon :=
  { t with memories := t.memories ++ [⟨session, observations⟩] }

/-- `mark_compressed`. What was observed counts from the first time on. -/
def markCompressed (t : Daemon) (session : String) : Daemon :=
  { t with
    sessions := t.sessions.modify session fun row => { row with compressed := true }
    recorded := if t.flag session = some false then
        Function.update t.recorded session (t.observationsOf session) else t.recorded }

end Daemon

/-- One statement of one of the calls. -/
inductive Action where
  | createSession (session : String) (now : Int)
  | insertObservation (session : String) (now : Int)
  | listCandidates (pid : Nat) (now compressIdleSecs minObservations limit : Int)
  | deleteExpired (pid : Nat) (now : Int)
  | insertLease (pid : Nat) (leaseSecs : Int)
  | recheck (pid : Nat)
  | endIfOpen (pid : Nat) (now : Int)
  | release (pid : Nat)
  | finish (pid : Nat)
  | endSession (pid : Nat) (session : String) (now : Int)
  | countObservations (pid : Nat)
  | getSession (pid : Nat)
  | readObservations (pid : Nat)
  | failCompression (pid : Nat)
  | insertMemory (pid : Nat)
  | markCompressed (pid : Nat)

/-- What an action does where it is possible. -/
def step : Action → Daemon → Option Daemon
  | .createSession session now, t =>
      if t.sessions.contains session then none
      else some { t with sessions := t.sessions.insert session ⟨now, none, false⟩ }
  | .insertObservation session now, t =>
      some { t with observations := t.observations ++ [⟨t.observations.length, session, now⟩] }
  -- run_compression_sweep_with
  | .listCandidates pid now compressIdleSecs minObservations limit, t =>
      match t.procs pid with
      | .idle => some (t.setProc pid (.sweeping
          (t.listSweepCandidates (now - max compressIdleSecs 1) minObservations limit)))
      | _ => none
  | .deleteExpired pid now, t =>
      match t.procs pid with
      | .sweeping (session :: rest) =>
          some ((t.deleteExpired session now).setProc pid (.acquiring now session rest))
      | _ => none
  | .insertLease pid leaseSecs, t =>
      match t.procs pid with
      | .acquiring now session rest =>
          if t.leases.contains session then some (t.setProc pid (.sweeping rest))
          else some ({ t with
              leases := t.leases.insert session ⟨pid, now + max leaseSecs 60⟩ }.setProc pid
                (.leased session rest))
      | _ => none
  | .recheck pid, t =>
      match t.procs pid with
      | .leased session rest =>
          if t.flag session = some false then
            some (t.setProc pid (.checked session rest))
          else some (t.setProc pid (.releasing session rest))
      | _ => none
  | .endIfOpen pid now, t =>
      match t.procs pid with
      | .checked session rest =>
          some ((t.endSessionIfOpen session now).setProc pid (.compressing session (.sweeper rest)))
      | _ => none
  | .release pid, t =>
      match t.procs pid with
      | .releasing session rest =>
          some ((t.releaseSweepLease session pid).setProc pid (.sweeping rest))
      | _ => none
  | .finish pid, t =>
      match t.procs pid with
      | .sweeping _ => some (t.setProc pid .idle)
      | _ => none
  -- session_end
  | .endSession pid session now, t =>
      match t.procs pid with
      | .idle => some ((t.endSession session now).setProc pid (.ended session))
      | _ => none
  | .countObservations pid, t =>
      match t.procs pid with
      | .ended session =>
          if t.observationsOf session = [] then some (t.setProc pid .idle)
          else some (t.setProc pid (.compressing session .request))
      | _ => none
  -- compress::run
  | .getSession pid, t =>
      match t.procs pid with
      | .compressing session caller =>
          if t.sessions.contains session then some (t.setProc pid (.reading session caller))
          else some (t.setProc pid (caller.next session))
      | _ => none
  | .readObservations pid, t =>
      match t.procs pid with
      | .reading session caller =>
          some (t.setProc pid (.summarising session (t.observationsOf session) caller))
      | _ => none
  | .failCompression pid, t =>
      match t.procs pid with
      | .compressing session caller => some (t.setProc pid (caller.next session))
      | .reading session caller => some (t.setProc pid (caller.next session))
      | .summarising session _ caller => some (t.setProc pid (caller.next session))
      | _ => none
  | .insertMemory pid, t =>
      match t.procs pid with
      | .summarising session observations caller =>
          some ((t.insertMemory session observations).setProc pid
            (.inserted session observations caller))
      | _ => none
  | .markCompressed pid, t =>
      match t.procs pid with
      | .inserted session _ caller =>
          some ((t.markCompressed session).setProc pid (caller.next session))
      | _ => none

/-- An observation needs no call. -/
theorem step_insertObservation (session : String) (now : Int) (t : Daemon) :
    step (.insertObservation session now) t = some { t with
      observations := t.observations ++ [⟨t.observations.length, session, now⟩] } := by
  simp only [step]

/-! ## Exactly once -/

/-- The session whose observations the call is about to turn into a memory. -/
def Process.compresses : Process → Option String
  | .compressing session _ => some session
  | .reading session _ => some session
  | .summarising session _ _ => some session
  | .inserted session _ _ => some session
  | _ => none

/-- Each observation that a compressed session had when it was flagged is in its one memory. -/
def Daemon.Summarised (t : Daemon) : Prop :=
  ∀ session, t.flag session = some true →
    (∀ pid, (t.procs pid).compresses ≠ some session) →
      ∃ m, t.memoriesOf session = [m] ∧ ∀ o ∈ t.recorded session, o ∈ m.observations

/-- A memory is stored only for a session that has none and that was not observed since it was
read, and a session is not observed between its memory and its flag. -/
def Foreseen : Action → Daemon → Prop
  | .insertMemory pid, t => ∀ session observations caller,
      t.procs pid = .summarising session observations caller →
        t.flag session = some false ∧
          observations = t.observationsOf session ∧
            ∀ pid' observations' caller', t.procs pid' ≠ .inserted session observations' caller'
  | .insertObservation session _, t => ∀ pid observations caller,
      t.procs pid ≠ .inserted session observations caller
  | _, _ => True

/-- Nothing is listed, leased or summarised yet. -/
def Daemon.Fresh (t : Daemon) : Prop :=
  (∀ session, t.flag session ≠ some true) ∧ t.leases = ∅ ∧ t.memories = [] ∧
    ∀ pid, t.procs pid = .idle

/-! ## The invariant

While a session has its memory and not yet its flag, some call is in the state `inserted` for
it. The invariant counts this call as good as the flag, and allows only one of them. -/

/-- A session has its memory exactly when the flag is set, or about to be. -/
structure Daemon.Inv (t : Daemon) : Prop where
  inserted : ∀ pid session observations caller,
    t.procs pid = .inserted session observations caller →
      t.flag session = some false ∧ t.memoriesOf session = [⟨session, observations⟩] ∧
        observations = t.observationsOf session
  unique : ∀ pid pid' session observations observations' caller caller',
    t.procs pid = .inserted session observations caller →
      t.procs pid' = .inserted session observations' caller' → pid = pid'
  unmarked : ∀ session, t.flag session ≠ some true →
    (∀ pid observations caller, t.procs pid ≠ .inserted session observations caller) →
      t.memoriesOf session = []
  marked : ∀ session, t.flag session = some true →
    ∃ m, t.memoriesOf session = [m] ∧ ∀ o ∈ t.recorded session, o ∈ m.observations

section Keep

variable {t t' : Daemon} {pid : Nat} {p : Process} {session : String}

/-- The call stores no memory that waits for its flag. -/
def Process.settled : Process → Bool
  | .inserted _ _ _ => false
  | _ => true

theorem Caller.next_settled (caller : Caller) : (caller.next session).settled = true := by
  cases caller <;> rfl

theorem inserted_update {session' : String} {observations : List Observation} {caller : Caller}
    {pid' : Nat} (hold : (t.procs pid).settled = true) (hp : p.settled = true) :
    Function.update t.procs pid p pid' = .inserted session' observations caller ↔
      t.procs pid' = .inserted session' observations caller := by
  by_cases heq : pid' = pid
  · subst heq
    rw [Function.update_self]
    constructor
    · rintro rfl
      cases hp
    · intro heq
      rw [heq] at hold
      cases hold
  · rw [Function.update_of_ne heq]

/-- What stores no memory, observes nothing and sets no flag keeps the invariant. -/
theorem Daemon.Inv.of_same (h : t.Inv)
    (hflag : ∀ session, t'.flag session = t.flag session ∨
      (t.flag session = none ∧ t'.flag session = some false))
    (hmemories : t'.memories = t.memories) (hobservations : t'.observations = t.observations)
    (hrecorded : t'.recorded = t.recorded)
    (hprocs : ∀ pid session observations caller,
      t'.procs pid = .inserted session observations caller ↔
        t.procs pid = .inserted session observations caller) : t'.Inv := by
  have hmem : ∀ session, t'.memoriesOf session = t.memoriesOf session := fun session => by
    rw [Daemon.memoriesOf, hmemories]
    rfl
  have hobs : ∀ session, t'.observationsOf session = t.observationsOf session := fun session => by
    rw [Daemon.observationsOf, hobservations]
    rfl
  refine ⟨fun pid session observations caller hproc => ?_,
    fun pid pid' session observations observations' caller caller' hproc hproc' =>
      h.unique pid pid' session observations observations' caller caller'
        ((hprocs _ _ _ _).mp hproc) ((hprocs _ _ _ _).mp hproc'),
    fun session hf hnone => ?_, fun session hf => ?_⟩
  · obtain ⟨hfalse, hmemory, hread⟩ := h.inserted pid session observations caller
      ((hprocs _ _ _ _).mp hproc)
    refine ⟨(hflag session).elim (fun heq => heq.trans hfalse) fun hnew => hnew.2,
      (hmem session).trans hmemory, hread.trans (hobs session).symm⟩
  · rw [hmem]
    refine h.unmarked session (fun htrue => ?_) fun pid observations caller hproc =>
      hnone pid observations caller ((hprocs _ _ _ _).mpr hproc)
    rcases hflag session with heq | ⟨hnew, -⟩
    · exact hf (heq.trans htrue)
    · rw [hnew] at htrue
      cases htrue
  · rw [hmem, hrecorded]
    rcases hflag session with heq | ⟨-, hnew⟩
    · exact h.marked session (heq.symm.trans hf)
    · rw [hnew] at hf
      cases hf

theorem Daemon.Inv.setProc (h : t.Inv) (hold : (t.procs pid).settled = true)
    (hp : p.settled = true) : (t.setProc pid p).Inv :=
  h.of_same (fun _ => Or.inl rfl) rfl rfl rfl fun _ _ _ _ => inserted_update hold hp

/-- A change of the other columns of a session. -/
theorem flag_modify {f : SessionRow → SessionRow} (hf : ∀ row, (f row).compressed = row.compressed)
    (session' : String) :
    ((t.sessions.modify session f)[session']?).map SessionRow.compressed = t.flag session' := by
  rw [Std.ExtTreeMap.getElem?_modify, Daemon.flag]
  split
  · next heq =>
      obtain rfl := Std.LawfulEqOrd.eq_of_compare heq
      rw [Option.map_map]
      exact congrArg (Option.map · _) (funext hf)
  · rfl

theorem flag_endSession {now : Int} {session' : String} :
    (t.endSession session now).flag session' = t.flag session' :=
  @flag_modify t session (fun row => { row with endedAt := some now }) (fun _ => rfl) session'

theorem flag_endSessionIfOpen {now : Int} {session' : String} :
    (t.endSessionIfOpen session now).flag session' = t.flag session' :=
  @flag_modify t session (fun row => { row with endedAt := some (row.endedAt.getD now) })
    (fun _ => rfl) session'

theorem Daemon.Inv.insertObservation {now : Int} {n : Nat} (h : t.Inv)
    (hok : Foreseen (.insertObservation session now) t) :
    Daemon.Inv { t with observations := t.observations ++ [⟨n, session, now⟩] } := by
  refine ⟨fun pid session' observations caller hproc => ?_, h.unique, h.unmarked, h.marked⟩
  obtain ⟨hfalse, hmemory, hread⟩ := h.inserted pid session' observations caller hproc
  refine ⟨hfalse, hmemory, hread.trans ?_⟩
  have hne : session ≠ session' := fun heq => hok pid observations caller (heq ▸ hproc)
  simp only [Daemon.observationsOf, List.filter_append, List.filter_cons, List.filter_nil,
    decide_eq_true_eq, if_neg hne, List.append_nil]

theorem memoriesOf_insertMemory {observations : List Observation} {session' : String} :
    (t.insertMemory session observations).memoriesOf session' =
      if session' = session then t.memoriesOf session ++ [⟨session, observations⟩]
      else t.memoriesOf session' := by
  split
  · next heq =>
      subst heq
      simp [Daemon.memoriesOf, Daemon.insertMemory, List.filter_append]
  · next hne =>
      simp [Daemon.memoriesOf, Daemon.insertMemory, List.filter_append, Ne.symm hne]

theorem Daemon.Inv.insertMemory {observations : List Observation} {caller : Caller} (h : t.Inv)
    (hproc : t.procs pid = .summarising session observations caller)
    (hok : Foreseen (.insertMemory pid) t) :
    ((t.insertMemory session observations).setProc pid
      (.inserted session observations caller)).Inv := by
  obtain ⟨hfalse, hread, hnone⟩ := hok session observations caller hproc
  have hempty : t.memoriesOf session = [] :=
    h.unmarked session (by rw [hfalse]; exact fun heq => by cases heq) hnone
  have hmem : ∀ session', session' ≠ session →
      (t.insertMemory session observations).memoriesOf session' = t.memoriesOf session' :=
    fun session' hne => by rw [memoriesOf_insertMemory, if_neg hne]
  have hself : (t.insertMemory session observations).memoriesOf session =
      [⟨session, observations⟩] := by
    rw [memoriesOf_insertMemory, if_pos rfl, hempty]
    rfl
  -- the call itself, or one that had stored its memory before
  have hcases : ∀ {pid' session' observations' caller'},
      Function.update t.procs pid (.inserted session observations caller) pid' =
        .inserted session' observations' caller' →
      (pid' = pid ∧ session' = session ∧ observations' = observations) ∨
        (t.procs pid' = .inserted session' observations' caller' ∧ session' ≠ session) := by
    intro pid' session' observations' caller' hproc'
    by_cases heq : pid' = pid
    · subst heq
      rw [Function.update_self] at hproc'
      cases hproc'
      exact Or.inl ⟨rfl, rfl, rfl⟩
    · rw [Function.update_of_ne heq] at hproc'
      exact Or.inr ⟨hproc', fun hsame => hnone pid' observations' caller' (hsame ▸ hproc')⟩
  refine ⟨fun pid' session' observations' caller' hproc' => ?_,
    fun pid' pid'' session' observations' observations'' caller' caller'' hproc' hproc'' => ?_,
    fun session' hf hnone' => ?_, fun session' hf => ?_⟩
  · rcases hcases hproc' with ⟨rfl, rfl, rfl⟩ | ⟨hold, hne⟩
    · exact ⟨hfalse, hself, hread⟩
    · obtain ⟨hfalse', hmemory, hread'⟩ := h.inserted pid' session' observations' caller' hold
      exact ⟨hfalse', (hmem session' hne).trans hmemory, hread'⟩
  · rcases hcases hproc' with ⟨rfl, rfl, -⟩ | ⟨hold, hne⟩
    · rcases hcases hproc'' with ⟨rfl, -, -⟩ | ⟨-, hne⟩
      · rfl
      · exact absurd rfl hne
    · rcases hcases hproc'' with ⟨-, rfl, -⟩ | ⟨hold', -⟩
      · exact absurd rfl hne
      · exact h.unique _ _ _ _ _ _ _ hold hold'
  · have hne : session' ≠ session := by
      rintro rfl
      exact hnone' pid observations caller (Function.update_self _ _ _)
    refine (hmem session' hne).trans (h.unmarked session' hf fun pid' observations' caller' hold => ?_)
    refine hnone' pid' observations' caller' ?_
    have hpid : pid' ≠ pid := by
      rintro rfl
      rw [hproc] at hold
      cases hold
    exact (Function.update_of_ne hpid _ _).trans hold
  · have hne : session' ≠ session := by
      rintro rfl
      have htrue : t.flag session' = some true := hf
      rw [hfalse] at htrue
      cases htrue
    obtain ⟨m, hm, hrecorded⟩ := h.marked session' hf
    exact ⟨m, (hmem session' hne).trans hm, hrecorded⟩

theorem flag_markCompressed (session' : String) :
    (t.markCompressed session).flag session' =
      if session' = session then (t.flag session).map fun _ => true else t.flag session' := by
  rw [Daemon.flag, Daemon.markCompressed]
  dsimp only
  rw [Std.ExtTreeMap.getElem?_modify]
  split
  · next heq =>
      obtain rfl := Std.LawfulEqOrd.eq_of_compare heq
      rw [if_pos rfl, Daemon.flag, Option.map_map, Option.map_map]
      rfl
  · next hne =>
      rw [if_neg fun heq => hne (by rw [heq]; exact Std.ReflCmp.compare_self)]
      rfl

theorem Daemon.Inv.markCompressed {observations : List Observation} {caller : Caller} (h : t.Inv)
    (hproc : t.procs pid = .inserted session observations caller) :
    ((t.markCompressed session).setProc pid (caller.next session)).Inv := by
  obtain ⟨hfalse, hmemory, hread⟩ := h.inserted pid session observations caller hproc
  have hflag : ∀ session', (t.markCompressed session).flag session' =
      if session' = session then some true else t.flag session' := fun session' => by
    rw [flag_markCompressed, hfalse]
    rfl
  have hcases : ∀ {pid' session' observations' caller'},
      Function.update t.procs pid (caller.next session) pid' =
        .inserted session' observations' caller' →
      t.procs pid' = .inserted session' observations' caller' ∧ session' ≠ session := by
    intro pid' session' observations' caller' hproc'
    by_cases heq : pid' = pid
    · subst heq
      rw [Function.update_self] at hproc'
      have hsettled := @Caller.next_settled session caller
      rw [hproc'] at hsettled
      cases hsettled
    · rw [Function.update_of_ne heq] at hproc'
      refine ⟨hproc', fun hsame => heq ?_⟩
      exact h.unique _ _ _ _ _ _ _ (hsame ▸ hproc') hproc
  refine ⟨fun pid' session' observations' caller' hproc' => ?_,
    fun pid' pid'' session' observations' observations'' caller' caller'' hproc' hproc'' =>
      h.unique _ _ _ _ _ _ _ (hcases hproc').1 (hcases hproc'').1,
    fun session' hf hnone => ?_, fun session' hf => ?_⟩
  · obtain ⟨hold, hne⟩ := hcases hproc'
    obtain ⟨hfalse', hmemory', hread'⟩ := h.inserted _ _ _ _ hold
    exact ⟨((hflag session').trans (if_neg hne)).trans hfalse', hmemory', hread'⟩
  · have hne : session' ≠ session := by
      rintro rfl
      exact hf ((hflag session').trans (if_pos rfl))
    refine h.unmarked session' (fun htrue => hf (((hflag session').trans (if_neg hne)).trans htrue))
      fun pid' observations' caller' hold => ?_
    have hpid : pid' ≠ pid := by
      rintro rfl
      rw [hproc] at hold
      cases hold
      exact hne rfl
    exact hnone pid' observations' caller' ((Function.update_of_ne hpid _ _).trans hold)
  · by_cases heq : session' = session
    · subst heq
      refine ⟨_, hmemory, fun o ho => ?_⟩
      have hrecorded : (t.markCompressed session').recorded session' = t.observationsOf session' := by
        rw [Daemon.markCompressed]
        dsimp only
        rw [if_pos hfalse, Function.update_self]
      have hmem : o ∈ (t.markCompressed session').recorded session' := ho
      rw [hrecorded] at hmem
      rw [hread]
      exact hmem
    · have hf' : t.flag session' = some true := ((hflag session').trans (if_neg heq)).symm.trans hf
      obtain ⟨m, hm, hrecorded⟩ := h.marked session' hf'
      refine ⟨m, hm, fun o ho => hrecorded o ?_⟩
      have hmem : o ∈ (t.markCompressed session).recorded session' := ho
      rw [Daemon.markCompressed] at hmem
      dsimp only at hmem
      rwa [if_pos hfalse, Function.update_of_ne heq] at hmem

@[simp] theorem procs_deleteExpired {now : Int} :
    (t.deleteExpired session now).procs = t.procs := by
  unfold Daemon.deleteExpired
  split
  · split <;> rfl
  · rfl

@[simp] theorem procs_releaseSweepLease : (t.releaseSweepLease session pid).procs = t.procs := by
  unfold Daemon.releaseSweepLease
  split
  · split <;> rfl
  · rfl

/-! ### The statements of a sweep -/

theorem Daemon.Inv.step_createSession {now : Int} (h : t.Inv)
    (hstep : step (.createSession session now) t = some t') : t'.Inv := by
  simp only [SessionSweeps.step] at hstep
  split at hstep
  · cases hstep
  · next hnew =>
      cases hstep
      refine h.of_same (fun session' => ?_) rfl rfl rfl fun _ _ _ _ => Iff.rfl
      dsimp only [Daemon.flag]
      rw [Std.ExtTreeMap.getElem?_insert]
      split
      · next heq =>
          obtain rfl := Std.LawfulEqOrd.eq_of_compare heq
          refine Or.inr ⟨?_, rfl⟩
          rw [Std.ExtTreeMap.getElem?_eq_none fun hmem => hnew hmem]
          rfl
      · exact Or.inl rfl

theorem Daemon.Inv.step_insertObservation {now : Int} (h : t.Inv)
    (hok : Foreseen (.insertObservation session now) t)
    (hstep : step (.insertObservation session now) t = some t') : t'.Inv := by
  rw [SessionSweeps.step_insertObservation] at hstep
  cases hstep
  exact h.insertObservation hok

theorem Daemon.Inv.step_listCandidates {now compressIdleSecs minObservations limit : Int}
    (h : t.Inv)
    (hstep : step (.listCandidates pid now compressIdleSecs minObservations limit) t = some t') :
    t'.Inv := by
  simp only [SessionSweeps.step] at hstep
  split at hstep
  · next hproc =>
      cases hstep
      exact h.setProc (by rw [hproc]; rfl) rfl
  · cases hstep

theorem Daemon.Inv.step_deleteExpired {now : Int} (h : t.Inv)
    (hstep : step (.deleteExpired pid now) t = some t') : t'.Inv := by
  simp only [SessionSweeps.step] at hstep
  split at hstep
  · next session rest hproc =>
      cases hstep
      have hkept : (t.deleteExpired session now).Inv := by
        unfold Daemon.deleteExpired
        split
        · split
          · exact h.of_same (fun _ => Or.inl rfl) rfl rfl rfl fun _ _ _ _ => Iff.rfl
          · exact h
        · exact h
      refine hkept.setProc ?_ rfl
      rw [procs_deleteExpired, hproc]
      rfl
  · cases hstep

theorem Daemon.Inv.step_insertLease {leaseSecs : Int} (h : t.Inv)
    (hstep : step (.insertLease pid leaseSecs) t = some t') : t'.Inv := by
  simp only [SessionSweeps.step] at hstep
  split at hstep
  · next now session rest hproc =>
      split at hstep
      · cases hstep
        exact h.setProc (by rw [hproc]; rfl) rfl
      · cases hstep
        exact h.of_same (fun _ => Or.inl rfl) rfl rfl rfl fun _ _ _ _ =>
          inserted_update (by rw [hproc]; rfl) rfl
  · cases hstep

theorem Daemon.Inv.step_recheck (h : t.Inv) (hstep : step (.recheck pid) t = some t') : t'.Inv := by
  simp only [SessionSweeps.step] at hstep
  split at hstep
  · next session rest hproc =>
      split at hstep
      · cases hstep
        exact h.setProc (by rw [hproc]; rfl) rfl
      · cases hstep
        exact h.setProc (by rw [hproc]; rfl) rfl
  · cases hstep

theorem Daemon.Inv.step_endIfOpen {now : Int} (h : t.Inv)
    (hstep : step (.endIfOpen pid now) t = some t') : t'.Inv := by
  simp only [SessionSweeps.step] at hstep
  split at hstep
  · next session rest hproc =>
      cases hstep
      have hkept : (t.endSessionIfOpen session now).Inv :=
        h.of_same (fun _ => Or.inl flag_endSessionIfOpen) rfl rfl rfl fun _ _ _ _ => Iff.rfl
      exact hkept.setProc (hproc ▸ rfl) rfl
  · cases hstep

theorem Daemon.Inv.step_release (h : t.Inv) (hstep : step (.release pid) t = some t') : t'.Inv := by
  simp only [SessionSweeps.step] at hstep
  split at hstep
  · next session rest hproc =>
      cases hstep
      have hkept : (t.releaseSweepLease session pid).Inv := by
        unfold Daemon.releaseSweepLease
        split
        · split
          · exact h.of_same (fun _ => Or.inl rfl) rfl rfl rfl fun _ _ _ _ => Iff.rfl
          · exact h
        · exact h
      refine hkept.setProc ?_ rfl
      rw [procs_releaseSweepLease, hproc]
      rfl
  · cases hstep

theorem Daemon.Inv.step_finish (h : t.Inv) (hstep : step (.finish pid) t = some t') : t'.Inv := by
  simp only [SessionSweeps.step] at hstep
  split at hstep
  · next todo hproc =>
      cases hstep
      exact h.setProc (by rw [hproc]; rfl) rfl
  · cases hstep

/-! ### The statements of a request -/

theorem Daemon.Inv.step_endSession {now : Int} (h : t.Inv)
    (hstep : step (.endSession pid session now) t = some t') : t'.Inv := by
  simp only [SessionSweeps.step] at hstep
  split at hstep
  · next hproc =>
      cases hstep
      have hkept : (t.endSession session now).Inv :=
        h.of_same (fun _ => Or.inl flag_endSession) rfl rfl rfl fun _ _ _ _ => Iff.rfl
      exact hkept.setProc (hproc ▸ rfl) rfl
  · cases hstep

theorem Daemon.Inv.step_countObservations (h : t.Inv)
    (hstep : step (.countObservations pid) t = some t') : t'.Inv := by
  simp only [SessionSweeps.step] at hstep
  split at hstep
  · next session hproc =>
      split at hstep
      · cases hstep
        exact h.setProc (by rw [hproc]; rfl) rfl
      · cases hstep
        exact h.setProc (by rw [hproc]; rfl) rfl
  · cases hstep

/-! ### The statements of a compression -/

theorem Daemon.Inv.step_getSession (h : t.Inv)
    (hstep : step (.getSession pid) t = some t') : t'.Inv := by
  simp only [SessionSweeps.step] at hstep
  split at hstep
  · next session caller hproc =>
      split at hstep
      · cases hstep
        exact h.setProc (by rw [hproc]; rfl) rfl
      · cases hstep
        exact h.setProc (by rw [hproc]; rfl) caller.next_settled
  · cases hstep

theorem Daemon.Inv.step_readObservations (h : t.Inv)
    (hstep : step (.readObservations pid) t = some t') : t'.Inv := by
  simp only [SessionSweeps.step] at hstep
  split at hstep
  · next session caller hproc =>
      cases hstep
      exact h.setProc (by rw [hproc]; rfl) rfl
  · cases hstep

theorem Daemon.Inv.step_failCompression (h : t.Inv)
    (hstep : step (.failCompression pid) t = some t') : t'.Inv := by
  simp only [SessionSweeps.step] at hstep
  split at hstep
  · next session caller hproc =>
      cases hstep
      exact h.setProc (by rw [hproc]; rfl) caller.next_settled
  · next session caller hproc =>
      cases hstep
      exact h.setProc (by rw [hproc]; rfl) caller.next_settled
  · next session observations caller hproc =>
      cases hstep
      exact h.setProc (by rw [hproc]; rfl) caller.next_settled
  · cases hstep

theorem Daemon.Inv.step_insertMemory (h : t.Inv) (hok : Foreseen (.insertMemory pid) t)
    (hstep : step (.insertMemory pid) t = some t') : t'.Inv := by
  simp only [SessionSweeps.step] at hstep
  split at hstep
  · next session observations caller hproc =>
      cases hstep
      exact h.insertMemory hproc hok
  · cases hstep

theorem Daemon.Inv.step_markCompressed (h : t.Inv)
    (hstep : step (.markCompressed pid) t = some t') : t'.Inv := by
  simp only [SessionSweeps.step] at hstep
  split at hstep
  · next session observations caller hproc =>
      cases hstep
      exact h.markCompressed hproc
  · cases hstep

/-! ### Every run -/

/-- Every action that is foreseen keeps the invariant. -/
theorem Daemon.Inv.step {a : Action} (h : t.Inv) (hok : Foreseen a t) (hstep : step a t = some t') :
    t'.Inv := by
  cases a with
  | createSession session now => exact h.step_createSession hstep
  | insertObservation session now => exact h.step_insertObservation hok hstep
  | listCandidates pid now compressIdleSecs minObservations limit => exact h.step_listCandidates hstep
  | deleteExpired pid now => exact h.step_deleteExpired hstep
  | insertLease pid leaseSecs => exact h.step_insertLease hstep
  | recheck pid => exact h.step_recheck hstep
  | endIfOpen pid now => exact h.step_endIfOpen hstep
  | release pid => exact h.step_release hstep
  | finish pid => exact h.step_finish hstep
  | endSession pid session now => exact h.step_endSession hstep
  | countObservations pid => exact h.step_countObservations hstep
  | getSession pid => exact h.step_getSession hstep
  | readObservations pid => exact h.step_readObservations hstep
  | failCompression pid => exact h.step_failCompression hstep
  | insertMemory pid => exact h.step_insertMemory hok hstep
  | markCompressed pid => exact h.step_markCompressed hstep

theorem Daemon.Fresh.inv (h : t.Fresh) : t.Inv := by
  obtain ⟨hflag, -, hmemories, hidle⟩ := h
  refine ⟨fun pid session observations caller hproc => ?_,
    fun pid pid' session observations observations' caller caller' hproc => ?_,
    fun session _ _ => ?_, fun session hf => absurd hf (hflag session)⟩
  · rw [hidle pid] at hproc
    cases hproc
  · rw [hidle pid] at hproc
    cases hproc
  · rw [Daemon.memoriesOf, hmemories]
    rfl

/-- In every run in which each memory is stored and flagged as foreseen, the sessions that are
compressed are summarised, each in one memory. -/
theorem sessions_summarised (h : Actions.Reaches step Foreseen Daemon.Fresh t) : t.Summarised := by
  have hinv : t.Inv := h.invariant (fun _ hfresh => hfresh.inv) fun _ _ _ hinv hok hstep =>
    hinv.step hok hstep
  exact fun session hf _ => hinv.marked session hf

end Keep

/-! ### A session that is ended twice -/

def observed : Daemon where
  sessions := (∅ : Std.ExtTreeMap String SessionRow).insert "s" ⟨0, none, false⟩
  observations := [⟨0, "s", 1⟩]
  leases := ∅
  memories := []
  procs := fun _ => .idle
  recorded := fun _ => []

/-- `session_end` up to the summary. -/
def ending (now : Int) : List Action :=
  [.endSession 0 "s" now, .countObservations 0, .getSession 0, .readObservations 0]

/-- The memory is stored and the flag set. -/
def persisting : List Action := [.insertMemory 0, .markCompressed 0]

theorem observed_fresh : observed.Fresh := by
  refine ⟨fun session htrue => ?_, rfl, rfl, fun _ => rfl⟩
  rw [Daemon.flag, observed, Std.ExtTreeMap.getElem?_insert] at htrue
  split at htrue
  · cases htrue
  · rw [Std.ExtTreeMap.getElem?_empty] at htrue
    cases htrue

/-- A second request summarises the session again. -/
theorem sessions_summarised_twice :
    ¬ ∀ t, Actions.Reaches step (fun _ _ => True) Daemon.Fresh t → t.Summarised := by
  intro h
  have hrun : ∃ t, Actions.run step (ending 2 ++ persisting ++ ending 3 ++ persisting) observed =
      some t ∧ (∀ pid, t.procs pid = .idle) ∧ t.flag "s" = some true ∧
        (t.memoriesOf "s").length = 2 := by
    refine ⟨_, rfl, fun pid => ?_, rfl, rfl⟩
    by_cases hpid : pid = 0
    · subst hpid
      rfl
    · simp [Function.update_of_ne hpid, Daemon.setProc, Daemon.markCompressed, Daemon.insertMemory,
        Daemon.endSession, observed]
  obtain ⟨t, hrun, hidle, hflag, htwo⟩ := hrun
  have hreached := (Actions.Reaches.start observed_fresh).run (fun _ _ _ => trivial) hrun
  obtain ⟨m, hm, -⟩ := h t hreached "s" hflag fun pid hpid => by
    rw [hidle pid] at hpid
    cases hpid
  rw [hm] at htwo
  cases htwo

/-- A session that is ended once is summarised. -/
theorem sessions_summarised_once :
    ∃ t : Daemon, (t.flag "s" = some true ∧ (t.memoriesOf "s").length = 1) ∧ t.Summarised := by
  have hread : ∃ t, Actions.run step (ending 2) observed = some t ∧ t.flag "s" = some false ∧
      t.procs 0 = .summarising "s" (t.observationsOf "s") .request ∧
        (∀ pid, pid ≠ 0 → t.procs pid = .idle) ∧
          ∃ t', Actions.run step persisting t = some t' ∧ t'.flag "s" = some true ∧
            (t'.memoriesOf "s").length = 1 := by
    refine ⟨_, rfl, rfl, rfl, fun pid hpid => ?_, _, rfl, rfl, rfl⟩
    simp [Function.update_of_ne hpid, Daemon.setProc, Daemon.endSession, observed]
  obtain ⟨t, hrun, hflag, hproc, hidle, t', hrun', hstate⟩ := hread
  have hreached : Actions.Reaches step Foreseen Daemon.Fresh t := by
    refine (Actions.Reaches.start observed_fresh).run (fun a ha u => ?_) hrun
    simp only [ending, List.mem_cons, List.not_mem_nil, or_false] at ha
    rcases ha with rfl | rfl | rfl | rfl <;> trivial
  obtain ⟨u, hinsert, hmark⟩ := Option.bind_eq_some_iff.mp hrun'
  have hforeseen : Foreseen (.insertMemory 0) t := by
    intro session observations caller hsame
    rw [hproc] at hsame
    cases hsame
    refine ⟨hflag, rfl, fun pid observations' caller' hother => ?_⟩
    by_cases hpid : pid = 0
    · rw [hpid, hproc] at hother
      cases hother
    · rw [hidle pid hpid] at hother
      cases hother
  have hdone := (hreached.step hforeseen hinsert).run
    (fun a ha v => by rw [List.mem_singleton.mp ha]; trivial) hmark
  exact ⟨t', hstate, sessions_summarised hdone⟩

end SessionSweeps

end IronMem
