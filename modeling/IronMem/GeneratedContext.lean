import Mathlib.Logic.Function.Basic
import IronMem.Injection

/-!
# The generated context files

A selection is rendered into the project's `IRONMEM.md` and its digest registered, under the write
lock. Every committed change of a memory counts the revision up and marks all registered files
dirty; the invalidation that follows removes the ones that still hold the registered bytes. The
files are not part of the transactions: a publication that fails removes its file after the lock
is gone, an invalidation reads a file and removes it in two steps, and users edit the files at any
time. What the calls guarantee is stated over all interleavings of their statements.

A publication that has failed leaves its rendering on the disk until its clean-up. It is no
publication then (`Workspace.Current` does not count it), and an invalidation that returns in
between has nothing registered to remove. The races that `Foreseen` leaves out are this one and
those with an edit, which may hit the moment between reading and removal or bring an old
rendering back.
-/

namespace IronMem

def IRONMEM_FILE_MAX_BYTES : Nat := 24000

namespace GeneratedContext

/-- The calendar of the renderer and the digest of the registrations. -/
structure Renderer where
  date : Int → Option Day
  sha256 : Bytes → String

/-- The arguments of `inject_with_budget` with an expected revision. -/
structure Publication where
  project : String
  memories : List Memory
  budget : Nat
  expectedRevision : Nat

variable (v : Renderer)

def Publication.report (q : Publication) : InjectionReport :=
  (renderMemories v.date q.memories q.budget).2

/-- The bytes of the rendering. -/
def Publication.text (q : Publication) : Bytes :=
  utf8 (renderMemories v.date q.memories q.budget).1

/-- A row of `generated_context_files`. -/
structure GeneratedFile where
  contentHash : String
  dirty : Nat
deriving DecidableEq, Repr

/-- Where a call of `inject_with_budget` or `invalidate_generated_files` has got to. -/
inductive Process where
  | idle
  /-- The transaction has begun. -/
  | checking (q : Publication)
  /-- The revision is the expected one. -/
  | publishing (q : Publication)
  | written (q : Publication)
  | registered (q : Publication)
  /-- The transaction has failed: the file is still to be cleaned up. -/
  | failed (q : Publication)
  /-- The clean-up has read the bytes it wrote. -/
  | matched (q : Publication)
  /-- Some files are dirty. -/
  | counted
  | begun
  | invalidating (todo deleted : List (String × GeneratedFile))
  /-- The file holds the registered bytes. -/
  | removing (project : String) (row : GeneratedFile) (todo deleted : List (String × GeneratedFile))
  | unregistering (project : String) (row : GeneratedFile)
      (todo deleted : List (String × GeneratedFile))

/-- The database, the project files and the calls in progress, with what has happened so far. -/
structure Workspace where
  revision : Nat
  rows : Std.ExtTreeMap String GeneratedFile
  files : Std.ExtTreeMap String Bytes
  lock : Option Nat
  procs : Nat → Process
  /-- The renderings written for each project. -/
  renderings : List (String × Bytes)
  /-- The selections published, with the revision they were selected at. -/
  published : List (String × Bytes × Nat)
  /-- An invalidation has returned and nothing was changed since. -/
  invalidated : Bool
  /-- The bytes that invalidations removed, with the digest registered at that moment. -/
  removals : List (Bytes × Option String)

namespace Workspace

def setProc (s : Workspace) (pid : Nat) (p : Process) : Workspace :=
  { s with procs := Function.update s.procs pid p }

/-- The write lock is taken. -/
def acquire (s : Workspace) (pid : Nat) (p : Process) : Workspace :=
  { s with lock := some pid, procs := Function.update s.procs pid p }

/-- The transaction is over. -/
def release (s : Workspace) (pid : Nat) (p : Process) : Workspace :=
  { s with lock := none, procs := Function.update s.procs pid p }

/-- The rows an invalidation selects. -/
def dirtyRows (s : Workspace) : List (String × GeneratedFile) :=
  s.rows.toList.filter fun r => 0 < r.2.dirty

/-- `write_ironmem_file_with_budget`: an empty rendering removes the file. -/
def writeFile (s : Workspace) (q : Publication) : Workspace :=
  if (renderMemories v.date q.memories q.budget).1.isEmpty then
    { s with files := s.files.erase q.project }
  else
    { s with
      files := s.files.insert q.project (q.text v)
      renderings := s.renderings ++ [(q.project, q.text v)] }

/-- The commit of a publication. -/
def publish (s : Workspace) (q : Publication) : Workspace :=
  { s with
    rows := if 0 < (q.report v).bytes then
        s.rows.insert q.project ⟨v.sha256 (q.text v), 0⟩ else s.rows
    published := s.published ++ [(q.project, q.text v, q.expectedRevision)] }

/-- The triggers of a transaction that changed `k` rows. -/
def mutate (s : Workspace) (k : Nat) : Workspace :=
  { s with
    revision := s.revision + k
    rows := s.rows.map fun _ row => { row with dirty := row.dirty + k }
    invalidated := false }

/-- The clean-up of a publication that failed removes its file. -/
def cleanup (s : Workspace) (q : Publication) : Workspace :=
  { s with files := s.files.erase q.project }

/-- An invalidation removes the file it has read. -/
def removeFile (s : Workspace) (project : String) (bytes : Bytes) : Workspace :=
  { s with
    files := s.files.erase project
    removals := s.removals ++ [(bytes, (s.rows[project]?).map GeneratedFile.contentHash)] }

/-- The commit of an invalidation. -/
def unregister (s : Workspace) (deleted : List (String × GeneratedFile)) : Workspace :=
  { s with
    rows := s.rows.filter fun project row => !decide ((project, row) ∈ deleted)
    invalidated := true }

/-- A user writes or removes the file. -/
def edit (s : Workspace) (project : String) : Option Bytes → Workspace
  | some bytes => { s with files := s.files.insert project bytes }
  | none => { s with files := s.files.erase project }

end Workspace

/-- One statement of one of the calls, a committed change of memories, or an edit. -/
inductive Action where
  | beginPublication (pid : Nat) (q : Publication)
  | checkRevision (pid : Nat)
  | refuse (pid : Nat)
  | write (pid : Nat)
  | register (pid : Nat)
  | commitPublication (pid : Nat)
  | failPublication (pid : Nat)
  | cleanupRead (pid : Nat)
  | cleanupRemove (pid : Nat)
  | countDirty (pid : Nat)
  | beginInvalidation (pid : Nat)
  | selectDirty (pid : Nat) (rows : List (String × GeneratedFile))
  | readFile (pid : Nat)
  | removeFile (pid : Nat)
  | unregister (pid : Nat)
  | commitInvalidation (pid : Nat)
  | failInvalidation (pid : Nat)
  | mutate (k : Nat)
  | edit (project : String) (content : Option Bytes)

open Workspace in
/-- What an action does where it is possible. -/
def step : Action → Workspace → Option Workspace
  -- inject_with_budget
  | .beginPublication pid q, s =>
      match s.lock, s.procs pid with
      | none, .idle => some (s.acquire pid (.checking q))
      | _, _ => none
  | .checkRevision pid, s =>
      match s.procs pid with
      | .checking q =>
          if q.expectedRevision = s.revision then some (s.setProc pid (.publishing q))
          else some (s.release pid .idle)
      | _ => none
  | .refuse pid, s =>
      match s.procs pid with
      | .checking _ => some (s.release pid .idle)
      | .publishing _ => some (s.release pid .idle)
      | _ => none
  | .write pid, s =>
      match s.procs pid with
      | .publishing q =>
          if q.budget ≤ IRONMEM_FILE_MAX_BYTES then
            some ((s.writeFile v q).setProc pid (.written q))
          else some (s.release pid .idle)
      | _ => none
  | .register pid, s =>
      match s.procs pid with
      | .written q => some (s.setProc pid (.registered q))
      | _ => none
  | .commitPublication pid, s =>
      match s.procs pid with
      | .registered q => some ((s.publish v q).release pid .idle)
      | _ => none
  | .failPublication pid, s =>
      match s.procs pid with
      | .written q => some (s.release pid (.failed q))
      | .registered q => some (s.release pid (.failed q))
      | _ => none
  | .cleanupRead pid, s =>
      match s.procs pid with
      | .failed q =>
          if (s.files[q.project]?).map v.sha256 = some (v.sha256 (q.text v)) then
            some (s.setProc pid (.matched q))
          else some (s.setProc pid .idle)
      | _ => none
  | .cleanupRemove pid, s =>
      match s.procs pid with
      | .matched q => some ((s.cleanup q).setProc pid .idle)
      | _ => none
  -- invalidate_generated_files
  | .countDirty pid, s =>
      match s.procs pid with
      | .idle =>
          if s.dirtyRows = [] then some { s with invalidated := true }
          else some (s.setProc pid .counted)
      | _ => none
  | .beginInvalidation pid, s =>
      match s.lock, s.procs pid with
      | none, .counted => some (s.acquire pid .begun)
      | _, _ => none
  | .selectDirty pid rows, s =>
      match s.procs pid with
      | .begun => if rows.Perm s.dirtyRows then some (s.setProc pid (.invalidating rows [])) else none
      | _ => none
  | .readFile pid, s =>
      match s.procs pid with
      | .invalidating ((project, row) :: todo) deleted =>
          if (s.files[project]?).map v.sha256 = some row.contentHash then
            some (s.setProc pid (.removing project row todo deleted))
          else some (s.setProc pid (.unregistering project row todo deleted))
      | _ => none
  | .removeFile pid, s =>
      match s.procs pid with
      | .removing project row todo deleted =>
          match s.files[project]? with
          | some bytes =>
              some ((s.removeFile project bytes).setProc pid (.unregistering project row todo deleted))
          | none => some (s.release pid .idle)
      | _ => none
  | .unregister pid, s =>
      match s.procs pid with
      | .unregistering project row todo deleted =>
          some (s.setProc pid (.invalidating todo ((project, row) :: deleted)))
      | _ => none
  | .commitInvalidation pid, s =>
      match s.procs pid with
      | .invalidating [] deleted => some ((s.unregister deleted).release pid .idle)
      | _ => none
  | .failInvalidation pid, s =>
      match s.procs pid with
      | .counted => some (s.setProc pid .idle)
      | .begun => some (s.release pid .idle)
      | .invalidating _ _ => some (s.release pid .idle)
      | .removing _ _ _ _ => some (s.release pid .idle)
      | .unregistering _ _ _ _ => some (s.release pid .idle)
      | _ => none
  -- the others
  | .mutate k, s => if s.lock = none ∧ 0 < k then some (s.mutate k) else none
  | .edit project content, s => some (s.edit project content)

/-- An edit needs no call. -/
theorem step_edit (project : String) (content : Option Bytes) (s : Workspace) :
    step v (.edit project content) s = some (s.edit project content) := by
  simp only [step]

/-! ## What the calls guarantee -/

/-- The publication whose file is written and whose transaction is still open. -/
def Process.publishes : Process → Option Publication
  | .written q => some q
  | .registered q => some q
  | _ => none

/-- The publication that has failed and whose file is still to be cleaned up. -/
def Process.awaits : Process → Option Publication
  | .failed q => some q
  | .matched q => some q
  | _ => none

/-- The file is the rendering of a selection that is published at the current revision, or is being
published at it under the write lock. What a failed publication has written is neither. -/
def Workspace.Current (s : Workspace) (project : String) (bytes : Bytes) : Prop :=
  (project, bytes, s.revision) ∈ s.published ∨
    ∃ pid q, (s.procs pid).publishes = some q ∧ q.project = project ∧ q.text v = bytes ∧
      q.expectedRevision = s.revision

/-- No rendering outlives a change of memories, and only registered bytes are removed. -/
structure Workspace.Honest (s : Workspace) : Prop where
  current : s.invalidated = true → ∀ (project : String) (bytes : Bytes),
    s.files[project]? = some bytes → (project, bytes) ∈ s.renderings → s.Current v project bytes
  removals : ∀ e ∈ s.removals, e.2 = some (v.sha256 e.1)

/-- The registered rendering is these bytes. -/
def Workspace.Registers (s : Workspace) (project : String) (bytes : Bytes) : Prop :=
  ∃ row, s.rows[project]? = some row ∧ row.contentHash = v.sha256 bytes

def Process.Removes (project : String) : Process → Prop
  | .removing p _ _ _ => p = project
  | _ => False

/-- What failed publications have left in place is registered all the same. -/
def Workspace.CleanedUp (s : Workspace) : Prop :=
  ∀ pid q, (s.procs pid).awaits = some q → s.files[q.project]? = some (q.text v) →
    s.Registers v q.project (q.text v)

/-- An action that meets none of the races: an edit does not bring back a rendering that is no
longer registered and does not hit the moment between the reading and the removal of the file; an
invalidation does not return while the file of a failed publication waits to be removed, and a
publication does not fail over an unregistered file when nothing was changed since one returned. -/
def Foreseen : Action → Workspace → Prop
  | .edit project (some bytes), s =>
      s.files[project]? = some bytes ∨
        ((project, bytes) ∉ s.renderings ∧ ∀ pid, ¬ (s.procs pid).Removes project) ∨
          (s.lock = none ∧ s.Registers v project bytes)
  | .failPublication pid, s => s.invalidated = true → ∀ q, (s.procs pid).publishes = some q →
      s.files[q.project]? = some (q.text v) → s.Registers v q.project (q.text v)
  | .countDirty _, s => s.dirtyRows = [] → s.CleanedUp v
  | .commitInvalidation _, s => s.CleanedUp v
  | _, _ => True

/-- Nothing is registered and no call is in progress. -/
def Workspace.Fresh (s : Workspace) : Prop :=
  s.rows = ∅ ∧ s.lock = none ∧ (∀ pid, s.procs pid = .idle) ∧ s.renderings = [] ∧
    s.published = [] ∧ s.removals = []

end GeneratedContext

end IronMem
