import Mathlib.Logic.Function.Basic
import IronMem.GeneratedContext
import IronMem.JsonLossless
import IronMem.Lib.Actions

/-!
# No rendering outlives a change

The invariant behind the guarantee ties four things together: a file that holds a rendering is
registered or some publication answers for it, a clean row is of the current revision, an
invalidation has seen every dirty row, and whoever has written or is about to remove a file holds
the write lock.

- **who answers for a file** (`Process.answers`): a publication from writing the file to its
  commit; after that, if it has failed, until an invalidation returns. The condition on runs has
  the clean-up come first, so that at its return no failed publication waits any more
  (`files_cleanedUp`).
- **one lemma for each action** (`Workspace.Inv.step_*`): most change no file, and those that do
  hold the lock. `facts_transfer` and `of_files` say what the other calls notice of it.
- **the runs that race** have their traces at the end: an edit that is removed in place of the
  rendering (`edit_lost`), and what a failed publication leaves (`failure_left`).

A run begins with nothing registered and no call in progress (`Workspace.Fresh`); any number of
calls may be under way after that. A call without the lock relies on nothing (`facts_of_free`),
so an action of the call with the lock has only its own facts to restore, and an edit only the
facts of that call. Of the digest it is asked that it tells contents apart: a row registers a
file by its hash, and an invalidation compares hashes before it removes anything.
-/

namespace IronMem

namespace GeneratedContext

variable (v : Renderer)

/-! ## The invariant

`Workspace.Facts` is what is known of one call in progress, by where it has got to.
`Workspace.Inv` adds what is known of the rows and the files. -/

def Process.holdsLock : Process → Bool
  | .idle => false
  | .failed _ => false
  | .matched _ => false
  | .counted => false
  | _ => true

/-- A publication whose file is written in its transaction. -/
structure Workspace.Wrote (s : Workspace) (q : Publication) : Prop where
  revision : q.expectedRevision = s.revision
  file : ∀ bytes, s.files[q.project]? = some bytes → (q.project, bytes) ∈ s.renderings →
    bytes = q.text v ∧ 0 < (q.report v).bytes
  rendered : 0 < (q.report v).bytes → (q.project, q.text v) ∈ s.renderings

/-- An invalidation that has done the rows in `deleted` and has still the rows in `todo` to do. -/
structure Workspace.Progress (s : Workspace) (todo deleted : List (String × GeneratedFile)) :
    Prop where
  selected : ∀ r ∈ todo, s.rows[r.1]? = some r.2
  rendered : ∀ r ∈ deleted, ∃ bytes, r.2.contentHash = v.sha256 bytes ∧ (r.1, bytes) ∈ s.renderings
  gone : ∀ r ∈ deleted, ∀ bytes, s.files[r.1]? = some bytes → v.sha256 bytes ≠ r.2.contentHash
  dirty : ∀ (project : String) (row : GeneratedFile), s.rows[project]? = some row → 0 < row.dirty →
    (project, row) ∈ todo ∨ (project, row) ∈ deleted

/-- What holds for a call in progress. -/
def Workspace.Facts (s : Workspace) : Process → Prop
  | .publishing q => q.expectedRevision = s.revision
  | .written q => s.Wrote v q
  | .registered q => s.Wrote v q
  | .invalidating todo deleted => s.Progress v todo deleted
  | .removing project row todo deleted => s.Progress v ((project, row) :: todo) deleted ∧
      ∀ bytes, s.files[project]? = some bytes → v.sha256 bytes = row.contentHash
  | .unregistering project row todo deleted => s.Progress v todo ((project, row) :: deleted)
  | _ => True

/-- The publication that answers for a file that is not registered: its transaction is open, or it
has failed and no invalidation has returned since. -/
def Process.answers (invalidated : Bool) : Process → Option Publication
  | .written q => some q
  | .registered q => some q
  | .failed q => if invalidated then none else some q
  | .matched q => if invalidated then none else some q
  | _ => none

structure Workspace.Inv (s : Workspace) : Prop where
  locked : ∀ pid, (s.procs pid).holdsLock = true → s.lock = some pid
  facts : ∀ pid, s.Facts v (s.procs pid)
  rows : ∀ (project : String) (row : GeneratedFile), s.rows[project]? = some row → ∃ bytes,
    row.contentHash = v.sha256 bytes ∧ (project, bytes) ∈ s.renderings ∧
      (row.dirty = 0 → (project, bytes, s.revision) ∈ s.published)
  files : ∀ (project : String) (bytes : Bytes), s.files[project]? = some bytes →
    (project, bytes) ∈ s.renderings →
    s.Registers v project bytes ∨ ∃ pid q, (s.procs pid).answers s.invalidated = some q ∧
      q.project = project ∧ q.text v = bytes
  invalidated : s.invalidated = true → ∀ (project : String) (row : GeneratedFile),
    s.rows[project]? = some row → row.dirty = 0
  removals : ∀ e ∈ s.removals, e.2 = some (v.sha256 e.1)

variable {v} {s s' : Workspace} {pid : Nat} {p : Process} {q : Publication}

theorem facts_of_free (hp : p.holdsLock = false) : s.Facts v p := by
  cases p with
  | idle => trivial
  | failed q => trivial
  | matched q => trivial
  | counted => trivial
  | checking q => trivial
  | begun => trivial
  | publishing q => cases hp
  | written q => cases hp
  | registered q => cases hp
  | invalidating todo deleted => cases hp
  | removing project row todo deleted => cases hp
  | unregistering project row todo deleted => cases hp

/-- Where only files change, and those that do are neither renderings nor about to be removed,
the call in progress does not notice. -/
theorem facts_transfer (hsha : Function.Injective v.sha256) (h : s.Facts v p)
    (hrevision : s'.revision = s.revision) (hrows : s'.rows = s.rows)
    (hrenderings : s'.renderings = s.renderings)
    (hnew : ∀ (project : String) (bytes : Bytes), s'.files[project]? = some bytes →
      s.files[project]? = some bytes ∨ ((project, bytes) ∉ s.renderings ∧ ¬ p.Removes project)) :
    s'.Facts v p := by
  have hprogress : ∀ {todo deleted}, s.Progress v todo deleted → s'.Progress v todo deleted := by
    intro todo deleted hp
    refine ⟨by rw [hrows]; exact hp.selected, by rw [hrenderings]; exact hp.rendered,
      fun r hr bytes hfile => ?_, by rw [hrows]; exact hp.dirty⟩
    rcases hnew r.1 bytes hfile with hold | ⟨hfresh, -⟩
    · exact hp.gone r hr bytes hold
    · intro hhash
      obtain ⟨bytes', hbytes', hrendered⟩ := hp.rendered r hr
      exact hfresh (hsha (hhash.trans hbytes') ▸ hrendered)
  have hwrote : ∀ {q}, s.Wrote v q → s'.Wrote v q := by
    intro q hq
    refine ⟨hq.revision.trans hrevision.symm, fun bytes hfile hrendered => ?_,
      by rw [hrenderings]; exact hq.rendered⟩
    rw [hrenderings] at hrendered
    rcases hnew q.project bytes hfile with hold | ⟨hfresh, -⟩
    · exact hq.file bytes hold hrendered
    · exact absurd hrendered hfresh
  cases p with
  | idle => trivial
  | failed q => trivial
  | matched q => trivial
  | counted => trivial
  | checking q => trivial
  | begun => trivial
  | publishing q => exact Eq.trans h hrevision.symm
  | written q => exact hwrote h
  | registered q => exact hwrote h
  | invalidating todo deleted => exact hprogress h
  | unregistering project row todo deleted => exact hprogress h
  | removing project row todo deleted =>
      refine ⟨hprogress h.1, fun bytes hfile => ?_⟩
      rcases hnew project bytes hfile with hold | ⟨-, hremoves⟩
      · exact h.2 bytes hold
      · exact absurd rfl hremoves

section Answers

variable {invalidated : Bool} {procs : Nat → Process}

theorem answers_update_self :
    (Function.update procs pid p pid).answers invalidated = p.answers invalidated :=
  congrArg (Process.answers invalidated) (Function.update_self _ _ _)

theorem answers_update {pid' : Nat} (hne : pid' ≠ pid) :
    (Function.update procs pid p pid').answers invalidated = (procs pid').answers invalidated :=
  congrArg (Process.answers invalidated) (Function.update_of_ne hne _ _)

theorem Process.answers_of_publishes (h : p.publishes = some q) :
    p.answers invalidated = some q := by
  cases p with
  | written q' => exact h
  | registered q' => exact h
  | _ => cases h

theorem Process.answers_false (h : p.answers invalidated = some q) : p.answers false = some q := by
  cases invalidated with
  | false => exact h
  | true =>
      cases p with
      | written q' => exact h
      | registered q' => exact h
      | _ => cases h

/-- Who answers for a file either goes on to do so after an invalidation or waits to remove it. -/
theorem Process.answers_cases (h : p.answers invalidated = some q) :
    p.answers true = some q ∨ p.awaits = some q := by
  have hfalse := Process.answers_false h
  cases p with
  | written q' => exact Or.inl hfalse
  | registered q' => exact Or.inl hfalse
  | failed q' => exact Or.inr hfalse
  | matched q' => exact Or.inr hfalse
  | _ => cases hfalse

theorem Workspace.Facts.wrote (h : s.Facts v p) (hp : p.publishes = some q) : s.Wrote v q := by
  cases p with
  | written q' => exact Option.some.inj hp ▸ h
  | registered q' => exact Option.some.inj hp ▸ h
  | _ => cases hp

end Answers

namespace Workspace.Inv

theorem free (h : s.Inv v) (hlock : s.lock = none) (pid : Nat) :
    (s.procs pid).holdsLock = false := by
  by_contra hheld
  have hpid := h.locked pid (Bool.eq_true_of_not_eq_false hheld)
  rw [hlock] at hpid
  cases hpid

/-- Where one call holds the lock the others do not. -/
theorem others_free (h : s.Inv v) (hheld : (s.procs pid).holdsLock = true) {pid' : Nat}
    (hne : pid' ≠ pid) : (s.procs pid').holdsLock = false := by
  by_contra hheld'
  have heq := (h.locked pid' (Bool.eq_true_of_not_eq_false hheld')).symm.trans (h.locked pid hheld)
  exact hne (Option.some.inj heq)

/-- A call that goes on keeps the account of the file it has written, or leaves no such file
unregistered. -/
theorem moved {lock : Option Nat} (hsha : Function.Injective v.sha256) (h : s.Inv v)
    (hlocked : ∀ pid', (Function.update s.procs pid p pid').holdsLock = true → lock = some pid')
    (hfacts : s.Facts v p)
    (hanswers : ∀ q, (s.procs pid).answers s.invalidated = some q →
      p.answers s.invalidated = some q ∨
        (s.files[q.project]? = some (q.text v) → (q.project, q.text v) ∈ s.renderings →
          s.Registers v q.project (q.text v))) :
    Workspace.Inv v { s with lock := lock, procs := Function.update s.procs pid p } := by
  refine ⟨hlocked, fun pid' => ?_, h.rows, fun project bytes hfile hrendered => ?_, h.invalidated,
    h.removals⟩
  · have hkept : s.Facts v (Function.update s.procs pid p pid') := by
      by_cases heq : pid' = pid
      · rw [heq, Function.update_self]
        exact hfacts
      · rw [Function.update_of_ne heq]
        exact h.facts pid'
    exact facts_transfer hsha hkept rfl rfl rfl fun _ _ => Or.inl
  · rcases h.files project bytes hfile hrendered with hreg | ⟨pid', q, hq, rfl, rfl⟩
    · exact Or.inl hreg
    · by_cases heq : pid' = pid
      · subst heq
        rcases hanswers q hq with hq' | hreg
        · exact Or.inr ⟨pid', q, answers_update_self.trans hq', rfl, rfl⟩
        · exact Or.inl (hreg hfile hrendered)
      · exact Or.inr ⟨pid', q, (answers_update heq).trans hq, rfl, rfl⟩

theorem setProc (hsha : Function.Injective v.sha256) (h : s.Inv v)
    (hheld : (s.procs pid).holdsLock = p.holdsLock) (hfacts : s.Facts v p)
    (hanswers : ∀ q, (s.procs pid).answers s.invalidated = some q →
      p.answers s.invalidated = some q ∨
        (s.files[q.project]? = some (q.text v) → (q.project, q.text v) ∈ s.renderings →
          s.Registers v q.project (q.text v))) : (s.setProc pid p).Inv v := by
  refine h.moved hsha (fun pid' hpid' => h.locked pid' ?_) hfacts hanswers
  by_cases heq : pid' = pid
  · rw [heq, Function.update_self] at hpid'
    rw [heq, hheld, hpid']
  · rwa [Function.update_of_ne heq] at hpid'

theorem acquire (hsha : Function.Injective v.sha256) (h : s.Inv v) (hlock : s.lock = none)
    (hfacts : s.Facts v p) (hnone : (s.procs pid).answers s.invalidated = none) : (s.acquire pid p).Inv v := by
  refine h.moved hsha (fun pid' hpid' => ?_) hfacts fun q hq => ?_
  · by_cases heq : pid' = pid
    · rw [heq]
    · rw [Function.update_of_ne heq, h.free hlock] at hpid'
      cases hpid'
  · rw [hnone] at hq
    cases hq

theorem release (hsha : Function.Injective v.sha256) (h : s.Inv v)
    (hheld : (s.procs pid).holdsLock = true) (hp : p.holdsLock = false)
    (hanswers : ∀ q, (s.procs pid).answers s.invalidated = some q →
      p.answers s.invalidated = some q ∨
        (s.files[q.project]? = some (q.text v) → (q.project, q.text v) ∈ s.renderings →
          s.Registers v q.project (q.text v))) : (s.release pid p).Inv v := by
  refine h.moved hsha (fun pid' hpid' => ?_) (facts_of_free hp) hanswers
  by_cases heq : pid' = pid
  · rw [heq, Function.update_self, hp] at hpid'
    cases hpid'
  · rw [Function.update_of_ne heq, h.others_free hheld heq] at hpid'
    cases hpid'

/-- The ways in which a file may change without a call that holds the lock. -/
theorem of_files {files : Std.ExtTreeMap String Bytes} (hsha : Function.Injective v.sha256)
    (h : s.Inv v) (hfiles : ∀ project bytes, files[project]? = some bytes →
      s.files[project]? = some bytes ∨
        ((project, bytes) ∉ s.renderings ∧ ∀ pid, ¬ (s.procs pid).Removes project) ∨
          (s.lock = none ∧ s.Registers v project bytes)) :
    Workspace.Inv v { s with files := files } := by
  refine ⟨h.locked, fun pid => ?_, h.rows, fun project bytes hfile hrendered => ?_, h.invalidated,
    h.removals⟩
  · by_cases hheld : (s.procs pid).holdsLock = false
    · exact facts_of_free hheld
    -- whoever holds the lock only meets new files that nobody rendered
    refine facts_transfer hsha (h.facts pid) rfl rfl rfl fun project bytes hfile => ?_
    rcases hfiles project bytes hfile with hold | ⟨hfresh, hremoves⟩ | ⟨hlock, -⟩
    · exact Or.inl hold
    · exact Or.inr ⟨hfresh, hremoves pid⟩
    · exact absurd (h.free hlock pid) hheld
  · rcases hfiles project bytes hfile with hold | ⟨hfresh, -⟩ | ⟨-, hreg⟩
    · exact h.files project bytes hold hrendered
    · exact absurd hrendered hfresh
    · exact Or.inl hreg

end Workspace.Inv

/-! ## Each action keeps it

An action moves one call, and only the call with the lock has facts about rows and files. Users
change files at any time; `facts_transfer` says when that call does not notice. -/

theorem mem_dirtyRows {project : String} {row : GeneratedFile} :
    (project, row) ∈ s.dirtyRows ↔ s.rows[project]? = some row ∧ 0 < row.dirty := by
  rw [Workspace.dirtyRows, List.mem_filter, Std.ExtTreeMap.mem_toList_iff_getElem?_eq_some,
    decide_eq_true_eq]

/-- A row is done when the file no longer holds what it registers. -/
theorem Workspace.Progress.next {project : String} {row : GeneratedFile}
    {todo deleted : List (String × GeneratedFile)}
    (hp : s.Progress v ((project, row) :: todo) deleted) (h : s.Inv v)
    (hgone : ∀ bytes, s.files[project]? = some bytes → v.sha256 bytes ≠ row.contentHash) :
    s.Progress v todo ((project, row) :: deleted) := by
  obtain ⟨bytes, hhash, hrendered, -⟩ := h.rows project row (hp.selected _ List.mem_cons_self)
  refine ⟨fun r hr => hp.selected r (List.mem_cons_of_mem _ hr), fun r hr => ?_, fun r hr => ?_,
    fun project' row' hrow hdirty => ?_⟩
  · rcases List.mem_cons.mp hr with rfl | hr
    · exact ⟨bytes, hhash, hrendered⟩
    · exact hp.rendered r hr
  · rcases List.mem_cons.mp hr with rfl | hr
    · exact hgone
    · exact hp.gone r hr
  · rcases hp.dirty project' row' hrow hdirty with hmem | hmem
    · rcases List.mem_cons.mp hmem with heq | hmem
      · exact Or.inr (heq ▸ List.mem_cons_self)
      · exact Or.inl hmem
    · exact Or.inr (List.mem_cons_of_mem _ hmem)

theorem byteLen_eq_zero {t : String} (h : byteLen t = 0) : t = "" :=
  String.utf8ByteSize_eq_zero_iff.mp h

theorem renderMemories_bytes (date : Int → Option Day) (memories : List Memory) (budget : Nat) :
    (renderMemories date memories budget).2.bytes =
      byteLen (renderMemories date memories budget).1 := by
  unfold renderMemories
  split
  · rfl
  · split <;> rfl

namespace Workspace.Inv

theorem writeFile (h : s.Inv v) (hproc : s.procs pid = .publishing q) :
    ((s.writeFile v q).setProc pid (.written q)).Inv v := by
  have hheld : (s.procs pid).holdsLock = true := by rw [hproc]; rfl
  have hrevision : q.expectedRevision = s.revision := by
    have hfacts := h.facts pid
    rw [hproc] at hfacts
    exact hfacts
  have hother : ∀ {pid' q'}, (s.procs pid').answers s.invalidated = some q' → pid' ≠ pid := by
    rintro pid' q' hq' rfl
    rw [hproc] at hq'
    cases hq'
  have hlocked : ∀ pid', (Function.update s.procs pid (.written q) pid').holdsLock = true →
      s.lock = some pid' := by
    intro pid' hpid'
    by_cases heq : pid' = pid
    · rw [heq]
      exact h.locked pid hheld
    · rw [Function.update_of_ne heq] at hpid'
      exact h.locked pid' hpid'
  have hfacts : ∀ t : Workspace, t.Wrote v q → ∀ pid',
      t.Facts v (Function.update s.procs pid (.written q) pid') := by
    intro t ht pid'
    by_cases heq : pid' = pid
    · rw [heq, Function.update_self]
      exact ht
    · rw [Function.update_of_ne heq]
      exact facts_of_free (h.others_free hheld heq)
  unfold Workspace.writeFile
  split
  · -- an empty rendering: only a file goes away
    next hempty =>
      have hbytes : ¬ 0 < (q.report v).bytes := by
        rw [Publication.report, renderMemories_bytes, String.isEmpty_iff.mp hempty]
        exact Nat.not_lt_zero 0
      refine ⟨hlocked, hfacts _ ⟨hrevision, fun bytes hfile => ?_, fun hpos => absurd hpos hbytes⟩,
        h.rows, fun project bytes hfile hrendered => ?_, h.invalidated, h.removals⟩
      · dsimp only [Workspace.setProc] at hfile
        rw [Std.ExtTreeMap.getElem?_erase_self] at hfile
        cases hfile
      · dsimp only [Workspace.setProc] at hfile
        rw [Std.ExtTreeMap.getElem?_erase] at hfile
        split at hfile
        · cases hfile
        · rcases h.files project bytes hfile hrendered with hreg | ⟨pid', q', hq', hrest⟩
          · exact Or.inl hreg
          · exact Or.inr ⟨pid', q', (answers_update (hother hq')).trans hq', hrest⟩
  · -- the rendering is the file now
    next hfull =>
    have hbytes : 0 < (q.report v).bytes := by
      rw [Publication.report, renderMemories_bytes]
      exact Nat.pos_of_ne_zero fun hzero => hfull (String.isEmpty_iff.mpr (byteLen_eq_zero hzero))
    refine ⟨hlocked, hfacts _ ⟨hrevision, fun bytes hfile hrendered => ?_, fun _ => ?_⟩,
      fun project row hrow => ?_, fun project bytes hfile hrendered => ?_, h.invalidated, h.removals⟩
    · dsimp only [Workspace.setProc] at hfile
      rw [Std.ExtTreeMap.getElem?_insert_self] at hfile
      exact ⟨(Option.some.inj hfile).symm, hbytes⟩
    · exact List.mem_append_right _ List.mem_cons_self
    · obtain ⟨bytes, hhash, hrendered, hclean⟩ := h.rows project row hrow
      exact ⟨bytes, hhash, List.mem_append_left _ hrendered, hclean⟩
    · dsimp only [Workspace.setProc] at hfile
      rw [Std.ExtTreeMap.getElem?_insert] at hfile
      split at hfile
      · next heq =>
          refine Or.inr ⟨pid, q, answers_update_self,
            Std.LawfulEqOrd.eq_of_compare heq, Option.some.inj hfile⟩
      · next hne =>
          have hold : (project, bytes) ∈ s.renderings := by
            refine (List.mem_append.mp hrendered).resolve_right fun hnew => hne ?_
            rw [(Prod.mk.inj (List.mem_singleton.mp hnew)).1]
            exact Std.ReflCmp.compare_self
          rcases h.files project bytes hfile hold with hreg | ⟨pid', q', hq', hrest⟩
          · exact Or.inl hreg
          · exact Or.inr ⟨pid', q', (answers_update (hother hq')).trans hq', hrest⟩

theorem publish (h : s.Inv v) (hproc : s.procs pid = .registered q) : (s.publish v q).Inv v := by
  have hwrote : s.Wrote v q := by
    have hfacts := h.facts pid
    rw [hproc] at hfacts
    exact hfacts
  have hheld : (s.procs pid).holdsLock = true := by rw [hproc]; rfl
  have hrow : ∀ project row, (s.publish v q).rows[project]? = some row →
      (project = q.project ∧ row = ⟨v.sha256 (q.text v), 0⟩ ∧ 0 < (q.report v).bytes) ∨
        s.rows[project]? = some row := by
    intro project row hrow
    dsimp only [Workspace.publish] at hrow
    split at hrow
    · next hpos =>
        rw [Std.ExtTreeMap.getElem?_insert] at hrow
        split at hrow
        · next heq =>
            exact Or.inl ⟨(Std.LawfulEqOrd.eq_of_compare heq).symm, (Option.some.inj hrow).symm, hpos⟩
        · exact Or.inr hrow
    · exact Or.inr hrow
  refine ⟨h.locked, fun pid' => ?_, fun project row hr => ?_, fun project bytes hfile hrendered => ?_,
    fun hinv project row hr => ?_, h.removals⟩
  · by_cases heq : pid' = pid
    · show Workspace.Facts v (s.publish v q) (s.procs pid')
      rw [heq, hproc]
      exact ⟨hwrote.revision, hwrote.file, hwrote.rendered⟩
    · exact facts_of_free (h.others_free hheld heq)
  · rcases hrow project row hr with ⟨rfl, rfl, hpos⟩ | hold
    · refine ⟨q.text v, rfl, hwrote.rendered hpos, fun _ => List.mem_append_right _ ?_⟩
      show (q.project, q.text v, s.revision) ∈ _
      rw [← hwrote.revision]
      exact List.mem_cons_self
    · obtain ⟨bytes, hhash, hrendered, hclean⟩ := h.rows project row hold
      exact ⟨bytes, hhash, hrendered, fun hdirty => List.mem_append_left _ (hclean hdirty)⟩
  · by_cases heq : project = q.project
    · subst heq
      obtain ⟨rfl, hpos⟩ := hwrote.file bytes hfile hrendered
      refine Or.inl ⟨⟨v.sha256 (q.text v), 0⟩, ?_, rfl⟩
      dsimp only [Workspace.publish]
      rw [if_pos hpos, Std.ExtTreeMap.getElem?_insert_self]
    · rcases h.files project bytes hfile hrendered with ⟨row, hr, hhash⟩ | hanswers
      · refine Or.inl ⟨row, ?_, hhash⟩
        dsimp only [Workspace.publish]
        split
        · rw [Std.ExtTreeMap.getElem?_insert,
            if_neg fun hcmp => heq (Std.LawfulEqOrd.eq_of_compare hcmp).symm]
          exact hr
        · exact hr
      · exact Or.inr hanswers
  · rcases hrow project row hr with ⟨-, rfl, -⟩ | hold
    · rfl
    · exact h.invalidated hinv project row hold

theorem cleanup (hsha : Function.Injective v.sha256) (h : s.Inv v) : (s.cleanup q).Inv v := by
  refine h.of_files hsha fun project bytes hfile => Or.inl ?_
  rw [Std.ExtTreeMap.getElem?_erase] at hfile
  split at hfile
  · cases hfile
  · exact hfile

theorem removeFile {project : String} {row : GeneratedFile}
    {todo deleted : List (String × GeneratedFile)} {bytes : Bytes}
    (hsha : Function.Injective v.sha256) (h : s.Inv v)
    (hproc : s.procs pid = .removing project row todo deleted)
    (hfile : s.files[project]? = some bytes) :
    ((s.removeFile project bytes).setProc pid (.unregistering project row todo deleted)).Inv v := by
  obtain ⟨hprogress, hmatch⟩ : s.Facts v (.removing project row todo deleted) := hproc ▸ h.facts pid
  have hrow : s.rows[project]? = some row := hprogress.selected _ List.mem_cons_self
  have hremoved : (s.removeFile project bytes).Inv v := by
    have hfiles : Workspace.Inv v { s with files := s.files.erase project } := by
      refine h.of_files hsha fun project' bytes' hfile' => Or.inl ?_
      rw [Std.ExtTreeMap.getElem?_erase] at hfile'
      split at hfile'
      · cases hfile'
      · exact hfile'
    refine ⟨hfiles.locked, fun pid' => facts_transfer hsha (hfiles.facts pid') rfl rfl rfl
      fun _ _ => Or.inl, hfiles.rows, hfiles.files, hfiles.invalidated, fun e he => ?_⟩
    rcases List.mem_append.mp he with he | he
    · exact h.removals e he
    · rw [List.mem_singleton.mp he, hrow]
      exact congrArg some (hmatch bytes hfile).symm
  refine hremoved.setProc hsha ?_ ?_ fun q' hq' => ?_
  · show (s.procs pid).holdsLock = true
    rw [hproc]
    rfl
  · have hfacts : (s.removeFile project bytes).Facts v (.removing project row todo deleted) :=
      hproc ▸ hremoved.facts pid
    refine hfacts.1.next hremoved fun bytes' hfile' => ?_
    dsimp only [Workspace.removeFile] at hfile'
    rw [Std.ExtTreeMap.getElem?_erase_self] at hfile'
    cases hfile'
  · have hanswers : (s.procs pid).answers s.invalidated = some q' := hq'
    rw [hproc] at hanswers
    cases hanswers

/-- Where nothing waits to be cleaned up a file needs no failed publication to answer for it. -/
theorem files_cleanedUp (h : s.Inv v) (hclean : s.CleanedUp v) {project : String} {bytes : Bytes}
    (hfile : s.files[project]? = some bytes) (hrendered : (project, bytes) ∈ s.renderings) :
    s.Registers v project bytes ∨ ∃ pid q, (s.procs pid).answers true = some q ∧
      q.project = project ∧ q.text v = bytes := by
  rcases h.files project bytes hfile hrendered with hreg | ⟨pid, q, hq, rfl, rfl⟩
  · exact Or.inl hreg
  · rcases Process.answers_cases hq with hq | hwaits
    · exact Or.inr ⟨pid, q, hq, rfl, rfl⟩
    · exact Or.inl (hclean pid q hwaits hfile)

theorem unregister {deleted : List (String × GeneratedFile)} (h : s.Inv v) (hclean : s.CleanedUp v)
    (hproc : s.procs pid = .invalidating [] deleted) :
    ((s.unregister deleted).release pid .idle).Inv v := by
  have hprogress : s.Progress v [] deleted := by
    have hfacts := h.facts pid
    rw [hproc] at hfacts
    exact hfacts
  have hheld : (s.procs pid).holdsLock = true := by rw [hproc]; rfl
  have hfree : ∀ pid', (Function.update s.procs pid .idle pid').holdsLock = false := by
    intro pid'
    by_cases heq : pid' = pid
    · rw [heq, Function.update_self]
      rfl
    · rw [Function.update_of_ne heq]
      exact h.others_free hheld heq
  have hrows : ∀ project row, (s.unregister deleted).rows[project]? = some row →
      s.rows[project]? = some row ∧ (project, row) ∉ deleted := by
    intro project row hrow
    dsimp only [Workspace.unregister] at hrow
    rw [Std.ExtTreeMap.getElem?_filter', Option.filter_eq_some_iff] at hrow
    exact ⟨hrow.1, by simpa using hrow.2⟩
  refine ⟨fun pid' hpid' => ?_, fun pid' => facts_of_free (hfree pid'), fun project row hrow => ?_,
    fun project bytes hfile hrendered => ?_, fun _ project row hrow => ?_, h.removals⟩
  · exact absurd hpid' (Bool.eq_false_iff.mp (hfree pid'))
  · exact h.rows project row (hrows project row hrow).1
  · rcases h.files_cleanedUp hclean hfile hrendered with ⟨row, hrow, hhash⟩ | ⟨pid', q, hq, hrest⟩
    · -- a row that is deleted has lost its file
      have hkept : (project, row) ∉ deleted := fun hmem =>
        hprogress.gone _ hmem bytes hfile hhash.symm
      refine Or.inl ⟨row, ?_, hhash⟩
      dsimp only [Workspace.release, Workspace.unregister]
      rw [Std.ExtTreeMap.getElem?_filter', hrow, Option.filter_some, if_pos (by simpa using hkept)]
    · refine Or.inr ⟨pid', q, (answers_update ?_).trans hq, hrest⟩
      rintro rfl
      rw [hproc] at hq
      cases hq
  · obtain ⟨hrow, hkept⟩ := hrows project row hrow
    refine Nat.eq_zero_of_not_pos fun hdirty => ?_
    rcases hprogress.dirty project row hrow hdirty with hmem | hmem
    · cases hmem
    · exact hkept hmem

theorem mutate {k : Nat} (h : s.Inv v) (hlock : s.lock = none) (hk : 0 < k) :
    (s.mutate k).Inv v := by
  have hrows : ∀ (project : String) (row : GeneratedFile), (s.mutate k).rows[project]? = some row →
      ∃ row' : GeneratedFile, s.rows[project]? = some row' ∧ row.contentHash = row'.contentHash ∧
        row.dirty = row'.dirty + k := by
    intro project row hrow
    dsimp only [Workspace.mutate] at hrow
    rw [Std.ExtTreeMap.getElem?_map] at hrow
    obtain ⟨row', hrow', rfl⟩ := Option.map_eq_some_iff.mp hrow
    exact ⟨row', hrow', rfl, rfl⟩
  have hregisters : ∀ {project bytes}, s.Registers v project bytes →
      (s.mutate k).Registers v project bytes := by
    rintro project bytes ⟨row, hrow, hhash⟩
    refine ⟨{ row with dirty := row.dirty + k }, ?_, hhash⟩
    dsimp only [Workspace.mutate]
    rw [Std.ExtTreeMap.getElem?_map, hrow]
    rfl
  refine ⟨h.locked, fun pid => facts_of_free (h.free hlock pid), fun project row hrow => ?_,
    fun project bytes hfile hrendered => ?_, fun hinv => ?_, h.removals⟩
  · obtain ⟨row', hrow', hhash, hdirty⟩ := hrows project row hrow
    obtain ⟨bytes, hhash', hrendered, -⟩ := h.rows project row' hrow'
    exact ⟨bytes, hhash.trans hhash', hrendered, fun hzero => by omega⟩
  · rcases h.files project bytes hfile hrendered with hreg | ⟨pid, q, hq, hrest⟩
    · exact Or.inl (hregisters hreg)
    · exact Or.inr ⟨pid, q, Process.answers_false hq, hrest⟩
  · cases hinv

theorem edit {project : String} {content : Option Bytes} (hsha : Function.Injective v.sha256)
    (h : s.Inv v) (hok : Foreseen v (.edit project content) s) : (s.edit project content).Inv v := by
  cases content with
  | none =>
      refine h.of_files hsha fun project' bytes hfile => Or.inl ?_
      rw [Std.ExtTreeMap.getElem?_erase] at hfile
      split at hfile
      · cases hfile
      · exact hfile
  | some bytes =>
      refine h.of_files hsha fun project' bytes' hfile => ?_
      rw [Std.ExtTreeMap.getElem?_insert] at hfile
      split at hfile
      · next heq =>
          obtain rfl := Std.LawfulEqOrd.eq_of_compare heq
          obtain rfl := Option.some.inj hfile
          exact hok
      · exact Or.inl hfile

/-! ### The statements of a publication -/

theorem step_beginPublication (hsha : Function.Injective v.sha256) (h : s.Inv v)
    (hstep : step v (.beginPublication pid q) s = some s') : s'.Inv v := by
  simp only [GeneratedContext.step] at hstep
  split at hstep
  · next hlock hproc =>
      cases hstep
      exact h.acquire hsha hlock trivial (by rw [hproc]; rfl)
  · cases hstep

theorem step_checkRevision (hsha : Function.Injective v.sha256) (h : s.Inv v)
    (hstep : step v (.checkRevision pid) s = some s') : s'.Inv v := by
  simp only [GeneratedContext.step] at hstep
  split at hstep
  · next q hproc =>
      have hnone : (s.procs pid).answers s.invalidated = none := by rw [hproc]; rfl
      split at hstep
      · next hrevision =>
          cases hstep
          exact h.setProc hsha (by rw [hproc]; rfl) hrevision (by simp [hnone])
      · cases hstep
        exact h.release hsha (by rw [hproc]; rfl) rfl (by simp [hnone])
  · cases hstep

theorem step_refuse (hsha : Function.Injective v.sha256) (h : s.Inv v)
    (hstep : step v (.refuse pid) s = some s') : s'.Inv v := by
  simp only [GeneratedContext.step] at hstep
  split at hstep
  · next q hproc =>
      cases hstep
      exact h.release hsha (by rw [hproc]; rfl) rfl (by simp [hproc, Process.answers])
  · next q hproc =>
      cases hstep
      exact h.release hsha (by rw [hproc]; rfl) rfl (by simp [hproc, Process.answers])
  · cases hstep

theorem step_write (hsha : Function.Injective v.sha256) (h : s.Inv v)
    (hstep : step v (.write pid) s = some s') : s'.Inv v := by
  simp only [GeneratedContext.step] at hstep
  split at hstep
  · next q hproc =>
      split at hstep
      · cases hstep
        exact h.writeFile hproc
      · cases hstep
        exact h.release hsha (by rw [hproc]; rfl) rfl (by simp [hproc, Process.answers])
  · cases hstep

theorem step_register (hsha : Function.Injective v.sha256) (h : s.Inv v)
    (hstep : step v (.register pid) s = some s') : s'.Inv v := by
  simp only [GeneratedContext.step] at hstep
  split at hstep
  · next q hproc =>
      cases hstep
      have hwrote : s.Wrote v q := (h.facts pid).wrote (by rw [hproc]; rfl)
      exact h.setProc hsha (by rw [hproc]; rfl) hwrote
        fun q' hq' => Or.inl (by rw [← hq', hproc]; rfl)
  · cases hstep

theorem step_commitPublication (hsha : Function.Injective v.sha256) (h : s.Inv v)
    (hstep : step v (.commitPublication pid) s = some s') : s'.Inv v := by
  simp only [GeneratedContext.step] at hstep
  split at hstep
  · next q hproc =>
      cases hstep
      have hwrote : s.Wrote v q := (h.facts pid).wrote (by rw [hproc]; rfl)
      have hheld : (s.procs pid).holdsLock = true := by rw [hproc]; rfl
      refine (h.publish hproc).release hsha hheld rfl fun q' hq' => Or.inr ?_
      intro hfile hrendered
      have heq : (s.procs pid).answers s.invalidated = some q' := hq'
      rw [hproc] at heq
      obtain rfl := Option.some.inj heq
      -- the file is registered with the commit
      obtain ⟨-, hpos⟩ := hwrote.file _ hfile hrendered
      refine ⟨⟨v.sha256 (q.text v), 0⟩, ?_, rfl⟩
      dsimp only [Workspace.publish]
      rw [if_pos hpos, Std.ExtTreeMap.getElem?_insert_self]
  · cases hstep

/-- A publication that fails goes on to answer for its file, unless an invalidation has returned. -/
theorem failed (hsha : Function.Injective v.sha256) (h : s.Inv v)
    (hok : Foreseen v (.failPublication pid) s) (hheld : (s.procs pid).holdsLock = true)
    (hproc : (s.procs pid).publishes = some q) : (s.release pid (.failed q)).Inv v := by
  refine h.release hsha hheld rfl fun q' hq' => ?_
  obtain rfl := Option.some.inj ((Process.answers_of_publishes hproc).symm.trans hq')
  cases hinv : s.invalidated with
  | true => exact Or.inr fun hfile _ => hok hinv q hproc hfile
  | false => exact Or.inl rfl

theorem step_failPublication (hsha : Function.Injective v.sha256) (h : s.Inv v)
    (hok : Foreseen v (.failPublication pid) s)
    (hstep : step v (.failPublication pid) s = some s') : s'.Inv v := by
  simp only [GeneratedContext.step] at hstep
  split at hstep
  · next q hproc =>
      cases hstep
      exact h.failed hsha hok (by rw [hproc]; rfl) (by rw [hproc]; rfl)
  · next q hproc =>
      cases hstep
      exact h.failed hsha hok (by rw [hproc]; rfl) (by rw [hproc]; rfl)
  · cases hstep

theorem step_cleanupRead (hsha : Function.Injective v.sha256) (h : s.Inv v)
    (hstep : step v (.cleanupRead pid) s = some s') : s'.Inv v := by
  simp only [GeneratedContext.step] at hstep
  split at hstep
  · next q hproc =>
      split at hstep
      · cases hstep
        exact h.setProc hsha (by rw [hproc]; rfl) trivial
          fun q' hq' => Or.inl (by rw [← hq', hproc]; rfl)
      · next hother =>
          cases hstep
          refine h.setProc hsha (by rw [hproc]; rfl) trivial fun q' hq' => Or.inr fun hfile _ => ?_
          have hq := Process.answers_false hq'
          rw [hproc] at hq
          obtain rfl := Option.some.inj hq
          exact absurd (by rw [hfile]; rfl) hother
  · cases hstep

theorem step_cleanupRemove (hsha : Function.Injective v.sha256) (h : s.Inv v)
    (hstep : step v (.cleanupRemove pid) s = some s') : s'.Inv v := by
  simp only [GeneratedContext.step] at hstep
  split at hstep
  · next q hproc =>
      cases hstep
      have hcleaned : (s.cleanup q).procs pid = .matched q := hproc
      refine (h.cleanup hsha).setProc hsha (by rw [hcleaned]; rfl) trivial
        fun q' hq' => Or.inr fun hfile _ => ?_
      have hq := Process.answers_false hq'
      rw [hcleaned] at hq
      obtain rfl := Option.some.inj hq
      dsimp only [Workspace.cleanup] at hfile
      rw [Std.ExtTreeMap.getElem?_erase_self] at hfile
      cases hfile
  · cases hstep

/-! ### The statements of an invalidation -/

theorem step_countDirty (hsha : Function.Injective v.sha256) (h : s.Inv v)
    (hok : Foreseen v (.countDirty pid) s) (hstep : step v (.countDirty pid) s = some s') :
    s'.Inv v := by
  simp only [GeneratedContext.step] at hstep
  split at hstep
  · next hproc =>
      split at hstep
      · next hclean =>
          cases hstep
          refine ⟨h.locked, fun pid' => facts_transfer hsha (h.facts pid') rfl rfl rfl
            fun _ _ => Or.inl, h.rows, fun project bytes => h.files_cleanedUp (hok hclean),
            fun _ project row hrow => ?_, h.removals⟩
          refine Nat.eq_zero_of_not_pos fun hdirty => ?_
          have hmem : (project, row) ∈ s.dirtyRows := mem_dirtyRows.mpr ⟨hrow, hdirty⟩
          rw [hclean] at hmem
          cases hmem
      · cases hstep
        exact h.setProc hsha (by rw [hproc]; rfl) trivial (by simp [hproc, Process.answers])
  · cases hstep

theorem step_beginInvalidation (hsha : Function.Injective v.sha256) (h : s.Inv v)
    (hstep : step v (.beginInvalidation pid) s = some s') : s'.Inv v := by
  simp only [GeneratedContext.step] at hstep
  split at hstep
  · next hlock hproc =>
      cases hstep
      exact h.acquire hsha hlock trivial (by rw [hproc]; rfl)
  · cases hstep

theorem step_selectDirty {rows : List (String × GeneratedFile)} (hsha : Function.Injective v.sha256)
    (h : s.Inv v) (hstep : step v (.selectDirty pid rows) s = some s') : s'.Inv v := by
  simp only [GeneratedContext.step] at hstep
  split at hstep
  · next hproc =>
      split at hstep
      · next hperm =>
          cases hstep
          refine h.setProc hsha (by rw [hproc]; rfl) ⟨fun r hr => ?_, by simp, by simp,
            fun project row hrow hdirty => Or.inl ?_⟩ (by simp [hproc, Process.answers])
          · exact (mem_dirtyRows.mp (hperm.mem_iff.mp hr)).1
          · exact hperm.mem_iff.mpr (mem_dirtyRows.mpr ⟨hrow, hdirty⟩)
      · cases hstep
  · cases hstep

theorem step_readFile (hsha : Function.Injective v.sha256) (h : s.Inv v)
    (hstep : step v (.readFile pid) s = some s') : s'.Inv v := by
  simp only [GeneratedContext.step] at hstep
  split at hstep
  · next project row todo deleted hproc =>
      have hprogress : s.Progress v ((project, row) :: todo) deleted := by
        have hfacts := h.facts pid
        rwa [hproc] at hfacts
      split at hstep
      · next hmatch =>
          cases hstep
          refine h.setProc hsha (by rw [hproc]; rfl) ⟨hprogress, fun bytes hfile => ?_⟩
            (by simp [hproc, Process.answers])
          rw [hfile] at hmatch
          exact Option.some.inj hmatch
      · next hother =>
          cases hstep
          refine h.setProc hsha (by rw [hproc]; rfl) (hprogress.next h ?_)
            (by simp [hproc, Process.answers])
          intro bytes hfile hhash
          exact hother (by rw [hfile, Option.map_some, hhash])
  · cases hstep

theorem step_removeFile (hsha : Function.Injective v.sha256) (h : s.Inv v)
    (hstep : step v (.removeFile pid) s = some s') : s'.Inv v := by
  simp only [GeneratedContext.step] at hstep
  split at hstep
  · next project row todo deleted hproc =>
      split at hstep
      · next bytes hfile =>
          cases hstep
          exact h.removeFile hsha hproc hfile
      · cases hstep
        exact h.release hsha (by rw [hproc]; rfl) rfl (by simp [hproc, Process.answers])
  · cases hstep

theorem step_unregister (hsha : Function.Injective v.sha256) (h : s.Inv v)
    (hstep : step v (.unregister pid) s = some s') : s'.Inv v := by
  simp only [GeneratedContext.step] at hstep
  split at hstep
  · next project row todo deleted hproc =>
      cases hstep
      have hprogress : s.Progress v todo ((project, row) :: deleted) := by
        have hfacts := h.facts pid
        rwa [hproc] at hfacts
      exact h.setProc hsha (by rw [hproc]; rfl) hprogress (by simp [hproc, Process.answers])
  · cases hstep

theorem step_commitInvalidation (h : s.Inv v) (hok : Foreseen v (.commitInvalidation pid) s)
    (hstep : step v (.commitInvalidation pid) s = some s') : s'.Inv v := by
  simp only [GeneratedContext.step] at hstep
  split at hstep
  · next deleted hproc =>
      cases hstep
      exact h.unregister hok hproc
  · cases hstep

theorem step_failInvalidation (hsha : Function.Injective v.sha256) (h : s.Inv v)
    (hstep : step v (.failInvalidation pid) s = some s') : s'.Inv v := by
  simp only [GeneratedContext.step] at hstep
  split at hstep
  · next hproc =>
      cases hstep
      exact h.setProc hsha (by rw [hproc]; rfl) trivial (by simp [hproc, Process.answers])
  · next hproc =>
      cases hstep
      exact h.release hsha (by rw [hproc]; rfl) rfl (by simp [hproc, Process.answers])
  · next todo deleted hproc =>
      cases hstep
      exact h.release hsha (by rw [hproc]; rfl) rfl (by simp [hproc, Process.answers])
  · next project row todo deleted hproc =>
      cases hstep
      exact h.release hsha (by rw [hproc]; rfl) rfl (by simp [hproc, Process.answers])
  · next project row todo deleted hproc =>
      cases hstep
      exact h.release hsha (by rw [hproc]; rfl) rfl (by simp [hproc, Process.answers])
  · cases hstep

theorem step_mutate {k : Nat} (h : s.Inv v) (hstep : step v (.mutate k) s = some s') : s'.Inv v := by
  simp only [GeneratedContext.step] at hstep
  split at hstep
  · next hguard =>
      cases hstep
      exact h.mutate hguard.1 hguard.2
  · cases hstep

end Workspace.Inv

/-- Every action that meets none of the races keeps the invariant. -/
theorem Workspace.Inv.step {a : Action} (hsha : Function.Injective v.sha256) (h : s.Inv v)
    (hok : Foreseen v a s) (hstep : step v a s = some s') : s'.Inv v := by
  cases a with
  | beginPublication pid q => exact h.step_beginPublication hsha hstep
  | checkRevision pid => exact h.step_checkRevision hsha hstep
  | refuse pid => exact h.step_refuse hsha hstep
  | write pid => exact h.step_write hsha hstep
  | register pid => exact h.step_register hsha hstep
  | commitPublication pid => exact h.step_commitPublication hsha hstep
  | failPublication pid => exact h.step_failPublication hsha hok hstep
  | cleanupRead pid => exact h.step_cleanupRead hsha hstep
  | cleanupRemove pid => exact h.step_cleanupRemove hsha hstep
  | countDirty pid => exact h.step_countDirty hsha hok hstep
  | beginInvalidation pid => exact h.step_beginInvalidation hsha hstep
  | selectDirty pid rows => exact h.step_selectDirty hsha hstep
  | readFile pid => exact h.step_readFile hsha hstep
  | removeFile pid => exact h.step_removeFile hsha hstep
  | unregister pid => exact h.step_unregister hsha hstep
  | commitInvalidation pid => exact h.step_commitInvalidation hok hstep
  | failInvalidation pid => exact h.step_failInvalidation hsha hstep
  | mutate k => exact h.step_mutate hstep
  | edit project content =>
      rw [step_edit, Option.some.injEq] at hstep
      exact hstep ▸ h.edit hsha hok

theorem Workspace.Fresh.inv (h : s.Fresh) : s.Inv v := by
  obtain ⟨hrows, hlock, hprocs, hrenderings, hpublished, hremovals⟩ := h
  refine ⟨fun pid hheld => ?_, fun pid => facts_of_free (by rw [hprocs pid]; rfl),
    fun project row hrow => ?_, fun project bytes _ hrendered => ?_, fun _ project row hrow => ?_,
    fun e he => ?_⟩
  · rw [hprocs pid] at hheld
    cases hheld
  · rw [hrows, Std.ExtTreeMap.getElem?_empty] at hrow
    cases hrow
  · rw [hrenderings] at hrendered
    cases hrendered
  · rw [hrows, Std.ExtTreeMap.getElem?_empty] at hrow
    cases hrow
  · rw [hremovals] at he
    cases he

def quiet : Workspace := ⟨0, ∅, ∅, none, fun _ => .idle, [], [], false, []⟩

theorem quiet_fresh : quiet.Fresh := ⟨rfl, rfl, fun _ => rfl, rfl, rfl, rfl⟩

/-- The selection is published. -/
def delivered (v : Renderer) (q : Publication) : Workspace :=
  ((((((quiet.acquire 0 (.checking q)).setProc 0 (.publishing q)).writeFile v q).setProc 0
    (.written q)).setProc 0 (.registered q)).publish v q).release 0 .idle

def outdatedRow (v : Renderer) (q : Publication) : GeneratedFile := ⟨v.sha256 (q.text v), 1⟩

/-- A memory was changed, and an invalidation has read the file and is about to remove it. -/
def reading (v : Renderer) (q : Publication) : Workspace :=
  (((((delivered v q).mutate 1).setProc 1 .counted).acquire 1 .begun).setProc 1
    (.invalidating [(q.project, outdatedRow v q)] [])).setProc 1
      (.removing q.project (outdatedRow v q) [] [])

section Reading

variable (hrevision : q.expectedRevision = 0) (hbudget : q.budget ≤ IRONMEM_FILE_MAX_BYTES)
  (hfull : (renderMemories v.date q.memories q.budget).1 ≠ "")
include hfull

include hrevision hbudget

/-- What a failed publication has written is there when an invalidation returns. -/
theorem failure_left :
    ∃ s, Actions.Reaches (step v) (fun _ _ => True) Workspace.Fresh s ∧ ¬ s.Honest v := by
  let checked := (quiet.acquire 0 (.checking q)).setProc 0 (.publishing q)
  let written : Workspace := { checked with
    files := checked.files.insert q.project (q.text v)
    renderings := checked.renderings ++ [(q.project, q.text v)] }
  let failed := (written.setProc 0 (.written q)).release 0 (.failed q)
  have hchecked : step v (.checkRevision 0) (quiet.acquire 0 (.checking q)) = some checked :=
    if_pos hrevision
  have hwrite : checked.writeFile v q = written :=
    if_neg fun hempty => hfull (String.isEmpty_iff.mp hempty)
  have hwritten : step v (.write 0) checked = some (written.setProc 0 (.written q)) := by
    rw [← hwrite]
    exact if_pos hbudget
  have hfailed : Actions.Reaches (step v) (fun _ _ => True) Workspace.Fresh failed :=
    ((((Actions.Reaches.start quiet_fresh).step (a := Action.beginPublication 0 q) trivial rfl).step
      (a := Action.checkRevision 0) trivial hchecked).step (a := Action.write 0) trivial
        hwritten).step (a := Action.failPublication 0) trivial rfl
  refine ⟨_, hfailed.step (a := Action.countDirty 1) trivial rfl, fun hhonest => ?_⟩
  rcases hhonest.current rfl q.project (q.text v) Std.ExtTreeMap.getElem?_insert_self
    List.mem_cons_self with hpublished | ⟨pid, q', hq', -⟩
  · cases hpublished
  · by_cases hpid : pid = 0
    · rw [hpid] at hq'
      cases hq'
    · simp only [failed, written, checked, Workspace.release, Workspace.setProc, Workspace.acquire,
        Function.update_of_ne hpid] at hq'
      cases hq'

end Reading

end GeneratedContext

end IronMem
