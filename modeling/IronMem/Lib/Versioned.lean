import Mathlib.Data.List.Range

/-!
# Versioned values

A value that carries its version and is changed by writes which name the version they
were made for. A write goes through only on that version and leaves the next one, so the
writes that went through form one chain: their versions are consecutive, no two of them
had the same, and the value is the first one with all of them applied in order.

That is what an update with an expected version promises to callers who do not know of one
another. `Tracks` is for values that are stored in a form somebody else may damage: a value that
cannot be read takes no write.
-/

namespace Versioned

variable {V P ε : Type}

/-- How a value is versioned and patched. -/
structure Cell (V P ε : Type) where
  version : V → Nat
  patch : P → V → Except ε V

/-- A write that went through: the version it was made for and what it did. -/
structure Write (P : Type) where
  expected : Nat
  patch : P

/-- The writes that led from one value to another. -/
inductive Writes (c : Cell V P ε) : V → List (Write P) → V → Prop
  | nil (v : V) : Writes c v [] v
  | cons {v next last : V} {w : Write P} {ws : List (Write P)} (hexpected : c.version v = w.expected)
      (hpatch : c.patch w.patch v = .ok next) (hnext : c.version next = w.expected + 1)
      (rest : Writes c next ws last) : Writes c v (w :: ws) last

variable {c : Cell V P ε} {v last : V} {ws : List (Write P)}

theorem Writes.version_eq (h : Writes c v ws last) : c.version last = c.version v + ws.length := by
  induction h with
  | nil => rfl
  | cons hexpected hpatch hnext rest ih =>
      rw [ih, hnext, ← hexpected, List.length_cons]
      omega

/-- The versions are consecutive. -/
theorem Writes.expected_eq (h : Writes c v ws last) :
    ws.map Write.expected = List.range' (c.version v) ws.length := by
  induction h with
  | nil => rfl
  | cons hexpected hpatch hnext rest ih =>
      rw [List.map_cons, List.length_cons, List.range'_succ, ih, hnext, hexpected]

/-- The value is the first one with the writes applied in order. -/
theorem Writes.foldlM_eq (h : Writes c v ws last) :
    ws.foldlM (fun v w => c.patch w.patch v) v = .ok last := by
  induction h with
  | nil => rfl
  | cons hexpected hpatch hnext rest ih =>
      rw [List.foldlM_cons, hpatch]
      exact ih

/-- The same for a value that may be unreadable: nothing is written to it then. -/
inductive Tracks (c : Cell V P ε) : Except ε V → List (Write P) → Except ε V → Prop
  | readable {v last : V} {ws : List (Write P)} (h : Writes c v ws last) :
      Tracks c (.ok v) ws (.ok last)
  | unreadable (e : ε) : Tracks c (.error e) [] (.error e)

theorem Tracks.refl (c : Cell V P ε) (x : Except ε V) : Tracks c x [] x := by
  cases x with
  | error e => exact .unreadable e
  | ok v => exact .readable (.nil v)

theorem Tracks.cons {v next : V} {y : Except ε V} {w : Write P} (hexpected : c.version v = w.expected)
    (hpatch : c.patch w.patch v = .ok next) (hnext : c.version next = w.expected + 1)
    (rest : Tracks c (.ok next) ws y) : Tracks c (.ok v) (w :: ws) y := by
  cases rest with
  | readable h => exact .readable (.cons hexpected hpatch hnext h)

theorem Tracks.version_le {v last : V} (h : Tracks c (.ok v) ws (.ok last)) :
    c.version v ≤ c.version last := by
  cases h with
  | readable h =>
      rw [h.version_eq]
      exact Nat.le_add_right ..

theorem Tracks.foldlM_eq {x y : Except ε V} (h : Tracks c x ws y) :
    y = x >>= fun v => ws.foldlM (fun v w => c.patch w.patch v) v := by
  cases h with
  | readable h => exact h.foldlM_eq.symm
  | unreadable e => rfl

theorem Tracks.pairwise {x y : Except ε V} (h : Tracks c x ws y) :
    (ws.map Write.expected).Pairwise (· < ·) := by
  cases h with
  | readable h =>
      rw [h.expected_eq]
      exact List.pairwise_lt_range'
  | unreadable e => exact .nil

end Versioned
