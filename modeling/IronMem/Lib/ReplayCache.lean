import Mathlib

/-!
# Replay caches

A replay cache remembers the tokens it has honoured, each with an expiry. An
attempt at time `now` first drops what has expired (`purge`), then honours its
token unless one with the same key is still remembered (`claim`).

A token is honoured twice exactly when somebody presents it again after its own
row has been dropped. `honoured_nodup_iff` says so for whole runs with a
monotone clock; `Retained` is the invariant behind it: whatever has been
honoured is still remembered or expired before the last purge.
-/

namespace ReplayCache

variable {ρ κ τ : Type} [DecidableEq κ] [LinearOrder τ] (key : ρ → κ) (expires : ρ → τ)

/-! ## Steps -/

/-- Drop the rows that expired before `now`. -/
def purge (now : τ) (rows : List ρ) : List ρ := rows.filter fun r => ¬ expires r < now

/-- Purge, then remember `row` unless its key is remembered already. The flag
says whether it was honoured. -/
def claim (now : τ) (row : ρ) (rows : List ρ) : List ρ × Bool :=
  let kept := purge expires now rows
  if kept.any fun r => key r = key row then (kept, false) else (kept ++ [row], true)

/-- The rows after a sequence of attempts and the tokens honoured on the way, in
order. -/
def run (rows : List ρ) : List (τ × ρ) → List ρ × List ρ
  | [] => (rows, [])
  | (now, row) :: rest =>
      let (rows', ok) := claim key expires now row rows
      let (final, log) := run rows' rest
      (final, if ok then row :: log else log)

/-- The tokens honoured by a sequence of attempts. -/
def honoured (rows : List ρ) (attempts : List (τ × ρ)) : List ρ :=
  (run key expires rows attempts).2

variable {key expires}

theorem mem_purge {now : τ} {rows : List ρ} {r : ρ} :
    r ∈ purge expires now rows ↔ r ∈ rows ∧ now ≤ expires r := by
  simp [purge]

/-- A claim is honoured when no live row has its key. -/
theorem claim_ok_iff {now : τ} {row : ρ} {rows : List ρ} :
    (claim key expires now row rows).2 = true
      ↔ ∀ r ∈ rows, now ≤ expires r → key r ≠ key row := by
  by_cases h : (purge expires now rows).any fun r => key r = key row
  · simp only [claim, h, if_true, Bool.false_eq_true, false_iff]
    obtain ⟨r, hr, hk⟩ := List.any_eq_true.mp h
    obtain ⟨hmem, hnow⟩ := mem_purge.mp hr
    exact fun hall => hall r hmem hnow (by simpa using hk)
  · simp only [claim, h, Bool.false_eq_true, if_false, true_iff]
    intro r hr hnow hk
    exact h (List.any_eq_true.mpr ⟨r, mem_purge.mpr ⟨hr, hnow⟩, by simpa using hk⟩)

/-- After a claim: the unexpired rows, and the row itself if it was honoured. -/
theorem mem_claim_rows {now : τ} {row : ρ} {rows : List ρ} {r : ρ} :
    r ∈ (claim key expires now row rows).1
      ↔ (r ∈ rows ∧ now ≤ expires r)
        ∨ ((claim key expires now row rows).2 = true ∧ r = row) := by
  by_cases h : (purge expires now rows).any fun r => key r = key row
  · simp [claim, h, mem_purge]
  · simp [claim, h, mem_purge]

/-- Attempts in two batches. -/
theorem run_append (rows : List ρ) (xs ys : List (τ × ρ)) :
    run key expires rows (xs ++ ys)
      = ((run key expires (run key expires rows xs).1 ys).1,
          (run key expires rows xs).2 ++ (run key expires (run key expires rows xs).1 ys).2) := by
  induction xs generalizing rows with
  | nil => rfl
  | cons x xs ih =>
      obtain ⟨now, row⟩ := x
      simp only [List.cons_append, run, ih]
      split <;> simp

/-! ## The invariant -/

/-- Every honoured token is remembered, or expired before the last reading. -/
def Retained (expires : ρ → τ) (log rows : List ρ) (clock : τ) : Prop :=
  ∀ h ∈ log, h ∈ rows ∨ expires h < clock

/-- Rows under a key that was honoured are rows that were honoured. -/
def Genuine (key : ρ → κ) (log rows : List ρ) : Prop :=
  ∀ r ∈ rows, ∀ h ∈ log, key h = key r → r ∈ log

variable {log rows : List ρ} {clock now : τ} {row : ρ}

/-- The log after an attempt. -/
def extend (key : ρ → κ) (expires : ρ → τ) (log rows : List ρ) (now : τ) (row : ρ) : List ρ :=
  if (claim key expires now row rows).2 then log ++ [row] else log

theorem Retained.claim (hret : Retained expires log rows clock) (hclock : clock ≤ now) :
    Retained expires (extend key expires log rows now row)
      (claim key expires now row rows).1 now := by
  have hold : ∀ h ∈ log, h ∈ (ReplayCache.claim key expires now row rows).1 ∨ expires h < now := by
    intro h hh
    rcases lt_or_ge (expires h) now with hlt | hge
    · exact Or.inr hlt
    rcases hret h hh with hmem | hlt
    · exact Or.inl (mem_claim_rows.mpr (Or.inl ⟨hmem, hge⟩))
    · exact absurd (lt_of_lt_of_le hlt hclock) (not_lt.mpr hge)
  intro h hh
  unfold extend at hh
  split at hh
  · next hok =>
      rcases List.mem_append.mp hh with hh | hh
      · exact hold h hh
      · exact Or.inl (mem_claim_rows.mpr (Or.inr ⟨hok, List.mem_singleton.mp hh⟩))
  · exact hold h hh

theorem Genuine.claim (hgen : Genuine key log rows) :
    Genuine key (extend key expires log rows now row) (claim key expires now row rows).1 := by
  intro r hr h hh hk
  by_cases hok : (ReplayCache.claim key expires now row rows).2 = true
  · rw [extend, if_pos hok] at hh ⊢
    rcases mem_claim_rows.mp hr with ⟨hold, hnow⟩ | ⟨-, rfl⟩
    · rcases List.mem_append.mp hh with hh | hh
      · exact List.mem_append_left _ (hgen r hold h hh hk)
      · have hrow : h = row := List.mem_singleton.mp hh
        exact absurd (hk.symm.trans (congrArg key hrow)) (claim_ok_iff.mp hok r hold hnow)
    · exact List.mem_append_right _ (List.mem_singleton_self _)
  · rw [extend, if_neg hok] at hh ⊢
    rcases mem_claim_rows.mp hr with ⟨hr, -⟩ | ⟨hok', -⟩
    · exact hgen r hr h hh hk
    · exact absurd hok' hok

/-- The condition of one attempt: a token presented again is presented no later
than it expires. -/
def Fresh (key : ρ → κ) (expires : ρ → τ) (log : List ρ) (now : τ) (row : ρ) : Prop :=
  ∀ h ∈ log, key h = key row → now ≤ expires h

/-- An honoured fresh attempt brings a new key. -/
theorem Fresh.new_key (hfresh : Fresh key expires log now row)
    (hret : Retained expires log rows clock) (hclock : clock ≤ now)
    (hok : (claim key expires now row rows).2 = true) : key row ∉ log.map key := by
  intro hmem
  obtain ⟨h, hh, hk⟩ := List.mem_map.mp hmem
  have hnow := hfresh h hh hk
  rcases hret h hh with hrow | hlt
  · exact claim_ok_iff.mp hok h hrow hnow hk
  · exact absurd (lt_of_lt_of_le hlt hclock) (not_lt.mpr hnow)

/-- While no key has been honoured twice, an attempt that is not fresh is
honoured: its row is gone. -/
theorem claim_ok_of_not_fresh (hnodup : (log.map key).Nodup) (hgen : Genuine key log rows)
    (hstale : ¬ Fresh key expires log now row) :
    (claim key expires now row rows).2 = true ∧ key row ∈ log.map key := by
  simp only [Fresh, not_forall] at hstale
  obtain ⟨h, hh, hk, hnow⟩ := hstale
  refine ⟨claim_ok_iff.mpr fun r hr hrnow hrk => ?_, List.mem_map.mpr ⟨h, hh, hk⟩⟩
  have hrlog : r ∈ log := hgen r hr h hh (hk.trans hrk.symm)
  have : r = h := List.inj_on_of_nodup_map hnodup hrlog hh (hrk.trans hk.symm)
  exact hnow (this ▸ hrnow)

theorem nodup_extend (hnodup : (log.map key).Nodup) (hfresh : Fresh key expires log now row)
    (hret : Retained expires log rows clock) (hclock : clock ≤ now) :
    ((extend key expires log rows now row).map key).Nodup := by
  unfold extend
  split
  · next hok =>
      rw [List.map_append, List.map_singleton]
      exact List.nodup_append.mpr ⟨hnodup, List.nodup_singleton _, fun a ha b hb => by
        obtain rfl := List.mem_singleton.mp hb
        rintro rfl
        exact hfresh.new_key hret hclock hok ha⟩
  · exact hnodup

/-! ## Runs -/

/-- Every attempt of a run is fresh with respect to what was honoured before
it. -/
def AllFresh (key : ρ → κ) (expires : ρ → τ) (log rows : List ρ) : List (τ × ρ) → Prop
  | [] => True
  | (now, row) :: rest =>
      Fresh key expires log now row
        ∧ AllFresh key expires (extend key expires log rows now row)
            (claim key expires now row rows).1 rest

instance decidableFresh (key : ρ → κ) (expires : ρ → τ) (log : List ρ) (now : τ) (row : ρ) :
    Decidable (Fresh key expires log now row) :=
  inferInstanceAs (Decidable (∀ h ∈ log, _))

instance decidableAllFresh (key : ρ → κ) (expires : ρ → τ) :
    (log rows : List ρ) → (attempts : List (τ × ρ)) →
      Decidable (AllFresh key expires log rows attempts)
  | _, _, [] => .isTrue trivial
  | _, _, (_, _) :: rest =>
      @instDecidableAnd _ _ (decidableFresh ..) (decidableAllFresh key expires _ _ rest)

theorem honoured_cons (rest : List (τ × ρ)) :
    log ++ honoured key expires rows ((now, row) :: rest)
      = extend key expires log rows now row
        ++ honoured key expires (claim key expires now row rows).1 rest := by
  cases hok : (claim key expires now row rows).2 with
  | true => simp [honoured, run, extend, hok]
  | false => simp [honoured, run, extend, hok]

/-- From any point of a run on: no key is honoured twice exactly when every
further attempt is fresh. -/
theorem nodup_append_honoured_iff {attempts : List (τ × ρ)} (hnodup : (log.map key).Nodup)
    (hret : Retained expires log rows clock) (hgen : Genuine key log rows)
    (hclock : (attempts.map Prod.fst).Pairwise (· ≤ ·))
    (hstart : ∀ a ∈ attempts, clock ≤ a.1) :
    ((log ++ honoured key expires rows attempts).map key).Nodup
      ↔ AllFresh key expires log rows attempts := by
  induction attempts generalizing log rows clock with
  | nil => simpa [honoured, run, AllFresh] using hnodup
  | cons a rest ih =>
      obtain ⟨now, row⟩ := a
      obtain ⟨hhead, htail⟩ := List.pairwise_cons.mp hclock
      have hnow : clock ≤ now := hstart (now, row) (List.mem_cons_self ..)
      have hrest : ∀ a ∈ rest, now ≤ a.1 := fun a ha => hhead _ (List.mem_map_of_mem ha)
      rw [honoured_cons]
      constructor
      · intro hall
        have hfresh : Fresh key expires log now row := by
          by_contra hstale
          obtain ⟨hok, hmem⟩ := claim_ok_of_not_fresh hnodup hgen hstale
          rw [extend, if_pos hok, List.append_assoc, List.map_append] at hall
          exact (List.nodup_append.mp hall).2.2 _ hmem (key row) (by simp) rfl
        exact ⟨hfresh, (ih (nodup_extend hnodup hfresh hret hnow) (hret.claim hnow) hgen.claim
          htail hrest).mp hall⟩
      · rintro ⟨hfresh, hall⟩
        exact (ih (nodup_extend hnodup hfresh hret hnow) (hret.claim hnow) hgen.claim
          htail hrest).mpr hall

/-- The law of a replay cache: from any stored rows, a run with a monotone clock
honours no key twice exactly when no attempt comes later than the expiry of an
honoured token with its key. -/
theorem honoured_nodup_iff {attempts : List (τ × ρ)}
    (hclock : (attempts.map Prod.fst).Pairwise (· ≤ ·)) :
    ((honoured key expires rows attempts).map key).Nodup
      ↔ AllFresh key expires [] rows attempts := by
  cases attempts with
  | nil => simp [honoured, run, AllFresh]
  | cons a rest =>
      have hstart : ∀ b ∈ a :: rest, a.1 ≤ b.1 := by
        intro b hb
        rcases List.mem_cons.mp hb with rfl | hb
        · exact le_rfl
        · exact (List.pairwise_cons.mp hclock).1 _ (List.mem_map_of_mem hb)
      have hret : Retained expires [] rows a.1 := fun _ h => absurd h List.not_mem_nil
      have hgen : Genuine key [] rows := fun _ _ _ h => absurd h List.not_mem_nil
      have hnil : (([] : List ρ).map key).Nodup := List.nodup_nil
      exact nodup_append_honoured_iff hnil hret hgen hclock hstart

end ReplayCache
