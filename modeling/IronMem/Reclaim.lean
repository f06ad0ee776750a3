import IronMem.Originals

/-!
# Forgotten originals

Collection deletes what has no count left and no row that refers to it, so the bytes
of what is forgotten go away when every call that takes the last referring row also
takes the last count. The calls do not keep that balance: a transcript that is attached
over another one leaves the count of the first behind, a purge takes the rows of
`memory_chunks` and a restore the rows of the project without any count, and the
collection of a delta takes the dependency row that was its parent's only one.

What pins an original comes down to three things (`pinned_iff`): a row that refers to it, a
head, or a delta that was taken over it. The rows of a selection are kept apart from the
listed checkpoints, since a call takes the ones or the others.
-/

namespace IronMem

open Fallible

/-! ## Counts and referring rows -/

namespace Database

variable (db : Database)

/-- The reference count of an original that is stored. -/
def count (hash : String) : Int := ((db.blobs[hash]?).map Blob.refcount).getD 0

/-- One of the rows that `keeps` selects refers to the original. -/
def RowRefers (keeps : String → Record → Bool) (hash : String) : Prop :=
  ∃ source ∈ SOURCE_FIELDS, ∃ r ∈ db.table source.1,
    keeps source.1 r = true ∧ r.text source.2 = some hash

/-- One of the listed checkpoints that `keeps` selects is stored in the original. -/
def Lists (keeps : BrainSnapshot → Bool) (hash : String) : Prop :=
  ∃ s ∈ db.brainSnapshots, keeps s = true ∧ s.blobHash = hash

/-- A row or a listed checkpoint refers to the original. -/
def Refers (hash : String) : Prop :=
  db.RowRefers (fun _ _ => true) hash ∨ db.Lists (fun _ => true) hash

instance (keeps : String → Record → Bool) (hash : String) : Decidable (db.RowRefers keeps hash) :=
  inferInstanceAs (Decidable (∃ source ∈ SOURCE_FIELDS, _))

instance (keeps : BrainSnapshot → Bool) (hash : String) : Decidable (db.Lists keeps hash) :=
  inferInstanceAs (Decidable (∃ s ∈ db.brainSnapshots, _))

instance (hash : String) : Decidable (db.Refers hash) :=
  inferInstanceAs (Decidable (_ ∨ _))

variable {db} {db' : Database} {hash h : String}

theorem RowRefers.refers {keeps : String → Record → Bool} (hr : db.RowRefers keeps hash)
    (htable : ∀ source ∈ SOURCE_FIELDS, ∀ r ∈ db.table source.1, keeps source.1 r = true →
      r.text source.2 = some hash → ∃ r' ∈ db'.table source.1, r'.text source.2 = some hash) :
    db'.Refers hash := by
  obtain ⟨source, hsource, r, hr, hkeep, htext⟩ := hr
  obtain ⟨r', hr', htext'⟩ := htable source hsource r hr hkeep htext
  exact Or.inl ⟨source, hsource, r', hr', rfl, htext'⟩

theorem Lists.refers {keeps : BrainSnapshot → Bool} (hl : db.Lists keeps hash)
    (hsnaps : ∀ s ∈ db.brainSnapshots, keeps s = true → s ∈ db'.brainSnapshots) :
    db'.Refers hash := by
  obtain ⟨s, hs, hkeep, hblob⟩ := hl
  exact Or.inr ⟨s, hsnaps s hs hkeep, rfl, hblob⟩

/-- Nothing that refers to the original is gone. -/
theorem Refers.mono (hr : db.Refers hash)
    (htable : ∀ source ∈ SOURCE_FIELDS, ∀ r ∈ db.table source.1, r ∈ db'.table source.1)
    (hsnaps : ∀ s ∈ db.brainSnapshots, s ∈ db'.brainSnapshots) : db'.Refers hash := by
  rcases hr with hr | hl
  · exact hr.refers fun source hsource r hr _ htext => ⟨r, htable source hsource r hr, htext⟩
  · exact hl.refers fun s hs _ => hsnaps s hs

/-- What pins an original: a referring row, a head, or a delta over it. -/
theorem pinned_iff : db.pinned hash = true ↔ db.Refers hash ∨
    (∃ e ∈ db.checkpointDependencies, e.2 = hash) ∨ ∃ e ∈ db.checkpointHeads.toList, e.2 = hash := by
  simp only [pinned, Bool.or_eq_true, List.any_eq_true, beq_iff_eq, Refers, RowRefers, Lists,
    SOURCE_FIELDS, List.mem_cons, List.not_mem_nil, or_false, exists_eq_or_imp, exists_eq_left,
    true_and, or_assoc]

theorem count_pos_contains (hpos : 0 < db.count hash) : db.blobs.contains hash = true := by
  rw [Std.ExtTreeMap.contains_eq_isSome_getElem?]
  cases hb : db.blobs[hash]? with
  | none => rw [count, hb] at hpos; cases hpos
  | some b => rfl

end Database

section Counts

variable {db : Database} {hash h : String} {blob : Blob}

theorem count_insert : ({ db with blobs := db.blobs.insert hash blob } : Database).count h
    = if h = hash then blob.refcount else db.count h := by
  rw [Database.count, Std.ExtTreeMap.getElem?_insert]
  simp only [compare_eq_iff_eq, eq_comm (a := hash)]
  split <;> rfl

/-- A new row counts one, like the reference added to one that is there. -/
theorem count_insertBlob (hblob : blob.refcount = 1) : (insertBlob hash blob db).count h
    = if h = hash then db.count h + 1 else db.count h := by
  rw [insertBlob, count_insert]
  by_cases heq : h = hash
  · subst heq
    rw [if_pos rfl, if_pos rfl, Database.count]
    cases db.blobs[h]? with
    | none => simp [hblob]
    | some b => rfl
  · rw [if_neg heq, if_neg heq]

theorem count_decrefBlob : (decrefBlob hash db).count h
    = if h = hash ∧ 0 < db.count h then db.count h - 1 else db.count h := by
  unfold decrefBlob
  cases hb : db.blobs[hash]? with
  | none =>
      have hzero : db.count hash = 0 := by rw [Database.count, hb]; rfl
      rw [if_neg]
      rintro ⟨rfl, hpos⟩
      omega
  | some b =>
      have hcount : db.count hash = b.refcount := by rw [Database.count, hb]; rfl
      dsimp only
      split
      · next hpos =>
          rw [count_insert]
          by_cases heq : h = hash
          · subst heq
            rw [if_pos rfl, if_pos ⟨rfl, hcount ▸ hpos⟩, hcount]
          · rw [if_neg heq, if_neg fun hh => heq hh.1]
      · next hpos =>
          rw [if_neg]
          rintro ⟨rfl, hcpos⟩
          omega

end Counts

end IronMem
