import IronMem.RestoreMerge

/-!
# Rows looked up after a restore

Which row a memory, its metadata and its policy have after a successful restore,
by the id: the row they had, or the one inserted for a row of the checkpoint.

A lookup goes to the first row with an id. The tables have keys, before and after, so
the first row is the only one, and membership in the replaced table is enough. The
lemmas come in two directions: what the checkpoint has is there
(`memoryRow_of_hasMemory`, `metaRow_of_mem`), and what is there was kept or comes from
the checkpoint (`memoryRow_cases`, `metaRow_cases`).
-/

namespace IronMem

open Fallible

/-- The checkpoint has a row for this memory. -/
def State.HasMemory (state : State) (id : Int) : Prop :=
  ∃ m ∈ rowsOf state.tables "memories", m.col "id" = .int id

/-- The checkpoint has a metadata row for this memory. -/
def State.HasMeta (state : State) (id : Int) : Prop :=
  ∃ r ∈ rowsOf state.tables "memory_meta", r.col "memory_id" = .int id

instance (state : State) (id : Int) : Decidable (state.HasMemory id) :=
  inferInstanceAs (Decidable (∃ m ∈ rowsOf state.tables "memories", _))

instance (state : State) (id : Int) : Decidable (state.HasMeta id) :=
  inferInstanceAs (Decidable (∃ r ∈ rowsOf state.tables "memory_meta", _))

theorem mem_memoryIds {db : Database} {project : String} {id : Value} :
    id ∈ db.memoryIds project ↔
      ∃ x ∈ db.table "memories", x.col "rowid" = id ∧ x.col "project" = .str project := by
  simp only [Database.memoryIds, List.mem_map, List.mem_filter, decide_eq_true_eq]
  constructor
  · rintro ⟨x, ⟨hx, hp⟩, hid⟩
    exact ⟨x, hx, hid, hp⟩
  · rintro ⟨x, hx, hid, hp⟩
    exact ⟨x, ⟨hx, hp⟩, hid⟩

theorem mem_memoryIds_iff {db : Database} {project : String} {id : Int} (hkeys : db.Keyed) :
    .int id ∈ db.memoryIds project ↔
      ∃ x, db.memoryRow id = some x ∧ x.col "project" = .str project := by
  simp only [mem_memoryIds, db.memoryRow_eq_some hkeys, and_assoc]

section Lookup

variable {codec : Codec} {args : RestoreArgs} {state current : State} {db db' : Database}
  {tables : BTreeMap Table} {id : Int}

/-! ## Memories -/

/-- A memory of the checkpoint as it is inserted. -/
theorem insertedMemory_col {m x : Record} (hvalid : Validated codec state)
    (hm : m ∈ rowsOf state.tables "memories")
    (hins : InsertedRow codec args "memories" (captureFields "memories") m x) :
    x.col "rowid" = m.col "id" ∧ x.col "project" = .str state.project ∧
      ∀ f ∈ ["session_id", "summary", "tags"], hasType "TEXT" (m.col f) = true →
        x.col f = m.col f := by
  obtain ⟨n, hn, hlo, hhi⟩ := hvalid.memoryId m hm
  have hproject := hvalid.project "memories" (by decide) m hm
  refine ⟨hins.col_eq (by decide) rfl captured_memories.1
    (by decide) ?_, ?_, fun f hf htype => ?_⟩
  · rw [hn, hasType, Bool.and_eq_true, Bool.and_eq_true]
    exact ⟨⟨rfl, decide_eq_true hlo⟩, decide_eq_true hhi⟩
  · rw [← hproject]
    exact hins.col_eq (by decide) rfl (captured_memories.2 "project" (by decide)) (by decide)
      (by rw [hproject]; rfl)
  · have hfield : f ∈ ["project", "session_id", "summary", "tags"] ∧ columnOf "memories" f = f := by
      clear htype
      revert f
      decide
    have hcol := hins.col_eq (by decide) rfl (captured_memories.2 f hfield.1) (by decide) htype
    rwa [hfield.2] at hcol

variable (hkeys : db.Keyed) (hprepared : Prepared codec args state db current tables)
  (hrestored : Restored codec args state db tables db')

include hkeys hrestored

theorem Restored.keyed : db'.Keyed := fun n hn => hrestored.keys n hn (hkeys n hn)

include hprepared

/-- The memories of the checkpoint are there. -/
theorem memoryRow_of_hasMemory (hm : state.HasMemory id) :
    ∃ m ∈ rowsOf state.tables "memories", ∃ x, m.col "id" = .int id ∧
      db'.memoryRow id = some x ∧ x.col "project" = .str state.project ∧
      InsertedRow codec args "memories" (captureFields "memories") m x := by
  obtain ⟨m, hm, hid⟩ := hm
  have hrows := hprepared.rows "memories" (by decide) (by decide) (by decide)
  obtain ⟨x, hx, hins⟩ := hrestored.memories.inserts m (hrows ▸ hm)
  obtain ⟨hrowid, hproject, -⟩ := insertedMemory_col hprepared.valid hm hins
  exact ⟨m, hm, x, hid, (db'.memoryRow_eq_some (hrestored.keyed hkeys)).mpr
    ⟨hx, hrowid.trans hid⟩, hproject, hins⟩

/-- A memory that is there was there in another project, or is the checkpoint's. -/
theorem memoryRow_cases {x : Record} (h : db'.memoryRow id = some x) :
    (db.memoryRow id = some x ∧ x.col "project" ≠ .str state.project) ∨ state.HasMemory id := by
  obtain ⟨hx, hid⟩ := (db'.memoryRow_eq_some (hrestored.keyed hkeys)).mp h
  rcases hrestored.memories.only x hx with ⟨hx, hproject⟩ | ⟨m, hm, hins⟩
  · exact Or.inl ⟨(db.memoryRow_eq_some hkeys).mpr ⟨hx, hid⟩, hproject⟩
  · rw [hprepared.rows "memories" (by decide) (by decide) (by decide)] at hm
    have hrowid := (insertedMemory_col hprepared.valid hm hins).1
    exact Or.inr ⟨m, hm, hrowid.symm.trans hid⟩

/-- A live memory with the id of a checkpoint's is of the same project. -/
theorem project_of_hasMemory {x : Record} (hm : state.HasMemory id)
    (hx : db.memoryRow id = some x) : x.col "project" = .str state.project := by
  by_contra hne
  obtain ⟨-, -, y, -, hy, hproject, -⟩ := memoryRow_of_hasMemory hkeys hprepared hrestored hm
  obtain ⟨hx, hid⟩ := (db.memoryRow_eq_some hkeys).mp hx
  have hx' := (db'.memoryRow_eq_some (hrestored.keyed hkeys)).mpr
    ⟨hrestored.memories.keeps x hx hne, hid⟩
  rw [hx'] at hy
  exact hne (Option.some.inj hy ▸ hproject)

theorem mem_memoryIds_of_hasMemory (hm : state.HasMemory id) :
    .int id ∈ db.memoryIds state.project ↔ (db.memoryRow id).isSome = true := by
  rw [mem_memoryIds_iff hkeys, Option.isSome_iff_exists]
  exact ⟨fun ⟨x, hx, _⟩ => ⟨x, hx⟩,
    fun ⟨x, hx⟩ => ⟨x, hx, project_of_hasMemory hkeys hprepared hrestored hm hx⟩⟩

omit hprepared

/-! ## Metadata and policies -/

theorem metaRow_kept {r : Record} (hr : db.metaRow id = some r)
    (hid : .int id ∉ db.memoryIds state.project) : db'.metaRow id = some r := by
  obtain ⟨hr, hmid⟩ := (db.metaRow_eq_some hkeys).mp hr
  exact (db'.metaRow_eq_some (hrestored.keyed hkeys)).mpr
    ⟨hrestored.metadata.keeps r hr (hmid ▸ hid), hmid⟩

theorem policyRow_kept {p : Record} (hp : db.policyRow id = some p)
    (hid : .int id ∉ db.memoryIds state.project) : db'.policyRow id = some p := by
  obtain ⟨hp, hmid⟩ := (db.policyRow_eq_some hkeys).mp hp
  exact (db'.policyRow_eq_some (hrestored.keyed hkeys)).mpr
    ⟨hrestored.policies.keeps p hp (hmid ▸ hid), hmid⟩

omit hkeys hrestored

/-- The live row a checkpoint row is merged with. -/
theorem liveMeta_eq (hkeys : db.Keyed) (hcaptures : Captures codec db state.project current)
    {row : Record} (hid : row.col "memory_id" = .int id) :
    liveMeta current.tables row = if .int id ∈ db.memoryIds state.project then
      (db.metaRow id).map (captureRow "memory_meta") else none := by
  have hcol : ∀ r : Record, (captureRow "memory_meta" r).col "memory_id" = r.col "memory_id" :=
    fun r => captureRow_col (by decide) (by decide)
  have hmem : ∀ c, c ∈ rowsOf current.tables "memory_meta" ∧ c.col "memory_id" = .int id ↔
      ∃ r, db.metaRow id = some r ∧ .int id ∈ db.memoryIds state.project ∧
        captureRow "memory_meta" r = c := by
    intro c
    rw [hcaptures.mem_rowsOf (by decide)]
    constructor
    · rintro ⟨⟨r, hr, hp, rfl⟩, hc⟩
      rw [hcol] at hc
      refine ⟨r, (db.metaRow_eq_some hkeys).mpr ⟨hr, hc⟩, ?_, rfl⟩
      simpa [Database.inProject_memory_meta, hc] using hp
    · rintro ⟨r, hr, hp, rfl⟩
      obtain ⟨hr, hmid⟩ := (db.metaRow_eq_some hkeys).mp hr
      refine ⟨⟨r, hr, ?_, rfl⟩, (hcol r).trans hmid⟩
      simpa [Database.inProject_memory_meta, hmid] using hp
  unfold liveMeta
  rw [hid]
  cases hfind : (rowsOf current.tables "memory_meta").find? fun r => r.col "memory_id" = .int id with
  | none =>
      rw [List.find?_eq_none] at hfind
      split
      · next hids =>
          cases hr : db.metaRow id with
          | none => rfl
          | some r =>
              obtain ⟨hc, hmid⟩ := (hmem _).mpr ⟨r, hr, hids, rfl⟩
              exact absurd (decide_eq_true hmid) (hfind _ hc)
      · rfl
  | some c =>
      obtain ⟨r, hr, hids, hrc⟩ := (hmem c).mp
        ⟨List.mem_of_find?_eq_some hfind, by simpa using List.find?_some hfind⟩
      rw [if_pos hids, hr, Option.map_some, hrc]

/-- A metadata row of the checkpoint and what it is written as. -/
theorem insertedMeta_col {row row' r : Record} (hvalid : Validated codec state)
    (hrow : row ∈ rowsOf state.tables "memory_meta")
    (hmerged : MergedRow codec db args state current row row')
    (hins : InsertedRow codec args "memory_meta" (captureFields "memory_meta") row' r) :
    ∃ id : Int, row.i64 "memory_id" = some id ∧ row.col "memory_id" = .int id ∧
      r.col "memory_id" = .int id := by
  obtain ⟨m, hm, hmid⟩ := hvalid.owned "memory_meta" (by decide) row hrow
  obtain ⟨id, hid, hlo, hhi⟩ := hvalid.memoryId m hm
  have hrowid : row.col "memory_id" = .int id := hmid.symm.trans hid
  have hi64 : row.i64 "memory_id" = some id := by
    rw [Record.i64, hrowid, Value.asI64_int hlo hhi]
  have hrow' : row'.col "memory_id" = .int id := (hmerged.col hi64 (by decide)).trans hrowid
  have htype : hasType "BIGINT" (row'.col "memory_id") = true :=
    hasType_of_i64 (by rw [Record.i64, hrow', Value.asI64_int hlo hhi])
  have hcol := hins.col_eq (by decide) rfl (captured_bigint _ (by decide)) (by decide) htype
  exact ⟨id, hi64, hrowid, hcol.trans hrow'⟩

/-- A metadata row of the checkpoint is there, merged. -/
theorem metaRow_of_mem (hkeys : db.Keyed)
    (hprepared : Prepared codec args state db current tables)
    (hrestored : Restored codec args state db tables db') {row : Record}
    (hrow : row ∈ rowsOf state.tables "memory_meta") (hid : row.col "memory_id" = .int id) :
    ∃ row' r, row.i64 "memory_id" = some id ∧ MergedRow codec db args state current row row' ∧
      InsertedRow codec args "memory_meta" (captureFields "memory_meta") row' r ∧
      db'.metaRow id = some r := by
  obtain ⟨row', hrow', hmerged⟩ := forall₂_left hprepared.metadata row hrow
  obtain ⟨r, hr, hins⟩ := hrestored.metadata.inserts row' hrow'
  obtain ⟨n, hi64, hn, hmid⟩ := insertedMeta_col hprepared.valid hrow hmerged hins
  obtain rfl : id = n := Value.int.inj (hid.symm.trans hn)
  exact ⟨row', r, hi64, hmerged, hins,
    (db'.metaRow_eq_some (hrestored.keyed hkeys)).mpr ⟨hr, hmid⟩⟩

theorem metaRow_of_hasMeta (hkeys : db.Keyed)
    (hprepared : Prepared codec args state db current tables)
    (hrestored : Restored codec args state db tables db') (hm : state.HasMeta id) :
    ∃ row row' r, row.i64 "memory_id" = some id ∧ row.col "memory_id" = .int id ∧
      MergedRow codec db args state current row row' ∧
      InsertedRow codec args "memory_meta" (captureFields "memory_meta") row' r ∧
      db'.metaRow id = some r := by
  obtain ⟨row, hrow, hid⟩ := hm
  obtain ⟨row', r, hi64, hmerged, hins, hr⟩ := metaRow_of_mem hkeys hprepared hrestored hrow hid
  exact ⟨row, row', r, hi64, hid, hmerged, hins, hr⟩

/-- A metadata row that is there was kept, or comes from the checkpoint. -/
theorem metaRow_cases (hkeys : db.Keyed) (hprepared : Prepared codec args state db current tables)
    (hrestored : Restored codec args state db tables db') {r : Record}
    (h : db'.metaRow id = some r) :
    (db.metaRow id = some r ∧ .int id ∉ db.memoryIds state.project) ∨ state.HasMeta id := by
  obtain ⟨hr, hid⟩ := (db'.metaRow_eq_some (hrestored.keyed hkeys)).mp h
  rcases hrestored.metadata.only r hr with ⟨hr, hkept⟩ | ⟨row', hrow', hins⟩
  · exact Or.inl ⟨(db.metaRow_eq_some hkeys).mpr ⟨hr, hid⟩, hid ▸ hkept⟩
  · obtain ⟨row, hrow, hmerged⟩ := forall₂_right hprepared.metadata row' hrow'
    obtain ⟨n, -, hn, hmid⟩ := insertedMeta_col hprepared.valid hrow hmerged hins
    exact Or.inr ⟨row, hrow, hn.trans (hmid.symm.trans hid)⟩

end Lookup

end IronMem
