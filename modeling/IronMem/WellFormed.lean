import Mathlib.Data.List.Pairwise
import IronMem.CaptureSpec
import IronMem.Egress

/-!
# Well-formed databases

What SQLite and the migrations guarantee of the captured tables: keys are unique
and columns hold values of their type. The results about restore hold from such a
state.

None of this is an assumption about the code. A lookup by a key finds the one row that has
it (`find_key`), which is how the statements about rows become statements about what a
query reads.
-/

namespace IronMem

/-! ## Keys -/

/-- No two rows of the table share a key. -/
def UniqueKeys (name : String) (rows : List Record) : Prop :=
  ∀ parts ∈ (schema name).unique, rows.Pairwise fun a b => collides parts a b = false

instance (name : String) (rows : List Record) : Decidable (UniqueKeys name rows) :=
  inferInstanceAs (Decidable (∀ parts ∈ (schema name).unique, _))

theorem collides_eq_true {parts : List KeyPart} {a b : Record} :
    collides parts a b = true ↔ ∃ key, keyOf parts a = some key ∧ keyOf parts b = some key := by
  unfold collides
  cases keyOf parts a <;> simp

theorem keyOf_column {key : String} {r : Record} (h : r.col key ≠ .null) :
    keyOf [.column key] r = some [r.col key] := by
  have hnull : (r.col key).isNull = false := Value.isNull_eq_false.mpr h
  simp [keyOf, KeyPart.value, hnull]

/-- Two rows of a table with one value in a key column are one row. -/
theorem eq_of_key {rows : List Record} {key : String} {a b : Record}
    (hu : rows.Pairwise fun a b => collides [.column key] a b = false)
    (ha : a ∈ rows) (hb : b ∈ rows) (hnull : a.col key ≠ .null) (heq : a.col key = b.col key) :
    a = b := by
  by_contra hne
  have hsymm : Std.Symm fun a b => collides [.column key] a b = false := ⟨fun x y hxy => by
    rw [Bool.eq_false_iff, ne_eq, collides_eq_true] at hxy ⊢
    rintro ⟨k, hx, hy⟩
    exact hxy ⟨k, hy, hx⟩⟩
  have hab := hu.forall ha hb hne
  rw [Bool.eq_false_iff] at hab
  exact hab (collides_eq_true.mpr ⟨_, keyOf_column hnull, heq ▸ keyOf_column (heq ▸ hnull)⟩)

/-- Looking a row up by a key column. -/
theorem find_key {rows : List Record} {key : String} {id : Int} {r : Record}
    (hu : rows.Pairwise fun a b => collides [.column key] a b = false) :
    rows.find? (fun r => r.col key = .int id) = some r ↔ r ∈ rows ∧ r.col key = .int id := by
  constructor
  · intro h
    exact ⟨List.mem_of_find?_eq_some h, by simpa using List.find?_some h⟩
  · rintro ⟨hr, hid⟩
    have hsome : (rows.find? fun r => r.col key = .int id).isSome = true :=
      List.find?_isSome.mpr ⟨r, hr, by simp [hid]⟩
    obtain ⟨s, hs⟩ := Option.isSome_iff_exists.mp hsome
    have hsid : s.col key = .int id := by simpa using List.find?_some hs
    rw [hs, eq_of_key hu (List.mem_of_find?_eq_some hs) hr (by simp [hsid]) (hsid.trans hid.symm)]

/-! ## Rows -/

/-- A row holds values of the types of its columns. -/
def TypedRow (name : String) (r : Record) : Prop :=
  ∀ f ∈ captureFields name, hasType f.2 (r.col f.1) = true

instance (name : String) (r : Record) : Decidable (TypedRow name r) :=
  inferInstanceAs (Decidable (∀ f ∈ captureFields name, _))

/-- Every captured table has unique keys. -/
def Database.Keyed (db : Database) : Prop := ∀ n ∈ TABLES, UniqueKeys n (db.table n)

instance (db : Database) : Decidable db.Keyed :=
  inferInstanceAs (Decidable (∀ n ∈ TABLES, _))

/-- The constraints of the captured tables. The key of `memories` is the rowid of
a virtual table, which has no declared types. -/
structure Database.WellFormed (db : Database) : Prop where
  keys : db.Keyed
  types : ∀ n ∈ TABLES, n ≠ "memories" → ∀ r ∈ db.table n, TypedRow n r

instance (db : Database) : Decidable db.WellFormed :=
  decidable_of_iff (db.Keyed ∧
      ∀ n ∈ TABLES, n ≠ "memories" → ∀ r ∈ db.table n, TypedRow n r)
    ⟨fun h => ⟨h.1, h.2⟩, fun h => ⟨h.keys, h.types⟩⟩

/-- As much of it as the policies need. -/
structure Database.PoliciesFormed (db : Database) : Prop where
  keys : db.Keyed
  types : ∀ r ∈ db.table "memory_influence_policy", TypedRow "memory_influence_policy" r

theorem Database.WellFormed.policiesFormed {db : Database} (h : db.WellFormed) :
    db.PoliciesFormed where
  keys := h.keys
  types := h.types _ (by decide) (by decide)

namespace Database

variable {db : Database} {id : Int} {r : Record}

theorem memoryRow_eq_some (h : db.Keyed) :
    db.memoryRow id = some r ↔ r ∈ db.table "memories" ∧ r.col "rowid" = .int id :=
  find_key (h "memories" (by decide) [.column "rowid"] (List.mem_singleton.mpr rfl))

theorem metaRow_eq_some (h : db.Keyed) :
    db.metaRow id = some r ↔ r ∈ db.table "memory_meta" ∧ r.col "memory_id" = .int id :=
  find_key (h "memory_meta" (by decide) [.column "memory_id"] (List.mem_singleton.mpr rfl))

theorem policyRow_eq_some (h : db.Keyed) :
    db.policyRow id = some r ↔
      r ∈ db.table "memory_influence_policy" ∧ r.col "memory_id" = .int id :=
  find_key (h "memory_influence_policy" (by decide) [.column "memory_id"] (List.mem_singleton.mpr rfl))

end Database

end IronMem
