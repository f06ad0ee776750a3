import Mathlib

/-!
# Column values and records

A row of a SQLite table and a row of a checkpoint are the same thing in the
source: `Record = BTreeMap<String, Value>`, the columns by name. Tables that
checkpoints capture are kept in this form on both sides, so that capture and
restore move rows without a second encoding.

`Value` is `serde_json::Value` with its two containers folded into one case:
capture never produces an array or an object, and restore only ever refuses
them.
-/

namespace IronMem

/-- A byte string. -/
abbrev Bytes := List UInt8

/-- `BTreeMap<String, α>`: equal as soon as the lookups agree. -/
abbrev BTreeMap (α : Type) := Std.ExtTreeMap String α compare

/-- A JSON value. A `real` keeps the decimal text it is printed with, `nested`
the text of an array or an object. -/
inductive Value where
  | null
  | bool (b : Bool)
  | int (n : Int)
  | real (text : String)
  | str (s : String)
  | nested (text : String)
deriving DecidableEq, Repr

namespace Value

/-- `Value::as_i64`: numbers above `i64::MAX` and reals have none. -/
def asI64 : Value → Option Int
  | .int n => if -2 ^ 63 ≤ n ∧ n < 2 ^ 63 then some n else none
  | _ => none

/-- `Value::as_str`. -/
def asStr : Value → Option String
  | .str s => some s
  | _ => none

/-- `Value::is_null`. -/
def isNull : Value → Bool
  | .null => true
  | _ => false

/-- `serde_json::json!` of an optional integer. -/
def ofOption : Option Int → Value
  | some n => .int n
  | none => .null

/-- `serde_json::json!` of an optional string. -/
def ofOptionStr : Option String → Value
  | some s => .str s
  | none => .null

@[simp] theorem asStr_str (s : String) : asStr (.str s) = some s := rfl

@[simp] theorem isNull_null : isNull .null = true := rfl

theorem isNull_eq_false {v : Value} : v.isNull = false ↔ v ≠ .null := by
  cases v <;> simp [isNull]

theorem isNull_eq_true {v : Value} : v.isNull = true ↔ v = .null := by
  cases v <;> simp [isNull]

theorem asStr_eq_some {v : Value} {s : String} : v.asStr = some s ↔ v = .str s := by
  cases v <;> simp [asStr]

theorem asI64_eq_some {v : Value} {n : Int} (h : v.asI64 = some n) : v = .int n := by
  cases v <;> simp_all [asI64]

theorem asI64_int {n : Int} (hlo : -2 ^ 63 ≤ n) (hhi : n < 2 ^ 63) :
    asI64 (.int n) = some n := by
  simp only [asI64]
  rw [if_pos ⟨hlo, hhi⟩]

end Value

/-- One row: column name to value. -/
abbrev Record := BTreeMap Value

namespace Record

/-- `row[field]`. Every field that is read this way is a column of the table
(`validate` and the schema check come first), so the default is never seen. -/
def col (r : Record) (field : String) : Value := (r[field]?).getD .null

/-- `row.insert(field, value)`. -/
def set (r : Record) (field : String) (v : Value) : Record := r.insert field v

@[simp] theorem col_set_self (r : Record) (f : String) (v : Value) :
    (r.set f v).col f = v := by
  simp [Record.col, Record.set]

theorem col_set_of_ne (r : Record) {f g : String} (v : Value) (h : f ≠ g) :
    (r.set f v).col g = r.col g := by
  simp [Record.col, Record.set, Std.ExtTreeMap.getElem?_insert, h]

/-- The rewriting form: the two names are literals and `simp` decides them. -/
@[simp] theorem col_set (r : Record) (f g : String) (v : Value) :
    (r.set f v).col g = if f = g then v else r.col g := by
  by_cases h : f = g
  · subst h; simp
  · rw [if_neg h, col_set_of_ne r v h]

end Record

/-- `serde_json::json!` of named values. -/
def jsonObject (fields : List (String × Value)) : Record :=
  fields.foldl (fun r (f, v) => r.set f v) ∅

/-! ## Checks -/

/-- `anyhow::ensure!`. -/
def ensure (c : Bool) (message : String) : Except String Unit :=
  if c then .ok () else .error message

@[simp] theorem ensure_eq_ok {c : Bool} {m : String} {u : Unit} :
    ensure c m = .ok u ↔ c = true := by
  cases c <;> simp [ensure]

end IronMem
