import Mathlib.Order.Basic
import Mathlib.Data.String.Basic

/-!
# Dates

Calendar dates and their form `YYYY-MM-DD`. The form has a fixed width, so that dates
are in the order of their texts.
-/

/-- The days of the months before this one. -/
def Date.daysBefore (year month : Nat) : Nat :=
  let leap := year % 4 == 0 && (year % 100 != 0 || year % 400 == 0)
  ([0, 0, 31, 59, 90, 120, 151, 181, 212, 243, 273, 304, 334, 365].getD month 0)
    + (if leap && 2 < month then 1 else 0)

/-- A date of the Gregorian calendar with a year of four digits. -/
structure Date where
  year : Nat
  month : Nat
  day : Nat
  year_lt : year < 10000
  month_pos : 1 ≤ month
  month_le : month ≤ 12
  day_pos : 1 ≤ day
  day_le : day ≤ Date.daysBefore year (month + 1) - Date.daysBefore year month

namespace Date

/-- Days since 1970-01-01. -/
def dayNumber (d : Date) : Int :=
  let before : Int := d.year - 1
  365 * before + before / 4 - before / 100 + before / 400 + daysBefore d.year d.month + d.day - 719163

/-- A decimal digit. -/
def digit (n : Nat) : Char := Char.ofNat (48 + n % 10)

/-- `YYYY-MM-DD`. -/
def format (d : Date) : String :=
  String.ofList [digit (d.year / 1000), digit (d.year / 100), digit (d.year / 10), digit d.year, '-',
    digit (d.month / 10), digit d.month, '-', digit (d.day / 10), digit d.day]

/-- No later than the other date. -/
def NoLater (a b : Date) : Prop :=
  a.year < b.year ∨ a.year = b.year ∧ (a.month < b.month ∨ a.month = b.month ∧ a.day ≤ b.day)

theorem digit_lt {m n : Nat} : digit m < digit n ↔ m % 10 < n % 10 := by
  have hval : ∀ k < 10, (Char.ofNat (48 + k)).val.toNat = 48 + k := by decide
  rw [Char.lt_def, UInt32.lt_iff_toNat_lt, digit, digit, hval _ (Nat.mod_lt _ (by decide)),
    hval _ (Nat.mod_lt _ (by decide))]
  omega

theorem digit_eq {m n : Nat} : digit m = digit n ↔ m % 10 = n % 10 := by
  have hlt := @digit_lt m n
  have hgt := @digit_lt n m
  constructor
  · intro heq
    rw [heq] at hlt hgt
    have hle : ¬ m % 10 < n % 10 := fun h => lt_irrefl _ (hlt.mpr h)
    have hge : ¬ n % 10 < m % 10 := fun h => lt_irrefl _ (hgt.mpr h)
    omega
  · intro heq
    rw [digit, digit, heq]

theorem day_lt (d : Date) : d.day < 100 := by
  have hmonths : ∀ extra < 2, ∀ m < 13, ([0, 0, 31, 59, 90, 120, 151, 181, 212, 243, 273, 304, 334,
      365].getD (m + 1) 0) + extra ≤ [0, 0, 31, 59, 90, 120, 151, 181, 212, 243, 273, 304, 334,
        365].getD m 0 + 32 := by
    decide
  have hday := d.day_le
  have hmonth := hmonths 0 (by decide) d.month (by have := d.month_le; omega)
  simp only [daysBefore] at hday
  split at hday <;> split at hday <;> omega

/-- The order of the texts is the order of the dates. -/
theorem format_le_iff (a b : Date) : a.format ≤ b.format ↔ a.NoLater b := by
  have ha := a.year_lt
  have hb := b.year_lt
  have hma := a.month_le
  have hmb := b.month_le
  have hda := a.day_lt
  have hdb := b.day_lt
  have hcut : ∀ n : Nat, n / 100 / 10 = n / 1000 ∧ n / 10 / 10 = n / 100 := by omega
  have htop : ∀ n < 10000, n / 1000 / 10 = 0 := by omega
  have hta := htop a.year ha
  have htb := htop b.year hb
  have hya := hcut a.year
  have hyb := hcut b.year
  rw [← not_lt, String.lt_iff_toList_lt, format, format, String.toList_ofList, String.toList_ofList]
  simp only [List.cons_lt_cons_iff, digit_lt, digit_eq, lt_irrefl, false_or, true_and,
    and_false, or_false]
  rw [NoLater]
  omega

end Date
