import Mathlib.Data.Option.Basic
import Mathlib.Data.List.Basic

/-!
# URL-safe base64 without padding

Three bytes are four characters; one or two bytes that are left over are two or three. The
decoder refuses characters outside the alphabet and bits that no byte accounts for.
-/

namespace Base64

/-- The character of a value below 64. -/
def symbol (n : Nat) : Char :=
  if n < 26 then Char.ofNat (n + 65)
  else if n < 52 then Char.ofNat (n + 71)
  else if n < 62 then Char.ofNat (n - 4)
  else if n = 62 then '-'
  else '_'

/-- The value of a character of the alphabet. -/
def value? (c : Char) : Option Nat :=
  let n := c.toNat
  if 65 ≤ n ∧ n ≤ 90 then some (n - 65)
  else if 97 ≤ n ∧ n ≤ 122 then some (n - 71)
  else if 48 ≤ n ∧ n ≤ 57 then some (n + 4)
  else if n = 45 then some 62
  else if n = 95 then some 63
  else none

theorem value?_symbol {n : Nat} (h : n < 64) : value? (symbol n) = some n := by
  revert n
  decide

theorem symbol_ne_dot (n : Nat) : symbol n ≠ '.' := by
  have hsmall : ∀ n < 62, symbol n ≠ '.' := by decide
  by_cases h : n < 62
  · exact hsmall n h
  · unfold symbol
    rw [if_neg (by omega), if_neg (by omega), if_neg h]
    split <;> decide

def encode : List UInt8 → List Char
  | [] => []
  | [a] => [symbol (a.toNat / 4), symbol (a.toNat % 4 * 16)]
  | [a, b] =>
      [symbol (a.toNat / 4), symbol (a.toNat % 4 * 16 + b.toNat / 16), symbol (b.toNat % 16 * 4)]
  | a :: b :: c :: rest =>
      symbol (a.toNat / 4) :: symbol (a.toNat % 4 * 16 + b.toNat / 16) ::
        symbol (b.toNat % 16 * 4 + c.toNat / 64) :: symbol (c.toNat % 64) :: encode rest

def decode : List Char → Option (List UInt8)
  | [] => some []
  | [_] => none
  | [p, q] => do
      let p ← value? p
      let q ← value? q
      guard (q % 16 = 0)
      return [UInt8.ofNat (p * 4 + q / 16)]
  | [p, q, r] => do
      let p ← value? p
      let q ← value? q
      let r ← value? r
      guard (r % 4 = 0)
      return [UInt8.ofNat (p * 4 + q / 16), UInt8.ofNat (q % 16 * 16 + r / 4)]
  | p :: q :: r :: s :: rest => do
      let p ← value? p
      let q ← value? q
      let r ← value? r
      let s ← value? s
      let bytes ← decode rest
      return UInt8.ofNat (p * 4 + q / 16) :: UInt8.ofNat (q % 16 * 16 + r / 4) ::
        UInt8.ofNat (r % 4 * 64 + s) :: bytes

theorem ofNat_eq {n : Nat} {a : UInt8} (h : n = a.toNat) : UInt8.ofNat n = a := by
  rw [h, UInt8.ofNat_toNat]

theorem decode_encode (bytes : List UInt8) : decode (encode bytes) = some bytes := by
  induction bytes using encode.induct with
  | case1 => rfl
  | case2 a =>
      have ha := a.toNat_lt
      have hq : (guard (a.toNat % 4 * 16 % 16 = 0) : Option Unit) = some () :=
        if_pos (by omega)
      rw [encode, decode, value?_symbol (by omega), value?_symbol (by omega)]
      simp only [Option.bind_eq_bind, Option.bind_some, hq, Option.pure_def]
      rw [ofNat_eq (a := a) (by omega)]
  | case3 a b =>
      have ha := a.toNat_lt
      have hb := b.toNat_lt
      have hr : (guard (b.toNat % 16 * 4 % 4 = 0) : Option Unit) = some () :=
        if_pos (by omega)
      rw [encode, decode, value?_symbol (by omega), value?_symbol (by omega), value?_symbol (by omega)]
      simp only [Option.bind_eq_bind, Option.bind_some, hr, Option.pure_def]
      rw [ofNat_eq (a := a) (by omega), ofNat_eq (a := b) (by omega)]
  | case4 a b c rest ih =>
      have ha := a.toNat_lt
      have hb := b.toNat_lt
      have hc := c.toNat_lt
      rw [encode, decode, value?_symbol (by omega), value?_symbol (by omega), value?_symbol (by omega),
        value?_symbol (by omega), ih]
      simp only [Option.bind_eq_bind, Option.bind_some, Option.pure_def]
      rw [ofNat_eq (a := a) (by omega), ofNat_eq (a := b) (by omega), ofNat_eq (a := c) (by omega)]

theorem dot_notMem_encode (bytes : List UInt8) : '.' ∉ encode bytes := by
  have hne : ∀ n, '.' ≠ symbol n := fun n => (symbol_ne_dot n).symm
  induction bytes using encode.induct with
  | case1 => exact List.not_mem_nil
  | case2 a => simp [encode, hne]
  | case3 a b => simp [encode, hne]
  | case4 a b c rest ih => simp [encode, hne, ih]

end Base64
