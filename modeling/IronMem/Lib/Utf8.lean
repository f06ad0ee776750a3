import Mathlib.Data.List.Basic

/-!
# Reading UTF-8 that may be damaged

A decoder that never fails: a well-formed sequence gives its character, and every longest
piece of a sequence that goes no further gives one replacement character. It reads one byte
at a time, and what it has read of a sequence is its state.

The state holds which bytes may come next, since not every continuation byte may follow
every first byte (overlong forms, surrogates, values beyond the last one). For text that was
encoded the lemmas follow a sequence from its first byte to its last.
-/

namespace Utf8

/-- U+FFFD. -/
def REPLACEMENT : Char := '\uFFFD'

/-- A sequence of which at least one byte is still to come: how many after the next one, the
value so far, and the bytes the next one may be. -/
structure Pending where
  more : Nat
  value : Nat
  low : Nat := 0x80
  high : Nat := 0xBF

/-- The first byte of a sequence. -/
def start (b : UInt8) : List Char × Option Pending :=
  let n := b.toNat
  if n < 0x80 then ([Char.ofNat n], none)
  else if 0xC2 ≤ n ∧ n ≤ 0xDF then ([], some { more := 0, value := n - 0xC0 })
  else if 0xE0 ≤ n ∧ n ≤ 0xEF then
    ([], some {
      more := 1
      value := n - 0xE0
      low := if n = 0xE0 then 0xA0 else 0x80
      high := if n = 0xED then 0x9F else 0xBF })
  else if 0xF0 ≤ n ∧ n ≤ 0xF4 then
    ([], some {
      more := 2
      value := n - 0xF0
      low := if n = 0xF0 then 0x90 else 0x80
      high := if n = 0xF4 then 0x8F else 0xBF })
  else ([REPLACEMENT], none)

/-- A byte that continues a sequence. -/
def Pending.continue (p : Pending) (b : UInt8) : List Char × Option Pending :=
  let value := p.value * 64 + (b.toNat - 0x80)
  if p.more = 0 then ([Char.ofNat value], none)
  else ([], some { more := p.more - 1, value := value })

/-- One byte. A byte that does not continue the sequence starts another. -/
def accept : Option Pending → UInt8 → List Char × Option Pending
  | none, b => start b
  | some p, b =>
      if p.low ≤ b.toNat ∧ b.toNat ≤ p.high then p.continue b
      else (REPLACEMENT :: (start b).1, (start b).2)

def decodeFrom : Option Pending → List UInt8 → List Char
  | none, [] => []
  | some _, [] => [REPLACEMENT]
  | state, b :: bs => (accept state b).1 ++ decodeFrom (accept state b).2 bs

def decode (bytes : List UInt8) : List Char := decodeFrom none bytes

def encode (cs : List Char) : List UInt8 := cs.flatMap String.utf8EncodeChar

/-! ## Well-formed text comes back -/

theorem decodeFrom_cons (state : Option Pending) (b : UInt8) (bs : List UInt8) :
    decodeFrom state (b :: bs) = (accept state b).1 ++ decodeFrom (accept state b).2 bs := by
  cases state <;> rfl

theorem toNat_byte {n : Nat} (h : n < 256) : (UInt8.ofNat n).toNat = n := by
  rw [UInt8.toNat_ofNat']
  exact Nat.mod_eq_of_lt h

/-- The last byte of a sequence. -/
theorem decodeFrom_last {value low high n : Nat} (hlow : low ≤ n) (hhigh : n ≤ high) (hn : n < 256)
    (bs : List UInt8) :
    decodeFrom (some ⟨0, value, low, high⟩) (UInt8.ofNat n :: bs)
      = Char.ofNat (value * 64 + (n - 0x80)) :: decodeFrom none bs := by
  have haccept : accept (some ⟨0, value, low, high⟩) (UInt8.ofNat n)
      = ([Char.ofNat (value * 64 + (n - 0x80))], none) := by
    rw [accept, toNat_byte hn, if_pos ⟨hlow, hhigh⟩, Pending.continue, if_pos rfl, toNat_byte hn]
  rw [decodeFrom_cons, haccept]
  rfl

/-- A byte inside a sequence. -/
theorem decodeFrom_inner {more value low high n : Nat} (hlow : low ≤ n) (hhigh : n ≤ high)
    (hn : n < 256) (bs : List UInt8) :
    decodeFrom (some ⟨more + 1, value, low, high⟩) (UInt8.ofNat n :: bs)
      = decodeFrom (some ⟨more, value * 64 + (n - 0x80), 0x80, 0xBF⟩) bs := by
  have haccept : accept (some ⟨more + 1, value, low, high⟩) (UInt8.ofNat n)
      = ([], some ⟨more, value * 64 + (n - 0x80), 0x80, 0xBF⟩) := by
    rw [accept, toNat_byte hn, if_pos ⟨hlow, hhigh⟩, Pending.continue, if_neg (Nat.succ_ne_zero _),
      toNat_byte hn]
    rfl
  rw [decodeFrom_cons, haccept]
  rfl

/-- The first of several bytes. -/
theorem decodeFrom_start {b : UInt8} {p : Pending} (h : start b = ([], some p)) (bs : List UInt8) :
    decodeFrom none (b :: bs) = decodeFrom (some p) bs := by
  rw [decodeFrom_cons, accept, h]
  rfl

theorem start_two {n : Nat} (hlow : 0xC2 ≤ n) (hhigh : n ≤ 0xDF) :
    start (UInt8.ofNat n) = ([], some { more := 0, value := n - 0xC0 }) := by
  have hn : (UInt8.ofNat n).toNat = n := toNat_byte (by omega)
  rw [start, hn, if_neg (by omega), if_pos ⟨hlow, hhigh⟩]

theorem start_three {n : Nat} (hlow : 0xE0 ≤ n) (hhigh : n ≤ 0xEF) :
    start (UInt8.ofNat n) = ([], some {
      more := 1
      value := n - 0xE0
      low := if n = 0xE0 then 0xA0 else 0x80
      high := if n = 0xED then 0x9F else 0xBF }) := by
  have hn : (UInt8.ofNat n).toNat = n := toNat_byte (by omega)
  rw [start, hn, if_neg (by omega), if_neg (by omega), if_pos ⟨hlow, hhigh⟩]

theorem start_four {n : Nat} (hlow : 0xF0 ≤ n) (hhigh : n ≤ 0xF4) :
    start (UInt8.ofNat n) = ([], some {
      more := 2
      value := n - 0xF0
      low := if n = 0xF0 then 0x90 else 0x80
      high := if n = 0xF4 then 0x8F else 0xBF }) := by
  have hn : (UInt8.ofNat n).toNat = n := toNat_byte (by omega)
  rw [start, hn, if_neg (by omega), if_neg (by omega), if_neg (by omega), if_pos ⟨hlow, hhigh⟩]

theorem decodeFrom_utf8EncodeChar (c : Char) (bs : List UInt8) :
    decodeFrom none (String.utf8EncodeChar c ++ bs) = c :: decodeFrom none bs := by
  have hchar : ∀ n, n = c.val.toNat → Char.ofNat n = c := fun n h => h ▸ Char.ofNat_toNat c
  have hvalid := c.valid
  have hrange : c.val.toNat < 0xD800 ∨ 0xDFFF < c.val.toNat ∧ c.val.toNat < 0x110000 := hvalid
  rw [String.utf8EncodeChar]
  generalize c.val.toNat = v at hchar hrange
  split_ifs with hone htwo hthree
  · have hv : (UInt8.ofNat v).toNat = v := toNat_byte (by omega)
    rw [List.singleton_append, decodeFrom_cons, accept, start, hv, if_pos (by omega), hchar v rfl]
    rfl
  · rw [List.cons_append, List.singleton_append,
      decodeFrom_start (start_two (by omega) (by omega)),
      decodeFrom_last (by omega) (by omega) (by omega), hchar _ (by omega)]
  · have hlow : (if v / 4096 % 16 + 0xe0 = 0xE0 then 0xA0 else 0x80) ≤ v / 64 % 64 + 0x80 := by
      split_ifs <;> omega
    have hhigh : v / 64 % 64 + 0x80 ≤ if v / 4096 % 16 + 0xe0 = 0xED then 0x9F else 0xBF := by
      split_ifs <;> omega
    rw [List.cons_append, List.cons_append, List.singleton_append,
      decodeFrom_start (start_three (by omega) (by omega)),
      decodeFrom_inner hlow hhigh (by omega),
      decodeFrom_last (by omega) (by omega) (by omega), hchar _ (by omega)]
  · have hlow : (if v / 262144 % 8 + 0xf0 = 0xF0 then 0x90 else 0x80) ≤ v / 4096 % 64 + 0x80 := by
      split_ifs <;> omega
    have hhigh : v / 4096 % 64 + 0x80 ≤ if v / 262144 % 8 + 0xf0 = 0xF4 then 0x8F else 0xBF := by
      split_ifs <;> omega
    rw [List.cons_append, List.cons_append, List.cons_append, List.singleton_append,
      decodeFrom_start (start_four (by omega) (by omega)),
      decodeFrom_inner hlow hhigh (by omega),
      decodeFrom_inner (by omega) (by omega) (by omega),
      decodeFrom_last (by omega) (by omega) (by omega), hchar _ (by omega)]

/-- Well-formed bytes are the characters they encode. -/
theorem decode_encode (cs : List Char) : decode (encode cs) = cs := by
  induction cs with
  | nil => rfl
  | cons c cs ih =>
      have hcons : encode (c :: cs) = String.utf8EncodeChar c ++ encode cs := rfl
      rw [decode, hcons, decodeFrom_utf8EncodeChar]
      exact congrArg (c :: ·) ih

end Utf8
