import Mathlib.Algebra.BigOperators.Group.List.Basic
import Mathlib.Algebra.Ring.Nat
import IronMem.Text

/-!
# Bytes and lines

Byte lengths, byte prefixes and lines of strings, character by character.

Rust measures and cuts strings in bytes and refuses a cut inside a character. The lemmas
relate the three views of one text that the modules above use: its characters, its bytes and
its lines.
-/

namespace IronMem

/-- The bytes of some characters. -/
def utf8Len (cs : List Char) : Nat := (cs.map Char.utf8Size).sum

@[simp] theorem utf8Len_nil : utf8Len [] = 0 := rfl

@[simp] theorem utf8Len_cons (c : Char) (cs : List Char) :
    utf8Len (c :: cs) = c.utf8Size + utf8Len cs := rfl

@[simp] theorem utf8Len_append (a b : List Char) : utf8Len (a ++ b) = utf8Len a + utf8Len b := by
  rw [utf8Len, List.map_append, List.sum_append]
  rfl

theorem byteLen_ofList (cs : List Char) : byteLen (String.ofList cs) = utf8Len cs := by
  unfold byteLen
  induction cs with
  | nil => rfl
  | cons c cs ih =>
      rw [← List.singleton_append, String.ofList_append, String.utf8ByteSize_append, ih,
        ← String.singleton_eq_ofList, String.utf8ByteSize_singleton]
      rfl

theorem byteLen_eq (s : String) : byteLen s = utf8Len s.toList := by
  rw [← byteLen_ofList, String.ofList_toList]

theorem byteLen_append (a b : String) : byteLen (a ++ b) = byteLen a + byteLen b :=
  String.utf8ByteSize_append

/-! ## Prefixes -/

theorem bytePrefix_isPrefix (n : Nat) (cs : List Char) : bytePrefix n cs <+: cs := by
  induction cs generalizing n with
  | nil => exact List.nil_prefix
  | cons c cs ih =>
      rw [bytePrefix]
      split
      · exact (List.prefix_cons_inj c).mpr (ih _)
      · exact List.nil_prefix

theorem utf8Len_bytePrefix (n : Nat) (cs : List Char) : utf8Len (bytePrefix n cs) ≤ n := by
  induction cs generalizing n with
  | nil => exact Nat.zero_le n
  | cons c cs ih =>
      rw [bytePrefix]
      split
      · have hrest := ih (n - c.utf8Size)
        rw [utf8Len_cons]
        omega
      · exact Nat.zero_le n

theorem bytePrefix_mono {m n : Nat} (h : m ≤ n) (cs : List Char) :
    bytePrefix m cs <+: bytePrefix n cs := by
  induction cs generalizing m n with
  | nil => exact List.nil_prefix
  | cons c cs ih =>
      rw [bytePrefix, bytePrefix]
      by_cases hm : c.utf8Size ≤ m
      · rw [if_pos hm, if_pos (Nat.le_trans hm h), List.prefix_cons_inj]
        exact ih (Nat.sub_le_sub_right h _)
      · rw [if_neg hm]
        exact List.nil_prefix

theorem byteLen_marker : byteLen TRUNCATION_MARKER = 15 := by
  rw [byteLen_eq]
  decide +kernel

/-- A truncated text, character by character. -/
theorem toList_truncateBytes (s : String) (k : Nat) :
    (truncateBytes s k).toList = if utf8Len s.toList ≤ k then s.toList
      else if 15 ≤ k then bytePrefix (k - 15) s.toList ++ TRUNCATION_MARKER.toList
      else bytePrefix k s.toList := by
  have hempty : byteLen "" = 0 := rfl
  rw [truncateBytes, byteLen_eq s, byteLen_marker]
  split
  · rfl
  · split
    · rw [String.toList_append, String.toList_ofList, byteLen_marker]
    · rw [String.toList_append, String.toList_ofList, hempty, Nat.sub_zero]
      simp

/-! ## Lines -/

/-- The lines of `str::lines`, with the current line backwards. -/
def linesFrom : List Char → List Char → List String
  | [], [] => []
  | [], c :: current => [String.ofList (c :: current).reverse]
  | c :: cs, current =>
      if c = '\n' then
        String.ofList (if current.head? = some '\r' then current.tail else current).reverse ::
          linesFrom cs []
      else linesFrom cs (c :: current)

def lines (text : String) : List String := linesFrom text.toList []

end IronMem
