/-!
# Strings as the standard library reads them

The character classes and the few string operations the modelled code calls,
over code points: `char::is_whitespace`, `char::is_control`, `str::trim`,
`str::to_ascii_lowercase`.
-/

namespace IronMem

/-- `char::is_whitespace`: the Unicode property `White_Space`. -/
def isWhitespace (c : Char) : Bool :=
  let n := c.toNat
  (9 ≤ n && n ≤ 13) || n == 0x20 || n == 0x85 || n == 0xA0 || n == 0x1680 ||
    (0x2000 ≤ n && n ≤ 0x200A) || n == 0x2028 || n == 0x2029 || n == 0x202F ||
    n == 0x205F || n == 0x3000

/-- `char::is_control`: the category `Cc`. -/
def isControl (c : Char) : Bool :=
  let n := c.toNat
  n ≤ 0x1F || (0x7F ≤ n && n ≤ 0x9F)

/-- `str::trim` on code points. -/
def trimChars (cs : List Char) : List Char :=
  ((cs.dropWhile isWhitespace).reverse.dropWhile isWhitespace).reverse

/-- `str::trim`. -/
def trim (s : String) : String := String.ofList (trimChars s.toList)

/-- `char::to_ascii_lowercase`. -/
def lowerAscii (c : Char) : Char :=
  if 'A' ≤ c ∧ c ≤ 'Z' then Char.ofNat (c.toNat + 32) else c

/-- `str::to_ascii_lowercase`. -/
def toAsciiLowercase (s : String) : String := String.ofList (s.toList.map lowerAscii)

/-- `str::len`: the length in bytes. -/
def byteLen (s : String) : Nat := s.utf8ByteSize

/-- The longest prefix of at most `n` bytes. -/
def bytePrefix : Nat → List Char → List Char
  | _, [] => []
  | n, c :: cs => if c.utf8Size ≤ n then c :: bytePrefix (n - c.utf8Size) cs else []

/-- `safe_truncate`. -/
def safeTruncate (s : String) (maxBytes : Nat) : String :=
  if byteLen s ≤ maxBytes then s
  else String.ofList (bytePrefix maxBytes s.toList) ++ "… [truncated]"

def TRUNCATION_MARKER : String := "… [truncated]"

/-- `truncate_bytes`. -/
def truncateBytes (s : String) (maxBytes : Nat) : String :=
  if byteLen s ≤ maxBytes then s
  else
    let marker := if byteLen TRUNCATION_MARKER ≤ maxBytes then TRUNCATION_MARKER else ""
    String.ofList (bytePrefix (maxBytes - byteLen marker) s.toList) ++ marker

/-- `str::as_bytes`. -/
def utf8 (s : String) : List UInt8 := s.toUTF8.data.toList

end IronMem
