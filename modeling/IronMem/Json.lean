import IronMem.Checkpoint
import IronMem.Text

/-!
# Compact JSON of rows

`serde_json::to_string` on a row, concretely: no blanks, keys in map order,
strings escaped. The results of the development hold for any `Codec`; this
printer is what their concrete instances run.
-/

namespace IronMem

/-- The four digits of a `\u00xx` escape. -/
def hexEscape (c : Char) : List Char :=
  let digit (n : Nat) : Char := if n < 10 then Char.ofNat (48 + n) else Char.ofNat (87 + n)
  ['\\', 'u', '0', '0', digit (c.toNat / 16), digit (c.toNat % 16)]

/-- One character inside a JSON string. -/
def escapeChar (c : Char) : List Char :=
  if c = '"' then ['\\', '"']
  else if c = '\\' then ['\\', '\\']
  else if c = '\n' then ['\\', 'n']
  else if c = '\r' then ['\\', 'r']
  else if c = '\t' then ['\\', 't']
  else if c.toNat = 8 then ['\\', 'b']
  else if c.toNat = 12 then ['\\', 'f']
  else if c.toNat < 32 then hexEscape c
  else [c]

/-- A JSON string, as characters. -/
def stringChars (s : String) : List Char := ['"'] ++ s.toList.flatMap escapeChar ++ ['"']

/-- Items between commas. -/
def commaChars : List (List Char) → List Char
  | [] => []
  | [item] => item
  | item :: items => item ++ [','] ++ commaChars items

/-- `to_string` of a list of strings. -/
def jsonStrings (items : List String) : String :=
  String.ofList (['['] ++ commaChars (items.map stringChars) ++ [']'])

def valueChars : Value → List Char
  | .null => ['n', 'u', 'l', 'l']
  | .bool b => if b then ['t', 'r', 'u', 'e'] else ['f', 'a', 'l', 's', 'e']
  | .int n => (toString n).toList
  | .real text => text.toList
  | .str s => stringChars s
  | .nested text => text.toList

def recordChars (r : Record) : List Char :=
  ['\x7b'] ++ commaChars (r.toList.map fun (name, v) => stringChars name ++ [':'] ++ valueChars v)
    ++ ['\x7d']

/-- `to_string` of a row. -/
def jsonRecord (r : Record) : String := String.ofList (recordChars r)

/-- A codec that prints rows as JSON and parses the printed form of the rows it
knows. States print as the list of their rows; hashes are left readable. -/
def jsonCodec (known : List Record) : Codec where
  recordToString := jsonRecord
  recordFromStr := fun s =>
    match known.find? fun r => jsonRecord r == s with
    | some r => .ok r
    | none => .error "expected value"
  stateToVec := fun s => utf8 (s.project ++ String.join (s.tables.toList.map fun (_, t) =>
    String.join (t.rows.map jsonRecord)))
  envelopeToVec := fun e => utf8 e.stateHash
  envelopeFromSlice := fun _ => .error "expected value"
  digest := fun bytes => String.ofList (bytes.map fun b => Char.ofNat b.toNat)
  base64Encode := fun bytes => String.ofList (bytes.map fun b => Char.ofNat b.toNat)
  base64Decode := fun s => .ok (s.toList.map fun c => UInt8.ofNat c.toNat)
  eventFromStr := fun _ => .error "expected value"
  eventToVec := fun e => utf8 e.evidenceHash
  scopeToString := fun s => jsonStrings [s.namespace, s.project, s.subject, s.predicate]
  compressedLen := List.length
  realFromText := id

end IronMem
