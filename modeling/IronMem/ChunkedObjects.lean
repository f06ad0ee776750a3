import Mathlib.Data.Nat.Digits.Defs
import IronMem.JsonLossless
import IronMem.Lib.Fallible
import IronMem.Lib.Tiling

/-!
# Chunked objects

The writer and the reader of `ccr/chunked.rs`, byte for byte: an object is cut into
pieces, the pieces are stored compressed under their hashes, and a JSON manifest lists
them. The reader bounds the manifest, its chunk count, every chunk and their sum before
it puts the pieces together; the writer bounds only the object.

The manifest is sealed: it carries the hash of itself without the hash, printed by
`serde_json::to_vec` in the order of the fields, which is why the printing is modelled to
the character. The lengths have the widths of the source, and the sums the reader takes
are checked for overflow as there (`checkedAdd`).
-/

namespace IronMem

namespace Chunked

open Fallible Tiling

/-! ## Constants and records -/

def algorithm : String := "fastcdc-4.0.1-v2020-normalization1-seed0"

def minLen : Nat := 16384

def avgLen : Nat := 65536

def maxLen : Nat := 262144

def maxObject : Nat := 512 * 1024 * 1024

/-- A piece as the manifest lists it. A length is a `usize`, of 64 bits here. -/
structure Chunk where
  hash : String
  length : UInt64
deriving DecidableEq

structure Manifest where
  version : UInt32
  algorithm : String
  min : UInt32
  avg : UInt32
  max : UInt32
  originalHash : String
  originalLength : UInt64
  chunks : List Chunk
deriving DecidableEq

structure Envelope where
  manifest : Manifest
  manifestHash : String
deriving DecidableEq

/-- `db::BlobRow`, as far as the chunked format reads it. -/
structure BlobRow where
  hash : String
  codec : String
  origLen : Int
  compLen : Int
  data : Bytes
  refcount : Int
deriving DecidableEq

/-- The crates behind the format: the SHA-256 digest, the cuts of `FastCDC` with the
three lengths above, `zstd::encode_all`, `zstd::bulk::decompress` and
`serde_json::from_slice`. -/
structure Crates where
  sha256 : Bytes → Bytes
  cuts : Bytes → List Cut
  compress : Bytes → Except String Bytes
  decompress : Bytes → Nat → Except String Bytes
  fromSlice : Bytes → Except String Envelope

/-! ## `serde_json::to_vec` -/

/-- One member of an object. -/
def memberChars (name : String) (value : List Char) : List Char :=
  stringChars name ++ [':'] ++ value

/-- An object: its members in the order of the fields. -/
def objectChars (members : List (List Char)) : List Char :=
  ['\x7b'] ++ commaChars members ++ ['\x7d']

def numberChars (n : Nat) : List Char := valueChars (.int n)

def Chunk.chars (k : Chunk) : List Char :=
  objectChars [memberChars "hash" (stringChars k.hash), memberChars "length" (numberChars k.length.toNat)]

def Manifest.chars (m : Manifest) : List Char :=
  objectChars [
    memberChars "version" (numberChars m.version.toNat),
    memberChars "algorithm" (stringChars m.algorithm),
    memberChars "min" (numberChars m.min.toNat),
    memberChars "avg" (numberChars m.avg.toNat),
    memberChars "max" (numberChars m.max.toNat),
    memberChars "original_hash" (stringChars m.originalHash),
    memberChars "original_length" (numberChars m.originalLength.toNat),
    memberChars "chunks" (['['] ++ commaChars (m.chunks.map Chunk.chars) ++ [']'])]

def Envelope.chars (e : Envelope) : List Char :=
  objectChars [
    memberChars "manifest" e.manifest.chars,
    memberChars "manifest_hash" (stringChars e.manifestHash)]

def toVec (chars : List Char) : Bytes := utf8 (String.ofList chars)

/-! ## Hashes -/

/-- One byte as `{b:02x}`. -/
def hexByte (b : UInt8) : List Char := [Nat.digitChar (b.toNat / 16), Nat.digitChar (b.toNat % 16)]

/-- `hex`. -/
def hex (bytes : Bytes) : String := String.ofList (bytes.flatMap hexByte)

/-- `sha256_hex`. -/
def Crates.sha256Hex (c : Crates) (bytes : Bytes) : String := hex (c.sha256 bytes)

/-- `u8::is_ascii_hexdigit`. -/
def isAsciiHexdigit (b : UInt8) : Bool :=
  let n := b.toNat
  (48 ≤ n && n ≤ 57) || (65 ≤ n && n ≤ 70) || (97 ≤ n && n ≤ 102)

/-! ## The writer -/

/-- One iteration of the loop over the cuts; the pair collects `chunks` and `unique`. -/
def encodeCut (c : Crates) (bytes : Bytes) (acc : List Chunk × BTreeMap Bytes) (cut : Cut) :
    Except String (List Chunk × BTreeMap Bytes) := do
  let original := cut.slice bytes
  let hash := c.sha256Hex original
  let chunks := acc.1 ++ [⟨hash, .ofNat original.length⟩]
  if acc.2.contains hash then return (chunks, acc.2)
  let data ← c.compress original
  return (chunks, acc.2.insert hash data)

/-- The manifest of an object cut into these chunks. -/
def Crates.manifest (c : Crates) (bytes : Bytes) (chunks : List Chunk) : Manifest where
  version := 1
  algorithm := algorithm
  min := .ofNat minLen
  avg := .ofNat avgLen
  max := .ofNat maxLen
  originalHash := c.sha256Hex bytes
  originalLength := .ofNat bytes.length
  chunks := chunks

/-- The manifest with its own hash. -/
def Crates.seal (c : Crates) (m : Manifest) : Envelope := ⟨m, c.sha256Hex (toVec m.chars)⟩

/-- `encode`. -/
def encode (c : Crates) (bytes : Bytes) : Except String (Bytes × BTreeMap Bytes) := do
  ensure (decide (bytes.length ≤ maxObject)) "CCR chunked object exceeds 512 MiB safety limit"
  let (chunks, unique) ← (c.cuts bytes).foldlM (encodeCut c bytes) ([], ∅)
  return (toVec (c.seal (c.manifest bytes chunks)).chars, unique)

/-- The tables of the format. The foreign keys are kept by the calls. -/
structure Tables where
  blobs : BTreeMap BlobRow
  ccrChunks : BTreeMap Bytes
  ccrObjectChunks : List (String × String)

/-- One chunk and its ownership edge; a chunk that is there already is shared. -/
def publishChunk (object : String) (t : Tables) (entry : String × Bytes) : Except String Tables := do
  ensure (!t.ccrObjectChunks.contains (object, entry.1))
    "UNIQUE constraint failed: ccr_object_chunks.object_hash, ccr_object_chunks.chunk_hash"
  return { t with
    ccrChunks := t.ccrChunks.insertIfNew entry.1 entry.2
    ccrObjectChunks := t.ccrObjectChunks ++ [(object, entry.1)] }

/-- The row of a new object. -/
def Crates.objectRow (c : Crates) (bytes data : Bytes) : BlobRow where
  hash := c.sha256Hex bytes
  codec := "fastcdc-v1"
  origLen := bytes.length
  compLen := data.length
  data := data
  refcount := 1

/-- `store`: publication and ownership commit together, an object that is there keeps
its format. -/
def store (c : Crates) (bytes : Bytes) (t : Tables) : Except String Tables := do
  let (data, unique) ← encode c bytes
  let hash := c.sha256Hex bytes
  match t.blobs[hash]? with
  | some row => return { t with blobs := t.blobs.insert hash { row with refcount := row.refcount + 1 } }
  | none =>
      unique.toList.foldlM (publishChunk hash)
        { t with blobs := t.blobs.insert hash (c.objectRow bytes data) }

/-! ## The reader -/

/-- `usize::checked_add`. -/
def checkedAdd (a b : Nat) : Option Nat := if a + b < 2 ^ 64 then some (a + b) else none

/-- One iteration of the loop of `decode` over the chunks. -/
def checkChunk (total : Nat) (k : Chunk) : Except String Nat := do
  ensure (byteLen k.hash == 64 && (utf8 k.hash).all isAsciiHexdigit
    && decide (0 < k.length.toNat) && decide (k.length.toNat ≤ maxLen)) "invalid CCR chunk"
  match checkedAdd total k.length.toNat with
  | none => throw "CCR length overflow"
  | some total => return total

/-- `decode`. -/
def decode (c : Crates) (row : BlobRow) : Except String Manifest := do
  ensure (decide (row.data.length ≤ 8 * 1024 * 1024)) "oversized CCR manifest"
  let envelope ← c.fromSlice row.data
  let m := envelope.manifest
  ensure (c.sha256Hex (toVec m.chars) == envelope.manifestHash) "CCR manifest hash mismatch"
  ensure (m.version == 1 && m.algorithm == algorithm && m.min == .ofNat minLen
    && m.avg == .ofNat avgLen && m.max == .ofNat maxLen) "unsupported CCR chunk format"
  ensure (m.originalHash == row.hash && decide (m.originalLength.toNat ≤ maxObject)
    && row.origLen == Int.bmod m.originalLength.toNat (2 ^ 64)) "CCR object identity mismatch"
  ensure (decide (m.chunks.length ≤ maxObject / minLen + 1)) "too many CCR chunks"
  let total ← m.chunks.foldlM checkChunk 0
  ensure (total == m.originalLength.toNat) "CCR manifest length mismatch"
  return m

/-- The chunks an object owns, by hash. -/
def Tables.owned (t : Tables) (object : String) : BTreeMap Bytes :=
  t.ccrChunks.filter fun hash _ => t.ccrObjectChunks.contains (object, hash)

/-- One iteration of the loop of `load`: fetch, decompress, re-hash, append. -/
def loadChunk (c : Crates) (compressed : BTreeMap Bytes) (original : Bytes) (k : Chunk) :
    Except String Bytes :=
  match compressed[k.hash]? with
  | none => .error ("missing CCR chunk " ++ k.hash)
  | some data => do
      let chunk ← c.decompress data k.length.toNat
      ensure (chunk.length == k.length.toNat && c.sha256Hex chunk == k.hash) "CCR chunk integrity mismatch"
      return original ++ chunk

/-- `load`. -/
def load (c : Crates) (t : Tables) (row : BlobRow) : Except String Bytes := do
  let manifest ← decode c row
  let original ← manifest.chunks.foldlM (loadChunk c (t.owned row.hash)) []
  ensure (original.length == manifest.originalLength.toNat && c.sha256Hex original == row.hash)
    "CCR original integrity mismatch"
  return original

end Chunked

end IronMem
