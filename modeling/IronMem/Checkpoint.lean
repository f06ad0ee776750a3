import Mathlib.Data.String.Basic
import IronMem.Assertion
import IronMem.Lib.RowDiff
import IronMem.Value

/-!
# Checkpoint states, deltas and envelopes

The data of `checkpoint.rs` and the two functions that relate full states to
deltas, `difference` and `apply_delta`. Everything `serde_json`, `sha2` and
`base64` do is behind `Codec`; what a result needs of them is a hypothesis of
that result.

A delta lists, table by table, the rows that went and the rows that came, as
multisets: a row that is there twice and goes once is listed once. Sources are
different, since their key is their content: a delta lists the keys that went and
the entries that came.
-/

namespace IronMem

/-- A captured table: column names with their SQL types, and the rows. -/
structure Table where
  fields : List (String × String)
  rows : List Record
deriving DecidableEq

/-- Everything a checkpoint holds of one project. `sources` maps a content hash
to the encoded bytes. -/
structure State where
  project : String
  tables : BTreeMap Table
  sources : BTreeMap String
  auditEvidence : List Record
deriving DecidableEq

/-- What turns one state into the next. -/
structure Delta where
  removed : BTreeMap (List Record)
  added : BTreeMap (List Record)
  sources : BTreeMap String
  removedSources : List String
  auditEvidence : List Record
deriving DecidableEq

/-- The stored form of a checkpoint: a full state, or a delta over a parent. -/
structure Envelope where
  version : Nat
  project : String
  stateHash : String
  parent : Option String
  parentHash : Option String
  depth : Nat
  full : Option State
  delta : Option Delta
deriving DecidableEq

/-- The encoders and decoders the code calls: `serde_json` on rows, states,
envelopes and assertion events, the SHA-256 hex digest, the `base64` standard
engine, the size `zstd` compresses to, SQLite's reading of a decimal text as a
`REAL`, the pieces `FastCDC` cuts and the length of the manifest that lists them. -/
structure Codec where
  recordToString : Record → String
  recordFromStr : String → Except String Record
  stateToVec : State → Bytes
  envelopeToVec : Envelope → Bytes
  envelopeFromSlice : Bytes → Except String Envelope
  digest : Bytes → String
  base64Encode : Bytes → String
  base64Decode : String → Except String Bytes
  eventFromStr : String → Except String Event
  eventToVec : Event → Bytes
  scopeToString : Scope → String
  compressedLen : Bytes → Nat
  realFromText : String → String
  cuts : Bytes → List Bytes := fun bytes => [bytes]
  manifestLen : Bytes → Nat := fun _ => 0

/-- `state_hash`. -/
def Codec.stateHash (codec : Codec) (state : State) : String :=
  codec.digest (codec.stateToVec state)

/-- `sort_by_cached_key(|r| serde_json::to_string(r))`. -/
def Codec.sortRows (codec : Codec) (rows : List Record) : List Record :=
  RowDiff.sortBy codec.recordToString rows

/-- Two maps range over the same keys in the same order (`keys().eq`). -/
def sameKeys {α β : Type} (m : BTreeMap α) (n : BTreeMap β) : Bool := m.keys == n.keys

/-! ## `difference` -/

/-- The rows `old` has in excess of `new`, decoded from their serialized form. -/
def surplusRows (codec : Codec) (old new : List Record) : Except String (List Record) :=
  (RowDiff.surplus (old.map codec.recordToString) (new.map codec.recordToString)).mapM
    codec.recordFromStr

/-- One iteration of the loop over `next.tables`; the pair collects `removed`
and `added`. -/
def differenceTable (codec : Codec) (base : State)
    (acc : BTreeMap (List Record) × BTreeMap (List Record)) (entry : String × Table) :
    Except String (BTreeMap (List Record) × BTreeMap (List Record)) := do
  let (name, table) := entry
  -- the key comparison before the loop makes the lookup succeed
  let old := (base.tables[name]?).getD ⟨[], []⟩
  ensure (table.fields == old.fields) "checkpoint fields differ"
  let deletes ← surplusRows codec old.rows table.rows
  let inserts ← surplusRows codec table.rows old.rows
  return (acc.1.insert name deletes, acc.2.insert name inserts)

/-- `difference`. -/
def difference (codec : Codec) (base next : State) : Except String Delta := do
  ensure (base.project == next.project && sameKeys base.tables next.tables)
    "checkpoint schemas differ"
  let (removed, added) ← next.tables.toList.foldlM (differenceTable codec base) (∅, ∅)
  return {
    removed, added
    sources := next.sources.filter fun h _ => !base.sources.contains h
    removedSources := base.sources.keys.filter fun h => !next.sources.contains h
    auditEvidence := next.auditEvidence }

/-! ## `apply_delta` -/

/-- One iteration of the loop over `base.tables`: take out the removed rows one
by one, append the added ones, restore the canonical order. -/
def applyDeltaTable (codec : Codec) (delta : Delta) (tables : BTreeMap Table)
    (entry : String × Table) : Except String (BTreeMap Table) := do
  let (name, table) := entry
  match RowDiff.eraseEach table.rows ((delta.removed[name]?).getD []) with
  | none => throw "delta removes absent record"
  | some rows =>
      let rows := codec.sortRows (rows ++ (delta.added[name]?).getD [])
      return tables.insert name { table with rows }

/-- Drop one source; it has to be there. -/
def removeSource (sources : BTreeMap String) (hash : String) :
    Except String (BTreeMap String) := do
  ensure (sources.contains hash) "delta removes absent source"
  return sources.erase hash

/-- `apply_delta`. -/
def applyDelta (codec : Codec) (base : State) (delta : Delta) : Except String State := do
  ensure (sameKeys base.tables delta.added && sameKeys base.tables delta.removed)
    "delta table set mismatch"
  let tables ← base.tables.toList.foldlM (applyDeltaTable codec delta) base.tables
  let sources ← delta.removedSources.foldlM removeSource base.sources
  return {
    base with
    tables
    sources := delta.sources.toList.foldl (fun m (h, b) => m.insert h b) sources
    auditEvidence := delta.auditEvidence }

end IronMem
