import IronMem.GraphEdges
import IronMem.Lib.Tiling
import IronMem.Lib.Utf8
import IronMem.LocalExtractor
import IronMem.Remember

/-!
# Transcripts and their chunks

`compress.rs` renders the observations of a session into one transcript and keeps, for
every chunk of the memory, the byte range of the transcript it comes from: a whole section
for an observation, the place of the match for a fact or a procedure that the transcript
holds word for word, else the section that shares most words with it.

Offsets are byte offsets, as in the source, and a slice is taken between two character
boundaries (`byteSlice`). The loops over observations and sections are folds of one
iteration each (`pushSection`, `betterSection`). The chunks of a memory are a list in the order
in which they are inserted; the row ids are drawn by the table.
-/

namespace IronMem

open LocalExtractor (contains wordCount)

/-! ## Sections -/

structure TranscriptSection where
  observationId : Int
  tool : String
  start : Nat
  «end» : Nat
  text : String
deriving DecidableEq, Repr

/-- `&s[start..end]`, both on character boundaries. -/
def byteSlice (s : String) (start stop : Nat) : String :=
  String.ofList ((bytePrefix stop s.toList).drop (bytePrefix start s.toList).length)

/-- The section of an observation that is pushed onto a transcript. -/
def sectionAt (s : String) (o : Observation) : TranscriptSection where
  observationId := o.id
  tool := o.tool
  start := byteLen s
  «end» := byteLen (s ++ o.section)
  text := byteSlice (s ++ o.section) (byteLen s) (byteLen (s ++ o.section))

/-- One iteration: the transcript so far and its sections. -/
def pushSection (acc : String × List TranscriptSection) (o : Observation) :
    String × List TranscriptSection :=
  (acc.1 ++ o.section, acc.2 ++ [sectionAt acc.1 o])

/-- `build_transcript_with_sections`. -/
def buildTranscriptWithSections (observations : List Observation) :
    String × List TranscriptSection :=
  observations.foldl pushSection ("", [])

/-! ## Locating a text -/

/-- `str::find`: the byte offset of the first occurrence. -/
def findBytes (needle : List Char) : List Char → Option Nat
  | [] => if needle = [] then some 0 else none
  | c :: cs =>
      if needle.isPrefixOf (c :: cs) then some 0
      else (findBytes needle cs).map (c.utf8Size + ·)

def STOP_TERMS : List String :=
  ["that", "this", "with", "from", "have", "into", "will", "should", "memory", "session"]

/-- `source_terms`. -/
def sourceTerms (u : Unicode) (text : String) : List String :=
  (((text.toList.splitOnP fun c => !u.isAlphanumeric c).map fun word =>
    toAsciiLowercase (String.ofList word)).filter fun s =>
      decide (4 ≤ s.length) && !STOP_TERMS.contains s).dedup

/-- The terms of a text that a section has too. -/
def sharedTerms (u : Unicode) (text section_ : String) : List String :=
  (sourceTerms u text).filter (sourceTerms u section_).contains

/-- One iteration over the sections: the best overlap so far with its range. -/
def betterSection (u : Unicode) (needle : String) (best : Option (Nat × Nat × Nat))
    (t : TranscriptSection) : Option (Nat × Nat × Nat) :=
  let overlap := (sharedTerms u needle t.text).length
  if 2 ≤ overlap ∧ (best.all fun b => decide (b.1 < overlap)) = true then
    some (overlap, t.start, t.end)
  else best

/-- `best_source_span`. -/
def bestSourceSpan (u : Unicode) (text transcript : String) (sections : List TranscriptSection) :
    Option (Nat × Nat) :=
  let needle := trim text
  let found := if 8 ≤ needle.length then
      findBytes (toAsciiLowercase needle).toList (toAsciiLowercase transcript).toList
    else none
  match found with
  | some start => some (start, start + byteLen needle)
  | none =>
      if sourceTerms u needle = [] then none
      else (sections.foldl (betterSection u needle) none).map Prod.snd

/-! ## The texts of a chunk -/

/-- `split_whitespace`. -/
def splitWhitespace (s : String) : List String :=
  ((s.toList.splitOnP isWhitespace).filter fun w => !w.isEmpty).map String.ofList

def tokenEstimate (s : String) : Int := max ((wordCount s * 4 + 2) / 3) 1

def clipWords (s : String) (maxWords : Nat) : String :=
  let words := splitWhitespace s
  if words.length ≤ maxWords then trim s else String.intercalate " " (words.take maxWords) ++ "..."

/-- `CompressionResult`, what the chunks take from it. -/
structure CompressionResult where
  summary : String
  importance : Nat
  kind : String
  facts : List String
  eventTime : Option String
  procedures : List String

def memoryDensity (result : CompressionResult) : String :=
  if result.kind = "fact" ∨ result.kind = "procedural" ∨ result.kind = "error_solution" ∨
      result.eventTime.isSome ∨ result.facts ≠ [] ∨ result.procedures ≠ [] ∨
      8 ≤ result.importance then "high"
  else if result.kind ∈ ["architecture", "learned_pattern", "project_config", "preference",
      "profile"] ∨ 6 ≤ result.importance then "medium"
  else "low"

def sectionDensity (t : TranscriptSection) (parentDensity : String) : String :=
  let text := toAsciiLowercase t.text
  if ["error", "failed", "panic", "fix", "test result", "commit", "push"].any (contains text) then "high"
  else if parentDensity = "high" ∨ 160 < wordCount t.text then "medium"
  else "low"

def chunkSummary (text density : String) : String :=
  if density = "high" then clipWords text 90
  else if density = "medium" then clipWords text 48
  else clipWords text 24

/-- `trim_start_matches("## ")`. -/
def trimHeadings : List Char → List Char
  | '#' :: '#' :: ' ' :: rest => trimHeadings rest
  | cs => cs

def chunkTitle (pre text : String) : String :=
  let firstLine := ((lines text).find? fun line => !(trim line).isEmpty).getD pre
  let clipped := clipWords (trim (String.ofList (trimHeadings (trim firstLine).toList))) 10
  if clipped.isEmpty then pre else clipped

/-! ## Chunks -/

structure NewMemoryChunk where
  chunkId : String
  project : String
  memoryId : Int
  sessionId : String
  ordinal : Nat
  density : String
  kind : String
  title : String
  summary : String
  sourceHash : Option String := none
  sourceStart : Option Nat := none
  sourceEnd : Option Nat := none
  tokenEstimate : Int

/-- The memory whose chunks are made, and where its transcript is stored. -/
structure SkimArgs where
  memoryId : Int
  project : String
  sessionId : String
  result : CompressionResult
  observations : List Observation
  sourceHash : Option String

namespace SkimArgs

variable (u : Unicode) (args : SkimArgs)

/-- The transcript with its sections, where it was stored. -/
def transcript : Option (String × List TranscriptSection) :=
  if args.sourceHash.isSome ∧ args.observations ≠ [] then
    some (buildTranscriptWithSections args.observations)
  else none

def sections : List TranscriptSection := (args.transcript.map Prod.snd).getD []

def chunkId (suffix : String) : String := "mem:" ++ toString args.memoryId ++ ":" ++ suffix

def overviewChunk : NewMemoryChunk where
  chunkId := args.chunkId "overview"
  project := args.project
  memoryId := args.memoryId
  sessionId := args.sessionId
  ordinal := 0
  density := memoryDensity args.result
  kind := args.result.kind
  title := "Memory overview"
  summary := chunkSummary args.result.summary (memoryDensity args.result)
  tokenEstimate := tokenEstimate args.result.summary

/-- The span of an item, where there is a transcript. -/
def sourceSpan (item : String) : Option (Nat × Nat) :=
  args.transcript.bind fun t => bestSourceSpan u item t.1 t.2

/-- The chunk of a fact or a procedure. -/
def itemChunk (label kind title : String) (first : Nat) (entry : String × Nat) : NewMemoryChunk where
  chunkId := args.chunkId (label ++ ":" ++ toString (entry.2 + 1))
  project := args.project
  memoryId := args.memoryId
  sessionId := args.sessionId
  ordinal := first + entry.2
  density := "high"
  kind := kind
  title := chunkTitle title entry.1
  summary := trim entry.1
  sourceHash := (args.sourceSpan u entry.1).bind fun _ => args.sourceHash
  sourceStart := (args.sourceSpan u entry.1).map Prod.fst
  sourceEnd := (args.sourceSpan u entry.1).map Prod.snd
  tokenEstimate := tokenEstimate entry.1

def factChunk : String × Nat → NewMemoryChunk := args.itemChunk u "fact" "fact" "Fact" 1

def procedureChunk : String × Nat → NewMemoryChunk :=
  args.itemChunk u "procedure" "procedural" "Procedure" (1 + args.result.facts.length)

def observationChunk (entry : TranscriptSection × Nat) : NewMemoryChunk where
  chunkId := args.chunkId ("obs:" ++ toString entry.1.observationId)
  project := args.project
  memoryId := args.memoryId
  sessionId := args.sessionId
  ordinal := 1 + args.result.facts.length + args.result.procedures.length + entry.2
  density := sectionDensity entry.1 (memoryDensity args.result)
  kind := args.result.kind
  title := chunkTitle entry.1.tool entry.1.text ++ " observation " ++ toString entry.1.observationId
  summary := chunkSummary entry.1.text (sectionDensity entry.1 (memoryDensity args.result))
  sourceHash := args.sourceHash
  sourceStart := some entry.1.start
  sourceEnd := some entry.1.end
  tokenEstimate := tokenEstimate entry.1.text

/-- The chunks of `persist_memory_skim`, in order. -/
def chunks : List NewMemoryChunk :=
  args.overviewChunk :: (args.result.facts.zipIdx.map (args.factChunk u) ++
    args.result.procedures.zipIdx.map (args.procedureChunk u) ++
    args.sections.zipIdx.map args.observationChunk)

end SkimArgs

/-! ## Storing them -/

/-- `clamp_chunk_density`. -/
def clampChunkDensity (density : String) : String :=
  (["high", "medium", "low"].find? fun v => v == toAsciiLowercase (trim density)).getD "medium"

/-- The row of a chunk. -/
def NewMemoryChunk.row (c : NewMemoryChunk) (id now : Int) : Record :=
  jsonObject [
    ("id", .int id), ("chunk_id", .str c.chunkId), ("project", .str c.project),
    ("memory_id", .int c.memoryId), ("session_id", .str c.sessionId),
    ("ordinal", .int c.ordinal), ("density", .str (clampChunkDensity c.density)),
    ("kind", .str (clampKind c.kind)), ("title", .str c.title), ("summary", .str c.summary),
    ("source_hash", Value.ofOptionStr c.sourceHash),
    ("source_start", Value.ofOption (c.sourceStart.map Int.ofNat)),
    ("source_end", Value.ofOption (c.sourceEnd.map Int.ofNat)),
    ("token_estimate", .int c.tokenEstimate), ("created_at", .int now)]

/-- The `INSERT` of one chunk; `autoId` is the key `AUTOINCREMENT` draws for a table. -/
def insertMemoryChunk (autoId : List Record → Int) (now : Int) (db : Database)
    (c : NewMemoryChunk) : Except String Database := do
  let row := c.row (autoId (db.table "memory_chunks")) now
  checkRow db "memory_chunks" row
  return db.insertRow "memory_chunks" row

/-- `replace_memory_chunks`. -/
def replaceMemoryChunks (autoId : List Record → Int) (now memoryId : Int)
    (chunks : List NewMemoryChunk) (db : Database) : Except String Database :=
  chunks.foldlM (insertMemoryChunk autoId now)
    (db.deleteRows "memory_chunks" fun r => r.col "memory_id" = .int memoryId)

/-- `persist_memory_skim`. -/
def persistMemorySkim (u : Unicode) (autoId : List Record → Int) (now : Int) (args : SkimArgs)
    (db : Database) : Except String Database :=
  replaceMemoryChunks autoId now args.memoryId (args.chunks u) db

end IronMem
