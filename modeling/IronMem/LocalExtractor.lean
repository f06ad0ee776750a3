import IronMem.ByteText
import IronMem.Lib.Collected
import IronMem.Originals

/-!
# Local extraction

`local_extractor::extract` mines facts and procedures from observations: explicit markers,
commands that succeeded, files that were edited and sentences of natural language. Each
goes through one bounded, duplicate-free push.

The source pushes as it goes. Here an observation offers a list of values (`offers`), each
for one of the lists, and the loop pushes them in that order; this separates what an
observation says from what the lists still take. Only commands and paths are searched for
secrets with the case ignored, as in the source.
-/

namespace IronMem.LocalExtractor

def MAX_ITEMS : Nat := 96
def MAX_ITEM_BYTES : Nat := 600

/-! ## Strings -/

/-- `str::contains`. -/
def contains (text needle : String) : Bool := decide (needle.toList <:+: text.toList)

/-- `str::trim_end_matches` on code points. -/
def trimEndMatches (p : Char → Bool) (cs : List Char) : List Char := (cs.reverse.dropWhile p).reverse

/-- `str::trim_matches`. -/
def trimMatches (p : Char → Bool) (s : String) : String :=
  String.ofList (trimEndMatches p (s.toList.dropWhile p))

/-- `strip_prefix_ascii_case`. -/
def stripPrefixAsciiCase (text pre : String) : Option String :=
  let head := text.toList.take pre.length
  if head.map lowerAscii = pre.toList.map lowerAscii then
    let value := trim (String.ofList (text.toList.drop pre.length))
    if value.isEmpty then none else some value
  else none

/-- `contains_secret_signal`. -/
def containsSecretSignal (text : String) : Bool :=
  ["api_key", "token=", "password=", "secret="].any (contains (toAsciiLowercase text))

/-! ## Items -/

/-- A list of items and the keys that were seen. -/
structure Items where
  items : List String := []
  seen : List String := []
  tracks : seen = items.map toAsciiLowercase

def Items.none : Items := ⟨[], [], rfl⟩

/-- The value that `push_unique` pushes. -/
def tidied (value : String) : String :=
  trim (String.ofList (trimEndMatches (· == ',') (trim value).toList))

/-- `push_unique`. -/
def Items.pushUnique (t : Items) (value : String) : Items :=
  if (tidied value).isEmpty || decide (MAX_ITEM_BYTES < byteLen (tidied value)) ||
      decide (MAX_ITEMS ≤ t.items.length) || t.seen.contains (toAsciiLowercase (tidied value)) then t
  else
    { items := t.items ++ [tidied value]
      seen := t.seen ++ [toAsciiLowercase (tidied value)]
      tracks := by rw [t.tracks, List.map_append]; rfl }

/-- The two lists. -/
structure LocalExtraction where
  facts : Items := .none
  procedures : Items := .none

inductive Slot where
  | fact | procedure
deriving DecidableEq, Repr

/-- A value for one of the lists. -/
structure Offer where
  slot : Slot
  value : String
deriving DecidableEq, Repr

def LocalExtraction.push (e : LocalExtraction) (o : Offer) : LocalExtraction :=
  match o.slot with
  | .fact => { e with facts := e.facts.pushUnique o.value }
  | .procedure => { e with procedures := e.procedures.pushUnique o.value }

/-! ## What an observation offers -/

/-- The line without its bullet. -/
def markerLine (line : String) : String :=
  trim (String.ofList ((trim line).toList.dropWhile fun c => c == '-' || c == '*'))

def lineMarkers (line : String) : List Offer :=
  (["FACT:", "MEMORY:"].filterMap fun pre =>
    (stripPrefixAsciiCase (markerLine line) pre).map (Offer.mk .fact)) ++
  ["PROCEDURE:", "RULE:"].filterMap fun pre =>
    (stripPrefixAsciiCase (markerLine line) pre).map (Offer.mk .procedure)

/-- `extract_markers`. -/
def extractMarkers (text : String) : List Offer := (lines text).flatMap lineMarkers

def isQuoteOrBracket (c : Char) : Bool := ['"', '\'', '[', ']', '\x7b', '\x7d', ','].contains c

def wordCount (text : String) : Nat :=
  ((text.toList.splitOnP isWhitespace).filter fun w => !w.isEmpty).length

/-- `is_safe_sentence`. -/
def isSafeSentence (text : String) : Bool :=
  decide (4 ≤ wordCount text) && decide (wordCount text ≤ 80) &&
    decide (byteLen text ≤ MAX_ITEM_BYTES) &&
    !(text.toList.head?.any fun c => ['$', '#', '<'].contains c) &&
    !contains text "-----BEGIN" && !contains text "api_key" && !contains text "token=" &&
    !contains text "password=" &&
    decide ((text.toList.countP fun c => c == '\x7b' || c == '\x7d') ≤ 2)

/-- What a line of natural language says. -/
def sentenceOffer (raw : String) : Option Offer :=
  let sentence := trimMatches isQuoteOrBracket (trim raw)
  let lower := toAsciiLowercase sentence
  if !isSafeSentence sentence then none
  else if [" must ", " should ", " always ", " never ", " do not "].any
      (contains (" " ++ lower ++ " ")) then some ⟨.procedure, sentence⟩
  else if ["decided", "implemented", "completed", "fixed", "configured", "deployed", "verified",
      "approved", "requires", "uses ", "agreed"].any (contains lower) then some ⟨.fact, sentence⟩
  else none

/-- `extract_signal_sentences`. -/
def extractSignalSentences (text : String) : List Offer :=
  (text.toList.splitOnP fun c => c == '\n' || c == '\r').filterMap fun raw =>
    sentenceOffer (String.ofList raw)

def isNaturalLanguageTool (tool : String) : Bool :=
  let lower := toAsciiLowercase tool
  contains lower "task" || contains lower "approvedmemory" || contains lower "askuser" ||
    contains lower "sendmessage" || lower == "archive" || lower == "remember"

def isEditTool (tool : String) : Bool :=
  ["edit", "write", "multiedit", "notebookedit", "apply_patch"].contains (toAsciiLowercase tool)

/-- `is_successful_command`. -/
def isSuccessfulCommand (o : Observation) : Bool :=
  let output := toAsciiLowercase (o.output.getD "")
  ["bash", "shell"].contains (toAsciiLowercase o.tool) &&
    !(["test result: failed", "build failed", "could not compile",
      "traceback (most recent call last)", "command not found", "exit code 1", "exit status 1",
      "fatal:"].any (contains output)) &&
    ["test result: ok", "finished \x60", "build succeeded", "tests passed", "passed, 0 failed",
      "process exited with code 0"].any (contains output)

/-- `clean_command`. -/
def cleanCommand (input : String) : Option String :=
  (lines input).head?.bind fun line =>
    let command := trim line
    if command.isEmpty || decide (240 < byteLen command) || containsSecretSignal command then none
    else some command

/-- `is_verification_command`. -/
def isVerificationCommand (command : String) : Bool :=
  [" test", "test ", "cargo test", "cargo clippy", "npm run lint", "pnpm lint", "npm run build",
    "pnpm build", "cargo build", "pytest", "ruff check"].any (contains (toAsciiLowercase command))

def isPathLike (part : String) : Bool :=
  !part.isEmpty && decide (byteLen part ≤ 300) &&
    (contains part "/" || [".rs", ".ts", ".tsx", ".js", ".jsx", ".py", ".md", ".json", ".toml"].any
      fun suffix => suffix.toList.isSuffixOf part.toList) && !containsSecretSignal part

/-- `extract_path`. -/
def extractPath (input : String) : Option String :=
  ((input.toList.splitOnP fun c => isWhitespace c ||
      ['"', '\'', ':', ',', '\x7b', '\x7d'].contains c).map fun part =>
    trimMatches (fun c => ['(', ')', '[', ']'].contains c) (String.ofList part)).find? isPathLike

def commandOffers (command : String) : List Offer :=
  ⟨.fact, "Command \x60" ++ command ++ "\x60 completed successfully."⟩ ::
    if isVerificationCommand command then
      [⟨.procedure, "Use \x60" ++ command ++ "\x60 to verify this project."⟩] else []

def pathOffer (path : String) : Offer := ⟨.fact, "Modified \x60" ++ path ++ "\x60 during the session."⟩

/-- The markers of an observation. -/
def markerOffers (o : Observation) : List Offer :=
  (o.input.toList ++ o.output.toList).flatMap extractMarkers

def toolOffers (o : Observation) : List Offer :=
  (if isSuccessfulCommand o then ((o.input.bind cleanCommand).map commandOffers).getD [] else []) ++
    if isEditTool o.tool then ((o.input.bind extractPath).map pathOffer).toList else []

def sentenceOffers (o : Observation) : List Offer :=
  if isNaturalLanguageTool o.tool then (o.input.map extractSignalSentences).getD [] else []

/-- Everything an observation offers, in order. -/
def offers (o : Observation) : List Offer := markerOffers o ++ toolOffers o ++ sentenceOffers o

/-- The loop of `extract`. -/
def extractFrom : LocalExtraction → List Observation → LocalExtraction
  | e, [] => e
  | e, o :: rest =>
      let e' := (offers o).foldl LocalExtraction.push e
      if MAX_ITEMS ≤ e'.facts.items.length + e'.procedures.items.length then e'
      else extractFrom e' rest

/-- `extract`. -/
def extract (observations : List Observation) : LocalExtraction := extractFrom {} observations

end IronMem.LocalExtractor
