import IronMem.Injection

/-!
# The lines of the injected file

A reader of the file sees lines. The written lines hold no line break, so what the reader
sees is the lines of the renderer, and a field is one JSON string in one of them.

The reader is a definition of its own: lines end at a line feed (`lines`), and a literal is
read by a decoder of JSON strings with its escapes and surrogates (`jsonString?`). It reads
an encoded field as the text that was encoded (`jsonString_encodeField`).

The renderer is a loop that stops when the next memory and the footer no longer fit
(`renderFrom_written`), so the file is the header, the lines of the first memories and the
footer (`renderMemories_written`). Each kind of line has its own beginning
(`entryLines_labels`); counting and selecting lines by it counts and selects memories
(`countP_fileLines`, `filter_fileLines`).
-/

namespace IronMem

/-! ## Lines -/

def startsWith (pre line : String) : Bool := pre.toList.isPrefixOf line.toList

/-- A line without line breaks in it. -/
def Unbroken (line : String) : Prop := '\n' ∉ line.toList ∧ '\r' ∉ line.toList

theorem linesFrom_append {cs : List Char} (h : '\n' ∉ cs) (rest current : List Char) :
    linesFrom (cs ++ '\n' :: rest) current
      = linesFrom ('\n' :: rest) (cs.reverse ++ current) := by
  induction cs generalizing current with
  | nil => rfl
  | cons c cs ih =>
      rw [List.mem_cons, not_or] at h
      rw [List.cons_append, linesFrom, if_neg (Ne.symm h.1), ih h.2, List.reverse_cons,
        List.append_assoc, List.singleton_append]

instance (line : String) : Decidable (Unbroken line) :=
  inferInstanceAs (Decidable ('\n' ∉ line.toList ∧ '\r' ∉ line.toList))

/-- Unbroken lines are read as they were written. -/
theorem lines_unlines {written : List String} (h : ∀ line ∈ written, Unbroken line) :
    lines (unlines written) = written := by
  rw [lines, unlines, String.toList_join]
  induction written with
  | nil => rfl
  | cons line written ih =>
      obtain ⟨hline, hrest⟩ := List.forall_mem_cons.mp h
      have hend : (line ++ "\n").toList = line.toList ++ ['\n'] := String.toList_append
      have hreturn : line.toList.reverse.head? ≠ some '\r' := fun hhead =>
        hline.2 (List.mem_reverse.mp (List.mem_of_mem_head? hhead))
      rw [List.map_cons, List.flatMap_cons, hend, List.append_assoc, List.singleton_append,
        linesFrom_append hline.1, List.append_nil, linesFrom, if_pos rfl, if_neg hreturn,
        List.reverse_reverse, String.ofList_toList, ih hrest]

theorem unlines_append (a b : List String) : unlines (a ++ b) = unlines a ++ unlines b := by
  rw [unlines, List.map_append, String.join_append]
  rfl

/-! ## Strings of JSON

The decoder follows the grammar of JSON strings, with both forms of escapes. The characters the
renderer escapes beyond what JSON asks for are read back like any other. -/

def hexValue? (c : Char) : Option Nat :=
  if c.isDigit then some (c.toNat - 48)
  else if 'a' ≤ c ∧ c ≤ 'f' then some (c.toNat - 87)
  else if 'A' ≤ c ∧ c ≤ 'F' then some (c.toNat - 55)
  else none

/-- Four hexadecimal digits. -/
def hex4? (cs : List Char) : Option (Nat × List Char) := do
  let digits ← (cs.take 4).mapM hexValue?
  if digits.length = 4 then some (digits.foldl (fun n d => 16 * n + d) 0, cs.drop 4) else none

/-- What stands after `\u`: one unit of UTF-16, or two for a character beyond the first
plane. -/
def unicodeEscape? (cs : List Char) : Option (Char × List Char) := do
  let (unit, rest) ← hex4? cs
  if 0xDC00 ≤ unit ∧ unit < 0xE000 then none
  else if 0xD800 ≤ unit ∧ unit < 0xDC00 then
    match rest with
    | '\\' :: 'u' :: rest =>
        let (low, rest) ← hex4? rest
        if 0xDC00 ≤ low ∧ low < 0xE000 then
          some (Char.ofNat (0x10000 + (unit - 0xD800) * 0x400 + (low - 0xDC00)), rest)
        else none
    | _ => none
  else some (Char.ofNat unit, rest)

/-- The first character of a string. -/
def jsonChar? : List Char → Option (Char × List Char)
  | '\\' :: 'u' :: cs => unicodeEscape? cs
  | '\\' :: 'b' :: cs => some (Char.ofNat 8, cs)
  | '\\' :: 'f' :: cs => some (Char.ofNat 12, cs)
  | '\\' :: 'n' :: cs => some ('\n', cs)
  | '\\' :: 'r' :: cs => some ('\r', cs)
  | '\\' :: 't' :: cs => some ('\t', cs)
  | '\\' :: c :: cs => if c = '"' ∨ c = '\\' ∨ c = '/' then some (c, cs) else none
  | c :: cs => if c = '"' ∨ c = '\\' ∨ c.toNat < 32 then none else some (c, cs)
  | [] => none

/-- Characters up to the closing quote, which ends the text. -/
def jsonChars? : Nat → List Char → Option (List Char)
  | 0, _ => none
  | fuel + 1, cs =>
      if cs = ['"'] then some []
      else do
        let (c, cs) ← jsonChar? cs
        let rest ← jsonChars? fuel cs
        some (c :: rest)

/-- A text that is one JSON string, and nothing else. -/
def jsonString? (text : String) : Option String :=
  match text.toList with
  | '"' :: cs => (jsonChars? cs.length cs).map String.ofList
  | _ => none

theorem jsonChar_escapeChar (c : Char) (t : List Char) :
    jsonChar? (escapeChar c ++ t) = some (c, t) := by
  have hcontrol : ∀ n < 32, jsonChar? (escapeChar (Char.ofNat n) ++ t) = some (Char.ofNat n, t) := by
    intro n hn
    interval_cases n <;> rfl
  by_cases hsmall : c.toNat < 32
  · have hread := hcontrol c.toNat hsmall
    rwa [Char.ofNat_toNat] at hread
  by_cases hquote : c = '"'
  · subst hquote
    rfl
  by_cases hslash : c = '\\'
  · subst hslash
    rfl
  rw [escapeChar_plain hquote hslash hsmall, List.singleton_append]
  simp [jsonChar?, hquote, hslash, hsmall]

theorem jsonChar_fieldChar (c : Char) (t : List Char) :
    jsonChar? (fieldChar c ++ t) = some (c, t) := by
  unfold fieldChar
  split_ifs with h₁ h₂ h₃ h₄ h₅
  · subst h₁; rfl
  · subst h₂; rfl
  · subst h₃; rfl
  · subst h₄; rfl
  · subst h₅; rfl
  · exact jsonChar_escapeChar c t

theorem length_le_printed (cs : List Char) : cs.length ≤ (printed cs).length := by
  induction cs with
  | nil => exact Nat.le_refl 0
  | cons c cs ih =>
      have hsome : fieldChar c ≠ [] := fun hempty => by
        have hread := jsonChar_fieldChar c []
        rw [hempty] at hread
        simp [jsonChar?] at hread
      have hpos := List.length_pos_iff.mpr hsome
      have hcons : printed (c :: cs) = fieldChar c ++ printed cs := List.flatMap_cons
      rw [hcons, List.length_append, List.length_cons]
      omega

theorem jsonChars_printed {cs : List Char} {fuel : Nat} (hfuel : cs.length < fuel) :
    jsonChars? fuel (printed cs ++ ['"']) = some cs := by
  induction cs generalizing fuel with
  | nil =>
      obtain ⟨n, rfl⟩ := Nat.exists_eq_add_of_lt hfuel
      rfl
  | cons c cs ih =>
      obtain ⟨n, rfl⟩ : ∃ n, fuel = n + 1 := ⟨fuel - 1, by omega⟩
      have hmore : printed (c :: cs) ++ ['"'] ≠ ['"'] := by
        intro heq
        have hempty : printed (c :: cs) = [] := List.append_left_eq_self.mp heq
        have hlen := (utf8Len_printed (c :: cs)).1
        have hpos := c.utf8Size_pos
        rw [hempty, utf8Len_cons, utf8Len_nil] at hlen
        omega
      have hcons : printed (c :: cs) ++ ['"'] = fieldChar c ++ (printed cs ++ ['"']) := by
        rw [← List.append_assoc]
        rfl
      rw [jsonChars?, if_neg hmore, hcons, jsonChar_fieldChar]
      simp only [List.length_cons] at hfuel
      show (jsonChars? n (printed cs ++ ['"'])).bind _ = _
      rw [ih (by omega)]
      rfl

/-- A field decodes to the text it was made of. -/
theorem jsonString_encodeField (v : String) : jsonString? (encodeField v) = some v := by
  have hfuel : v.toList.length < (printed v.toList ++ ['"']).length := by
    have hlen := length_le_printed v.toList
    rw [List.length_append, List.length_singleton]
    omega
  rw [jsonString?, toList_encodeField]
  show (jsonChars? _ (printed v.toList ++ ['"'])).map String.ofList = some v
  rw [jsonChars_printed hfuel, Option.map_some, String.ofList_toList]

/-! ## What the renderer writes -/

theorem unbroken_append {a b : String} (ha : Unbroken a) (hb : Unbroken b) : Unbroken (a ++ b) := by
  rw [Unbroken, String.toList_append, List.mem_append, List.mem_append]
  exact ⟨not_or.mpr ⟨ha.1, hb.1⟩, not_or.mpr ⟨ha.2, hb.2⟩⟩

theorem unbroken_int (n : Int) : Unbroken (toString n) := by
  constructor <;> intro hc
  · rcases isDigit_of_mem_toString hc with h | h <;> exact absurd h (by decide)
  · rcases isDigit_of_mem_toString hc with h | h <;> exact absurd h (by decide)

theorem unbroken_nat (n : Nat) : Unbroken (toString n) := unbroken_int (n : Int)

theorem unbroken_zeroPadded (width n : Nat) : Unbroken (zeroPadded width n) := by
  refine unbroken_append ?_ (unbroken_nat n)
  rw [Unbroken, String.toList_ofList]
  exact ⟨fun h => absurd (List.eq_of_mem_replicate h) (by decide),
    fun h => absurd (List.eq_of_mem_replicate h) (by decide)⟩

theorem unbroken_format (d : Day) : Unbroken d.format := by
  unfold Day.format
  refine unbroken_append (unbroken_append (unbroken_append (unbroken_append (unbroken_append ?_
    (unbroken_zeroPadded 4 _)) (by decide)) (unbroken_zeroPadded 2 _)) (by decide))
    (unbroken_zeroPadded 2 _)
  split_ifs <;> decide

theorem unbroken_encodeField (v : String) : Unbroken (encodeField v) := by
  have hnot : ∀ d ∈ ['\n', '\r'], d ∉ (encodeField v).toList := by
    intro d hd hmem
    rw [toList_encodeField, List.mem_cons, List.mem_append, List.mem_singleton] at hmem
    have hmarkup : d ∈ markup := List.mem_append_right ['<', '>', '@', '\x60', '#'] hd
    have hquote : d ≠ '"' := by
      rintro rfl
      exact absurd hmarkup (by decide)
    rcases hmem with h | h | h
    · exact hquote h
    · exact printed_notMem_markup h hmarkup
    · exact hquote h
  exact ⟨hnot _ (by decide), hnot _ (by decide)⟩

theorem unbroken_unknown (day : Option Day) : Unbroken ((day.map Day.format).getD "unknown") := by
  cases day with
  | none => decide
  | some d => exact unbroken_format d

theorem unbroken_entryLines (date : Int → Option Day) (i : Nat) (memory : Memory) :
    ∀ line ∈ entryLines date i memory, Unbroken line := by
  have hid := unbroken_int memory.id
  have hsummary : Unbroken (escapedField memory.summary IRONMEM_ENTRY_MAX_BYTES) := by
    obtain ⟨k, -, hfield⟩ := escapedField_isLast memory.summary
      (show 86 ≤ IRONMEM_ENTRY_MAX_BYTES by decide)
    rw [hfield]
    exact unbroken_encodeField _
  have htags : Unbroken (escapedField (memory.tags.getD "") TAGS_MAX_BYTES) := by
    obtain ⟨k, -, hfield⟩ := escapedField_isLast (memory.tags.getD "")
      (show 86 ≤ TAGS_MAX_BYTES by decide)
    rw [hfield]
    exact unbroken_encodeField _
  intro line hline
  simp only [entryLines, List.mem_cons, List.not_mem_nil, or_false] at hline
  rcases hline with rfl | rfl | rfl | rfl | rfl | rfl | rfl
  · refine unbroken_append (unbroken_append (unbroken_append (unbroken_append (unbroken_append
      (by decide) (unbroken_nat _)) (by decide)) (unbroken_unknown _)) (by decide)) hid
  · exact unbroken_append (unbroken_append (unbroken_append (unbroken_append (by decide) hid)
      (by decide)) hid) (by decide)
  · decide
  · exact unbroken_append (by decide) hsummary
  · exact unbroken_append (by decide) htags
  · decide
  · decide

theorem unbroken_footerLine (n : Nat) : Unbroken (footerLine n) := by
  unfold footerLine
  exact unbroken_append (unbroken_append (unbroken_append (by decide) (unbroken_nat n)) (by decide))
    (by decide)

/-! ## The loop -/

/-- What a footer for the rest takes. -/
def footerRoom (rest : Nat) : Nat := if 0 < rest then byteLen (footer rest) else 0

/-- The lines of memories from memory `i` on. -/
def entriesLines (date : Int → Option Day) : Nat → List Memory → List String
  | _, [] => []
  | i, memory :: memories => entryLines date i memory ++ entriesLines date (i + 1) memories

variable {date : Int → Option Day}

/-- The loop stops after some of the memories, with room for the footer. -/
theorem renderFrom_written {total budget i : Nat} {memories : List Memory} {text : String}
    {written : List Int} (htotal : total = written.length + memories.length)
    (hroom : byteLen text + footerRoom memories.length ≤ budget) :
    ∃ k ≤ memories.length, ∃ text',
      text' = text ++ unlines (entriesLines date i (memories.take k)) ∧
      renderFrom date total budget i memories text written
        = (text', written ++ (memories.take k).map (·.id)) ∧
      byteLen text' + footerRoom (memories.length - k) ≤ budget := by
  induction memories generalizing i text written with
  | nil =>
      refine ⟨0, Nat.le_refl 0, text, String.append_empty.symm, ?_, hroom⟩
      rw [renderFrom, List.take_nil, List.map_nil, List.append_nil]
  | cons memory memories ih =>
      have hremaining : total - written.length - 1 = memories.length := by
        rw [List.length_cons] at htotal
        omega
      rw [renderFrom, hremaining]
      by_cases hfull : budget < byteLen text + byteLen (entry date i memory) +
          (if 0 < memories.length then byteLen (footer memories.length) else 0)
      · rw [if_pos hfull]
        refine ⟨0, Nat.zero_le _, text, String.append_empty.symm, ?_, hroom⟩
        rw [List.take_zero, List.map_nil, List.append_nil]
      · rw [if_neg hfull]
        have hnext : byteLen (text ++ entry date i memory) + footerRoom memories.length ≤ budget := by
          rw [byteLen_append]
          exact Nat.not_lt.mp hfull
        have hlength : total = (written ++ [memory.id]).length + memories.length := by
          rw [htotal, List.length_append, List.length_cons, List.length_singleton]
          omega
        obtain ⟨k, hk, text', htext, hrun, hfits⟩ := @ih (i + 1) _ _ hlength hnext
        refine ⟨k + 1, Nat.succ_le_succ hk, text', ?_, ?_, ?_⟩
        · rw [htext, List.take_succ_cons, entriesLines, unlines_append, String.append_assoc]
          rfl
        · rw [hrun, List.take_succ_cons, List.map_cons, List.append_assoc, List.singleton_append]
        · rwa [List.length_cons, Nat.add_sub_add_right]

/-- The file, line by line. -/
def fileLines (date : Int → Option Day) (memories : List Memory) (k : Nat) : List String :=
  headerLines ++ entriesLines date 0 (memories.take k) ++
    (if k < memories.length then [footerLine (memories.length - k)] else [])

/-- A written file: its lines, with a part of the memories in them. -/
theorem renderMemories_written {memories : List Memory} {budget : Nat}
    (hsome : memories ≠ [])
    (hroom : byteLen (unlines headerLines) + byteLen (footer memories.length) ≤ budget) :
    ∃ k ≤ memories.length,
      renderMemories date memories budget = (unlines (fileLines date memories k),
        { writtenIds := (memories.take k).map (·.id), omitted := memories.length - k,
          bytes := byteLen (unlines (fileLines date memories k)) }) ∧
      byteLen (unlines (fileLines date memories k)) ≤ budget := by
  have hcount : 0 < memories.length := List.length_pos_iff.mpr hsome
  have hheader : byteLen (unlines headerLines) + footerRoom memories.length ≤ budget := by
    rwa [footerRoom, if_pos hcount]
  obtain ⟨k, hk, text', htext, hrun, hfits⟩ :=
    @renderFrom_written date memories.length budget 0 memories (unlines headerLines) []
      (Nat.zero_add _).symm hheader
  have homitted : memories.length - ((memories.take k).map (·.id)).length = memories.length - k := by
    rw [List.length_map, List.length_take, Nat.min_eq_left hk]
  have hfile : (if 0 < memories.length - k then text' ++ footer (memories.length - k) else text')
      = unlines (fileLines date memories k) := by
    rw [fileLines, unlines_append, unlines_append, ← htext]
    by_cases hrest : k < memories.length
    · rw [if_pos (by omega), if_pos hrest]
      rfl
    · rw [if_neg (by omega), if_neg hrest]
      exact String.append_empty.symm
  refine ⟨k, hk, ?_, ?_⟩
  · have hempty : ¬ memories.isEmpty := by rwa [List.isEmpty_iff]
    rw [renderMemories, if_neg hempty, if_neg (Nat.not_lt.mpr hroom), hrun]
    dsimp only
    rw [List.nil_append, homitted, hfile]
  · rw [← hfile]
    unfold footerRoom at hfits
    split_ifs at hfits ⊢ with hrest
    · rwa [byteLen_append]
    · exact hfits

/-! ## What is in which line

Labels are compared with the beginnings of the lines the renderer writes. Fields are in lines of
their own after a label, and so whatever is stored begins no line. -/

/-- The lines of a memory begin as the renderer has them begin. -/
theorem entryLines_labels (date : Int → Option Day) (i : Nat) (memory : Memory) :
    ∃ heading handle, entryLines date i memory =
      ["### Session " ++ heading, "Memory ID: " ++ handle, "<memory-data>",
        "summary: " ++ escapedField memory.summary IRONMEM_ENTRY_MAX_BYTES,
        "keywords: " ++ escapedField (memory.tags.getD "") TAGS_MAX_BYTES, "</memory-data>", ""] :=
  ⟨_, _, by simp only [entryLines, String.append_assoc]; rfl⟩

/-- What one line of each memory has, and no other line, is counted by the memories. -/
theorem countP_fileLines {p : String → Bool} (hheader : headerLines.countP p = 0)
    (hfooter : ∀ n, p (footerLine n) = false)
    (hentry : ∀ i memory, (entryLines date i memory).countP p = 1) (memories : List Memory) (k : Nat) :
    (fileLines date memories k).countP p = (memories.take k).length := by
  have hentries : ∀ (l : List Memory) (i : Nat), (entriesLines date i l).countP p = l.length := by
    intro l
    induction l with
    | nil => exact fun _ => rfl
    | cons memory l ih =>
        intro i
        rw [entriesLines, List.countP_append, hentry, ih, List.length_cons, Nat.add_comm]
  have htail : (if k < memories.length then [footerLine (memories.length - k)] else []).countP p
      = 0 := by
    split
    · rw [List.countP_singleton, hfooter]
      rfl
    · rfl
  rw [fileLines, List.countP_append, List.countP_append, hheader, hentries, htail]
  omega

/-- The lines chosen by their label, memory by memory. -/
theorem filter_fileLines {p : String → Bool} {line : Memory → String}
    (hheader : headerLines.filter p = []) (hfooter : ∀ n, p (footerLine n) = false)
    (hentry : ∀ i memory, (entryLines date i memory).filter p = [line memory])
    (memories : List Memory) (k : Nat) :
    (fileLines date memories k).filter p = (memories.take k).map line := by
  have hentries : ∀ (l : List Memory) (i : Nat), (entriesLines date i l).filter p = l.map line := by
    intro l
    induction l with
    | nil => exact fun _ => rfl
    | cons memory l ih =>
        intro i
        rw [entriesLines, List.filter_append, hentry, ih, List.singleton_append, List.map_cons]
  have htail : (if k < memories.length then [footerLine (memories.length - k)] else []).filter p
      = [] := by
    split
    · exact List.filter_cons_of_neg (by rw [hfooter]; decide)
    · rfl
  rw [fileLines, List.filter_append, List.filter_append, hheader, hentries, htail, List.nil_append,
    List.append_nil]

theorem unbroken_fileLines (memories : List Memory) (k : Nat) :
    ∀ line ∈ fileLines date memories k, Unbroken line := by
  have hentries : ∀ (l : List Memory) (i : Nat), ∀ line ∈ entriesLines date i l, Unbroken line := by
    intro l
    induction l with
    | nil => exact fun _ line hline => absurd hline List.not_mem_nil
    | cons memory l ih =>
        intro i line hline
        rw [entriesLines, List.mem_append] at hline
        rcases hline with h | h
        · exact unbroken_entryLines date i memory line h
        · exact ih (i + 1) line h
  intro line hline
  rw [fileLines, List.mem_append, List.mem_append] at hline
  rcases hline with (h | h) | h
  · have hheader : ∀ line ∈ headerLines, Unbroken line := by simp [headerLines, Unbroken]
    exact hheader line h
  · exact hentries _ 0 line h
  · split at h
    · rw [List.mem_singleton.mp h]
      exact unbroken_footerLine _
    · exact absurd h List.not_mem_nil

/-! ## The guarantee -/

/-- The literal `literal` is the longest truncation of `value` whose encoding is within the
budget, and nothing in it is markup. -/
structure FieldLiteral (budget : Nat) (value literal : String) (k : Nat) : Prop where
  decodes : jsonString? literal = some (truncateBytes value k)
  inert : ∀ c ∈ ['<', '>', '@', '\x60', '#'], c ∉ literal.toList
  bound : k ≤ min (byteLen value) budget
  fits : byteLen literal ≤ budget
  longest : ∀ j, k < j → j ≤ min (byteLen value) budget →
    budget < byteLen (encodeField (truncateBytes value j))

/-- A line with a label and the literal of a value. -/
def FieldLine (label : String) (budget : Nat) (value line : String) : Prop :=
  ∃ literal k, line = label ++ literal ∧ FieldLiteral budget value literal k

/-- The text keeps to the budget and has the shape that the renderer gave it. -/
structure Unforged (memories : List Memory) (budget : Nat) (text : String)
    (report : InjectionReport) : Prop where
  bytes : byteLen text = report.bytes
  fits : report.bytes ≤ budget
  written : report.writtenIds <+: memories.map (·.id)
  omitted : report.writtenIds.length + report.omitted = memories.length
  opens : (lines text).count "<memory-data>" = report.writtenIds.length
  closes : (lines text).count "</memory-data>" = report.writtenIds.length
  headings : (lines text).countP (startsWith "### ") = report.writtenIds.length
  summaries : List.Forall₂ (fun memory => FieldLine "summary: " IRONMEM_ENTRY_MAX_BYTES memory.summary)
    (memories.take report.writtenIds.length) ((lines text).filter (startsWith "summary: "))
  keywords : List.Forall₂ (fun memory => FieldLine "keywords: " TAGS_MAX_BYTES (memory.tags.getD ""))
    (memories.take report.writtenIds.length) ((lines text).filter (startsWith "keywords: "))

theorem escapedField_literal (value : String) {budget : Nat} (hbudget : 86 ≤ budget) :
    ∃ k, FieldLiteral budget value (escapedField value budget) k := by
  obtain ⟨k, hlast, hfield⟩ := escapedField_isLast value hbudget
  have hfits := of_decide_eq_true hlast.holds
  refine ⟨k, ?_, ?_, hlast.le, by rw [hfield]; exact hfits, ?_⟩
  · rw [hfield, jsonString_encodeField]
  · intro c hc hmem
    have hmarkup : c ∈ markup := List.mem_append_left ['\n', '\r'] hc
    have hquote : c ≠ '"' := by
      rintro rfl
      exact absurd hc (by decide)
    rw [hfield, toList_encodeField, List.mem_cons, List.mem_append, List.mem_singleton] at hmem
    rcases hmem with h | h | h
    · exact hquote h
    · exact printed_notMem_markup h hmarkup
    · exact hquote h
  · intro j hkj hj
    have hover := hlast.last j hkj hj
    rwa [decide_eq_false_iff_not, Nat.not_le] at hover

theorem forall₂_fieldLines (label : String) {budget : Nat} (hbudget : 86 ≤ budget)
    (value : Memory → String) (memories : List Memory) :
    List.Forall₂ (fun memory => FieldLine label budget (value memory)) memories
      (memories.map fun memory => label ++ escapedField (value memory) budget) := by
  rw [List.forall₂_map_right_iff]
  refine List.forall₂_same.mpr fun memory _ => ?_
  obtain ⟨k, hliteral⟩ := escapedField_literal (value memory) hbudget
  exact ⟨_, k, rfl, hliteral⟩

/-- A file of a part of the memories is as it should be. -/
theorem unforged_fileLines {memories : List Memory} {budget k : Nat} (hk : k ≤ memories.length)
    (hfits : byteLen (unlines (fileLines date memories k)) ≤ budget) :
    Unforged memories budget (unlines (fileLines date memories k))
      { writtenIds := (memories.take k).map (·.id), omitted := memories.length - k,
        bytes := byteLen (unlines (fileLines date memories k)) } := by
  have hlines := lines_unlines (@unbroken_fileLines date memories k)
  have hwritten : ((memories.take k).map (·.id)).length = k := by
    rw [List.length_map, List.length_take, Nat.min_eq_left hk]
  have htake : (memories.take k).length = k := by rw [List.length_take, Nat.min_eq_left hk]
  constructor
  · rfl
  · exact hfits
  · exact (List.take_prefix k memories).map _
  · show ((memories.take k).map (·.id)).length + (memories.length - k) = memories.length
    omega
  · rw [hlines, List.count, countP_fileLines (by decide) ?_ ?_, hwritten, htake]
    · intro n
      simp [footerLine, ← String.toList_inj]
    · intro i memory
      obtain ⟨heading, handle, hshape⟩ := entryLines_labels date i memory
      rw [hshape]
      simp [← String.toList_inj]
  · rw [hlines, List.count, countP_fileLines (by decide) ?_ ?_, hwritten, htake]
    · intro n
      simp [footerLine, ← String.toList_inj]
    · intro i memory
      obtain ⟨heading, handle, hshape⟩ := entryLines_labels date i memory
      rw [hshape]
      simp [← String.toList_inj]
  · rw [hlines, countP_fileLines (by simp [headerLines, startsWith, List.isPrefixOf]) ?_ ?_, hwritten,
      htake]
    · intro n
      simp [footerLine, startsWith, List.isPrefixOf]
    · intro i memory
      obtain ⟨heading, handle, hshape⟩ := entryLines_labels date i memory
      rw [hshape]
      simp [startsWith, List.isPrefixOf]
  · rw [hlines, hwritten, filter_fileLines (by simp [headerLines, startsWith, List.isPrefixOf]) ?_ ?_]
    · exact forall₂_fieldLines "summary: " (by decide) _ _
    · intro n
      simp [footerLine, startsWith, List.isPrefixOf]
    · intro i memory
      obtain ⟨heading, handle, hshape⟩ := entryLines_labels date i memory
      rw [hshape]
      simp [startsWith, List.isPrefixOf]
  · rw [hlines, hwritten, filter_fileLines (by simp [headerLines, startsWith, List.isPrefixOf]) ?_ ?_]
    · exact forall₂_fieldLines "keywords: " (by decide) (fun memory => memory.tags.getD "") _
    · intro n
      simp [footerLine, startsWith, List.isPrefixOf]
    · intro i memory
      obtain ⟨heading, handle, hshape⟩ := entryLines_labels date i memory
      rw [hshape]
      simp [startsWith, List.isPrefixOf]

/-- Whatever is stored and whatever the budget, the injected text keeps to the budget and
only the renderer opens and closes memories and writes headings in it. -/
theorem renderMemories_unforged (date : Int → Option Day) (memories : List Memory) (budget : Nat) :
    Unforged memories budget (renderMemories date memories budget).1
      (renderMemories date memories budget).2 := by
  have hnone : ∀ omitted, omitted = memories.length →
      Unforged memories budget "" { omitted := omitted } := by
    rintro _ rfl
    exact ⟨rfl, Nat.zero_le _, List.nil_prefix, Nat.zero_add _, rfl, rfl, rfl, .nil, .nil⟩
  by_cases hempty : memories = []
  · have hrender : renderMemories date memories budget = ("", { omitted := memories.length }) := by
      rw [renderMemories, if_pos (List.isEmpty_iff.mpr hempty)]
    rw [hrender]
    exact hnone _ rfl
  by_cases hroom : byteLen (unlines headerLines) + byteLen (footer memories.length) ≤ budget
  · obtain ⟨k, hk, hrender, hfits⟩ := @renderMemories_written date memories budget hempty hroom
    have hfile := unforged_fileLines hk hfits
    rw [hrender]
    dsimp only
    exact hfile
  · have hrender : renderMemories date memories budget = ("", { omitted := memories.length }) := by
      rw [renderMemories, if_neg (by rwa [List.isEmpty_iff]), if_pos (Nat.not_le.mp hroom)]
    rw [hrender]
    exact hnone _ rfl

end IronMem
