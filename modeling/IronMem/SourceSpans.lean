import IronMem.Transcript

/-!
# Where chunks come from

Byte offsets of a transcript against its bytes: the sections tile them, and a span that is
found for an item is either a place that reads like the item or one of the sections.

A span is found in a lower-cased copy of the transcript, and its offsets are used on the
transcript itself. That is right because lower-casing is ASCII only and keeps every length
(`spanOf_found`). Where no such place is found, the section that shares most terms with the item
is taken, if it shares two (`bestSourceSpan_spec`).
-/

namespace IronMem

open Tiling

/-! ## Bytes of strings -/

theorem utf8_eq (s : String) : utf8 s = Utf8.encode s.toList := by
  rw [utf8, String.toUTF8_eq_toByteArray, ← String.utf8Encode_toList]
  exact List.toList_data_toByteArray

theorem utf8_append (a b : String) : utf8 (a ++ b) = utf8 a ++ utf8 b := by
  rw [utf8_eq, utf8_eq, utf8_eq, String.toList_append]
  exact List.flatMap_append

theorem length_utf8 (s : String) : (utf8 s).length = byteLen s := by
  rw [utf8, Array.length_toList, String.toUTF8_eq_toByteArray]
  rfl

theorem utf8Size_lowerAscii (c : Char) : (lowerAscii c).utf8Size = c.utf8Size := by
  have hletters : ∀ n < 91, 65 ≤ n →
      (Char.ofNat (n + 32)).utf8Size = 1 ∧ (Char.ofNat n).utf8Size = 1 := by decide
  rw [lowerAscii]
  split
  · next hc =>
      have hupper : c.toNat ≤ 90 := hc.2
      obtain ⟨hlower, hsize⟩ := hletters c.toNat (by omega) hc.1
      rw [Char.ofNat_toNat] at hsize
      rw [hlower, hsize]
  · rfl

theorem utf8Len_lower (cs : List Char) : utf8Len (cs.map lowerAscii) = utf8Len cs := by
  rw [utf8Len, List.map_map, utf8Len]
  exact congrArg List.sum (List.map_congr_left fun c _ => utf8Size_lowerAscii c)

/-- The bytes of the middle of a string. -/
theorem slice_utf8 (a b c : String) :
    Cut.slice (utf8 (a ++ b ++ c)) ⟨byteLen a, byteLen b⟩ = utf8 b := by
  rw [Cut.slice, utf8_append, utf8_append, List.append_assoc, ← length_utf8 a, List.drop_left,
    ← length_utf8 b, List.take_left]

theorem bytePrefix_append (a b : List Char) : bytePrefix (utf8Len a) (a ++ b) = a := by
  induction a with
  | nil =>
      cases b with
      | nil => rfl
      | cons c cs =>
          have hpos := Char.utf8Size_pos c
          rw [List.nil_append, utf8Len_nil, bytePrefix, if_neg (by omega)]
  | cons c cs ih =>
      rw [List.cons_append, utf8Len_cons, bytePrefix, if_pos (Nat.le_add_right _ _),
        Nat.add_sub_cancel_left, ih]

theorem byteSlice_append (a b c : String) :
    byteSlice (a ++ b ++ c) (byteLen a) (byteLen (a ++ b)) = b := by
  have hwhole : bytePrefix (utf8Len (a ++ b).toList) (a ++ b ++ c).toList = (a ++ b).toList := by
    generalize a ++ b = ab
    rw [String.toList_append, bytePrefix_append]
  have hstart : bytePrefix (utf8Len a.toList) (a ++ b ++ c).toList = a.toList := by
    rw [String.append_assoc, String.toList_append, bytePrefix_append]
  rw [byteSlice, byteLen_eq, byteLen_eq, hwhole, hstart, String.toList_append, List.drop_left,
    String.ofList_toList]

/-! ## Sections

The sections are pushed one after the other, each beginning where the transcript has ended. So
they tile it, and each reads as it was pushed. -/

/-- The range of a section. -/
def TranscriptSection.cut (t : TranscriptSection) : Cut := ⟨t.start, t.end - t.start⟩

/-- The sections that are pushed onto a transcript. -/
def sectionsFrom : String → List Observation → List TranscriptSection
  | _, [] => []
  | s, o :: os => sectionAt s o :: sectionsFrom (s ++ o.section) os

/-- A transcript that goes on. -/
def transcriptFrom (s : String) (observations : List Observation) : String :=
  observations.foldl (fun s o => s ++ o.section) s

theorem buildTranscriptWithSections_eq (observations : List Observation) :
    buildTranscriptWithSections observations
      = (buildTranscript observations, sectionsFrom "" observations) := by
  have hgo : ∀ (os : List Observation) (s : String) (ts : List TranscriptSection),
      os.foldl pushSection (s, ts) = (transcriptFrom s os, ts ++ sectionsFrom s os) := by
    intro os
    induction os with
    | nil =>
        intro s ts
        rw [sectionsFrom, List.append_nil]
        rfl
    | cons o os ih =>
        intro s ts
        rw [List.foldl_cons, pushSection, ih, sectionsFrom, List.append_assoc]
        rfl
  rw [buildTranscriptWithSections, hgo, List.nil_append]
  rfl

theorem transcriptFrom_isPrefix (s : String) (os : List Observation) :
    ∃ post, transcriptFrom s os = s ++ post := by
  induction os generalizing s with
  | nil => exact ⟨"", (String.append_empty).symm⟩
  | cons o os ih =>
      obtain ⟨post, hpost⟩ := ih (s ++ o.section)
      exact ⟨o.section ++ post, by rw [← String.append_assoc]; exact hpost⟩

/-- A section lies where the transcript has its observation's text. -/
theorem mem_sectionsFrom {s : String} {os : List Observation} {t : TranscriptSection}
    (h : t ∈ sectionsFrom s os) :
    ∃ o ∈ os, ∃ pre post, transcriptFrom s os = pre ++ o.section ++ post ∧ t = sectionAt pre o := by
  induction os generalizing s with
  | nil => cases h
  | cons o os ih =>
      rcases List.mem_cons.mp h with rfl | h
      · obtain ⟨post, hpost⟩ := transcriptFrom_isPrefix (s ++ o.section) os
        exact ⟨o, List.mem_cons_self, s, post, hpost, rfl⟩
      · obtain ⟨o', ho', pre, post, hsplit, rfl⟩ := ih h
        exact ⟨o', List.mem_cons_of_mem _ ho', pre, post, hsplit, rfl⟩

/-- Every observation has its section. -/
theorem exists_section {s : String} {os : List Observation} {o : Observation} (h : o ∈ os) :
    ∃ pre post, transcriptFrom s os = pre ++ o.section ++ post ∧ sectionAt pre o ∈ sectionsFrom s os := by
  induction os generalizing s with
  | nil => cases h
  | cons o' os ih =>
      rcases List.mem_cons.mp h with rfl | h
      · obtain ⟨post, hpost⟩ := transcriptFrom_isPrefix (s ++ o.section) os
        exact ⟨s, post, hpost, List.mem_cons_self⟩
      · obtain ⟨pre, post, hsplit, hmem⟩ := ih h
        exact ⟨pre, post, hsplit, List.mem_cons_of_mem _ hmem⟩

theorem sectionAt_text (pre : String) (o : Observation) : (sectionAt pre o).text = o.section := by
  have h := byteSlice_append pre o.section ""
  rwa [String.append_empty] at h

theorem sectionAt_length (pre : String) (o : Observation) :
    (sectionAt pre o).cut = ⟨byteLen pre, byteLen o.section⟩ := by
  have h : byteLen (pre ++ o.section) - byteLen pre = byteLen o.section := by
    rw [byteLen_append, Nat.add_sub_cancel_left]
  exact congrArg (Cut.mk (byteLen pre)) h

theorem byteLen_section_pos (o : Observation) : 0 < byteLen o.section := by
  have h : byteLen "\n" = 1 := rfl
  rw [Observation.section, byteLen_append, h]
  omega

/-- The sections follow one another up to the end. -/
theorem sectionsFrom_tiles (s : String) (os : List Observation) {n : Nat}
    (hn : byteLen (transcriptFrom s os) = n) :
    Tiles 0 n n (byteLen s) ((sectionsFrom s os).map TranscriptSection.cut) := by
  induction os generalizing s with
  | nil =>
      subst hn
      exact .done
  | cons o os ih =>
      have hrest := ih (s ++ o.section) hn
      obtain ⟨post, hpost⟩ := transcriptFrom_isPrefix (s ++ o.section) os
      have hle : byteLen o.section ≤ n := by
        rw [← hn]
        show _ ≤ byteLen (transcriptFrom (s ++ o.section) os)
        rw [hpost, byteLen_append, byteLen_append]
        omega
      rw [byteLen_append] at hrest
      rw [sectionsFrom, List.map_cons, sectionAt_length]
      exact .cut (byteLen_section_pos o) hle (.inr (Nat.zero_le _)) hrest

/-- What it means that sections cut a transcript into the texts of some observations. -/
structure Partition (observations : List Observation) (transcript : String)
    (sections : List TranscriptSection) : Prop where
  ids : sections.map TranscriptSection.observationId = observations.map Observation.id
  texts : sections.map TranscriptSection.text = observations.map Observation.section
  tiles : Tiles 0 (utf8 transcript).length (utf8 transcript).length 0
    (sections.map TranscriptSection.cut)
  bytes : ∀ t ∈ sections, t.cut.slice (utf8 transcript) = utf8 t.text

theorem buildTranscriptWithSections_partition (observations : List Observation) :
    Partition observations (buildTranscriptWithSections observations).1
      (buildTranscriptWithSections observations).2 := by
  rw [buildTranscriptWithSections_eq]
  have hids : ∀ (os : List Observation) (s : String),
      (sectionsFrom s os).map TranscriptSection.observationId = os.map Observation.id ∧
        (sectionsFrom s os).map TranscriptSection.text = os.map Observation.section := by
    intro os
    induction os with
    | nil => exact fun s => ⟨rfl, rfl⟩
    | cons o os ih =>
        intro s
        obtain ⟨hids, htexts⟩ := ih (s ++ o.section)
        rw [sectionsFrom, List.map_cons, List.map_cons, List.map_cons, List.map_cons, hids, htexts,
          sectionAt_text]
        exact ⟨rfl, rfl⟩
  refine ⟨(hids observations "").1, (hids observations "").2, ?_, fun t ht => ?_⟩
  · exact sectionsFrom_tiles "" observations (length_utf8 _).symm
  · obtain ⟨o, -, pre, post, hsplit, rfl⟩ := mem_sectionsFrom ht
    have htranscript : buildTranscript observations = pre ++ o.section ++ post := hsplit
    rw [htranscript, sectionAt_length, sectionAt_text]
    exact slice_utf8 pre o.section post

/-! ## Found spans

A needle that is found in the lower-cased transcript is found at the same bytes of the
transcript itself, up to case. -/

theorem findBytes_spec {needle text : List Char} {n : Nat} (h : findBytes needle text = some n) :
    ∃ pre post, text = pre ++ needle ++ post ∧ utf8Len pre = n := by
  induction text generalizing n with
  | nil =>
      rw [findBytes] at h
      split at h
      · next hneedle =>
          obtain rfl := Option.some.inj h
          exact ⟨[], [], by rw [hneedle]; rfl, rfl⟩
      · cases h
  | cons c cs ih =>
      rw [findBytes] at h
      split at h
      · next hpre =>
          obtain rfl := Option.some.inj h
          obtain ⟨post, hpost⟩ := List.isPrefixOf_iff_prefix.mp hpre
          exact ⟨[], post, hpost.symm, rfl⟩
      · obtain ⟨m, hm, rfl⟩ := Option.map_eq_some_iff.mp h
        obtain ⟨pre, post, hsplit, hlen⟩ := ih hm
        exact ⟨c :: pre, post, congrArg (c :: ·) hsplit, congrArg (c.utf8Size + ·) hlen⟩

/-- The text a span cuts out of a transcript. -/
def SpanOf (transcript : String) (start stop : Nat) (text : String) : Prop :=
  ∃ pre post, transcript = pre ++ text ++ post ∧ start = byteLen pre ∧ stop = byteLen (pre ++ text)

theorem SpanOf.slice {transcript text : String} {start stop : Nat}
    (h : SpanOf transcript start stop text) :
    stop ≤ (utf8 transcript).length ∧
      (Cut.mk start (stop - start)).slice (utf8 transcript) = utf8 text := by
  obtain ⟨pre, post, rfl, rfl, rfl⟩ := h
  have hlen : byteLen (pre ++ text) - byteLen pre = byteLen text := by
    rw [byteLen_append, Nat.add_sub_cancel_left]
  refine ⟨?_, ?_⟩
  · rw [length_utf8, byteLen_append (pre ++ text)]
    exact Nat.le_add_right _ _
  · rw [hlen]
    exact slice_utf8 pre text post

/-- What the evidence for an item is: a text that reads like it, or a section that shares two
terms with it. -/
def IsEvidence (u : Unicode) (observations : List Observation) (item text : String) : Prop :=
  toAsciiLowercase text = toAsciiLowercase (trim item) ∨
    ∃ o ∈ observations, text = o.section ∧ 2 ≤ (sharedTerms u (trim item) o.section).length

/-- A match in the lower-cased transcript is a place of the transcript itself. -/
theorem spanOf_found {transcript needle : String} {start : Nat}
    (h : findBytes (toAsciiLowercase needle).toList (toAsciiLowercase transcript).toList
      = some start) :
    ∃ text, SpanOf transcript start (start + byteLen needle) text ∧
      toAsciiLowercase text = toAsciiLowercase needle := by
  obtain ⟨pre, post, hsplit, hlen⟩ := findBytes_spec h
  rw [toAsciiLowercase, toAsciiLowercase, String.toList_ofList, String.toList_ofList] at hsplit
  obtain ⟨front, post', hfront, hpre, hpost⟩ := List.map_eq_append_iff.mp hsplit
  obtain ⟨pre', text, rfl, rfl, htext⟩ := List.map_eq_append_iff.mp hpre
  have hneedle : byteLen (String.ofList text) = byteLen needle := by
    rw [byteLen_ofList, byteLen_eq, ← utf8Len_lower, htext, utf8Len_lower]
  refine ⟨String.ofList text, ⟨String.ofList pre', String.ofList post', ?_, ?_, ?_⟩, ?_⟩
  · rw [← String.ofList_append, ← String.ofList_append, ← hfront, String.ofList_toList]
  · rw [byteLen_ofList, ← hlen, utf8Len_lower]
  · rw [byteLen_append, hneedle, byteLen_ofList, ← hlen, utf8Len_lower]
  · rw [toAsciiLowercase, String.toList_ofList, htext]
    rfl

theorem betterSection_mem {u : Unicode} {needle : String} {ts : List TranscriptSection}
    {best : Option (Nat × Nat × Nat)} {score start stop : Nat}
    (h : ts.foldl (betterSection u needle) best = some (score, start, stop)) :
    best = some (score, start, stop) ∨
      ∃ t ∈ ts, start = t.start ∧ stop = t.end ∧ 2 ≤ (sharedTerms u needle t.text).length := by
  induction ts generalizing best with
  | nil => exact .inl h
  | cons t ts ih =>
      rcases ih h with hbest | ⟨t', ht', hspan⟩
      · rw [betterSection] at hbest
        split at hbest
        · next hbetter =>
            obtain ⟨-, rfl, rfl⟩ : _ ∧ t.start = start ∧ t.end = stop := by
              injection hbest with hbest
              exact ⟨congrArg Prod.fst hbest, congrArg (fun p => p.2.1) hbest,
                congrArg (fun p => p.2.2) hbest⟩
            exact .inr ⟨t, List.mem_cons_self, rfl, rfl, hbetter.1⟩
        · exact .inl hbest
      · exact .inr ⟨t', List.mem_cons_of_mem _ ht', hspan⟩

/-- What is found for an item is evidence for it. -/
theorem bestSourceSpan_spec {u : Unicode} {observations : List Observation} {item : String}
    {start stop : Nat}
    (h : bestSourceSpan u item (buildTranscript observations) (sectionsFrom "" observations)
      = some (start, stop)) :
    ∃ text, SpanOf (buildTranscript observations) start stop text ∧
      IsEvidence u observations item text := by
  rw [bestSourceSpan] at h
  split at h
  · next found hfound =>
      split at hfound
      · obtain ⟨rfl, rfl⟩ := Prod.mk.inj (Option.some.inj h)
        obtain ⟨text, hspan, htext⟩ := spanOf_found hfound
        exact ⟨text, hspan, .inl htext⟩
      · cases hfound
  · split at h
    · cases h
    · obtain ⟨⟨score, start', stop'⟩, hbest, hspan⟩ := Option.map_eq_some_iff.mp h
      obtain ⟨rfl, rfl⟩ := Prod.mk.inj hspan
      rcases betterSection_mem hbest with hnone | ⟨t, ht, rfl, rfl, hshared⟩
      · cases hnone
      · obtain ⟨o, ho, pre, post, hsplit, rfl⟩ := mem_sectionsFrom ht
        rw [sectionAt_text] at hshared
        exact ⟨o.section, ⟨pre, post, hsplit, rfl, rfl⟩, .inr ⟨o, ho, rfl, hshared⟩⟩

end IronMem
