import IronMem.Governance
import IronMem.Influence
import IronMem.Lib.Fallible

/-!
# Normalized task types

`normalize_task_type` answers with a slug: lower-case letters and digits, with single
underscores between them. A slug normalizes to itself, so a list that was canonicalized
once stays as it is.

The loop holds the characters collected so far, last first, and whether the last was a
separator. `SlugSoFar` is its invariant; trimming what it has collected at the ends gives a
slug. In the other direction the loop runs over a slug without dropping anything
(`normalizeTaskChars_self`). The bound of the length is in bytes, but a slug is ASCII.
-/

namespace IronMem

open Fallible

/-! ## Characters -/

theorem alphanumeric_lt {c : Char} (h : isAsciiAlphanumeric c = true) : c.toNat < 123 := by
  simp only [isAsciiAlphanumeric, Bool.or_eq_true, Bool.and_eq_true, decide_eq_true_eq] at h
  have htop : 'Z'.toNat = 90 ∧ 'z'.toNat = 122 ∧ '9'.toNat = 57 := by decide
  have hle : ∀ a b : Char, a ≤ b → a.toNat ≤ b.toNat := fun a b h => UInt32.le_iff_toNat_le.mp h
  rcases h with (h | h) | h
  · have := hle _ _ h.2
    omega
  · have := hle _ _ h.2
    omega
  · have := hle _ _ h.2
    omega

/-- What the letters and digits of a slug are. -/
theorem lowerAscii_alphanumeric {c : Char} (h : isAsciiAlphanumeric c = true) :
    isAsciiAlphanumeric (lowerAscii c) = true ∧ lowerAscii (lowerAscii c) = lowerAscii c ∧
      lowerAscii c ≠ '_' ∧ isWhitespace (lowerAscii c) = false ∧
      isControl (lowerAscii c) = false ∧ (lowerAscii c).utf8Size = 1 ∧ c.utf8Size = 1 := by
  have hsmall : ∀ n < 123, isAsciiAlphanumeric (Char.ofNat n) = true →
      isAsciiAlphanumeric (lowerAscii (Char.ofNat n)) = true ∧
        lowerAscii (lowerAscii (Char.ofNat n)) = lowerAscii (Char.ofNat n) ∧
          lowerAscii (Char.ofNat n) ≠ '_' ∧ isWhitespace (lowerAscii (Char.ofNat n)) = false ∧
            isControl (lowerAscii (Char.ofNat n)) = false ∧
              (lowerAscii (Char.ofNat n)).utf8Size = 1 ∧ (Char.ofNat n).utf8Size = 1 := by
    decide +kernel
  have hfacts := hsmall c.toNat (alphanumeric_lt h)
  rw [Char.ofNat_toNat] at hfacts
  exact hfacts h

/-- A lower-case letter, a digit or an underscore. -/
def SlugChar (c : Char) : Prop := (isAsciiAlphanumeric c = true ∧ lowerAscii c = c) ∨ c = '_'

theorem SlugChar.plain {c : Char} (h : SlugChar c) :
    isWhitespace c = false ∧ isControl c = false ∧ c.utf8Size = 1 := by
  rcases h with ⟨halpha, hlower⟩ | rfl
  · obtain ⟨-, -, -, hwhite, hcontrol, hsize, -⟩ := lowerAscii_alphanumeric halpha
    rw [hlower] at hwhite hcontrol hsize
    exact ⟨hwhite, hcontrol, hsize⟩
  · decide

/-! ## Slugs

What the loop has collected is a slug up to a separator at the end, which the trimming takes
away. Running the loop on a slug collects it character by character. -/

/-- No two underscores follow one another. -/
def SingleUnderscores (cs : List Char) : Prop := cs.IsChain fun a b => ¬(a = '_' ∧ b = '_')

structure Slug (cs : List Char) : Prop where
  nonempty : cs ≠ []
  chars : ∀ c ∈ cs, SlugChar c
  single : SingleUnderscores cs
  first : cs.head? ≠ some '_'
  last : cs.getLast? ≠ some '_'

/-- The characters the loop has collected, last first. -/
structure SlugSoFar (acc : List Char) (separator : Bool) : Prop where
  chars : ∀ c ∈ acc, SlugChar c
  single : SingleUnderscores acc
  first : acc.getLast? ≠ some '_'
  separator : separator = true ↔ acc.head? = some '_'

theorem SlugSoFar.cons {acc : List Char} {separator : Bool} (h : SlugSoFar acc separator) {c : Char}
    (hc : SlugChar c) (hsep : c = '_' → separator = false ∧ acc ≠ []) :
    SlugSoFar (c :: acc) (decide (c = '_')) where
  chars := List.forall_mem_cons.mpr ⟨hc, h.chars⟩
  single := by
    refine List.isChain_cons.mpr ⟨fun d hd hboth => ?_, h.single⟩
    obtain ⟨hno, -⟩ := hsep hboth.1
    rw [hboth.2] at hd
    exact Bool.eq_false_iff.mp hno (h.separator.mpr hd)
  first := by
    cases acc with
    | nil =>
        intro hlast
        exact (hsep (Option.some.inj hlast)).2 rfl
    | cons d acc =>
        rw [List.getLast?_cons_cons]
        exact h.first
  separator := by simp

theorem normalizeTaskChars_slug {value : String} {cs acc res : List Char} {separator : Bool}
    (h : SlugSoFar acc separator) (hrun : normalizeTaskChars value cs acc separator = .ok res) :
    ∃ separator', SlugSoFar res separator' := by
  induction cs generalizing acc separator with
  | nil =>
      obtain rfl := Except.ok.inj hrun
      exact ⟨separator, h⟩
  | cons c cs ih =>
      rw [normalizeTaskChars] at hrun
      split at hrun
      · next halpha =>
          obtain ⟨hlower, hidem, hne, -⟩ := lowerAscii_alphanumeric halpha
          have hnext := h.cons (.inl ⟨hlower, hidem⟩) fun heq => absurd heq hne
          rw [decide_eq_false hne] at hnext
          exact ih hnext hrun
      · split at hrun
        · split at hrun
          · exact ih h hrun
          · next hstop =>
              rw [Bool.not_eq_true, Bool.or_eq_false_iff] at hstop
              have hnext := h.cons (c := '_') (.inr rfl) fun _ =>
                ⟨hstop.1, List.isEmpty_eq_false_iff.mp hstop.2⟩
              exact ih hnext hrun
        · cases hrun

/-- The loop leaves what is left of a slug as it is. -/
theorem normalizeTaskChars_self {value : String} {cs acc : List Char} {separator : Bool}
    (hchars : ∀ c ∈ cs, SlugChar c) (hsingle : SingleUnderscores cs)
    (hfirst : cs.head? = some '_' → separator = false ∧ acc ≠ []) :
    normalizeTaskChars value cs acc separator = .ok (cs.reverse ++ acc) := by
  induction cs generalizing acc separator with
  | nil => rfl
  | cons c cs ih =>
      obtain ⟨hc, hrest⟩ := List.forall_mem_cons.mp hchars
      obtain ⟨hhead, htail⟩ := List.isChain_cons.mp hsingle
      rw [List.reverse_cons, List.append_assoc, List.singleton_append, normalizeTaskChars]
      rcases hc with ⟨halpha, hlower⟩ | rfl
      · rw [if_pos halpha, hlower]
        exact ih hrest htail fun _ => ⟨rfl, List.cons_ne_nil _ _⟩
      · obtain ⟨hsep, hacc⟩ := hfirst rfl
        rw [if_neg (by decide), if_pos (.inl rfl), hsep, List.isEmpty_eq_false_iff.mpr hacc,
          if_neg (by decide)]
        exact ih hrest htail fun hnext => absurd ⟨rfl, rfl⟩ (hhead '_' hnext)

theorem normalizeTaskChars_length {value : String} {cs acc res : List Char} {separator : Bool}
    (hrun : normalizeTaskChars value cs acc separator = .ok res) :
    res.length ≤ cs.length + acc.length := by
  induction cs generalizing acc separator with
  | nil =>
      obtain rfl := Except.ok.inj hrun
      exact Nat.le_add_left _ _
  | cons c cs ih =>
      rw [List.length_cons]
      rw [normalizeTaskChars] at hrun
      split at hrun
      · have hle := ih hrun
        rw [List.length_cons] at hle
        omega
      · split at hrun
        · split at hrun
          · have hle := ih hrun
            omega
          · have hle := ih hrun
            rw [List.length_cons] at hle
            omega
        · cases hrun

/-! ## `normalize_task_type` -/

/-- Every character takes at least one byte. -/
theorem length_le_byteLen (s : String) : s.toList.length ≤ byteLen s := by
  have hsum : ∀ cs : List Char, cs.length ≤ (String.ofList cs).utf8ByteSize := by
    intro cs
    induction cs with
    | nil => exact Nat.zero_le _
    | cons c cs ih =>
        have hpos := Char.utf8Size_pos c
        rw [← List.singleton_append, String.ofList_append, String.utf8ByteSize_append,
          List.length_append, ← String.singleton_eq_ofList, String.utf8ByteSize_singleton,
          List.length_singleton]
        omega
  have h := hsum s.toList
  rwa [String.ofList_toList] at h

theorem byteLen_slug {cs : List Char} (h : ∀ c ∈ cs, SlugChar c) :
    byteLen (String.ofList cs) = cs.length := by
  unfold byteLen
  induction cs with
  | nil => rfl
  | cons c cs ih =>
      obtain ⟨hc, hrest⟩ := List.forall_mem_cons.mp h
      rw [← List.singleton_append, String.ofList_append, String.utf8ByteSize_append, ih hrest,
        ← String.singleton_eq_ofList, String.utf8ByteSize_singleton, hc.plain.2.2,
        List.length_append, List.length_singleton]

/-- What `normalize_task_type` answers with. -/
structure TaskType (s : String) : Prop where
  slug : Slug s.toList
  short : byteLen s ≤ MAX_TASK_TYPE_BYTES

theorem normalizeTaskType_eq_ok {value s : String} :
    normalizeTaskType value = .ok s ↔ (trim value).isEmpty = false ∧
      byteLen (trim value) ≤ MAX_TASK_TYPE_BYTES ∧ (trim value).toList.any isControl = false ∧
      ∃ reversed, normalizeTaskChars (trim value) (trim value).toList [] false = .ok reversed ∧
        (reversed.dropWhile (· == '_')).reverse ≠ [] ∧
          String.ofList (reversed.dropWhile (· == '_')).reverse = s := by
  unfold normalizeTaskType
  generalize trim value = v
  cases hempty : v.isEmpty with
  | true => simp only [hempty, if_true, throw_bind_eq_ok, Bool.true_eq_false, false_and]
  | false =>
      by_cases hlong : MAX_TASK_TYPE_BYTES < byteLen v
      · simp only [hempty, Bool.false_eq_true, if_false, hlong, if_true, throw_bind_eq_ok,
          Nat.not_le.mpr hlong, false_and, and_false]
      · cases hcontrol : v.toList.any isControl with
        | true =>
            simp only [hempty, Bool.false_eq_true, if_false, hlong, hcontrol, if_true, throw_bind_eq_ok,
              Bool.true_eq_false, false_and, and_false]
        | false =>
            simp only [hempty, Bool.false_eq_true, if_false, hlong, hcontrol, bind_eq_ok,
              Nat.not_lt.mp hlong, true_and]
            refine exists_congr fun reversed => and_congr_right fun _ => ?_
            by_cases hnone : (reversed.dropWhile (· == '_')).reverse = []
            · simp only [hnone, List.isEmpty_nil, if_true, throw_bind_eq_ok, ne_eq, not_true_eq_false,
                false_and]
            · simp only [List.isEmpty_eq_false_iff.mpr hnone, Bool.false_eq_true, if_false, ne_eq,
                hnone, not_false_eq_true, true_and]
              exact pure_eq_ok

theorem normalizeTaskType_slug {value s : String} (h : normalizeTaskType value = .ok s) :
    TaskType s := by
  obtain ⟨-, hlen, -, reversed, hrun, hne, rfl⟩ := normalizeTaskType_eq_ok.mp h
  have hstart : SlugSoFar [] false := ⟨by simp, List.isChain_nil, by simp, by simp⟩
  obtain ⟨separator, hsofar⟩ := normalizeTaskChars_slug hstart hrun
  generalize hrest : reversed.dropWhile (· == '_') = rest at hne ⊢
  have hsuffix : rest <:+ reversed := hrest ▸ List.dropWhile_suffix _
  have hchars : ∀ c ∈ rest.reverse, SlugChar c := fun c hc =>
    hsofar.chars c (hsuffix.subset (List.mem_reverse.mp hc))
  have hsingle : SingleUnderscores rest.reverse := by
    refine List.isChain_reverse.mpr ?_
    exact (hsofar.single.suffix hsuffix).imp fun a b hab hboth => hab ⟨hboth.2, hboth.1⟩
  refine ⟨⟨by rwa [String.toList_ofList], by rwa [String.toList_ofList],
    by rwa [String.toList_ofList], ?_, ?_⟩, ?_⟩
  · rw [String.toList_ofList, List.head?_reverse]
    obtain ⟨before, hbefore⟩ := hsuffix
    intro hlast
    refine hsofar.first ?_
    rw [← hbefore, List.getLast?_append, hlast]
    rfl
  · rw [String.toList_ofList, List.getLast?_reverse, ← hrest]
    intro hhead
    have hnot := List.head?_dropWhile_not (· == '_') reversed
    rw [hhead] at hnot
    simp at hnot
  · rw [byteLen_slug hchars, List.length_reverse]
    have hloop := normalizeTaskChars_length hrun
    have hbytes := length_le_byteLen (trim value)
    have hsub := hsuffix.length_le
    rw [List.length_nil, Nat.add_zero] at hloop
    omega

theorem TaskType.trim_eq {s : String} (h : TaskType s) : trim s = s := by
  rw [trim, trimChars_of_no_whitespace fun c hc => (h.slug.chars c hc).plain.1, String.ofList_toList]

/-- A task type normalizes to itself. -/
theorem TaskType.normalize {s : String} (h : TaskType s) : normalizeTaskType s = .ok s := by
  rw [normalizeTaskType_eq_ok, h.trim_eq]
  refine ⟨?_, h.short, ?_, s.toList.reverse, ?_, ?_, ?_⟩
  · rw [Bool.eq_false_iff, ne_eq, String.isEmpty_iff]
    rintro rfl
    exact h.slug.nonempty rfl
  · rw [List.any_eq_false]
    exact fun c hc => by rw [(h.slug.chars c hc).plain.2.1]; decide
  · have hloop : normalizeTaskChars s s.toList [] false = _ :=
      normalizeTaskChars_self h.slug.chars h.slug.single fun hfirst => absurd hfirst h.slug.first
    rwa [List.append_nil] at hloop
  all_goals
    have hlast := h.slug.last
    have hne := h.slug.nonempty
    have hdrop : s.toList.reverse.dropWhile (· == '_') = s.toList.reverse := by
      rw [← List.head?_reverse] at hlast
      cases hrev : s.toList.reverse with
      | nil => rfl
      | cons c cs =>
          rw [hrev, List.head?_cons] at hlast
          rw [List.dropWhile_cons_of_neg]
          simpa using hlast
    rw [hdrop, List.reverse_reverse]
  · exact hne
  · exact String.ofList_toList

/-! ## `canonicalize_task_types` -/

/-- The keys a list leaves in a set. -/
def taskTypeSet (taskTypes : List String) : BTreeMap Unit :=
  taskTypes.foldl (fun (m : BTreeMap Unit) t => m.insert t ()) ∅

theorem mem_foldl_insert {l : List String} {m : BTreeMap Unit} {t : String} :
    t ∈ l.foldl (fun (m : BTreeMap Unit) t => m.insert t ()) m ↔ t ∈ m ∨ t ∈ l := by
  induction l generalizing m with
  | nil => simp
  | cons x l ih =>
      rw [List.foldl_cons, ih, Std.ExtTreeMap.mem_insert, List.mem_cons,
        Std.LawfulEqCmp.compare_eq_iff_eq]
      tauto

theorem size_foldl_insert {l : List String} {m : BTreeMap Unit} :
    (l.foldl (fun (m : BTreeMap Unit) t => m.insert t ()) m).size ≤ m.size + l.length := by
  induction l generalizing m with
  | nil => exact Nat.le_refl _
  | cons x l ih =>
      have hone := Std.ExtTreeMap.size_insert_le (t := m) (k := x) (v := ())
      have hrest := ih (m := m.insert x ())
      rw [List.foldl_cons, List.length_cons]
      omega

theorem taskTypeSet_keys (m : BTreeMap Unit) : taskTypeSet m.keys = m := by
  refine Std.ExtTreeMap.ext_mem_unit fun t => ?_
  rw [taskTypeSet, mem_foldl_insert, Std.ExtTreeMap.mem_keys]
  simp

/-- A list `canonicalize_task_types` leaves as it is. -/
def Canonical (taskTypes : List String) : Prop := canonicalizeTaskTypes taskTypes = .ok taskTypes

theorem canonicalizeTaskTypes_eq_ok {taskTypes l : List String} :
    canonicalizeTaskTypes taskTypes = .ok l ↔ taskTypes.length ≤ MAX_TASK_TYPES ∧
      ∃ normalized, taskTypes.mapM normalizeTaskType = .ok normalized ∧
        (taskTypeSet normalized).keys = l := by
  unfold canonicalizeTaskTypes
  by_cases hlong : MAX_TASK_TYPES < taskTypes.length
  · rw [if_pos hlong, bind_eq_ok]
    simp [throw, throwThe, MonadExceptOf.throw, Nat.not_le.mpr hlong]
  · simp only [if_neg hlong, bind_eq_ok, Nat.not_lt.mp hlong, true_and]
    exact exists_congr fun normalized => and_congr_right fun _ => pure_eq_ok

theorem canonical_nil : Canonical [] := rfl

theorem canonicalizeTaskTypes_canonical {taskTypes l : List String}
    (h : canonicalizeTaskTypes taskTypes = .ok l) : Canonical l := by
  obtain ⟨hlen, normalized, hmap, rfl⟩ := canonicalizeTaskTypes_eq_ok.mp h
  have hall := forall₂_of_mapM hmap
  refine canonicalizeTaskTypes_eq_ok.mpr ⟨?_, (taskTypeSet normalized).keys, ?_, ?_⟩
  · rw [Std.ExtTreeMap.length_keys]
    have hsize := size_foldl_insert (l := normalized) (m := ∅)
    have heq := hall.length_eq
    rw [Std.ExtTreeMap.size_empty, Nat.zero_add] at hsize
    exact Nat.le_trans hsize (heq ▸ hlen)
  · refine mapM_of_forall₂ (List.forall₂_same.mpr fun t ht => ?_)
    rw [Std.ExtTreeMap.mem_keys, taskTypeSet, mem_foldl_insert] at ht
    rcases ht with ht | ht
    · simp at ht
    · obtain ⟨value, -, hvalue⟩ := forall₂_right hall t ht
      exact (normalizeTaskType_slug hvalue).normalize
  · rw [taskTypeSet_keys]

end IronMem
