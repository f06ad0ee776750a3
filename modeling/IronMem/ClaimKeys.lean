import IronMem.GraphReconcile

/-!
# Claim keys

The contradiction set of two edges that disagree is found by a key, made of source and
relation. The key keeps the ASCII letters and digits of its text, in words joined by
dots. What else a source is made of is lost.

`canonical_claim_key` is one loop with a state of its own (a word is being read, or a
separator has been). Its result is stated without the loop: the key of a text is its ASCII
words, joined by dots, where there are some and the whole is short enough
(`canonicalClaimKey_ok_iff`). The two invariants of the loop are `ReadsWord` and
`ReadsNext`.

A key is taken of the text `source.relation`, so that the words of both follow one another
and a reader might not know where the relation begins. For the relations in question it
does: the last words say which one it is (`single_decodable`), and source and relation can
be told apart (`joinedKey_inj`). Two edges therefore share a set exactly when the words
agree. What the code does with the key is `detectGraphContradiction_members`: the members
it adds go to the set of the edge.
-/

namespace IronMem

open Fallible Words

/-! ## The words of a key

The loop drops what is neither an ASCII letter or digit nor a separator, and makes one dot of
the separators between two words. A key is thus a list of words, and this section says of which. -/

def isKeySeparator (c : Char) : Bool := c ∈ ['.', '_', '-', ' ', ':', '/']

/-- What of a text reaches the key. -/
def keyChars (l : List Char) : List Char :=
  (l.filter fun c => c.isAlphanum || isKeySeparator c).map lowerAscii

/-- The ASCII words of a text. -/
def keyWords (l : List Char) : List (List Char) := words isKeySeparator (keyChars l)

/-- `while result.ends_with('.')`. -/
def stripDots (l : List Char) : List Char := (l.reverse.dropWhile (· == '.')).reverse

/-- The words are not empty and have no separators. -/
def Joinable (ws : List (List Char)) : Prop := ∀ w ∈ ws, w ≠ [] ∧ ∀ c ∈ w, isKeySeparator c = false

section Scan

variable {c : Char} {l w : List Char} {ws : List (List Char)}

theorem stripDots_concat (hc : c ≠ '.') (l : List Char) : stripDots (l ++ [c]) = l ++ [c] := by
  rw [stripDots, List.reverse_append, List.reverse_singleton, List.singleton_append,
    List.dropWhile_cons_of_neg (by simpa using hc), List.reverse_cons, List.reverse_reverse]

theorem stripDots_dot (l : List Char) : stripDots (l ++ ['.']) = stripDots l := by
  rw [stripDots, List.reverse_append, List.reverse_singleton, List.singleton_append,
    List.dropWhile_cons_of_pos rfl, ← stripDots]

theorem stripDots_join (h : Joinable ws) : stripDots (['.'].intercalate ws) = ['.'].intercalate ws := by
  rcases List.eq_nil_or_concat' ws with rfl | ⟨front, last, rfl⟩
  · rfl
  · obtain ⟨hne, hlast⟩ := h last (by simp)
    rcases List.eq_nil_or_concat' last with rfl | ⟨body, d, rfl⟩
    · exact absurd rfl hne
    · have hd : d ≠ '.' := by
        rintro rfl
        exact absurd (hlast '.' (by simp)) (by decide)
      rw [intercalate_grow]
      exact stripDots_concat hd _

theorem lowerAscii_alphanum (h : c.isAlphanum = true) : isKeySeparator (lowerAscii c) = false ∧
    isWhitespace c = false := by
  have hsmall : ∀ n < 123, (Char.ofNat n).isAlphanum = true →
      isKeySeparator (lowerAscii (Char.ofNat n)) = false ∧ isWhitespace (Char.ofNat n) = false := by
    decide
  have hc := hsmall c.toNat (isAlphanum_lt h)
  rw [Char.ofNat_toNat] at hc
  exact hc h

theorem isKeySeparator_cases (h : isKeySeparator c = true) :
    c.isAlphanum = false ∧ lowerAscii c = c ∧ isControl c = false := by
  simp only [isKeySeparator, List.mem_cons, List.not_mem_nil, or_false, decide_eq_true_eq] at h
  rcases h with rfl | rfl | rfl | rfl | rfl | rfl <;> decide

theorem keyChars_alphanum (h : c.isAlphanum = true) :
    keyChars (c :: l) = lowerAscii c :: keyChars l := by
  rw [keyChars, List.filter_cons_of_pos (by rw [h, Bool.true_or]), List.map_cons, ← keyChars]

theorem keyChars_separator (h : isKeySeparator c = true) : keyChars (c :: l) = c :: keyChars l := by
  rw [keyChars, List.filter_cons_of_pos (by rw [h, Bool.or_true]), List.map_cons, ← keyChars,
    (isKeySeparator_cases h).2.1]

theorem keyChars_other (h : c.isAlphanum = false) (hsep : isKeySeparator c = false) :
    keyChars (c :: l) = keyChars l := by
  rw [keyChars, List.filter_cons_of_neg (by rw [h, hsep]; exact Bool.false_ne_true), ← keyChars]

/-! ### One character -/

variable {acc : List Char × Bool}

theorem claimKeyChar_alphanum (h : c.isAlphanum = true) :
    claimKeyChar acc c = .ok (acc.1 ++ [lowerAscii c], false) := by
  rw [claimKeyChar, if_pos h]

theorem claimKeyChar_separator (h : isKeySeparator c = true) : claimKeyChar acc c
    = .ok (if acc.2 = false ∧ acc.1 ≠ [] then (acc.1 ++ ['.'], true) else acc) := by
  obtain ⟨halnum, -, hcontrol⟩ := isKeySeparator_cases h
  have hmem : c ∈ ['.', '_', '-', ' ', ':', '/'] := by simpa [isKeySeparator] using h
  rw [claimKeyChar, if_neg (by rw [halnum]; exact Bool.false_ne_true)]
  by_cases hstate : acc.2 = false ∧ acc.1 ≠ []
  · rw [if_pos ⟨hmem, hstate⟩, if_pos hstate]
  · rw [if_neg (fun hand => hstate hand.2), if_neg (by rw [hcontrol]; exact Bool.false_ne_true),
      if_neg hstate]

theorem claimKeyChar_other (halnum : c.isAlphanum = false) (hsep : isKeySeparator c = false)
    (hcontrol : isControl c = false) : claimKeyChar acc c = .ok acc := by
  have hmem : c ∉ ['.', '_', '-', ' ', ':', '/'] := by simpa [isKeySeparator] using hsep
  rw [claimKeyChar, if_neg (by rw [halnum]; exact Bool.false_ne_true),
    if_neg (fun hand => hmem hand.1), if_neg (by rw [hcontrol]; exact Bool.false_ne_true)]

/-! ### The loop -/

theorem Joinable.concat_ne_nil (h : Joinable (ws ++ [w])) : ['.'].intercalate (ws ++ [w]) ≠ [] := by
  by_cases hws : ws = []
  · rw [hws, List.nil_append, List.intercalate_singleton]
    exact (h w (by simp)).1
  · rw [intercalate_concat hws]
    simp

theorem Joinable.grow (h : Joinable (ws ++ [w])) (hc : isKeySeparator c = false) :
    Joinable (ws ++ [w ++ [c]]) := by
  intro v hv
  rcases List.mem_append.mp hv with hv | hv
  · exact h v (List.mem_append_left _ hv)
  · rw [List.mem_singleton.mp hv]
    refine ⟨by simp, fun d hd => ?_⟩
    rcases List.mem_append.mp hd with hd | hd
    · exact (h w (by simp)).2 d hd
    · rwa [List.mem_singleton.mp hd]

/-- The loop while a word is being read. -/
def ReadsWord (l : List Char) : Prop := ∀ ws w, Joinable (ws ++ [w]) →
  ∃ st, l.foldlM claimKeyChar (['.'].intercalate (ws ++ [w]), false) = .ok st ∧
    stripDots st.1 = ['.'].intercalate (ws ++ words isKeySeparator (w ++ keyChars l))

/-- The loop at the start and after a separator. -/
def ReadsNext (l : List Char) : Prop := ∀ ws, Joinable ws →
  ∃ st, l.foldlM claimKeyChar
      (if ws = [] then ([], false) else (['.'].intercalate ws ++ ['.'], true)) = .ok st ∧
    stripDots st.1 = ['.'].intercalate (ws ++ keyWords l)

theorem ReadsWord.cons (hword : ReadsWord l) (hnext : ReadsNext l) (hcontrol : isControl c = false) :
    ReadsWord (c :: l) := by
  intro ws w h
  have hw := h w (by simp)
  rw [List.foldlM_cons]
  cases halnum : c.isAlphanum with
  | true =>
      have hread : w ++ lowerAscii c :: keyChars l = w ++ [lowerAscii c] ++ keyChars l :=
        List.append_cons _ _ _
      rw [claimKeyChar_alphanum halnum, ← intercalate_grow, keyChars_alphanum halnum, hread]
      exact hword ws _ (h.grow (lowerAscii_alphanum halnum).1)
  | false =>
      cases hsep : isKeySeparator c with
      | true =>
          have hstart := hnext (ws ++ [w]) h
          rw [if_neg (by simp)] at hstart
          have hread : ws ++ w :: words isKeySeparator (keyChars l) = ws ++ [w] ++ keyWords l :=
            List.append_cons _ _ _
          rw [claimKeyChar_separator hsep, if_pos ⟨rfl, h.concat_ne_nil⟩, keyChars_separator hsep,
            words_word_separator hw.2 hw.1 hsep, hread]
          exact hstart
      | false =>
          rw [claimKeyChar_other halnum hsep hcontrol, keyChars_other halnum hsep]
          exact hword ws w h

theorem ReadsNext.cons (hword : ReadsWord l) (hnext : ReadsNext l) (hcontrol : isControl c = false) :
    ReadsNext (c :: l) := by
  intro ws h
  rw [List.foldlM_cons, keyWords]
  cases halnum : c.isAlphanum with
  | true =>
      have hc := (lowerAscii_alphanum halnum).1
      have hjoin : Joinable (ws ++ [[lowerAscii c]]) := by
        intro v hv
        rcases List.mem_append.mp hv with hv | hv
        · exact h v hv
        · rw [List.mem_singleton.mp hv]
          exact ⟨by simp, fun d hd => by rwa [List.mem_singleton.mp hd]⟩
      have hacc : (if ws = [] then (([] : List Char), false) else (['.'].intercalate ws ++ ['.'], true)).1
          ++ [lowerAscii c] = ['.'].intercalate (ws ++ [[lowerAscii c]]) := by
        by_cases hws : ws = []
        · rw [if_pos hws, hws, List.nil_append, List.nil_append, List.intercalate_singleton]
        · rw [if_neg hws, intercalate_concat hws]
      rw [claimKeyChar_alphanum halnum, hacc, keyChars_alphanum halnum]
      exact hword ws [lowerAscii c] hjoin
  | false =>
      cases hsep : isKeySeparator c with
      | true =>
          have hidle : ¬ ((if ws = [] then (([] : List Char), false)
              else (['.'].intercalate ws ++ ['.'], true)).2 = false ∧
                (if ws = [] then (([] : List Char), false)
                  else (['.'].intercalate ws ++ ['.'], true)).1 ≠ []) := by
            by_cases hws : ws = [] <;> simp [hws]
          rw [claimKeyChar_separator hsep, if_neg hidle, keyChars_separator hsep,
            words_separator hsep]
          exact hnext ws h
      | false =>
          rw [claimKeyChar_other halnum hsep hcontrol, keyChars_other halnum hsep]
          exact hnext ws h

theorem claimKeyChar_scan (hcontrol : ∀ c ∈ l, isControl c = false) : ReadsWord l ∧ ReadsNext l := by
  induction l with
  | nil =>
      refine ⟨fun ws w h => ⟨_, rfl, ?_⟩, fun ws h => ⟨_, rfl, ?_⟩⟩
      · have hw := h w (by simp)
        rw [stripDots_join h, show keyChars [] = [] from rfl, List.append_nil,
          words_singleton hw.2 hw.1]
      · rw [keyWords, show keyChars [] = [] from rfl, words_nil, List.append_nil]
        split
        · next hnil => rw [hnil]; rfl
        · rw [stripDots_dot, stripDots_join h]
  | cons c l ih =>
      obtain ⟨hword, hnext⟩ := ih fun d hd => hcontrol d (List.mem_cons_of_mem _ hd)
      have hc := hcontrol c List.mem_cons_self
      exact ⟨hword.cons hnext hc, hnext.cons hword hc⟩

/-! ### The key -/

theorem whitespace_not_alphanum (h : isWhitespace c = true) : c.isAlphanum = false := by
  by_contra hne
  have hc := (lowerAscii_alphanum (Bool.of_not_eq_false hne)).2
  rw [h] at hc
  cases hc

theorem keyWords_whitespace_cons (h : isWhitespace c = true) : keyWords (c :: l) = keyWords l := by
  have halnum := whitespace_not_alphanum h
  cases hsep : isKeySeparator c with
  | true => rw [keyWords, keyChars_separator hsep, words_separator hsep, ← keyWords]
  | false => rw [keyWords, keyChars_other halnum hsep, ← keyWords]

theorem keyChars_append (l l' : List Char) : keyChars (l ++ l') = keyChars l ++ keyChars l' := by
  rw [keyChars, List.filter_append, List.map_append, ← keyChars, ← keyChars]

theorem keyWords_separator (hc : isKeySeparator c = true) (l l' : List Char) :
    keyWords (l ++ c :: l') = keyWords l ++ keyWords l' := by
  rw [keyWords, keyChars_append, keyChars_separator hc, words_append_separator hc, ← keyWords,
    ← keyWords]

theorem keyWords_concat_whitespace (h : isWhitespace c = true) (l : List Char) :
    keyWords (l ++ [c]) = keyWords l := by
  have halnum := whitespace_not_alphanum h
  cases hsep : isKeySeparator c with
  | true =>
      rw [keyWords_separator hsep, show keyWords [] = [] from rfl, List.append_nil]
  | false =>
      rw [keyWords, keyChars_append, keyChars_other halnum hsep, show keyChars [] = [] from rfl,
        List.append_nil, ← keyWords]

/-- Trimming takes no words away. -/
theorem keyWords_trimChars (l : List Char) : keyWords (trimChars l) = keyWords l := by
  have hfront : ∀ l, keyWords (l.dropWhile isWhitespace) = keyWords l := by
    intro l
    induction l with
    | nil => rfl
    | cons c l ih =>
        cases hc : isWhitespace c with
        | true => rw [List.dropWhile_cons_of_pos hc, ih, keyWords_whitespace_cons hc]
        | false => rw [List.dropWhile_cons_of_neg (by rw [hc]; exact Bool.false_ne_true)]
  have hback : ∀ l : List Char, keyWords (l.reverse.dropWhile isWhitespace).reverse = keyWords l := by
    intro l
    induction l using List.reverseRecOn with
    | nil => rfl
    | append_singleton l c ih =>
        rw [List.reverse_append, List.reverse_singleton, List.singleton_append]
        cases hc : isWhitespace c with
        | true =>
            rw [List.dropWhile_cons_of_pos hc, ih, keyWords_concat_whitespace hc]
        | false =>
            rw [List.dropWhile_cons_of_neg (by rw [hc]; exact Bool.false_ne_true), List.reverse_cons,
              List.reverse_reverse]
  rw [trimChars, hback, hfront]

theorem joinable_keyWords (l : List Char) : Joinable (keyWords l) := fun _ hw => mem_words hw

/-- The key of a text without control characters. -/
def joinedKey (ws : List (List Char)) : String := String.ofList (['.'].intercalate ws)

/-- A text has a key where its words are neither none nor too many. -/
theorem canonicalClaimKey_ok_iff {value k : String} (hcontrol : ∀ c ∈ value.toList, isControl c = false) :
    canonicalClaimKey value = .ok k ↔ k = joinedKey (keyWords value.toList) ∧ k.isEmpty = false ∧
      byteLen k ≤ MAX_CLAIM_KEY_BYTES := by
  have htrim : ∀ c ∈ trimChars value.toList, isControl c = false := by
    intro c hc
    refine hcontrol c ?_
    rw [trimChars, List.mem_reverse] at hc
    have hback := (List.dropWhile_sublist _).subset hc
    rw [List.mem_reverse] at hback
    exact (List.dropWhile_sublist _).subset hback
  obtain ⟨st, hscan, hstrip⟩ := (claimKeyChar_scan htrim).2 [] (fun w hw => by cases hw)
  rw [if_pos rfl] at hscan
  rw [List.nil_append, keyWords_trimChars] at hstrip
  have hvalue : canonicalClaimKey value = (do
      ensure (!(String.ofList (stripDots st.1)).isEmpty
        && decide (byteLen (String.ofList (stripDots st.1)) ≤ MAX_CLAIM_KEY_BYTES))
        ("claim key must contain 1 to " ++ toString MAX_CLAIM_KEY_BYTES ++ " bytes")
      return String.ofList (stripDots st.1)) := by
    rw [canonicalClaimKey, hscan]
    rfl
  rw [hvalue, hstrip, ← joinedKey, bind_eq_ok]
  simp only [ensure_eq_ok, pure_eq_ok, Bool.and_eq_true, Bool.not_eq_true', decide_eq_true_eq]
  constructor
  · rintro ⟨_, hfit, rfl⟩
    exact ⟨rfl, hfit⟩
  · rintro ⟨rfl, hfit⟩
    exact ⟨(), hfit, rfl⟩

end Scan

/-! ## The set of an edge

The detection looks for a set of the claim, in the namespace and the scope of the memory that
owns the edge, and creates one where there is none. It adds the memories of the edges that
disagree, and reopens the set when one of them is new. -/

/-- The `WHERE` by which a set is found. -/
structure IsClaimSet (ns realm : String) (project : Option String) (claimKey : String) (r : Record) :
    Prop where
  ns : r.col "namespace" = .str (normalizeNamespace ns)
  realm : r.col "realm" = .str realm
  project : coalesced (r.col "project") = coalesced (Value.ofOptionStr project)
  claimKey : r.col "claim_key" = .str claimKey

/-- The set that the detection of an edge puts memories into, where the owner of the edge has
this namespace and scope. -/
def EdgeCall.SetFor (u : Unicode) (c : EdgeCall) (ns scope : String) (r : Record) : Prop :=
  ∃ claimKey, canonicalClaimKey ((c.key u).sourceNorm ++ "." ++ (c.key u).relationNorm) = .ok claimKey ∧
    if scope = "user" then IsClaimSet ns "user" none claimKey r
    else IsClaimSet ns "project" (some c.edge.project) claimKey r

section Detection

variable {ℓ : Type} {label : EnsureStatement → ℓ} {codec : Codec} {db db' : Database} {u : Unicode}
  {c : EdgeCall} {setId proposedId ns realm claimKey targetNorm id : String} {now ledgerNow : Int}
  {project : Option String} {ids : List Int} {n n' : Nat} {m : Record}

theorem insertOrIgnore_rows {name : String} {r : Record} (h : insertOrIgnore name r db = .ok (n, db')) :
    ∀ m ∈ db'.table name, m ∈ db.table name ∨ m = r := by
  unfold insertOrIgnore at h
  split at h
  · obtain ⟨-, rfl⟩ := Prod.mk.inj (Except.ok.inj h)
    exact fun m hm => Or.inl hm
  · obtain ⟨t, ht, h⟩ := bind_eq_ok.mp h
    obtain ⟨-, rfl⟩ := Prod.mk.inj (pure_eq_ok.mp h)
    obtain ⟨_, -, ht⟩ := bind_eq_ok.mp ht
    obtain rfl := pure_eq_ok.mp ht
    intro m hm
    rw [Database.table_insertRow, if_pos rfl, List.mem_append, List.mem_singleton] at hm
    exact hm

/-- Members are inserted into the set that is asked for. -/
theorem insertMembers_members
    (h : (insertMembers label setId proposedId now n ids).run Proc.noFault db = (.ok n', db')) :
    db'.table "contradiction_sets" = db.table "contradiction_sets" ∧
      ∀ m ∈ db'.table "contradiction_members", m ∈ db.table "contradiction_members" ∨
        m.col "contradiction_set_id" = .str setId := by
  induction ids generalizing n db with
  | nil =>
      obtain ⟨-, rfl⟩ := Prod.mk.inj h
      exact ⟨rfl, fun m hm => Or.inl hm⟩
  | cons id ids ih =>
      obtain ⟨added, s, hinsert, hrest⟩ := Proc.run_bind_ok h
      have hinserted := Proc.run_exec_ok hinsert
      obtain ⟨hsets, hmembers⟩ := ih hrest
      refine ⟨hsets.trans (insertOrIgnore_frame hinserted (by decide)), fun m hm => ?_⟩
      rcases hmembers m hm with hold | hnew
      · rcases insertOrIgnore_rows hinserted m hold with hold | rfl
        · exact Or.inl hold
        · exact Or.inr (by simp [jsonObject])
      · exact Or.inr hnew

/-- A set after a detection. -/
def reopened (setId proposedId : String) (now : Int) (r : Record) : Record :=
  if r.col "id" = .str setId ∧ r.col "id" ≠ .str proposedId then
    ((((((r.set "status" (.str "unresolved")).set "preferred_memory_id" .null).set
      "resolution_basis" .null).set "resolved_by" .null).set "version"
      (.int ((r.integer "version").getD 0 + 1))).set "updated_at" (.int now))
  else r

theorem reopened_col {r : Record} {f : String} (hf : f ∈ ["id", "namespace", "realm", "project", "claim_key"]) :
    (reopened setId proposedId now r).col f = r.col f := by
  unfold reopened
  split
  · simp only [List.mem_cons, List.not_mem_nil, or_false] at hf
    rcases hf with rfl | rfl | rfl | rfl | rfl <;> simp
  · rfl

theorem table_reopenContradictionSet :
    (reopenContradictionSet setId proposedId now db).table "contradiction_sets"
      = (db.table "contradiction_sets").map (reopened setId proposedId now) := by
  rw [reopenContradictionSet, Database.table_updateRows, if_pos rfl]
  refine List.map_congr_left fun r _ => ?_
  simp only [reopened, decide_eq_true_eq]

theorem IsClaimSet.reopen {r : Record} (h : IsClaimSet ns realm project claimKey r) :
    IsClaimSet ns realm project claimKey (reopened setId proposedId now r) where
  ns := (reopened_col (by simp)).trans h.ns
  realm := (reopened_col (by simp)).trans h.realm
  project := by rw [reopened_col (by simp), h.project]
  claimKey := (reopened_col (by simp)).trans h.claimKey

/-- New members go to the set that is found by the key. -/
theorem ensureGraphContradictionSet_members
    (h : (ensureGraphContradictionSet label codec proposedId now ledgerNow ns realm project claimKey
      ids).run Proc.noFault db = (.ok id, db')) :
    ∃ r ∈ db'.table "contradiction_sets", IsClaimSet ns realm project claimKey r ∧
      r.col "id" = .str id ∧ ∀ m ∈ db'.table "contradiction_members",
        m ∈ db.table "contradiction_members" ∨ m.col "contradiction_set_id" = .str id := by
  obtain ⟨_, s, hcreate, h₁⟩ := Proc.run_bind_ok h
  obtain ⟨found, s₁, hfind, h₂⟩ := Proc.run_bind_ok h₁
  obtain ⟨hfound, hs⟩ := Proc.run_query_ok hfind
  rw [hs] at h₂
  have hcreated := insertOrIgnore_frame (Proc.run_exec_ok hcreate)
    (m := "contradiction_members") (by decide)
  dsimp only at h₂
  split at h₂
  · cases h₂
  · next setId hid =>
      obtain ⟨r, hr, hrid⟩ := Option.bind_eq_some_iff.mp hid
      rw [hfound] at hr
      have hmem := List.mem_of_find?_eq_some hr
      have hset : IsClaimSet ns realm project claimKey r := by
        have hwhere := List.find?_some hr
        simp only [decide_eq_true_eq] at hwhere
        exact ⟨hwhere.1, hwhere.2.1, hwhere.2.2.1, hwhere.2.2.2⟩
      have hcol : r.col "id" = .str setId := Value.asStr_eq_some.mp hrid
      obtain ⟨inserted, s₂, hinsert, h₃⟩ := Proc.run_bind_ok h₂
      obtain ⟨hsets, hmembers⟩ := insertMembers_members hinsert
      rw [hcreated] at hmembers
      split at h₃
      · obtain ⟨hdone, rfl⟩ := Prod.mk.inj h₃
        obtain rfl := Except.ok.inj hdone
        exact ⟨r, hsets ▸ hmem, hset, hcol, hmembers⟩
      · obtain ⟨_, s₃, hreopen, h₄⟩ := Proc.run_bind_ok h₃
        obtain ⟨_, s₄, hledger, h₅⟩ := Proc.run_bind_ok h₄
        obtain ⟨hdone, rfl⟩ := Prod.mk.inj h₅
        obtain rfl := Except.ok.inj hdone
        obtain ⟨-, rfl⟩ := Prod.mk.inj (Except.ok.inj (Proc.run_exec_ok hreopen))
        have hframe : ∀ name, name ≠ "memory_ledger" → s₄.table name
            = (reopenContradictionSet setId proposedId now s₂).table name :=
          fun name hname => appendMemoryLedger_frame (Proc.run_exec_ok hledger) hname
        refine ⟨reopened setId proposedId now r, ?_, hset.reopen, (reopened_col (by simp)).trans hcol,
          ?_⟩
        · rw [hframe _ (by decide), table_reopenContradictionSet, hsets]
          exact List.mem_map_of_mem hmem
        · rw [hframe _ (by decide), reopenContradictionSet, Database.table_updateRows,
            if_neg (by decide)]
          exact hmembers

/-- What detection adds goes to the set of the edge, by the namespace and the scope of its
owner. -/
theorem detectGraphContradiction_members {owner m : Record}
    (howner : (db.table "memory_meta").find? (fun m => m.col "memory_id" = .int c.edge.memoryId)
      = some owner)
    (h : (detectGraphContradiction codec c (c.key u) targetNorm).run Proc.noFault db = (.ok (), db'))
    (hm : m ∈ db'.table "contradiction_members") (hnew : m ∉ db.table "contradiction_members") :
    ∃ r ∈ db'.table "contradiction_sets", m.col "contradiction_set_id" = r.col "id" ∧
      c.SetFor u ((owner.text "namespace").getD "") ((owner.text "scope").getD "") r := by
  unfold detectGraphContradiction at h
  split at h
  · obtain ⟨-, rfl⟩ := Prod.mk.inj h
    exact absurd hm hnew
  · obtain ⟨found, s₁, hread, h₁⟩ := Proc.run_bind_ok h
    obtain ⟨hfound, hs⟩ := Proc.run_query_ok hread
    rw [hs, hfound, howner] at h₁
    dsimp only at h₁
    obtain ⟨rows, s₂, hrows, h₂⟩ := Proc.run_bind_ok h₁
    obtain ⟨-, hs₂⟩ := Proc.run_query_ok hrows
    rw [hs₂] at h₂
    split at h₂
    · obtain ⟨-, rfl⟩ := Prod.mk.inj h₂
      exact absurd hm hnew
    · obtain ⟨claimKey, s₃, hkey, h₃⟩ := Proc.run_bind_ok h₂
      obtain ⟨hkey, hs₃⟩ := Proc.run_lift_ok hkey
      rw [hs₃] at h₃
      obtain ⟨id, s₄, hensure, h₄⟩ := Proc.run_bind_ok h₃
      obtain ⟨-, rfl⟩ := Prod.mk.inj h₄
      obtain ⟨r, hr, hset, hid, hmembers⟩ := ensureGraphContradictionSet_members hensure
      refine ⟨r, hr, ((hmembers m hm).resolve_left hnew).trans hid.symm, claimKey, hkey, ?_⟩
      by_cases huser : (owner.text "scope").getD "" = "user"
      · rw [if_pos huser] at hset ⊢
        exact hset
      · rw [if_neg huser] at hset ⊢
        exact hset

end Detection

/-! ## When two edges share a set

The relations that take one value are a fixed list, of words joined by underscores, which the
key turns into dots. Read from the end, the words of a key tell which relation it is, and the
words before are the source's. -/

section Sharing

variable {u : Unicode} {c c₁ c₂ : EdgeCall} {ns scope : String} {s r : String}

theorem relationCardinality_single (hr : relationCardinality r = some .single)
    (hlower : toAsciiLowercase (trim r) = r) :
    r ∈ ["auth_mode", "authentication_mode", "deployment_target", "status", "version"] := by
  rw [relationCardinality, hlower] at hr
  split at hr
  · assumption
  · split at hr
    · cases hr
    · cases hr

/-- The last word of a relation says how many words it has, and its words say which it is. -/
theorem single_decodable : ∀ r₁ ∈ ["auth_mode", "authentication_mode", "deployment_target", "status",
      "version"], ∀ r₂ ∈ ["auth_mode", "authentication_mode", "deployment_target", "status", "version"],
    ((keyWords r₁.toList).getLast? = (keyWords r₂.toList).getLast? →
      (keyWords r₁.toList).length = (keyWords r₂.toList).length) ∧
    (keyWords r₁.toList = keyWords r₂.toList → r₁ = r₂) ∧ keyWords r₁.toList ≠ [] := by
  decide +kernel

theorem lowerAscii_of_le {c : Char} (h : 128 ≤ c.toNat) : lowerAscii c = c := by
  rw [lowerAscii, if_neg]
  rintro ⟨-, hle⟩
  have hbound : c.toNat ≤ 90 := hle
  omega

/-- The characters of a relation. -/
theorem mem_normalizeRelation (hu : u.Lowers) {c : Char} (h : c ∈ (normalizeRelation u s).toList) :
    isControl c = false ∧ isWhitespace c = false ∧ lowerAscii c = c := by
  rw [normalizeRelation, String.toList_ofList, List.mem_map] at h
  obtain ⟨d, hd, rfl⟩ := h
  by_cases hspace : d = ' '
  · rw [if_pos hspace]
    decide
  · rw [if_neg hspace]
    obtain ⟨hcontrol, hwhite, hascii⟩ := (mem_normalizeGraphText hu hd).resolve_left hspace
    refine ⟨hcontrol, hwhite, ?_⟩
    by_cases hsmall : d.toNat < 128
    · exact (hascii hsmall).2
    · exact lowerAscii_of_le (by omega)

theorem normalizeRelation_lower (hu : u.Lowers) (s : String) :
    toAsciiLowercase (trim (normalizeRelation u s)) = normalizeRelation u s := by
  have htrim : ∀ l : List Char, (∀ c ∈ l, isWhitespace c = false) → l.dropWhile isWhitespace = l := by
    intro l hl
    rcases l with _ | ⟨c, l⟩
    · rfl
    · rw [List.dropWhile_cons_of_neg]
      rw [hl c List.mem_cons_self]
      exact Bool.false_ne_true
  have hwhite : ∀ c ∈ (normalizeRelation u s).toList, isWhitespace c = false :=
    fun c hc => (mem_normalizeRelation hu hc).2.1
  have hlower : (normalizeRelation u s).toList.map lowerAscii = (normalizeRelation u s).toList := by
    have hid := List.map_congr_left fun c hc => (mem_normalizeRelation hu (s := s) hc).2.2
    rw [hid, List.map_id']
  rw [toAsciiLowercase, trim, String.toList_ofList, trimChars, htrim _ hwhite,
    htrim _ fun c hc => hwhite c (List.mem_reverse.mp hc), List.reverse_reverse, hlower,
    String.ofList_toList]

/-- The words of the claim key of an edge. -/
def EdgeCall.claimWords (u : Unicode) (c : EdgeCall) : List (List Char) :=
  keyWords (c.key u).sourceNorm.toList ++ keyWords (c.key u).relationNorm.toList

theorem joinable_claimWords (u : Unicode) (c : EdgeCall) : Joinable (c.claimWords u) := by
  intro w hw
  rcases List.mem_append.mp hw with hw | hw
  · exact joinable_keyWords _ w hw
  · exact joinable_keyWords _ w hw

/-- The claim key of an edge, if it is short enough. -/
theorem claimKey_ok_iff (hu : u.Lowers)
    (hsingle : relationCardinality (c.key u).relationNorm = some .single) {k : String} :
    canonicalClaimKey ((c.key u).sourceNorm ++ "." ++ (c.key u).relationNorm) = .ok k ↔
      k = joinedKey (c.claimWords u) ∧ byteLen k ≤ MAX_CLAIM_KEY_BYTES := by
  have hlist : ((c.key u).sourceNorm ++ "." ++ (c.key u).relationNorm).toList
      = (c.key u).sourceNorm.toList ++ '.' :: (c.key u).relationNorm.toList := by
    simp
  have hcontrol : ∀ d ∈ ((c.key u).sourceNorm ++ "." ++ (c.key u).relationNorm).toList,
      isControl d = false := by
    intro d hd
    rw [hlist, List.mem_append, List.mem_cons] at hd
    rcases hd with hd | rfl | hd
    · rcases mem_normalizeGraphText hu hd with rfl | hnormal
      · decide
      · exact hnormal.1
    · decide
    · exact (mem_normalizeRelation hu hd).1
  have hwords : c.claimWords u ≠ [] := by
    have hrelation := relationCardinality_single hsingle (normalizeRelation_lower hu _)
    have hsome := (single_decodable _ hrelation _ hrelation).2.2
    intro hnil
    exact hsome (List.append_eq_nil_iff.mp hnil).2
  have hne : (joinedKey (c.claimWords u)).isEmpty = false := by
    rw [Bool.eq_false_iff, ne_eq, String.isEmpty_iff, joinedKey]
    intro hempty
    have hjoin : ['.'].intercalate (c.claimWords u) = [] := by
      have hlist := congrArg String.toList hempty
      rwa [String.toList_ofList] at hlist
    refine hwords (@intercalate_inj _ '.' _ _ _ [] (fun w hw => ?_) (fun w hw => by cases hw) hjoin)
    obtain ⟨hword, hfree⟩ := joinable_claimWords u c w hw
    exact ⟨hword, fun hdot => absurd (hfree '.' hdot) (by decide)⟩
  rw [canonicalClaimKey_ok_iff hcontrol, hlist, keyWords_separator (by decide), ← EdgeCall.claimWords]
  constructor
  · rintro ⟨rfl, -, hfit⟩
    exact ⟨rfl, hfit⟩
  · rintro ⟨rfl, hfit⟩
    exact ⟨rfl, hne, hfit⟩

/-- The ASCII words of the source and the relation can be told apart in a key. -/
theorem joinedKey_inj (hu : u.Lowers)
    (h₁ : relationCardinality (c₁.key u).relationNorm = some .single)
    (h₂ : relationCardinality (c₂.key u).relationNorm = some .single) :
    joinedKey (c₁.claimWords u) = joinedKey (c₂.claimWords u) ↔
      keyWords (c₁.key u).sourceNorm.toList = keyWords (c₂.key u).sourceNorm.toList ∧
        (c₁.key u).relationNorm = (c₂.key u).relationNorm := by
  have hr₁ := relationCardinality_single h₁ (normalizeRelation_lower hu _)
  have hr₂ := relationCardinality_single h₂ (normalizeRelation_lower hu _)
  obtain ⟨hlast, hinj, hne₁⟩ := single_decodable _ hr₁ _ hr₂
  have hne₂ := (single_decodable _ hr₂ _ hr₂).2.2
  constructor
  · intro heq
    have hjoin : ['.'].intercalate (c₁.claimWords u) = ['.'].intercalate (c₂.claimWords u) := by
      have hlist := congrArg String.toList heq
      rwa [joinedKey, joinedKey, String.toList_ofList, String.toList_ofList] at hlist
    have hfree : ∀ c : EdgeCall, ∀ w ∈ c.claimWords u, w ≠ [] ∧ '.' ∉ w := fun c w hw =>
      ⟨(joinable_claimWords u c w hw).1,
        fun hdot => absurd ((joinable_claimWords u c w hw).2 '.' hdot) (by decide)⟩
    have hwords := intercalate_inj (hfree c₁) (hfree c₂) hjoin
    rw [EdgeCall.claimWords, EdgeCall.claimWords] at hwords
    have hends := congrArg List.getLast? hwords
    rw [List.getLast?_append_of_ne_nil _ hne₁, List.getLast?_append_of_ne_nil _ hne₂] at hends
    obtain ⟨hsource, hrelation⟩ := List.append_inj' hwords (hlast hends)
    exact ⟨hsource, hinj hrelation⟩
  · rintro ⟨hsource, hrelation⟩
    rw [EdgeCall.claimWords, EdgeCall.claimWords, hsource, hrelation]

/-- A set with a claim key. -/
def claimSetRow (ns scope project claimKey : String) : Record :=
  jsonObject [("id", .str claimKey), ("namespace", .str (normalizeNamespace ns)),
    ("realm", .str (if scope = "user" then "user" else "project")),
    ("project", if scope = "user" then .null else .str project), ("claim_key", .str claimKey)]

theorem claimSetRow_setFor {k : String}
    (hkey : canonicalClaimKey ((c.key u).sourceNorm ++ "." ++ (c.key u).relationNorm) = .ok k) :
    c.SetFor u ns scope (claimSetRow ns scope c.edge.project k) := by
  refine ⟨k, hkey, ?_⟩
  by_cases huser : scope = "user"
  · rw [if_pos huser]
    exact ⟨by simp [claimSetRow, jsonObject], by simp [claimSetRow, jsonObject, huser],
      by simp [claimSetRow, jsonObject, huser, Value.ofOptionStr], by simp [claimSetRow, jsonObject]⟩
  · rw [if_neg huser]
    exact ⟨by simp [claimSetRow, jsonObject], by simp [claimSetRow, jsonObject, huser],
      by simp [claimSetRow, jsonObject, huser, Value.ofOptionStr], by simp [claimSetRow, jsonObject]⟩

/-- Two edges share a set exactly when they have the same relation, the same ASCII
words in their sources, and a key that is not too long. The members that detection adds
for an edge go to such a set, under the namespace and the scope of its owner. -/
theorem claimSets_apart_iff (hu : u.Lowers) (hproject : c₁.edge.project = c₂.edge.project)
    (h₁ : relationCardinality (c₁.key u).relationNorm = some .single)
    (h₂ : relationCardinality (c₂.key u).relationNorm = some .single) :
    ((∀ r, ¬ (c₁.SetFor u ns scope r ∧ c₂.SetFor u ns scope r)) ↔
      ¬ (keyWords (c₁.key u).sourceNorm.toList = keyWords (c₂.key u).sourceNorm.toList ∧
        (c₁.key u).relationNorm = (c₂.key u).relationNorm ∧
          byteLen (joinedKey (c₁.claimWords u)) ≤ MAX_CLAIM_KEY_BYTES)) ∧
    ∀ (codec : Codec) (targetNorm : String) (db db' : Database) (owner m : Record),
      ∀ c ∈ [c₁, c₂],
        (db.table "memory_meta").find? (fun m => m.col "memory_id" = .int c.edge.memoryId)
          = some owner →
        (detectGraphContradiction codec c (c.key u) targetNorm).run Proc.noFault db = (.ok (), db') →
        m ∈ db'.table "contradiction_members" → m ∉ db.table "contradiction_members" →
        ∃ r ∈ db'.table "contradiction_sets", m.col "contradiction_set_id" = r.col "id" ∧
          c.SetFor u ((owner.text "namespace").getD "") ((owner.text "scope").getD "") r := by
  refine ⟨?_, fun codec targetNorm db db' owner m c _ howner h hm hnew =>
    detectGraphContradiction_members howner h hm hnew⟩
  have hkey : ∀ {c : EdgeCall} {k r}, (if scope = "user" then IsClaimSet ns "user" none k r
      else IsClaimSet ns "project" (some c.edge.project) k r) → r.col "claim_key" = .str k := by
    intro c k r h
    split at h
    · exact h.claimKey
    · exact h.claimKey
  constructor
  · rintro happart ⟨hsource, hrelation, hfit⟩
    have hsame := (joinedKey_inj hu h₁ h₂).mpr ⟨hsource, hrelation⟩
    refine happart (claimSetRow ns scope c₁.edge.project (joinedKey (c₁.claimWords u))) ⟨?_, ?_⟩
    · exact claimSetRow_setFor ((claimKey_ok_iff hu h₁).mpr ⟨rfl, hfit⟩)
    · rw [hproject, hsame]
      exact claimSetRow_setFor ((claimKey_ok_iff hu h₂).mpr ⟨rfl, hsame ▸ hfit⟩)
  · rintro hcollide r ⟨⟨k₁, hk₁, hr₁⟩, k₂, hk₂, hr₂⟩
    obtain ⟨rfl, hfit⟩ := (claimKey_ok_iff hu h₁).mp hk₁
    obtain ⟨rfl, -⟩ := (claimKey_ok_iff hu h₂).mp hk₂
    have hsame := Value.str.inj ((hkey hr₁).symm.trans (hkey hr₂))
    obtain ⟨hsource, hrelation⟩ := (joinedKey_inj hu h₁ h₂).mp hsame
    exact hcollide ⟨hsource, hrelation, hfit⟩

end Sharing

/-! ### Two cities -/

/-- ASCII and the common ideographs. -/
def kanjiUnicode : Unicode :=
  ⟨fun c => c.isAlphanum || (decide (0x4E00 ≤ c.toNat) && decide (c.toNat ≤ 0x9FFF)), toAsciiLowercase⟩

theorem kanjiUnicode_lowers : kanjiUnicode.Lowers := by
  intro s hs c hc
  have hlower : c ∈ s.toList.map lowerAscii := by
    simpa [kanjiUnicode, toAsciiLowercase] using hc
  obtain ⟨d, hd, rfl⟩ := List.mem_map.mp hlower
  have hd := hs d hd
  simp only [kanjiUnicode, Bool.or_eq_true, Bool.and_eq_true, decide_eq_true_eq] at hd
  rcases hd with halnum | ⟨hle, hge⟩
  · obtain ⟨hcontrol, hwhite, hnormal⟩ := lowerAscii_normal halnum
    exact ⟨hcontrol, hwhite, fun _ => hnormal⟩
  · rw [lowerAscii_of_le (by omega)]
    refine ⟨?_, ?_, fun hsmall => by omega⟩
    · simp only [isControl, Bool.or_eq_false_iff, Bool.and_eq_false_imp, decide_eq_false_iff_not,
        decide_eq_true_eq]
      omega
    · simp only [isWhitespace, Bool.or_eq_false_iff, Bool.and_eq_false_imp, decide_eq_false_iff_not,
        decide_eq_true_eq, beq_eq_false_iff_ne]
      omega

/-- The status of a city. -/
def cityStatus (city : String) : EdgeCall where
  edge := { project := "cities", memoryId := 1, source := city, relation := "status", target := "up" }
  now := 100
  autoId := nextEdgeId
  setId := "c1"
  setNow := 100
  ledgerNow := 100

/-- The status of one city contradicts that of the other. -/
theorem claimSets_of_two_cities :
    ((cityStatus "東京").edge.project = (cityStatus "大阪").edge.project ∧
      relationCardinality ((cityStatus "東京").key kanjiUnicode).relationNorm = some .single ∧
      relationCardinality ((cityStatus "大阪").key kanjiUnicode).relationNorm = some .single ∧
      (((cityStatus "東京").key kanjiUnicode).sourceNorm, ((cityStatus "東京").key kanjiUnicode).relationNorm)
        ≠ (((cityStatus "大阪").key kanjiUnicode).sourceNorm,
          ((cityStatus "大阪").key kanjiUnicode).relationNorm)) ∧
    ¬ ∀ r, ¬ ((cityStatus "東京").SetFor kanjiUnicode "local" "project" r ∧
      (cityStatus "大阪").SetFor kanjiUnicode "local" "project" r) := by
  refine ⟨by decide +kernel, fun happart => ?_⟩
  have hkeys : canonicalClaimKey (((cityStatus "東京").key kanjiUnicode).sourceNorm ++ "."
        ++ ((cityStatus "東京").key kanjiUnicode).relationNorm) = .ok "status" ∧
      canonicalClaimKey (((cityStatus "大阪").key kanjiUnicode).sourceNorm ++ "."
        ++ ((cityStatus "大阪").key kanjiUnicode).relationNorm) = .ok "status" := by
    decide +kernel
  exact happart (claimSetRow "local" "project" "cities" "status")
    ⟨claimSetRow_setFor hkeys.1, claimSetRow_setFor hkeys.2⟩

/-- Cities with ASCII names are told apart. -/
theorem claimSets_apart_ascii :
    ¬ ∃ r, (cityStatus "Tokyo").SetFor kanjiUnicode "local" "project" r ∧
      (cityStatus "Osaka").SetFor kanjiUnicode "local" "project" r := by
  have hsingle : relationCardinality ((cityStatus "Tokyo").key kanjiUnicode).relationNorm = some .single ∧
      relationCardinality ((cityStatus "Osaka").key kanjiUnicode).relationNorm = some .single := by
    decide +kernel
  have hwords : keyWords ((cityStatus "Tokyo").key kanjiUnicode).sourceNorm.toList
      ≠ keyWords ((cityStatus "Osaka").key kanjiUnicode).sourceNorm.toList := by
    decide +kernel
  have happart := (@claimSets_apart_iff kanjiUnicode (cityStatus "Tokyo") (cityStatus "Osaka") "local"
    "project" kanjiUnicode_lowers rfl hsingle.1 hsingle.2).1.mpr fun h => hwords h.1
  exact not_exists.mpr happart

end IronMem
