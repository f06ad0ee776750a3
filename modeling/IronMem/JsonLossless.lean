import Mathlib.Logic.Function.Basic
import Std.Data.String.ToInt
import IronMem.Json

/-!
# Hashes determine what was hashed

The hash chains of the source hash the printed form of a flat object: null,
booleans, integers and strings under fixed names. A codec is lossless when its
digest and its printer are injective there, and the concrete printer is: a
string prints as a prefix code, everything else prints without quotes, commas
and braces, and a comma or a brace follows.

The hypothesis `Codec.Lossless` is what the results about ledgers, receipts and
replicas take; `jsonCodec_lossless` shows that it can be met, by the printer the
witnesses of those results run. Nested values print too, but are left out of the
flat ones: no hashed record has them.
-/

namespace IronMem

/-- Values that print without losing anything. -/
def Value.Flat : Value → Prop
  | .real _ | .nested _ => False
  | _ => True

def Record.Flat (r : Record) : Prop := ∀ entry ∈ r.toList, entry.2.Flat

structure Codec.Lossless (codec : Codec) : Prop where
  digest : Function.Injective codec.digest
  record : ∀ a b : Record, a.Flat → b.Flat → codec.recordToString a = codec.recordToString b → a = b

/-! ## Strings

A printed string ends at the first quote that is not escaped, and reading it character by
character gives the string back. So two printed strings with something after them are equal only
if the strings are and what comes after. -/

/-- The digit a hexadecimal character stands for. -/
def hexDigit (c : Char) : Nat := if c.toNat < 58 then c.toNat - 48 else c.toNat - 87

/-- Read back one character of a JSON string. -/
def unescapeChar : List Char → Option (Char × List Char)
  | [] => none
  | '\\' :: 'u' :: _ :: _ :: hi :: lo :: t =>
      some (Char.ofNat (16 * hexDigit hi + hexDigit lo), t)
  | '\\' :: 'n' :: t => some ('\n', t)
  | '\\' :: 'r' :: t => some ('\r', t)
  | '\\' :: 't' :: t => some ('\t', t)
  | '\\' :: 'b' :: t => some (Char.ofNat 8, t)
  | '\\' :: 'f' :: t => some (Char.ofNat 12, t)
  | '\\' :: c :: t => some (c, t)
  | c :: t => some (c, t)

theorem unescapeChar_hexEscape {c : Char} (hc : c.toNat < 32) (t : List Char) :
    unescapeChar (hexEscape c ++ t) = some (c, t) := by
  have hdigits : ∀ n < 32, ∃ hi lo, hexEscape (Char.ofNat n) = ['\\', 'u', '0', '0', hi, lo] ∧
      Char.ofNat (16 * hexDigit hi + hexDigit lo) = Char.ofNat n :=
    fun n hn => ⟨_, _, rfl, by revert n; decide⟩
  obtain ⟨hi, lo, hshape, hvalue⟩ := hdigits c.toNat hc
  rw [Char.ofNat_toNat] at hshape hvalue
  rw [hshape, ← hvalue]
  rfl

theorem unescapeChar_escapeChar (c : Char) (t : List Char) :
    unescapeChar (escapeChar c ++ t) = some (c, t) := by
  have hofNat : ∀ n, c.toNat = n → Char.ofNat n = c := fun n h => by rw [← h, Char.ofNat_toNat]
  unfold escapeChar
  split_ifs with hquote hslash hn hr ht hb hf hctl
  · subst hquote; rfl
  · subst hslash; rfl
  · subst hn; rfl
  · subst hr; rfl
  · subst ht; rfl
  · rw [← hofNat 8 hb]; rfl
  · rw [← hofNat 12 hf]; rfl
  · exact unescapeChar_hexEscape hctl t
  · simp [unescapeChar, hslash]

theorem escapeChar_head (c : Char) : ∃ d t, escapeChar c = d :: t ∧ d ≠ '"' := by
  unfold escapeChar hexEscape
  split_ifs with hquote
  all_goals first | exact ⟨_, _, rfl, by decide⟩ | exact ⟨_, _, rfl, hquote⟩

/-- A string printed inside quotes ends at the closing one. -/
theorem escaped_inj {l l' t t' : List Char}
    (h : l.flatMap escapeChar ++ '"' :: t = l'.flatMap escapeChar ++ '"' :: t') :
    l = l' ∧ t = t' := by
  induction l generalizing l' with
  | nil =>
      cases l' with
      | nil => simpa using h
      | cons c l' =>
          obtain ⟨d, r, hd, hne⟩ := escapeChar_head c
          simp only [List.flatMap_nil, List.flatMap_cons, hd, List.nil_append, List.cons_append,
            List.cons.injEq] at h
          exact absurd h.1.symm hne
  | cons c l ih =>
      cases l' with
      | nil =>
          obtain ⟨d, r, hd, hne⟩ := escapeChar_head c
          simp only [List.flatMap_nil, List.flatMap_cons, hd, List.nil_append, List.cons_append,
            List.cons.injEq] at h
          exact absurd h.1 hne
      | cons c' l' =>
          have hread := congrArg unescapeChar h
          simp only [List.flatMap_cons, List.append_assoc, unescapeChar_escapeChar,
            Option.some.injEq, Prod.mk.injEq] at hread
          obtain ⟨rfl, hrest⟩ := hread
          obtain ⟨rfl, rfl⟩ := ih hrest
          exact ⟨rfl, rfl⟩

theorem stringChars_inj {s s' : String} {t t' : List Char}
    (h : stringChars s ++ t = stringChars s' ++ t') : s = s' ∧ t = t' := by
  simp only [stringChars, List.append_assoc, List.cons_append, List.nil_append,
    List.cons.injEq, true_and] at h
  obtain ⟨hs, rfl⟩ := escaped_inj h
  exact ⟨String.toList_injective hs, rfl⟩

/-! ## Lists of strings -/

/-- Read back a JSON string up to its closing quote. -/
def unquote : Nat → List Char → Option (List Char × List Char)
  | 0, _ => none
  | _ + 1, '"' :: t => some ([], t)
  | n + 1, t => do
      let (c, t) ← unescapeChar t
      let (cs, t) ← unquote n t
      return (c :: cs, t)

/-- Read back the strings up to the closing bracket. -/
def unlist : Nat → List Char → Option (List String)
  | n + 1, '"' :: t =>
      match unquote t.length t with
      | some (cs, [']']) => some [String.ofList cs]
      | some (cs, ',' :: t) => (unlist n t).map (String.ofList cs :: ·)
      | _ => none
  | _, _ => none

/-- `from_str` at a list of strings, as `jsonStrings` prints it. -/
def parseStrings (text : String) : Except String (List String) :=
  match text.toList with
  | ['[', ']'] => .ok []
  | '[' :: t => ((unlist t.length t).map Except.ok).getD (.error "expected a list of strings")
  | _ => .error "expected a list of strings"

theorem unquote_escaped {l : List Char} {n : Nat} (h : l.length < n) (t : List Char) :
    unquote n (l.flatMap escapeChar ++ '"' :: t) = some (l, t) := by
  induction n generalizing l with
  | zero => exact absurd h (Nat.not_lt_zero _)
  | succ n ih =>
      cases l with
      | nil => rfl
      | cons c l =>
          obtain ⟨d, r, hd, hne⟩ := escapeChar_head c
          have hchar : unescapeChar (d :: (r ++ (l.flatMap escapeChar ++ '"' :: t)))
              = some (c, l.flatMap escapeChar ++ '"' :: t) := by
            rw [← List.cons_append, ← hd]
            exact unescapeChar_escapeChar c _
          rw [List.flatMap_cons, hd, List.append_assoc, List.cons_append, unquote]
          · rw [hchar]
            show (unquote n _).bind _ = _
            rw [ih (Nat.lt_of_succ_lt_succ h)]
            rfl
          · rintro t heq
            exact hne (List.cons.inj heq).1

theorem length_le_escaped (l : List Char) : l.length ≤ (l.flatMap escapeChar).length := by
  induction l with
  | nil => exact Nat.le_refl 0
  | cons c l ih =>
      obtain ⟨d, r, hd, -⟩ := escapeChar_head c
      rw [List.flatMap_cons, hd, List.length_append, List.length_cons, List.length_cons]
      omega

theorem unquote_string (s : String) (t : List Char) :
    unquote (s.toList.flatMap escapeChar ++ '"' :: t).length (s.toList.flatMap escapeChar ++ '"' :: t)
      = some (s.toList, t) := by
  refine unquote_escaped ?_ t
  have hlength := length_le_escaped s.toList
  rw [List.length_append, List.length_cons]
  omega

theorem unlist_commaChars {items : List String} {n : Nat} (hne : items ≠ []) (h : items.length ≤ n) :
    unlist n (commaChars (items.map stringChars) ++ [']']) = some items := by
  induction n generalizing items with
  | zero => exact absurd (List.length_eq_zero_iff.mp (Nat.le_zero.mp h)) hne
  | succ n ih =>
      cases items with
      | nil => exact absurd rfl hne
      | cons s rest =>
          cases rest with
          | nil =>
              have hshape : commaChars ([s].map stringChars) ++ [']']
                  = '"' :: (s.toList.flatMap escapeChar ++ '"' :: [']']) := by
                simp [commaChars, stringChars]
              rw [hshape, unlist, unquote_string]
              simp
          | cons s' rest =>
              have hshape : commaChars ((s :: s' :: rest).map stringChars) ++ [']']
                  = '"' :: (s.toList.flatMap escapeChar ++ '"' :: ',' ::
                      (commaChars ((s' :: rest).map stringChars) ++ [']'])) := by
                simp [commaChars, stringChars]
              rw [hshape, unlist, unquote_string]
              show (unlist n _).map (String.ofList s.toList :: ·) = _
              rw [ih (List.cons_ne_nil s' rest) (Nat.le_of_succ_le_succ h), Option.map_some,
                String.ofList_toList]

theorem commaChars_stringChars (s : String) (rest : List String) :
    ∃ t, commaChars ((s :: rest).map stringChars) = '"' :: t ∧ rest.length ≤ t.length := by
  induction rest generalizing s with
  | nil => exact ⟨_, rfl, Nat.zero_le _⟩
  | cons s' rest ih =>
      obtain ⟨t, ht, hlength⟩ := ih s'
      refine ⟨s.toList.flatMap escapeChar ++ '"' :: ',' :: '"' :: t, ?_, ?_⟩
      · rw [List.map_cons, List.map_cons, commaChars, ← List.map_cons, ht]
        · simp [stringChars]
        · exact List.cons_ne_nil _ _
      · simp only [List.length_append, List.length_cons]
        omega

theorem parseStrings_jsonStrings (items : List String) :
    parseStrings (jsonStrings items) = .ok items := by
  cases items with
  | nil => rfl
  | cons s rest =>
      obtain ⟨t, ht, hlength⟩ := commaChars_stringChars s rest
      have hlist := unlist_commaChars (n := (t ++ [']']).length + 1) (List.cons_ne_nil s rest) (by
        rw [List.length_cons, List.length_append]
        omega)
      rw [ht, List.cons_append] at hlist
      rw [parseStrings, jsonStrings, String.toList_ofList, ht]
      show ((unlist ((t ++ [']']).length + 1) ('"' :: (t ++ [']']))).map Except.ok).getD _ = _
      rw [hlist]
      rfl

/-! ## Values -/

/-- A text without quotes, commas and braces. -/
def Plain (text : List Char) : Prop := ∀ c ∈ text, c ≠ '"' ∧ c ≠ ',' ∧ c ≠ '\x7d'

/-- What follows a value: a comma or the closing brace. -/
def Ends (t : List Char) : Prop := ∃ c r, t = c :: r ∧ (c = ',' ∨ c = '\x7d')

theorem plain_append_inj {a b t t' : List Char} (ha : Plain a) (hb : Plain b) (ht : Ends t)
    (ht' : Ends t') (h : a ++ t = b ++ t') : a = b ∧ t = t' := by
  induction a generalizing b with
  | nil =>
      cases b with
      | nil => exact ⟨rfl, h⟩
      | cons c b =>
          obtain ⟨d, r, rfl, hd⟩ := ht
          obtain ⟨-, hcomma, hbrace⟩ := hb c (by simp)
          simp only [List.nil_append, List.cons_append, List.cons.injEq] at h
          exact absurd (h.1 ▸ hd) (by simp [hcomma, hbrace])
  | cons c a ih =>
      cases b with
      | nil =>
          obtain ⟨d, r, rfl, hd⟩ := ht'
          obtain ⟨-, hcomma, hbrace⟩ := ha c (by simp)
          simp only [List.nil_append, List.cons_append, List.cons.injEq] at h
          exact absurd (h.1 ▸ hd) (by simp [hcomma, hbrace])
      | cons c' b =>
          simp only [List.cons_append, List.cons.injEq] at h
          obtain ⟨rfl, h⟩ := h
          obtain ⟨rfl, rfl⟩ := ih (fun x hx => ha x (List.mem_cons_of_mem _ hx))
            (fun x hx => hb x (List.mem_cons_of_mem _ hx)) h
          exact ⟨rfl, rfl⟩

theorem isDigit_of_mem_toString {n : Int} {c : Char} (hc : c ∈ (toString n).toList) :
    c.isDigit = true ∨ c = '-' := by
  have hnat : ∀ k : Nat, c ∈ k.repr.toList → c.isDigit = true := fun k hk => by
    rw [Nat.toList_repr] at hk
    exact Nat.isDigit_of_mem_toDigits (by decide) (by decide) hk
  rw [Int.toString_eq_repr, Int.repr_eq_if] at hc
  split at hc
  · exact .inl (hnat _ hc)
  · rw [String.toList_append, List.mem_append] at hc
    rcases hc with hc | hc
    · exact .inr (by simpa using hc)
    · exact .inl (hnat _ hc)

theorem plain_of_flat {v : Value} (hv : v.Flat) (hstr : ∀ s, v ≠ .str s) : Plain (valueChars v) := by
  cases v with
  | null => simp [Plain, valueChars]
  | bool b => cases b <;> simp [Plain, valueChars]
  | int n =>
      intro c hc
      rcases isDigit_of_mem_toString hc with h | rfl
      · refine ⟨?_, ?_, ?_⟩ <;> rintro rfl <;> exact absurd h (by decide)
      · decide
  | str s => exact absurd rfl (hstr s)
  | real => exact hv.elim
  | nested => exact hv.elim

theorem valueChars_plain_inj {v v' : Value} (hv : v.Flat) (hv' : v'.Flat) (hstr : ∀ s, v ≠ .str s)
    (hstr' : ∀ s, v' ≠ .str s) (h : valueChars v = valueChars v') : v = v' := by
  have hword : ∀ (n : Int) (c : Char) (r : List Char), c.isDigit = false → c ≠ '-' →
      (toString n).toList ≠ c :: r := fun n c r hdigit hminus heq => by
    rcases isDigit_of_mem_toString (n := n) (c := c) (heq ▸ List.mem_cons_self) with h | h
    · simp [hdigit] at h
    · exact hminus h
  cases v with
  | null =>
      cases v' with
      | null => rfl
      | bool b => cases b <;> exact absurd h (by decide)
      | int n => exact absurd h.symm (hword n _ _ (by decide) (by decide))
      | str s => exact absurd rfl (hstr' s)
      | real => exact hv'.elim
      | nested => exact hv'.elim
  | bool b =>
      cases v' with
      | null => cases b <;> exact absurd h (by decide)
      | bool b' => cases b <;> cases b' <;> first | rfl | exact absurd h (by decide)
      | int n => cases b <;> exact absurd h.symm (hword n _ _ (by decide) (by decide))
      | str s => exact absurd rfl (hstr' s)
      | real => exact hv'.elim
      | nested => exact hv'.elim
  | int n =>
      cases v' with
      | null => exact absurd h (hword n _ _ (by decide) (by decide))
      | bool b => cases b <;> exact absurd h (hword n _ _ (by decide) (by decide))
      | int n' => rw [Int.repr_injective (String.toList_injective h)]
      | str s => exact absurd rfl (hstr' s)
      | real => exact hv'.elim
      | nested => exact hv'.elim
  | str s => exact absurd rfl (hstr s)
  | real => exact hv.elim
  | nested => exact hv.elim

/-- A printed string begins with a quote, nothing else does. -/
theorem stringChars_ne {v : Value} (hv : v.Flat) (hstr : ∀ s, v ≠ .str s) {s : String}
    {t t' : List Char} (ht' : Ends t') : stringChars s ++ t ≠ valueChars v ++ t' := by
  intro h
  have hhead : (valueChars v ++ t').head? = some '"' := by rw [← h]; rfl
  have hplain := plain_of_flat hv hstr
  cases hchars : valueChars v with
  | nil =>
      obtain ⟨c, r, rfl, hc⟩ := ht'
      rw [hchars] at hhead
      obtain rfl : c = '"' := by simpa using hhead
      exact absurd hc (by decide)
  | cons c r =>
      rw [hchars] at hhead hplain
      exact (hplain c (by simp)).1 (by simpa using hhead)

theorem valueChars_inj {v v' : Value} {t t' : List Char} (hv : v.Flat) (hv' : v'.Flat)
    (ht : Ends t) (ht' : Ends t') (h : valueChars v ++ t = valueChars v' ++ t') :
    v = v' ∧ t = t' := by
  by_cases hstr : ∃ s, v = .str s
  · obtain ⟨s, rfl⟩ := hstr
    by_cases hstr' : ∃ s, v' = .str s
    · obtain ⟨s', rfl⟩ := hstr'
      obtain ⟨rfl, rfl⟩ := stringChars_inj h
      exact ⟨rfl, rfl⟩
    · exact absurd h (stringChars_ne hv' (not_exists.mp hstr') ht')
  · by_cases hstr' : ∃ s, v' = .str s
    · obtain ⟨s', rfl⟩ := hstr'
      exact absurd h.symm (stringChars_ne hv (not_exists.mp hstr) ht)
    · obtain ⟨heq, rfl⟩ := plain_append_inj (plain_of_flat hv (not_exists.mp hstr))
        (plain_of_flat hv' (not_exists.mp hstr')) ht ht' h
      exact ⟨valueChars_plain_inj hv hv' (not_exists.mp hstr) (not_exists.mp hstr') heq, rfl⟩

/-! ## Rows

The names are fixed and the same on both sides; the values are told apart one by one, from the
left, since each of them ends where it can be seen. -/

/-- One field of a printed row. -/
def fieldChars (entry : String × Value) : List Char :=
  stringChars entry.1 ++ [':'] ++ valueChars entry.2

/-- What follows the first of some fields. -/
def afterField (entries : List (String × Value)) : List Char :=
  match entries with
  | [] => ['\x7d']
  | _ :: _ => ',' :: (commaChars (entries.map fieldChars) ++ ['\x7d'])

theorem ends_afterField (entries : List (String × Value)) : Ends (afterField entries) := by
  cases entries with
  | nil => exact ⟨_, _, rfl, .inr rfl⟩
  | cons => exact ⟨_, _, rfl, .inl rfl⟩

theorem commaChars_cons (entry : String × Value) (entries : List (String × Value)) :
    commaChars ((entry :: entries).map fieldChars) ++ ['\x7d']
      = fieldChars entry ++ afterField entries := by
  cases entries <;> simp [commaChars, afterField]

theorem fields_inj {l l' : List (String × Value)} (hl : ∀ e ∈ l, e.2.Flat) (hl' : ∀ e ∈ l', e.2.Flat)
    (h : commaChars (l.map fieldChars) ++ ['\x7d'] = commaChars (l'.map fieldChars) ++ ['\x7d']) :
    l = l' := by
  induction l generalizing l' with
  | nil =>
      cases l' with
      | nil => rfl
      | cons e l' =>
          rw [commaChars_cons] at h
          simp [commaChars, fieldChars, stringChars] at h
  | cons e l ih =>
      cases l' with
      | nil =>
          rw [commaChars_cons] at h
          simp [commaChars, fieldChars, stringChars] at h
      | cons e' l' =>
          rw [commaChars_cons, commaChars_cons] at h
          simp only [fieldChars, List.append_assoc] at h
          obtain ⟨hname, h⟩ := stringChars_inj h
          obtain ⟨hvalue, hrest⟩ := valueChars_inj (hl e (by simp)) (hl' e' (by simp))
            (ends_afterField l) (ends_afterField l') (by simpa using h)
          obtain rfl : e = e' := Prod.ext hname hvalue
          have htail : l = l' := by
            cases l with
            | nil => cases l' with
              | nil => rfl
              | cons => simp [afterField] at hrest
            | cons => cases l' with
              | nil => simp [afterField] at hrest
              | cons =>
                  exact ih (fun x hx => hl x (List.mem_cons_of_mem _ hx))
                    (fun x hx => hl' x (List.mem_cons_of_mem _ hx)) (by simpa [afterField] using hrest)
          rw [htail]

theorem jsonRecord_inj {a b : Record} (ha : a.Flat) (hb : b.Flat)
    (h : jsonRecord a = jsonRecord b) : a = b := by
  have hchars : ['\x7b'] ++ commaChars (a.toList.map fieldChars) ++ ['\x7d']
      = ['\x7b'] ++ commaChars (b.toList.map fieldChars) ++ ['\x7d'] := String.ofList_injective h
  rw [List.append_assoc, List.append_assoc] at hchars
  exact Std.ExtTreeMap.toList_inj.mp (fields_inj ha hb (List.append_cancel_left hchars))

theorem ofNat_byte_injective : Function.Injective fun b : UInt8 => Char.ofNat b.toNat := by
  intro a b h
  have hvalid : ∀ c : UInt8, (Char.ofNat c.toNat).toNat = c.toNat := fun c => by
    have hlt := c.toNat_lt
    rw [Char.toNat_ofNat, if_pos (.inl (by omega))]
  exact UInt8.toNat_inj.mp (by rw [← hvalid a, ← hvalid b]; exact congrArg Char.toNat h)

/-- The concrete codec loses nothing. -/
theorem jsonCodec_lossless (known : List Record) : (jsonCodec known).Lossless where
  digest _ _ h := List.map_injective_iff.mpr ofNat_byte_injective (String.ofList_injective h)
  record _ _ ha hb h := jsonRecord_inj ha hb h

theorem utf8_injective : Function.Injective utf8 := by
  intro a b h
  exact String.toByteArray_inj.mp (ByteArray.ext (Array.toList_inj.mp h))

/-- What a lossless codec hashes can be read off the hash. -/
theorem Codec.Lossless.hash_inj {codec : Codec} (h : codec.Lossless) {a b : Record} (ha : a.Flat)
    (hb : b.Flat) (heq : codec.digest (utf8 (codec.recordToString a))
      = codec.digest (utf8 (codec.recordToString b))) : a = b :=
  h.record a b ha hb (utf8_injective (h.digest heq))

/-! ## Flat objects -/

theorem flat_set {r : Record} (hr : r.Flat) (f : String) {v : Value} (hv : v.Flat) :
    Record.Flat (r.set f v) := by
  intro entry hentry
  have hget := Std.ExtTreeMap.mem_toList_iff_getElem?_eq_some.mp hentry
  rw [Record.set, Std.ExtTreeMap.getElem?_insert] at hget
  split at hget
  · rw [← Option.some.inj hget]
    exact hv
  · exact hr entry (Std.ExtTreeMap.mem_toList_iff_getElem?_eq_some.mpr hget)

theorem flat_jsonObject {fields : List (String × Value)} (h : ∀ f ∈ fields, f.2.Flat) :
    Record.Flat (jsonObject fields) := by
  have hfold : ∀ (fields : List (String × Value)) (acc : Record), acc.Flat →
      (∀ f ∈ fields, f.2.Flat) → Record.Flat (fields.foldl (fun r f => r.set f.1 f.2) acc) := by
    intro fields
    induction fields with
    | nil => exact fun acc hacc _ => hacc
    | cons f fields ih =>
        intro acc hacc hfields
        exact ih _ (flat_set hacc f.1 (hfields f List.mem_cons_self))
          fun g hg => hfields g (List.mem_cons_of_mem _ hg)
  refine hfold fields ∅ (fun entry hentry => ?_) h
  have hget := Std.ExtTreeMap.mem_toList_iff_getElem?_eq_some.mp hentry
  simp at hget

theorem flat_ofOption (n : Option Int) : (Value.ofOption n).Flat := by
  cases n <;> trivial

theorem flat_ofOptionStr (s : Option String) : (Value.ofOptionStr s).Flat := by
  cases s <;> trivial

theorem ofOption_injective : Function.Injective Value.ofOption := by
  intro a b h
  cases a <;> cases b <;> simp_all [Value.ofOption]

theorem ofOptionStr_injective : Function.Injective Value.ofOptionStr := by
  intro a b h
  cases a <;> cases b <;> simp_all [Value.ofOptionStr]

end IronMem
