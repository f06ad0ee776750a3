import IronMem.ChunkedObjects

/-!
# Chunked objects round trip

No object up to the limit is written in a form the reader refuses: a full object has at
most `maxObject / minLen + 1` pieces, a piece takes at most 91 bytes of the manifest and
a comma, and that stays below the 8 MiB the reader allows. Loading puts the pieces
together again, whatever other objects share them, as long as SHA-256 tells the pieces
apart.

- **what the crates promise** (`Crates.Documented`): FastCDC's cuts are contiguous and of
  lengths between the minimum and the maximum, except the last; zstd decompresses what it
  compressed; `serde_json` reads back what was printed of an envelope. Its numbers are
  fields of 32 and 64 bits, so that this is asked of envelopes the reader can hold.
- **the writer** (`encode_ok`): the manifest of the pieces, in order, and every piece once.
- **the size** (`fits_manifest`): the printed manifest is ASCII, and its length is counted
  member by member (`Fits`).
- **the reader** (`decode_ok`): each bound it checks is met by what the writer wrote.
- **the tables** (`store_new`): storing shares the chunks that are there already. They
  are sound beforehand (`Tables.Genuine`), and a shared chunk has the same bytes unless
  two pieces collide (`CollisionFree`).

From the side of the reader nothing is asked of the tables: whatever `load` returns has the hash
it was asked for (`load_hash`). The assumptions on the crates can be met
(`plainCrates_documented`), by a store that cuts at the maximum length, so that an object of
equal bytes has equal pieces.
-/

namespace IronMem

namespace Chunked

open Fallible Tiling

/-! ## ASCII -/

/-- Characters of one byte. -/
def Ascii (cs : List Char) : Prop := ∀ c ∈ cs, c.toNat < 128

theorem utf8_ascii {cs : List Char} (h : Ascii cs) :
    toVec cs = cs.map fun c => UInt8.ofNat c.toNat := by
  unfold toVec utf8
  rw [String.toUTF8_eq_toByteArray, String.toByteArray_ofList]
  induction cs with
  | nil => rfl
  | cons c cs ih =>
      have hone : c.utf8Size = 1 := Char.utf8Size_eq_one_iff.mpr (by
        have := h c List.mem_cons_self
        exact UInt32.le_iff_toNat_le.mpr (by show c.toNat ≤ 127; omega))
      rw [List.utf8Encode_cons, ByteArray.data_append, Array.toList_append,
        ih fun x hx => h x (List.mem_cons_of_mem _ hx), List.utf8Encode_singleton,
        String.utf8EncodeChar_eq_singleton hone]
      rfl

theorem length_toVec {cs : List Char} (h : Ascii cs) : (toVec cs).length = cs.length := by
  rw [utf8_ascii h, List.length_map]

/-- A lower-case hexadecimal digit. -/
def LowerHex (c : Char) : Prop := ∃ n < 16, c = Nat.digitChar n

theorem LowerHex.ascii {c : Char} (h : LowerHex c) : c.toNat < 128 := by
  obtain ⟨n, hn, rfl⟩ := h
  revert n
  decide

theorem LowerHex.isAsciiHexdigit {c : Char} (h : LowerHex c) :
    isAsciiHexdigit (UInt8.ofNat c.toNat) = true := by
  obtain ⟨n, hn, rfl⟩ := h
  revert n
  decide

theorem LowerHex.escapeChar {c : Char} (h : LowerHex c) : escapeChar c = [c] := by
  obtain ⟨n, hn, rfl⟩ := h
  revert n
  decide

theorem lowerHex_of_mem_hex {bytes : Bytes} {c : Char} (h : c ∈ bytes.flatMap hexByte) :
    LowerHex c := by
  obtain ⟨b, -, hc⟩ := List.mem_flatMap.mp h
  have hlt := b.toNat_lt
  simp only [hexByte, List.mem_cons, List.not_mem_nil, or_false] at hc
  rcases hc with rfl | rfl
  · exact ⟨_, by omega, rfl⟩
  · exact ⟨_, by omega, rfl⟩

theorem digitChar_inj : ∀ a < 16, ∀ b < 16, Nat.digitChar a = Nat.digitChar b → a = b := by
  decide

theorem hexByte_injective : Function.Injective hexByte := by
  intro a b h
  have ha := a.toNat_lt
  have hb := b.toNat_lt
  simp only [hexByte, List.cons.injEq, and_true] at h
  have hhi := digitChar_inj _ (by omega) _ (by omega) h.1
  have hlo := digitChar_inj _ (by omega) _ (by omega) h.2
  exact UInt8.toNat_inj.mp (by omega)

theorem length_hexByte (b : UInt8) : (hexByte b).length = 2 := rfl

theorem hex_injective : Function.Injective hex := by
  intro a b h
  have h := String.ofList_injective h
  induction a generalizing b with
  | nil =>
      cases b with
      | nil => rfl
      | cons y b => simp [hexByte] at h
  | cons x a ih =>
      cases b with
      | nil => simp [hexByte] at h
      | cons y b =>
          rw [List.flatMap_cons, List.flatMap_cons] at h
          obtain ⟨hx, hrest⟩ := List.append_inj h rfl
          rw [hexByte_injective hx, ih (congrArg String.ofList hrest) hrest]

theorem length_flatMap_hexByte (bytes : Bytes) : (bytes.flatMap hexByte).length = 2 * bytes.length := by
  induction bytes with
  | nil => rfl
  | cons b bytes ih =>
      rw [List.flatMap_cons, List.length_append, length_hexByte, ih, List.length_cons]
      omega

theorem Ascii.append {a b : List Char} (ha : Ascii a) (hb : Ascii b) : Ascii (a ++ b) := fun c hc =>
  (List.mem_append.mp hc).elim (ha c) (hb c)

theorem ascii_hex (bytes : Bytes) : Ascii (hex bytes).toList := by
  intro c hc
  rw [hex, String.toList_ofList] at hc
  exact (lowerHex_of_mem_hex hc).ascii

theorem ascii_flatMap_escapeChar {cs : List Char} (h : Ascii cs) :
    Ascii (cs.flatMap escapeChar) := by
  have hone : ∀ n < 128, (escapeChar (Char.ofNat n)).all (fun c => c.toNat < 128) = true := by
    decide
  intro c hc
  obtain ⟨d, hd, hc⟩ := List.mem_flatMap.mp hc
  have hd := hone d.toNat (h d hd)
  rw [Char.ofNat_toNat, List.all_eq_true] at hd
  exact of_decide_eq_true (hd c hc)

theorem ascii_stringChars {s : String} (h : Ascii s.toList) : Ascii (stringChars s) :=
  (Ascii.append (by simp [Ascii]) (ascii_flatMap_escapeChar h)).append (by simp [Ascii])

theorem ascii_numberChars (n : Nat) : Ascii (numberChars n) := by
  intro c hc
  rcases isDigit_of_mem_toString (n := (n : Int)) hc with h | rfl
  · exact Nat.lt_of_le_of_lt (UInt32.le_iff_toNat_le.mp (of_decide_eq_true (Bool.and_eq_true_iff.mp h).2))
      (by decide)
  · decide

theorem length_numberChars_le {n e : Nat} (he : 0 < e) (h : n < 10 ^ e) :
    (numberChars n).length ≤ e := by
  have hlen := Nat.repr_length n e he h
  rwa [← String.length_toList] at hlen

theorem length_stringChars_hex (bytes : Bytes) :
    (stringChars (hex bytes)).length = 2 * bytes.length + 2 := by
  have hplain : ∀ cs : List Char, (∀ c ∈ cs, LowerHex c) → cs.flatMap escapeChar = cs := by
    intro cs h
    induction cs with
    | nil => rfl
    | cons c cs ih =>
        rw [List.flatMap_cons, (h c List.mem_cons_self).escapeChar,
          ih fun x hx => h x (List.mem_cons_of_mem _ hx)]
        rfl
  rw [stringChars, hex, String.toList_ofList, hplain _ fun c hc => lowerHex_of_mem_hex hc,
    List.length_append, List.length_append, length_flatMap_hexByte]
  show 1 + _ + 1 = _
  omega

/-! ## Printed envelopes read back

No two envelopes print alike, so a reader that inverts the printer exists. -/

theorem numberChars_inj {a b : Nat} {t t' : List Char} (ht : Ends t) (ht' : Ends t')
    (h : numberChars a ++ t = numberChars b ++ t') : a = b ∧ t = t' := by
  have hplain : ∀ n : Nat, Plain (numberChars n) := fun n =>
    plain_of_flat (v := .int n) trivial fun s => by rintro ⟨⟩
  obtain ⟨hvalue, rfl⟩ := plain_append_inj (hplain a) (hplain b) ht ht' h
  have hvalue : Value.int a = Value.int b :=
    valueChars_plain_inj trivial trivial (fun s => by rintro ⟨⟩) (fun s => by rintro ⟨⟩) hvalue
  exact ⟨Int.ofNat_inj.mp (Value.int.inj hvalue), rfl⟩

theorem ends_comma (t : List Char) : Ends (',' :: t) := ⟨_, _, rfl, .inl rfl⟩

theorem ends_brace (t : List Char) : Ends ('\x7d' :: t) := ⟨_, _, rfl, .inr rfl⟩

theorem chunkChars_inj {k k' : Chunk} {t t' : List Char} (h : k.chars ++ t = k'.chars ++ t') :
    k = k' ∧ t = t' := by
  simp only [Chunk.chars, objectChars, memberChars, commaChars, List.append_assoc, List.cons_append,
    List.nil_append, List.cons.injEq, true_and, List.append_cancel_left_eq] at h
  obtain ⟨hhash, h₁⟩ := stringChars_inj h
  simp only [List.cons.injEq, true_and, List.append_cancel_left_eq] at h₁
  obtain ⟨hlength, h₂⟩ := numberChars_inj (ends_brace _) (ends_brace _) h₁
  cases k
  cases k'
  cases hhash
  cases UInt64.toNat_inj.mp hlength
  exact ⟨rfl, (List.cons.inj h₂).2⟩

theorem chunkChars_head (k : Chunk) : ∃ r, k.chars = '\x7b' :: r := ⟨_, rfl⟩

theorem commaChars_cons (item : List Char) (items : List (List Char)) :
    commaChars (item :: items) = item ++ items.flatMap (fun next => ',' :: next) := by
  induction items generalizing item with
  | nil => simp [commaChars]
  | cons next items ih => rw [commaChars, ih] <;> simp

theorem chunksTail_inj {ks ks' : List Chunk} {t t' : List Char}
    (h : (ks.map Chunk.chars).flatMap (fun next => ',' :: next) ++ ']' :: t
      = (ks'.map Chunk.chars).flatMap (fun next => ',' :: next) ++ ']' :: t') : ks = ks' ∧ t = t' := by
  induction ks generalizing ks' with
  | nil =>
      cases ks' with
      | nil => exact ⟨rfl, (List.cons.inj h).2⟩
      | cons k' ks' => exact absurd (List.cons.inj h).1 (by decide)
  | cons k ks ih =>
      cases ks' with
      | nil => exact absurd (List.cons.inj h).1 (by decide)
      | cons k' ks' =>
          simp only [List.map_cons, List.flatMap_cons, List.cons_append, List.append_assoc,
            List.cons.injEq, true_and] at h
          obtain ⟨rfl, h₁⟩ := chunkChars_inj h
          obtain ⟨rfl, rfl⟩ := ih h₁
          exact ⟨rfl, rfl⟩

theorem chunksChars_inj {ks ks' : List Chunk} {t t' : List Char}
    (h : commaChars (ks.map Chunk.chars) ++ ']' :: t
      = commaChars (ks'.map Chunk.chars) ++ ']' :: t') : ks = ks' ∧ t = t' := by
  cases ks with
  | nil =>
      cases ks' with
      | nil => exact ⟨rfl, (List.cons.inj h).2⟩
      | cons k' ks' =>
          obtain ⟨r, hr⟩ := chunkChars_head k'
          rw [List.map_nil, List.map_cons, commaChars_cons, hr] at h
          exact absurd (List.cons.inj h).1 (by decide)
  | cons k ks =>
      cases ks' with
      | nil =>
          obtain ⟨r, hr⟩ := chunkChars_head k
          rw [List.map_nil, List.map_cons, commaChars_cons, hr] at h
          exact absurd (List.cons.inj h).1 (by decide)
      | cons k' ks' =>
          rw [List.map_cons, List.map_cons, commaChars_cons, commaChars_cons, List.append_assoc,
            List.append_assoc] at h
          obtain ⟨rfl, h₁⟩ := chunkChars_inj h
          obtain ⟨rfl, rfl⟩ := chunksTail_inj h₁
          exact ⟨rfl, rfl⟩

theorem manifestChars_inj {m m' : Manifest} {t t' : List Char} (h : m.chars ++ t = m'.chars ++ t') :
    m = m' ∧ t = t' := by
  simp only [Manifest.chars, objectChars, memberChars, commaChars, List.append_assoc, List.cons_append,
    List.nil_append, List.cons.injEq, true_and, List.append_cancel_left_eq] at h
  obtain ⟨hversion, h₁⟩ := numberChars_inj (ends_comma _) (ends_comma _) h
  simp only [List.cons.injEq, true_and, List.append_cancel_left_eq] at h₁
  obtain ⟨halgorithm, h₂⟩ := stringChars_inj h₁
  simp only [List.cons.injEq, true_and, List.append_cancel_left_eq] at h₂
  obtain ⟨hmin, h₃⟩ := numberChars_inj (ends_comma _) (ends_comma _) h₂
  simp only [List.cons.injEq, true_and, List.append_cancel_left_eq] at h₃
  obtain ⟨havg, h₄⟩ := numberChars_inj (ends_comma _) (ends_comma _) h₃
  simp only [List.cons.injEq, true_and, List.append_cancel_left_eq] at h₄
  obtain ⟨hmax, h₅⟩ := numberChars_inj (ends_comma _) (ends_comma _) h₄
  simp only [List.cons.injEq, true_and, List.append_cancel_left_eq] at h₅
  obtain ⟨hhash, h₆⟩ := stringChars_inj h₅
  simp only [List.cons.injEq, true_and, List.append_cancel_left_eq] at h₆
  obtain ⟨hlength, h₇⟩ := numberChars_inj (ends_comma _) (ends_comma _) h₆
  simp only [List.cons.injEq, true_and, List.append_cancel_left_eq] at h₇
  obtain ⟨hchunks, h₈⟩ := chunksChars_inj h₇
  cases m
  cases m'
  cases UInt32.toNat_inj.mp hversion
  cases halgorithm
  cases UInt32.toNat_inj.mp hmin
  cases UInt32.toNat_inj.mp havg
  cases UInt32.toNat_inj.mp hmax
  cases hhash
  cases UInt64.toNat_inj.mp hlength
  cases hchunks
  exact ⟨rfl, (List.cons.inj h₈).2⟩

theorem toVec_envelopeChars_injective : Function.Injective fun e : Envelope => toVec e.chars := by
  intro e e' h
  have h : e.chars = e'.chars := String.ofList_injective (utf8_injective h)
  simp only [Envelope.chars, objectChars, memberChars, commaChars, List.append_assoc,
    List.cons_append, List.nil_append, List.cons.injEq, true_and, List.append_cancel_left_eq] at h
  obtain ⟨hmanifest, h₁⟩ := manifestChars_inj h
  simp only [List.cons.injEq, true_and, List.append_cancel_left_eq] at h₁
  obtain ⟨hhash, -⟩ := stringChars_inj h₁
  cases e
  cases e'
  cases hmanifest
  cases hhash
  rfl

/-! ## The writer

What the crates document: the cuts tile the object, the digest has 32 bytes, what `zstd`
compresses it decompresses within the original length, and `serde_json` reads what it
printed. -/

structure Crates.Documented (c : Crates) : Prop where
  cuts : ∀ bytes : Bytes, Tiles minLen maxLen bytes.length 0 (c.cuts bytes)
  digest : ∀ bytes : Bytes, (c.sha256 bytes).length = 32
  zstd : ∀ bytes : Bytes, ∃ data, c.compress bytes = .ok data ∧
    c.decompress data bytes.length = .ok bytes
  json : ∀ e : Envelope, c.fromSlice (toVec e.chars) = .ok e

variable {c : Crates} {bytes : Bytes}

/-- The chunk the manifest lists for a piece. -/
def Crates.chunk (c : Crates) (piece : Bytes) : Chunk := ⟨c.sha256Hex piece, .ofNat piece.length⟩

/-- The length of a piece is a number that a `usize` holds. -/
theorem toNat_chunk_length {piece : Bytes} (h : piece.length ≤ maxLen) :
    (c.chunk piece).length.toNat = piece.length :=
  UInt64.toNat_ofNat_of_lt' (Nat.lt_of_le_of_lt h (by decide))

/-- The pieces of an object. -/
def Crates.pieces (c : Crates) (bytes : Bytes) : List Bytes :=
  (c.cuts bytes).map (Cut.slice bytes)

/-- The manifest `encode` writes. -/
def Crates.objectManifest (c : Crates) (bytes : Bytes) : Manifest :=
  c.manifest bytes ((c.pieces bytes).map c.chunk)

theorem toNat_originalLength (h : bytes.length ≤ maxObject) :
    (c.objectManifest bytes).originalLength.toNat = bytes.length :=
  UInt64.toNat_ofNat_of_lt' (Nat.lt_of_le_of_lt h (by decide))

theorem Crates.Documented.pieces_flatten (h : c.Documented) : (c.pieces bytes).flatten = bytes :=
  (h.cuts bytes).flatten_slices

theorem Crates.Documented.piece_bounds (h : c.Documented) {piece : Bytes}
    (hpiece : piece ∈ c.pieces bytes) : 0 < piece.length ∧ piece.length ≤ maxLen := by
  obtain ⟨cut, hcut, rfl⟩ := List.mem_map.mp hpiece
  obtain ⟨hpos, hmax, -⟩ := (h.cuts bytes).bounds hcut
  rw [(h.cuts bytes).length_slice hcut]
  exact ⟨hpos, hmax⟩

/-- Every piece but the last has the minimum length, so a full object has no more pieces
than the reader accepts. -/
theorem Crates.Documented.count_le (h : c.Documented) (hlen : bytes.length ≤ maxObject) :
    (c.pieces bytes).length ≤ maxObject / minLen + 1 := by
  have hcount := (h.cuts bytes).count_le
  rw [Crates.pieces, List.length_map]
  unfold minLen at *
  unfold maxObject at *
  omega

theorem encodeCut_ok (h : c.Documented) (bytes : Bytes) (acc : List Chunk × BTreeMap Bytes) (cut : Cut) :
    ∃ unique, encodeCut c bytes acc cut = .ok (acc.1 ++ [c.chunk (cut.slice bytes)], unique) ∧
      unique.contains (c.sha256Hex (cut.slice bytes)) = true ∧
      (∀ k, acc.2.contains k = true → unique.contains k = true) ∧
      ∀ k data, unique[k]? = some data → acc.2[k]? = some data ∨
        k = c.sha256Hex (cut.slice bytes) ∧ c.compress (cut.slice bytes) = .ok data := by
  unfold encodeCut
  cases hseen : acc.2.contains (c.sha256Hex (cut.slice bytes)) with
  | true =>
      refine ⟨acc.2, ?_, hseen, fun k hk => hk, fun k data hk => .inl hk⟩
      simp only [hseen, if_true]
      rfl
  | false =>
      obtain ⟨data, hdata, -⟩ := h.zstd (cut.slice bytes)
      refine ⟨acc.2.insert (c.sha256Hex (cut.slice bytes)) data, ?_, by simp, ?_, ?_⟩
      · simp only [hseen, hdata, Bool.false_eq_true, if_false]
        rfl
      · intro k hk
        rw [Std.ExtTreeMap.contains_insert, hk, Bool.or_true]
      · intro k d hk
        rw [Std.ExtTreeMap.getElem?_insert] at hk
        split at hk
        · next heq =>
            obtain rfl := Option.some.inj hk
            exact .inr ⟨(Std.LawfulEqCmp.eq_of_compare heq).symm, hdata⟩
        · exact .inl hk

theorem encodeCuts_ok (h : c.Documented) (bytes : Bytes) (cuts : List Cut) (acc : List Chunk × BTreeMap Bytes) :
    ∃ unique, cuts.foldlM (encodeCut c bytes) acc
        = .ok (acc.1 ++ (cuts.map (Cut.slice bytes)).map c.chunk, unique) ∧
      (∀ piece ∈ cuts.map (Cut.slice bytes), unique.contains (c.sha256Hex piece) = true) ∧
      (∀ k, acc.2.contains k = true → unique.contains k = true) ∧
      ∀ k data, unique[k]? = some data → acc.2[k]? = some data ∨
        ∃ piece ∈ cuts.map (Cut.slice bytes), k = c.sha256Hex piece ∧ c.compress piece = .ok data := by
  induction cuts generalizing acc with
  | nil =>
      exact ⟨acc.2, by simp [pure, Except.pure], by simp, fun k hk => hk, fun k data hk => .inl hk⟩
  | cons cut cuts ih =>
      obtain ⟨mid, hmid, hown, hkeep, hnew⟩ := encodeCut_ok h bytes acc cut
      obtain ⟨unique, hrest, hpieces, hkeep', hnew'⟩ := ih (acc.1 ++ [c.chunk (cut.slice bytes)], mid)
      refine ⟨unique, ?_, ?_, fun k hk => hkeep' k (hkeep k hk), ?_⟩
      · rw [foldlM_cons_eq_ok]
        exact ⟨_, hmid, by rw [hrest]; simp⟩
      · rw [List.map_cons, List.forall_mem_cons]
        exact ⟨hkeep' _ hown, hpieces⟩
      · intro k data hk
        rcases hnew' k data hk with hk | ⟨piece, hpiece, hk⟩
        · rcases hnew k data hk with hk | ⟨hk, hdata⟩
          · exact .inl hk
          · exact .inr ⟨_, List.mem_cons_self, hk, hdata⟩
        · exact .inr ⟨piece, List.mem_cons_of_mem _ hpiece, hk⟩

/-- What `encode` yields: the sealed manifest of the pieces, and every piece once. -/
theorem encode_ok (h : c.Documented) (hlen : bytes.length ≤ maxObject) :
    ∃ unique, encode c bytes = .ok (toVec (c.seal (c.objectManifest bytes)).chars, unique) ∧
      (∀ piece ∈ c.pieces bytes, unique.contains (c.sha256Hex piece) = true) ∧
      ∀ k data, unique[k]? = some data →
        ∃ piece ∈ c.pieces bytes, k = c.sha256Hex piece ∧ c.compress piece = .ok data := by
  obtain ⟨unique, hloop, hpieces, -, hnew⟩ := encodeCuts_ok h bytes (c.cuts bytes) ([], ∅)
  refine ⟨unique, ?_, hpieces, fun k data hk => ?_⟩
  · rw [encode, bind_eq_ok]
    refine ⟨(), ensure_eq_ok.mpr (decide_eq_true hlen), ?_⟩
    rw [bind_eq_ok]
    exact ⟨_, hloop, rfl⟩
  · rcases hnew k data hk with hk | hk
    · simp at hk
    · exact hk

/-! ## The manifest fits

The length of the printed manifest is bounded member by member. Only the list of the chunks
grows with the object, and its length is bounded by the number of pieces. -/

/-- Printed in ASCII, in at most `n` bytes. -/
def Fits (n : Nat) (cs : List Char) : Prop := Ascii cs ∧ cs.length ≤ n

theorem Fits.mono {m n : Nat} {cs : List Char} (h : Fits m cs) (hle : m ≤ n) : Fits n cs :=
  ⟨h.1, Nat.le_trans h.2 hle⟩

theorem Fits.append {m n : Nat} {a b : List Char} (ha : Fits m a) (hb : Fits n b) :
    Fits (m + n) (a ++ b) :=
  ⟨ha.1.append hb.1, by rw [List.length_append]; exact Nat.add_le_add ha.2 hb.2⟩

/-- A text that is known. -/
theorem fits_known (cs : List Char) (h : cs.all (fun c => c.toNat < 128) = true) : Fits cs.length cs :=
  ⟨fun c hc => of_decide_eq_true (List.all_eq_true.mp h c hc), Nat.le_refl _⟩

theorem fits_name (name : String) (h : (stringChars name).all (fun c => c.toNat < 128) = true) :
    Fits (stringChars name).length (stringChars name) :=
  fits_known _ h

theorem fits_number {n e : Nat} (he : 0 < e) (h : n < 10 ^ e) : Fits e (numberChars n) :=
  ⟨ascii_numberChars n, length_numberChars_le he h⟩

theorem Crates.Documented.fits_hash (h : c.Documented) (b : Bytes) :
    Fits 66 (stringChars (c.sha256Hex b)) := by
  refine ⟨ascii_stringChars (ascii_hex _), ?_⟩
  rw [Crates.sha256Hex, length_stringChars_hex, h.digest]

theorem fits_member {m n : Nat} {name : String} {value : List Char} (hname : Fits m (stringChars name))
    (hvalue : Fits n value) : Fits (m + 1 + n) (memberChars name value) :=
  (hname.append (fits_known [':'] rfl)).append hvalue

theorem fits_comma_singleton {n : Nat} {item : List Char} (h : Fits n item) :
    Fits n (commaChars [item]) := h

theorem fits_comma_cons {m n : Nat} {item : List Char} {items : List (List Char)} (h : Fits m item)
    (hrest : Fits n (commaChars items)) : Fits (m + 1 + n) (commaChars (item :: items)) := by
  cases items with
  | nil => exact h.mono (by omega)
  | cons next items => exact (h.append (fits_known [','] rfl)).append hrest

theorem fits_comma {m : Nat} {items : List (List Char)} (h : ∀ item ∈ items, Fits m item) :
    Fits ((m + 1) * items.length) (commaChars items) := by
  induction items with
  | nil => exact fits_known [] rfl
  | cons item items ih =>
      refine (fits_comma_cons (h item List.mem_cons_self)
        (ih fun x hx => h x (List.mem_cons_of_mem _ hx))).mono ?_
      rw [List.length_cons, Nat.mul_succ]
      omega

theorem fits_object {n : Nat} {members : List (List Char)} (h : Fits n (commaChars members)) :
    Fits (1 + n + 1) (objectChars members) :=
  ((fits_known ['\x7b'] rfl).append h).append (fits_known ['\x7d'] rfl)

theorem fits_chunk (h : c.Documented) {piece : Bytes} (hlen : piece.length ≤ maxLen) :
    Fits 91 (c.chunk piece).chars := by
  have hlength : Fits 6 (numberChars (c.chunk piece).length.toNat) := by
    rw [toNat_chunk_length hlen]
    exact fits_number (by decide) (Nat.lt_of_le_of_lt hlen (by decide))
  have hmembers :=
    fits_comma_cons (fits_member (fits_name "hash" rfl) (h.fits_hash piece)) <|
    fits_comma_singleton (fits_member (fits_name "length" rfl) hlength)
  refine (fits_object hmembers).mono ?_
  decide

/-- 91 characters a chunk and a comma, and less than 500 for everything else. -/
theorem fits_manifest (h : c.Documented) (hlen : bytes.length ≤ maxObject) :
    Fits (92 * (maxObject / minLen + 1) + 500) (c.objectManifest bytes).chars := by
  have hchunks : Fits (92 * (maxObject / minLen + 1))
      (commaChars (((c.pieces bytes).map c.chunk).map Chunk.chars)) := by
    refine (fits_comma (m := 91) fun item hitem => ?_).mono (Nat.mul_le_mul_left _ ?_)
    · obtain ⟨k, hk, rfl⟩ := List.mem_map.mp hitem
      obtain ⟨piece, hpiece, rfl⟩ := List.mem_map.mp hk
      exact fits_chunk h (h.piece_bounds hpiece).2
    · rw [List.length_map, List.length_map]
      exact h.count_le hlen
  have hlist := ((fits_known ['['] rfl).append hchunks).append (fits_known [']'] rfl)
  have hlength : Fits 9 (numberChars (c.objectManifest bytes).originalLength.toNat) := by
    rw [toNat_originalLength hlen]
    exact fits_number (by decide) (Nat.lt_of_le_of_lt hlen (by decide))
  have hnumber : ∀ n < 10 ^ 6, Fits 6 (numberChars n) := fun n hn => fits_number (by decide) hn
  have hmembers :=
    fits_comma_cons (fits_member (fits_name "version" rfl) (hnumber (1 : UInt32).toNat (by decide))) <|
    fits_comma_cons (fits_member (fits_name "algorithm" rfl) (fits_name algorithm rfl)) <|
    fits_comma_cons (fits_member (fits_name "min" rfl) (hnumber (UInt32.ofNat minLen).toNat (by decide))) <|
    fits_comma_cons (fits_member (fits_name "avg" rfl) (hnumber (UInt32.ofNat avgLen).toNat (by decide))) <|
    fits_comma_cons (fits_member (fits_name "max" rfl) (hnumber (UInt32.ofNat maxLen).toNat (by decide))) <|
    fits_comma_cons (fits_member (fits_name "original_hash" rfl) (h.fits_hash bytes)) <|
    fits_comma_cons (fits_member (fits_name "original_length" rfl) hlength) <|
    fits_comma_singleton (fits_member (fits_name "chunks" rfl) hlist)
  refine (fits_object hmembers).mono ?_
  decide

theorem fits_envelope (h : c.Documented) (hlen : bytes.length ≤ maxObject) :
    Fits (8 * 1024 * 1024) (c.seal (c.objectManifest bytes)).chars := by
  have hmembers :=
    fits_comma_cons (fits_member (fits_name "manifest" rfl) (fits_manifest h hlen)) <|
    fits_comma_singleton (fits_member (fits_name "manifest_hash" rfl)
      (h.fits_hash (toVec (c.objectManifest bytes).chars)))
  refine (fits_object hmembers).mono ?_
  decide

/-! ## The reader accepts it

The reader checks the sealed manifest field by field, and then each chunk: its lengths are in
the bounds, they add up without overflow, and the sum is the length of the object. -/

theorem hash_checked (h : c.Documented) (b : Bytes) :
    byteLen (c.sha256Hex b) = 64 ∧ (utf8 (c.sha256Hex b)).all isAsciiHexdigit = true := by
  have hascii : Ascii ((c.sha256 b).flatMap hexByte) := fun x hx => (lowerHex_of_mem_hex hx).ascii
  have hbytes := utf8_ascii hascii
  have hlen : (utf8 (c.sha256Hex b)).length = byteLen (c.sha256Hex b) := by
    rw [utf8, Array.length_toList, String.toUTF8_eq_toByteArray]
    rfl
  refine ⟨?_, ?_⟩
  · rw [← hlen, Crates.sha256Hex, hex, ← toVec, length_toVec hascii, length_flatMap_hexByte, h.digest]
  · rw [Crates.sha256Hex, hex, ← toVec, hbytes, List.all_map, List.all_eq_true]
    exact fun x hx => (lowerHex_of_mem_hex hx).isAsciiHexdigit

theorem checkChunk_ok (h : c.Documented) {total : Nat} {piece : Bytes} (hpos : 0 < piece.length)
    (hmax : piece.length ≤ maxLen) (htotal : total + piece.length ≤ maxObject) :
    checkChunk total (c.chunk piece) = .ok (total + piece.length) := by
  obtain ⟨hhash, hdigits⟩ := hash_checked h piece
  have hadd : checkedAdd total piece.length = some (total + piece.length) :=
    if_pos (Nat.lt_of_le_of_lt htotal (by decide))
  rw [checkChunk, bind_eq_ok]
  refine ⟨(), ensure_eq_ok.mpr ?_, ?_⟩
  · rw [toNat_chunk_length hmax]
    simp [Crates.chunk, hhash, hdigits, hpos, hmax]
  · rw [toNat_chunk_length hmax, hadd]
    rfl

theorem checkChunks_ok (h : c.Documented) {pieces : List Bytes} {total : Nat}
    (hpieces : ∀ piece ∈ pieces, 0 < piece.length ∧ piece.length ≤ maxLen)
    (htotal : total + pieces.flatten.length ≤ maxObject) :
    (pieces.map c.chunk).foldlM checkChunk total = .ok (total + pieces.flatten.length) := by
  induction pieces generalizing total with
  | nil => rfl
  | cons piece pieces ih =>
      obtain ⟨hpos, hmax⟩ := hpieces piece List.mem_cons_self
      rw [List.flatten_cons, List.length_append] at htotal ⊢
      rw [List.map_cons, foldlM_cons_eq_ok]
      refine ⟨_, checkChunk_ok h hpos hmax (by omega), ?_⟩
      rw [ih (fun p hp => hpieces p (List.mem_cons_of_mem _ hp)) (by omega), Nat.add_assoc]

/-- What `decode` checks of the manifest it returns. -/
structure Accepted (row : BlobRow) (m : Manifest) : Prop where
  format : m.version = 1 ∧ m.algorithm = algorithm ∧ m.min = .ofNat minLen ∧
    m.avg = .ofNat avgLen ∧ m.max = .ofNat maxLen
  identity : m.originalHash = row.hash ∧ m.originalLength.toNat ≤ maxObject ∧
    row.origLen = Int.bmod m.originalLength.toNat (2 ^ 64)
  count : m.chunks.length ≤ maxObject / minLen + 1
  total : m.chunks.foldlM checkChunk 0 = .ok m.originalLength.toNat

theorem decode_of_accepted {row : BlobRow} {m : Manifest} (hsize : row.data.length ≤ 8 * 1024 * 1024)
    (hread : c.fromSlice row.data = .ok (c.seal m)) (h : Accepted row m) : decode c row = .ok m := by
  obtain ⟨hversion, halgorithm, hmin, havg, hmax⟩ := h.format
  obtain ⟨hhash, hlen, horig⟩ := h.identity
  rw [decode, bind_eq_ok]
  refine ⟨(), ensure_eq_ok.mpr (decide_eq_true hsize), ?_⟩
  rw [bind_eq_ok]
  refine ⟨_, hread, ?_⟩
  rw [bind_eq_ok]
  refine ⟨(), ensure_eq_ok.mpr (beq_self_eq_true _), ?_⟩
  rw [bind_eq_ok]
  refine ⟨(), ensure_eq_ok.mpr ?_, ?_⟩
  · simp only [Crates.seal, hversion, halgorithm, hmin, havg, hmax, beq_self_eq_true, Bool.and_self]
  rw [bind_eq_ok]
  refine ⟨(), ensure_eq_ok.mpr ?_, ?_⟩
  · simp [Crates.seal, hhash, horig, hlen]
  rw [bind_eq_ok]
  refine ⟨(), ensure_eq_ok.mpr (decide_eq_true h.count), ?_⟩
  rw [bind_eq_ok]
  refine ⟨_, h.total, ?_⟩
  rw [bind_eq_ok]
  exact ⟨(), ensure_eq_ok.mpr (beq_self_eq_true _), rfl⟩

theorem accepted_objectManifest (h : c.Documented) (hlen : bytes.length ≤ maxObject) (data : Bytes) :
    Accepted (c.objectRow bytes data) (c.objectManifest bytes) where
  format := ⟨rfl, rfl, rfl, rfl, rfl⟩
  identity := by
    rw [toNat_originalLength hlen]
    refine ⟨rfl, hlen, ?_⟩
    show (bytes.length : Int) = Int.bmod bytes.length (2 ^ 64)
    have hlen : bytes.length ≤ 512 * 1024 * 1024 := hlen
    rw [Int.bmod_eq_of_le] <;> omega
  count := by
    show ((c.pieces bytes).map c.chunk).length ≤ _
    rw [List.length_map]
    exact h.count_le hlen
  total := by
    have hsum : ((c.pieces bytes).map c.chunk).foldlM checkChunk 0 = _ :=
      checkChunks_ok h (fun piece hpiece => h.piece_bounds hpiece)
        (by rw [h.pieces_flatten, Nat.zero_add]; exact hlen)
    rw [toNat_originalLength hlen]
    rwa [h.pieces_flatten, Nat.zero_add] at hsum

/-- What `encode` writes, `decode` accepts. -/
theorem decode_ok (h : c.Documented) (hlen : bytes.length ≤ maxObject) :
    decode c (c.objectRow bytes (toVec (c.seal (c.objectManifest bytes)).chars))
      = .ok (c.objectManifest bytes) := by
  have hfits := fits_envelope h hlen
  generalize hdata : toVec (c.seal (c.objectManifest bytes)).chars = data
  have hsize : data.length ≤ 8 * 1024 * 1024 := by
    rw [← hdata, length_toVec hfits.1]
    exact hfits.2
  have hread : c.fromSlice data = .ok (c.seal (c.objectManifest bytes)) := by
    rw [← hdata]
    exact h.json _
  exact decode_of_accepted hsize hread (accepted_objectManifest h hlen data)

/-! ## The pieces come back

`store` keeps a chunk that is there already. What it adds is therefore right only if what is
there is the same piece: the rows of the table are genuine and the digest tells the pieces
apart. -/

/-- The row holds this piece. -/
def Tables.Holds (c : Crates) (t : Tables) (piece : Bytes) : Prop :=
  ∃ data, t.ccrChunks[c.sha256Hex piece]? = some data ∧ c.decompress data piece.length = .ok piece

/-- Every chunk row decompresses to the bytes it is filed under, and only rows of `blobs`
own chunks. -/
structure Tables.Genuine (c : Crates) (t : Tables) : Prop where
  chunks : ∀ k, t.ccrChunks.contains k = true → ∃ piece, k = c.sha256Hex piece ∧ t.Holds c piece
  owners : ∀ object k, (object, k) ∈ t.ccrObjectChunks → t.blobs.contains object = true

/-- SHA-256 tells the pieces of an object from one another and from what the store holds. -/
def CollisionFree (c : Crates) (t : Tables) (bytes : Bytes) : Prop :=
  ∀ p ∈ c.pieces bytes, ∀ q, q ∈ c.pieces bytes ∨ t.Holds c q → c.sha256 p = c.sha256 q → p = q

theorem publishChunk_ok {object : String} {t : Tables} {entry : String × Bytes}
    (hnew : (object, entry.1) ∉ t.ccrObjectChunks) :
    publishChunk object t entry = .ok { t with
      ccrChunks := t.ccrChunks.insertIfNew entry.1 entry.2
      ccrObjectChunks := t.ccrObjectChunks ++ [(object, entry.1)] } := by
  rw [publishChunk, bind_eq_ok]
  refine ⟨(), ensure_eq_ok.mpr ?_, rfl⟩
  rw [List.contains_eq_mem, decide_eq_false hnew]
  rfl

/-- What the loop of `store` adds to the tables. -/
theorem publish_ok {object : String} {l : List (String × Bytes)} {t : Tables}
    (hnodup : (l.map Prod.fst).Nodup)
    (hnew : ∀ k ∈ l.map Prod.fst, (object, k) ∉ t.ccrObjectChunks) :
    ∃ t', l.foldlM (publishChunk object) t = .ok t' ∧ t'.blobs = t.blobs ∧
      (∀ e, e ∈ t'.ccrObjectChunks ↔ e ∈ t.ccrObjectChunks ∨ e.1 = object ∧ e.2 ∈ l.map Prod.fst) ∧
      (∀ k, t'.ccrChunks.contains k = true ↔ t.ccrChunks.contains k = true ∨ k ∈ l.map Prod.fst) ∧
      ∀ k data, t'.ccrChunks[k]? = some data → t.ccrChunks[k]? = some data ∨ (k, data) ∈ l := by
  induction l generalizing t with
  | nil => exact ⟨t, rfl, rfl, by simp, by simp, fun k data hk => .inl hk⟩
  | cons entry l ih =>
      rw [List.map_cons, List.nodup_cons] at hnodup
      have hentry := publishChunk_ok (hnew entry.1 List.mem_cons_self)
      obtain ⟨t', hrun, hblobs, hedges, hcontains, hrows⟩ := @ih { t with
        ccrChunks := t.ccrChunks.insertIfNew entry.1 entry.2
        ccrObjectChunks := t.ccrObjectChunks ++ [(object, entry.1)] } hnodup.2 (by
          intro k hk hmem
          rcases List.mem_append.mp hmem with hmem | hmem
          · exact hnew k (List.mem_cons_of_mem _ hk) hmem
          · obtain ⟨-, rfl⟩ := Prod.mk.inj (List.mem_singleton.mp hmem)
            exact hnodup.1 hk)
      refine ⟨t', foldlM_cons_eq_ok.mpr ⟨_, hentry, hrun⟩, hblobs, ?_, ?_, ?_⟩
      · intro e
        rw [hedges, List.mem_append, List.mem_singleton, List.map_cons, List.mem_cons, Prod.ext_iff]
        tauto
      · intro k
        rw [hcontains, Std.ExtTreeMap.contains_insertIfNew, List.map_cons, List.mem_cons,
          Bool.or_eq_true, beq_iff_eq, Std.LawfulEqCmp.compare_eq_iff_eq]
        tauto
      · intro k data hk
        rcases hrows k data hk with hk | hk
        · rw [Std.ExtTreeMap.getElem?_insertIfNew] at hk
          split at hk
          · next heq =>
              obtain rfl := Option.some.inj hk
              rw [← Std.LawfulEqCmp.eq_of_compare heq.1]
              exact .inr List.mem_cons_self
          · exact .inl hk
        · exact .inr (List.mem_cons_of_mem _ hk)

theorem loadChunks_ok {compressed : BTreeMap Bytes} {pieces : List Bytes}
    (hmax : ∀ piece ∈ pieces, piece.length ≤ maxLen)
    (hheld : ∀ piece ∈ pieces, ∃ data, compressed[c.sha256Hex piece]? = some data ∧
      c.decompress data piece.length = .ok piece) (original : Bytes) :
    (pieces.map c.chunk).foldlM (loadChunk c compressed) original
      = .ok (original ++ pieces.flatten) := by
  induction pieces generalizing original with
  | nil => simp [pure, Except.pure]
  | cons piece pieces ih =>
      obtain ⟨data, hdata, hpiece⟩ := hheld piece List.mem_cons_self
      have hone : loadChunk c compressed original (c.chunk piece) = .ok (original ++ piece) := by
        rw [loadChunk, show (c.chunk piece).hash = c.sha256Hex piece from rfl, hdata]
        show (c.decompress data (c.chunk piece).length.toNat >>= _) = _
        rw [toNat_chunk_length (hmax piece List.mem_cons_self), bind_eq_ok]
        refine ⟨piece, hpiece, ?_⟩
        rw [bind_eq_ok]
        exact ⟨(), ensure_eq_ok.mpr (by simp), rfl⟩
      rw [List.map_cons, foldlM_cons_eq_ok]
      exact ⟨_, hone, by
        rw [ih (fun p hp => hmax p (List.mem_cons_of_mem _ hp))
          (fun p hp => hheld p (List.mem_cons_of_mem _ hp)), List.append_assoc, List.flatten_cons]⟩

theorem load_ok (h : c.Documented) (hlen : bytes.length ≤ maxObject) {t : Tables}
    (hheld : ∀ piece ∈ c.pieces bytes, t.Holds c piece)
    (howned : ∀ piece ∈ c.pieces bytes,
      (c.sha256Hex bytes, c.sha256Hex piece) ∈ t.ccrObjectChunks) :
    load c t (c.objectRow bytes (toVec (c.seal (c.objectManifest bytes)).chars)) = .ok bytes := by
  have hfetch : ∀ piece ∈ c.pieces bytes, ∃ data,
      (t.owned (c.sha256Hex bytes))[c.sha256Hex piece]? = some data ∧
        c.decompress data piece.length = .ok piece := fun piece hpiece => by
    obtain ⟨data, hdata, hdecompress⟩ := hheld piece hpiece
    refine ⟨data, ?_, hdecompress⟩
    rw [Tables.owned, Std.ExtTreeMap.getElem?_filter', hdata, Option.filter_some, if_pos]
    rw [List.contains_eq_mem, decide_eq_true (howned piece hpiece)]
  have hload := loadChunks_ok (fun piece hpiece => (h.piece_bounds hpiece).2) hfetch []
  rw [List.nil_append, h.pieces_flatten] at hload
  have hdecode := decode_ok h hlen
  generalize toVec (c.seal (c.objectManifest bytes)).chars = data at hdecode ⊢
  have hwhole : (bytes.length == (c.objectManifest bytes).originalLength.toNat
      && c.sha256Hex bytes == (c.objectRow bytes data).hash) = true := by
    rw [toNat_originalLength hlen]
    exact Bool.and_eq_true_iff.mpr ⟨beq_self_eq_true _, beq_self_eq_true _⟩
  rw [load, bind_eq_ok]
  refine ⟨_, hdecode, ?_⟩
  rw [bind_eq_ok]
  refine ⟨bytes, hload, ?_⟩
  rw [bind_eq_ok]
  exact ⟨(), ensure_eq_ok.mpr hwhole, rfl⟩

/-- A new object: its row, the edges to its pieces, and for every piece a row that holds it. -/
theorem store_new (h : c.Documented) (hlen : bytes.length ≤ maxObject) {t : Tables}
    (ht : t.Genuine c) (hnew : t.blobs[c.sha256Hex bytes]? = none) (hfree : CollisionFree c t bytes) :
    ∃ t', store c bytes t = .ok t' ∧ t'.Genuine c ∧
      t'.blobs[c.sha256Hex bytes]?
        = some (c.objectRow bytes (toVec (c.seal (c.objectManifest bytes)).chars)) ∧
      ∀ piece ∈ c.pieces bytes, t'.Holds c piece ∧
        (c.sha256Hex bytes, c.sha256Hex piece) ∈ t'.ccrObjectChunks := by
  obtain ⟨unique, hencode, hpieces, hentries⟩ := encode_ok h hlen
  generalize toVec (c.seal (c.objectManifest bytes)).chars = data at hencode ⊢
  have hkeys : unique.toList.map Prod.fst = unique.keys := Std.ExtTreeMap.map_fst_toList_eq_keys
  have hfresh : ∀ k ∈ unique.toList.map Prod.fst, (c.sha256Hex bytes, k) ∉ t.ccrObjectChunks := by
    intro k hk hedge
    have howner := ht.owners _ _ hedge
    rw [Std.ExtTreeMap.contains_eq_isSome_getElem?, hnew] at howner
    cases howner
  obtain ⟨t', hrun, hblobs, hedges, hcontains, hrows⟩ := publish_ok
    (t := { t with blobs := t.blobs.insert (c.sha256Hex bytes) (c.objectRow bytes data) })
    (by rw [hkeys]; exact Std.ExtTreeMap.nodup_keys) hfresh
  have hrow : ∀ k d, t'.ccrChunks[k]? = some d →
      (∃ piece, k = c.sha256Hex piece ∧ t.Holds c piece ∧ c.decompress d piece.length = .ok piece) ∨
      ∃ piece ∈ c.pieces bytes, k = c.sha256Hex piece ∧ c.decompress d piece.length = .ok piece := by
    intro k d hk
    rcases hrows k d hk with hk | hk
    · obtain ⟨piece, rfl, hheld⟩ := ht.chunks k (by
        rw [Std.ExtTreeMap.contains_eq_isSome_getElem?, hk]
        rfl)
      obtain ⟨d', hd', hdecompress⟩ := hheld
      obtain rfl : d = d' := Option.some.inj (hk.symm.trans hd')
      exact .inl ⟨piece, rfl, ⟨d, hd', hdecompress⟩, hdecompress⟩
    · obtain ⟨piece, hpiece, rfl, hcompress⟩ :=
        hentries k d (Std.ExtTreeMap.mem_toList_iff_getElem?_eq_some.mp hk)
      obtain ⟨d', hd', hdecompress⟩ := h.zstd piece
      obtain rfl := Except.ok.inj (hcompress.symm.trans hd')
      exact .inr ⟨piece, hpiece, rfl, hdecompress⟩
  refine ⟨t', ?_, ⟨?_, ?_⟩, ?_, fun piece hpiece => ⟨?_, ?_⟩⟩
  · rw [store, bind_eq_ok]
    refine ⟨_, hencode, ?_⟩
    simp only [hnew]
    exact hrun
  · intro k hk
    rw [Std.ExtTreeMap.contains_eq_isSome_getElem?, Option.isSome_iff_exists] at hk
    obtain ⟨d, hk⟩ := hk
    rcases hrow k d hk with ⟨piece, rfl, -, hdecompress⟩ | ⟨piece, -, rfl, hdecompress⟩
    · exact ⟨piece, rfl, d, hk, hdecompress⟩
    · exact ⟨piece, rfl, d, hk, hdecompress⟩
  · intro object k hedge
    rw [hblobs, Std.ExtTreeMap.contains_insert, Bool.or_eq_true]
    rcases (hedges _).mp hedge with hedge | ⟨rfl, -⟩
    · exact .inr (ht.owners object k hedge)
    · exact .inl (by simp)
  · rw [hblobs, Std.ExtTreeMap.getElem?_insert_self]
  · obtain ⟨d, hd⟩ : ∃ d, t'.ccrChunks[c.sha256Hex piece]? = some d := by
      rw [← Option.isSome_iff_exists, ← Std.ExtTreeMap.contains_eq_isSome_getElem?, hcontains, hkeys,
        Std.ExtTreeMap.mem_keys, ← Std.ExtTreeMap.contains_iff_mem]
      exact .inr (hpieces piece hpiece)
    rcases hrow _ d hd with ⟨q, hhash, hheld, hdecompress⟩ | ⟨q, hq, hhash, hdecompress⟩
    · obtain rfl := hfree piece hpiece q (.inr hheld) (hex_injective hhash)
      exact ⟨d, hd, hdecompress⟩
    · obtain rfl := hfree piece hpiece q (.inl hq) (hex_injective hhash)
      exact ⟨d, hd, hdecompress⟩
  · rw [hedges, hkeys, Std.ExtTreeMap.mem_keys, ← Std.ExtTreeMap.contains_iff_mem]
    exact .inr ⟨rfl, hpieces piece hpiece⟩

/-- Whatever `load` returns has the hash it was asked for. -/
theorem load_hash {t : Tables} {row : BlobRow} (h : load c t row = .ok bytes) :
    c.sha256Hex bytes = row.hash := by
  obtain ⟨m, -, h₁⟩ := bind_eq_ok.mp h
  obtain ⟨original, -, h₂⟩ := bind_eq_ok.mp h₁
  obtain ⟨_, hwhole, h₃⟩ := bind_eq_ok.mp h₂
  obtain rfl := pure_eq_ok.mp h₃
  exact beq_iff_eq.mp (Bool.and_eq_true_iff.mp (ensure_eq_ok.mp hwhole)).2

/-! ## The writer and the reader agree -/

/-- Pieces of the length `hi`. -/
def blockCuts (hi : Nat) : Nat → Nat → Nat → List Cut
  | 0, _, _ => []
  | fuel + 1, s, rest =>
      if rest = 0 then [] else
        ⟨s, min rest hi⟩ :: blockCuts hi fuel (s + min rest hi) (rest - min rest hi)

section BlockCuts

variable {lo hi fuel s rest : Nat}

theorem blockCuts_zero : blockCuts hi fuel s 0 = [] := by
  cases fuel <;> rfl

theorem blockCuts_succ (h : 0 < rest) :
    blockCuts hi (fuel + 1) s rest
      = ⟨s, min rest hi⟩ :: blockCuts hi fuel (s + min rest hi) (rest - min rest hi) := by
  rw [blockCuts, if_neg (Nat.ne_of_gt h)]

theorem tiles_blockCuts (hpos : 0 < hi) (hlo : lo ≤ hi) (hrest : rest ≤ fuel) :
    Tiles lo hi (s + rest) s (blockCuts hi fuel s rest) := by
  induction fuel generalizing s rest with
  | zero =>
      obtain rfl := Nat.le_zero.mp hrest
      exact .done
  | succ fuel ih =>
      rcases Nat.eq_zero_or_pos rest with rfl | hzero
      · rw [blockCuts_zero]
        exact .done
      · have hnext := @ih (s + min rest hi) (rest - min rest hi) (by omega)
        rw [Nat.add_assoc, Nat.add_sub_cancel' (Nat.min_le_left _ _)] at hnext
        rw [blockCuts_succ hzero]
        refine .cut (by omega) (Nat.min_le_right _ _) ?_ hnext
        rcases Nat.le_total rest hi with hle | hle
        · left
          rw [Nat.min_eq_left hle, Nat.sub_self, blockCuts_zero]
        · right
          omega

/-- Two full pieces and a rest. -/
theorem blockCuts_two {r : Nat} (hpos : 0 < r) (hle : r ≤ hi) :
    blockCuts hi (fuel + 3) 0 (hi + hi + r) = [⟨0, hi⟩, ⟨hi, hi⟩, ⟨hi + hi, r⟩] := by
  have hfirst : min (hi + hi + r) hi = hi := by omega
  have hsecond : min (hi + hi + r - hi) hi = hi := by omega
  have hthird : min (hi + hi + r - hi - hi) hi = r := by omega
  have hrest : hi + hi + r - hi - hi = r := by omega
  rw [blockCuts_succ (by omega), hfirst, blockCuts_succ (by omega), hsecond,
    blockCuts_succ (by omega), hthird, hrest, Nat.sub_self, blockCuts_zero, Nat.zero_add]

end BlockCuts

open Classical in
/-- A store that keeps pieces as they are and reads exactly the printed envelopes. -/
noncomputable def plainCrates : Crates where
  sha256 := fun bytes => (bytes ++ List.replicate 32 0).take 32
  cuts := fun bytes => blockCuts maxLen bytes.length 0 bytes.length
  compress := .ok
  decompress := fun data capacity =>
    if data.length ≤ capacity then .ok data else .error "Destination buffer is too small"
  fromSlice := fun data =>
    if h : ∃ e : Envelope, toVec e.chars = data then .ok h.choose else .error "expected value"

theorem plainCrates_cuts (bytes : Bytes) :
    plainCrates.cuts bytes = blockCuts maxLen bytes.length 0 bytes.length := rfl

theorem plainCrates_documented : plainCrates.Documented where
  cuts bytes := by
    have h : Tiles minLen maxLen (0 + bytes.length) 0 _ :=
      tiles_blockCuts (by decide) (by decide) (Nat.le_refl bytes.length)
    rwa [Nat.zero_add] at h
  digest bytes := by
    show ((bytes ++ List.replicate 32 0).take 32).length = 32
    rw [List.length_take, List.length_append, List.length_replicate]
    omega
  zstd bytes := ⟨bytes, rfl, if_pos (Nat.le_refl _)⟩
  json e := by
    have h : ∃ e' : Envelope, toVec e'.chars = toVec e.chars := ⟨e, rfl⟩
    have hread : plainCrates.fromSlice (toVec e.chars) = .ok h.choose := dif_pos h
    rw [hread, toVec_envelopeChars_injective h.choose_spec]

def emptyTables : Tables := { blobs := ∅, ccrChunks := ∅, ccrObjectChunks := [] }

/-- The writer and the reader agree on every object up to the limit. -/
theorem encode_decode_load (h : c.Documented) :
    (∀ bytes : Bytes, bytes.length ≤ maxObject → ∃ data unique m,
      encode c bytes = .ok (data, unique) ∧ decode c (c.objectRow bytes data) = .ok m ∧
      data.length ≤ 8 * 1024 * 1024 ∧ m.chunks.length ≤ maxObject / minLen + 1 ∧
      (∀ k ∈ m.chunks, 0 < k.length.toNat ∧ k.length.toNat ≤ maxLen) ∧
      (m.chunks.map fun k => k.length.toNat).sum = bytes.length ∧
      ∀ t : Tables, t.Genuine c → t.blobs[c.sha256Hex bytes]? = none → CollisionFree c t bytes →
        ∃ t', store c bytes t = .ok t' ∧ t'.Genuine c ∧
          t'.blobs[c.sha256Hex bytes]? = some (c.objectRow bytes data) ∧
          load c t' (c.objectRow bytes data) = .ok bytes) ∧
    ∀ (t : Tables) (row : BlobRow) (bytes : Bytes), load c t row = .ok bytes →
      c.sha256Hex bytes = row.hash := by
  refine ⟨fun bytes hlen => ?_, fun t row bytes => load_hash⟩
  obtain ⟨unique, hencode, -, -⟩ := encode_ok h hlen
  have hfits := fits_envelope h hlen
  refine ⟨_, unique, _, hencode, decode_ok h hlen, ?_, ?_, ?_, ?_, fun t ht hnew hfree => ?_⟩
  · rw [length_toVec hfits.1]
    exact hfits.2
  · exact (accepted_objectManifest h hlen []).count
  · intro k hk
    obtain ⟨piece, hpiece, rfl⟩ := List.mem_map.mp hk
    have hbounds := h.piece_bounds hpiece
    rwa [toNat_chunk_length hbounds.2]
  · show (((c.pieces bytes).map c.chunk).map fun k => k.length.toNat).sum = _
    have hlengths : (c.pieces bytes).map ((fun k : Chunk => k.length.toNat) ∘ c.chunk)
        = (c.pieces bytes).map List.length :=
      List.map_congr_left fun piece hpiece => toNat_chunk_length (h.piece_bounds hpiece).2
    rw [List.map_map, hlengths, ← List.length_flatten, h.pieces_flatten]
  · obtain ⟨t', hstore, hgenuine, hrow, hpieces⟩ := store_new h hlen ht hnew hfree
    exact ⟨t', hstore, hgenuine, hrow,
      load_ok h hlen (fun p hp => (hpieces p hp).1) fun p hp => (hpieces p hp).2⟩

/-- Two full pieces of sevens, which are one chunk, and three bytes more. -/
def sevens : Bytes := List.replicate maxLen 7 ++ (List.replicate maxLen 7 ++ [1, 2, 3])

theorem length_sevens : sevens.length = maxLen + maxLen + 3 := by
  have hrest : ([1, 2, 3] : Bytes).length = 3 := rfl
  rw [sevens, List.length_append, List.length_append, List.length_replicate, hrest, Nat.add_assoc]

theorem cuts_sevens : plainCrates.cuts sevens
    = [⟨0, maxLen⟩, ⟨maxLen, maxLen⟩, ⟨maxLen + maxLen, 3⟩] := by
  rw [plainCrates_cuts, length_sevens]
  exact blockCuts_two (by decide) (by decide)

theorem pieces_sevens : plainCrates.pieces sevens
    = [List.replicate maxLen 7, List.replicate maxLen 7, [1, 2, 3]] := by
  have hlength : (List.replicate maxLen (7 : UInt8)).length = maxLen := List.length_replicate
  rw [Crates.pieces, cuts_sevens]
  simp only [List.map_cons, List.map_nil, Cut.slice, sevens, List.drop_zero]
  rw [List.take_left' hlength, List.drop_left' hlength, List.take_left' hlength, ← List.drop_drop,
    List.drop_left' hlength, List.drop_left' hlength]
  rfl

/-- The first bytes tell the two chunks apart. -/
theorem sha256_sevens_ne :
    plainCrates.sha256 (List.replicate maxLen 7) ≠ plainCrates.sha256 [1, 2, 3] := by
  have hmax : maxLen = 262143 + 1 := rfl
  rw [hmax, List.replicate_succ]
  show (7 :: _ : Bytes) ≠ 1 :: _
  exact fun h => absurd (List.cons.inj h).1 (by decide)

theorem collisionFree_sevens : CollisionFree plainCrates emptyTables sevens := by
  intro p hp q hq hsame
  have hq : q ∈ plainCrates.pieces sevens := by
    rcases hq with hq | ⟨d, hd, -⟩
    · exact hq
    · simp [emptyTables] at hd
  simp only [pieces_sevens, List.mem_cons, List.not_mem_nil, or_false] at hp hq
  rcases hp with rfl | rfl | rfl <;> rcases hq with rfl | rfl | rfl
  all_goals first
    | rfl
    | exact absurd hsame sha256_sevens_ne
    | exact absurd hsame.symm sha256_sevens_ne

/-- An object with a repeated piece, stored in an empty database, comes back; its manifest lists
three chunks. -/
theorem encode_decode_load_three :
    ∃ data m t', decode plainCrates (plainCrates.objectRow sevens data) = .ok m ∧
      3 ≤ m.chunks.length ∧ store plainCrates sevens emptyTables = .ok t' ∧
      t'.blobs[plainCrates.sha256Hex sevens]? = some (plainCrates.objectRow sevens data) ∧
      load plainCrates t' (plainCrates.objectRow sevens data) = .ok sevens ∧
      plainCrates.sha256Hex sevens = (plainCrates.objectRow sevens data).hash := by
  obtain ⟨hwrite, hread⟩ := encode_decode_load plainCrates_documented
  have hlen : sevens.length ≤ maxObject := by
    rw [length_sevens]
    decide
  obtain ⟨data, unique, m, -, hdecode, -, -, hbounds, hsum, hstore⟩ := hwrite sevens hlen
  obtain ⟨t', hstored, -, hrow, hload⟩ := hstore emptyTables
    ⟨fun k hk => by simp [emptyTables] at hk, fun object k hk => by simp [emptyTables] at hk⟩
    (by simp [emptyTables]) collisionFree_sevens
  refine ⟨data, m, t', hdecode, ?_, hstored, hrow, hload, hread t' _ _ hload⟩
  -- two chunks would be too short
  have hshort : (m.chunks.map fun k => k.length.toNat).sum ≤ m.chunks.length * maxLen := by
    have hle := List.sum_le_card_nsmul (m.chunks.map fun k => k.length.toNat) maxLen
      (List.forall_mem_map.mpr fun k hk => (hbounds k hk).2)
    rwa [List.length_map, smul_eq_mul] at hle
  rw [hsum, length_sevens] at hshort
  by_contra hfew
  have hproduct : m.chunks.length * maxLen ≤ 2 * maxLen := Nat.mul_le_mul_right _ (by omega)
  omega

end Chunked

end IronMem
