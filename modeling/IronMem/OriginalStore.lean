import IronMem.CaptureSpec
import IronMem.Originals
import IronMem.RestoreSpec

/-!
# The store of originals

A row of `blobs` is worth what `load_blob` makes of it: the row names a format, and the
format needs a dictionary or chunks that other statements insert and delete. The store is
sound when every row loads, and every chunk is filed under its own hash. Each
statement on originals keeps it sound and keeps what loads loading to the same bytes;
collection does so for what is pinned.

What a row needs beside itself is `Supports`: the dictionary it names, or the chunks its
object lists. `loadBlob_supports` says that loading looks at nothing else, so a step is judged
by what it does to the row and to what the row needs. Steps that only add are one lemma
(`KeepsStore.of_grows`), and writing one row is another (`keepsStore_insert`).

Chunked objects are filed piece by piece. While this goes on the tables are `Filed` up to some
piece; pieces with one hash are one chunk, so the bytes that come back are the ones put in as
long as the digest tells pieces apart.

Two properties of a step go together. `KeepsLoads` says that what loaded before loads to the
same bytes, `KeepsStore` that beside this the store stays sound. A collection drops rows: what
it leaves loads as before (`loadBlob_gcBlobs`), and what is pinned it leaves.
-/

namespace IronMem

open Fallible

/-! ## Loading -/

section Loading

variable {codec : Codec} {db db' : Database} {hash : String} {bytes : Bytes} {b : Blob}

theorem loadBlob_eq_ok : loadBlob codec db hash = .ok bytes ↔
    ∃ b, db.blobs[hash]? = some b ∧ decodeBlob codec db hash b = .ok bytes
      ∧ codec.digest bytes = hash := by
  rw [loadBlob]
  cases db.blobs[hash]? with
  | none => simp
  | some b =>
      simp only [bind_eq_ok, pure_eq_ok, ensure_eq_ok, beq_iff_eq, Option.some.injEq, exists_eq_left']
      constructor
      · rintro ⟨original, hdecode, -, hdigest, rfl⟩
        exact ⟨hdecode, hdigest⟩
      · rintro ⟨hdecode, hdigest⟩
        exact ⟨bytes, hdecode, (), hdigest, rfl⟩

theorem digest_of_loadBlob (h : loadBlob codec db hash = .ok bytes) : codec.digest bytes = hash := by
  obtain ⟨-, -, -, hdigest⟩ := loadBlob_eq_ok.mp h
  exact hdigest

theorem loadChunk_eq_ok {chunk : String} : loadChunk codec db hash chunk = .ok bytes ↔
    (hash, chunk) ∈ db.ccrObjectChunks ∧
      ∃ c, db.ccrChunks[chunk]? = some c ∧ codec.digest c.original = chunk ∧ c.original = bytes := by
  rw [loadChunk, bind_eq_ok]
  cases hc : db.ccrChunks[chunk]? with
  | none =>
      refine iff_of_false ?_ ?_
      · rintro ⟨_, _, h⟩
        cases h
      · rintro ⟨_, _, h, _⟩
        cases h
  | some c =>
      simp only [ensure_eq_ok, List.contains_iff_mem, bind_eq_ok, pure_eq_ok, beq_iff_eq,
        Option.some.injEq, exists_eq_left']
      constructor
      · rintro ⟨-, hobject, -, hdigest, rfl⟩
        exact ⟨hobject, hdigest, rfl⟩
      · rintro ⟨hobject, hdigest, rfl⟩
        exact ⟨(), hobject, (), hdigest, rfl⟩

/-- What the formats of one object need is still there. -/
structure Supports (db db' : Database) (hash : String) : Prop where
  dicts : ∀ d ∈ db.ccrDicts, d ∈ db'.ccrDicts
  objects : ∀ chunk, (hash, chunk) ∈ db.ccrObjectChunks → (hash, chunk) ∈ db'.ccrObjectChunks
  chunks : ∀ chunk, (hash, chunk) ∈ db.ccrObjectChunks → ∀ c, db.ccrChunks[chunk]? = some c →
    db'.ccrChunks[chunk]? = some c

theorem decodeBlob_supports {b' : Blob} (hs : Supports db db' hash) (hformat : b'.format = b.format)
    (horiginal : b'.original = b.original) (h : decodeBlob codec db hash b = .ok bytes) :
    decodeBlob codec db' hash b' = .ok bytes := by
  rw [decodeBlob] at h ⊢
  rw [hformat, horiginal]
  cases hb : b.format with
  | zstd => rwa [hb] at h
  | dictZstd dictHash =>
      rw [hb] at h
      obtain ⟨_, hdict, h⟩ := bind_eq_ok.mp h
      rw [ensure_eq_ok, List.contains_iff_mem] at hdict
      exact bind_eq_ok.mpr ⟨(), ensure_eq_ok.mpr (List.contains_iff_mem.mpr (hs.dicts _ hdict)), h⟩
  | fastcdc chunks =>
      rw [hb] at h
      obtain ⟨parts, hparts, h⟩ := bind_eq_ok.mp h
      refine bind_eq_ok.mpr ⟨parts, mapM_of_forall₂ ((forall₂_of_mapM hparts).imp ?_), h⟩
      intro chunk part hpart
      obtain ⟨hobject, c, hc, hdigest, rfl⟩ := loadChunk_eq_ok.mp hpart
      exact loadChunk_eq_ok.mpr ⟨hs.objects chunk hobject, c, hs.chunks chunk hobject c hc,
        hdigest, rfl⟩

/-- Loading looks at the format and the bytes of the row and at what the format needs. -/
theorem loadBlob_supports (hs : Supports db db' hash)
    (hrow : ∀ b, db.blobs[hash]? = some b →
      ∃ b', db'.blobs[hash]? = some b' ∧ b'.format = b.format ∧ b'.original = b.original)
    (h : loadBlob codec db hash = .ok bytes) : loadBlob codec db' hash = .ok bytes := by
  obtain ⟨b, hb, hdecode, hdigest⟩ := loadBlob_eq_ok.mp h
  obtain ⟨b', hb', hformat, horiginal⟩ := hrow b hb
  exact loadBlob_eq_ok.mpr ⟨b', hb', decodeBlob_supports hs hformat horiginal hdecode, hdigest⟩

end Loading

/-! ## Soundness -/

/-- Every original loads, and every chunk is filed under its own hash. -/
structure StoreSound (codec : Codec) (db : Database) : Prop where
  loads : ∀ hash, db.blobs.contains hash = true → ∃ bytes, loadBlob codec db hash = .ok bytes
  chunks : ∀ (chunk : String) (c : Chunk), db.ccrChunks[chunk]? = some c →
    codec.digest c.original = chunk

/-- What loaded before loads to the same bytes. -/
def KeepsLoads (codec : Codec) (db db' : Database) : Prop :=
  ∀ hash bytes, loadBlob codec db hash = .ok bytes → loadBlob codec db' hash = .ok bytes

/-- A step keeps the store sound and what is in it. -/
structure KeepsStore (codec : Codec) (db db' : Database) : Prop where
  sound : StoreSound codec db → StoreSound codec db'
  loads : KeepsLoads codec db db'

section Steps

variable {codec : Codec} {db db' db'' : Database}

theorem KeepsStore.refl (codec : Codec) (db : Database) : KeepsStore codec db db :=
  ⟨id, fun _ _ h => h⟩

theorem KeepsStore.trans (h : KeepsStore codec db db') (h' : KeepsStore codec db' db'') :
    KeepsStore codec db db'' :=
  ⟨h'.sound ∘ h.sound, fun hash bytes hload => h'.loads hash bytes (h.loads hash bytes hload)⟩

/-- What the formats need is the same. -/
structure SameFormats (db db' : Database) : Prop where
  dicts : db'.ccrDicts = db.ccrDicts
  chunks : db'.ccrChunks = db.ccrChunks
  objects : db'.ccrObjectChunks = db.ccrObjectChunks

theorem SameFormats.supports (h : SameFormats db db') (hash : String) : Supports db db' hash where
  dicts := by rw [h.dicts]; exact fun _ => id
  objects := by rw [h.objects]; exact fun _ => id
  chunks := by rw [h.chunks]; exact fun _ _ _ => id

/-- Everything loading looks at is the same. -/
structure SameStore (db db' : Database) : Prop extends SameFormats db db' where
  blobs : db'.blobs = db.blobs

theorem SameStore.refl (db : Database) : SameStore db db := ⟨⟨rfl, rfl, rfl⟩, rfl⟩

theorem SameStore.trans (h : SameStore db db') (h' : SameStore db' db'') : SameStore db db'' :=
  ⟨⟨h'.dicts.trans h.dicts, h'.chunks.trans h.chunks, h'.objects.trans h.objects⟩,
    h'.blobs.trans h.blobs⟩

theorem SameStore.keepsLoads (h : SameStore db db') : KeepsLoads codec db db' := fun hash _ hload =>
  loadBlob_supports (h.supports hash) (fun b hb => ⟨b, by rw [h.blobs, hb], rfl, rfl⟩) hload

theorem SameStore.keepsStore (h : SameStore db db') : KeepsStore codec db db' where
  loads := h.keepsLoads
  sound := fun hs => ⟨fun hash hash_in => by
    rw [h.blobs] at hash_in
    obtain ⟨bytes, hload⟩ := hs.loads hash hash_in
    exact ⟨bytes, h.keepsLoads hash bytes hload⟩, by rw [h.chunks]; exact hs.chunks⟩

/-- A step that only adds: rows keep their format and bytes, and a new row loads. -/
theorem KeepsStore.of_grows (hs : ∀ hash, Supports db db' hash)
    (hrows : ∀ (hash : String) (b : Blob), db.blobs[hash]? = some b →
      ∃ b', db'.blobs[hash]? = some b' ∧ b'.format = b.format ∧ b'.original = b.original)
    (hnew : StoreSound codec db → ∀ hash, db.blobs.contains hash = false →
      db'.blobs.contains hash = true → ∃ bytes, loadBlob codec db' hash = .ok bytes)
    (hchunks : StoreSound codec db → ∀ (chunk : String) (c : Chunk), db'.ccrChunks[chunk]? = some c →
      codec.digest c.original = chunk) : KeepsStore codec db db' where
  loads := fun hash _ hload => loadBlob_supports (hs hash) (hrows hash) hload
  sound := fun hsound => ⟨fun hash hmem => by
    cases hold : db.blobs.contains hash with
    | true =>
        obtain ⟨bytes, hload⟩ := hsound.loads hash hold
        exact ⟨bytes, loadBlob_supports (hs hash) (hrows hash) hload⟩
    | false => exact hnew hsound hash hold hmem, hchunks hsound⟩

end Steps

/-! ## One row -/

section Rows

variable {codec : Codec} {db : Database} {hash : String} {stored : Blob}

/-- Writing one row of `blobs`: what is there keeps its format and bytes, a new row loads. -/
theorem keepsStore_insert
    (hold : ∀ b, db.blobs[hash]? = some b → stored.format = b.format ∧ stored.original = b.original)
    (hnew : db.blobs[hash]? = none →
      ∃ bytes, decodeBlob codec db hash stored = .ok bytes ∧ codec.digest bytes = hash) :
    KeepsStore codec db { db with blobs := db.blobs.insert hash stored } := by
  have hget : ∀ k, ({ db with blobs := db.blobs.insert hash stored } : Database).blobs[k]?
      = if k = hash then some stored else db.blobs[k]? := by
    intro k
    rw [Std.ExtTreeMap.getElem?_insert]
    simp only [compare_eq_iff_eq, eq_comm (a := hash)]
  have hsupports : ∀ k, Supports db { db with blobs := db.blobs.insert hash stored } k :=
    fun _ => ⟨fun _ => id, fun _ => id, fun _ _ _ => id⟩
  refine .of_grows hsupports (fun k b hb => ?_) (fun _ k hk hk' => ?_) fun hs => hs.chunks
  · rw [hget]
    by_cases heq : k = hash
    · subst heq
      exact ⟨stored, if_pos rfl, hold b hb⟩
    · exact ⟨b, by rw [if_neg heq, hb], rfl, rfl⟩
  · rw [Std.ExtTreeMap.contains_eq_isSome_getElem?] at hk hk'
    rw [hget] at hk'
    by_cases heq : k = hash
    · subst heq
      obtain ⟨bytes, hdecode, hdigest⟩ := hnew (Option.not_isSome_iff_eq_none.mp (by simp [hk]))
      exact ⟨bytes, loadBlob_eq_ok.mpr ⟨stored, by rw [hget, if_pos rfl],
        decodeBlob_supports (hsupports k) rfl rfl hdecode, hdigest⟩⟩
    · rw [if_neg heq, hk] at hk'
      cases hk'

theorem keepsStore_decrefBlob (hash : String) : KeepsStore codec db (decrefBlob hash db) := by
  unfold decrefBlob
  split
  · next b hb =>
      split
      · refine keepsStore_insert (fun b' hb' => ?_) fun hnone => ?_
        · obtain rfl := Option.some.inj (hb.symm.trans hb')
          exact ⟨rfl, rfl⟩
        · rw [hb] at hnone
          cases hnone
      · exact .refl codec db
  · exact .refl codec db

/-- A reference added to an original, or an original with its first one. -/
theorem keepsStore_insertBlob (hnew : db.blobs[hash]? = none →
    ∃ bytes, decodeBlob codec db hash stored = .ok bytes ∧ codec.digest bytes = hash) :
    KeepsStore codec db (insertBlob hash stored db) := by
  unfold insertBlob
  cases hb : db.blobs[hash]? with
  | none => exact keepsStore_insert (fun b hb' => by rw [hb] at hb'; cases hb') fun _ => hnew hb
  | some b =>
      refine keepsStore_insert (fun b' hb' => ?_) fun hnone => by rw [hb] at hnone; cases hnone
      obtain rfl := Option.some.inj (hb.symm.trans hb')
      exact ⟨rfl, rfl⟩

theorem persistBlob_eq (codec : Codec) (bytes : Bytes) (db : Database) :
    persistBlob codec bytes db = (codec.digest bytes, insertBlob (codec.digest bytes)
      { original := bytes, compLen := codec.compressedLen bytes, refcount := 1 } db) := by
  cases hb : db.blobs[codec.digest bytes]? with
  | none => simp only [persistBlob, insertBlob, hb]
  | some b => simp only [persistBlob, insertBlob, hb]

/-- What is stored compressed loads. -/
theorem keepsStore_compressed {bytes : Bytes} (hdigest : codec.digest bytes = hash)
    (horiginal : stored.original = bytes) (hformat : stored.format = .zstd) :
    KeepsStore codec db (insertBlob hash stored db) := by
  refine keepsStore_insertBlob fun _ => ⟨bytes, ?_, hdigest⟩
  rw [decodeBlob, hformat, horiginal]

/-- Bytes that are stored, in whatever format, load. -/
theorem loadBlob_of_contains (hsha : Function.Injective codec.digest) (hs : StoreSound codec db)
    {bytes : Bytes} (h : db.blobs.contains (codec.digest bytes) = true) :
    loadBlob codec db (codec.digest bytes) = .ok bytes := by
  obtain ⟨loaded, hload⟩ := hs.loads _ h
  rwa [hsha (digest_of_loadBlob hload)] at hload

theorem contains_insertBlob (hash : String) (stored : Blob) (db : Database) :
    (insertBlob hash stored db).blobs.contains hash = true := by
  rw [insertBlob]
  exact Std.ExtTreeMap.contains_insert_self

end Rows

/-! ## Dictionaries and chunks

The pieces of an object are filed one by one, each under its hash, and the manifest lists the
hashes in order. The row of the object is written beside them in one transaction. -/

section Formats

variable {codec : Codec} {db db' : Database} {hash : String} {bytes : Bytes}

theorem keepsStore_insertDict (dictHash : String) : KeepsStore codec db (insertDict dictHash db) := by
  have hmono : ∀ d ∈ db.ccrDicts, d ∈ (insertDict dictHash db).ccrDicts := by
    intro d hd
    show d ∈ insertNew dictHash db.ccrDicts
    rw [insertNew]
    split
    · exact hd
    · exact List.mem_append_left _ hd
  refine .of_grows (fun _ => ⟨hmono, fun _ => id, fun _ _ _ => id⟩) (fun k b hb => ⟨b, hb, rfl, rfl⟩)
    (fun _ k hk hk' => ?_) fun hs => hs.chunks
  rw [show (insertDict dictHash db).blobs = db.blobs from rfl, hk] at hk'
  cases hk'

theorem mem_insertDict (dictHash : String) (db : Database) :
    dictHash ∈ (insertDict dictHash db).ccrDicts := by
  show dictHash ∈ insertNew dictHash db.ccrDicts
  rw [insertNew]
  split
  · assumption
  · exact List.mem_append_right _ (List.mem_singleton_self _)

/-- The pieces of an object are filed under their hashes. -/
theorem uniquePieces_spec (codec : Codec) (bytes : Bytes) :
    (∀ chunk p, (uniquePieces codec bytes)[chunk]? = some p → codec.digest p = chunk) ∧
      ∀ p ∈ codec.cuts bytes, ((uniquePieces codec bytes)[codec.digest p]?).isSome = true := by
  have hfold : ∀ (pieces : List Bytes) (m : BTreeMap Bytes),
      (∀ chunk p, m[chunk]? = some p → codec.digest p = chunk) →
      (∀ chunk p, (pieces.foldl (fun (m : BTreeMap Bytes) p => m.insertIfNew (codec.digest p) p)
          m)[chunk]? = some p → codec.digest p = chunk) ∧
        ∀ chunk, (m[chunk]?).isSome = true ∨ (∃ p ∈ pieces, codec.digest p = chunk) →
          ((pieces.foldl (fun (m : BTreeMap Bytes) p => m.insertIfNew (codec.digest p) p)
            m)[chunk]?).isSome = true := by
    intro pieces
    induction pieces with
    | nil => exact fun m hm => ⟨hm, fun chunk h => h.resolve_right fun ⟨_, hp, _⟩ =>
        absurd hp List.not_mem_nil⟩
    | cons q pieces ih =>
        intro m hm
        have hnext : ∀ chunk p, (m.insertIfNew (codec.digest q) q)[chunk]? = some p →
            codec.digest p = chunk := by
          intro chunk p hp
          rw [Std.ExtTreeMap.getElem?_insertIfNew] at hp
          split at hp
          · next hc =>
              rw [← Option.some.inj hp]
              exact compare_eq_iff_eq.mp hc.1
          · exact hm chunk p hp
        obtain ⟨hkeys, hall⟩ := ih _ hnext
        refine ⟨hkeys, fun chunk h => hall chunk ?_⟩
        have hgrow : (m[chunk]?).isSome = true ∨ codec.digest q = chunk →
            ((m.insertIfNew (codec.digest q) q)[chunk]?).isSome = true := by
          intro h
          rw [Std.ExtTreeMap.getElem?_insertIfNew]
          split
          · rfl
          · next hc =>
              rcases h with h | rfl
              · exact h
              · by_contra hnone
                refine hc ⟨compare_eq_iff_eq.mpr rfl, fun hmem => hnone ?_⟩
                exact Std.ExtTreeMap.mem_iff_isSome_getElem?.mp hmem
        rcases h with h | ⟨p, hp, hdigest⟩
        · exact Or.inl (hgrow (Or.inl h))
        · rcases List.mem_cons.mp hp with rfl | hp
          · exact Or.inl (hgrow (Or.inr hdigest))
          · exact Or.inr ⟨p, hp, hdigest⟩
  obtain ⟨hkeys, hall⟩ := hfold (codec.cuts bytes) ∅ fun chunk p hp => by simp at hp
  exact ⟨hkeys, fun p hp => hall _ (Or.inr ⟨p, hp, rfl⟩)⟩

/-- The chunk tables while the pieces of an object are filed. -/
structure Filed (codec : Codec) (db s : Database) (hash : String) (pieces : List (String × Bytes)) :
    Prop where
  blobs : s.blobs = db.blobs
  supports : ∀ k, Supports db s k
  chunks : (∀ (chunk : String) (c : Chunk), db.ccrChunks[chunk]? = some c → codec.digest c.original = chunk) →
    ∀ (chunk : String) (c : Chunk), s.ccrChunks[chunk]? = some c → codec.digest c.original = chunk
  filed : ∀ e ∈ pieces, (hash, e.1) ∈ s.ccrObjectChunks ∧ (s.ccrChunks[e.1]?).isSome = true

theorem insertChunks_ok {pieces : List (String × Bytes)} (hpieces : ∀ e ∈ pieces, codec.digest e.2 = e.1)
    (h : pieces.foldlM (insertChunk codec hash) db = .ok db') : Filed codec db db' hash pieces := by
  induction pieces generalizing db with
  | nil =>
      obtain rfl := foldlM_nil_eq_ok.mp h
      exact ⟨rfl, fun _ => ⟨fun _ => id, fun _ => id, fun _ _ _ => id⟩, id,
        fun e he => absurd he List.not_mem_nil⟩
  | cons e pieces ih =>
      obtain ⟨hhead, htail⟩ := List.forall_mem_cons.mp hpieces
      obtain ⟨t, ht, h⟩ := foldlM_cons_eq_ok.mp h
      obtain ⟨_, -, ht⟩ := bind_eq_ok.mp ht
      obtain rfl := pure_eq_ok.mp ht
      obtain ⟨hblobs, hsupports, hchunks, hfiled⟩ := ih htail h
      have hget : ∀ (chunk : String) (c : Chunk), db.ccrChunks[chunk]? = some c →
          (db.ccrChunks.insertIfNew e.1 ⟨e.2, codec.compressedLen e.2⟩)[chunk]? = some c := by
        intro chunk c hc
        rw [Std.ExtTreeMap.getElem?_insertIfNew, if_neg, hc]
        rintro ⟨heq, hnot⟩
        rw [compare_eq_iff_eq] at heq
        subst heq
        exact hnot (Std.ExtTreeMap.mem_iff_isSome_getElem?.mpr (by simp [hc]))
      have hself : ((db.ccrChunks.insertIfNew e.1 (⟨e.2, codec.compressedLen e.2⟩ : Chunk))[e.1]?).isSome
          = true := by
        rw [Std.ExtTreeMap.getElem?_insertIfNew]
        split
        · rfl
        · next hc =>
            by_contra hnone
            refine hc ⟨compare_eq_iff_eq.mpr rfl, fun hmem => hnone ?_⟩
            exact Std.ExtTreeMap.mem_iff_isSome_getElem?.mp hmem
      have hobject := List.mem_append_right db.ccrObjectChunks (List.mem_singleton_self (hash, e.1))
      refine ⟨hblobs, fun k => ⟨(hsupports k).dicts, fun chunk hmem => ?_, fun chunk hmem c hc => ?_⟩,
        fun hall => hchunks fun chunk c hc => ?_, fun e' he' => ?_⟩
      · exact (hsupports k).objects chunk (List.mem_append_left _ hmem)
      · exact (hsupports k).chunks chunk (List.mem_append_left _ hmem) c (hget chunk c hc)
      · rw [Std.ExtTreeMap.getElem?_insertIfNew] at hc
        split at hc
        · next heq =>
            rw [← Option.some.inj hc]
            exact hhead.trans (compare_eq_iff_eq.mp heq.1)
        · exact hall chunk c hc
      · rcases List.mem_cons.mp he' with rfl | he'
        · obtain ⟨c, hc⟩ := Option.isSome_iff_exists.mp hself
          exact ⟨(hsupports hash).objects _ hobject,
            by rw [(hsupports hash).chunks _ hobject c hc]; rfl⟩
        · exact hfiled e' he'

/-- What every chunk of an object has is what the object loads to. -/
theorem loadBlob_chunked (hsha : Function.Injective codec.digest)
    (hcuts : (codec.cuts bytes).flatten = bytes) {b : Blob}
    (hb : db.blobs[codec.digest bytes]? = some b)
    (hformat : b.format = .fastcdc ((codec.cuts bytes).map codec.digest))
    (hchunks : ∀ (chunk : String) (c : Chunk), db.ccrChunks[chunk]? = some c → codec.digest c.original = chunk)
    (hfiled : ∀ p ∈ codec.cuts bytes, (codec.digest bytes, codec.digest p) ∈ db.ccrObjectChunks ∧
      (db.ccrChunks[codec.digest p]?).isSome = true) :
    loadBlob codec db (codec.digest bytes) = .ok bytes := by
  have hparts : ((codec.cuts bytes).map codec.digest).mapM (loadChunk codec db (codec.digest bytes))
      = .ok (codec.cuts bytes) := by
    refine mapM_of_forall₂ (List.forall₂_map_left_iff.mpr (List.forall₂_same.mpr fun p hp => ?_))
    obtain ⟨hobject, hsome⟩ := hfiled p hp
    obtain ⟨c, hc⟩ := Option.isSome_iff_exists.mp hsome
    have hdigest := hchunks _ c hc
    exact loadChunk_eq_ok.mpr ⟨hobject, c, hc, hdigest, hsha hdigest⟩
  refine loadBlob_eq_ok.mpr ⟨b, hb, ?_, rfl⟩
  rw [decodeBlob, hformat]
  exact bind_eq_ok.mpr ⟨_, hparts, by rw [hcuts]; rfl⟩

/-- The pieces of a filed object are filed under the hashes of its chunks. -/
theorem filed_uniquePieces
    (h : (uniquePieces codec bytes).toList.foldlM (insertChunk codec (codec.digest bytes)) db
      = .ok db') : Filed codec db db' (codec.digest bytes) (uniquePieces codec bytes).toList :=
  insertChunks_ok (fun e he => (uniquePieces_spec codec bytes).1 e.1 e.2
    (Std.ExtTreeMap.mem_toList_iff_getElem?_eq_some.mp he)) h

/-- An object whose pieces are filed beside its row loads. -/
theorem loadBlob_filed (hsha : Function.Injective codec.digest)
    (hcuts : (codec.cuts bytes).flatten = bytes) {refcount : Int}
    (hb : db.blobs[codec.digest bytes]? = some (chunkedBlob codec bytes refcount))
    (hchunks : ∀ (chunk : String) (c : Chunk), db.ccrChunks[chunk]? = some c →
      codec.digest c.original = chunk)
    (h : (uniquePieces codec bytes).toList.foldlM (insertChunk codec (codec.digest bytes)) db
      = .ok db') : loadBlob codec db' (codec.digest bytes) = .ok bytes := by
  have hpieces := filed_uniquePieces h
  refine loadBlob_chunked hsha hcuts (hpieces.blobs ▸ hb) rfl (hpieces.chunks hchunks)
    fun p hp => ?_
  obtain ⟨q, hq⟩ := Option.isSome_iff_exists.mp ((uniquePieces_spec codec bytes).2 p hp)
  exact hpieces.filed _ (Std.ExtTreeMap.mem_toList_iff_getElem?_eq_some.mpr hq)

theorem keepsStore_storeChunked (hsha : Function.Injective codec.digest)
    (hcuts : (codec.cuts bytes).flatten = bytes) {r : String}
    (h : storeChunked codec bytes db = .ok (r, db')) : KeepsStore codec db db' := by
  obtain ⟨_, -, h⟩ := bind_eq_ok.mp h
  dsimp only at h
  split at h
  · next hcontains =>
      obtain ⟨-, rfl⟩ := Prod.mk.inj (pure_eq_ok.mp h)
      refine keepsStore_insertBlob fun hnone => ?_
      rw [Std.ExtTreeMap.contains_eq_isSome_getElem?, hnone] at hcontains
      cases hcontains
  · next hcontains =>
      obtain ⟨s, hs, h⟩ := bind_eq_ok.mp h
      obtain ⟨-, rfl⟩ := Prod.mk.inj (pure_eq_ok.mp h)
      have hnone : db.blobs[codec.digest bytes]? = none := by
        rw [Bool.not_eq_true, Std.ExtTreeMap.contains_eq_isSome_getElem?] at hcontains
        exact Option.not_isSome_iff_eq_none.mp (by simp [hcontains])
      obtain ⟨hblobs, hsupports, hchunks, -⟩ := filed_uniquePieces hs
      have hinsert : ∀ k, (insertBlob (codec.digest bytes) (chunkedBlob codec bytes 1) db).blobs[k]?
          = if k = codec.digest bytes then some (chunkedBlob codec bytes 1) else db.blobs[k]? := by
        intro k
        rw [insertBlob, hnone, Std.ExtTreeMap.getElem?_insert]
        simp only [compare_eq_iff_eq, eq_comm (a := codec.digest bytes)]
      have hget : ∀ k, s.blobs[k]? = if k = codec.digest bytes then some (chunkedBlob codec bytes 1)
          else db.blobs[k]? := fun k => hblobs ▸ hinsert k
      refine .of_grows (fun k => ⟨(hsupports k).dicts, (hsupports k).objects, (hsupports k).chunks⟩)
        (fun k b hb => ?_) (fun hsound k hk hk' => ?_) fun hsound => hchunks hsound.chunks
      · have hne : k ≠ codec.digest bytes := by
          rintro rfl
          rw [hnone] at hb
          cases hb
        exact ⟨b, by rw [hget, if_neg hne, hb], rfl, rfl⟩
      · by_cases heq : k = codec.digest bytes
        · subst heq
          exact ⟨bytes, loadBlob_filed hsha hcuts ((hinsert _).trans (if_pos rfl)) hsound.chunks hs⟩
        · rw [Std.ExtTreeMap.contains_eq_isSome_getElem?, hget, if_neg heq,
            ← Std.ExtTreeMap.contains_eq_isSome_getElem?, hk] at hk'
          cases hk'

end Formats

/-! ## Calls -/

section Calls

variable {codec : Codec} {db db' : Database} {plan : StorePlan} {bytes : Bytes}

/-- `store_blob`, whatever statement of it fails. -/
theorem keepsStore_storeBlob (hsha : Function.Injective codec.digest)
    (hcuts : ∀ bytes, (codec.cuts bytes).flatten = bytes) (fault : Nat → Option String) :
    KeepsStore codec db ((storeBlob codec plan bytes).run fault db).2 := by
  cases plan with
  | floor =>
      refine Proc.Preserves.run (.exec fun s r s' hs h => ?_) fault (KeepsStore.refl codec db)
      obtain ⟨-, rfl⟩ := Prod.mk.inj (Except.ok.inj h)
      exact hs.trans (keepsStore_compressed rfl rfl rfl)
  | chunked =>
      refine Proc.Preserves.run (.exec fun s r s' hs h => ?_) fault (KeepsStore.refl codec db)
      exact hs.trans (keepsStore_storeChunked hsha (hcuts bytes) h)
  | dict dictHash =>
      have hdict : KeepsStore codec db (insertDict dictHash db) := keepsStore_insertDict dictHash
      show KeepsStore codec db (Proc.run fault (.step Statement.insertDict
        (fun db => .ok ((), insertDict dictHash db)) fun _ => .exec _ _) db).2
      cases hf : fault 0 with
      | some e => rw [Proc.run_step_fault hf]; exact .refl codec db
      | none =>
          rw [Proc.run_step_ok hf rfl]
          -- the dictionary is there when the blob that needs it is inserted
          suffices hpreserves : Proc.Preserves
              (fun s : Database => KeepsStore codec db s ∧ dictHash ∈ s.ccrDicts)
              (Proc.exec (Statement.storeBlob (codec.digest bytes)) fun db =>
                (.ok (codec.digest bytes, insertBlob (codec.digest bytes)
                  { original := bytes, compLen := codec.compressedLen bytes, refcount := 1,
                    format := .dictZstd dictHash } db) : Except String (String × Database))) from
            (hpreserves.run (Proc.later fault) ⟨hdict, mem_insertDict dictHash db⟩).1
          refine .exec fun s r s' hs h => ?_
          obtain ⟨-, rfl⟩ := Prod.mk.inj (Except.ok.inj h)
          refine ⟨hs.1.trans (keepsStore_insertBlob fun _ => ⟨bytes, ?_, rfl⟩), hs.2⟩
          exact bind_eq_ok.mpr ⟨(), ensure_eq_ok.mpr (List.contains_iff_mem.mpr hs.2), rfl⟩

end Calls

/-! ## Collection

Collection may take chunks and dictionaries that an original needs only if it takes the original
as well. For what is pinned it takes neither. -/

section Collection

variable {codec : Codec} {db : Database} {hash : String} {bytes : Bytes}

theorem gcBlobs_row (hash : String) : (gcBlobs db).2.blobs[hash]?
    = (db.blobs[hash]?).filter fun b => !db.garbage hash b := by
  simp only [gcBlobs, gcChunks, dropGarbage, Std.ExtTreeMap.getElem?_filter']

theorem contains_of_gcBlobs (h : (gcBlobs db).2.blobs.contains hash = true) :
    db.blobs.contains hash = true ∧ (gcBlobs db).2.blobs[hash]? = db.blobs[hash]? := by
  rw [Std.ExtTreeMap.contains_eq_isSome_getElem?, gcBlobs_row] at h
  rw [Std.ExtTreeMap.contains_eq_isSome_getElem?, gcBlobs_row]
  cases hb : db.blobs[hash]? with
  | none => rw [hb] at h; cases h
  | some b =>
      rw [hb, Option.filter] at h
      refine ⟨rfl, ?_⟩
      rw [Option.filter]
      split
      · rfl
      · next hgarbage => rw [if_neg hgarbage] at h; cases h

/-- What an original that stays is made of stays. -/
theorem gcBlobs_supports (h : (gcBlobs db).2.blobs.contains hash = true) :
    Supports db (gcBlobs db).2 hash where
  dicts := fun _ => id
  objects := fun chunk hmem => List.mem_filter.mpr ⟨hmem, h⟩
  chunks := fun chunk hmem c hc => by
    have hobject : (hash, chunk) ∈ (dropGarbage db).ccrObjectChunks := List.mem_filter.mpr ⟨hmem, h⟩
    have hused : (dropGarbage db).looseChunk chunk = false := by
      rw [Database.looseChunk, Bool.not_eq_false', List.any_eq_true]
      exact ⟨_, hobject, by simp⟩
    show ((dropGarbage db).ccrChunks.filter fun c _ => !(dropGarbage db).looseChunk c)[chunk]? = _
    rw [Std.ExtTreeMap.getElem?_filter', show (dropGarbage db).ccrChunks = db.ccrChunks from rfl, hc,
      Option.filter, if_pos (by rw [hused]; rfl)]

theorem loadBlob_gcBlobs (h : (gcBlobs db).2.blobs.contains hash = true)
    (hload : loadBlob codec db hash = .ok bytes) : loadBlob codec (gcBlobs db).2 hash = .ok bytes :=
  loadBlob_supports (gcBlobs_supports h)
    (fun b hb => ⟨b, by rw [(contains_of_gcBlobs h).2, hb], rfl, rfl⟩) hload

/-- Collection leaves what is pinned as it was. -/
theorem loadBlob_gcBlobs_of_pinned (h : db.pinned hash = true)
    (hload : loadBlob codec db hash = .ok bytes) : loadBlob codec (gcBlobs db).2 hash = .ok bytes := by
  refine loadBlob_gcBlobs ?_ hload
  obtain ⟨b, hb, -, -⟩ := loadBlob_eq_ok.mp hload
  rw [Std.ExtTreeMap.contains_eq_isSome_getElem?, gcBlobs_of_pinned h, hb]
  rfl

theorem storeSound_gcBlobs (hs : StoreSound codec db) : StoreSound codec (gcBlobs db).2 where
  loads := fun hash h => by
    obtain ⟨bytes, hload⟩ := hs.loads hash (contains_of_gcBlobs h).1
    exact ⟨bytes, loadBlob_gcBlobs h hload⟩
  chunks := fun chunk c hc => by
    have hget : (gcBlobs db).2.ccrChunks[chunk]?
        = (db.ccrChunks[chunk]?).filter fun _ => !(dropGarbage db).looseChunk chunk := by
      simp only [gcBlobs, gcChunks, Std.ExtTreeMap.getElem?_filter']
      rfl
    rw [hget, Option.filter_eq_some_iff] at hc
    exact hs.chunks chunk c hc.1

end Collection

/-! ## Restore -/

section Restore

variable {codec : Codec} {args : RestoreArgs} {state : State} {db db' : Database}

theorem sameStore_insertRow (db : Database) (name : String) (r : Record) :
    SameStore db (db.insertRow name r) := ⟨⟨rfl, rfl, rfl⟩, rfl⟩

theorem sameStore_deleteCascade {name : String} {p : Record → Bool}
    (h : deleteCascade name p db = .ok db') : SameStore db db' := by
  refine foldlM_induction (p := fun s : Database => SameStore db s) h
    (fun s referrer s' _ hs hstep => ?_) ⟨⟨rfl, rfl, rfl⟩, rfl⟩
  rw [followReference] at hstep
  split at hstep
  · rw [← Except.ok.inj hstep]
    exact ⟨⟨hs.dicts, hs.chunks, hs.objects⟩, hs.blobs⟩
  · obtain ⟨_, -, hstep⟩ := bind_eq_ok.mp hstep
    rw [← pure_eq_ok.mp hstep]
    exact hs

theorem sameStore_deleteProject {project : String} (h : deleteProject project db = .ok db') :
    SameStore db db' :=
  foldlM_induction (p := fun s : Database => SameStore db s) h
    (fun _ _ _ _ hs hstep => hs.trans (sameStore_deleteCascade hstep)) (.refl db)

theorem sameStore_insertTables {tables : BTreeMap Table}
    (h : insertTables codec args tables db = .ok db') : SameStore db db' := by
  refine foldlM_induction (p := fun s : Database => SameStore db s) h
    (fun s name s' _ hs htable => ?_) (.refl db)
  refine foldlM_induction (p := fun s : Database => SameStore db s) htable
    (fun e row e' _ he hrow => ?_) hs
  obtain ⟨r, -, -, rfl⟩ := insertRecord_ok hrow
  exact ⟨⟨he.dicts, he.chunks, he.objects⟩, he.blobs⟩

theorem sameStore_insertEvidence (project : String) (records : List Record) (db : Database) :
    SameStore db (records.foldl (insertEvidence codec project) db) := by
  induction records generalizing db with
  | nil => exact .refl db
  | cons record records ih =>
      refine SameStore.trans ?_ (ih (insertEvidence codec project db record))
      rw [insertEvidence]
      split
      · exact .refl db
      · exact sameStore_insertRow _ _ _

/-- A source that is written back loads to what it loaded to, in the plain format. -/
theorem keepsStore_upsertSource (hsha : Function.Injective codec.digest) {source : String × String}
    {bytes : Bytes} (hdecode : codec.base64Decode source.2 = .ok bytes)
    (hdigest : codec.digest bytes = source.1) (h : upsertSource codec db source = .ok db') :
    KeepsStore codec db db' := by
  obtain ⟨original, horiginal, h⟩ := bind_eq_ok.mp h
  obtain rfl := Except.ok.inj (hdecode.symm.trans horiginal)
  obtain ⟨refcount, h⟩ : ∃ refcount : Int, db' = { db with
      blobs := db.blobs.insert source.1
        { original := bytes, compLen := codec.compressedLen bytes, refcount }
      ccrObjectChunks := db.ccrObjectChunks.filter fun e => e.1 != source.1 } :=
    ⟨_, (pure_eq_ok.mp h).symm⟩
  have hget : ∀ k, db'.blobs[k]? = if k = source.1 then
      some { original := bytes, compLen := codec.compressedLen bytes, refcount } else db.blobs[k]? := by
    intro k
    rw [h, Std.ExtTreeMap.getElem?_insert]
    simp only [compare_eq_iff_eq, eq_comm (a := source.1)]
  have hself : loadBlob codec db' source.1 = .ok bytes :=
    loadBlob_eq_ok.mpr ⟨_, by rw [hget, if_pos rfl], rfl, hdigest⟩
  have hother : ∀ k ≠ source.1, ∀ b, loadBlob codec db k = .ok b → loadBlob codec db' k = .ok b := by
    intro k hk b hload
    refine loadBlob_supports ⟨by rw [h]; exact fun _ => id, fun chunk hmem => ?_, by rw [h]; exact fun _ _ _ => id⟩
      (fun b hb => ⟨b, by rw [hget, if_neg hk, hb], rfl, rfl⟩) hload
    rw [h]
    exact List.mem_filter.mpr ⟨hmem, by simpa using hk⟩
  have hloads : KeepsLoads codec db db' := by
    intro k b hload
    by_cases hk : k = source.1
    · subst hk
      rw [hsha ((digest_of_loadBlob hload).trans hdigest.symm)]
      exact hself
    · exact hother k hk b hload
  refine ⟨fun hs => ⟨fun k hk => ?_, by rw [h]; exact hs.chunks⟩, hloads⟩
  by_cases heq : k = source.1
  · exact ⟨bytes, heq ▸ hself⟩
  · rw [Std.ExtTreeMap.contains_eq_isSome_getElem?, hget, if_neg heq,
      ← Std.ExtTreeMap.contains_eq_isSome_getElem?] at hk
    obtain ⟨b, hload⟩ := hs.loads k hk
    exact ⟨b, hother k heq b hload⟩

theorem keepsStore_writeRestore (hsha : Function.Injective codec.digest)
    (hsources : ∀ e ∈ state.sources.toList, ∃ bytes, codec.base64Decode e.2 = .ok bytes ∧
      codec.digest bytes = e.1) {tables : BTreeMap Table}
    (h : writeRestore codec args state tables db = .ok db') : KeepsStore codec db db' := by
  obtain ⟨s, hdelete, h⟩ := bind_eq_ok.mp h
  obtain ⟨t, ht, h⟩ := bind_eq_ok.mp h
  obtain ⟨u, hu, h⟩ := bind_eq_ok.mp h
  obtain ⟨_, -, h⟩ := bind_eq_ok.mp h
  obtain rfl := pure_eq_ok.mp h
  have hraise : SameStore db (raiseHighwater db) := ⟨⟨rfl, rfl, rfl⟩, rfl⟩
  have hupsert : KeepsStore codec s t :=
    foldlM_induction (p := fun d : Database => KeepsStore codec s d) ht
      (fun d e d' he hd hstep => by
        obtain ⟨bytes, hdecode, hdigest⟩ := hsources e he
        exact hd.trans (keepsStore_upsertSource hsha hdecode hdigest hstep)) (.refl codec s)
  have hrest : SameStore u (state.auditEvidence.foldl (insertEvidence codec state.project) u) :=
    sameStore_insertEvidence _ _ _
  exact ((hraise.trans (sameStore_deleteProject hdelete)).keepsStore.trans hupsert).trans
    ((sameStore_insertTables hu).trans
      (hrest.trans (sameStore_insertRow _ _ _))).keepsStore

/-- `restore` keeps what is stored, of whatever state that passes validation. -/
theorem keepsStore_restore (hsha : Function.Injective codec.digest) {counts : RestoreCounts}
    (h : restore codec args state db = .ok (counts, db')) : KeepsStore codec db db' := by
  obtain ⟨tables, hprepare, h⟩ := bind_eq_ok.mp h
  split at h
  · obtain ⟨-, rfl⟩ := Prod.mk.inj (pure_eq_ok.mp h)
    exact .refl codec db
  · obtain ⟨db'', hwrite, h⟩ := bind_eq_ok.mp h
    obtain ⟨-, rfl⟩ := Prod.mk.inj (pure_eq_ok.mp h)
    obtain ⟨_, hvalid, -⟩ := bind_eq_ok.mp hprepare
    exact keepsStore_writeRestore hsha (validate_ok hvalid).sources hwrite

end Restore

end IronMem
