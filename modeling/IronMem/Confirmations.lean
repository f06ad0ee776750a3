import IronMem.JsonLossless
import IronMem.Lib.Base64
import IronMem.Purpose
import IronMem.Remember
import IronMem.TaskTypes

/-!
# What a confirmation receipt authorises

A receipt binds the fields of the purpose it was minted for, up to normalization, and a
risk; it says nothing about who presents it. Between minting and verification stand the
framing of the token, the digest of the purpose and the acceptance window.

- **framing** (`decodeSigned_encodeSigned`): what was signed is decoded, under the same key.
  `TokenEncoder.ReadBy` says what is asked of base64, HMAC and `serde_json`; the claims are
  ones whose times an `i64` holds (`ConfirmationClaims.Fits`), which the times of a request
  are.
- **digest** (`purposeHash_inj`): the digest is over a record of named fields, so that two
  purposes with one digest agree in all of them.
- **window** (`validateWindow_eq_ok`): the tolerance of thirty seconds is added and taken
  away in 64 bits. For every time that `chrono` can return this is the window it is meant to
  be.

`verifyConfirmation_minted` puts the three together before anything is said about the clock,
and `confirmation_authorises_iff` reads the window as the inequalities it stands for.
-/

namespace IronMem

open Fallible

/-- The times of the claims are ones an `i64` holds. -/
structure ConfirmationClaims.Fits (claims : ConfirmationClaims) : Prop where
  issuedAt : -2 ^ 63 ≤ claims.issuedAt ∧ claims.issuedAt < 2 ^ 63
  expiresAt : -2 ^ 63 ≤ claims.expiresAt ∧ claims.expiresAt < 2 ^ 63

/-- The decoder reads what the encoder writes. -/
structure TokenEncoder.ReadBy (encoder : TokenEncoder) (tokens : TokenCodec) : Prop where
  base64 : ∀ bytes, tokens.urlSafeDecode (encoder.urlSafeEncode bytes) = some bytes
  alphabet : ∀ bytes, '.' ∉ (encoder.urlSafeEncode bytes).toList
  hmac : ∀ key message, tokens.verifySlice key message (encoder.finalize key message) = true
  json : ∀ claims : ConfirmationClaims, claims.Fits →
    tokens.confirmationFromSlice (encoder.confirmationToVec claims) = some claims

/-- The fields a receipt binds. -/
structure VerifiedRecallPurpose.SameAs (q : VerifiedRecallPurpose) (p : RecallPurpose) : Prop where
  requestId : q.requestId = p.requestId
  «namespace» : q.namespace = p.namespace
  project : q.project = p.project
  taskType : q.taskType = p.taskType
  intendedAction : q.intendedAction = p.intendedAction
  actionRisk : q.actionRisk = p.actionRisk
  requireSourceBacking : q.requireSourceBacking = p.requireSourceBacking

/-- What a minted receipt is for. -/
structure MintRequest.Authorises (m : MintRequest) (q : VerifiedRecallPurpose) (now : Int) :
    Prop where
  purpose : ∃ p, m.purpose.normalized = .ok p ∧ q.SameAs p
  risk : q.actionRisk ≤ m.maximumAuthorizedRisk
  issued : m.issuedAt.toInt - 30 ≤ now
  expires : now ≤ m.expiresAt.toInt + 30

/-! ## Tokens

A token is two encoded parts and a separator that the encoding never contains. Splitting it
finds the parts that were joined, so that the tag is compared with the tag of the same text. -/

section Tokens

variable {encoder : TokenEncoder} {tokens : TokenCodec}

theorem splitOn_dot {a b c : List Char} (ha : '.' ∉ a) (hb : '.' ∉ b) (hc : '.' ∉ c) :
    (a ++ '.' :: (b ++ '.' :: c)).splitOn '.' = [a, b, c] := by
  have hfree : ∀ l : List Char, '.' ∉ l → ∀ x ∈ l, (x == '.') = false := fun l hl x hx =>
    beq_eq_false_iff_ne.mpr fun heq => hl (heq ▸ hx)
  rw [List.splitOn_eq_splitOnP, List.splitOnP_append_cons_of_forall_mem (hfree a ha) '.' rfl,
    List.splitOnP_append_cons_of_forall_mem (hfree b hb) '.' rfl,
    List.splitOnP_eq_singleton (hfree c hc)]

/-- What was signed is decoded. -/
theorem decodeSigned_encodeSigned {α : Type} {toVec : α → Bytes} {fromSlice : Bytes → Option α}
    (h : encoder.ReadBy tokens) {claims : α} (hjson : fromSlice (toVec claims) = some claims)
    (key : Bytes) :
    decodeSigned tokens fromSlice (encodeSigned encoder toVec claims key) key = .ok claims := by
  have hsplit : (encodeSigned encoder toVec claims key).toList.splitOn '.'
      = [TOKEN_VERSION.toList, (encoder.urlSafeEncode (toVec claims)).toList,
        (encoder.urlSafeEncode (encoder.finalize key
          (utf8 (TOKEN_VERSION ++ "." ++ encoder.urlSafeEncode (toVec claims))))).toList] := by
    rw [← splitOn_dot (by decide) (h.alphabet _) (h.alphabet _)]
    simp [encodeSigned, String.toList_append, List.append_assoc]
  rw [decodeSigned, hsplit]
  simp only [String.ofList_toList, ne_eq, not_true_eq_false, if_false, h.base64, h.hmac, if_true,
    Option.bind_some, hjson]

end Tokens

/-! ## The window -/

/-- Where the tolerance does not leave the 64 bits, the window is the one it is meant to be. -/
theorem validateWindow_eq_ok {issuedAt expiresAt now : Int} (h : issuedAt < expiresAt)
    (hearly : -2 ^ 63 + 30 ≤ now) (hlate : now < 2 ^ 63 - 30) :
    validateWindow issuedAt expiresAt now = .ok () ↔
      issuedAt - 30 ≤ now ∧ now ≤ expiresAt + 30 := by
  have hlater : Int.bmod (now + 30) (2 ^ 64) = now + 30 := by
    rw [Int.bmod_eq_of_le] <;> omega
  have hearlier : Int.bmod (now - 30) (2 ^ 64) = now - 30 := by
    rw [Int.bmod_eq_of_le] <;> omega
  unfold validateWindow CLOCK_SKEW_SECONDS
  rw [hlater, hearlier]
  split
  · next hout =>
      constructor
      · intro herror
        cases herror
      · omega
  · next hin => exact ⟨fun _ => by omega, fun _ => rfl⟩

/-! ## The digest

The purpose is digested with its fields under fixed names. Two purposes with one digest agree
field by field; the fields are normalized before, so this is agreement up to normalization. -/

/-- The fields of a purpose that are digested. -/
def purposeFields (q : VerifiedRecallPurpose) : List (String × Value) :=
  [("version", .int 1), ("request_id", .str q.requestId), ("namespace", .str q.namespace),
    ("project", .str q.project), ("task_type", .str q.taskType),
    ("intended_action", Value.ofOptionStr q.intendedAction),
    ("action_risk", .str q.actionRisk.name),
    ("require_source_backing", .bool q.requireSourceBacking)]

theorem purposeHash_eq (codec : Codec) (q : VerifiedRecallPurpose) :
    purposeHash codec q = codec.digest (utf8 (codec.recordToString (jsonObject (purposeFields q)))) :=
  rfl

theorem purposeFields_flat (q : VerifiedRecallPurpose) : ∀ f ∈ purposeFields q, f.2.Flat := by
  simp only [purposeFields, List.forall_mem_cons]
  exact ⟨trivial, trivial, trivial, trivial, trivial, flat_ofOptionStr _, trivial, trivial, by simp⟩

theorem riskName_injective : Function.Injective ActionRisk.name := by
  intro a b h
  cases a <;> cases b <;> first | rfl | exact absurd h (by decide)

/-- Two purposes with one digest agree on every bound field. -/
theorem purposeHash_inj {codec : Codec} (hcodec : codec.Lossless) {q q' : VerifiedRecallPurpose}
    (h : purposeHash codec q = purposeHash codec q') :
    q.requestId = q'.requestId ∧ q.namespace = q'.namespace ∧ q.project = q'.project ∧
      q.taskType = q'.taskType ∧ q.intendedAction = q'.intendedAction ∧
        q.actionRisk = q'.actionRisk ∧ q.requireSourceBacking = q'.requireSourceBacking := by
  rw [purposeHash_eq, purposeHash_eq] at h
  have hrecord := hcodec.record _ _ (flat_jsonObject (purposeFields_flat q))
    (flat_jsonObject (purposeFields_flat q')) (utf8_injective (hcodec.digest h))
  have hnodup : ∀ q, ((purposeFields q).map Prod.fst).Nodup := fun q => by
    show ["version", "request_id", "namespace", "project", "task_type", "intended_action",
      "action_risk", "require_source_backing"].Nodup
    decide
  have hcol : ∀ q, ∀ f ∈ purposeFields q, (jsonObject (purposeFields q)).col f.1 = f.2 :=
    fun q f hf => setAll_col_of_mem (hnodup q) hf ∅
  have hleft := hcol q
  have hright := hcol q'
  rw [hrecord] at hleft
  simp only [purposeFields, List.forall_mem_cons] at hleft hright
  obtain ⟨-, hid, hns, hproject, htask, haction, hrisk, hsource, -⟩ := hleft
  obtain ⟨-, hid', hns', hproject', htask', haction', hrisk', hsource', -⟩ := hright
  refine ⟨?_, ?_, ?_, ?_, ?_, ?_, ?_⟩
  · exact Value.str.inj (hid.symm.trans hid')
  · exact Value.str.inj (hns.symm.trans hns')
  · exact Value.str.inj (hproject.symm.trans hproject')
  · exact Value.str.inj (htask.symm.trans htask')
  · exact ofOptionStr_injective (haction.symm.trans haction')
  · exact riskName_injective (Value.str.inj (hrisk.symm.trans hrisk'))
  · exact Value.bool.inj (hsource.symm.trans hsource')

/-! ## Minting and verifying

Minting normalizes the purpose and builds the claims; verifying takes them apart and compares.
The first theorem leaves the clock alone: it says for which purposes and risks the receipt
verifies, given what the window check answers. -/

section Receipts

variable {codec : Codec} {encoder : TokenEncoder} {tokens : TokenCodec} {m : MintRequest}
  {p : RecallPurpose}

/-- The purpose a receipt is minted for. -/
def MintRequest.verified (m : MintRequest) (p : RecallPurpose) : VerifiedRecallPurpose where
  requestId := p.requestId
  subjectAgentId := some m.confirmingActor
  «namespace» := p.namespace
  project := p.project
  taskType := p.taskType
  intendedAction := p.intendedAction
  actionRisk := p.actionRisk
  requireSourceBacking := p.requireSourceBacking
  authority := .localOperator
  attestationId := none
  confirmationReceiptId := none
  issuedAt := m.issuedAt.toInt
  expiresAt := none

/-- The claims of the receipt. -/
def MintRequest.claims (codec : Codec) (m : MintRequest) (p : RecallPurpose) :
    ConfirmationClaims where
  receiptId := m.receiptId
  issuer := m.issuer
  confirmingActor := m.confirmingActor
  requestId := p.requestId
  purposeHash := purposeHash codec (m.verified p)
  «namespace» := p.namespace
  project := p.project
  taskType := p.taskType
  intendedAction := p.intendedAction
  maximumAuthorizedRisk := m.maximumAuthorizedRisk
  issuedAt := m.issuedAt.toInt
  expiresAt := m.expiresAt.toInt
  nonce := m.nonce
  singleUse := true

/-- The times of a request are `i64` values already. -/
theorem MintRequest.claims_fits (codec : Codec) (m : MintRequest) (p : RecallPurpose) :
    (m.claims codec p).Fits :=
  ⟨⟨m.issuedAt.le_toInt, m.issuedAt.toInt_lt⟩, ⟨m.expiresAt.le_toInt, m.expiresAt.toInt_lt⟩⟩

theorem normalized_ok {wire : RecallPurpose} (h : wire.normalized = .ok p) :
    normalizeNamespace p.namespace = p.namespace ∧ TaskType p.taskType ∧
      p.actionRisk = wire.actionRisk := by
  obtain ⟨_, -, h₁⟩ := bind_eq_ok.mp h
  obtain ⟨_, -, h₂⟩ := bind_eq_ok.mp h₁
  obtain ⟨_, -, h₃⟩ := bind_eq_ok.mp h₂
  suffices hrest : ∃ taskType, normalizeTaskType wire.taskType = .ok taskType ∧
      p.namespace = normalizeNamespace wire.namespace ∧ p.taskType = taskType ∧
        p.actionRisk = wire.actionRisk by
    obtain ⟨taskType, htask, hns, rfl, hrisk⟩ := hrest
    exact ⟨hns ▸ normalizeNamespace_idem _, normalizeTaskType_slug htask, hrisk⟩
  cases haction : wire.intendedAction with
  | none =>
      rw [haction] at h₃
      obtain ⟨taskType, htask, h₄⟩ := bind_eq_ok.mp h₃
      obtain rfl := pure_eq_ok.mp h₄
      exact ⟨taskType, mapError_eq_ok.mp htask, rfl, rfl, rfl⟩
  | some action =>
      rw [haction] at h₃
      obtain ⟨_, -, h₄⟩ := bind_eq_ok.mp h₃
      obtain ⟨taskType, htask, h₅⟩ := bind_eq_ok.mp h₄
      obtain rfl := pure_eq_ok.mp h₅
      exact ⟨taskType, mapError_eq_ok.mp htask, rfl, rfl, rfl⟩

/-- A receipt that is minted carries the normalized purpose. -/
theorem mintConfirmationToken_ok {token : String}
    (h : mintConfirmationToken codec encoder m = .ok token) :
    m.issuedAt.toInt < m.expiresAt.toInt ∧ ∃ p, m.purpose.normalized = .ok p ∧
      token = encodeSigned encoder encoder.confirmationToVec (m.claims codec p) m.key := by
  unfold mintConfirmationToken at h
  split at h
  · exact (throw_bind_eq_ok.mp h).elim
  obtain ⟨_, -, h₂⟩ := bind_eq_ok.mp h
  obtain ⟨_, -, h₃⟩ := bind_eq_ok.mp h₂
  obtain ⟨_, hwindow, h₄⟩ := bind_eq_ok.mp h₃
  obtain ⟨verified, hverified, h₅⟩ := bind_eq_ok.mp h₄
  obtain ⟨p, hp, h₆⟩ := bind_eq_ok.mp hverified
  obtain rfl := pure_eq_ok.mp h₆
  obtain rfl := pure_eq_ok.mp h₅
  refine ⟨?_, p, hp, rfl⟩
  unfold validateWindow at hwindow
  split at hwindow
  · cases hwindow
  · omega

/-- A receipt verifies for the purposes that normalize to its own, up to its risk, inside
the window as the code computes it. -/
theorem verifyConfirmation_minted (hcodec : codec.Lossless) (hread : encoder.ReadBy tokens)
    (hp : m.purpose.normalized = .ok p) (q : VerifiedRecallPurpose) (now : Int) :
    (∃ claims, verifyConfirmation codec tokens
        (encodeSigned encoder encoder.confirmationToVec (m.claims codec p) m.key) m.key q now
          = .ok claims) ↔
      validateWindow m.issuedAt.toInt m.expiresAt.toInt now = .ok () ∧ q.SameAs p ∧
        q.actionRisk ≤ m.maximumAuthorizedRisk := by
  obtain ⟨hns, htask, -⟩ := normalized_ok hp
  have hdecode := decodeSigned_encodeSigned hread (hread.json _ (m.claims_fits codec p)) m.key
  have hbound : ((m.claims codec p).requestId != q.requestId ||
      (m.claims codec p).purposeHash != purposeHash codec q ||
      normalizeNamespace (m.claims codec p).namespace != q.namespace ||
      (m.claims codec p).project != q.project ||
      (normalizeTaskType (m.claims codec p).taskType).toOption != some q.taskType ||
      (m.claims codec p).intendedAction != q.intendedAction) = false ↔ q.SameAs p := by
    have htask' : (normalizeTaskType (m.claims codec p).taskType).toOption = some p.taskType := by
      show (normalizeTaskType p.taskType).toOption = some p.taskType
      rw [htask.normalize]
      rfl
    have hns' : normalizeNamespace (m.claims codec p).namespace = p.namespace := hns
    simp only [Bool.or_eq_false_iff, bne_eq_false_iff_eq, htask', hns']
    constructor
    · rintro ⟨⟨⟨⟨⟨-, hhash⟩, -⟩, -⟩, -⟩, -⟩
      obtain ⟨h₁, h₂, h₃, h₄, h₅, h₆, h₇⟩ := purposeHash_inj hcodec hhash
      exact ⟨h₁.symm, h₂.symm, h₃.symm, h₄.symm, h₅.symm, h₆.symm, h₇.symm⟩
    · rintro ⟨h₁, h₂, h₃, h₄, h₅, h₆, h₇⟩
      refine ⟨⟨⟨⟨⟨h₁.symm, ?_⟩, h₂.symm⟩, h₃.symm⟩, congrArg some h₄.symm⟩, h₅.symm⟩
      rw [purposeHash_eq]
      show purposeHash codec (m.verified p) = _
      simp only [purposeHash_eq, purposeFields, MintRequest.verified, h₁, h₂, h₃, h₄, h₅, h₆, h₇]
  have hrisk : ¬ q.actionRisk > (m.claims codec p).maximumAuthorizedRisk ↔
      q.actionRisk ≤ m.maximumAuthorizedRisk := ActionRisk.not_lt
  unfold verifyConfirmation
  rw [hdecode]
  constructor
  · rintro ⟨claims, h⟩
    obtain ⟨_, hclaims, h₁⟩ := bind_eq_ok.mp h
    obtain rfl := Except.ok.inj hclaims
    obtain ⟨_, hwindow, h₂⟩ := bind_eq_ok.mp h₁
    refine ⟨mapError_eq_ok.mp hwindow, ?_⟩
    by_cases hsame : q.SameAs p
    · rw [hbound.mpr hsame] at h₂
      by_cases hle : q.actionRisk ≤ m.maximumAuthorizedRisk
      · exact ⟨hsame, hle⟩
      · rw [if_neg (by decide), if_pos (not_not.mp fun hnot => hle (hrisk.mp hnot))] at h₂
        exact (throw_bind_eq_ok.mp h₂).elim
    · rw [if_pos (Bool.eq_true_of_not_eq_false fun hfalse => hsame (hbound.mp hfalse))] at h₂
      exact (throw_bind_eq_ok.mp h₂).elim
  · rintro ⟨hwindow, hsame, hle⟩
    refine ⟨m.claims codec p, bind_eq_ok.mpr ⟨_, rfl, bind_eq_ok.mpr ⟨(), mapError_eq_ok.mpr hwindow, ?_⟩⟩⟩
    rw [hbound.mpr hsame, if_neg (by decide), if_neg (hrisk.mpr hle)]
    rfl

/-- A receipt verifies for exactly what it authorises, at every reading of the clock that the
tolerance of thirty seconds does not take out of 64 bits. -/
theorem confirmation_authorises_iff (hcodec : codec.Lossless) (hread : encoder.ReadBy tokens)
    {token : String} (hmint : mintConfirmationToken codec encoder m = .ok token) {now : Int}
    (hearly : -2 ^ 63 + 30 ≤ now) (hlate : now < 2 ^ 63 - 30) (q : VerifiedRecallPurpose) :
    (∃ claims, verifyConfirmation codec tokens token m.key q now = .ok claims) ↔
      m.Authorises q now := by
  obtain ⟨hwindow, p, hp, rfl⟩ := mintConfirmationToken_ok hmint
  rw [verifyConfirmation_minted hcodec hread hp, validateWindow_eq_ok hwindow hearly hlate]
  constructor
  · rintro ⟨⟨hissued, hexpires⟩, hsame, hrisk⟩
    exact ⟨⟨p, hp, hsame⟩, hrisk, hissued, hexpires⟩
  · rintro ⟨⟨p', hp', hsame⟩, hrisk, hissued, hexpires⟩
    obtain rfl := Except.ok.inj (hp.symm.trans hp')
    exact ⟨⟨hissued, hexpires⟩, hsame, hrisk⟩

end Receipts

/-! ## A receipt -/

/-- The claims as `serde_json` prints them. -/
def confirmationFields (c : ConfirmationClaims) : List (String × Value) :=
  [("receipt_id", .str c.receiptId), ("issuer", .str c.issuer),
    ("confirming_actor", .str c.confirmingActor), ("request_id", .str c.requestId),
    ("purpose_hash", .str c.purposeHash), ("namespace", .str c.namespace),
    ("project", .str c.project), ("task_type", .str c.taskType),
    ("intended_action", Value.ofOptionStr c.intendedAction),
    ("maximum_authorized_risk", .str c.maximumAuthorizedRisk.name), ("issued_at", .int c.issuedAt),
    ("expires_at", .int c.expiresAt), ("nonce", .str c.nonce), ("single_use", .bool c.singleUse)]

def confirmationJson (c : ConfirmationClaims) : Bytes :=
  utf8 (String.ofList (['\x7b'] ++ (commaChars ((confirmationFields c).map fieldChars) ++ ['\x7d'])))

theorem confirmationFields_flat (c : ConfirmationClaims) : ∀ f ∈ confirmationFields c, f.2.Flat := by
  simp only [confirmationFields, List.forall_mem_cons]
  exact ⟨trivial, trivial, trivial, trivial, trivial, trivial, trivial, trivial, flat_ofOptionStr _,
    trivial, trivial, trivial, trivial, trivial, by simp⟩

theorem confirmationFields_injective : Function.Injective confirmationFields := by
  rintro ⟨⟩ ⟨⟩ h
  simp only [confirmationFields, List.cons.injEq, Prod.mk.injEq, Value.str.injEq, Value.int.injEq,
    Value.bool.injEq, true_and, and_true] at h
  obtain ⟨rfl, rfl, rfl, rfl, rfl, rfl, rfl, rfl, haction, hrisk, rfl, rfl, rfl, rfl⟩ := h
  rw [ofOptionStr_injective haction, riskName_injective hrisk]

theorem confirmationJson_injective : Function.Injective confirmationJson := by
  intro c c' h
  have hchars := String.ofList_injective (utf8_injective h)
  exact confirmationFields_injective (fields_inj (confirmationFields_flat c)
    (confirmationFields_flat c') (List.append_cancel_left hchars))

/-- Base64, a readable tag and the printed claims. -/
def plainEncoder : TokenEncoder where
  urlSafeEncode bytes := String.ofList (Base64.encode bytes)
  finalize key message := key ++ message
  confirmationToVec := confirmationJson

/-- What reads them back. -/
noncomputable def plainTokens : TokenCodec where
  urlSafeDecode s := Base64.decode s.toList
  verifySlice key message signature := signature = key ++ message
  attestationFromSlice _ := none
  confirmationFromSlice := Function.partialInv confirmationJson

theorem plainEncoder_toVec : plainEncoder.confirmationToVec = confirmationJson := by
  unfold plainEncoder
  dsimp only

theorem plainTokens_fromSlice :
    plainTokens.confirmationFromSlice = Function.partialInv confirmationJson := by
  unfold plainTokens
  dsimp only

theorem plainEncoder_readBy : plainEncoder.ReadBy plainTokens where
  base64 bytes := by
    show Base64.decode (String.ofList (Base64.encode bytes)).toList = some bytes
    rw [String.toList_ofList, Base64.decode_encode]
  alphabet bytes := by
    show '.' ∉ (String.ofList (Base64.encode bytes)).toList
    rw [String.toList_ofList]
    exact Base64.dot_notMem_encode bytes
  hmac key message := by
    show decide (key ++ message = key ++ message) = true
    exact decide_eq_true rfl
  json claims _ := by
    rw [plainTokens_fromSlice, plainEncoder_toVec]
    exact Function.partialInv_left confirmationJson_injective claims

/-- A deployment that may be confirmed for half a minute. -/
def deployReceipt : MintRequest where
  purpose := {
    requestId := " req-1 ", «namespace» := "local", project := "p", taskType := "Deploy Production"
    intendedAction := some "release", actionRisk := .high, requireSourceBacking := true }
  key := List.replicate 32 7
  issuer := "local"
  confirmingActor := "ann"
  maximumAuthorizedRisk := .high
  issuedAt := 90
  expiresAt := 120
  receiptId := "r1"
  nonce := "n1"

theorem confirmation_authorises_now : ∃ token,
    mintConfirmationToken (jsonCodec []) plainEncoder deployReceipt = .ok token ∧
    (∀ q, (∃ claims, verifyConfirmation (jsonCodec []) plainTokens token deployReceipt.key q 100
      = .ok claims) ↔ deployReceipt.Authorises q 100) ∧ ∃ q, deployReceipt.Authorises q 100 := by
  obtain ⟨token, hmint, -⟩ := okAnd_eq_true.mp (show okAnd (fun _ => true)
    (mintConfirmationToken (jsonCodec []) plainEncoder deployReceipt) = true by decide +kernel)
  obtain ⟨-, p, hp, -⟩ := mintConfirmationToken_ok hmint
  have hsame : (deployReceipt.verified p).SameAs p := ⟨rfl, rfl, rfl, rfl, rfl, rfl, rfl⟩
  refine ⟨token, hmint, confirmation_authorises_iff (jsonCodec_lossless []) plainEncoder_readBy
    hmint (by decide) (by decide), deployReceipt.verified p, ⟨p, hp, hsame⟩, ?_, by decide, by decide⟩
  show p.actionRisk ≤ .high
  rw [(normalized_ok hp).2.2]
  decide

end IronMem
