import IronMem.RestoreSpec

/-!
# The merge with the live authorization

What `restore` makes of one metadata row and of the influence policies: the merge
of a row never loosens it, writing the merged row keeps that, and every live
policy is among the ones that are written.

The merge takes the stricter side column by column, and each column has its own order:
a rank, an expiry, a flag, and for classifications a ladder beside which health and
personal data stand apart (`isSensitive`). `AtLeastAsRestrictive` collects them.
Merging may only write some columns (`MERGED_COLUMNS`), so that of all others the row
is still the checkpoint's (`MergedRow.col`).
-/

namespace IronMem

open Fallible

/-! ## At least as restrictive -/

/-- Health and personal data: outside the order of classifications. -/
def isSensitive (v : Value) : Bool := v == .str "phi" || v == .str "pii"

/-- The metadata row `after` permits nothing `live` does not. -/
structure AtLeastAsRestrictive (live after : Record) : Prop where
  provenance : ∀ f ∈ ["namespace", "source_type", "writer_identity"], after.col f = live.col f
  trust : trustRank (after.col "trust_tier") ≤ trustRank (live.col "trust_tier")
  classification : ∀ a, position CLASSES (live.col "classification") = some a →
    ∃ b, position CLASSES (after.col "classification") = some b ∧ a ≤ b
  sensitive : isSensitive (live.col "classification") = true ∨
    isSensitive (after.col "classification") = true →
      after.col "classification" = live.col "classification"
  expiry : ∀ t, live.i64 "expires_at" = some t → ∃ t', after.i64 "expires_at" = some t' ∧ t' ≤ t
  hold : live.i64 "legal_hold" = some 1 → after.i64 "legal_hold" = some 1
  consent : live.text "consent_state" ∈ [some "denied", some "withdrawn", some "required"] →
    after.col "consent_state" = live.col "consent_state"
  tombstone : live.col "tombstoned_at" ≠ .null →
    after.col "tombstoned_at" = live.col "tombstoned_at" ∧
      after.col "tombstone_reason" = live.col "tombstone_reason"
  scope : live.col "scope" = .str "project" → after.col "scope" = .str "project"
  placement : ∀ f ∈ ["residency", "retention_policy_id"], live.col f ≠ .null →
    after.col f = live.col f

theorem AtLeastAsRestrictive.refl (r : Record) : AtLeastAsRestrictive r r where
  provenance _ _ := rfl
  trust := le_refl _
  classification a h := ⟨a, h, le_refl _⟩
  sensitive _ := rfl
  expiry t h := ⟨t, h, le_refl _⟩
  hold := id
  consent _ := rfl
  tombstone _ := ⟨rfl, rfl⟩
  scope := id
  placement _ _ _ := rfl

/-! ## One row

The merge is a sequence of steps, each on one or two columns. A step writes the stricter of the
two values into its columns and passes the others on. -/

section Merge

variable {live row merged : Record} {g : String}

theorem mergeScope_col : (mergeScope live row).col g =
    if live.col "scope" = .str "project" ∧ g = "scope" then .str "project" else row.col g := by
  unfold mergeScope
  split <;> simp [*, eq_comm]

theorem mergeTrust_col : (mergeTrust live row).col g =
    if trustRank (live.col "trust_tier") < trustRank (row.col "trust_tier") ∧ g = "trust_tier"
      then live.col "trust_tier" else row.col g := by
  unfold mergeTrust
  split <;> simp [*, eq_comm]

theorem mergeConsent_col : (mergeConsent live row).col g =
    if live.text "consent_state" ∈ [some "denied", some "withdrawn", some "required"] ∧
      g = "consent_state" then live.col "consent_state" else row.col g := by
  unfold mergeConsent
  split
  · next h => simp [h, eq_comm]
  · next h => simp [h, eq_comm]
  · next h => simp [h, eq_comm]
  · next h1 h2 h3 => simp_all

theorem mergeHold_col : (mergeHold live row).col g =
    if live.i64 "legal_hold" = some 1 ∧ g = "legal_hold" then .int 1 else row.col g := by
  unfold mergeHold
  split
  · next h => simp [h, eq_comm]
  · next h => simp [h]

theorem mergeTombstone_col : (mergeTombstone live row).col g =
    if live.col "tombstoned_at" ≠ .null ∧ g ∈ ["tombstoned_at", "tombstone_reason"]
      then live.col g else row.col g := by
  unfold mergeTombstone
  split
  · next h => simp [Value.isNull_eq_true.mp h]
  · next h =>
      rw [Bool.not_eq_true, Value.isNull_eq_false] at h
      simp only [Record.col_set, h, ne_eq, not_false_eq_true, true_and, List.mem_cons,
        List.not_mem_nil, or_false]
      by_cases h1 : g = "tombstoned_at"
      · subst h1; simp
      · by_cases h2 : g = "tombstone_reason"
        · subst h2; simp
        · simp [h1, h2, Ne.symm h1, Ne.symm h2]

/-- The expiry a merge gives. -/
def earlierExpiry (row live : Record) : Option Int :=
  match row.i64 "expires_at", live.i64 "expires_at" with
  | some a, some b => some (min a b)
  | some a, none => some a
  | none, b => b

theorem mergeExpiry_col : (mergeExpiry live row).col g =
    if g = "expires_at" then Value.ofOption (earlierExpiry row live) else row.col g := by
  have hset : mergeExpiry live row
      = row.set "expires_at" (Value.ofOption (earlierExpiry row live)) := rfl
  rw [hset, Record.col_set]
  simp only [eq_comm]

theorem mergePlacement_ok {field : String} (h : mergePlacement live row field = .ok merged) :
    (∀ g, g ≠ field → merged.col g = row.col g) ∧
      (live.col field ≠ .null → merged.col field = live.col field) := by
  obtain ⟨_, -, h⟩ := bind_eq_ok.mp h
  obtain rfl := pure_eq_ok.mp h
  split
  · next hnull => exact ⟨fun _ _ => rfl, fun h => absurd (Value.isNull_eq_true.mp hnull) h⟩
  · exact ⟨fun g hg => Record.col_set_of_ne _ _ hg.symm, fun _ => Record.col_set_self ..⟩

theorem sameProvenance_ok (h : sameProvenance live row = .ok ()) :
    ∀ f ∈ ["namespace", "source_type", "writer_identity"], row.col f = live.col f :=
  fun f hf => (beq_iff_eq.mp (ensure_eq_ok.mp (forM_eq_ok.mp h f hf))).symm

/-- A classification does not go down, or stays what it is. -/
theorem mergeClassification_ok (h : mergeClassification live row = .ok merged) :
    (∀ g, g ≠ "classification" → merged.col g = row.col g) ∧
      ((merged.text "classification").getD "" = (live.text "classification").getD "" ∨
        ∃ a b, position CLASSES (live.col "classification") = some a ∧
          position CLASSES (merged.col "classification") = some b ∧ a ≤ b) := by
  simp only [mergeClassification] at h
  split at h
  · next heq =>
      obtain rfl := Except.ok.inj h
      exact ⟨fun _ _ => rfl, Or.inl heq⟩
  · split at h
    · next a b ha hb =>
        obtain rfl := Except.ok.inj h
        split
        · exact ⟨fun g hg => Record.col_set_of_ne _ _ hg.symm,
            Or.inr ⟨b, b, hb, by rw [Record.col_set_self, hb], le_refl b⟩⟩
        · next hlt => exact ⟨fun _ _ => rfl, Or.inr ⟨b, a, hb, ha, by omega⟩⟩
    · cases h

theorem position_classes (v : Value) : position CLASSES v = CLASSES.idxOf? (v.asStr.getD "") := by
  unfold position
  cases v.asStr with
  | none => decide
  | some s => rfl

theorem not_isSensitive_of_position {v : Value} {a : Nat} (h : position CLASSES v = some a) :
    isSensitive v = false := by
  rw [Bool.eq_false_iff]
  intro hs
  simp only [isSensitive, Bool.or_eq_true, beq_iff_eq] at hs
  rcases hs with rfl | rfl
  · exact absurd (h.symm.trans (by decide : position CLASSES (.str "phi") = none)) nofun
  · exact absurd (h.symm.trans (by decide : position CLASSES (.str "pii") = none)) nofun

theorem eq_of_isSensitive {v w : Value} (h : v.asStr.getD "" = w.asStr.getD "")
    (hs : isSensitive w = true ∨ isSensitive v = true) : v = w := by
  have hstr : ∀ (u : Value) (s : String), s ≠ "" → u.asStr.getD "" = s → u = .str s := by
    intro u s hne hu
    cases hu' : u.asStr with
    | none => rw [hu'] at hu; exact absurd hu.symm hne
    | some t => rw [hu'] at hu; exact Value.asStr_eq_some.mp (hu' ▸ congrArg some hu)
  simp only [isSensitive, Bool.or_eq_true, beq_iff_eq] at hs
  rcases hs with (rfl | rfl) | (rfl | rfl)
  · exact hstr v _ (by decide) h
  · exact hstr v _ (by decide) h
  · exact (hstr w _ (by decide) h.symm).symm
  · exact (hstr w _ (by decide) h.symm).symm

theorem earlierExpiry_le {t : Int} (h : live.i64 "expires_at" = some t) :
    ∃ t', earlierExpiry row live = some t' ∧ t' ≤ t ∧ (Value.ofOption (some t')).asI64 = some t' := by
  have hlive := Record.i64_eq_some h
  unfold earlierExpiry
  rw [h]
  cases hrow : row.i64 "expires_at" with
  | none => exact ⟨t, rfl, le_refl t, Value.asI64_int hlive.2.1 hlive.2.2⟩
  | some a =>
      have ha := Record.i64_eq_some hrow
      exact ⟨min a t, rfl, min_le_right a t, Value.asI64_int (by omega) (by omega)⟩

/-- The merge of one row never loosens it. -/
theorem mergeLive_restrictive (h : mergeLive live row = .ok merged) :
    AtLeastAsRestrictive live merged := by
  obtain ⟨_, hprovenance, h⟩ := bind_eq_ok.mp h
  obtain ⟨r1, h1, h⟩ := bind_eq_ok.mp h
  obtain ⟨r2, h2, h⟩ := bind_eq_ok.mp h
  obtain ⟨r3, h3, h⟩ := bind_eq_ok.mp h
  obtain rfl := pure_eq_ok.mp h
  have hprovenance := sameProvenance_ok hprovenance
  obtain ⟨hframe1, hresidency⟩ := mergePlacement_ok h1
  obtain ⟨hframe2, hretention⟩ := mergePlacement_ok h2
  obtain ⟨hframe3, hclass⟩ := mergeClassification_ok h3
  -- a column none of the later merges writes
  have hcol : ∀ g, g ∉ ["consent_state", "expires_at", "legal_hold", "tombstoned_at",
      "tombstone_reason"] →
      (mergeTombstone live (mergeHold live (mergeExpiry live (mergeConsent live r3)))).col g
        = r3.col g := by
    intro g hg
    simp only [List.mem_cons, List.not_mem_nil, or_false, not_or] at hg
    obtain ⟨hc, he, hh, ht, hr⟩ := hg
    rw [mergeTombstone_col, if_neg (by simp [ht, hr]), mergeHold_col, if_neg (by simp [hh]),
      mergeExpiry_col, if_neg he, mergeConsent_col, if_neg (by simp [hc])]
  have hrow : ∀ g, g ∉ ["scope", "trust_tier", "classification"] → r3.col g = r2.col g := by
    intro g hg
    simp only [List.mem_cons, List.not_mem_nil, or_false, not_or] at hg
    obtain ⟨hs, ht, hc⟩ := hg
    rw [hframe3 g hc, mergeTrust_col, if_neg (by simp [ht]), mergeScope_col, if_neg (by simp [hs])]
  refine ⟨?_, ?_, ?_, ?_, ?_, ?_, ?_, ?_, ?_, ?_⟩
  · intro f hf
    have hne : f ∉ ["consent_state", "expires_at", "legal_hold", "tombstoned_at",
        "tombstone_reason"] ∧ f ∉ ["scope", "trust_tier", "classification"] ∧
        f ≠ "retention_policy_id" ∧ f ≠ "residency" := by
      simp only [List.mem_cons, List.not_mem_nil, or_false] at hf
      rcases hf with rfl | rfl | rfl <;> decide
    rw [hcol f hne.1, hrow f hne.2.1, hframe2 f hne.2.2.1, hframe1 f hne.2.2.2, hprovenance f hf]
  · rw [hcol _ (by decide), hframe3 _ (by decide), mergeTrust_col]
    split
    · exact le_refl _
    · next hlt => simpa using hlt
  · intro a ha
    rw [hcol _ (by decide)]
    rcases hclass with heq | ⟨a', b, ha', hb, hle⟩
    · rw [position_classes] at ha
      rw [position_classes]
      exact ⟨a, (congrArg CLASSES.idxOf? heq).trans ha, le_refl a⟩
    · obtain rfl := Option.some.inj (ha.symm.trans ha')
      exact ⟨b, hb, hle⟩
  · intro hs
    rw [hcol _ (by decide)] at hs ⊢
    rcases hclass with heq | ⟨a, b, ha, hb, -⟩
    · exact eq_of_isSensitive heq hs
    · simp [not_isSensitive_of_position ha, not_isSensitive_of_position hb] at hs
  · intro t ht
    obtain ⟨t', ht', hle, hcast⟩ := @earlierExpiry_le live (mergeConsent live r3) t ht
    refine ⟨t', ?_, hle⟩
    rw [Record.i64, mergeTombstone_col, if_neg (by simp), mergeHold_col, if_neg (by simp),
      mergeExpiry_col, if_pos rfl, ht', hcast]
  · intro hhold
    rw [Record.i64, mergeTombstone_col, if_neg (by simp), mergeHold_col, if_pos ⟨hhold, rfl⟩]
    rfl
  · intro hconsent
    rw [mergeTombstone_col, if_neg (by simp), mergeHold_col, if_neg (by simp), mergeExpiry_col,
      if_neg (by decide), mergeConsent_col, if_pos ⟨hconsent, rfl⟩]
  · intro htombstone
    exact ⟨by rw [mergeTombstone_col, if_pos ⟨htombstone, by simp⟩],
      by rw [mergeTombstone_col, if_pos ⟨htombstone, by simp⟩]⟩
  · intro hscope
    rw [hcol _ (by decide), hframe3 _ (by decide), mergeTrust_col, if_neg (by simp),
      mergeScope_col, if_pos ⟨hscope, rfl⟩]
  · intro f hf hnull
    simp only [List.mem_cons, List.not_mem_nil, or_false] at hf
    rcases hf with rfl | rfl
    · rw [hcol _ (by decide), hrow _ (by decide), hframe2 _ (by decide), hresidency hnull]
    · rw [hcol _ (by decide), hrow _ (by decide), hretention hnull]

/-- The columns a merge may write. -/
def MERGED_COLUMNS : List String :=
  ["residency", "retention_policy_id", "scope", "trust_tier", "classification", "consent_state",
    "expires_at", "legal_hold", "tombstoned_at", "tombstone_reason"]

theorem mergeLive_frame (h : mergeLive live row = .ok merged) (hg : g ∉ MERGED_COLUMNS) :
    merged.col g = row.col g := by
  obtain ⟨_, -, h⟩ := bind_eq_ok.mp h
  obtain ⟨r1, h1, h⟩ := bind_eq_ok.mp h
  obtain ⟨r2, h2, h⟩ := bind_eq_ok.mp h
  obtain ⟨r3, h3, h⟩ := bind_eq_ok.mp h
  obtain rfl := pure_eq_ok.mp h
  simp only [MERGED_COLUMNS, List.mem_cons, List.not_mem_nil, or_false, not_or] at hg
  obtain ⟨hresidency, hretention, hs, ht, hc, hconsent, he, hh, htomb, hreason⟩ := hg
  rw [mergeTombstone_col, if_neg (by simp [htomb, hreason]), mergeHold_col, if_neg (by simp [hh]),
    mergeExpiry_col, if_neg he, mergeConsent_col, if_neg (by simp [hconsent]),
    (mergeClassification_ok h3).1 g hc, mergeTrust_col, if_neg (by simp [ht]), mergeScope_col,
    if_neg (by simp [hs]), (mergePlacement_ok h2).1 g hretention,
    (mergePlacement_ok h1).1 g hresidency]

/-- A row without a live tombstone keeps the checkpoint's. -/
theorem mergeLive_tombstone (h : mergeLive live row = .ok merged)
    (hlive : live.col "tombstoned_at" = .null) :
    merged.col "tombstoned_at" = row.col "tombstoned_at" := by
  obtain ⟨_, -, h⟩ := bind_eq_ok.mp h
  obtain ⟨r1, h1, h⟩ := bind_eq_ok.mp h
  obtain ⟨r2, h2, h⟩ := bind_eq_ok.mp h
  obtain ⟨r3, h3, h⟩ := bind_eq_ok.mp h
  obtain rfl := pure_eq_ok.mp h
  rw [mergeTombstone_col, if_neg (fun hc => hc.1 hlive), mergeHold_col, if_neg (by simp),
    mergeExpiry_col, if_neg (by decide), mergeConsent_col, if_neg (by simp),
    (mergeClassification_ok h3).1 _ (by decide), mergeTrust_col, if_neg (by simp), mergeScope_col,
    if_neg (by simp), (mergePlacement_ok h2).1 _ (by decide), (mergePlacement_ok h1).1 _ (by decide)]

theorem mergeAbsent_ok {db : Database} {args : RestoreArgs} {id : Int}
    (h : mergeAbsent db args row = .ok merged) (hid : row.i64 "memory_id" = some id) :
    (∀ g, g ∉ MERGED_COLUMNS → merged.col g = row.col g) ∧
      (knownBefore db args.snapshotId id = true → merged.col "tombstoned_at" = .int args.now) := by
  simp only [mergeAbsent, hid] at h
  obtain rfl := Except.ok.inj h
  split
  · refine ⟨fun g hg => ?_, fun _ => by simp⟩
    simp only [MERGED_COLUMNS, List.mem_cons, List.not_mem_nil, or_false, not_or] at hg
    simp [hg.2.2.2.2.2.2.2.2.1, hg.2.2.2.2.2.2.2.2.2, Ne.symm]
  · next hknown => exact ⟨fun _ _ => rfl, fun h => absurd h hknown⟩

end Merge

/-! ## One row, written

A merged row goes through `CAST` and the hash of the record before it is in the table. The
columns that matter have their types already, so that they come out as they went in. -/

section Written

variable {codec : Codec} {args : RestoreArgs} {live row r : Record}

theorem hasType_of_strField {f s : String} (h : strField row f = .ok s) :
    hasType "TEXT" (row.col f) = true := by
  unfold strField at h
  split at h
  · next heq => rw [Value.asStr_eq_some.mp heq]; rfl
  · cases h

theorem hasType_of_enumField {α : Type} {fromName : String → Option α} {f : String} {a : α}
    (h : enumField fromName row f = .ok a) : hasType "TEXT" (row.col f) = true := by
  unfold enumField at h
  split at h
  · next heq =>
      obtain ⟨s, hs, -⟩ := Option.bind_eq_some_iff.mp heq
      rw [Value.asStr_eq_some.mp hs]
      rfl
  · cases h

theorem hasType_of_i64 {f : String} {n : Int} (h : row.i64 f = some n) :
    hasType "BIGINT" (row.col f) = true := by
  obtain ⟨hcol, hlo, hhi⟩ := Record.i64_eq_some h
  rw [hcol, hasType, Bool.and_eq_true, Bool.and_eq_true]
  exact ⟨⟨rfl, decide_eq_true hlo⟩, decide_eq_true hhi⟩

theorem hasType_of_intField {f : String} {n : Int} (h : intField row f = .ok n) :
    hasType "BIGINT" (row.col f) = true := by
  unfold intField at h
  split at h
  · next heq => exact hasType_of_i64 heq
  · cases h

theorem hasType_of_isNull {kind : String} {v : Value} (h : v.isNull = true) :
    hasType kind v = true := by
  rw [Value.isNull_eq_true.mp h]
  rfl

theorem map_eq_ok {ε α β : Type} {x : Except ε α} {f : α → β} {b : β} (h : x.map f = .ok b) :
    ∃ a, x = .ok a := by
  cases x with
  | error e => cases h
  | ok a => exact ⟨a, rfl⟩

/-- Only these columns of the live row matter. -/
theorem AtLeastAsRestrictive.of_col_eq {live' after : Record} (h : AtLeastAsRestrictive live' after)
    (heq : ∀ f ∈ ["namespace", "source_type", "writer_identity"] ++ MERGED_COLUMNS,
      live'.col f = live.col f) : AtLeastAsRestrictive live after := by
  have htext : ∀ f ∈ MERGED_COLUMNS, live'.text f = live.text f ∧ live'.i64 f = live.i64 f := by
    intro f hf
    rw [Record.text, Record.i64, heq f (List.mem_append_right _ hf)]
    exact ⟨rfl, rfl⟩
  refine ⟨fun f hf => ?_, ?_, ?_, ?_, ?_, ?_, ?_, ?_, ?_, fun f hf => ?_⟩
  · rw [← heq f (List.mem_append_left _ hf)]
    exact h.provenance f hf
  · rw [← heq _ (by decide)]
    exact h.trust
  · rw [← heq _ (by decide)]
    exact h.classification
  · rw [← heq _ (by decide)]
    exact h.sensitive
  · rw [← (htext _ (by decide)).2]
    exact h.expiry
  · rw [← (htext _ (by decide)).2]
    exact h.hold
  · rw [← (htext _ (by decide)).1, ← heq _ (by decide)]
    exact h.consent
  · rw [← heq "tombstoned_at" (by decide), ← heq "tombstone_reason" (by decide)]
    exact h.tombstone
  · rw [← heq _ (by decide)]
    exact h.scope
  · rw [← heq f (by revert f; decide)]
    exact h.placement f hf

/-- What `serde_json` accepts as a governance record has the columns' types. -/
theorem readGovernance_ok {governance : MemoryGovernance} (h : readGovernance row = .ok governance) :
    (∀ f ∈ ["namespace", "source_type", "trust_tier", "writer_identity", "classification",
        "consent_state", "residency", "retention_policy_id"], hasType "TEXT" (row.col f) = true) ∧
      hasType "BIGINT" (row.col "expires_at") = true := by
  obtain ⟨_, hnamespace, h⟩ := bind_eq_ok.mp h
  obtain ⟨_, hsource, h⟩ := bind_eq_ok.mp h
  obtain ⟨_, htrust, h⟩ := bind_eq_ok.mp h
  obtain ⟨_, hwriter, h⟩ := bind_eq_ok.mp h
  obtain ⟨_, -, h⟩ := bind_eq_ok.mp h
  obtain ⟨_, -, h⟩ := bind_eq_ok.mp h
  obtain ⟨_, hclass, h⟩ := bind_eq_ok.mp h
  obtain ⟨_, hconsent, h⟩ := bind_eq_ok.mp h
  obtain ⟨_, hresidency, h⟩ := bind_eq_ok.mp h
  obtain ⟨_, hretention, h⟩ := bind_eq_ok.mp h
  obtain ⟨_, hexpiry, -⟩ := bind_eq_ok.mp h
  have hopt : ∀ {f : String} {o : Option String}, optStrField row f = .ok o →
      hasType "TEXT" (row.col f) = true := by
    intro f o ho
    unfold optStrField at ho
    split at ho
    · next heq => rw [heq]; rfl
    · next heq => rw [heq]; rfl
    · cases ho
  constructor
  · intro f hf
    simp only [List.mem_cons, List.not_mem_nil, or_false] at hf
    rcases hf with rfl | rfl | rfl | rfl | rfl | rfl | rfl | rfl
    · exact hasType_of_strField hnamespace
    · exact hasType_of_enumField hsource
    · exact hasType_of_enumField htrust
    · exact hopt hwriter
    · exact hasType_of_enumField hclass
    · unfold optEnumField at hconsent
      split at hconsent
      · next hnull => exact hasType_of_isNull hnull
      · obtain ⟨c, hc⟩ := map_eq_ok hconsent
        exact hasType_of_enumField hc
    · exact hopt hresidency
    · exact hopt hretention
  · unfold optIntField at hexpiry
    split at hexpiry
    · next hnull => exact hasType_of_isNull hnull
    · obtain ⟨n, hn⟩ := map_eq_ok hexpiry
      exact hasType_of_intField hn

theorem rehash_ok {memories : List Record} {merged : Record}
    (h : rehash codec memories merged = .ok row) :
    (∃ governance, readGovernance merged = .ok governance) ∧
      ∀ g, g ≠ "record_hash" → row.col g = merged.col g := by
  unfold rehash at h
  cases hfind : memories.find? fun m => m.col "id" = merged.col "memory_id" with
  | none => rw [hfind] at h; cases h
  | some memory =>
  rw [hfind] at h
  obtain ⟨_, -, h⟩ := bind_eq_ok.mp h
  obtain ⟨governance, hgovernance, h⟩ := bind_eq_ok.mp h
  obtain rfl := pure_eq_ok.mp h
  exact ⟨⟨governance, hgovernance⟩, fun g hg => Record.col_set_of_ne _ _ hg.symm⟩

/-- Writing a merged row keeps what the merge gave it. -/
theorem AtLeastAsRestrictive.inserted {memories : List Record} {merged : Record}
    (h : AtLeastAsRestrictive live merged) (hlive : TypedRow "memory_meta" live)
    (hrehash : rehash codec memories merged = .ok row)
    (hins : InsertedRow codec args "memory_meta" (captureFields "memory_meta") row r) :
    AtLeastAsRestrictive live r := by
  obtain ⟨⟨governance, hgovernance⟩, hcol⟩ := rehash_ok hrehash
  obtain ⟨htext, hexpiry⟩ := readGovernance_ok hgovernance
  -- a typed column of the merged row is the column that is written
  have hkeep : ∀ f kind, (f, kind) ∈ captureFields "memory_meta" → kind ≠ "DOUBLE PRECISION" →
      f ≠ "record_hash" → hasType kind (merged.col f) = true → r.col f = merged.col f := by
    intro f kind hf hreal hne htype
    rw [← hcol f hne] at htype ⊢
    exact hins.col_eq (by decide) rfl hf hreal htype
  have hcolumn : ∀ f ∈ ["namespace", "source_type", "trust_tier", "writer_identity",
      "classification", "consent_state", "residency", "retention_policy_id"],
      r.col f = merged.col f := by
    intro f hf
    refine hkeep f "TEXT" (captured_text f ?_) (by decide) ?_ (htext f hf)
    · revert f
      decide
    · rintro rfl
      exact absurd hf (by decide)
  refine ⟨fun f hf => ?_, ?_, ?_, ?_, ?_, ?_, ?_, ?_, ?_, fun f hf hnull => ?_⟩
  · rw [← h.provenance f hf]
    exact hcolumn f (by revert f; decide)
  · rw [hcolumn _ (by decide)]
    exact h.trust
  · rw [hcolumn _ (by decide)]
    exact h.classification
  · rw [hcolumn _ (by decide)]
    exact h.sensitive
  · rw [Record.i64, Record.i64, hkeep "expires_at" "BIGINT" (captured_bigint _ (by decide)) (by decide)
      (by decide) hexpiry]
    exact h.expiry
  · intro hhold
    have hmerged := h.hold hhold
    rw [Record.i64, hkeep "legal_hold" "BIGINT" (captured_bigint _ (by decide)) (by decide) (by decide)
      (hasType_of_i64 hmerged)]
    exact hmerged
  · rw [hcolumn _ (by decide)]
    exact h.consent
  · intro htombstone
    obtain ⟨hat, hreason⟩ := h.tombstone htombstone
    rw [← hat, ← hreason]
    refine ⟨hkeep "tombstoned_at" "BIGINT" (captured_bigint _ (by decide)) (by decide) (by decide) ?_,
      hkeep "tombstone_reason" "TEXT" (captured_text _ (by decide)) (by decide) (by decide) ?_⟩
    · rw [hat]
      exact hlive ("tombstoned_at", "BIGINT") (captured_bigint _ (by decide))
    · rw [hreason]
      exact hlive ("tombstone_reason", "TEXT") (captured_text _ (by decide))
  · intro hscope
    have hmerged := h.scope hscope
    rw [hkeep "scope" "TEXT" (captured_text _ (by decide)) (by decide) (by decide) (by rw [hmerged]; rfl)]
    exact hmerged
  · rw [← h.placement f hf hnull]
    clear hnull
    exact hcolumn f (by revert f; decide)

/-- Whatever the merge does, these columns are the checkpoint's. -/
theorem MergedRow.col {db : Database} {state current : State} {row' : Record} {id : Int}
    (h : MergedRow codec db args state current row row') (hid : row.i64 "memory_id" = some id)
    {g : String} (hg : g ∉ "record_hash" :: MERGED_COLUMNS) : row'.col g = row.col g := by
  obtain ⟨merged, hmerge, hrehash⟩ := h
  rw [List.mem_cons, not_or] at hg
  rw [(rehash_ok hrehash).2 g hg.1]
  unfold mergeMeta at hmerge
  split at hmerge
  · exact mergeLive_frame hmerge hg.2
  · exact (mergeAbsent_ok hmerge hid).1 g hg.2

end Written

/-! ## The live policies

Every live policy of a restored memory takes the place of the checkpoint's, or is added. The
loop goes through the live policies one by one, each about another memory. -/

section Overlay

variable {memories rows : List Record} {p q : Record}

theorem mem_overlayPolicy_self (h : ∃ m ∈ memories, m.col "id" = p.col "memory_id") :
    p ∈ overlayPolicy memories rows p := by
  obtain ⟨m, hm, hid⟩ := h
  rw [overlayPolicy, if_pos (List.any_eq_true.mpr ⟨m, hm, decide_eq_true hid⟩)]
  split
  · next i hi =>
      obtain ⟨hlt, -⟩ := List.findIdx?_eq_some_iff_getElem.mp hi
      exact List.mem_set hlt p
  · exact List.mem_append_right _ (List.mem_singleton_self p)

/-- A row about another memory stays. -/
theorem mem_overlayPolicy_of_ne (hp : p ∈ rows) (hne : p.col "memory_id" ≠ q.col "memory_id") :
    p ∈ overlayPolicy memories rows q := by
  rw [overlayPolicy]
  split
  · split
    · next i hi =>
        obtain ⟨hlt, hfound, -⟩ := List.findIdx?_eq_some_iff_getElem.mp hi
        obtain ⟨j, hj, rfl⟩ := List.getElem_of_mem hp
        have hij : i ≠ j := by
          rintro rfl
          exact hne (of_decide_eq_true hfound)
        exact List.mem_iff_getElem.mpr ⟨j, by simpa using hj, List.getElem_set_of_ne hij ..⟩
    · exact List.mem_append_left _ hp
  · exact hp

theorem mem_of_mem_overlayPolicy (hp : p ∈ overlayPolicy memories rows q) : p ∈ rows ∨ p = q := by
  rw [overlayPolicy] at hp
  split at hp
  · split at hp
    · exact List.mem_or_eq_of_mem_set hp
    · rcases List.mem_append.mp hp with hp | hp
      · exact Or.inl hp
      · exact Or.inr (List.mem_singleton.mp hp)
  · exact Or.inl hp

/-- Every live policy of a restored memory is among the rows that are written. -/
theorem mem_foldl_overlayPolicy {live : List Record} (hp : p ∈ live)
    (huniq : ∀ q ∈ live, p.col "memory_id" = q.col "memory_id" → q = p)
    (hknown : ∃ m ∈ memories, m.col "id" = p.col "memory_id") :
    p ∈ live.foldl (overlayPolicy memories) rows := by
  -- once it is there, a later round either concerns another memory or writes it again
  have hstay : ∀ (l : List Record) (rows : List Record),
      (∀ q ∈ l, p.col "memory_id" = q.col "memory_id" → q = p) → p ∈ rows →
      p ∈ l.foldl (overlayPolicy memories) rows := by
    intro l
    induction l with
    | nil => intro rows _ h; exact h
    | cons q l ih =>
        intro rows hl h
        refine ih _ (fun q' hq' => hl q' (List.mem_cons_of_mem _ hq')) ?_
        by_cases heq : p.col "memory_id" = q.col "memory_id"
        · obtain rfl := hl q (List.mem_cons_self ..) heq
          exact mem_overlayPolicy_self hknown
        · exact mem_overlayPolicy_of_ne h heq
  obtain ⟨before, after, rfl⟩ := List.append_of_mem hp
  rw [List.foldl_append, List.foldl_cons]
  exact hstay after _ (fun q hq => huniq q (List.mem_append_right _ (List.mem_cons_of_mem _ hq)))
    (mem_overlayPolicy_self hknown)

/-- A policy row of the checkpoint that no live policy replaces. -/
theorem mem_foldl_overlayPolicy_of_ne {live : List Record}
    (hp : p ∈ rows) (hne : ∀ q ∈ live, p.col "memory_id" ≠ q.col "memory_id") :
    p ∈ live.foldl (overlayPolicy memories) rows := by
  induction live generalizing rows with
  | nil => exact hp
  | cons q live ih =>
      exact ih (mem_overlayPolicy_of_ne hp (hne q (List.mem_cons_self ..)))
        fun q' hq' => hne q' (List.mem_cons_of_mem _ hq')

theorem mem_of_mem_foldl_overlayPolicy {live : List Record}
    (hp : p ∈ live.foldl (overlayPolicy memories) rows) : p ∈ rows ∨ p ∈ live := by
  induction live generalizing rows with
  | nil => exact Or.inl hp
  | cons q live ih =>
      rcases ih hp with hp | hp
      · rcases mem_of_mem_overlayPolicy hp with hp | rfl
        · exact Or.inl hp
        · exact Or.inr (List.mem_cons_self ..)
      · exact Or.inr (List.mem_cons_of_mem _ hp)

end Overlay

end IronMem
