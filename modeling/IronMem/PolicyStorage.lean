import IronMem.PolicyUpdates

/-!
# Stored policies

A policy that the program could have stored reads back from the columns it was written to,
and an update that goes through leaves the policy it returned and keeps the constraints of
the policy table.

`Storable` names what the program guarantees of a policy before it is written: task lists
that are canonical and a depth that fits its column. Reading back a list of task types goes
through `serde_json`, of which the round trip of lists of strings is used; the state and the
risk go by their names, one by one (`fromStorage_eq_ok`).
-/

namespace IronMem

open Fallible

/-! ## Policies that can be stored -/

/-- A policy that reads back as it was written. -/
structure Storable (p : MemoryInfluencePolicy) : Prop where
  allowed : Canonical p.allowedTaskTypes
  denied : Canonical p.deniedTaskTypes
  depth : ∀ d, p.maximumDerivationDepth = some d → d < 2 ^ 32

theorem storable_default : Storable {} := ⟨canonical_nil, canonical_nil, fun d hd => by cases hd⟩

/-- The depth a row holds, unless it is out of range. -/
def storedDepth : Option Int → Option (Option Nat)
  | none => some none
  | some depth => (toU32 depth).map some

/-- What `from_storage` makes of a row. -/
theorem fromStorage_eq_ok {listFromStr : String → Except String (List String)}
    {stored : StoredInfluencePolicy} {p : MemoryInfluencePolicy} :
    MemoryInfluencePolicy.fromStorage listFromStr stored = .ok p ↔ 0 < stored.version ∧
      ∃ depth, storedDepth stored.maximumDerivationDepth = some depth ∧
        ∃ state, InfluenceState.parse stored.state = .ok state ∧
        ∃ allowed, listFromStr stored.allowedTaskTypes = .ok allowed ∧
        ∃ denied, listFromStr stored.deniedTaskTypes = .ok denied ∧
        ∃ risk, ActionRisk.parse stored.maximumActionRisk = .ok risk ∧
        ∃ allowed', canonicalizeTaskTypes allowed = .ok allowed' ∧
        ∃ denied', canonicalizeTaskTypes denied = .ok denied' ∧
        ⟨stored.version.toNat, state, allowed', denied', risk, stored.requiresOriginalSource,
          stored.requiresHumanConfirmation, depth⟩ = p := by
  unfold MemoryInfluencePolicy.fromStorage
  by_cases hneg : stored.version < 0
  · simp only [hneg, if_true, throw_bind_eq_ok, false_iff]
    rintro ⟨hpos, -⟩
    omega
  by_cases hzero : stored.version = 0
  · simp only [hzero, Int.lt_irrefl, if_false, if_true, throw_bind_eq_ok, false_iff]
    rintro ⟨hpos, -⟩
    omega
  have hpos : 0 < stored.version := by omega
  simp only [hneg, hzero, if_false, hpos, true_and]
  cases hdepth : stored.maximumDerivationDepth with
  | none =>
      simp only [bind_eq_ok, pure_eq_ok, mapError_eq_ok, storedDepth, Option.some.injEq]
  | some depth =>
      cases hu32 : toU32 depth with
      | none =>
          simp only [throw_bind_eq_ok, storedDepth, hu32, Option.map_none, false_iff]
          rintro ⟨depth, hnone, -⟩
          cases hnone
      | some n =>
          simp only [bind_eq_ok, pure_eq_ok, mapError_eq_ok, storedDepth, hu32, Option.map_some,
            Option.some.injEq]

theorem fromStorage_storable {listFromStr : String → Except String (List String)}
    {stored : StoredInfluencePolicy} {p : MemoryInfluencePolicy}
    (h : MemoryInfluencePolicy.fromStorage listFromStr stored = .ok p) :
    Storable p ∧ 1 ≤ p.version := by
  obtain ⟨hpos, depth, hdepth, state, -, allowed, -, denied, -, risk, -, allowed', hallowed, denied',
    hdenied, rfl⟩ := fromStorage_eq_ok.mp h
  refine ⟨⟨canonicalizeTaskTypes_canonical hallowed, canonicalizeTaskTypes_canonical hdenied,
    fun d hd => ?_⟩, by show 1 ≤ stored.version.toNat; omega⟩
  obtain rfl : depth = some d := hd
  cases hstored : stored.maximumDerivationDepth with
  | none =>
      rw [hstored, storedDepth] at hdepth
      cases hdepth
  | some n =>
      rw [hstored, storedDepth, toU32] at hdepth
      split at hdepth
      · next hrange =>
          obtain rfl := Option.some.inj (Option.some.inj hdepth)
          omega
      · cases hdepth

theorem storedPolicy_storable {services : Services} {row : Option Record}
    {p : MemoryInfluencePolicy} (h : storedPolicy services row = .ok p) :
    Storable p ∧ 1 ≤ p.version := by
  unfold storedPolicy influencePolicyRecordFromRow at h
  cases hversion : (row.getD ∅).i64 "version" with
  | none =>
      simp only [hversion] at h
      obtain rfl := Except.ok.inj h
      exact ⟨storable_default, Nat.le_refl 1⟩
  | some version =>
      simp only [hversion] at h
      cases hp : MemoryInfluencePolicy.fromStorage services.taskListFromStr _ with
      | error e => rw [hp] at h; cases h
      | ok q =>
          rw [hp] at h
          obtain rfl := Except.ok.inj h
          exact fromStorage_storable hp

theorem patchedTaskTypes_canonical {current l : List String} {patch : Option (List String)}
    (hcurrent : Canonical current) (h : patchedTaskTypes current patch = .ok l) : Canonical l := by
  cases patch with
  | none => exact Except.ok.inj h ▸ hcurrent
  | some taskTypes => exact canonicalizeTaskTypes_canonical h

theorem apply_storable {patch : MemoryInfluencePolicyPatch} {p q : MemoryInfluencePolicy}
    (hp : Storable p) (h : patch.apply p = .ok q) : Storable q ∧ q.version = p.version := by
  obtain ⟨_, -, h₁⟩ := bind_eq_ok.mp h
  obtain ⟨allowed, hallowed, h₂⟩ := bind_eq_ok.mp h₁
  obtain ⟨denied, hdenied, h₃⟩ := bind_eq_ok.mp h₂
  obtain rfl := pure_eq_ok.mp h₃
  refine ⟨⟨patchedTaskTypes_canonical hp.allowed hallowed,
    patchedTaskTypes_canonical hp.denied hdenied, fun d hd => ?_⟩, rfl⟩
  cases hdepth : patch.maximumDerivationDepth with
  | none =>
      simp only [hdepth] at hd
      exact hp.depth d hd
  | some depth =>
      simp only [hdepth] at hd
      obtain ⟨u, -, rfl⟩ := Option.map_eq_some_iff.mp hd
      exact u.toNat_lt

theorem asI64_natCast {n : Nat} (h : n < 2 ^ 63) : Value.asI64 (.int n) = some (n : Int) :=
  Value.asI64_int (by omega) (by omega)

theorem parse_stateName (state : InfluenceState) : InfluenceState.parse state.name = .ok state := by
  cases state <;> rfl

theorem parse_riskName (risk : ActionRisk) : ActionRisk.parse risk.name = .ok risk := by
  cases risk <;> rfl

theorem policyColumns_nodup (p : MemoryInfluencePolicy) (actor : String) (now : Int64) :
    ((policyColumns p actor now).map Prod.fst).Nodup := by
  show ["version", "state", "allowed_task_types", "denied_task_types", "maximum_action_risk",
    "requires_original_source", "requires_human_confirmation", "maximum_derivation_depth",
    "updated_by", "updated_at"].Nodup
  decide

theorem storedDepth_storable {p : MemoryInfluencePolicy} (hp : Storable p) :
    storedDepth (Value.ofOption (p.maximumDerivationDepth.map Int.ofNat)).asI64
      = some p.maximumDerivationDepth := by
  cases hdepth : p.maximumDerivationDepth with
  | none => rfl
  | some d =>
      have hd := hp.depth d hdepth
      show storedDepth (Value.asI64 (.int (d : Int))) = _
      rw [asI64_natCast (by omega), storedDepth, toU32, if_pos ⟨by omega, by omega⟩]
      rfl

theorem flag_ne_zero (b : Bool) : ((Value.asI64 (.int (if b then 1 else 0))).getD 0 != 0) = b := by
  cases b <;> rfl

/-- A storable policy reads back from the columns it was written to. -/
theorem storedPolicy_columns {services : Services}
    (hlist : ∀ l, services.taskListFromStr (jsonStrings l) = .ok l) {p : MemoryInfluencePolicy}
    (hp : Storable p) (hpos : 1 ≤ p.version) (hrange : p.version < 2 ^ 63) (r : Record)
    (actor : String) (now : Int64) :
    storedPolicy services (some (r.setAll (policyColumns p actor now))) = .ok p := by
  have hcol : ∀ q ∈ policyColumns p actor now,
      (r.setAll (policyColumns p actor now)).col q.1 = q.2 := fun q hq =>
    setAll_col_of_mem (policyColumns_nodup p actor now) hq r
  generalize r.setAll (policyColumns p actor now) = row at hcol ⊢
  simp only [policyColumns, List.forall_mem_cons] at hcol
  obtain ⟨hversion, hstate, hallowed, hdenied, hrisk, hsource, hconfirm, hdepth, -⟩ := hcol
  have hread : MemoryInfluencePolicy.fromStorage services.taskListFromStr {
      version := p.version
      state := (row.text "state").getD ""
      allowedTaskTypes := (row.text "allowed_task_types").getD ""
      deniedTaskTypes := (row.text "denied_task_types").getD ""
      maximumActionRisk := (row.text "maximum_action_risk").getD ""
      requiresOriginalSource := (row.i64 "requires_original_source").getD 0 != 0
      requiresHumanConfirmation := (row.i64 "requires_human_confirmation").getD 0 != 0
      maximumDerivationDepth := row.i64 "maximum_derivation_depth" } = .ok p := by
    simp only [Record.text, Record.i64, hstate, hallowed, hdenied, hrisk, hsource, hconfirm, hdepth,
      Value.asStr_str, Option.getD_some, flag_ne_zero]
    refine fromStorage_eq_ok.mpr ⟨by show 0 < (p.version : Int); omega, _, storedDepth_storable hp, _,
      parse_stateName _, _, hlist _, _, hlist _, _, parse_riskName _, _, hp.allowed, _, hp.denied, ?_⟩
    simp
  have hversion : row.i64 "version" = some (p.version : Int) := by
    rw [Record.i64, hversion, asI64_natCast hrange]
  unfold storedPolicy influencePolicyRecordFromRow
  simp only [Option.getD_some, hversion, hread]
  rfl

/-! ## The upsert

The row is replaced column by column or inserted. What was written is read back by the columns,
and other policies stay as they are. -/

section Upsert

variable {id : Int} {columns : List (String × Value)} {db db' : Database}

theorem policyRow_updateRows {f : Record → Record} (hf : ∀ r, (f r).col "memory_id" = r.col "memory_id")
    (p : Record → Bool) (k : Int) :
    (db.updateRows "memory_influence_policy" p f).policyRow k
      = (db.policyRow k).map fun r => if p r then f r else r := by
  have hsame : ∀ r : Record, (if p r then f r else r).col "memory_id" = r.col "memory_id" := fun r => by
    split
    · exact hf r
    · rfl
  rw [Database.policyRow, Database.table_updateRows, if_pos rfl, List.find?_map]
  congr 2
  funext r
  show decide ((if p r then f r else r).col "memory_id" = .int k) = _
  rw [hsame]

theorem policyRow_insertRow (row : Record) (k : Int) :
    (db.insertRow "memory_influence_policy" row).policyRow k
      = (db.policyRow k).or (if row.col "memory_id" = .int k then some row else none) := by
  rw [Database.policyRow, Database.table_insertRow, if_pos rfl, List.find?_append]
  congr 1
  by_cases h : row.col "memory_id" = .int k <;> simp [h]

/-- The row of the memory is written, the others stay. -/
theorem upsertPolicyRow_ok (hcolumns : ∀ q ∈ columns, q.1 ≠ "memory_id")
    (h : upsertPolicyRow id columns db = .ok db') :
    (∃ r : Record, db'.policyRow id = some (r.setAll columns)) ∧
      (∀ k, k ≠ id → db'.policyRow k = db.policyRow k) ∧
      ∀ n, n ≠ "memory_influence_policy" → db'.table n = db.table n := by
  unfold upsertPolicyRow at h
  have hkey : ∀ r : Record, (r.setAll columns).col "memory_id" = r.col "memory_id" :=
    setAll_col_of_not_mem hcolumns
  cases hrow : db.policyRow id with
  | some row =>
      rw [hrow, Option.isSome_some, if_pos rfl] at h
      obtain rfl := pure_eq_ok.mp h
      have hid : row.col "memory_id" = .int id := by simpa using List.find?_some hrow
      refine ⟨⟨row, ?_⟩, fun k hk => ?_, fun n hn => ?_⟩
      · rw [policyRow_updateRows hkey, hrow, Option.map_some, if_pos (decide_eq_true hid)]
      · rw [policyRow_updateRows hkey]
        cases hother : db.policyRow k with
        | none => rfl
        | some r =>
            have hrk : r.col "memory_id" = .int k := by simpa using List.find?_some hother
            rw [Option.map_some, if_neg]
            rw [decide_eq_true_eq, hrk]
            exact fun heq => hk (Value.int.inj heq)
      · rw [Database.table_updateRows, if_neg hn]
  | none =>
      rw [hrow, Option.isSome_none, if_neg (by decide)] at h
      obtain ⟨_, hcheck, h₁⟩ := bind_eq_ok.mp h
      obtain rfl := pure_eq_ok.mp h₁
      have hid : (Record.setAll ∅ (("memory_id", .int id) :: columns)).col "memory_id" = .int id := by
        rw [Record.setAll, List.foldl_cons, ← Record.setAll, hkey, Record.col_set_self]
      refine ⟨⟨Record.set ∅ "memory_id" (.int id), ?_⟩, fun k hk => ?_, fun n hn => ?_⟩
      · rw [policyRow_insertRow, hrow, if_pos hid]
        rfl
      · rw [policyRow_insertRow, hid, if_neg fun heq => hk (Value.int.inj heq).symm, Option.or_none]
      · rw [Database.table_insertRow, if_neg hn]

theorem captureFields_policy : captureFields "memory_influence_policy"
    = [("memory_id", "BIGINT"), ("version", "BIGINT"), ("state", "TEXT"),
      ("allowed_task_types", "TEXT"), ("denied_task_types", "TEXT"),
      ("maximum_action_risk", "TEXT"), ("requires_original_source", "BIGINT"),
      ("requires_human_confirmation", "BIGINT"), ("maximum_derivation_depth", "BIGINT"),
      ("updated_by", "TEXT"), ("updated_at", "BIGINT")] := by
  decide +kernel

theorem collides_memory_id {a b a' b' : Record} (ha : a'.col "memory_id" = a.col "memory_id")
    (hb : b'.col "memory_id" = b.col "memory_id") :
    collides [.column "memory_id"] a' b' = collides [.column "memory_id"] a b := by
  have hkey : ∀ r s : Record, r.col "memory_id" = s.col "memory_id" →
      keyOf [.column "memory_id"] r = keyOf [.column "memory_id"] s := fun r s h => by
    simp [keyOf, KeyPart.value, h]
  rw [collides, collides, hkey _ _ ha, hkey _ _ hb]

/-- The upsert keeps the policies well formed if what it writes is. -/
theorem upsertPolicyRow_formed (hcolumns : ∀ q ∈ columns, q.1 ≠ "memory_id")
    (htyped : ∀ r : Record, hasType "BIGINT" (r.col "memory_id") = true →
      TypedRow "memory_influence_policy" (r.setAll columns))
    (hid : hasType "BIGINT" (.int id) = true) (hformed : db.PoliciesFormed)
    (h : upsertPolicyRow id columns db = .ok db') : db'.PoliciesFormed := by
  have hframe := (upsertPolicyRow_ok hcolumns h).2.2
  have hkey : ∀ r : Record, (r.setAll columns).col "memory_id" = r.col "memory_id" :=
    setAll_col_of_not_mem hcolumns
  have hunique : UniqueKeys "memory_influence_policy" (db.table "memory_influence_policy") :=
    hformed.keys _ (by decide)
  have hparts : (schema "memory_influence_policy").unique = [[.column "memory_id"]] := rfl
  suffices hnew : UniqueKeys "memory_influence_policy" (db'.table "memory_influence_policy") ∧
      ∀ r ∈ db'.table "memory_influence_policy", TypedRow "memory_influence_policy" r by
    refine ⟨fun n hn => ?_, hnew.2⟩
    by_cases hne : n = "memory_influence_policy"
    · exact hne ▸ hnew.1
    · rw [hframe n hne]
      exact hformed.keys n hn
  unfold upsertPolicyRow at h
  split at h
  · obtain rfl := pure_eq_ok.mp h
    rw [Database.table_updateRows, if_pos rfl]
    refine ⟨fun parts hmem => ?_, fun r hr => ?_⟩
    · obtain rfl := List.mem_singleton.mp (hparts ▸ hmem)
      refine List.pairwise_map.mpr ((hunique _ hmem).imp fun {a b} hab => ?_)
      rw [collides_memory_id (a := a) (b := b), hab]
      · split
        · exact hkey a
        · rfl
      · split
        · exact hkey b
        · rfl
    · obtain ⟨old, hold, rfl⟩ := List.mem_map.mp hr
      split
      · refine htyped old (hformed.types old hold ("memory_id", "BIGINT") ?_)
        rw [captureFields_policy]
        exact List.mem_cons_self
      · exact hformed.types old hold
  · obtain ⟨_, hcheck, h₁⟩ := bind_eq_ok.mp h
    obtain rfl := pure_eq_ok.mp h₁
    rw [Database.table_insertRow, if_pos rfl]
    refine ⟨fun parts hmem => ?_, fun r hr => ?_⟩
    · refine List.pairwise_append.mpr ⟨hunique parts hmem, List.pairwise_singleton .., fun a ha b hb => ?_⟩
      exact List.mem_singleton.mp hb ▸ (checkRow_ok hcheck).2.1 parts hmem a ha
    · rcases List.mem_append.mp hr with hr | hr
      · exact hformed.types r hr
      · obtain rfl := List.mem_singleton.mp hr
        rw [Record.setAll, List.foldl_cons, ← Record.setAll]
        exact htyped _ (by rw [Record.col_set_self]; exact hid)

theorem hasType_int64 (n : Int64) : hasType "BIGINT" (.int n.toInt) = true := by
  have hlo := n.le_toInt
  have hhi := n.toInt_lt
  simp only [hasType, Bool.and_eq_true, decide_eq_true_eq]
  exact ⟨⟨trivial, hlo⟩, hhi⟩

theorem policyColumns_typed {p : MemoryInfluencePolicy} (hp : Storable p) (hrange : p.version < 2 ^ 63)
    (actor : String) (now : Int64) (r : Record) (hid : hasType "BIGINT" (r.col "memory_id") = true) :
    TypedRow "memory_influence_policy" (r.setAll (policyColumns p actor now)) := by
  have hkey : (r.setAll (policyColumns p actor now)).col "memory_id" = r.col "memory_id" :=
    setAll_col_of_not_mem (by simp [policyColumns]) r
  have hcol : ∀ q ∈ policyColumns p actor now,
      (r.setAll (policyColumns p actor now)).col q.1 = q.2 := fun q hq =>
    setAll_col_of_mem (policyColumns_nodup p actor now) hq r
  generalize r.setAll (policyColumns p actor now) = row at hkey hcol ⊢
  simp only [policyColumns, List.forall_mem_cons] at hcol
  obtain ⟨hversion, hstate, hallowed, hdenied, hrisk, hsource, hconfirm, hdepth, hby, hat, -⟩ := hcol
  have hflag : ∀ b : Bool, hasType "BIGINT" (.int (if b then 1 else 0)) = true := by decide
  have hnat : ∀ n < 2 ^ 63, hasType "BIGINT" (.int (n : Nat)) = true := fun n hn => by
    simp only [hasType, Bool.and_eq_true, decide_eq_true_eq]
    exact ⟨⟨trivial, by omega⟩, by omega⟩
  have hstored : hasType "BIGINT" (Value.ofOption (p.maximumDerivationDepth.map Int.ofNat)) = true := by
    cases hd : p.maximumDerivationDepth with
    | none => rfl
    | some d =>
        have hlt := hp.depth d hd
        exact hnat d (by omega)
  unfold TypedRow
  rw [captureFields_policy]
  simp only [List.forall_mem_cons, hkey, hversion, hstate, hallowed, hdenied, hrisk, hsource,
    hconfirm, hdepth, hby, hat]
  exact ⟨hid, hnat _ hrange, rfl, rfl, rfl, rfl, hflag _, hflag _, hstored, rfl, hasType_int64 now,
    by simp⟩

end Upsert

/-! ## One update -/

section Update

variable {services : Services} {u : PolicyUpdate} {db db' : Database} {id : Int}
  {record : MemoryInfluencePolicyRecord}

theorem influencePolicyRecordOnConnection_ok {ns : String}
    (h : influencePolicyRecordOnConnection services id ns db = .ok record) :
    storedPolicy services (db.policyRow id) = .ok record.policy := by
  unfold influencePolicyRecordOnConnection at h
  split at h
  · cases h
  · exact influencePolicyRecord_ok h

/-- What an update that went through has done. -/
theorem updateMemoryInfluencePolicy_ok (h : updateMemoryInfluencePolicy services u db = .ok (record, db')) :
    ∃ current patched written,
      storedPolicy services (db.policyRow u.memoryId.toInt) = .ok current ∧
      current.version = u.request.expectedVersion ∧ u.request.patch.apply current = .ok patched ∧
      record.policy = { patched with version := current.version + 1 } ∧
      record.policy.version < 2 ^ 63 ∧
      upsertPolicyRow u.memoryId.toInt (policyColumns record.policy u.actor u.now) db = .ok written ∧
      ∀ name, name ≠ "memory_ledger" → db'.table name = written.table name := by
  obtain ⟨_, -, h₁⟩ := bind_eq_ok.mp h
  obtain ⟨current, hcurrent, h₂⟩ := bind_eq_ok.mp h₁
  obtain ⟨_, hversion, h₃⟩ := bind_eq_ok.mp h₂
  obtain ⟨patched, hpatched, h₄⟩ := bind_eq_ok.mp h₃
  obtain ⟨_, -, h₅⟩ := bind_eq_ok.mp h₄
  obtain ⟨_, -, h₆⟩ := bind_eq_ok.mp h₅
  obtain ⟨_, hrange, h₇⟩ := bind_eq_ok.mp h₆
  obtain ⟨written, hwritten, h₈⟩ := bind_eq_ok.mp h₇
  obtain ⟨⟨hash, ledgered⟩, hledger, h₉⟩ := bind_eq_ok.mp h₈
  obtain ⟨rfl, rfl⟩ := Prod.mk.inj (pure_eq_ok.mp h₉)
  exact ⟨current.policy, patched, written, influencePolicyRecordOnConnection_ok hcurrent,
    by simpa using hversion, hpatched, rfl, by simpa using hrange, hwritten,
    fun name hname => appendMemoryLedger_frame hledger hname⟩

theorem policyColumns_ne_memory_id (p : MemoryInfluencePolicy) (actor : String) (now : Int64) :
    ∀ q ∈ policyColumns p actor now, q.1 ≠ "memory_id" := by
  simp [policyColumns]

variable (hlist : ∀ l, services.taskListFromStr (jsonStrings l) = .ok l)
include hlist

/-- An update writes the patched policy under the next version and leaves every other
memory's policy. -/
theorem updateMemoryInfluencePolicy_policy
    (h : updateMemoryInfluencePolicy services u db = .ok (record, db')) :
    ∃ current patched,
      storedPolicy services (db.policyRow u.memoryId.toInt) = .ok current ∧
      current.version = u.request.expectedVersion ∧ u.request.patch.apply current = .ok patched ∧
      record.policy = { patched with version := current.version + 1 } ∧
      storedPolicy services (db'.policyRow u.memoryId.toInt) = .ok record.policy ∧
      (db'.policyRow u.memoryId.toInt).isSome = true ∧
      ∀ k, k ≠ u.memoryId.toInt → db'.policyRow k = db.policyRow k := by
  obtain ⟨current, patched, written, hcurrent, hversion, hpatched, hrecord, hrange, hwritten, hframe⟩ :=
    updateMemoryInfluencePolicy_ok h
  obtain ⟨⟨r, hrow⟩, hothers, -⟩ := upsertPolicyRow_ok (policyColumns_ne_memory_id _ _ _) hwritten
  have hpolicies : ∀ k, db'.policyRow k = written.policyRow k := fun k => by
    rw [Database.policyRow, hframe _ (by decide), Database.policyRow]
  have hstorable : Storable record.policy := by
    have hpatch := (apply_storable (storedPolicy_storable hcurrent).1 hpatched).1
    rw [hrecord]
    exact ⟨hpatch.allowed, hpatch.denied, hpatch.depth⟩
  refine ⟨current, patched, hcurrent, hversion, hpatched, hrecord, ?_, ?_, fun k hk => ?_⟩
  · rw [hpolicies, hrow]
    exact storedPolicy_columns hlist hstorable (by rw [hrecord]; exact Nat.le_add_left ..) hrange ..
  · rw [hpolicies, hrow]
    rfl
  · rw [hpolicies, hothers k hk]

omit hlist in
theorem updateMemoryInfluencePolicy_formed (hformed : db.PoliciesFormed)
    (h : updateMemoryInfluencePolicy services u db = .ok (record, db')) : db'.PoliciesFormed := by
  obtain ⟨current, patched, written, hcurrent, -, hpatched, hrecord, hrange, hwritten, hframe⟩ :=
    updateMemoryInfluencePolicy_ok h
  have hstorable : Storable record.policy := by
    have hpatch := (apply_storable (storedPolicy_storable hcurrent).1 hpatched).1
    rw [hrecord]
    exact ⟨hpatch.allowed, hpatch.denied, hpatch.depth⟩
  have hwrote := upsertPolicyRow_formed (policyColumns_ne_memory_id _ _ _)
    (policyColumns_typed hstorable hrange u.actor u.now) (hasType_int64 u.memoryId) hformed hwritten
  refine ⟨fun n hn => ?_, ?_⟩
  · rw [hframe n (by revert n; decide)]
    exact hwrote.keys n hn
  · rw [hframe _ (by decide)]
    exact hwrote.types

end Update

end IronMem
