import IronMem.Contradictions
import IronMem.Lineage

/-!
# Settled contradictions

When no call is running, no settled set dangles and none hides a later conflict, as long
as no purge takes a preferred member, no detector adds to a set it has created once
somebody has settled it, and none stops between a member it has added to a settled set
and the reopening.

While calls are running the property does not hold: a detector adds a member first and
reopens the set afterwards. It is in debt in between, and the library of `Debts` keeps the
account: what is owed on a set, who owes it, and that it is settled before the call ends.

- Most statements are harmless, in the sense that they settle no set, take no member away
  and add none to a settled set (`Harmless`). They need no account.
- The detector's insertion makes a debt on its own set only (`hidesConflict_member`), and
  the reopening pays it (`not_settles_reopen`). A set that the detector has created itself
  it does not reopen, so that one must not be settled meanwhile.
- An update of an operator settles a set for one of its members and records the members of
  that moment (`update_stands`).

A call may stop at any statement. Stopping with a debt is what `StopsClean` excludes.
-/

namespace IronMem

open Fallible

/-! ## What is owed

A debt is a pair of a set and a member that has joined since the set was settled. The detector
that added the member is the one that owes the reopening. -/

/-- The set is settled. -/
def Database.Settles (db : Database) (setId : String) : Prop :=
  ∃ r ∈ db.table "contradiction_sets", r.col "id" = .str setId ∧ isSettled r = true

instance (db : Database) (setId : String) : Decidable (db.Settles setId) :=
  inferInstanceAs (Decidable (∃ r ∈ db.table "contradiction_sets", _ ∧ _))

/-- A member of a settled set that was none when the set was settled. -/
def HidesConflict (s : ContradictionStore) (d : String × Int) : Prop :=
  s.1.Settles d.1 ∧ d.2 ∈ s.1.contradictionMembers d.1 ∧ d.2 ∉ s.2 d.1

/-- Every settled set prefers one of its members. -/
def PreferredStand (s : ContradictionStore) : Prop :=
  ∀ r ∈ s.1.table "contradiction_sets", isSettled r = true → ∃ id, r.col "id" = .str id ∧
    ∃ m ∈ s.1.contradictionMembers id, r.col "preferred_memory_id" = .int m

theorem resolutionsStand_iff {s : ContradictionStore} :
    ResolutionsStand s ↔ PreferredStand s ∧ ∀ d, ¬ HidesConflict s d := by
  constructor
  · intro h
    refine ⟨fun r hr hsettled => ?_, ?_⟩
    · obtain ⟨id, hid, hpreferred, -⟩ := h r hr hsettled
      exact ⟨id, hid, hpreferred⟩
    · rintro ⟨id, m⟩ ⟨⟨r, hr, hid, hsettled⟩, hm, hnew⟩
      obtain ⟨id', hid', -, hall⟩ := h r hr hsettled
      obtain rfl : id' = id := Value.str.inj (hid'.symm.trans hid)
      exact hnew (hall m hm)
  · rintro ⟨hpreferred, hnone⟩ r hr hsettled
    obtain ⟨id, hid, hm⟩ := hpreferred r hr hsettled
    refine ⟨id, hid, hm, fun m hmem => ?_⟩
    by_contra hnew
    exact hnone (id, m) ⟨⟨r, hr, hid, hsettled⟩, hmem, hnew⟩

/-- All members of the set were there when it was settled, if it is. -/
def NothingHidden (s : ContradictionStore) (setId : String) : Prop :=
  s.1.Settles setId → ∀ m ∈ s.1.contradictionMembers setId, m ∈ s.2 setId

instance (s : ContradictionStore) (setId : String) : Decidable (NothingHidden s setId) :=
  inferInstanceAs (Decidable (_ → ∀ m ∈ s.1.contradictionMembers setId, _))

/-- A purge takes no preferred member of a settled set, and a detector adds no member to a
set that it has created itself and that has been settled meanwhile. -/
def KeepsResolutions : ContradictionStatement → ContradictionStore → Prop
  | .purge (.deleteMeta id), s => ∀ r ∈ s.1.table "contradiction_sets",
      isSettled r = true → r.col "preferred_memory_id" ≠ .int id
  | .detect (.member setId proposedId _ id), s => setId = proposedId → s.1.Settles setId →
      id ∈ s.1.contradictionMembers setId ∨ id ∈ s.2 setId
  | _, _ => True

/-- A detector that has added members to a set it has found does not stop before it has
reopened it, while the set is settled and has members that were none when it was. -/
def StopsClean : ContradictionStatement → ContradictionStore → Prop
  | .detect (.member setId proposedId inserted _), s =>
      setId ≠ proposedId → 0 < inserted → NothingHidden s setId
  | .detect (.reopen setId proposedId), s => setId ≠ proposedId → NothingHidden s setId
  | _, _ => True

/-- The statements at which a detector owes the reopening. -/
def CarriesReopening : ContradictionStatement → String × Int → Prop
  | .detect (.member setId proposedId inserted _), d =>
      d.1 = setId ∧ setId ≠ proposedId ∧ 0 < inserted
  | .detect (.reopen setId proposedId), d => d.1 = setId ∧ setId ≠ proposedId
  | _, _ => False

theorem stopsClean_nothing_owed {l : ContradictionStatement} {s : ContradictionStore}
    {d : String × Int} (hstop : StopsClean l s) (hcarries : CarriesReopening l d) :
    ¬ HidesConflict s d := by
  rintro ⟨hsettled, hmember, hnew⟩
  unfold CarriesReopening at hcarries
  split at hcarries
  · obtain ⟨rfl, hne, hinserted⟩ := hcarries
    exact hnew (hstop hne hinserted hsettled _ hmember)
  · obtain ⟨rfl, hne⟩ := hcarries
    exact hnew (hstop hne hsettled _ hmember)
  · exact hcarries

/-! ## Members -/

section Members

variable {db db' : Database} {setId : String} {m : Int}

theorem mem_contradictionMembers : m ∈ db.contradictionMembers setId ↔
    ∃ r ∈ db.table "contradiction_members", r.col "contradiction_set_id" = .str setId ∧
      (r.integer "memory_id").getD 0 = m := by
  rw [Database.contradictionMembers, List.mem_map]
  constructor
  · rintro ⟨r, hr, hm⟩
    obtain ⟨hr, hset⟩ := List.mem_filter.mp hr
    exact ⟨r, hr, of_decide_eq_true hset, hm⟩
  · rintro ⟨r, hr, hset, hm⟩
    exact ⟨r, List.mem_filter.mpr ⟨hr, decide_eq_true hset⟩, hm⟩

theorem contradictionMembers_congr
    (h : db'.table "contradiction_members" = db.table "contradiction_members") :
    db'.contradictionMembers = db.contradictionMembers := by
  funext id
  rw [Database.contradictionMembers, h, Database.contradictionMembers]

end Members

/-! ## Harmless statements -/

/-- A statement that settles no set, takes no member away and adds none to a settled set. -/
structure Harmless (db db' : Database) : Prop where
  settled : ∀ r ∈ db'.table "contradiction_sets", isSettled r = true →
    r ∈ db.table "contradiction_sets"
  stays : ∀ id, ∀ m ∈ db.contradictionMembers id, m ∈ db'.contradictionMembers id
  joins : ∀ id, db'.Settles id → ∀ m ∈ db'.contradictionMembers id, m ∈ db.contradictionMembers id

section Harmless

variable {db db' db'' : Database} {g : String → List Int} {r : Record}

theorem Harmless.settles (h : ∀ r ∈ db'.table "contradiction_sets", isSettled r = true →
    r ∈ db.table "contradiction_sets") {id : String} (hid : db'.Settles id) : db.Settles id := by
  obtain ⟨r, hr, hid, hsettled⟩ := hid
  exact ⟨r, h r hr hsettled, hid, hsettled⟩

theorem Harmless.of_tables
    (hsets : db'.table "contradiction_sets" = db.table "contradiction_sets")
    (hmembers : db'.table "contradiction_members" = db.table "contradiction_members") :
    Harmless db db' := by
  have hsame := contradictionMembers_congr hmembers
  refine ⟨fun r hr _ => hsets ▸ hr, fun id m hm => ?_, fun id _ m hm => ?_⟩
  · rw [hsame]
    exact hm
  · rw [hsame] at hm
    exact hm

theorem Harmless.refl : Harmless db db := .of_tables rfl rfl

theorem Harmless.trans (h : Harmless db db') (h' : Harmless db' db'') : Harmless db db'' :=
  ⟨fun r hr hs => h.settled r (h'.settled r hr hs) hs, fun id m hm => h'.stays id m (h.stays id m hm),
    fun id hs m hm => h.joins id (Harmless.settles h'.settled hs) m (h'.joins id hs m hm)⟩

/-- A set that is new is not settled. -/
theorem Harmless.insertSet (hr : isSettled r = false) :
    Harmless db (db.insertRow "contradiction_sets" r) := by
  refine ⟨fun r' hr' hs => ?_, fun id m hm => ?_, fun id _ m hm => ?_⟩
  · rw [Database.table_insertRow, if_pos rfl] at hr'
    rcases List.mem_append.mp hr' with hr' | hr'
    · exact hr'
    · rw [List.mem_singleton.mp hr', hr] at hs
      cases hs
  · exact hm
  · exact hm

theorem Harmless.appendMemoryLedger {codec : Codec} {ns opType payload hash : String}
    {memoryId : Option Int} {actor : Option String} {now : Int}
    (h : appendMemoryLedger codec ns memoryId opType actor payload now db = .ok (hash, db')) :
    Harmless db db' := by
  obtain ⟨row, rfl, -, -⟩ := appendMemoryLedger_ok h
  exact .of_tables rfl rfl

/-- Preferred members stand while members stay and no set is settled. -/
theorem PreferredStand.keep (hs : PreferredStand (db, g))
    (hsettled : ∀ r ∈ db'.table "contradiction_sets", isSettled r = true →
      r ∈ db.table "contradiction_sets")
    (hstays : ∀ id, ∀ m ∈ db.contradictionMembers id, m ∈ db'.contradictionMembers id) :
    PreferredStand (db', g) := by
  intro r hr hr'
  obtain ⟨id, hid, m, hm, hpreferred⟩ := hs r (hsettled r hr hr') hr'
  exact ⟨id, hid, m, hstays id m hm, hpreferred⟩

theorem Harmless.hidesConflict (h : Harmless db db') {d : String × Int}
    (hd : HidesConflict (db', g) d) : HidesConflict (db, g) d :=
  ⟨Harmless.settles h.settled hd.1, h.joins d.1 hd.1 d.2 hd.2.1, hd.2.2⟩

end Harmless

/-! ## The statements

Each statement is looked at for two things: whether a settled set may lose its preferred member,
and whether it may get a member that was none when it was settled. -/

section Statements

variable {codec : Codec} {db db' : Database} {id ns actor claimKey : String} {now ledgerNow : Int}

theorem insertChecked_ok {name : String} {r : Record} (h : insertChecked name r db = .ok db') :
    db' = db.insertRow name r ∧ ∀ parts ∈ (schema name).unique, ∀ old ∈ db.table name,
      collides parts old r = false := by
  obtain ⟨_, hcheck, h⟩ := bind_eq_ok.mp h
  obtain rfl := pure_eq_ok.mp h
  obtain ⟨_, -, hcheck⟩ := bind_eq_ok.mp hcheck
  obtain ⟨_, hunique, -⟩ := bind_eq_ok.mp hcheck
  rw [ensure_eq_ok, List.all_eq_true] at hunique
  refine ⟨rfl, fun parts hparts old hold => ?_⟩
  simpa using List.all_eq_true.mp (hunique parts hparts) old hold

/-- A set that is inserted has a new id. -/
theorem fresh_setId {r : Record} (h : insertChecked "contradiction_sets" r db = .ok db')
    (hr : r.col "id" = .str id) : ∀ old ∈ db.table "contradiction_sets", old.col "id" ≠ .str id := by
  intro old hold hid
  have hnone := (insertChecked_ok h).2 [.column "id"] (by simp [schema]) old hold
  simp [collides, keyOf, KeyPart.value, hid, hr, Value.isNull] at hnone

theorem mem_insertMember {stance : Value} {k m : Int} {other : String} :
    m ∈ (db.insertRow "contradiction_members" (jsonObject [
      ("contradiction_set_id", .str id), ("memory_id", .int k), ("stance", stance),
      ("created_at", .int now)])).contradictionMembers other ↔
        m ∈ db.contradictionMembers other ∨ other = id ∧ m = k := by
  generalize hr : jsonObject [("contradiction_set_id", .str id), ("memory_id", .int k),
    ("stance", stance), ("created_at", .int now)] = r
  have hset : r.col "contradiction_set_id" = .str id := by simp [← hr, jsonObject]
  have hinteger : (r.integer "memory_id").getD 0 = k := by simp [← hr, jsonObject, Record.integer]
  rw [mem_contradictionMembers, mem_contradictionMembers, Database.table_insertRow, if_pos rfl]
  constructor
  · rintro ⟨r', hr', hset', hm⟩
    rcases List.mem_append.mp hr' with hr' | hr'
    · exact Or.inl ⟨r', hr', hset', hm⟩
    · rw [List.mem_singleton.mp hr'] at hset' hm
      exact Or.inr ⟨Value.str.inj (hset'.symm.trans hset), hm.symm.trans hinteger⟩
  · rintro (⟨r', hr', hset', hm⟩ | ⟨rfl, rfl⟩)
    · exact ⟨r', List.mem_append_left _ hr', hset', hm⟩
    · exact ⟨r, by simp, hset, hinteger⟩

/-- Members are added to the set alone. -/
theorem insertMembersOf_ok {stance : ContradictionMember → Value} {members : List ContradictionMember}
    (h : members.foldlM (fun db member => insertChecked "contradiction_members" (jsonObject [
      ("contradiction_set_id", .str id), ("memory_id", .int member.memoryId),
      ("stance", stance member), ("created_at", .int now)]) db) db = .ok db') :
    db'.table "contradiction_sets" = db.table "contradiction_sets" ∧
      (∀ other, ∀ m ∈ db.contradictionMembers other, m ∈ db'.contradictionMembers other) ∧
        ∀ other, ∀ m ∈ db'.contradictionMembers other, m ∈ db.contradictionMembers other ∨
          other = id := by
  refine foldlM_induction (p := fun s : Database =>
    s.table "contradiction_sets" = db.table "contradiction_sets" ∧
      (∀ other, ∀ m ∈ db.contradictionMembers other, m ∈ s.contradictionMembers other) ∧
        ∀ other, ∀ m ∈ s.contradictionMembers other, m ∈ db.contradictionMembers other ∨
          other = id) h (fun s member s' _ hs hstep => ?_) ⟨rfl, fun _ _ hm => hm, fun _ _ hm => Or.inl hm⟩
  obtain ⟨hsets, hstays, hjoins⟩ := hs
  obtain ⟨rfl, -⟩ := insertChecked_ok hstep
  refine ⟨hsets, fun other m hm => mem_insertMember.mpr (Or.inl (hstays other m hm)),
    fun other m hm => ?_⟩
  rcases mem_insertMember.mp hm with hm | ⟨hother, -⟩
  · exact hjoins other m hm
  · exact Or.inr hother

/-- `create_contradiction_set` settles nothing, and adds members to its own set only. -/
theorem createContradictionSetOnConnection_harmless {request : CreateContradictionRequest}
    {set : ContradictionSet}
    (h : createContradictionSetOnConnection codec actor request ns claimKey id now ledgerNow db
      = .ok (set, db')) : Harmless db db' := by
  obtain ⟨db₁, hset, h⟩ := bind_eq_ok.mp h
  obtain ⟨db₂, hmembers, h⟩ := bind_eq_ok.mp h
  obtain ⟨⟨hash, db₃⟩, hledger, h⟩ := bind_eq_ok.mp h
  obtain ⟨_, -, h⟩ := bind_eq_ok.mp h
  obtain ⟨-, rfl⟩ := Prod.mk.inj (pure_eq_ok.mp h)
  have hnew : ∀ old ∈ db.table "contradiction_sets", old.col "id" ≠ .str id :=
    fresh_setId hset (by simp [jsonObject])
  obtain ⟨rfl, -⟩ := insertChecked_ok hset
  have hfirst : Harmless db (db.insertRow "contradiction_sets" (jsonObject [
    ("id", .str id), ("namespace", .str ns), ("realm", .str request.realm),
    ("project", Value.ofOptionStr request.project), ("claim_key", .str claimKey),
    ("claim_schema_version", .int 1), ("cardinality", .str request.cardinality.display),
    ("status", .str "unresolved"), ("version", .int 1), ("created_at", .int now),
    ("updated_at", .int now)])) :=
    .insertSet (by simp [isSettled, jsonObject, Record.text, Value.asStr])
  obtain ⟨hsets, hstays, hjoins⟩ := insertMembersOf_ok hmembers
  refine .trans (.trans hfirst ⟨fun r hr _ => hsets ▸ hr, hstays, fun other hs m hm => ?_⟩)
    (.appendMemoryLedger hledger)
  rcases hjoins other m hm with hm | rfl
  · exact hm
  · -- the set is new, so it is not settled
    obtain ⟨r, hr, hid, hsettled⟩ := hs
    rw [hsets] at hr
    exact absurd hid (hnew r (hfirst.settled r hr hsettled))

/-- The members a set is read with are its members. -/
theorem contradictionSetOnConnection_members {set : ContradictionSet}
    (h : contradictionSetOnConnection id ns db = .ok set) {member : ContradictionMember}
    (hmember : member ∈ set.members) : member.memoryId ∈ db.contradictionMembers id := by
  unfold contradictionSetOnConnection at h
  split at h
  · next row hrow =>
      obtain ⟨_, -, h⟩ := bind_eq_ok.mp h
      dsimp only at h
      split at h
      · obtain ⟨_, -, h⟩ := bind_eq_ok.mp h
        obtain ⟨cardinality, -, h⟩ := bind_eq_ok.mp h
        obtain ⟨status, -, h⟩ := bind_eq_ok.mp h
        obtain ⟨_, -, h⟩ := bind_eq_ok.mp h
        obtain ⟨members, hmembers, h⟩ := bind_eq_ok.mp h
        obtain rfl := pure_eq_ok.mp h
        obtain ⟨r, hr, hread⟩ := forall₂_right (forall₂_of_mapM hmembers) _ hmember
        obtain ⟨stance, -, hread⟩ := bind_eq_ok.mp hread
        obtain rfl := pure_eq_ok.mp hread
        rw [List.mem_insertionSort] at hr
        exact List.mem_map_of_mem hr
      · obtain ⟨_, hbad, -⟩ := bind_eq_ok.mp h
        cases hbad
  · obtain ⟨_, hbad, -⟩ := bind_eq_ok.mp h
    cases hbad

/-- What `update_contradiction_set` does: it sets the columns of the set, for one of its
members if the set is settled. -/
theorem updateContradictionSetOnConnection_ok {request : UpdateContradictionRequest}
    {set : ContradictionSet}
    (h : updateContradictionSetOnConnection codec actor id ns request now ledgerNow db
      = .ok (set, db')) :
    (∃ version, db'.table "contradiction_sets" = (db.table "contradiction_sets").map fun r =>
        if r.col "id" = .str id ∧ r.col "namespace" = .str ns then
          r.setAll (settleColumns request actor version now) else r) ∧
      db'.contradictionMembers = db.contradictionMembers ∧
      (request.status = .preferred ∨ request.status = .resolved →
        ∃ m ∈ db.contradictionMembers id, request.preferredMemoryId = some m) := by
  obtain ⟨current, hcurrent, h⟩ := bind_eq_ok.mp h
  obtain ⟨_, -, h⟩ := bind_eq_ok.mp h
  obtain ⟨_, hpreferred, h⟩ := bind_eq_ok.mp h
  obtain ⟨_, hmember, h⟩ := bind_eq_ok.mp h
  obtain ⟨_, -, h⟩ := bind_eq_ok.mp h
  obtain ⟨_, -, h⟩ := bind_eq_ok.mp h
  obtain ⟨⟨hash, db₁⟩, hledger, h⟩ := bind_eq_ok.mp h
  obtain ⟨_, -, h⟩ := bind_eq_ok.mp h
  obtain ⟨-, rfl⟩ := Prod.mk.inj (pure_eq_ok.mp h)
  obtain ⟨row, rfl, -, -⟩ := appendMemoryLedger_ok hledger
  refine ⟨⟨current.version + 1, by simp⟩, contradictionMembers_congr (by simp), fun hstatus => ?_⟩
  cases hp : request.preferredMemoryId with
  | none =>
      rw [ensure_eq_ok, hp] at hpreferred
      rcases hstatus with hs | hs <;> simp [hs] at hpreferred
  | some m =>
      rw [ensure_eq_ok, hp, Option.all_some, List.any_eq_true] at hmember
      obtain ⟨member, hmem, hid⟩ := hmember
      obtain rfl := beq_iff_eq.mp hid
      exact ⟨member.memoryId, contradictionSetOnConnection_members hcurrent hmem, rfl⟩

/-- Settling a set for one of its members is right, and hides nothing. -/
theorem update_stands {request : UpdateContradictionRequest} {set : ContradictionSet}
    {g : String → List Int}
    (h : updateContradictionSetOnConnection codec actor id ns request now ledgerNow db
      = .ok (set, db')) :
    (PreferredStand (db, g) → PreferredStand
      (db', fun x => if x = id then db.contradictionMembers id else g x)) ∧
    ∀ d, HidesConflict (db', fun x => if x = id then db.contradictionMembers id else g x) d →
      HidesConflict (db, g) d := by
  obtain ⟨⟨version, hsets⟩, hmembers, hpreferred⟩ := updateContradictionSetOnConnection_ok h
  have hid : ∀ r : Record, (r.setAll (settleColumns request actor version now)).col "id"
      = r.col "id" := setAll_col_of_not_mem (by simp [settleColumns])
  constructor
  · intro hs r hr hsettled
    rw [hsets, List.mem_map] at hr
    obtain ⟨r, hr, rfl⟩ := hr
    simp only at hsettled ⊢
    rw [hmembers]
    split at hsettled
    · next hcond =>
        have hstatus : request.status = .preferred ∨ request.status = .resolved := by
          have htext : (r.setAll (settleColumns request actor version now)).text "status"
              = some request.status.display := by
            simp [settleColumns, Record.setAll, Record.text, Value.asStr]
          rw [isSettled, htext] at hsettled
          cases hst : request.status <;> simp [hst, ContradictionStatus.display] at hsettled ⊢
        obtain ⟨m, hm, hp⟩ := hpreferred hstatus
        refine ⟨id, by rw [if_pos hcond, hid, hcond.1], m, hm, ?_⟩
        rw [if_pos hcond]
        simp [settleColumns, Record.setAll, hp, Value.ofOption]
    · next hcond =>
        rw [if_neg hcond]
        exact hs r hr hsettled
  · rintro d ⟨⟨r, hr, hrid, hsettled⟩, hm, hnew⟩
    dsimp only at hr hm hnew
    rw [hmembers] at hm
    by_cases hd : d.1 = id
    · rw [if_pos hd] at hnew
      exact absurd (hd ▸ hm) hnew
    · rw [if_neg hd] at hnew
      rw [hsets, List.mem_map] at hr
      obtain ⟨r, hr, rfl⟩ := hr
      split at hrid
      · next hcond =>
          rw [hid, hcond.1] at hrid
          exact absurd (Value.str.inj hrid).symm hd
      · next hcond =>
          rw [if_neg hcond] at hsettled
          exact ⟨⟨r, hr, hrid, hsettled⟩, hm, hnew⟩

/-! ### The detector -/

variable {setId proposedId : String} {memoryId : Int} {n : Nat}

theorem insertOrIgnore_ok {name : String} {r : Record} (h : insertOrIgnore name r db = .ok (n, db')) :
    n = 0 ∧ db' = db ∨ n = 1 ∧ db' = db.insertRow name r := by
  unfold insertOrIgnore at h
  split at h
  · obtain ⟨rfl, rfl⟩ := Prod.mk.inj (Except.ok.inj h)
    exact Or.inl ⟨rfl, rfl⟩
  · obtain ⟨t, ht, h⟩ := bind_eq_ok.mp h
    obtain ⟨rfl, rfl⟩ := Prod.mk.inj (pure_eq_ok.mp h)
    exact Or.inr ⟨rfl, (insertChecked_ok ht).1⟩

/-- A set that is settled once the sets have been reopened has not been reopened. -/
theorem settled_reopen {r : Record}
    (hr : r ∈ (reopenContradictionSet setId proposedId now db).table "contradiction_sets")
    (hsettled : isSettled r = true) : r ∈ db.table "contradiction_sets" ∧
      ¬ (r.col "id" = .str setId ∧ r.col "id" ≠ .str proposedId) := by
  rw [reopenContradictionSet, Database.table_updateRows, if_pos rfl, List.mem_map] at hr
  obtain ⟨r', hr', heq⟩ := hr
  split at heq
  · rw [← heq] at hsettled
    simp [isSettled, Record.text, Value.asStr] at hsettled
  · next hcond =>
      subst heq
      exact ⟨hr', by simpa using hcond⟩

theorem harmless_reopen : Harmless db (reopenContradictionSet setId proposedId now db) := by
  have hmembers : (reopenContradictionSet setId proposedId now db).contradictionMembers
      = db.contradictionMembers := contradictionMembers_congr rfl
  refine ⟨fun r hr hs => (settled_reopen hr hs).1, fun id m hm => ?_, fun id _ m hm => ?_⟩
  · rw [hmembers]
    exact hm
  · rw [hmembers] at hm
    exact hm

/-- The reopening settles what is owed on a set that was found. -/
theorem not_settles_reopen (hne : setId ≠ proposedId) :
    ¬ (reopenContradictionSet setId proposedId now db).Settles setId := by
  rintro ⟨r, hr, hid, hsettled⟩
  refine (settled_reopen hr hsettled).2 ⟨hid, fun hproposed => ?_⟩
  exact hne (Value.str.inj (hid.symm.trans hproposed))

/-- A member that joins may make a debt on its set, and on no other. -/
theorem hidesConflict_member {g : String → List Int} {d : String × Int}
    (h : insertOrIgnore "contradiction_members" (jsonObject [
      ("contradiction_set_id", .str setId), ("memory_id", .int memoryId),
      ("stance", .str "competing"), ("created_at", .int now)]) db = .ok (n, db'))
    (hd : HidesConflict (db', g) d) :
    HidesConflict (db, g) d ∨ n = 1 ∧ d = (setId, memoryId) ∧ db.Settles setId := by
  obtain ⟨hsettled, hm, hnew⟩ := hd
  rcases insertOrIgnore_ok h with ⟨-, rfl⟩ | ⟨hn, rfl⟩
  · exact Or.inl ⟨hsettled, hm, hnew⟩
  · rcases mem_insertMember.mp hm with hm | ⟨hset, hm⟩
    · exact Or.inl ⟨hsettled, hm, hnew⟩
    · exact Or.inr ⟨hn, Prod.ext hset hm, hset ▸ hsettled⟩

end Statements

/-! ## The calls

A call is safe when each of its statements keeps preferred members in place and a debt it makes
is settled further down. For most calls no debt comes up at all. -/

section Calls

variable {α β : Type} {codec : Codec}

/-- The call keeps preferred members in place and answers for what it hides. -/
def Safe (p : Proc ContradictionStatement ContradictionStore String α) : Prop :=
  Proc.PreservesWhen KeepsResolutions PreferredStand p ∧
    Proc.Answers KeepsResolutions CarriesReopening HidesConflict p

theorem Safe.done (r : Except String α) : Safe (.done r) := ⟨.done r, .done r⟩

theorem Safe.bind {p : Proc ContradictionStatement ContradictionStore String α}
    {f : α → Proc ContradictionStatement ContradictionStore String β} (hp : Safe p)
    (hf : ∀ a, Safe (f a)) : Safe (p >>= f) :=
  ⟨hp.1.bind fun a => (hf a).1, hp.2.bind fun a => (hf a).2⟩

/-- A statement that keeps both is safe with what follows it. -/
theorem Safe.step {l : ContradictionStatement}
    {act : ContradictionStore → Except String (β × ContradictionStore)}
    {next : β → Proc ContradictionStatement ContradictionStore String α}
    (hact : ∀ s b s', KeepsResolutions l s → act s = .ok (b, s') →
      (PreferredStand s → PreferredStand s') ∧ ∀ d, HidesConflict s' d → HidesConflict s d)
    (hnext : ∀ b, Safe (next b)) : Safe (.step l act next) :=
  ⟨.step (fun s b s' hok hs h => (hact s b s' hok h).1 hs) fun b => (hnext b).1,
    .step (fun s b s' hok h d hd => Or.inl ((hact s b s' hok h).2 d hd)) fun b => (hnext b).2⟩

/-- Harmless statements on the database are. -/
theorem Safe.harmless {ℓ : Type} {f : ℓ → ContradictionStatement} {l : ℓ}
    {act : Database → Except String (β × Database)} {next : β → Proc ℓ Database String α}
    (hact : ∀ db b db', act db = .ok (b, db') → Harmless db db')
    (hnext : ∀ b, Safe ((next b).onFst f (String → List Int))) :
    Safe ((Proc.step l act next).onFst f (String → List Int)) := by
  refine .step (fun s b s' _ h => ?_) hnext
  obtain ⟨db, g⟩ := s
  obtain ⟨db', g'⟩ := s'
  obtain ⟨h, rfl⟩ := Proc.map_fst_eq_ok h
  have hharmless := hact db b db' h
  exact ⟨fun hs => hs.keep hharmless.settled hharmless.stays, fun d hd => hharmless.hidesConflict hd⟩

variable {setId proposedId : String} {now : Int} {k : Nat → Proc EnsureStatement Database String α}

/-- Once it has added a member to a set it has found, the detector owes the reopening. -/
theorem insertMembers_owes {m : Int} (hne : setId ≠ proposedId)
    (hk : ∀ n, 0 < n → Proc.Owes KeepsResolutions CarriesReopening HidesConflict (setId, m)
      ((k n).onFst .detect (String → List Int))) (inserted : Nat) (hinserted : 0 < inserted)
    (ids : List Int) : Proc.Owes KeepsResolutions CarriesReopening HidesConflict (setId, m)
      ((insertMembers (fun e => e) setId proposedId now inserted ids >>= k).onFst .detect
        (String → List Int)) := by
  induction ids generalizing inserted with
  | nil => exact hk inserted hinserted
  | cons id ids ih => exact .later ⟨rfl, hne, hinserted⟩ fun n => ih (inserted + n) (by omega)

theorem insertMembers_safe (hk : ∀ n, Safe ((k n).onFst .detect (String → List Int)))
    (howes : ∀ n m, 0 < n → setId ≠ proposedId →
      Proc.Owes KeepsResolutions CarriesReopening HidesConflict (setId, m)
        ((k n).onFst .detect (String → List Int))) (inserted : Nat) (ids : List Int) :
    Safe ((insertMembers (fun e => e) setId proposedId now inserted ids >>= k).onFst .detect
      (String → List Int)) := by
  induction ids generalizing inserted with
  | nil => exact hk inserted
  | cons id ids ih =>
      refine ⟨.step (fun s n s' hok hs h => ?_) fun n => (ih (inserted + n)).1,
        .step (fun s n s' hok h d hd => ?_) fun n => (ih (inserted + n)).2⟩
      · obtain ⟨db, g⟩ := s
        obtain ⟨db', g'⟩ := s'
        obtain ⟨h, rfl⟩ := Proc.map_fst_eq_ok h
        rcases insertOrIgnore_ok h with ⟨-, rfl⟩ | ⟨-, rfl⟩
        · exact hs
        · refine hs.keep (fun r hr _ => hr) fun other m hm => ?_
          exact mem_insertMember.mpr (Or.inl hm)
      · obtain ⟨db, g⟩ := s
        obtain ⟨db', g'⟩ := s'
        obtain ⟨h, rfl⟩ := Proc.map_fst_eq_ok h
        rcases hidesConflict_member h hd with hold | ⟨rfl, rfl, hsettled⟩
        · exact Or.inl hold
        · by_cases hne : setId = proposedId
          · -- its own set, settled meanwhile: the member was there
            rcases hok hne hsettled with hm | hm
            · exact Or.inl ⟨hsettled, hm, hd.2.2⟩
            · exact absurd hm hd.2.2
          · exact Or.inr (insertMembers_owes hne (fun n hn => howes n id hn hne) (inserted + 1)
              (by omega) ids)

/-- `ensure_graph_contradiction_set` is safe. -/
theorem ensureGraphContradictionSet_safe (ledgerNow : Int) (ns realm : String)
    (project : Option String) (claimKey : String) (memoryIds : List Int) :
    Safe ((ensureGraphContradictionSet (fun e => e) codec proposedId now ledgerNow ns realm project
      claimKey memoryIds).onFst .detect (String → List Int)) := by
  unfold ensureGraphContradictionSet
  simp only [Proc.exec_bind, Proc.query_bind]
  refine .harmless (fun db n db' h => ?_) fun _ => .harmless (fun db found db' h => ?_) fun found => ?_
  · rcases insertOrIgnore_ok h with ⟨-, rfl⟩ | ⟨-, rfl⟩
    · exact .refl
    · exact .insertSet (by simp [isSettled, jsonObject, Record.text, Value.asStr])
  · obtain ⟨-, rfl⟩ := Prod.mk.inj (Except.ok.inj h)
    exact .refl
  · split
    · exact .done _
    · next setId hid =>
        refine insertMembers_safe (fun n => ?_) (fun n m hn hne => ?_) 0 memoryIds
        · split
          · exact .done _
          · refine .harmless (fun db b db' h => ?_) fun _ => .harmless (fun db b db' h => ?_) fun _ =>
              .done _
            · obtain ⟨-, rfl⟩ := Prod.mk.inj (Except.ok.inj h)
              exact harmless_reopen
            · exact .appendMemoryLedger h
        · rw [if_neg (by omega)]
          refine .pays ⟨rfl, hne⟩ fun s b s' _ h hd => ?_
          obtain ⟨db, g⟩ := s
          obtain ⟨db', g'⟩ := s'
          obtain ⟨h, rfl⟩ := Proc.map_fst_eq_ok h
          obtain ⟨-, rfl⟩ := Prod.mk.inj (Except.ok.inj h)
          exact not_settles_reopen hne hd.1

/-- A purge takes the member away everywhere, which leaves the other members. -/
theorem mem_purged {db db' : Database} {id m : Int} {other : String}
    (h : deleteCascade "memory_meta" (fun r => r.col "memory_id" = .int id) db = .ok db')
    (hm : m ∈ db.contradictionMembers other) (hne : m ≠ id) :
    m ∈ db'.contradictionMembers other := by
  rw [mem_contradictionMembers] at hm ⊢
  obtain ⟨r, hr, hset, hinteger⟩ := hm
  refine ⟨r, (mem_deleteCascade h r).mpr ⟨hr, nofun, fun ref _ href hparent _ => ?_⟩, hset, hinteger⟩
  obtain rfl : ref = ownedByMeta := by
    simp only [schema, List.mem_cons, List.not_mem_nil, or_false] at href
    rcases href with rfl | rfl
    · exact absurd hparent (by decide)
    · rfl
  by_contra hrefers
  rw [Bool.not_eq_false, refersTo, List.any_eq_true] at hrefers
  obtain ⟨gone, hgone, heq⟩ := hrefers
  have hid : gone.col "memory_id" = .int id := of_decide_eq_true (List.mem_filter.mp hgone).2
  have hcol : r.col "memory_id" = .int id := by
    rw [← hid]
    exact (beq_iff_eq.mp (Bool.and_eq_true_iff.mp heq).2).symm
  refine hne ?_
  rw [← hinteger, Record.integer, hcol, Option.getD_some]

theorem deleteMemoryMeta_safe (id : Int) :
    Safe ((deleteMemoryMeta id).onFst .purge (String → List Int)) := by
  unfold deleteMemoryMeta
  simp only [Proc.exec_bind]
  refine .harmless (fun db b db' h => ?_) fun _ => .harmless (fun db b db' h => ?_) fun _ => ?_
  · obtain ⟨-, rfl⟩ := Prod.mk.inj (Except.ok.inj h)
    exact .of_tables rfl rfl
  · obtain ⟨-, rfl⟩ := Prod.mk.inj (Except.ok.inj h)
    exact .of_tables rfl rfl
  · refine .step (fun s b s' hok h => ?_) fun _ => .done _
    obtain ⟨db, g⟩ := s
    obtain ⟨db', g'⟩ := s'
    obtain ⟨h, rfl⟩ := Proc.map_fst_eq_ok h
    obtain ⟨db₁, hdelete, h⟩ := bind_eq_ok.mp h
    obtain ⟨-, rfl⟩ := Prod.mk.inj (pure_eq_ok.mp h)
    have hsets : db₁.table "contradiction_sets" = db.table "contradiction_sets" :=
      deleteCascade_frame hdelete (by decide) (by simp [schema])
    refine ⟨fun hs r hr hsettled => ?_, fun d hd => ?_⟩
    · dsimp only at hr
      rw [hsets] at hr
      obtain ⟨setId, hid, m, hm, hpreferred⟩ := hs r hr hsettled
      have hne : m ≠ id := by
        rintro rfl
        exact hok r hr hsettled hpreferred
      exact ⟨setId, hid, m, mem_purged hdelete hm hne, hpreferred⟩
    · obtain ⟨⟨r, hr, hid, hsettled⟩, hm, hnew⟩ := hd
      dsimp only at hr hm
      rw [hsets] at hr
      obtain ⟨r', hr', hset, hinteger⟩ := mem_contradictionMembers.mp hm
      exact ⟨⟨r, hr, hid, hsettled⟩, mem_contradictionMembers.mpr
        ⟨r', (deleteCascade_sublist hdelete _).subset hr', hset, hinteger⟩, hnew⟩

theorem ContradictionCall.safe (call : ContradictionCall) : Safe (call.body codec) := by
  cases call with
  | create actor ns claimKey id request now ledgerNow =>
      refine .step (fun s b s' _ h => ?_) fun _ => .step (fun s b s' _ h => ?_) fun _ => .done _
      · obtain ⟨_, -, h⟩ := bind_eq_ok.mp h
        obtain ⟨-, rfl⟩ := Prod.mk.inj (pure_eq_ok.mp h)
        exact ⟨fun hs => hs, fun d hd => hd⟩
      · obtain ⟨⟨set, db⟩, hcreate, h⟩ := bind_eq_ok.mp h
        obtain ⟨-, rfl⟩ := Prod.mk.inj (pure_eq_ok.mp h)
        have hharmless := createContradictionSetOnConnection_harmless hcreate
        exact ⟨fun hs => hs.keep hharmless.settled hharmless.stays,
          fun d hd => hharmless.hidesConflict hd⟩
  | update actor id ns request now ledgerNow =>
      refine .step (fun s b s' _ h => ?_) fun _ => .done _
      obtain ⟨⟨set, db⟩, hupdate, h⟩ := bind_eq_ok.mp h
      obtain ⟨-, rfl⟩ := Prod.mk.inj (pure_eq_ok.mp h)
      exact update_stands hupdate
  | ensure proposedId now ledgerNow ns realm project claimKey memoryIds =>
      exact .bind (ensureGraphContradictionSet_safe ledgerNow ns realm project claimKey memoryIds)
        fun _ => .done _
  | deleteMemoryMeta id => exact deleteMemoryMeta_safe id

end Calls

/-! ## Runs -/

/-- Whenever no call is running, settled sets stand. -/
theorem resolutions_stand {codec : Codec} {s₀ s : ContradictionStore} (hs₀ : ResolutionsStand s₀)
    (h : Proc.ReachesStop KeepsResolutions StopsClean (ContradictionCall.body codec) (s₀, []) (s, [])) :
    ResolutionsStand s := by
  obtain ⟨hpreferred, hnone⟩ := resolutionsStand_iff.mp hs₀
  refine resolutionsStand_iff.mpr ⟨?_, ?_⟩
  · exact Proc.ReachesWhen.invariant (fun call => (ContradictionCall.safe call).1) .refl h.when
      hpreferred
  · exact h.nothing_owed (fun call => (ContradictionCall.safe call).2)
      (fun l s d hstop hcarries => stopsClean_nothing_owed hstop hcarries) hnone

/-! ### Three memories that compete -/

instance (l : ContradictionStatement) (s : ContradictionStore) : Decidable (KeepsResolutions l s) :=
  match l with
  | .purge st => match st with
    | .deleteMeta id => inferInstanceAs (Decidable (∀ r ∈ s.1.table "contradiction_sets",
        isSettled r = true → r.col "preferred_memory_id" ≠ .int id))
    | .select | .tombstone _ | .appendLedger | .decref _ | .gc | .deleteMemory _ | .deleteProject _
    | .deleteSide _ | .insertMemory | .upsertMeta _ | .setScopeKind _ | .setGovernance _
    | .evidenceRoot _ | .insertDict | .storeBlob _ | .insertObservation | .setSessionBlob _ _
    | .createCheckpoint | .deleteCheckpoint | .restoreCheckpoint => .isTrue trivial
  | .detect st => match st with
    | .member setId proposedId _ id => inferInstanceAs (Decidable (setId = proposedId →
        s.1.Settles setId → id ∈ s.1.contradictionMembers setId ∨ id ∈ s.2 setId))
    | .create | .find | .reopen _ _ | .ledger => .isTrue trivial
  | .validate | .create | .update => .isTrue trivial

instance (l : ContradictionStatement) (s : ContradictionStore) : Decidable (StopsClean l s) :=
  match l with
  | .detect st => match st with
    | .member setId proposedId inserted _ => inferInstanceAs (Decidable
        (setId ≠ proposedId → 0 < inserted → NothingHidden s setId))
    | .reopen setId proposedId => inferInstanceAs (Decidable
        (setId ≠ proposedId → NothingHidden s setId))
    | .create | .find | .ledger => .isTrue trivial
  | .validate | .create | .update | .purge _ => .isTrue trivial

/-- Three memories, and no set. -/
def threeClaims : ContradictionStore where
  fst := {
    table := fun
      | "memories" => [1, 2, 3].map fun id => newMemoryRow id "app" "remember" "a" none 100
      | "memory_meta" => [1, 2, 3].map fun id => newMetaRow id 100 "r"
      | _ => [] }
  snd := fun _ => []

/-- The detector finds these memories in conflict. -/
def detectAmong (proposedId : String) (memoryIds : List Int) : ContradictionCall :=
  .ensure proposedId 100 100 "local" "project" (some "app") "auth" memoryIds

/-- The operator prefers the first memory. -/
def preferFirst : ContradictionCall :=
  .update "ana" "s1" "local" ⟨1, .preferred, some 1, "source"⟩ 200 200

/-- A call that runs this many statements and stops. -/
def alone (call : ContradictionCall) (n : Nat) : List (Proc.Turn ContradictionCall) :=
  .move (.call call) :: List.replicate n (.move (.run 0)) ++ [.stop 0]

/-- The set is detected and settled, then a competitor is purged. -/
theorem resolutions_stand_threeClaims : ∃ s,
    Proc.ReachesStop KeepsResolutions StopsClean (ContradictionCall.body placeCodec)
      (threeClaims, []) (s, []) ∧
    (∃ r ∈ s.1.table "contradiction_sets", isSettled r = true) ∧ ResolutionsStand s := by
  have hrun : (Proc.runTurns KeepsResolutions StopsClean (ContradictionCall.body placeCodec)
      (alone (detectAmong "s1" [1, 2]) 6 ++ alone preferFirst 1 ++ alone (.deleteMemoryMeta 2) 3)
      (threeClaims, [])).any (fun c => c.2.isEmpty &&
        decide (∃ r ∈ c.1.1.table "contradiction_sets", isSettled r = true)) = true := by
    decide +kernel
  obtain ⟨⟨s, pool⟩, hturns, hc⟩ := Option.any_eq_true _ _ |>.mp hrun
  obtain ⟨hempty, hsettled⟩ := Bool.and_eq_true_iff.mp hc
  obtain rfl := List.isEmpty_iff.mp hempty
  have hreach := Proc.ReachesStop.of_turns hturns
  refine ⟨s, hreach, of_decide_eq_true hsettled, resolutions_stand (fun r hr => ?_) hreach⟩
  cases hr

/-- The preferred memory is purged. Or the detector adds a member, fails, and adds nothing
when it is called again. -/
theorem resolutions_fail :
    (∃ s, Proc.ReachesStop (fun _ _ => True) (fun _ _ => True) (ContradictionCall.body placeCodec)
      (threeClaims, []) (s, []) ∧ 1 ∉ s.1.contradictionMembers "s1" ∧ ¬ ResolutionsStand s) ∧
    ∃ s, Proc.ReachesStop (fun _ _ => True) (fun _ _ => True) (ContradictionCall.body placeCodec)
      (threeClaims, []) (s, []) ∧ HidesConflict s ("s1", 3) ∧ ¬ ResolutionsStand s := by
  have hdangles : (Proc.runTurns (fun _ _ => True) (fun _ _ => True)
      (ContradictionCall.body placeCodec)
      (alone (detectAmong "s1" [1, 2]) 6 ++ alone preferFirst 1 ++ alone (.deleteMemoryMeta 1) 3)
      (threeClaims, [])).any (fun c => c.2.isEmpty && decide (1 ∉ c.1.1.contradictionMembers "s1" ∧
        ∃ r ∈ c.1.1.table "contradiction_sets", isSettled r = true ∧
          r.col "id" = .str "s1" ∧ r.col "preferred_memory_id" = .int 1)) = true := by
    decide +kernel
  have hhides : (Proc.runTurns (fun _ _ => True) (fun _ _ => True)
      (ContradictionCall.body placeCodec)
      (alone (detectAmong "s1" [1, 2]) 6 ++ alone preferFirst 1 ++
        alone (detectAmong "s2" [1, 3]) 4 ++ alone (detectAmong "s3" [1, 3]) 4)
      (threeClaims, [])).any (fun c => c.2.isEmpty && decide (c.1.1.Settles "s1" ∧
        3 ∈ c.1.1.contradictionMembers "s1" ∧ 3 ∉ c.1.2 "s1")) = true := by
    decide +kernel
  constructor
  · obtain ⟨⟨s, pool⟩, hturns, hc⟩ := Option.any_eq_true _ _ |>.mp hdangles
    obtain ⟨hempty, hs⟩ := Bool.and_eq_true_iff.mp hc
    obtain rfl := List.isEmpty_iff.mp hempty
    obtain ⟨hgone, r, hr, hsettled, hid, hpreferred⟩ := of_decide_eq_true hs
    refine ⟨s, .of_turns hturns, hgone, fun hstand => ?_⟩
    obtain ⟨id, hid', ⟨m, hm, hpreferred'⟩, -⟩ := hstand r hr hsettled
    obtain rfl := Value.str.inj (hid.symm.trans hid')
    obtain rfl := Value.int.inj (hpreferred.symm.trans hpreferred')
    exact hgone hm
  · obtain ⟨⟨s, pool⟩, hturns, hc⟩ := Option.any_eq_true _ _ |>.mp hhides
    obtain ⟨hempty, hs⟩ := Bool.and_eq_true_iff.mp hc
    obtain rfl := List.isEmpty_iff.mp hempty
    obtain ⟨hsettles, hmember, hnew⟩ := of_decide_eq_true hs
    have hhidden : HidesConflict s ("s1", 3) := ⟨hsettles, hmember, hnew⟩
    exact ⟨s, .of_turns hturns, hhidden, fun hstand => (resolutionsStand_iff.mp hstand).2 _ hhidden⟩

end IronMem
