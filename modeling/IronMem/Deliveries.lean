import IronMem.Statements

/-!
# Delivery telemetry

`record` counts, for each memory, how often it was delivered. A call that carries an
operation leaves a receipt, so that a retry within seven days is not counted again, and
receipts that are older are dropped by whatever call comes next. The receipts that are
left are therefore those of the deliveries counted within the window.

The right count is a function of the calls alone (`countedCalls`): a call counts for a
memory unless one with its operation has counted for it within the window. The tables are
compared with the list of the deliveries counted so far, by `Tells`: counters are lengths,
last times are maxima, and the receipts are those of the deliveries not yet expired.

One call looks at every memory of its list once, expiring receipts before (`Tells.expire`),
so the step lemma is about one memory (`Tells.deliver`) and the run lemma goes through the
memories and then through the calls (`recordAll_tells`). Times do not decrease along a run;
without this a receipt could be dropped that a later call still asks for.

A call with more ids than `MAX_DELIVERY_IDS` is refused as a whole, and since `record` is one
transaction it leaves nothing (`recordAll`).
-/

namespace IronMem

def Database.hasMeta (db : Database) (id : Int) : Bool :=
  (db.table "memory_meta").any fun m => m.col "memory_id" == .int id

namespace Access

/-! ## The tables -/

inductive Delivery where
  | recall
  | expansion
deriving DecidableEq

/-- A row of `memory_access`. -/
structure MemoryAccess where
  memoryId : Int
  observedSince : Int
  recallCount : Nat := 0
  lastRecalledAt : Option Int := none
  expansionCount : Nat := 0
  lastExpandedAt : Option Int := none
deriving DecidableEq

/-- A row of `access_receipts`. -/
structure AccessReceipt where
  operationHash : String
  kind : Delivery
  memoryId : Int
  createdAt : Int
deriving DecidableEq

structure AccessTables where
  access : List MemoryAccess := []
  receipts : List AccessReceipt := []
deriving DecidableEq

def MemoryAccess.count (a : MemoryAccess) : Delivery → Nat
  | .recall => a.recallCount
  | .expansion => a.expansionCount

def MemoryAccess.last (a : MemoryAccess) : Delivery → Option Int
  | .recall => a.lastRecalledAt
  | .expansion => a.lastExpandedAt

/-- What `stats` reads: a memory without a row was never delivered. -/
def AccessTables.count (t : AccessTables) (kind : Delivery) (id : Int) : Nat :=
  ((t.access.find? fun a => a.memoryId = id).map fun a => a.count kind).getD 0

def AccessTables.last (t : AccessTables) (kind : Delivery) (id : Int) : Option Int :=
  (t.access.find? fun a => a.memoryId = id).bind fun a => a.last kind

/-! ## The call -/

def MAX_DELIVERY_IDS : Nat := 10000

def RETRY_WINDOW : Int := 7 * 86400

def I64_MIN : Int := -(2 ^ 63)

/-- A memory is observed from its first delivery on, if it has metadata. -/
def AccessTables.observe (db : Database) (id now : Int) (t : AccessTables) : AccessTables :=
  if db.hasMeta id && !t.access.any fun a => a.memoryId == id then
    { t with access := t.access ++ [{ memoryId := id, observedSince := now }] }
  else t

/-- The insertion of a receipt, with the number of rows. -/
def AccessTables.receive (op : String) (kind : Delivery) (id now : Int) (t : AccessTables) :
    Nat × AccessTables :=
  if (t.access.any fun a => a.memoryId == id) && !t.receipts.any fun r =>
      r.operationHash == op && r.kind == kind && r.memoryId == id then
    (1, { t with receipts := t.receipts ++ [⟨op, kind, id, now⟩] })
  else (0, t)

/-- `CASE WHEN last IS NULL OR last < now THEN now ELSE last END`. -/
def laterOf (last : Option Int) (now : Int) : Int :=
  match last with
  | none => now
  | some last => if last < now then now else last

def MemoryAccess.deliver (kind : Delivery) (now : Int) (a : MemoryAccess) : MemoryAccess :=
  match kind with
  | .recall => { a with
      recallCount := a.recallCount + 1
      lastRecalledAt := some (laterOf a.lastRecalledAt now) }
  | .expansion => { a with
      expansionCount := a.expansionCount + 1
      lastExpandedAt := some (laterOf a.lastExpandedAt now) }

def AccessTables.deliver (kind : Delivery) (id now : Int) (t : AccessTables) : AccessTables :=
  { t with access := t.access.map fun a => if a.memoryId = id then a.deliver kind now else a }

/-- One memory of a call. -/
def recordOne (db : Database) (kind : Delivery) (op : Option String) (now : Int) (t : AccessTables)
    (id : Int) : AccessTables :=
  let t := t.observe db id now
  match op with
  | some op =>
      let (inserted, t) := t.receive op kind id now
      if inserted = 0 then t else t.deliver kind id now
  | none => t.deliver kind id now

/-- `i64::saturating_sub`, towards the lower end. -/
def saturatingSub (a b : Int) : Int := max (a - b) I64_MIN

def AccessTables.expire (now : Int) (t : AccessTables) : AccessTables :=
  { t with receipts := t.receipts.filter fun r => !decide (r.createdAt < saturatingSub now RETRY_WINDOW) }

/-- The arguments of `record`. -/
structure AccessCall where
  kind : Delivery
  ids : List Int
  operation : Option String
  now : Int
deriving DecidableEq

/-- `record`. The ids are a `BTreeSet`. -/
def record (sha256 : String → String) (db : Database) (c : AccessCall) (t : AccessTables) :
    Except String AccessTables :=
  if c.ids.isEmpty then .ok t
  else do
    ensure (decide (c.ids.length ≤ MAX_DELIVERY_IDS)) "too many delivery IDs"
    return (c.ids.dedup.insertionSort (· ≤ ·)).foldl (recordOne db c.kind (c.operation.map sha256) c.now)
      (t.expire c.now)

/-- A transaction that fails changes nothing. -/
def recordAll (sha256 : String → String) (db : Database) (calls : List AccessCall) (t : AccessTables) :
    AccessTables :=
  calls.foldl (fun t c => (record sha256 db c t).toOption.getD t) t

/-! ## What is to be counted -/

/-- No call with the operation of this one was counted within the window. -/
def AccessCall.Unseen (counted : List AccessCall) (c : AccessCall) : Prop :=
  ∀ op, c.operation = some op → ∀ earlier ∈ counted, earlier.operation = some op →
    RETRY_WINDOW < c.now - earlier.now

instance (counted : List AccessCall) (c : AccessCall) : Decidable (c.Unseen counted) :=
  decidable_of_iff ((c.operation.all fun op => counted.all fun earlier =>
      decide (earlier.operation = some op → RETRY_WINDOW < c.now - earlier.now)) = true) <| by
    simp only [AccessCall.Unseen, Option.all_eq_true, List.all_eq_true, decide_eq_true_eq]

/-- The call counts for the memory, after those that were counted. -/
def AccessCall.Counts (kind : Delivery) (id : Int) (counted : List AccessCall) (c : AccessCall) : Prop :=
  c.kind = kind ∧ id ∈ c.ids ∧ c.Unseen counted

instance (kind : Delivery) (id : Int) (counted : List AccessCall) (c : AccessCall) :
    Decidable (c.Counts kind id counted) := inferInstanceAs (Decidable (_ ∧ _))

/-- The calls of one kind that count for a memory, in their order. -/
def countedCalls (kind : Delivery) (id : Int) (calls : List AccessCall) : List AccessCall :=
  calls.foldl (fun counted c => if c.Counts kind id counted then counted ++ [c] else counted) []

/-! ## What the tables tell

The history is the list of the deliveries counted so far. `Tells` reads counters, last times and
receipts off it, for the receipts that were not dropped yet. -/

/-- The deliveries counted so far. -/
abbrev AccessHistory := Delivery → Int → List AccessCall

/-- The tables after the deliveries of the history, where receipts before the cut are dropped. -/
structure Tells (sha256 : String → String) (db : Database) (cut now : Int) (h : AccessHistory)
    (t : AccessTables) : Prop where
  keys : t.access.Pairwise fun a b => a.memoryId ≠ b.memoryId
  owned : ∀ a ∈ t.access, db.hasMeta a.memoryId = true
  counts : ∀ kind id, db.hasMeta id = true → t.count kind id = (h kind id).length ∧
    t.last kind id = ((h kind id).map AccessCall.now).max?
  past : ∀ kind id, ∀ c ∈ h kind id, I64_MIN ≤ c.now ∧ c.now ≤ now
  known : ∀ r ∈ t.receipts, cut ≤ r.createdAt ∧ db.hasMeta r.memoryId = true ∧
    ∃ c ∈ h r.kind r.memoryId, c.operation.map sha256 = some r.operationHash ∧ c.now = r.createdAt
  kept : ∀ kind id, db.hasMeta id = true → ∀ c ∈ h kind id, cut ≤ c.now →
    ∀ op, c.operation = some op → ∃ r ∈ t.receipts, r.operationHash = sha256 op ∧ r.kind = kind ∧
      r.memoryId = id ∧ r.createdAt = c.now

section Steps

variable {sha256 : String → String} {db : Database} {cut now : Int} {h : AccessHistory} {t : AccessTables}
  {kind : Delivery} {id : Int} {c : AccessCall}

/-- Receipts leave the window. -/
theorem Tells.expire (ht : Tells sha256 db cut now h t) {now' : Int} (hnow : now ≤ now')
    (hcut : cut ≤ saturatingSub now' RETRY_WINDOW) :
    Tells sha256 db (saturatingSub now' RETRY_WINDOW) now' h (t.expire now') where
  keys := ht.keys
  owned := ht.owned
  counts := ht.counts
  past kind id c hc := ⟨(ht.past kind id c hc).1, (ht.past kind id c hc).2.trans hnow⟩
  known r hr := by
    obtain ⟨hr, hlate⟩ := List.mem_filter.mp hr
    simp only [Bool.not_eq_true', decide_eq_false_iff_not, not_lt] at hlate
    exact ⟨hlate, (ht.known r hr).2⟩
  kept kind id hmeta c hc hlate op hop := by
    obtain ⟨r, hr, hhash, hkind, hid, hat⟩ := ht.kept kind id hmeta c hc (hcut.trans hlate) op hop
    refine ⟨r, List.mem_filter.mpr ⟨hr, ?_⟩, hhash, hkind, hid, hat⟩
    simpa [hat] using hlate

/-! ### Observation -/

/-- A row without deliveries tells what no row tells. -/
theorem count_append (t : AccessTables) (kind : Delivery) (id : Int) (a : MemoryAccess)
    (hcount : ∀ kind, a.count kind = 0)
    (hlast : ∀ kind, a.last kind = none) :
    ({ t with access := t.access ++ [a] } : AccessTables).count kind id = t.count kind id ∧
      ({ t with access := t.access ++ [a] } : AccessTables).last kind id = t.last kind id := by
  simp only [AccessTables.count, AccessTables.last, List.find?_append]
  cases t.access.find? fun a => a.memoryId = id with
  | some found => exact ⟨rfl, rfl⟩
  | none =>
      rw [Option.none_or, List.find?_singleton]
      split
      · exact ⟨hcount kind, hlast kind⟩
      · exact ⟨rfl, rfl⟩

theorem Tells.observe (ht : Tells sha256 db cut now h t) (id since : Int) :
    Tells sha256 db cut now h (t.observe db id since) := by
  unfold AccessTables.observe
  split
  · next hadd =>
      simp only [Bool.and_eq_true, Bool.not_eq_true', List.any_eq_false, beq_iff_eq] at hadd
      obtain ⟨hmeta, habsent⟩ := hadd
      refine ⟨?_, ?_, ?_, ht.past, ht.known, ht.kept⟩
      · refine List.pairwise_append.mpr ⟨ht.keys, List.pairwise_singleton _ _, ?_⟩
        intro a ha b hb
        rw [List.mem_singleton.mp hb]
        exact habsent a ha
      · intro a ha
        rcases List.mem_append.mp ha with ha | ha
        · exact ht.owned a ha
        · rw [List.mem_singleton.mp ha]
          exact hmeta
      · intro kind' id' hmeta'
        obtain ⟨hcount, hlast⟩ := count_append t kind' id' { memoryId := id, observedSince := since }
          (fun kind => by cases kind <;> rfl) (fun kind => by cases kind <;> rfl)
        rw [hcount, hlast]
        exact ht.counts kind' id' hmeta'
  · exact ht

theorem find?_observe (hmeta : db.hasMeta id = true) (since : Int) :
    ((t.observe db id since).access.find? fun a => a.memoryId = id).isSome = true := by
  unfold AccessTables.observe
  rw [List.find?_isSome]
  split
  · exact ⟨{ memoryId := id, observedSince := since }, by simp, by simp⟩
  · next hkeep =>
      rw [hmeta, Bool.true_and, Bool.not_eq_true, Bool.not_eq_false', List.any_eq_true] at hkeep
      obtain ⟨a, ha, hid⟩ := hkeep
      exact ⟨a, ha, by simpa using hid⟩

/-! ### Delivery -/

theorem deliver_memoryId (a : MemoryAccess) : (a.deliver kind now).memoryId = a.memoryId := by
  cases kind <;> rfl

theorem deliver_count (a : MemoryAccess) (kind' : Delivery) : (a.deliver kind now).count kind'
    = a.count kind' + if kind' = kind then 1 else 0 := by
  cases kind <;> cases kind' <;> rfl

theorem deliver_last (a : MemoryAccess) (kind' : Delivery) : (a.deliver kind now).last kind'
    = if kind' = kind then some (laterOf (a.last kind) now) else a.last kind' := by
  cases kind <;> cases kind' <;> rfl

theorem find?_deliver (id' : Int) : ((t.deliver kind id now).access.find? fun a => a.memoryId = id')
    = (t.access.find? fun a => a.memoryId = id').map fun a =>
        if a.memoryId = id then a.deliver kind now else a := by
  rw [AccessTables.deliver, List.find?_map]
  congr 2
  funext a
  rw [Function.comp_apply]
  split
  · rw [deliver_memoryId]
  · rfl

/-- A delivery counts for its memory and kind. -/
theorem count_deliver (hrow : (t.access.find? fun a => a.memoryId = id).isSome = true)
    (kind' : Delivery) (id' : Int) :
    (t.deliver kind id now).count kind' id'
        = t.count kind' id' + (if kind' = kind ∧ id' = id then 1 else 0) ∧
      (t.deliver kind id now).last kind' id'
        = if kind' = kind ∧ id' = id then some (laterOf (t.last kind id) now) else t.last kind' id' := by
  simp only [AccessTables.count, AccessTables.last, find?_deliver]
  by_cases hid : id' = id
  · subst hid
    obtain ⟨a, ha⟩ := Option.isSome_iff_exists.mp hrow
    have haid : a.memoryId = id' := by simpa using List.find?_some ha
    simp only [ha, Option.map_some, Option.bind_some, Option.getD_some, if_pos haid, and_true]
    exact ⟨deliver_count a kind', deliver_last a kind'⟩
  · simp only [hid, and_false, if_false, Nat.add_zero]
    cases ha : t.access.find? fun a => a.memoryId = id' with
    | none => exact ⟨rfl, rfl⟩
    | some a =>
        have haid : a.memoryId ≠ id := fun heq => hid ((by simpa using List.find?_some ha : a.memoryId = id') ▸ heq)
        simp only [Option.map_some, if_neg haid]
        exact ⟨trivial, trivial⟩

theorem max?_concat {l : List Int} {x : Int} (h : ∀ y ∈ l, y ≤ x) : (l ++ [x]).max? = some x := by
  rw [List.max?_eq_some_iff]
  exact ⟨by simp, fun y hy => (List.mem_append.mp hy).elim (h y) fun hx => by
    rw [List.mem_singleton.mp hx]⟩

theorem laterOf_max? {l : List Int} {x : Int} (h : ∀ y ∈ l, y ≤ x) : laterOf l.max? x = x := by
  cases hmax : l.max? with
  | none => rfl
  | some last =>
      have hle := h last (List.max?_mem hmax)
      rw [laterOf]
      split <;> omega

/-- One more delivery of a memory. -/
def AccessHistory.add (h : AccessHistory) (c : AccessCall) (id : Int) : AccessHistory := fun kind' id' =>
  if kind' = c.kind ∧ id' = id then h kind' id' ++ [c] else h kind' id'

theorem AccessHistory.mem_add {kind' : Delivery} {id' : Int} {e : AccessCall} : e ∈ h.add c id kind' id' ↔
    e ∈ h kind' id' ∨ (kind' = c.kind ∧ id' = id) ∧ e = c := by
  unfold AccessHistory.add
  split
  · next hown => simp [hown]
  · next hother => simp [hother]

/-- A delivery, with the receipt it leaves if it has an operation. -/
theorem Tells.deliver (ht : Tells sha256 db cut c.now h t) (hmeta : db.hasMeta id = true)
    (hrow : (t.access.find? fun a => a.memoryId = id).isSome = true) (hmin : I64_MIN ≤ c.now)
    {receipts : List AccessReceipt} (hold : ∀ r ∈ t.receipts, r ∈ receipts)
    (hnew : ∀ r ∈ receipts, r ∈ t.receipts ∨ cut ≤ c.now ∧ ∃ op, c.operation = some op ∧
      r = ⟨sha256 op, c.kind, id, c.now⟩)
    (hown : ∀ op, c.operation = some op → ⟨sha256 op, c.kind, id, c.now⟩ ∈ receipts) :
    Tells sha256 db cut c.now (h.add c id) (({ t with receipts }).deliver c.kind id c.now) where
  keys := by
    rw [AccessTables.deliver, List.pairwise_map]
    refine ht.keys.imp fun hne => ?_
    split <;> split <;> simpa only [deliver_memoryId] using hne
  owned a ha := by
    obtain ⟨b, hb, rfl⟩ := List.mem_map.mp ha
    split
    · rw [deliver_memoryId]
      exact ht.owned b hb
    · exact ht.owned b hb
  counts kind' id' hmeta' := by
    obtain ⟨hcount, hlast⟩ := @count_deliver c.now { t with receipts } c.kind id hrow kind' id'
    obtain ⟨holdCount, holdLast⟩ := ht.counts kind' id' hmeta'
    rw [hcount, hlast]
    unfold AccessHistory.add
    split
    · next hown =>
        obtain ⟨rfl, rfl⟩ := hown
        have hpast : ∀ y ∈ (h c.kind id').map AccessCall.now, y ≤ c.now := by
          intro y hy
          obtain ⟨e, he, rfl⟩ := List.mem_map.mp hy
          exact (ht.past _ _ e he).2
        refine ⟨?_, ?_⟩
        · rw [List.length_append, ← holdCount]
          rfl
        · rw [List.map_append, List.map_singleton, max?_concat hpast]
          show some (laterOf (t.last c.kind id') c.now) = some c.now
          rw [holdLast, laterOf_max? hpast]
    · exact ⟨holdCount, holdLast⟩
  past kind' id' e he := by
    rcases AccessHistory.mem_add.mp he with he | ⟨-, rfl⟩
    · exact ht.past kind' id' e he
    · exact ⟨hmin, le_refl _⟩
  known r hr := by
    rcases hnew r hr with hr | ⟨hcut, op, hop, rfl⟩
    · obtain ⟨hlate, hrmeta, e, he, hhash, hat⟩ := ht.known r hr
      exact ⟨hlate, hrmeta, e, AccessHistory.mem_add.mpr (Or.inl he), hhash, hat⟩
    · exact ⟨hcut, hmeta, c, AccessHistory.mem_add.mpr (Or.inr ⟨⟨rfl, rfl⟩, rfl⟩), by rw [hop]; rfl, rfl⟩
  kept kind' id' hmeta' e he hlate op hop := by
    rcases AccessHistory.mem_add.mp he with he | ⟨⟨rfl, rfl⟩, rfl⟩
    · obtain ⟨r, hr, hfacts⟩ := ht.kept kind' id' hmeta' e he hlate op hop
      exact ⟨r, hold r hr, hfacts⟩
    · exact ⟨_, hown op hop, rfl, rfl, rfl, rfl⟩

/-- A receipt is in the way exactly of a call whose operation was counted within the window. -/
theorem Tells.unseen_iff (ht : Tells sha256 db (saturatingSub c.now RETRY_WINDOW) c.now h t)
    (hsha : Function.Injective sha256) (hmeta : db.hasMeta id = true) {op : String}
    (hop : c.operation = some op) : c.Unseen (h c.kind id) ↔
      (t.receipts.any fun r => r.operationHash == sha256 op && r.kind == c.kind && r.memoryId == id)
        = false := by
  rw [List.any_eq_false]
  constructor
  · intro hunseen r hr hmatch
    simp only [Bool.and_eq_true, beq_iff_eq] at hmatch
    obtain ⟨⟨hhash, hkind⟩, hid⟩ := hmatch
    obtain ⟨hlate, -, e, he, hehash, hat⟩ := ht.known r hr
    obtain ⟨op', hop', heq⟩ := Option.map_eq_some_iff.mp hehash
    have hsame : op' = op := hsha (heq.trans hhash)
    have hfar := hunseen op hop e (hid ▸ hkind ▸ he) (hsame ▸ hop')
    rw [saturatingSub] at hlate
    omega
  · intro hnone op' hop' e he heop
    obtain rfl : op = op' := Option.some.inj (hop.symm.trans hop')
    by_contra hnear
    have hmin := (ht.past _ _ e he).1
    obtain ⟨r, hr, hhash, hkind, hid, -⟩ := ht.kept c.kind id hmeta e he
      (by rw [saturatingSub]; omega) op heop
    exact hnone r hr (by simp [hhash, hkind, hid])

/-- What one memory of a call adds to the history. -/
def AccessHistory.step (h : AccessHistory) (c : AccessCall) (id : Int) : AccessHistory :=
  if c.Unseen (h c.kind id) then h.add c id else h

/-- What happens to a memory without metadata leaves no trace. -/
theorem Tells.foreign (ht : Tells sha256 db cut c.now h t) (hmin : I64_MIN ≤ c.now)
    (hmeta : db.hasMeta id = false) : Tells sha256 db cut c.now (h.step c id) t := by
  have hmem : ∀ kind' id' e, e ∈ h.step c id kind' id' → e ∈ h kind' id' ∨ e = c := by
    intro kind' id' e he
    unfold AccessHistory.step at he
    split at he
    · exact (AccessHistory.mem_add.mp he).imp_right And.right
    · exact Or.inl he
  have hsub : ∀ kind' id' e, e ∈ h kind' id' → e ∈ h.step c id kind' id' := by
    intro kind' id' e he
    unfold AccessHistory.step
    split
    · exact AccessHistory.mem_add.mpr (Or.inl he)
    · exact he
  have hsame : ∀ kind' id', db.hasMeta id' = true → h.step c id kind' id' = h kind' id' := by
    intro kind' id' hmeta'
    unfold AccessHistory.step
    split
    · rw [AccessHistory.add, if_neg fun hown => by rw [← hown.2, hmeta'] at hmeta; cases hmeta]
    · rfl
  refine ⟨ht.keys, ht.owned, fun kind' id' hmeta' => ?_, fun kind' id' e he => ?_, fun r hr => ?_,
    fun kind' id' hmeta' => ?_⟩
  · rw [hsame kind' id' hmeta']
    exact ht.counts kind' id' hmeta'
  · rcases hmem kind' id' e he with he | rfl
    · exact ht.past kind' id' e he
    · exact ⟨hmin, le_refl _⟩
  · obtain ⟨hlate, hrmeta, e, he, hfacts⟩ := ht.known r hr
    exact ⟨hlate, hrmeta, e, hsub _ _ e he, hfacts⟩
  · rw [hsame kind' id' hmeta']
    exact ht.kept kind' id' hmeta'

theorem recordOne_foreign (ht : Tells sha256 db cut now h t) (hmeta : db.hasMeta id = false)
    (op : Option String) : recordOne db kind op now t id = t := by
  have habsent : ∀ a ∈ t.access, a.memoryId ≠ id := by
    intro a ha heq
    have hown := ht.owned a ha
    rw [heq, hmeta] at hown
    cases hown
  have hobserve : t.observe db id now = t := by
    rw [AccessTables.observe, hmeta, Bool.false_and, if_neg Bool.false_ne_true]
  have hreceive : ∀ op, t.receive op kind id now = (0, t) := by
    intro op
    have hnone : (t.access.any fun a => a.memoryId == id) = false := by
      simpa [List.any_eq_false] using habsent
    rw [AccessTables.receive, hnone, Bool.false_and, if_neg Bool.false_ne_true]
  have hdeliver : t.deliver kind id now = t := by
    have hmap : (t.access.map fun a => if a.memoryId = id then a.deliver kind now else a) = t.access :=
      List.map_congr_left (fun a ha => if_neg (habsent a ha)) |>.trans (List.map_id' _)
    rw [AccessTables.deliver, hmap]
  unfold recordOne
  rw [hobserve]
  cases op with
  | none => exact hdeliver
  | some op =>
      dsimp only
      rw [hreceive]
      rfl

theorem Tells.recordOne (ht : Tells sha256 db (saturatingSub c.now RETRY_WINDOW) c.now h t)
    (hsha : Function.Injective sha256) (hmin : I64_MIN ≤ c.now) (id : Int) :
    Tells sha256 db (saturatingSub c.now RETRY_WINDOW) c.now (h.step c id)
      (recordOne db c.kind (c.operation.map sha256) c.now t id) := by
  cases hmeta : db.hasMeta id with
  | false =>
      rw [recordOne_foreign ht hmeta]
      exact ht.foreign hmin hmeta
  | true =>
      have hobserved := ht.observe id c.now
      have hrow := find?_observe (t := t) hmeta c.now
      unfold Access.recordOne
      generalize t.observe db id c.now = s at hobserved hrow
      cases hop : c.operation with
      | none =>
          have hunseen : c.Unseen (h c.kind id) := by
            intro op hop'
            rw [hop] at hop'
            cases hop'
          rw [AccessHistory.step, if_pos hunseen]
          refine hobserved.deliver hmeta hrow hmin (fun r hr => hr) (fun r hr => Or.inl hr) fun op hop' => ?_
          rw [hop] at hop'
          cases hop'
      | some op =>
          have hiff := hobserved.unseen_iff hsha hmeta hop
          have hany : (s.access.any fun a => a.memoryId == id) = true := by
            simpa [List.find?_isSome] using hrow
          dsimp only [Option.map_some]
          rw [AccessTables.receive, hany, Bool.true_and]
          by_cases hunseen : c.Unseen (h c.kind id)
          · rw [AccessHistory.step, if_pos hunseen, hiff.mp hunseen, Bool.not_false, if_pos rfl]
            refine hobserved.deliver hmeta hrow hmin (fun r hr => List.mem_append_left _ hr)
              (fun r hr => ?_) fun op' hop' => ?_
            · rcases List.mem_append.mp hr with hr | hr
              · exact Or.inl hr
              · refine Or.inr ⟨?_, op, hop, List.mem_singleton.mp hr⟩
                rw [saturatingSub, RETRY_WINDOW]
                omega
            · obtain rfl : op = op' := Option.some.inj (hop.symm.trans hop')
              exact List.mem_append_right _ (List.mem_singleton.mpr rfl)
          · have hseen := mt hiff.mpr hunseen
            rw [Bool.not_eq_false] at hseen
            rw [AccessHistory.step, if_neg hunseen, hseen, Bool.not_true, if_neg Bool.false_ne_true]
            exact hobserved

end Steps

/-! ## Runs

A call takes its memories in ascending order, each once. The step lemma is applied along this
list, and the result along the calls, whose times do not decrease. -/

/-- Tables without deliveries. -/
structure AccessTables.Fresh (db : Database) (t : AccessTables) : Prop where
  keys : t.access.Pairwise fun a b => a.memoryId ≠ b.memoryId
  owned : ∀ a ∈ t.access, db.hasMeta a.memoryId = true
  counts : ∀ a ∈ t.access, ∀ kind, a.count kind = 0 ∧ a.last kind = none
  receipts : t.receipts = []

section Runs

variable {sha256 : String → String} {db : Database} {cut now : Int} {h : AccessHistory} {t t' : AccessTables}
  {kind : Delivery} {id : Int} {c : AccessCall} {calls : List AccessCall}

theorem AccessTables.Fresh.tells (ht : t.Fresh db) :
    Tells sha256 db I64_MIN I64_MIN (fun _ _ => []) t where
  keys := ht.keys
  owned := ht.owned
  counts kind id _ := by
    rw [AccessTables.count, AccessTables.last]
    cases hfind : t.access.find? fun a => a.memoryId = id with
    | none => exact ⟨rfl, rfl⟩
    | some a => exact ht.counts a (List.mem_of_find?_eq_some hfind) kind
  past _ _ _ hc := by cases hc
  known r hr := by
    rw [ht.receipts] at hr
    cases hr
  kept _ _ _ _ hc := by cases hc

theorem foldl_recordOne (hsha : Function.Injective sha256) (hmin : I64_MIN ≤ c.now) (ids : List Int)
    (ht : Tells sha256 db (saturatingSub c.now RETRY_WINDOW) c.now h t) :
    Tells sha256 db (saturatingSub c.now RETRY_WINDOW) c.now
      (ids.foldl (fun h id => h.step c id) h)
      (ids.foldl (recordOne db c.kind (c.operation.map sha256) c.now) t) := by
  induction ids generalizing h t with
  | nil => exact ht
  | cons id ids ih => exact ih (ht.recordOne hsha hmin id)

theorem AccessHistory.step_other {id' : Int} (hne : id' ≠ id) : h.step c id' kind id = h kind id := by
  unfold AccessHistory.step
  split
  · rw [AccessHistory.add, if_neg fun hown => hne hown.2.symm]
  · rfl

/-- Every memory of a call is looked at once. -/
theorem foldl_step {ids : List Int} (hnodup : ids.Nodup) (h : AccessHistory) (kind : Delivery) (id : Int) :
    ids.foldl (fun h id => h.step c id) h kind id
      = if c.kind = kind ∧ id ∈ ids ∧ c.Unseen (h kind id) then h kind id ++ [c] else h kind id := by
  induction ids generalizing h with
  | nil => simp
  | cons id' ids ih =>
      rw [List.nodup_cons] at hnodup
      rw [List.foldl_cons, ih hnodup.2]
      by_cases hid : id' = id
      · subst hid
        rw [if_neg fun hmem => hnodup.1 hmem.2.1, AccessHistory.step]
        by_cases hkind : c.kind = kind
        · subst hkind
          simp only [List.mem_cons_self, true_and]
          split
          · rw [AccessHistory.add, if_pos ⟨rfl, rfl⟩]
          · rfl
        · simp only [hkind, false_and, if_false]
          split
          · rw [AccessHistory.add, if_neg fun hown => hkind hown.1.symm]
          · rfl
      · rw [AccessHistory.step_other hid]
        simp only [List.mem_cons, Ne.symm hid, false_or]

theorem countedCalls_concat : countedCalls kind id (calls ++ [c])
    = if c.Counts kind id (countedCalls kind id calls) then countedCalls kind id calls ++ [c]
      else countedCalls kind id calls := by
  rw [countedCalls, List.foldl_append]
  rfl

/-- One call, whose time is not before that of the tables. -/
theorem Tells.record (hsha : Function.Injective sha256)
    (ht : Tells sha256 db cut now (fun kind id => countedCalls kind id calls) t)
    (hmin : I64_MIN ≤ c.now) (hnow : now ≤ c.now) (hcut : cut ≤ saturatingSub c.now RETRY_WINDOW)
    (hne : c.ids ≠ []) (hlen : c.ids.length ≤ MAX_DELIVERY_IDS) :
    ∃ t', record sha256 db c t = .ok t' ∧ Tells sha256 db (saturatingSub c.now RETRY_WINDOW) c.now
      (fun kind id => countedCalls kind id (calls ++ [c])) t' := by
  have hempty : c.ids.isEmpty = false := by simpa using hne
  have hnodup : (c.ids.dedup.insertionSort (· ≤ ·)).Nodup :=
    (List.perm_insertionSort _ _).nodup_iff.mpr (List.nodup_dedup _)
  have hloop := foldl_recordOne hsha hmin (c.ids.dedup.insertionSort (· ≤ ·)) (ht.expire hnow hcut)
  have hhistory : ((c.ids.dedup.insertionSort (· ≤ ·)).foldl (fun h id => AccessHistory.step h c id)
      fun kind id => countedCalls kind id calls) = fun kind id => countedCalls kind id (calls ++ [c]) := by
    funext kind id
    rw [foldl_step hnodup, countedCalls_concat]
    refine if_congr ?_ rfl rfl
    rw [AccessCall.Counts, List.mem_insertionSort, List.mem_dedup]
  rw [hhistory] at hloop
  refine ⟨_, ?_, hloop⟩
  rw [Access.record, hempty, if_neg Bool.false_ne_true, decide_eq_true hlen]
  rfl

/-- The tables after a run of calls. -/
theorem recordAll_tells (hsha : Function.Injective sha256) (ht : t.Fresh db)
    (hsorted : calls.Pairwise fun a b => a.now ≤ b.now) (hmin : ∀ c ∈ calls, I64_MIN ≤ c.now)
    (hlen : ∀ c ∈ calls, c.ids.length ≤ MAX_DELIVERY_IDS) :
    ∃ cut now, Tells sha256 db cut now (fun kind id => countedCalls kind id calls)
        (recordAll sha256 db calls t) ∧
      ∀ later, I64_MIN ≤ later → (∀ c ∈ calls, c.now ≤ later) →
        now ≤ later ∧ cut ≤ saturatingSub later RETRY_WINDOW := by
  induction calls using List.reverseRecOn with
  | nil => exact ⟨I64_MIN, I64_MIN, ht.tells, fun later hlater _ => ⟨hlater, le_max_right _ _⟩⟩
  | append_singleton calls c ih =>
      obtain ⟨hpast, -, hbefore⟩ := List.pairwise_append.mp hsorted
      have hc : c ∈ calls ++ [c] := by simp
      have hold : ∀ e ∈ calls, e ∈ calls ++ [c] := fun e he => List.mem_append_left _ he
      obtain ⟨cut, now, htells, hlate⟩ := ih hpast (fun e he => hmin e (hold e he))
        fun e he => hlen e (hold e he)
      have hrun : recordAll sha256 db (calls ++ [c]) t
          = (record sha256 db c (recordAll sha256 db calls t)).toOption.getD
            (recordAll sha256 db calls t) := by
        rw [recordAll, List.foldl_append]
        rfl
      rw [hrun]
      by_cases hne : c.ids = []
      · -- a call without ids returns before it looks at the receipts
        refine ⟨cut, now, ?_, fun later hlater hall => hlate later hlater fun e he => hall e (hold e he)⟩
        have hcounted : (fun kind id => countedCalls kind id (calls ++ [c]))
            = fun kind id => countedCalls kind id calls := by
          funext kind id
          rw [countedCalls_concat, if_neg fun hcounts => by
            have hmem := hcounts.2.1
            rw [hne] at hmem
            cases hmem]
        rw [hcounted, record, hne]
        exact htells
      · obtain ⟨hnow, hcut⟩ := hlate c.now (hmin c hc) fun e he => hbefore e he c (by simp)
        obtain ⟨t', hrecord, htells'⟩ := htells.record hsha (hmin c hc) hnow hcut hne (hlen c hc)
        rw [hrecord]
        refine ⟨_, _, htells', fun later hlater hall => ⟨hall c hc, ?_⟩⟩
        exact max_le_max (by have := hall c hc; omega) (le_refl _)

/-- Every delivery is counted once for each window of its operation. -/
theorem recordAll_counts (hsha : Function.Injective sha256) (ht : t.Fresh db)
    (hsorted : calls.Pairwise fun a b => a.now ≤ b.now) (hmin : ∀ c ∈ calls, I64_MIN ≤ c.now)
    (hlen : ∀ c ∈ calls, c.ids.length ≤ MAX_DELIVERY_IDS) :
    (∀ kind id, db.hasMeta id = true →
      (recordAll sha256 db calls t).count kind id = (countedCalls kind id calls).length ∧
        (recordAll sha256 db calls t).last kind id
          = ((countedCalls kind id calls).map AccessCall.now).max?) ∧
    ∀ id, db.hasMeta id = false → (∀ a ∈ (recordAll sha256 db calls t).access, a.memoryId ≠ id) ∧
      ∀ r ∈ (recordAll sha256 db calls t).receipts, r.memoryId ≠ id := by
  obtain ⟨cut, now, htells, -⟩ := recordAll_tells hsha ht hsorted hmin hlen
  refine ⟨htells.counts, fun id hmeta => ⟨fun a ha heq => ?_, fun r hr heq => ?_⟩⟩
  · have hown := htells.owned a ha
    rw [heq, hmeta] at hown
    cases hown
  · have hown := (htells.known r hr).2.1
    rw [heq, hmeta] at hown
    cases hown

end Runs

/-! ### One memory -/

/-- A digest that tells texts apart. -/
def plainHash (s : String) : String := s

def oneMemory : Database :=
  ({} : Database).insertRow "memory_meta" (jsonObject [("memory_id", .int 1)])

theorem fresh_empty (db : Database) : ({} : AccessTables).Fresh db where
  keys := List.Pairwise.nil
  owned _ ha := by cases ha
  counts _ ha := by cases ha
  receipts := rfl

/-- A call that lists the memory too often is refused. -/
def oversizedCall : AccessCall := ⟨.recall, List.replicate 10001 1, none, 100⟩

theorem record_refuses_oversized : ¬ ∀ (calls : List AccessCall),
    calls.Pairwise (fun a b => a.now ≤ b.now) → (∀ c ∈ calls, I64_MIN ≤ c.now) →
      ∀ kind id, oneMemory.hasMeta id = true →
        (recordAll plainHash oneMemory calls {}).count kind id = (countedCalls kind id calls).length := by
  intro hall
  have hlen : decide (oversizedCall.ids.length ≤ MAX_DELIVERY_IDS) = false := by
    rw [oversizedCall, List.length_replicate]
    decide
  have hempty : oversizedCall.ids.isEmpty = false := by
    rw [oversizedCall, List.replicate_succ]
    rfl
  have hrefused : recordAll plainHash oneMemory [oversizedCall] {} = {} := by
    rw [recordAll, List.foldl_cons, List.foldl_nil, record, hempty, if_neg Bool.false_ne_true, hlen]
    rfl
  have hcounted : countedCalls .recall 1 [oversizedCall] = [oversizedCall] := by
    have hcounts : oversizedCall.Counts .recall 1 [] := by
      refine ⟨rfl, ?_, fun op hop => by cases hop⟩
      rw [oversizedCall, List.mem_replicate]
      decide
    rw [countedCalls, List.foldl_cons, List.foldl_nil, if_pos hcounts, List.nil_append]
  have heq := hall [oversizedCall] (List.pairwise_singleton _ _)
    (fun c hc => by rw [List.mem_singleton.mp hc]; decide) .recall 1 (by decide +kernel)
  rw [hrefused, hcounted] at heq
  cases heq

/-- A retry on the last day, and one after it. -/
def retries : List AccessCall :=
  [⟨.recall, [1, 1], some "one", 100⟩, ⟨.recall, [1], some "one", 604900⟩,
    ⟨.recall, [1], some "one", 604901⟩]

theorem recordAll_counts_retries :
    (∀ kind id, oneMemory.hasMeta id = true →
      (recordAll plainHash oneMemory retries {}).count kind id = (countedCalls kind id retries).length ∧
        (recordAll plainHash oneMemory retries {}).last kind id
          = ((countedCalls kind id retries).map AccessCall.now).max?) ∧
    ∀ id, oneMemory.hasMeta id = false →
      (∀ a ∈ (recordAll plainHash oneMemory retries {}).access, a.memoryId ≠ id) ∧
        ∀ r ∈ (recordAll plainHash oneMemory retries {}).receipts, r.memoryId ≠ id :=
  recordAll_counts (fun _ _ h => h) (fresh_empty _) (by decide) (by decide) (by decide)

example : countedCalls .recall 1 retries
    = [⟨.recall, [1, 1], some "one", 100⟩, ⟨.recall, [1], some "one", 604901⟩] := by decide

end Access

end IronMem
