import IronMem.JsonLossless
import IronMem.Sync

/-!
# Replicas of the sync log

Two stores that start empty and import the same events. `import_events` is
idempotent by event id, but it writes its own `created_at`, `prev_hash` and
`event_hash`: the hash of an event chains it to the latest event of its project
the store has by then, and a lamport is split by the local clock. So the order of
arrival shows. Which of it does is said on the deliveries alone: the order the
first arrivals list in, and the predecessor every event found when it arrived.

A store is compared with the arrivals that made it (`Recorded`): every row is that of
an arrival, chained to the predecessor the event found (`Recorded.prevHash`), and what
arrives later does not change that (`predecessor_append`). From there the two
directions differ:

- Where every event found the same predecessor in both stores, the rows agree, by
  induction along the arrivals of one of them (`Recorded.shared_eq`): the row of a
  predecessor has arrived before.
- Where the rows agree, so do the hashes they are chained to, and under a lossless
  codec a hash tells whose it is (`Recorded.predecessor_eq`).

A listing after a lamport is a part of the listing of everything, so whole logs decide
(`listings_eq_iff`).
-/

namespace IronMem

/-! ## Deliveries -/

/-- An event that reaches a store, with the clock reading of its insertion. -/
abbrev Delivery := SyncEvent × Int

/-- Batch after batch, into an empty store. -/
def receive (codec : Codec) (batches : List (List Delivery)) : SyncEvents :=
  batches.foldl (importEvents codec) .empty

/-- What two replicas should agree on: all but the columns that are local. -/
def SyncEvent.shared (e : SyncEvent) : SyncEvent :=
  { e with payloadHash := none, signer := none, createdAt := 0, appliedAt := none }

/-- The two stores list the same events in the same order. -/
def Converged (codec : Codec) (batches batches' : List (List Delivery)) : Prop :=
  ∀ after, (listSyncEvents (receive codec batches) none after (-1)).map SyncEvent.shared
    = (listSyncEvents (receive codec batches') none after (-1)).map SyncEvent.shared

/-- The deliveries that count: the first of every id. -/
def arrivals (deliveries : List Delivery) : List Delivery :=
  deliveries.foldl (fun seen d =>
    if d.1.eventId ∈ seen.map (fun s => s.1.eventId) then seen else seen ++ [d]) []

def arrivalOrder (d : Delivery) : Int ×ₗ Int := toLex (d.1.lamport, d.2)

/-- The ids in the order of a listing. -/
def listedIds (seen : List Delivery) : List String :=
  (RowDiff.sortBy arrivalOrder seen).map fun d => d.1.eventId

/-- The latest event of the same project among those that arrived before. -/
def predecessor (seen : List Delivery) (e : SyncEvent) : Option String :=
  ((RowDiff.sortBy arrivalOrder ((seen.takeWhile fun d => d.1.eventId != e.eventId).filter fun d =>
    d.1.project == e.project)).getLast?).map fun d => d.1.eventId

/-! ## What a store has recorded

A store holds one row for each first arrival. Its hash covers the columns of the event and the
hash of the row before, so rows are compared through their predecessors. -/

section Recorded

variable {codec : Codec} {log log' : SyncEvents} {seen seen' : List Delivery}

/-- The log after these arrivals. -/
inductive Recorded (codec : Codec) : SyncEvents → List Delivery → Prop
  | empty : Recorded codec .empty []
  | arrive {log log' : SyncEvents} {seen : List Delivery} {e : SyncEvent} {now : Int}
      (h : Recorded codec log seen) (hnew : e.eventId ∉ log.rows.map SyncEvent.eventId)
      (hrows : log'.rows = log.rows ++ [newSyncEvent codec now log e]) :
      Recorded codec log' (seen ++ [(e, now)])

/-- The row of an arrival: the columns of the event, the local clock, and a hash over
the predecessor's. -/
structure RowOf (codec : Codec) (row : SyncEvent) (d : Delivery) : Prop where
  eventId : row.eventId = d.1.eventId
  nodeId : row.nodeId = d.1.nodeId
  project : row.project = d.1.project
  lamport : row.lamport = d.1.lamport
  opType : row.opType = d.1.opType
  payload : row.payload = d.1.payload
  createdAt : row.createdAt = d.2
  eventHash : row.eventHash = some (syncEventHash codec d.1.eventId d.1.nodeId d.1.project
    d.1.lamport d.1.opType (codec.digest (utf8 d.1.payload)) row.prevHash)

theorem RowOf.order {row : SyncEvent} {d : Delivery} (h : RowOf codec row d) :
    row.order = arrivalOrder d := by
  rw [SyncEvent.order, arrivalOrder, h.lamport, h.createdAt]

theorem rowOf_newSyncEvent (codec : Codec) (now : Int) (log : SyncEvents) (e : SyncEvent) :
    RowOf codec (newSyncEvent codec now log e) (e, now) :=
  ⟨rfl, rfl, rfl, rfl, rfl, rfl, rfl, rfl⟩

theorem Recorded.rows (h : Recorded codec log seen) :
    List.Forall₂ (RowOf codec) log.rows seen := by
  induction h with
  | empty => exact .nil
  | @arrive log log' seen e now _ _ hrows ih =>
      rw [hrows]
      exact List.rel_append ih (.cons (rowOf_newSyncEvent codec now log e) .nil)

theorem map_eventId_of_rows {rows : List SyncEvent} (h : List.Forall₂ (RowOf codec) rows seen) :
    rows.map SyncEvent.eventId = seen.map fun d => d.1.eventId := by
  induction h with
  | nil => rfl
  | cons hrow _ ih => rw [List.map_cons, List.map_cons, hrow.eventId, ih]

theorem Recorded.eventIds (h : Recorded codec log seen) :
    log.rows.map SyncEvent.eventId = seen.map fun d => d.1.eventId :=
  map_eventId_of_rows h.rows

theorem Recorded.exists_rowOf (h : Recorded codec log seen) {row : SyncEvent}
    (hrow : row ∈ log.rows) : ∃ d ∈ seen, RowOf codec row d := by
  obtain ⟨i, hi, rfl⟩ := List.mem_iff_getElem.mp hrow
  obtain ⟨hlen, hget⟩ := List.forall₂_iff_get.mp h.rows
  exact ⟨seen.get ⟨i, hlen ▸ hi⟩, List.get_mem .., hget i hi (hlen ▸ hi)⟩

theorem Recorded.nodup (h : Recorded codec log seen) : (seen.map fun d => d.1.eventId).Nodup :=
  h.eventIds ▸ log.unique

/-- Importing records the first arrivals. -/
theorem Recorded.import (h : Recorded codec log seen) (deliveries : List Delivery) :
    Recorded codec (importEvents codec log deliveries) (deliveries.foldl (fun seen d =>
      if d.1.eventId ∈ seen.map (fun s => s.1.eventId) then seen else seen ++ [d]) seen) := by
  induction deliveries generalizing log seen with
  | nil => exact h
  | cons d deliveries ih =>
      rw [importEvents, List.foldl_cons, List.foldl_cons]
      refine ih ?_
      by_cases hmem : d.1.eventId ∈ log.rows.map SyncEvent.eventId
      · rw [if_pos (h.eventIds ▸ hmem)]
        simpa [insertSyncEvent, hmem] using h
      · rw [if_neg (h.eventIds ▸ hmem)]
        refine h.arrive hmem ?_
        simp [insertSyncEvent, hmem]

theorem recorded_receive (codec : Codec) (batches : List (List Delivery)) :
    Recorded codec (receive codec batches) (arrivals batches.flatten) := by
  have hflat : receive codec batches = importEvents codec .empty batches.flatten := by
    rw [receive, importEvents, List.foldl_flatten]
    rfl
  rw [hflat]
  exact Recorded.import .empty _

/-! ### The predecessor

The predecessor of an event is that of its project with the highest lamport among the earlier
arrivals, the latest of these by the local clock. It is fixed when the event arrives. -/

theorem forall₂_getLast? {α β : Type} {R : α → β → Prop} {l : List α} {l' : List β}
    (h : List.Forall₂ R l l') : Option.Rel R l.getLast? l'.getLast? := by
  induction h with
  | nil => exact .none
  | @cons a b l l' hab hl ih =>
      rw [List.getLast?_cons, List.getLast?_cons]
      cases hl with
      | nil => exact .some hab
      | cons _ _ => simpa [List.getLast?_cons] using ih

theorem rows_project (h : Recorded codec log seen) (project : Option String) :
    List.Forall₂ (RowOf codec)
      (RowDiff.sortBy SyncEvent.order
        (log.rows.filter fun e => e.project == project && e.eventHash.isSome))
      (RowDiff.sortBy arrivalOrder (seen.filter fun d => d.1.project == project)) := by
  refine RowDiff.forall₂_insertionSort (R := RowOf codec) (fun r r' d d' hr hr' => ?_) ?_
  · rw [hr.order, hr'.order]
  · refine List.rel_filter (fun r d hr => ?_) h.rows
    simp [hr.project, hr.eventHash]

/-- The hash a new event is chained to is that of its predecessor's row. -/
theorem latestSyncEventHash_eq (h : Recorded codec log seen) (project : Option String) :
    ((RowDiff.sortBy arrivalOrder (seen.filter fun d => d.1.project == project)).getLast? = none ∧
        latestSyncEventHash log project = none) ∨
      ∃ d p, (RowDiff.sortBy arrivalOrder
          (seen.filter fun d => d.1.project == project)).getLast? = some d ∧
        p ∈ log.rows ∧ RowOf codec p d ∧ latestSyncEventHash log project = p.eventHash := by
  rw [latestSyncEventHash]
  have hrel := forall₂_getLast? (rows_project h project)
  cases hlast : (RowDiff.sortBy SyncEvent.order
      (log.rows.filter fun e => e.project == project && e.eventHash.isSome)).getLast? with
  | none =>
      rw [hlast] at hrel
      cases hd : (RowDiff.sortBy arrivalOrder
          (seen.filter fun d => d.1.project == project)).getLast? with
      | none => exact Or.inl ⟨rfl, rfl⟩
      | some d => rw [hd] at hrel; cases hrel
  | some p =>
      rw [hlast] at hrel
      cases hd : (RowDiff.sortBy arrivalOrder
          (seen.filter fun d => d.1.project == project)).getLast? with
      | none => rw [hd] at hrel; cases hrel
      | some d =>
          rw [hd] at hrel
          cases hrel with
          | some hrow =>
              have hmem := List.mem_of_getLast? hlast
              rw [RowDiff.mem_sortBy, List.mem_filter] at hmem
              exact Or.inr ⟨d, p, rfl, hmem.1, hrow, rfl⟩

theorem takeWhile_new {e : SyncEvent} (h : e.eventId ∉ seen.map fun d => d.1.eventId)
    (after : List Delivery) {now : Int} :
    (seen ++ (e, now) :: after).takeWhile (fun d => d.1.eventId != e.eventId) = seen := by
  rw [List.takeWhile_append_of_pos, List.takeWhile_cons_of_neg (by simp), List.append_nil]
  intro d hd
  rw [bne_iff_ne]
  exact fun heq => h (heq ▸ List.mem_map_of_mem hd)

/-- Later arrivals do not change what an event found. -/
theorem predecessor_append {e : SyncEvent} (h : e.eventId ∈ seen.map fun d => d.1.eventId)
    (after : List Delivery) : predecessor (seen ++ after) e = predecessor seen e := by
  rw [predecessor, predecessor, List.takeWhile_append, if_neg]
  intro hlen
  have hall := List.takeWhile_eq_self_iff.mp ((List.takeWhile_prefix _).eq_of_length hlen)
  obtain ⟨d, hd, heq⟩ := List.mem_map.mp h
  simpa [heq] using hall d hd

theorem predecessor_newest (h : Recorded codec log seen) {e : SyncEvent} {now : Int}
    (hnew : e.eventId ∉ log.rows.map SyncEvent.eventId) :
    (predecessor (seen ++ [(e, now)]) e = none ∧ (newSyncEvent codec now log e).prevHash = none) ∨
      ∃ p ∈ log.rows, predecessor (seen ++ [(e, now)]) e = some p.eventId ∧
        (newSyncEvent codec now log e).prevHash = p.eventHash := by
  rw [h.eventIds] at hnew
  rw [predecessor, takeWhile_new hnew]
  rcases latestSyncEventHash_eq h e.project with ⟨hnone, hhash⟩ | ⟨d, p, hsome, hp, hrow, hhash⟩
  · rw [hnone]
    exact Or.inl ⟨rfl, hhash⟩
  · rw [hsome]
    exact Or.inr ⟨p, hp, by rw [Option.map_some, hrow.eventId], hhash⟩

/-- Every row is chained to the predecessor of its event. -/
theorem Recorded.prevHash (h : Recorded codec log seen) {row : SyncEvent} {d : Delivery}
    (hrow : row ∈ log.rows) (hd : d ∈ seen) (hid : row.eventId = d.1.eventId) :
    (predecessor seen d.1 = none ∧ row.prevHash = none) ∨
      ∃ p ∈ log.rows, predecessor seen d.1 = some p.eventId ∧ row.prevHash = p.eventHash := by
  induction h with
  | empty => exact absurd hd List.not_mem_nil
  | @arrive log log' seen e now h hnew hrows ih =>
      rw [hrows, List.mem_append, List.mem_singleton] at hrow
      rw [List.mem_append, List.mem_singleton] at hd
      have hseen := hnew
      rw [h.eventIds] at hseen
      rw [hrows]
      rcases hrow with hrow | rfl
      · have hd : d ∈ seen := by
          rcases hd with hd | rfl
          · exact hd
          · exact absurd (hid ▸ List.mem_map_of_mem hrow) hnew
        rw [predecessor_append (List.mem_map_of_mem hd)]
        rcases ih hrow hd with hnone | ⟨p, hp, hfound⟩
        · exact Or.inl hnone
        · exact Or.inr ⟨p, List.mem_append_left _ hp, hfound⟩
      · have hd : d = (e, now) := by
          rcases hd with hd | hd
          · exact absurd (List.mem_map.mpr ⟨d, hd, hid.symm⟩) hseen
          · exact hd
        subst hd
        rcases predecessor_newest h hnew with hnone | ⟨p, hp, hfound⟩
        · exact Or.inl hnone
        · exact Or.inr ⟨p, List.mem_append_left _ hp, hfound⟩

theorem RowOf.shared_eq {row row' : SyncEvent} {d d' : Delivery} (h : RowOf codec row d)
    (h' : RowOf codec row' d') (hevent : d.1 = d'.1) (hprev : row.prevHash = row'.prevHash) :
    row.shared = row'.shared := by
  have hhash : row.eventHash = row'.eventHash := by rw [h.eventHash, h'.eventHash, hevent, hprev]
  simp only [SyncEvent.shared, h.eventId, h.nodeId, h.project, h.lamport, h.opType, h.payload,
    h'.eventId, h'.nodeId, h'.project, h'.lamport, h'.opType, h'.payload, hevent, hprev, hhash]

/-- Where every event found the same predecessor, the rows agree: by induction on the
arrivals of one store, a predecessor's row agrees already. -/
theorem Recorded.shared_eq (h : Recorded codec log seen) (h' : Recorded codec log' seen')
    (hsame : ∀ d ∈ seen, ∃ d' ∈ seen', d'.1 = d.1)
    (hpred : ∀ d ∈ seen, predecessor seen d.1 = predecessor seen' d.1) :
    ∀ row ∈ log.rows, ∀ row' ∈ log'.rows, row.eventId = row'.eventId →
      row.shared = row'.shared := by
  induction h with
  | empty => exact fun row hrow => absurd hrow List.not_mem_nil
  | @arrive log log₁ seen e now h hnew hrows ih =>
      have ih := ih (fun d hd => hsame d (List.mem_append_left _ hd)) fun d hd => by
        rw [← hpred d (List.mem_append_left _ hd),
          predecessor_append (List.mem_map_of_mem hd)]
      intro row hrow row' hrow' hid
      rw [hrows, List.mem_append, List.mem_singleton] at hrow
      rcases hrow with hrow | rfl
      · exact ih row hrow row' hrow' hid
      · have hlast : (e, now) ∈ seen ++ [(e, now)] := by simp
        obtain ⟨d', hd', hevent⟩ := hsame (e, now) hlast
        have hid' : row'.eventId = d'.1.eventId := by rw [← hid, hevent]; rfl
        -- the row of an id is the row of its arrival
        have hrowOf : RowOf codec row' d' := by
          obtain ⟨d'', hd'', hr⟩ := h'.exists_rowOf hrow'
          have heq := List.inj_on_of_nodup_map h'.nodup hd'' hd' (hr.eventId.symm.trans hid')
          exact heq ▸ hr
        refine (rowOf_newSyncEvent codec now log e).shared_eq hrowOf hevent.symm ?_
        have hpred := hpred (e, now) hlast
        have hprev' := h'.prevHash hrow' hd' hid'
        rw [hevent, ← hpred] at hprev'
        rcases @predecessor_newest codec log seen h e now hnew with ⟨hnone, hprev⟩ | ⟨p, hp, hsome, hprev⟩
        · rcases hprev' with ⟨-, hprev'⟩ | ⟨p', -, hsome', -⟩
          · rw [hprev, hprev']
          · rw [hnone] at hsome'; cases hsome'
        · rcases hprev' with ⟨hnone', -⟩ | ⟨p', hp', hsome', hprev'⟩
          · rw [hsome] at hnone'; cases hnone'
          · have hshared := ih p hp p' hp' (Option.some.inj (hsome.symm.trans hsome'))
            have hhash : p.shared.eventHash = p'.shared.eventHash := by rw [hshared]
            rw [hprev, hprev']
            exact hhash

/-! ### The listing -/

theorem listSyncEvents_all (log : SyncEvents) (after : Int) :
    listSyncEvents log none after (-1)
      = (RowDiff.sortBy SyncEvent.order log.rows).filter fun e => decide (after < e.lamport) := by
  have hmatching : log.matching none = log.rows := by simp [SyncEvents.matching]
  rw [listSyncEvents, limitRows, if_pos (by decide), hmatching, RowDiff.sortBy_filter]

theorem exists_lt_lamport (rows : List SyncEvent) : ∃ after, ∀ e ∈ rows, after < e.lamport := by
  induction rows with
  | nil => exact ⟨0, by simp⟩
  | cons e rows ih =>
      obtain ⟨after, hafter⟩ := ih
      refine ⟨min after (e.lamport - 1), fun e' he' => ?_⟩
      rcases List.mem_cons.mp he' with rfl | he'
      · omega
      · have := hafter e' he'
        omega

/-- Whole logs decide: a listing after some lamport is a part of the whole. -/
theorem listings_eq_iff : (∀ after, (listSyncEvents log none after (-1)).map SyncEvent.shared
      = (listSyncEvents log' none after (-1)).map SyncEvent.shared) ↔
    (RowDiff.sortBy SyncEvent.order log.rows).map SyncEvent.shared
      = (RowDiff.sortBy SyncEvent.order log'.rows).map SyncEvent.shared := by
  simp only [listSyncEvents_all]
  constructor
  · intro h
    obtain ⟨after, hafter⟩ := exists_lt_lamport (log.rows ++ log'.rows)
    have hall : ∀ rows : List SyncEvent, rows ⊆ log.rows ++ log'.rows →
        (RowDiff.sortBy SyncEvent.order rows).filter (fun e => decide (after < e.lamport))
          = RowDiff.sortBy SyncEvent.order rows := fun rows hrows =>
      List.filter_eq_self.mpr fun e he =>
        decide_eq_true (hafter e (hrows ((RowDiff.mem_sortBy _).mp he)))
    have h := h after
    rwa [hall _ (List.subset_append_left ..), hall _ (List.subset_append_right ..)] at h
  · intro h after
    have hfilter : ∀ rows : List SyncEvent, (rows.filter fun e => decide (after < e.lamport)).map
        SyncEvent.shared = (rows.map SyncEvent.shared).filter fun e => decide (after < e.lamport) :=
      fun rows => by rw [List.filter_map]; rfl
    rw [hfilter, hfilter, h]

theorem Recorded.map_eventId (h : Recorded codec log seen) :
    (RowDiff.sortBy SyncEvent.order log.rows).map SyncEvent.eventId = listedIds seen := by
  refine @map_eventId_of_rows codec _ _ ?_
  refine RowDiff.forall₂_insertionSort (fun r r' d d' hr hr' => ?_) h.rows
  rw [hr.order, hr'.order]

theorem syncEventHash_inj (hlossless : codec.Lossless) {a b : Delivery} {prev prev' : Option String}
    (h : syncEventHash codec a.1.eventId a.1.nodeId a.1.project a.1.lamport a.1.opType
        (codec.digest (utf8 a.1.payload)) prev
      = syncEventHash codec b.1.eventId b.1.nodeId b.1.project b.1.lamport b.1.opType
        (codec.digest (utf8 b.1.payload)) prev') : a.1.eventId = b.1.eventId := by
  have hflat : ∀ (d : Delivery) (prev : Option String), Record.Flat (jsonObject [
      ("event_id", .str d.1.eventId), ("lamport", .int d.1.lamport), ("node_id", .str d.1.nodeId),
      ("op_type", .str d.1.opType), ("payload_hash", .str (codec.digest (utf8 d.1.payload))),
      ("prev_hash", Value.ofOptionStr prev), ("project", Value.ofOptionStr d.1.project),
      ("signer", .str d.1.nodeId)]) := by
    intro d prev
    refine flat_jsonObject ?_
    simp only [List.mem_cons, List.not_mem_nil, or_false, forall_eq_or_imp, forall_eq]
    exact ⟨trivial, trivial, trivial, trivial, trivial, flat_ofOptionStr _, flat_ofOptionStr _,
      trivial⟩
  have hid := congrArg (Record.col · "event_id") (hlossless.hash_inj (hflat a prev) (hflat b prev') h)
  simpa [jsonObject] using hid

/-- Rows that agree were chained to the same predecessor. -/
theorem Recorded.predecessor_eq (hlossless : codec.Lossless) (h : Recorded codec log seen)
    (h' : Recorded codec log' seen') {row row' : SyncEvent} {d d' : Delivery}
    (hrow : row ∈ log.rows) (hrow' : row' ∈ log'.rows) (hd : d ∈ seen) (hd' : d' ∈ seen')
    (hid : row.eventId = d.1.eventId) (hid' : row'.eventId = d'.1.eventId)
    (hprev : row.prevHash = row'.prevHash) : predecessor seen d.1 = predecessor seen' d'.1 := by
  have hhash : ∀ {log : SyncEvents} {seen : List Delivery} {p : SyncEvent},
      Recorded codec log seen → p ∈ log.rows → p.eventHash ≠ none := by
    intro log seen p h hp
    obtain ⟨d, -, hr⟩ := h.exists_rowOf hp
    rw [hr.eventHash]
    nofun
  rcases h.prevHash hrow hd hid with ⟨hnone, hfound⟩ | ⟨p, hp, hsome, hfound⟩
  · rcases h'.prevHash hrow' hd' hid' with ⟨hnone', -⟩ | ⟨p', hp', -, hfound'⟩
    · rw [hnone, hnone']
    · exact absurd (hfound'.symm.trans (hprev.symm.trans hfound)) (hhash h' hp')
  · rcases h'.prevHash hrow' hd' hid' with ⟨-, hfound'⟩ | ⟨p', hp', hsome', hfound'⟩
    · exact absurd (hfound.symm.trans (hprev.trans hfound')) (hhash h hp)
    · obtain ⟨q, -, hq⟩ := h.exists_rowOf hp
      obtain ⟨q', -, hq'⟩ := h'.exists_rowOf hp'
      have heq : p.eventHash = p'.eventHash := hfound.symm.trans (hprev.trans hfound')
      rw [hq.eventHash, hq'.eventHash] at heq
      rw [hsome, hsome', hq.eventId, hq'.eventId,
        syncEventHash_inj hlossless (Option.some.inj heq)]

end Recorded

/-! ## Convergence

One direction reconstructs the hashes from the predecessors, the other reads the predecessors
off the hashes. Both go through whole logs, whose rows are in the order of lamport and local
clock. -/

section Arrivals

variable {deliveries : List Delivery}

/-- Every delivered id has arrived once, and only deliveries arrive. -/
theorem arrivals_ok (deliveries : List Delivery) :
    (∀ d ∈ arrivals deliveries, d ∈ deliveries) ∧
      ∀ d ∈ deliveries, ∃ s ∈ arrivals deliveries, s.1.eventId = d.1.eventId := by
  have hfold : ∀ deliveries seen : List Delivery,
      let all := deliveries.foldl (fun seen d =>
        if d.1.eventId ∈ seen.map (fun s => s.1.eventId) then seen else seen ++ [d]) seen
      (∀ d ∈ all, d ∈ seen ∨ d ∈ deliveries) ∧ (∀ d ∈ seen, d ∈ all) ∧
        ∀ d ∈ deliveries, ∃ s ∈ all, s.1.eventId = d.1.eventId := by
    intro deliveries
    induction deliveries with
    | nil => intro seen; simp
    | cons d deliveries ih =>
        intro seen
        by_cases hmem : d.1.eventId ∈ seen.map fun s => s.1.eventId
        · simp only [List.foldl_cons, if_pos hmem]
          obtain ⟨honly, hkeeps, harrive⟩ := ih seen
          obtain ⟨s, hs, hid⟩ := List.mem_map.mp hmem
          refine ⟨fun c hc => ?_, hkeeps, fun c hc => ?_⟩
          · rcases honly c hc with hc | hc
            · exact Or.inl hc
            · exact Or.inr (List.mem_cons_of_mem _ hc)
          · rcases List.mem_cons.mp hc with rfl | hc
            · exact ⟨s, hkeeps s hs, hid⟩
            · exact harrive c hc
        · simp only [List.foldl_cons, if_neg hmem]
          obtain ⟨honly, hkeeps, harrive⟩ := ih (seen ++ [d])
          refine ⟨fun c hc => ?_, fun c hc => hkeeps c (List.mem_append_left _ hc),
            fun c hc => ?_⟩
          · rcases honly c hc with hc | hc
            · rcases List.mem_append.mp hc with hc | hc
              · exact Or.inl hc
              · exact Or.inr (List.mem_singleton.mp hc ▸ List.mem_cons_self)
            · exact Or.inr (List.mem_cons_of_mem _ hc)
          · rcases List.mem_cons.mp hc with rfl | hc
            · exact ⟨c, hkeeps c (by simp), rfl⟩
            · exact harrive c hc
  obtain ⟨honly, -, harrive⟩ := hfold deliveries []
  exact ⟨fun d hd => (honly d hd).resolve_left List.not_mem_nil, harrive⟩

/-- With distinct ids, what has arrived is what was delivered. -/
theorem mem_arrivals_iff {events : Finset SyncEvent}
    (hdistinct : ∀ e ∈ events, ∀ e' ∈ events, e.eventId = e'.eventId → e = e')
    (hdeliveries : ∀ e, e ∈ deliveries.map Prod.fst ↔ e ∈ events) (e : SyncEvent) :
    (∃ d ∈ arrivals deliveries, d.1 = e) ↔ e ∈ events := by
  obtain ⟨honly, harrive⟩ := arrivals_ok deliveries
  have hmem : ∀ d ∈ deliveries, d.1 ∈ events := fun d hd =>
    (hdeliveries d.1).mp (List.mem_map_of_mem hd)
  constructor
  · rintro ⟨d, hd, rfl⟩
    exact hmem d (honly d hd)
  · intro he
    obtain ⟨d, hd, rfl⟩ := List.mem_map.mp ((hdeliveries e).mpr he)
    obtain ⟨s, hs, hid⟩ := harrive d hd
    exact ⟨s, hs, hdistinct _ (hmem s (honly s hs)) _ (hmem d hd) hid⟩

end Arrivals

section Converge

variable {codec : Codec} {log log' : SyncEvents} {seen seen' : List Delivery}

/-- Lists that agree in one column agree in another that it determines. -/
theorem map_eq_of_map_eq {α β γ : Type} {f : α → β} {g : α → γ} {l l' : List α}
    (h : l.map f = l'.map f) (hg : ∀ a ∈ l, ∀ b ∈ l', f a = f b → g a = g b) :
    l.map g = l'.map g := by
  induction l generalizing l' with
  | nil =>
      rw [List.map_nil, eq_comm, List.map_eq_nil_iff] at h
      rw [h]
  | cons a l ih =>
      cases l' with
      | nil => cases h
      | cons b l' =>
          obtain ⟨hab, hrest⟩ := List.cons.inj h
          rw [List.map_cons, List.map_cons, hg a List.mem_cons_self b List.mem_cons_self hab,
            ih hrest fun c hc d hd => hg c (List.mem_cons_of_mem _ hc) d (List.mem_cons_of_mem _ hd)]

/-- Two recorded logs of the same events list the same shared columns exactly when
their arrivals list the same ids and every event found the same predecessor. -/
theorem Recorded.listings_eq_iff (hlossless : codec.Lossless) (h : Recorded codec log seen)
    (h' : Recorded codec log' seen') (hsame : ∀ e, (∃ d ∈ seen, d.1 = e) ↔ ∃ d ∈ seen', d.1 = e) :
    (RowDiff.sortBy SyncEvent.order log.rows).map SyncEvent.shared
        = (RowDiff.sortBy SyncEvent.order log'.rows).map SyncEvent.shared ↔
      listedIds seen = listedIds seen' ∧
        ∀ e, (∃ d ∈ seen, d.1 = e) → predecessor seen e = predecessor seen' e := by
  constructor
  · intro heq
    have hids : ∀ rows : List SyncEvent,
        (rows.map SyncEvent.shared).map SyncEvent.eventId = rows.map SyncEvent.eventId :=
      fun rows => by rw [List.map_map]; rfl
    refine ⟨?_, ?_⟩
    · rw [← h.map_eventId, ← h'.map_eventId, ← hids, heq, hids]
    · rintro e ⟨d, hd, rfl⟩
      obtain ⟨d', hd', hevent⟩ := (hsame d.1).mp ⟨d, hd, rfl⟩
      obtain ⟨row, hrow, hid⟩ := List.mem_map.mp (h.eventIds ▸ List.mem_map.mpr ⟨d, hd, rfl⟩ :
        d.1.eventId ∈ log.rows.map SyncEvent.eventId)
      -- the same listing has a row with the same shared columns
      have hshared : row.shared ∈ (RowDiff.sortBy SyncEvent.order log'.rows).map SyncEvent.shared := by
        rw [← heq]
        exact List.mem_map_of_mem ((RowDiff.mem_sortBy _).mpr hrow)
      obtain ⟨row', hrow', hcols⟩ := List.mem_map.mp hshared
      have hrow' := (RowDiff.mem_sortBy _).mp hrow'
      have hid' : row'.shared.eventId = row.shared.eventId := by rw [hcols]
      have hprev : row.shared.prevHash = row'.shared.prevHash := by rw [hcols]
      have hpred := h.predecessor_eq hlossless h' hrow hrow' hd hd' hid
        (hid'.trans (hid.trans (by rw [hevent]))) hprev
      rwa [hevent] at hpred
  · rintro ⟨hids, hpred⟩
    have hshared := h.shared_eq h' (fun d hd => (hsame d.1).mp ⟨d, hd, rfl⟩)
      fun d hd => hpred d.1 ⟨d, hd, rfl⟩
    rw [← h.map_eventId, ← h'.map_eventId] at hids
    have hrows : ∀ row ∈ RowDiff.sortBy SyncEvent.order log.rows,
        ∀ row' ∈ RowDiff.sortBy SyncEvent.order log'.rows, row.eventId = row'.eventId →
          row.shared = row'.shared := fun row hrow row' hrow' =>
      hshared row ((RowDiff.mem_sortBy _).mp hrow) row' ((RowDiff.mem_sortBy _).mp hrow')
    exact map_eq_of_map_eq hids hrows

/-- Two replicas of the same events converge exactly when the first arrivals list in
the same order and every event found the same predecessor on both. -/
theorem replicas_converge_iff (hlossless : codec.Lossless) {events : Finset SyncEvent}
    (hdistinct : ∀ e ∈ events, ∀ e' ∈ events, e.eventId = e'.eventId → e = e')
    {batches batches' : List (List Delivery)}
    (hbatches : ∀ e, e ∈ batches.flatten.map Prod.fst ↔ e ∈ events)
    (hbatches' : ∀ e, e ∈ batches'.flatten.map Prod.fst ↔ e ∈ events) :
    Converged codec batches batches' ↔
      listedIds (arrivals batches.flatten) = listedIds (arrivals batches'.flatten) ∧
        ∀ e ∈ events, predecessor (arrivals batches.flatten) e
          = predecessor (arrivals batches'.flatten) e := by
  have harrived := mem_arrivals_iff hdistinct hbatches
  have harrived' := mem_arrivals_iff hdistinct hbatches'
  rw [Converged, listings_eq_iff, (recorded_receive codec batches).listings_eq_iff hlossless
    (recorded_receive codec batches') fun e => (harrived e).trans (harrived' e).symm]
  simp only [harrived]

end Converge

/-! ### Two events in the other order -/

/-- The `n`th event of a project, as its own node published it. -/
def nthEvent (n : Nat) : SyncEvent where
  eventId := "sync-" ++ toString n
  nodeId := "node"
  project := some "/p"
  lamport := n
  opType := "feedback"
  payload := "{}"
  payloadHash := none
  prevHash := none
  eventHash := none
  signer := none
  createdAt := 0
  appliedAt := none

/-- Both stores receive both events, one of them the later event first: it is chained
to nothing there. -/
theorem replicas_diverge :
    (∀ e, e ∈ [[(nthEvent 1, 100)], [(nthEvent 2, 101)]].flatten.map Prod.fst ↔
        e ∈ ({nthEvent 1, nthEvent 2} : Finset SyncEvent)) ∧
      (∀ e, e ∈ [[(nthEvent 2, 100)], [(nthEvent 1, 101)]].flatten.map Prod.fst ↔
        e ∈ ({nthEvent 1, nthEvent 2} : Finset SyncEvent)) ∧
      ¬ Converged (jsonCodec []) [[(nthEvent 1, 100)], [(nthEvent 2, 101)]]
        [[(nthEvent 2, 100)], [(nthEvent 1, 101)]] := by
  refine ⟨fun e => by simp, fun e => by simp [or_comm], fun h => ?_⟩
  have hprev := congrArg (List.map fun e : SyncEvent => e.prevHash.isSome) (h 0)
  revert hprev
  decide +kernel

/-- The same order in other batches, with a repetition and other clocks. -/
theorem replicas_converge_batched :
    Converged (jsonCodec []) [[(nthEvent 1, 100)], [(nthEvent 2, 101)]]
        [[(nthEvent 1, 200), (nthEvent 2, 200)], [(nthEvent 1, 201)]] ↔
      listedIds (arrivals [[(nthEvent 1, 100)], [(nthEvent 2, 101)]].flatten)
          = listedIds (arrivals
              [[(nthEvent 1, 200), (nthEvent 2, 200)], [(nthEvent 1, 201)]].flatten) ∧
        ∀ e ∈ ({nthEvent 1, nthEvent 2} : Finset SyncEvent),
          predecessor (arrivals [[(nthEvent 1, 100)], [(nthEvent 2, 101)]].flatten) e
            = predecessor (arrivals
                [[(nthEvent 1, 200), (nthEvent 2, 200)], [(nthEvent 1, 201)]].flatten) e :=
  replicas_converge_iff (jsonCodec_lossless []) (by decide +kernel) (fun e => by simp)
    (fun e => by simp; tauto)

end IronMem
