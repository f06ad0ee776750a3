import Mathlib.Data.Prod.Lex
import IronMem.Json
import IronMem.Lib.KeysetPaging

/-!
# The sync log

`sync_events` and the statements on it: an append-only table with the event id as
its primary key, listed by Lamport clock. Lamports repeat: `publish` reads the
highest one and inserts in two steps, and an imported event keeps its own.
Within a lamport rows are listed by local time, then in the order they were
inserted.

An export goes page by page, each page after the last lamport of the one before. That is
paging by a strict bound on a key that repeats, so the law of `KeysetPaging` says what is
lost: the rest of a lamport in which a page ends (`export_complete_iff`).
-/

namespace IronMem

structure SyncEvent where
  eventId : String
  nodeId : String
  project : Option String
  lamport : Int
  opType : String
  payload : String
  payloadHash : Option String
  prevHash : Option String
  eventHash : Option String
  signer : Option String
  createdAt : Int
  appliedAt : Option Int
deriving DecidableEq

/-- The rows in the order they were inserted. -/
structure SyncEvents where
  rows : List SyncEvent
  unique : (rows.map SyncEvent.eventId).Nodup

/-- `ORDER BY lamport, created_at`. -/
def SyncEvent.order (e : SyncEvent) : Int ×ₗ Int := toLex (e.lamport, e.createdAt)

namespace SyncEvents

def empty : SyncEvents := ⟨[], List.nodup_nil⟩

/-- The rows a project filter lets through. -/
def matching (log : SyncEvents) (project : Option String) : List SyncEvent :=
  log.rows.filter fun e => match project with
    | some p => e.project == some p
    | none => true

end SyncEvents

/-- `LIMIT`: a negative one is none. -/
def limitRows (limit : Int) (rows : List SyncEvent) : List SyncEvent :=
  if limit < 0 then rows else rows.take limit.toNat

/-- `list_sync_events`. -/
def listSyncEvents (log : SyncEvents) (project : Option String) (afterLamport limit : Int) :
    List SyncEvent :=
  limitRows limit (RowDiff.sortBy SyncEvent.order
    ((log.matching project).filter fun e => decide (afterLamport < e.lamport)))

/-- `latest_sync_event_hash`: the index on project, lamport and time is read
backwards. -/
def latestSyncEventHash (log : SyncEvents) (project : Option String) : Option String :=
  (RowDiff.sortBy SyncEvent.order
    (log.rows.filter fun e => e.project == project && e.eventHash.isSome)).getLast?.bind
      SyncEvent.eventHash

/-- What the hash of an event covers. -/
def syncEventHash (codec : Codec) (eventId nodeId : String) (project : Option String)
    (lamport : Int) (opType payloadHash : String) (prevHash : Option String) : String :=
  codec.digest (utf8 (codec.recordToString (jsonObject [("event_id", .str eventId),
    ("lamport", .int lamport), ("node_id", .str nodeId), ("op_type", .str opType),
    ("payload_hash", .str payloadHash), ("prev_hash", Value.ofOptionStr prevHash),
    ("project", Value.ofOptionStr project), ("signer", .str nodeId)])))

/-- The row `insert_sync_event` writes. -/
def newSyncEvent (codec : Codec) (now : Int) (log : SyncEvents) (e : SyncEvent) : SyncEvent :=
  let payloadHash := codec.digest (utf8 e.payload)
  let prevHash := latestSyncEventHash log e.project
  { e with
    payloadHash := some payloadHash
    prevHash
    eventHash := some (syncEventHash codec e.eventId e.nodeId e.project e.lamport e.opType
      payloadHash prevHash)
    signer := some e.nodeId
    createdAt := now
    appliedAt := none }

/-- `insert_sync_event`, on the six columns of `e` it is given: the first event
with an id stays. -/
def insertSyncEvent (codec : Codec) (now : Int) (log : SyncEvents) (e : SyncEvent) :
    Bool × SyncEvents :=
  if h : e.eventId ∈ log.rows.map SyncEvent.eventId then (false, log)
  else (true, {
    rows := log.rows ++ [newSyncEvent codec now log e]
    unique := by
      rw [List.map_append, List.nodup_append]
      refine ⟨log.unique, List.nodup_singleton _, fun a ha b hb hab => h ?_⟩
      rw [hab, List.mem_singleton.mp hb] at ha
      exact ha })

/-- `next_lamport`. -/
def nextLamport (log : SyncEvents) (project : Option String) : Int :=
  (((listSyncEvents log project 0 (2 ^ 63 - 1)).map SyncEvent.lamport).max?).getD 0 + 1

/-- `sync::publish`: the lamport is read from `seen`, the row goes into `log`, which may
be later. -/
def Sync.publish (codec : Codec) (now : Int) (eventId nodeId : String) (project : Option String)
    (opType payload : String) (seen log : SyncEvents) : SyncEvents :=
  (insertSyncEvent codec now log {
    eventId, nodeId, project, lamport := nextLamport seen project, opType, payload
    payloadHash := none, prevHash := none, eventHash := none, signer := none
    createdAt := now, appliedAt := none }).2

/-- `import_events`, with the clock reading of each insertion. -/
def importEvents (codec : Codec) (log : SyncEvents) (events : List (SyncEvent × Int)) :
    SyncEvents :=
  events.foldl (fun log (e, now) => (insertSyncEvent codec now log e).2) log

/-- `export_events`. -/
def exportEvents (log : SyncEvents) (project : Option String) (afterLamport limit : Int) :
    List SyncEvent :=
  listSyncEvents log project afterLamport limit

/-! ## Paged export -/

/-- Calls of `export_events`, each after the lamport of the last event of the page
before, up to the first empty page. -/
def exportPages (log : SyncEvents) (project : Option String) (limit : Int) :
    Nat → Int → Option (List (List SyncEvent))
  | 0, _ => none
  | fuel + 1, afterLamport =>
      match (exportEvents log project afterLamport limit).getLast? with
      | none => some []
      | some last => (exportPages log project limit fuel last.lamport).map fun rest =>
          exportEvents log project afterLamport limit :: rest

/-- The whole export, from lamport 0. -/
def exportAll (log : SyncEvents) (project : Option String) (limit : Int) :
    Option (List (List SyncEvent)) :=
  exportPages log project limit (log.rows.length + 1) 0

/-- The lamports of a filter, in order. -/
def lamports (log : SyncEvents) (project : Option String) : List Int :=
  ((log.matching project).map SyncEvent.lamport).insertionSort (· ≤ ·)

theorem exportEvents_eq_page (log : SyncEvents) (project : Option String) {limit : Int}
    (hlimit : 1 ≤ limit) (afterLamport : Int) :
    exportEvents log project afterLamport limit = KeysetPaging.page SyncEvent.lamport
      (RowDiff.sortBy SyncEvent.order (log.matching project)) limit.toNat afterLamport := by
  rw [exportEvents, listSyncEvents, limitRows, if_neg (by omega), RowDiff.sortBy_filter]
  rfl

theorem exportPages_eq_pages (log : SyncEvents) (project : Option String) {limit : Int}
    (hlimit : 1 ≤ limit) (fuel : Nat) (afterLamport : Int) :
    exportPages log project limit fuel afterLamport = KeysetPaging.pages SyncEvent.lamport
      (RowDiff.sortBy SyncEvent.order (log.matching project)) limit.toNat fuel afterLamport := by
  induction fuel generalizing afterLamport with
  | zero => rfl
  | succ fuel ih =>
      rw [exportPages, KeysetPaging.pages, exportEvents_eq_page log project hlimit]
      split <;> simp [*]

theorem sorted_lamports (log : SyncEvents) (project : Option String) :
    (RowDiff.sortBy SyncEvent.order (log.matching project)).Pairwise
      fun a b => a.lamport ≤ b.lamport := by
  refine (RowDiff.canonical_sortBy SyncEvent.order _).imp fun {a b} h => ?_
  rcases Prod.Lex.le_iff.mp h with h | h
  · exact le_of_lt h
  · exact le_of_eq h.1

theorem map_lamport_sortBy (log : SyncEvents) (project : Option String) :
    (RowDiff.sortBy SyncEvent.order (log.matching project)).map SyncEvent.lamport
      = lamports log project := by
  refine List.Perm.eq_of_pairwise (fun _ _ _ _ => le_antisymm)
    (List.pairwise_map.mpr (sorted_lamports log project))
    (List.pairwise_insertionSort (· ≤ ·) _) ?_
  exact ((RowDiff.sortBy_perm SyncEvent.order _).map _).trans (List.perm_insertionSort _ _).symm

theorem matching_nodup (log : SyncEvents) (project : Option String) :
    (log.matching project).Nodup :=
  (List.Nodup.of_map _ log.unique).sublist List.filter_sublist

/-- The export ends, and it returned every event of the filter exactly when no
multiple of the page size falls between two events of one lamport. -/
theorem export_complete_iff (log : SyncEvents) (project : Option String) {limit : Int}
    (hlimit : 1 ≤ limit) (hpositive : ∀ e ∈ log.matching project, 0 < e.lamport) :
    ∃ pages, exportAll log project limit = some pages ∧
      ((∀ e ∈ log.matching project, ∃ page ∈ pages, e ∈ page) ↔
        ∀ n, 1 ≤ n → n * limit.toNat < (lamports log project).length →
          (lamports log project)[n * limit.toNat - 1]? ≠ (lamports log project)[n * limit.toNat]?) := by
  have hperm := RowDiff.sortBy_perm SyncEvent.order (log.matching project)
  have hall : KeysetPaging.above SyncEvent.lamport
      (RowDiff.sortBy SyncEvent.order (log.matching project)) 0
      = RowDiff.sortBy SyncEvent.order (log.matching project) := by
    rw [KeysetPaging.above, List.filter_eq_self]
    intro e he
    exact decide_eq_true (hpositive e (hperm.mem_iff.mp he))
  have hfuel : (KeysetPaging.above SyncEvent.lamport
      (RowDiff.sortBy SyncEvent.order (log.matching project)) 0).length < log.rows.length + 1 := by
    rw [hall, hperm.length_eq]
    exact Nat.lt_succ_of_le (List.length_filter_le _ _)
  obtain ⟨pages, hpages, -, hcomplete⟩ := KeysetPaging.pages_complete_iff
    (sorted_lamports log project) (hperm.nodup_iff.mpr (matching_nodup log project))
    (k := limit.toNat) (by omega) hfuel
  rw [hall] at hcomplete
  refine ⟨pages, (exportPages_eq_pages log project hlimit _ 0).trans hpages, ?_⟩
  have hmem : (∀ e ∈ log.matching project, ∃ page ∈ pages, e ∈ page) ↔
      ∀ e ∈ RowDiff.sortBy SyncEvent.order (log.matching project), ∃ page ∈ pages, e ∈ page :=
    forall_congr' fun e => imp_congr_left hperm.mem_iff.symm
  rw [hmem, hcomplete, KeysetPaging.NoSplit]
  simp only [← List.getElem?_map, map_lamport_sortBy, hperm.length_eq, lamports,
    List.length_insertionSort, List.length_map]

/-- An event that was published at second 100 when the log was empty. -/
def firstEvent (eventId nodeId : String) (log : SyncEvents) : SyncEvents :=
  Sync.publish (jsonCodec []) 100 eventId nodeId (some "/p") "feedback" "{}" .empty log

/-- Two nodes that published at the same time. -/
def tiedLog : SyncEvents := firstEvent "sync-b" "node-b" (firstEvent "sync-a" "node-a" .empty)

/-- Pages of one event lose the second of two events with one lamport. -/
theorem export_loses_tie : ∃ pages, exportAll tiedLog (some "/p") 1 = some pages ∧
    (∀ e ∈ tiedLog.matching (some "/p"), 0 < e.lamport) ∧
      ¬ ∀ e ∈ tiedLog.matching (some "/p"), ∃ page ∈ pages, e ∈ page := by
  have hrun : (exportAll tiedLog (some "/p") 1).any (fun pages =>
      !(tiedLog.matching (some "/p")).all fun e => pages.any fun page => decide (e ∈ page)) = true := by
    decide +kernel
  obtain ⟨pages, hpages, hlost⟩ := Option.any_eq_true _ _ |>.mp hrun
  refine ⟨pages, hpages, by decide +kernel, fun hall => ?_⟩
  rw [Bool.not_eq_true', ← Bool.not_eq_true, List.all_eq_true] at hlost
  refine hlost fun e he => ?_
  obtain ⟨page, hpage, hmem⟩ := hall e he
  exact List.any_eq_true.mpr ⟨page, hpage, decide_eq_true hmem⟩

/-- Pages of two. -/
theorem export_complete_pairs : ∃ pages, exportAll tiedLog (some "/p") 2 = some pages ∧
    ((∀ e ∈ tiedLog.matching (some "/p"), ∃ page ∈ pages, e ∈ page) ↔
      ∀ n, 1 ≤ n → n * (2 : Int).toNat < (lamports tiedLog (some "/p")).length →
        (lamports tiedLog (some "/p"))[n * (2 : Int).toNat - 1]?
          ≠ (lamports tiedLog (some "/p"))[n * (2 : Int).toNat]?) :=
  export_complete_iff tiedLog (some "/p") (by decide) (by decide +kernel)

end IronMem
