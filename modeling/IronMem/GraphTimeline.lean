import IronMem.GraphReconcile
import IronMem.Lib.Dates

/-!
# The graph at a date

An edge that is overtaken is closed where the new one starts, so that earlier dates still
find it. Dates are compared as texts. A new edge without a start closes the old one at
its time of observation, which is a number of seconds and not a date.

`EdgeCall.closed` is the edge after the insertion that overtakes it, and the query asks
for its validity at a date. With a start both bounds are dates. Without one the query
compares the date with the printed number: in this century a date begins with a two and the
number with a one, so that the closed edge has ended before any date there is.
-/

namespace IronMem

/-! ## The query -/

/-- The validity of an edge, an interval that is open at its end. -/
def validAt (date : String) (r : Record) : Bool :=
  (r.text "valid_from").all (fun start => decide (start ≤ date))
    && (r.text "valid_until").all (fun stop => decide (date < stop))

/-- `memory_edges_for_entity_at`. -/
def memoryEdgesForEntityAt (u : Unicode) (db : Database) (project : Option String)
    (entity : String) (includeSuperseded : Bool) (atTime : Option String) (limit : Nat) : List Record :=
  let entityNorm := normalizeGraphText u entity
  if entityNorm.isEmpty then []
  else
    (((db.table "memory_edges").filter fun r =>
      (r.col "source_norm" == .str entityNorm || r.col "target_norm" == .str entityNorm)
        && (includeSuperseded || isActive r) && atTime.all (fun date => validAt date r)
        && project.all fun p => r.col "project" == .str p).insertionSort fun a b =>
      toLex ((b.integer "observed_at").getD 0, edgeId b)
        ≤ toLex ((a.integer "observed_at").getD 0, edgeId a)).take limit

/-! ## The closing of an edge -/

/-- The edge a new one overtakes. -/
structure EdgeCall.Overtakes (u : Unicode) (c : EdgeCall) (e : Record) : Prop where
  open_ended : c.edge.validUntil = none
  current : isCurrentStateRelation (c.key u).relationNorm = true
  key : (c.key u).has e = true
  active : isActive e = true
  target : ∃ target, e.col "target_norm" = .str target ∧ target ≠ normalizeGraphText u c.edge.target
  still_open : e.col "valid_until" = .null

/-- The date lies before the start of the new edge: its `valid_from`, or the day it is
observed. -/
def EdgeCall.StartsAfter (c : EdgeCall) (d : Date) : Prop :=
  match c.edge.validFrom with
  | some start => d.format < start
  | none => d.dayNumber < c.now / 86400

/-- The edge is valid at the date, as far as its start goes. -/
def StartedBy (e : Record) (d : Date) : Prop :=
  e.col "valid_from" = .null ∨ ∃ start : Date, e.col "valid_from" = .str start.format ∧
    start.NoLater d

/-- Where an edge is closed that the new one overtakes. -/
def EdgeCall.closesAt (c : EdgeCall) : String := c.edge.validFrom.getD (toString c.now)

section Closing

variable {codec : Codec} {u : Unicode} {c : EdgeCall} {db db' : Database} {e r : Record} {newId : Int}
  {project : Option String} {entity : String} {limit : Nat} {d : Date}

theorem mem_memoryEdgesForEntityAt {date : String} (hentity : normalizeGraphText u entity ≠ "")
    (hlimit : (db.table "memory_edges").length ≤ limit) :
    r ∈ memoryEdgesForEntityAt u db project entity true (some date) limit ↔
      r ∈ db.table "memory_edges" ∧ (r.col "source_norm" = .str (normalizeGraphText u entity) ∨
        r.col "target_norm" = .str (normalizeGraphText u entity)) ∧ validAt date r = true ∧
          project.all (fun p => r.col "project" == .str p) = true := by
  have hne : (normalizeGraphText u entity).isEmpty = false := by
    rw [Bool.eq_false_iff, ne_eq, String.isEmpty_iff]
    exact hentity
  rw [memoryEdgesForEntityAt, hne, if_neg Bool.false_ne_true, List.take_of_length_le, List.mem_insertionSort, List.mem_filter]
  · simp [and_assoc]
  · rw [List.length_insertionSort]
    exact (List.length_filter_le _ _).trans hlimit

/-- The edge after the insertion. -/
def EdgeCall.closed (c : EdgeCall) (newId : Int) (e : Record) : Record :=
  (SupersededReason.currentStateUpdate c.closesAt).mark newId e

theorem EdgeCall.closed_col {f : String}
    (hf : f ∉ ["superseded_by", "superseded_reason", "valid_until"]) :
    (c.closed newId e).col f = e.col f := SupersededReason.mark_col hf

theorem EdgeCall.closed_validUntil (h : e.col "valid_until" = .null) :
    (c.closed newId e).col "valid_until" = .str c.closesAt := by
  simp [closed, SupersededReason.mark, h, Value.isNull]

theorem EdgeCall.Overtakes.others_selects (h : c.Overtakes u e) (hid : e.col "id" ≠ .int newId) :
    (c.others (c.key u) (normalizeGraphText u c.edge.target) newId).selects e = true := by
  obtain ⟨target, htarget, hne⟩ := h.target
  refine EdgeCall.others_selects h.key hid h.active ?_ ?_
  · rw [htarget]
    exact fun heq => by cases heq
  · rw [htarget]
    exact fun heq => hne (Value.str.inj heq)

theorem EdgeCall.Overtakes.duplicates_selects (h : c.Overtakes u e) :
    (c.duplicates (c.key u) (normalizeGraphText u c.edge.target) newId).selects e = false := by
  obtain ⟨target, htarget, hne⟩ := h.target
  simp [EdgeUpdate.selects, EdgeCall.duplicates, htarget, hne]

/-- Insertion closes the edges it overtakes, and adds one of a new id. -/
theorem insertMemoryEdge_closes (hovertakes : c.Overtakes u e) (he : e ∈ db.table "memory_edges")
    (hrun : (insertMemoryEdge codec u c).run Proc.noFault db = (.ok newId, db')) :
    c.closed newId e ∈ db'.table "memory_edges" ∧ .int newId ∉ edgeIds db ∧
      edgeIds db' = edgeIds db ++ [.int newId] := by
  unfold insertMemoryEdge at hrun
  dsimp only at hrun
  split at hrun
  · cases hrun
  · obtain ⟨id, s, hinsert, hrun⟩ := Proc.run_bind_ok hrun
    obtain ⟨rowid, s₁, hrowid, hrun⟩ := Proc.run_bind_ok hrun
    obtain ⟨_, s₂, hreconcile, hrun⟩ := Proc.run_bind_ok hrun
    obtain ⟨hid, rfl⟩ := Prod.mk.inj hrun
    obtain rfl := Except.ok.inj hid
    obtain ⟨rfl, rfl⟩ := Prod.mk.inj (Except.ok.inj (Proc.run_exec_ok hrowid))
    have hinserted := Proc.run_exec_ok hinsert
    obtain ⟨hfresh, hrows⟩ := EdgeCall.insertRow_ok hinserted
    have hids := edgeIds_insertRow hinserted
    have htable := reconcileInsertedMemoryEdge_table hreconcile
    have hne : e.col "id" ≠ .int id := fun hid => hfresh (hid ▸ List.mem_map_of_mem he)
    rw [hovertakes.open_ended, hovertakes.current, Option.isNone_none, Bool.and_self,
      if_pos rfl] at htable
    refine ⟨?_, hfresh, ?_⟩
    · rw [htable, mem_apply]
      refine ⟨e, mem_apply.mpr ⟨e, ?_, ?_⟩, ?_⟩
      · rw [hrows]
        exact List.mem_append_left _ he
      · rw [hovertakes.duplicates_selects]
        exact if_neg Bool.false_ne_true
      · rw [hovertakes.others_selects hne]
        exact if_pos rfl
    · rw [edgeIds, htable, ← edgeIds, edgeIds_apply, edgeIds_apply, hids]

theorem EdgeTable.nodup_edgeIds (h : EdgeTable db) : (edgeIds db).Nodup := by
  rw [edgeIds, List.Nodup, List.pairwise_map]
  refine List.Pairwise.imp_of_mem ?_ h.unique
  intro a b ha hb hne heq
  rw [h.keyed a ha, h.keyed b hb] at heq
  exact hne (Value.int.inj heq)

/-- Whether a closed edge is found at a date before the new start: where the new edge has a
start, and else where the date, as a text, comes before the printed number of seconds. -/
theorem memoryEdgesForEntityAt_closed_iff (hids : EdgeTable db) (he : e ∈ db.table "memory_edges")
    (hovertakes : c.Overtakes u e)
    (hrun : (insertMemoryEdge codec u c).run Proc.noFault db = (.ok newId, db'))
    (hstarted : StartedBy e d) (hbefore : c.StartsAfter d)
    (hentity : normalizeGraphText u entity ≠ "" ∧
      (e.col "source_norm" = .str (normalizeGraphText u entity) ∨
        e.col "target_norm" = .str (normalizeGraphText u entity)))
    (hproject : ∀ p, project = some p → e.col "project" = .str p)
    (hlimit : (db'.table "memory_edges").length ≤ limit) :
    (∃ r ∈ memoryEdgesForEntityAt u db' project entity true (some d.format) limit,
        r.col "id" = e.col "id")
      ↔ c.edge.validFrom.isSome ∨ d.format < toString c.now := by
  obtain ⟨hclosed, hfresh, hnewIds⟩ := insertMemoryEdge_closes hovertakes he hrun
  have hstart : (e.text "valid_from").all (fun start => decide (start ≤ d.format)) = true := by
    rcases hstarted with hnull | ⟨start, hstart, hle⟩
    · rw [Record.text, hnull]
      rfl
    · simpa [Record.text, hstart] using (Date.format_le_iff start d).mpr hle
  have hvalid : validAt d.format (c.closed newId e) = decide (d.format < c.closesAt) := by
    rw [validAt, Record.text, EdgeCall.closed_col (by decide), ← Record.text, hstart, Bool.true_and,
      Record.text, EdgeCall.closed_validUntil hovertakes.still_open]
    rfl
  -- no other edge has the id of the closed one
  have hunique : ∀ r ∈ db'.table "memory_edges", r.col "id" = e.col "id" → r = c.closed newId e := by
    have hnodup : (edgeIds db').Nodup := by
      rw [hnewIds]
      refine List.nodup_append.mpr ⟨hids.nodup_edgeIds, List.nodup_singleton _, fun a ha b hb hab => ?_⟩
      rw [List.mem_singleton.mp hb] at hab
      exact hfresh (hab ▸ ha)
    intro r hr hid
    exact List.inj_on_of_nodup_map hnodup hr hclosed
      (hid.trans (EdgeCall.closed_col (by decide)).symm)
  have hfound : (∃ r ∈ memoryEdgesForEntityAt u db' project entity true (some d.format) limit,
      r.col "id" = e.col "id") ↔ d.format < c.closesAt := by
    constructor
    · rintro ⟨r, hr, hid⟩
      rw [mem_memoryEdgesForEntityAt hentity.1 hlimit] at hr
      obtain rfl := hunique r hr.1 hid
      simpa [hvalid] using hr.2.2.1
    · intro hlt
      refine ⟨c.closed newId e, ?_, EdgeCall.closed_col (by decide)⟩
      rw [mem_memoryEdgesForEntityAt hentity.1 hlimit, EdgeCall.closed_col (by decide),
        EdgeCall.closed_col (by decide), EdgeCall.closed_col (by decide), hvalid]
      refine ⟨hclosed, hentity.2, by simpa using hlt, ?_⟩
      rw [Option.all_eq_true]
      exact fun p hp => beq_iff_eq.mpr (hproject p hp)
  rw [hfound, EdgeCall.closesAt]
  cases hfrom : c.edge.validFrom with
  | none => simp
  | some start =>
      rw [EdgeCall.StartsAfter, hfrom] at hbefore
      simpa using hbefore

end Closing

/-! ### Two places of work -/

/-- Ada has worked at Acme since ever. -/
def acmeEdge : Record := (adaWorksAt "Acme").newRow adaKey "acme" 1

/-- She starts at Initech, without a date, late in 2023. -/
def initechCall : EdgeCall := { adaWorksAt "Initech" with now := 1700000000 }

def newYear2023 : Date where
  year := 2023
  month := 1
  day := 1
  year_lt := by decide
  month_pos := by decide
  month_le := by decide
  day_pos := by decide
  day_le := by decide

def acmeOnly : Database := ({} : Database).insertRow "memory_edges" acmeEdge

theorem acmeOnly_edgeTable : EdgeTable acmeOnly := by
  have hrows : acmeOnly.table "memory_edges" = [acmeEdge] := rfl
  refine ⟨hrows ▸ List.pairwise_singleton _ _, fun r hr => ?_⟩
  rw [hrows, List.mem_singleton] at hr
  rw [hr]
  rfl

/-- The columns of the old edge that the new one and the query look at. -/
theorem acmeEdge_ada :
    (acmeEdge.col "source_norm" = .str (normalizeGraphText asciiUnicode "Ada") ∧
      normalizeGraphText asciiUnicode "Ada" ≠ "") ∧
    acmeEdge.col "valid_from" = .null ∧
    isCurrentStateRelation (initechCall.key asciiUnicode).relationNorm = true ∧
    (initechCall.key asciiUnicode).has acmeEdge = true ∧ isActive acmeEdge = true ∧
    (acmeEdge.col "target_norm" = .str "acme" ∧
      "acme" ≠ normalizeGraphText asciiUnicode initechCall.edge.target) ∧
    acmeEdge.col "valid_until" = .null := by
  decide +kernel

theorem initechCall_overtakes : initechCall.Overtakes asciiUnicode acmeEdge := by
  obtain ⟨-, -, hcurrent, hkey, hactive, htarget, hopen⟩ := acmeEdge_ada
  exact ⟨rfl, hcurrent, hkey, hactive, ⟨"acme", htarget⟩, hopen⟩

theorem initechCall_startsAfter : initechCall.StartsAfter newYear2023 := by
  show newYear2023.dayNumber < 1700000000 / 86400
  decide

theorem initechCall_run : ∃ newId db',
    (insertMemoryEdge (jsonCodec []) asciiUnicode initechCall).run Proc.noFault acmeOnly
        = (.ok newId, db') ∧ (db'.table "memory_edges").length ≤ 10 ∧
      ∀ r ∈ memoryEdgesForEntityAt asciiUnicode db' none "Ada" true (some newYear2023.format) 10,
        r.col "id" ≠ acmeEdge.col "id" := by
  have hfacts : ((insertMemoryEdge (jsonCodec []) asciiUnicode initechCall).run Proc.noFault
      acmeOnly).1.isOk = true ∧ (((insertMemoryEdge (jsonCodec []) asciiUnicode initechCall).run
        Proc.noFault acmeOnly).2.table "memory_edges").length ≤ 10 ∧
          ∀ r ∈ memoryEdgesForEntityAt asciiUnicode ((insertMemoryEdge (jsonCodec []) asciiUnicode
            initechCall).run Proc.noFault acmeOnly).2 none "Ada" true (some newYear2023.format) 10,
              r.col "id" ≠ acmeEdge.col "id" := by
    decide +kernel
  generalize (insertMemoryEdge (jsonCodec []) asciiUnicode initechCall).run Proc.noFault acmeOnly
    = out at hfacts
  obtain ⟨result, db'⟩ := out
  obtain ⟨hok, hlength, habsent⟩ := hfacts
  cases result with
  | error e => cases hok
  | ok newId => exact ⟨newId, db', rfl, hlength, habsent⟩

/-- At the beginning of that year the old edge is not found any more. -/
theorem memoryEdgesForEntityAt_hides_closed : ∃ newId db',
    (insertMemoryEdge (jsonCodec []) asciiUnicode initechCall).run Proc.noFault acmeOnly
        = (.ok newId, db') ∧ EdgeTable acmeOnly ∧ acmeEdge ∈ acmeOnly.table "memory_edges" ∧
      initechCall.Overtakes asciiUnicode acmeEdge ∧ StartedBy acmeEdge newYear2023 ∧
        initechCall.StartsAfter newYear2023 ∧ acmeEdge.col "source_norm"
          = .str (normalizeGraphText asciiUnicode "Ada") ∧ (db'.table "memory_edges").length ≤ 10 ∧
            ¬ ∃ r ∈ memoryEdgesForEntityAt asciiUnicode db' none "Ada" true
              (some newYear2023.format) 10, r.col "id" = acmeEdge.col "id" := by
  obtain ⟨newId, db', hrun, hlength, habsent⟩ := initechCall_run
  obtain ⟨⟨hsource, -⟩, hstart, -⟩ := acmeEdge_ada
  refine ⟨newId, db', hrun, acmeOnly_edgeTable, List.mem_singleton.mpr rfl, initechCall_overtakes,
    Or.inl hstart, initechCall_startsAfter, hsource, hlength, ?_⟩
  rintro ⟨r, hr, hid⟩
  exact habsent r hr hid

/-- The printed number of seconds begins with a one, every date of this century with a two. -/
theorem memoryEdgesForEntityAt_closed_ada : ∃ newId db',
    (insertMemoryEdge (jsonCodec []) asciiUnicode initechCall).run Proc.noFault acmeOnly
        = (.ok newId, db') ∧
      ((∃ r ∈ memoryEdgesForEntityAt asciiUnicode db' none "Ada" true (some newYear2023.format) 10,
          r.col "id" = acmeEdge.col "id")
        ↔ initechCall.edge.validFrom.isSome ∨ newYear2023.format < toString initechCall.now) := by
  obtain ⟨newId, db', hrun, hlength, -⟩ := initechCall_run
  obtain ⟨⟨hsource, hnamed⟩, hstart, -⟩ := acmeEdge_ada
  refine ⟨newId, db', hrun, memoryEdgesForEntityAt_closed_iff acmeOnly_edgeTable
    (List.mem_singleton.mpr rfl) initechCall_overtakes hrun (Or.inl hstart)
    initechCall_startsAfter ⟨hnamed, Or.inl hsource⟩ ?_ hlength⟩
  intro p hp
  cases hp

end IronMem
