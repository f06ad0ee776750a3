import IronMem.AssertionHistory
import IronMem.Gate
import IronMem.Remember

/-!
# Assertion queries

The query of `assertions::handle`: what a scope says at one instant, as far as it was
recorded up to another. An event that some recorded successor replaces is no candidate,
whatever became of the successor; and one candidate that may not be delivered withholds
the current value rather than make way for another.

The candidates are a function of the history and the two instants (`candidates`), so two
of the results are about lists: what is recorded later is not known at an earlier instant
(`known_append`), and a replacement goes on holding (`suppressed_later`). The third is
about the loop that delivers them: each entry passes the gate with its evidence, in turn,
and the current value is answered only where there is one candidate and it was delivered
(`currentId_eq_some`). The gate itself is the one of `Gate`.

A query with `history` is the exception by design: it lists what was replaced as well
(`history_lists_replaced`). The access counters of the memories that were delivered are
left out.
-/

namespace IronMem

open Fallible

/-! ## The query -/

structure PolicyPrincipal where
  actor : String
  authority : String
  namespaces : List String
  capabilities : List String

/-- `PolicyPrincipal::authorize`. -/
def PolicyPrincipal.authorize (principal : PolicyPrincipal) (capability ns : String) :
    Except String Unit := do
  let ns := normalizeNamespace ns
  ensure (principal.namespaces.isEmpty || principal.namespaces.contains ns)
    ("actor '" ++ principal.actor ++ "' may not access namespace '" ++ ns ++ "'")
  ensure (principal.capabilities.contains capability)
    ("actor '" ++ principal.actor ++ "' lacks required capability '" ++ capability ++ "'")

/-- `trim_start_matches("agent:")`. -/
def trimAgent : List Char → List Char
  | 'a' :: 'g' :: 'e' :: 'n' :: 't' :: ':' :: rest => trimAgent rest
  | cs => cs

structure AssertionQuery where
  scope : Scope
  validAt : Option Int := none
  recordedBefore : Option Int := none
  history : Bool := false
  purpose : Option RecallPurpose := none

/-- What the delivery of one entry reads of the clock and draws. -/
structure DeliveryDraws where
  readNow : Int
  now : Int
  attestationNow : Int
  confirmationNow : Int
  recordNow : Int
  freshRequestId : String
  freshDecisionId : Nat → String
  freshEventId : Nat → String

/-- A call of the handler with a query. -/
structure QueryCall where
  enabled : Bool
  influence : InfluenceConfig
  principal : PolicyPrincipal
  query : AssertionQuery
  nowMillis : Int
  draws : Entry → DeliveryDraws

namespace QueryCall

def validAt (c : QueryCall) : Int := c.query.validAt.getD (c.nowMillis / 1000)

def recordedBefore (c : QueryCall) : Int := c.query.recordedBefore.getD c.nowMillis

end QueryCall

/-- The events recorded by an instant. -/
def known (recordedBefore : Int) (all : List Entry) : List Entry :=
  all.filter fun e => e.event.recordedAt ≤ recordedBefore

/-- Some known event that is valid from then on replaces it. -/
def suppressed (known : List Entry) (validAt : Int) (id : String) : Bool :=
  known.any fun new => new.event.supersedes == some id && decide (new.event.validFrom ≤ validAt)

/-- The candidates of a query. -/
def candidates (history : Bool) (validAt recordedBefore : Int) (all : List Entry) : List Entry :=
  (known recordedBefore all).filter fun e => history ||
    (e.event.value.isSome && decide (e.event.validFrom ≤ validAt) &&
      (e.event.validUntil.all fun stop => validAt < stop) &&
        !suppressed (known recordedBefore all) validAt e.id)

/-- The channel the principal recalls through. -/
def PolicyPrincipal.channel (principal : PolicyPrincipal) : PurposeChannel :=
  if principal.authority = "local_operator" then .localOperator principal.actor
  else .remote (if principal.authority = "authenticated_agent"
    then some (String.ofList (trimAgent principal.actor.toList)) else none)

/-- The gate call on the evidence of an entry. -/
def QueryCall.gate (c : QueryCall) (entry : Entry) (memory : Memory) : GateCall where
  memories := [memory]
  «namespace» := c.query.scope.namespace
  project := c.query.scope.project
  suppliedPurpose := c.query.purpose
  channel := c.principal.channel
  consumer := { reasoningOnlyChannel := true }
  config := c.influence
  now := (c.draws entry).now
  attestationNow := (c.draws entry).attestationNow
  confirmationNow := (c.draws entry).confirmationNow
  recordNow := (c.draws entry).recordNow
  freshRequestId := (c.draws entry).freshRequestId
  freshDecisionId := (c.draws entry).freshDecisionId
  freshEventId := (c.draws entry).freshEventId

/-- One round of the loop over the candidates: nothing for an entry that is withheld,
else whether it may be reasoned with only. -/
def QueryCall.deliver (services : Services) (c : QueryCall) (db : Database) (entry : Entry) :
    Database × Except String (Option Bool) :=
  match db.getMemoryByIdInNamespace (c.draws entry).readNow entry.event.memoryId
      c.query.scope.namespace with
  | none => (db, .ok none)
  | some memory =>
      if memory.project != c.query.scope.project ||
          services.codec.digest (utf8 memory.summary) != entry.event.evidenceHash then
        (db, .ok none)
      else match gateMemoriesWithQuery services db (c.gate entry memory) with
        | (db, .error e) => (db, .error e)
        | (db, .ok gate) =>
            if gate.authorized.isEmpty && gate.advisory.isEmpty then (db, .ok none)
            else (db, .ok (some !gate.advisory.isEmpty))

/-- The loop over the candidates: whether any was withheld, and the visible ones. -/
def QueryCall.deliverAll (services : Services) (c : QueryCall) :
    List Entry → Database → Database × Except String (Bool × List (Entry × Bool))
  | [], db => (db, .ok (false, []))
  | entry :: rest, db =>
      match c.deliver services db entry with
      | (db, .error e) => (db, .error e)
      | (db, .ok out) =>
          match c.deliverAll services rest db with
          | (db, .error e) => (db, .error e)
          | (db, .ok (withheld, visible)) =>
              (db, .ok (out.isNone || withheld,
                (out.toList.map fun reasoningOnly => (entry, reasoningOnly)) ++ visible))

structure AssertionAnswer where
  scope : Scope
  version : Int
  validAt : Int
  recordedBefore : Int
  status : String
  currentId : Option String
  assertions : List (Entry × Bool)

/-- What the handler answers once the candidates have been gone through. -/
def QueryCall.answer (c : QueryCall) (all : List Entry) (withheld : Bool)
    (visible : List (Entry × Bool)) : AssertionAnswer where
  scope := c.query.scope
  version := (all.getLast?.map fun e => e.event.version).getD 0
  validAt := c.validAt
  recordedBefore := c.recordedBefore
  status :=
    if withheld then "incomplete"
    else if c.query.history then "history"
    else if visible.length > 1 then "conflict"
    else if visible.isEmpty then "unknown"
    else "current"
  currentId :=
    if !c.query.history && !withheld && visible.length == 1 then
      visible.head?.map fun v => v.1.id
    else none
  assertions := visible

/-- The checks before the loop, and the history they end with. -/
def QueryCall.load (services : Services) (c : QueryCall) (db : Database) :
    Except String (List Entry) := do
  ensure c.enabled
    "structured assertions are disabled; set assertions.enabled=true to opt in"
  c.query.scope.validate
  c.principal.authorize "assertions:read" c.query.scope.namespace
  entries services.codec (db.table ASSERTIONS) c.query.scope

/-- The candidates of the call. -/
def QueryCall.candidates (c : QueryCall) (all : List Entry) : List Entry :=
  IronMem.candidates c.query.history c.validAt c.recordedBefore all

/-- `assertions::handle` on a query. -/
def QueryCall.handle (services : Services) (c : QueryCall) (db : Database) :
    Database × Except String AssertionAnswer :=
  match c.load services db with
  | .error e => (db, .error e)
  | .ok all =>
      match c.deliverAll services (c.candidates all) db with
      | (db, .error e) => (db, .error e)
      | (db, .ok (withheld, visible)) => (db, .ok (c.answer all withheld visible))

/-- The current value it answers with, if any. -/
def QueryCall.currentId (services : Services) (c : QueryCall) (db : Database) : Option String :=
  match (c.handle services db).2 with
  | .ok a => a.currentId
  | .error _ => none

/-! ## Candidates

Whether an event is a candidate depends on what is known and valid at the two instants, and on
nothing that happens to other candidates. Adding later events to the history leaves what was
known as it was; moving the instants forward keeps every replacement in force. -/

section Candidates

variable {all later : List Entry} {e s : Entry} {t t' r r' : Int} {history : Bool}

theorem mem_known : e ∈ known r all ↔ e ∈ all ∧ e.event.recordedAt ≤ r := by
  rw [known, List.mem_filter, decide_eq_true_eq]

/-- What is recorded later is not known yet. -/
theorem known_append (hlater : ∀ e ∈ later, r < e.event.recordedAt) :
    known r (all ++ later) = known r all := by
  have hnone : later.filter (fun e => decide (e.event.recordedAt ≤ r)) = [] := by
    rw [List.filter_eq_nil_iff]
    intro e he
    have := hlater e he
    rw [decide_eq_true_eq]
    omega
  rw [known, List.filter_append, hnone, List.append_nil, known]

theorem candidates_append (hlater : ∀ e ∈ later, r < e.event.recordedAt) :
    candidates history t r (all ++ later) = candidates history t r all := by
  unfold candidates
  rw [known_append hlater]

/-- A replacement holds at every later instant, and once more is recorded. -/
theorem suppressed_later (hs : s ∈ known r all) (hsup : s.event.supersedes = some e.id)
    (hfrom : s.event.validFrom ≤ t) (ht : t ≤ t') (hr : r ≤ r') :
    suppressed (known r' (all ++ later)) t' e.id = true := by
  obtain ⟨hmem, hrecorded⟩ := mem_known.mp hs
  rw [suppressed, List.any_eq_true]
  refine ⟨s, mem_known.mpr ⟨List.mem_append_left _ hmem, by omega⟩, ?_⟩
  rw [hsup, beq_self_eq_true, Bool.true_and, decide_eq_true_eq]
  omega

theorem not_candidate_of_suppressed (h : suppressed (known r all) t e.id = true) :
    e ∉ candidates false t r all := by
  intro he
  obtain ⟨-, hcond⟩ := List.mem_filter.mp he
  simp [h] at hcond

end Candidates

/-! ## Delivery

Each candidate is put to the gate with its evidence, and the loop remembers whether any was
withheld. The answer has a current value only if none was and one event is visible: with two
candidates the history itself is ambiguous, and then no value is current. -/

section Delivery

variable {services : Services} {c c' : QueryCall} {db db' : Database} {es all : List Entry} {e : Entry}
  {withheld : Bool} {visible : List (Entry × Bool)}

/-- What is visible is among the candidates, and is all of them when none was withheld. -/
theorem deliverAll_ok (h : c.deliverAll services es db = (db', .ok (withheld, visible))) :
    (visible.map Prod.fst).Sublist es ∧ (withheld = false → visible.map Prod.fst = es) := by
  induction es generalizing db db' withheld visible with
  | nil =>
      obtain ⟨-, hok⟩ := Prod.mk.inj h
      obtain ⟨rfl, rfl⟩ := Prod.mk.inj (Except.ok.inj hok)
      exact ⟨.slnil, fun _ => rfl⟩
  | cons entry rest ih =>
      unfold QueryCall.deliverAll at h
      split at h
      · cases h
      · next db₁ out hone =>
          split at h
          · cases h
          · next db₂ withheld₁ visible₁ hrest =>
              obtain ⟨hsub, hall⟩ := ih hrest
              obtain ⟨-, hok⟩ := Prod.mk.inj h
              obtain ⟨rfl, rfl⟩ := Prod.mk.inj (Except.ok.inj hok)
              cases out with
              | none => exact ⟨hsub.cons entry, nofun⟩
              | some reasoningOnly =>
                  refine ⟨hsub.cons_cons entry, fun hw => ?_⟩
                  exact congrArg (entry :: ·) (hall hw)

/-- The evidence of an entry may be delivered. -/
def QueryCall.Delivers (services : Services) (c : QueryCall) (db : Database) (e : Entry) : Prop :=
  ∃ db' reasoningOnly, c.deliver services db e = (db', .ok (some reasoningOnly))

/-- One candidate is visible alone when it may be delivered. -/
theorem deliverAll_singleton : (∃ db' reasoningOnly,
      c.deliverAll services [e] db = (db', .ok (false, [(e, reasoningOnly)]))) ↔
    c.Delivers services db e := by
  unfold QueryCall.Delivers QueryCall.deliverAll QueryCall.deliverAll
  constructor
  · rintro ⟨db', reasoningOnly, h⟩
    split at h
    · cases h
    · next db₁ out hone =>
        cases out with
        | none => cases h
        | some reasoningOnly => exact ⟨db₁, reasoningOnly, hone⟩
  · rintro ⟨db', reasoningOnly, h⟩
    rw [h]
    exact ⟨db', reasoningOnly, rfl⟩

theorem answer_currentId {id : String} : (c.answer all withheld visible).currentId = some id ↔
    c.query.history = false ∧ withheld = false ∧
      ∃ e reasoningOnly, visible = [(e, reasoningOnly)] ∧ id = e.id := by
  simp only [QueryCall.answer]
  split
  · next hone =>
      simp only [Bool.and_eq_true, Bool.not_eq_true', beq_iff_eq] at hone
      obtain ⟨⟨hhistory, hwithheld⟩, hlength⟩ := hone
      obtain ⟨⟨e, reasoningOnly⟩, rfl⟩ := List.length_eq_one_iff.mp hlength
      rw [List.head?_cons, Option.map_some, Option.some.injEq]
      constructor
      · rintro rfl
        exact ⟨hhistory, hwithheld, e, reasoningOnly, rfl, rfl⟩
      · rintro ⟨-, -, e', b', hvisible, rfl⟩
        obtain ⟨hv, -⟩ := List.cons.inj hvisible
        rw [hv]
  · next hnone =>
      refine ⟨nofun, ?_⟩
      rintro ⟨hhistory, rfl, e, reasoningOnly, rfl, -⟩
      exact absurd (by rw [hhistory]; rfl) hnone

/-- The current value is that of the one candidate there is, delivered. -/
theorem currentId_eq_some {id : String} : c.currentId services db = some id ↔
    c.query.history = false ∧ ∃ all e, c.load services db = .ok all ∧ c.candidates all = [e] ∧
      c.Delivers services db e ∧ id = e.id := by
  unfold QueryCall.currentId QueryCall.handle
  cases hload : c.load services db with
  | error m => simp
  | ok all =>
      constructor
      · intro h
        split at h
        · next a hanswer =>
            dsimp only at hanswer
            split at hanswer
            · cases hanswer
            · next db' withheld visible hdeliver =>
                obtain rfl := Except.ok.inj hanswer
                obtain ⟨hhistory, rfl, e, reasoningOnly, rfl, rfl⟩ := answer_currentId.mp h
                have hone : c.candidates all = [e] := ((deliverAll_ok hdeliver).2 rfl).symm
                rw [hone] at hdeliver
                exact ⟨hhistory, all, e, rfl, hone,
                  deliverAll_singleton.mp ⟨db', reasoningOnly, hdeliver⟩, rfl⟩
        · cases h
      · rintro ⟨hhistory, all', e, hall, hone, hdelivers, rfl⟩
        obtain rfl := Except.ok.inj hall
        obtain ⟨db', reasoningOnly, hdeliver⟩ := deliverAll_singleton.mpr hdelivers
        dsimp only
        rw [hone, hdeliver]
        exact answer_currentId.mpr ⟨hhistory, rfl, e, reasoningOnly, rfl, rfl⟩

/-- It lists candidates only. -/
theorem handle_assertions {a : AssertionAnswer} (h : c.handle services db = (db', .ok a)) :
    ∃ all, c.load services db = .ok all ∧ ∀ v ∈ a.assertions, v.1 ∈ c.candidates all := by
  unfold QueryCall.handle at h
  split at h
  · cases h
  · next all hload =>
      split at h
      · cases h
      · next db₁ withheld visible hdeliver =>
          obtain rfl := Except.ok.inj (Prod.mk.inj h).2
          exact ⟨all, hload, fun v hv =>
            (deliverAll_ok hdeliver).1.subset (List.mem_map_of_mem hv)⟩

end Delivery

/-! ## Replaced and withheld advice does not come back -/

/-- Two calls ask the same of a scope, at the same instants. -/
structure SameQuestion (c c' : QueryCall) : Prop where
  scope : c'.query.scope = c.query.scope
  validAt : c'.validAt = c.validAt
  recordedBefore : c'.recordedBefore = c.recordedBefore
  history : c'.query.history = c.query.history

/-- Once replaced an event is no candidate again; what is recorded later changes nothing
about what was known; and the current value, if any, is that of the only candidate, whose
evidence was delivered: withholding more evidence leaves it or takes it away. -/
theorem assertion_queries_safe (services : Services) :
    (∀ (all later : List Entry) (e s : Entry) (t r t' r' : Int), s ∈ known r all →
      s.event.supersedes = some e.id → s.event.validFrom ≤ t → t ≤ t' → r ≤ r' →
        e ∉ candidates false t' r' (all ++ later)) ∧
    (∀ (all later : List Entry) (t r : Int) (history : Bool),
      (∀ e ∈ later, r < e.event.recordedAt) →
        candidates history t r (all ++ later) = candidates history t r all) ∧
    (∀ (c : QueryCall) (db : Database),
      (∀ db' a, c.handle services db = (db', .ok a) → ∃ all, c.load services db = .ok all ∧
        ∀ v ∈ a.assertions, v.1 ∈ c.candidates all) ∧
      (c.currentId services db = none ∨ ∃ all e, c.load services db = .ok all ∧
        c.candidates all = [e] ∧ c.currentId services db = some e.id)) ∧
    ∀ (c c' : QueryCall) (db db' : Database) (all : List Entry), SameQuestion c c' →
      c.load services db = .ok all → c'.load services db' = .ok all →
        (∀ e ∈ c.candidates all, c'.Delivers services db' e → c.Delivers services db e) →
          c'.currentId services db' = none ∨
            c'.currentId services db' = c.currentId services db := by
  refine ⟨fun all later e s t r t' r' hs hsup hfrom ht hr => ?_,
    fun all later t r history hlater => candidates_append hlater,
    fun c db => ⟨fun db' a h => handle_assertions h, ?_⟩,
    fun c c' db db' all hsame hload hload' hfewer => ?_⟩
  · exact not_candidate_of_suppressed (suppressed_later hs hsup hfrom ht hr)
  · cases hid : c.currentId services db with
    | none => exact Or.inl rfl
    | some id =>
        obtain ⟨-, all, e, hload, hone, -, rfl⟩ := currentId_eq_some.mp hid
        exact Or.inr ⟨all, e, hload, hone, rfl⟩
  · cases hid : c'.currentId services db' with
    | none => exact Or.inl rfl
    | some id =>
        obtain ⟨hhistory, all', e, hall, hone, hdelivers, rfl⟩ := currentId_eq_some.mp hid
        obtain rfl := Except.ok.inj (hload'.symm.trans hall)
        have hone' : c.candidates all = [e] := by
          rw [← hone, QueryCall.candidates, QueryCall.candidates, hsame.history, hsame.validAt,
            hsame.recordedBefore]
        have hdelivers' := hfewer e (hone' ▸ List.mem_singleton_self e) hdelivers
        exact Or.inr (currentId_eq_some.mpr
          ⟨hsame.history ▸ hhistory, all, e, hload, hone', hdelivers', rfl⟩).symm

/-! ### A replaced theme -/

/-- A codec that tells the events of one scope apart by their versions, and reads the
first one. -/
def versionCodec : Codec :=
  { jsonCodec [] with
    eventToVec := fun e => utf8 (toString e.version)
    eventFromStr := fun s =>
      if s = "1" then .ok (themeEvent "dark") else .error "expected value" }

/-- The theme was dark at first. -/
def themeEntry : Entry := ⟨eventId versionCodec (themeEvent "dark"), themeEvent "dark"⟩

/-- Since the instant 50 it is light, until the instant 60. -/
def lighterEvent : Event where
  scope := ⟨"team", "app", "editor", "theme"⟩
  version := 2
  memoryId := 2
  evidenceHash := "root"
  value := some "light"
  validFrom := 50
  validUntil := some 60
  supersedes := some themeEntry.id
  recordedAt := 200
  actor := "ana"
  previousHash := some themeEntry.id

def lighterEntry : Entry := ⟨eventId versionCodec lighterEvent, lighterEvent⟩

def themeServices : Services where
  codec := versionCodec
  tokens := {
    urlSafeDecode := fun _ => none
    verifySlice := fun _ _ _ => false
    attestationFromSlice := fun _ => none
    confirmationFromSlice := fun _ => none }
  readFile := fun _ => .error "No such file or directory"
  taskListFromStr := fun _ => .ok []
  configToVec := fun _ => []

/-- The operator asks for the theme at the instant 10. -/
def askTheme : QueryCall where
  enabled := true
  influence := {}
  principal := ⟨"ana", "local_operator", [], ["assertions:read"]⟩
  query := { scope := (themeEvent "dark").scope, validAt := some 10 }
  nowMillis := 500000
  draws := fun _ => ⟨500, 500, 500, 500, 500, "q", fun _ => "d", fun _ => "e"⟩

/-- The dark theme with its evidence, in one namespace or another. -/
def themeEvidence (ns : String) : Database where
  table
    | "assertion_events" => [jsonObject
        (("id", .str themeEntry.id) :: ("data", .str "1") :: eventColumns themeEntry.event)]
    | "memories" => [newMemoryRow 1 "app" "remember" "root" none 100]
    | "memory_meta" => [(newMetaRow 1 100 "r1").set "namespace" (.str ns)]
    | _ => []

/-- After the light theme has ended the dark one is not back; and evidence that has left
the namespace takes the current theme away. -/
theorem assertion_queries_safe_theme :
    themeEntry ∉ candidates false 70 200 [themeEntry, lighterEntry] ∧
    candidates false 10 100 [themeEntry, lighterEntry] = candidates false 10 100 [themeEntry] ∧
    (askTheme.currentId themeServices (themeEvidence "team") = some themeEntry.id) ∧
    askTheme.currentId themeServices (themeEvidence "other") = none := by
  obtain ⟨hreplaced, hlater, -, hfewer⟩ := assertion_queries_safe themeServices
  have hload : ∀ ns ∈ ["team", "other"],
      askTheme.load themeServices (themeEvidence ns) = .ok [themeEntry] := by
    decide +kernel
  have hcurrent : askTheme.currentId themeServices (themeEvidence "team") = some themeEntry.id := by
    decide +kernel
  have hgone : ((askTheme.deliver themeServices (themeEvidence "other") themeEntry).2.toOption.bind
      id) = none := by
    decide +kernel
  refine ⟨hreplaced [themeEntry, lighterEntry] [] themeEntry lighterEntry 50 200 70 200
      (mem_known.mpr ⟨by simp, by decide⟩) rfl (by decide) (by decide) (by decide),
    hlater [themeEntry] [lighterEntry] 10 100 false (by decide), hcurrent, ?_⟩
  have hnone : ∀ e ∈ askTheme.candidates [themeEntry],
      ¬ askTheme.Delivers themeServices (themeEvidence "other") e := by
    intro e he
    obtain rfl : e = themeEntry := by
      simpa using (mem_known.mp (List.mem_of_mem_filter he)).1
    rintro ⟨db', reasoningOnly, h⟩
    rw [h] at hgone
    cases hgone
  rcases hfewer askTheme askTheme (themeEvidence "team") (themeEvidence "other") [themeEntry]
    ⟨rfl, rfl, rfl, rfl⟩ (hload _ (by simp)) (hload _ (by simp))
    (fun e he h => absurd h (hnone e he)) with hid | hid
  · exact hid
  · rw [hcurrent] at hid
    obtain ⟨-, all, e, hall, hone, hdelivers, -⟩ := currentId_eq_some.mp hid
    rw [hload _ (by simp)] at hall
    obtain rfl := Except.ok.inj hall
    exact absurd hdelivers (hnone e (hone ▸ List.mem_singleton_self e))

/-- A query for the history lists it all the same. -/
theorem history_lists_replaced : validateChain versionCodec [themeEntry, lighterEntry] = .ok () ∧
    lighterEntry ∈ known 200 [themeEntry, lighterEntry] ∧
    lighterEntry.event.supersedes = some themeEntry.id ∧ lighterEntry.event.validFrom ≤ 50 ∧
    themeEntry ∈ candidates true 50 200 [themeEntry, lighterEntry] := by
  have hvalid : okAnd (fun _ => true) (validateChain versionCodec [themeEntry, lighterEntry])
      = true := by decide +kernel
  obtain ⟨⟨⟩, hvalid, -⟩ := okAnd_eq_true.mp hvalid
  refine ⟨hvalid, mem_known.mpr ⟨by simp, by decide⟩, rfl, by decide, ?_⟩
  exact List.mem_filter.mpr ⟨mem_known.mpr ⟨by simp, by decide⟩, rfl⟩

end IronMem
