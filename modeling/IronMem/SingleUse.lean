import IronMem.Gate
import IronMem.Lib.ReplayCache

/-!
# Single-use tokens

The replay table is a `ReplayCache`: `claim_influence_nonce` is `claim` at the
clock reading it takes itself. A run of gate calls is therefore a run of
attempts on that cache (`honouredInRun_eq`), and the law of replay caches says
which runs honour a token twice: those where somebody presents it again, still
inside `validate_window`, after `expires_at` has passed and its row is purged.

A call reads the clock several times and registers up to two tokens, the first
refusal ending it. Its attempts are the tokens it gets as far as registering
(`attempted`), with the readings they were registered at; the readings of a run do
not decrease, so neither do those of the attempts (`accepted_readings`). Nothing
but a registration touches the replay table (`gate_nonces`).
-/

namespace IronMem

/-! ## Runs of the gate -/

/-- The tokens a call gets as far as registering: all of them up to the first
refusal, that one included. -/
def attempted (db : Database) : List NonceRow → List NonceRow
  | [] => []
  | row :: rows =>
      match claimInfluenceNonce db row with
      | (db, .ok ()) => row :: attempted db rows
      | (_, .error _) => [row]

/-- The tokens a call honours. -/
def honouredTokens (db : Database) : List NonceRow → List NonceRow
  | [] => []
  | row :: rows =>
      match claimInfluenceNonce db row with
      | (db, .ok ()) => row :: honouredTokens db rows
      | (_, .error _) => []

/-- The tokens a call presents that its verification accepts, `validate_window`
included. -/
def GateCall.accepted (services : Services) (call : GateCall) : List NonceRow :=
  if !call.config.enabled then []
  else match call.admit services with
    | .error _ => []
    | .ok admission => admission.tokens call

/-- The registrations attempted in a run of calls, in order. -/
def attemptedInRun (services : Services) (db : Database) : List GateCall → List NonceRow
  | [] => []
  | call :: calls =>
      attempted db (call.accepted services)
        ++ attemptedInRun services (gateMemoriesWithQuery services db call).1 calls

/-- The tokens honoured in a run of calls: accepted by `validate_window` and by
`claim_influence_nonce`. -/
def honouredInRun (services : Services) (db : Database) : List GateCall → List NonceRow
  | [] => []
  | call :: calls =>
      honouredTokens db (call.accepted services)
        ++ honouredInRun services (gateMemoriesWithQuery services db call).1 calls

/-- The clock readings of a call, in the order it takes them. -/
def GateCall.readings (call : GateCall) : List Int :=
  [call.now, call.attestationNow, call.confirmationNow, call.recordNow]

/-- The clock never goes back, within a call or between calls. -/
def MonotoneClock (calls : List GateCall) : Prop :=
  (calls.flatMap GateCall.readings).Pairwise (· ≤ ·)

instance (calls : List GateCall) : Decidable (MonotoneClock calls) :=
  inferInstanceAs (Decidable (List.Pairwise _ _))

/-- An attempt of the replay cache. -/
def NonceRow.attempt (row : NonceRow) : Int × NonceRow := (row.consumedAt, row)

/-! ## One registration is one step of the cache -/

section Step

open ReplayCache

/-- One registration, read as a step of the cache. -/
theorem claimInfluenceNonce_eq (db : Database) (row : NonceRow) :
    claimInfluenceNonce db row
      = ({ db with influenceReplayNonces :=
            (claim NonceRow.key NonceRow.expiresAt row.consumedAt row
              db.influenceReplayNonces).1 },
          if (claim NonceRow.key NonceRow.expiresAt row.consumedAt row
              db.influenceReplayNonces).2 then .ok ()
          else .error (row.tokenKind ++ "_replayed")) := by
  by_cases h : (purge NonceRow.expiresAt row.consumedAt db.influenceReplayNonces).any
      fun r => r.key = row.key
  · have h' : (db.influenceReplayNonces.filter fun r => ¬ r.expiresAt < row.consumedAt).any
      (fun r => r.key = row.key) = true := h
    simp only [claim, h, claimInfluenceNonce, h', if_true]
    rfl
  · have h' : ¬ (db.influenceReplayNonces.filter fun r => ¬ r.expiresAt < row.consumedAt).any
      (fun r => r.key = row.key) = true := h
    simp only [claim, h, claimInfluenceNonce, h']
    rfl

/-- The rows and the honoured tokens after the registrations of one call. -/
theorem run_attempted (db : Database) (rows : List NonceRow) :
    run NonceRow.key NonceRow.expiresAt db.influenceReplayNonces
        ((attempted db rows).map NonceRow.attempt)
      = ((claimTokens db rows).1.influenceReplayNonces, honouredTokens db rows) := by
  induction rows generalizing db with
  | nil => rfl
  | cons row rows ih =>
      have heq := claimInfluenceNonce_eq db row
      cases hok : (claim NonceRow.key NonceRow.expiresAt row.consumedAt row
          db.influenceReplayNonces).2 with
      | true =>
          rw [hok, if_pos rfl] at heq
          simp only [attempted, honouredTokens, claimTokens, heq, List.map_cons, run,
            NonceRow.attempt, hok, if_true]
          have hrest := ih { db with influenceReplayNonces :=
            (claim NonceRow.key NonceRow.expiresAt row.consumedAt row
              db.influenceReplayNonces).1 }
          dsimp only at hrest
          rw [hrest]
      | false =>
          rw [hok, if_neg Bool.false_ne_true] at heq
          simp [attempted, honouredTokens, claimTokens, heq, run, NonceRow.attempt, hok]

end Step

/-! ## A run of calls is a run of the cache

A call that is refused before it registers anything makes no attempt, and one whose first token
is refused makes one. The attempts of a run are those of its calls, one after the other. -/

theorem recordInfluenceDecisions_nonces (services : Services) (call : GateCall)
    (contexts : List (Int × CandidatePolicyContext)) (db : Database)
    (decisions : List InfluenceDecision) :
    (recordInfluenceDecisions services call contexts db decisions).influenceReplayNonces
      = db.influenceReplayNonces := by
  simp only [recordInfluenceDecisions]
  generalize (List.filter _ decisions).zipIdx = kept
  induction kept generalizing db with
  | nil => rfl
  | cons d ds ih => exact ih _

/-- Only the registrations of a call touch the replay table. -/
theorem gate_nonces (services : Services) (db : Database) (call : GateCall) :
    (gateMemoriesWithQuery services db call).1.influenceReplayNonces
      = (claimTokens db (call.accepted services)).1.influenceReplayNonces := by
  unfold gateMemoriesWithQuery GateCall.accepted
  split
  · rfl
  · cases call.admit services with
    | error e => rfl
    | ok admission =>
        dsimp only
        cases claimTokens db (admission.tokens call) with
        | mk db' r =>
            cases r with
            | error e => rfl
            | ok u =>
                simp only [GateCall.release]
                split
                · rfl
                · exact recordInfluenceDecisions_nonces ..

/-- The honoured tokens of a run of calls are those of its registrations. -/
theorem honouredInRun_eq (services : Services) (db : Database) (calls : List GateCall) :
    honouredInRun services db calls
      = ReplayCache.honoured NonceRow.key NonceRow.expiresAt db.influenceReplayNonces
          ((attemptedInRun services db calls).map NonceRow.attempt) := by
  induction calls generalizing db with
  | nil => rfl
  | cons call calls ih =>
      rw [honouredInRun, attemptedInRun, List.map_append, ReplayCache.honoured,
        ReplayCache.run_append, run_attempted, ih, ReplayCache.honoured, gate_nonces]

/-! ## The clock of the registrations

The readings of a call are in the order in which they are taken, and each call begins after the
one before has ended. So the readings of all attempts are in order. -/

theorem attempted_sublist (db : Database) (rows : List NonceRow) :
    (attempted db rows).Sublist rows := by
  induction rows generalizing db with
  | nil => exact .slnil
  | cons row rows ih =>
      unfold attempted
      split
      · exact (ih _).cons_cons row
      · exact (List.nil_sublist rows).cons_cons row

/-- The readings a call registers its tokens at are among its readings, in
order. -/
theorem accepted_readings (services : Services) (call : GateCall) :
    ((call.accepted services).map NonceRow.consumedAt).Sublist call.readings := by
  unfold GateCall.accepted
  split
  · exact List.nil_sublist _
  · cases call.admit services with
    | error e => exact List.nil_sublist _
    | ok a =>
        obtain ⟨purpose, attestation, confirmation⟩ := a
        have hpair : [call.attestationNow, call.confirmationNow].Sublist call.readings :=
          .cons _ (.cons_cons _ (.cons_cons _ (List.nil_sublist _)))
        refine List.Sublist.trans ?_ hpair
        cases attestation with
        | none =>
            cases confirmation with
            | none => simp [Admission.tokens]
            | some c =>
                simp only [Admission.tokens, Option.toList, List.map_nil, List.nil_append,
                  List.filter_cons, List.filter_nil]
                split <;> simp
        | some t =>
            cases confirmation with
            | none => simp [Admission.tokens]
            | some c =>
                simp only [Admission.tokens, Option.toList, List.map_cons, List.map_nil,
                  List.filter_cons, List.filter_nil, List.singleton_append]
                split <;> simp

theorem attemptedInRun_readings (services : Services) (db : Database) (calls : List GateCall) :
    ((attemptedInRun services db calls).map NonceRow.consumedAt).Sublist
      (calls.flatMap GateCall.readings) := by
  induction calls generalizing db with
  | nil => exact .slnil
  | cons call calls ih =>
      rw [attemptedInRun, List.map_append, List.flatMap_cons]
      exact (((attempted_sublist db _).map _).trans (accepted_readings services call)).append
        (ih _)

/-! ## Single use -/

/-- A run honours every token at most once exactly when no registration comes
after the expiry of a token with its kind, issuer and nonce that the run has
honoured before. -/
theorem gate_honours_once_iff (services : Services) (db : Database) (calls : List GateCall)
    (hclock : MonotoneClock calls) :
    ((honouredInRun services db calls).map NonceRow.key).Nodup
      ↔ ReplayCache.AllFresh NonceRow.key NonceRow.expiresAt [] db.influenceReplayNonces
          ((attemptedInRun services db calls).map NonceRow.attempt) := by
  rw [honouredInRun_eq]
  refine ReplayCache.honoured_nodup_iff ?_
  rw [List.map_map]
  exact List.Pairwise.sublist (attemptedInRun_readings services db calls) hclock

/-! ## The defect, concretely -/

section Receipt

/-- Codecs that read back what they are given, a key file, and one signed
receipt that expires at 1000. One purpose is hashed, so one digest is enough. -/
def receiptServices : Services :=
  let codec := { jsonCodec [] with digest := fun _ => "5f1d7c29" }
  { codec
    tokens := {
      urlSafeDecode := fun s => some (utf8 s)
      verifySlice := fun _ _ signature => signature = utf8 "sig"
      attestationFromSlice := fun _ => none
      confirmationFromSlice := fun bytes =>
        if bytes = utf8 "receipt" then some {
          receiptId := "r", issuer := "ops", confirmingActor := "ann", requestId := "q"
          purposeHash := purposeHash codec {
            requestId := "q", subjectAgentId := some "op", «namespace» := "local"
            project := "p", taskType := "deploy", intendedAction := none
            actionRisk := .critical, requireSourceBacking := false
            authority := .localOperator, attestationId := none
            confirmationReceiptId := none, issuedAt := 0, expiresAt := none }
          «namespace» := "local", project := "p", taskType := "deploy"
          intendedAction := none, maximumAuthorizedRisk := .critical
          issuedAt := 900, expiresAt := 1000, nonce := "n", singleUse := true }
        else none }
    readFile := fun _ => .ok (utf8 "0123456789abcdef0123456789abcdef")
    taskListFromStr := fun _ => .ok []
    configToVec := fun _ => [] }

/-- The local operator presents the receipt at the given time. -/
def presentReceipt (now : Int) : GateCall where
  memories := []
  «namespace» := "local"
  project := "p"
  suppliedPurpose := some {
    requestId := "q", «namespace» := "local", project := "p", taskType := "deploy"
    intendedAction := none, actionRisk := .critical
    confirmationReceipt := some "v1.receipt.sig" }
  channel := .localOperator "op"
  consumer := {}
  config := { enabled := true, confirmationKeyFile := some "key" }
  now := now
  attestationNow := now
  confirmationNow := now
  recordNow := now
  freshRequestId := ""
  freshDecisionId := fun _ => ""
  freshEventId := fun _ => ""

/-- A receipt that expires at 1000 is used at 990 and, inside the tolerated
skew, once more at 1001: the second call purges the row of the first. -/
theorem gate_honours_twice :
    ¬ ∀ (services : Services) (db : Database) (calls : List GateCall), MonotoneClock calls →
      ((honouredInRun services db calls).map NonceRow.key).Nodup := by
  intro hall
  have htwice := hall receiptServices {} [presentReceipt 990, presentReceipt 1001] (by decide)
  revert htwice
  decide +kernel

/-- Presented again at 995, before it expires, the receipt is refused. -/
theorem gate_honours_once_in_time :
    ((honouredInRun receiptServices {} [presentReceipt 990, presentReceipt 995]).map
      NonceRow.key).Nodup :=
  (gate_honours_once_iff receiptServices {} [presentReceipt 990, presentReceipt 995]
    (by decide)).mpr (by decide +kernel)

end Receipt

end IronMem
