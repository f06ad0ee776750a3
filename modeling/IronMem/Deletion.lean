import IronMem.Json
import IronMem.Statements

/-!
# Governed deletion

`governed_delete_memory` as the sequence of statements it commits, and what is
left behind when one of them fails. The tombstone, the ledger entry, the
released reference, the collection and the deletion are five commits, and the
row of `memories` goes last: a call that fails in between has already changed
something (`failsEarly_of_unchanged`), and a retry does it again.

What is said here is said exactly:

- **one call**: it leaves everything alone if and only if it is stopped before it
  has committed anything (`FailsEarly`). A tombstone that writes the values that
  are there already counts as nothing.
- **calls until one succeeds**: the ledger has one `forget` entry more and the
  transcript one reference less if and only if every call before the last was
  stopped early (`AllFailEarly`) and the transcript was counted (`Counted`). A
  restored transcript may have the count 0, and then there is nothing to take.

The sequences are lists of calls, each with the faults it meets, and `EachCall`
carries a condition along them. A call on a memory that is gone changes nothing
(`run_of_absent`), so that no `Ok(false)` stands before the `Ok(true)` at the end.
-/

namespace IronMem

/-- The payload of the `forget` entry. -/
def forgetPayload (codec : Codec) (memory : Memory) (info : MemoryMetaInfo) (ns : String)
    (reason sessionBlob : Option String) (now : Int) : String :=
  codec.recordToString (jsonObject [
    ("classification", .str info.classification), ("kind", .str info.kind),
    ("namespace", .str ns), ("project", .str memory.project),
    ("reason", Value.ofOptionStr reason), ("record_hash", Value.ofOptionStr info.recordHash),
    ("scope", .str info.scope), ("session_blob", Value.ofOptionStr sessionBlob),
    ("source_type", .str info.sourceType), ("tombstoned_at", .int now)])

/-- `decref_memory_session_blob`. -/
def decrefMemorySessionBlob (id : Int) : Call Unit := do
  let blob ← Proc.query .select fun db => db.getMemorySessionBlob id
  match blob with
  | some hash => Proc.exec (.decref hash) fun db => .ok ((), decrefBlob hash db)
  | none => pure ()

/-- The arguments of one call and the clock readings it takes. -/
structure DeleteArgs where
  actor : Option String := none
  reason : Option String := none
  now : Int
  ledgerNow : Int

/-- The statements after the ledger entry: release the transcript, collect,
delete the row. -/
def forgetTail (id : Int) : Call Bool := do
  decrefMemorySessionBlob id
  let _ ← Proc.exec .gc fun db => .ok (gcBlobs db)
  Proc.exec (.deleteMemory id) fun db => .ok (deleteMemory id db)

/-- The `forget` entry, as a transaction on the database it meets. -/
def appendForget (codec : Codec) (id : Int) (args : DeleteArgs) (memory : Memory)
    (info : MemoryMetaInfo) (sessionBlob : Option String) (db : Database) :
    Except String (String × Database) :=
  let ns := normalizeNamespace info.namespace
  appendMemoryLedger codec ns (some id) "forget" args.actor
    (forgetPayload codec memory info ns args.reason sessionBlob args.now) args.ledgerNow db

/-- The statements after the hold check. -/
def forgetMemory (codec : Codec) (id : Int) (args : DeleteArgs) (memory : Memory)
    (info : MemoryMetaInfo) : Call Bool := do
  Proc.exec (.tombstone id) fun db => .ok ((), tombstoneMemory id args.now args.reason db)
  let blob ← Proc.query .select fun db => db.getMemorySessionBlob id
  let _ ← Proc.exec .appendLedger (appendForget codec id args memory info blob)
  forgetTail id

/-- `governed_delete_memory`. -/
def governedDeleteMemory (codec : Codec) (id : Int) (args : DeleteArgs) : Call Bool := do
  let memory ← Proc.query .select fun db => db.getMemoryByIdAnyNamespace id
  match memory with
  | none => return false
  | some memory =>
      let info ← Proc.query .select fun db => db.getMemoryMetaFull id
      if info.legalHold then
        Proc.fail ("memory " ++ toString id ++ " is under legal hold and cannot be forgotten")
      else forgetMemory codec id args memory info

/-! ## What one call does

The last three statements together are `forgetTail`. Of these the ledger sees nothing, and where
none fails they amount to one function of the database (`releaseAndDelete`). -/

section Runs

variable {codec : Codec} {id : Int} {args : DeleteArgs} {memory : Memory} {info : MemoryMetaInfo}
  {fault : Nat → Option String} {db db' : Database}

theorem run_governedDeleteMemory (fault : Nat → Option String) (db : Database) :
    (governedDeleteMemory codec id args).run fault db
      = match fault 0 with
        | some e => (.error e, db)
        | none => match db.getMemoryByIdAnyNamespace id with
          | none => (.ok false, db)
          | some memory => match fault 1 with
            | some e => (.error e, db)
            | none =>
                if (db.getMemoryMetaFull id).legalHold then
                  (.error ("memory " ++ toString id
                    ++ " is under legal hold and cannot be forgotten"), db)
                else (forgetMemory codec id args memory (db.getMemoryMetaFull id)).run
                  (Proc.later (Proc.later fault)) db := by
  simp only [governedDeleteMemory, Proc.query_bind, Proc.run_query]
  cases fault 0 with
  | some e => rfl
  | none =>
      cases db.getMemoryByIdAnyNamespace id with
      | none => rfl
      | some memory =>
          simp only [Proc.run_query, Proc.later]
          cases fault (0 + 1) with
          | some e => rfl
          | none =>
              dsimp only
              split <;> rfl

theorem run_forgetMemory (fault : Nat → Option String) (db : Database) :
    (forgetMemory codec id args memory info).run fault db
      = match fault 0 with
        | some e => (.error e, db)
        | none =>
            let db₁ := tombstoneMemory id args.now args.reason db
            match fault 1 with
            | some e => (.error e, db₁)
            | none => match fault 2 with
              | some e => (.error e, db₁)
              | none =>
                  match appendForget codec id args memory info (db₁.getMemorySessionBlob id) db₁ with
                  | .error e => (.error e, db₁)
                  | .ok (_, db₂) =>
                      (forgetTail id).run (Proc.later (Proc.later (Proc.later fault))) db₂ := by
  simp only [forgetMemory, Proc.exec_bind, Proc.query_bind, Proc.run, Proc.later, Nat.zero_add,
    Nat.reduceAdd]
  cases fault 0 with
  | some e => rfl
  | none =>
      cases fault 1 with
      | some e => rfl
      | none =>
          cases fault 2 with
          | some e => rfl
          | none => dsimp only; split <;> simp_all

/-- Releasing, collecting and deleting leave the ledger alone. -/
theorem run_forgetTail_ledger (id : Int) (fault : Nat → Option String) (db : Database) :
    ((forgetTail id).run fault db).2.table "memory_ledger" = db.table "memory_ledger" := by
  have hpres : Proc.Preserves
      (fun s : Database => s.table "memory_ledger" = db.table "memory_ledger") (forgetTail id) := by
    refine .bind (.bind (.query _ _) fun blob => ?_) fun _ => .bind (.exec ?_) fun _ => .exec ?_
    · cases blob with
      | none => exact .done _
      | some hash =>
          refine .exec fun s b s' hs h => ?_
          cases h
          rw [decrefBlob_table]
          exact hs
    · intro s b s' hs h
      cases h
      exact hs
    · intro s b s' hs h
      cases h
      exact hs
  exact hpres.run fault rfl

/-- What the statements after the ledger entry do when all succeed. -/
def releaseAndDelete (id : Int) (db : Database) : Database :=
  let released := match db.getMemorySessionBlob id with
    | some hash => decrefBlob hash db
    | none => db
  (deleteMemory id (gcBlobs released).2).2

theorem run_forgetTail_ok {b : Bool} (h : (forgetTail id).run fault db = (.ok b, db')) :
    b = (db.memoryRow id).isSome ∧ db' = releaseAndDelete id db := by
  have hrun := Proc.run_noFault_of_ok h
  have hfound (db₁ : Database) (htable : db₁.table = db.table) :
      (deleteMemory id (gcBlobs db₁).2).1 = (db.memoryRow id).isSome := by
    rw [Database.memoryRow, List.isSome_find?, ← htable]
    rfl
  simp only [forgetTail, decrefMemorySessionBlob, releaseAndDelete] at hrun ⊢
  cases hblob : db.getMemorySessionBlob id with
  | none =>
      simp [Proc.run, Proc.query, Proc.exec, Proc.noFault, hblob] at hrun
      exact ⟨hrun.1.symm.trans (hfound db rfl), hrun.2.symm⟩
  | some hash =>
      simp [Proc.run, Proc.query, Proc.exec, Proc.noFault, hblob] at hrun
      exact ⟨hrun.1.symm.trans (hfound _ (decrefBlob_table hash db)), hrun.2.symm⟩

end Runs

/-! ## Failed calls

A failed call has to leave the tables of the memory, the ledger and the counts as they were.
Whether it does is decided by what it wrote before it stopped, so `FailsEarly` speaks of the
first statements only, and of later ones where the tombstone was idle. -/

/-- What a failed call must leave as it was. -/
structure Unchanged (db db' : Database) : Prop where
  memories : db'.table "memories" = db.table "memories"
  metadata : db'.table "memory_meta" = db.table "memory_meta"
  ledger : db'.table "memory_ledger" = db.table "memory_ledger"
  refcounts : ∀ h : String, (db'.blobs[h]?).map Blob.refcount = (db.blobs[h]?).map Blob.refcount

theorem Unchanged.refl (db : Database) : Unchanged db db := ⟨rfl, rfl, rfl, fun _ => rfl⟩

/-- One call: its arguments, and which of its statements are made to fail. -/
structure DeleteCall where
  args : DeleteArgs
  fault : Nat → Option String

/-- The outcome of one call. -/
def DeleteCall.run (codec : Codec) (id : Int) (c : DeleteCall) (db : Database) :
    Except String Bool × Database :=
  (governedDeleteMemory codec id c.args).run c.fault db

/-- The tombstone update would write what is there already. -/
def TombstoneIdle (id : Int) (args : DeleteArgs) (db : Database) : Prop :=
  (tombstoneMemory id args.now args.reason db).table "memory_meta" = db.table "memory_meta"

/-- The ledger would refuse the `forget` entry (`entry_hash` is taken). -/
def LedgerRefuses (codec : Codec) (id : Int) (args : DeleteArgs) (db : Database) : Prop :=
  ∀ memory ∈ db.getMemoryByIdAnyNamespace id,
    (appendForget codec id args memory (db.getMemoryMetaFull id) (db.getMemorySessionBlob id)
      db).isOk = false

/-- The call is stopped before it commits anything: at one of its first three
statements (two reads and the tombstone), by a legal hold, or, where the
tombstone writes nothing new, no later than the ledger entry. -/
def FailsEarly (codec : Codec) (id : Int) (c : DeleteCall) (db : Database) : Prop :=
  (∃ i ≤ 2, c.fault i ≠ none) ∨ (db.getMemoryMetaFull id).legalHold = true ∨
    (TombstoneIdle id c.args db ∧
      ((∃ i ≤ 4, c.fault i ≠ none) ∨ LedgerRefuses codec id c.args db))

section Failed

variable {codec : Codec} {id : Int} {c : DeleteCall} {db db' : Database}

theorem TombstoneIdle.eq {args : DeleteArgs} (h : TombstoneIdle id args db) :
    tombstoneMemory id args.now args.reason db = db := by
  have htable : (tombstoneMemory id args.now args.reason db).table = db.table := by
    funext n
    by_cases hn : n = "memory_meta"
    · subst hn; exact h
    · simp [tombstoneMemory, hn]
  cases db
  simp only [tombstoneMemory, Database.updateRows, Database.setRows] at htable ⊢
  rw [htable]

/-- A call that fails early leaves the database alone. -/
theorem run_of_failsEarly (h : FailsEarly codec id c db) : (c.run codec id db).2 = db := by
  rw [DeleteCall.run, run_governedDeleteMemory]
  cases h0 : c.fault 0 with
  | some e => rfl
  | none =>
      cases hmem : db.getMemoryByIdAnyNamespace id with
      | none => rfl
      | some memory =>
          cases h1 : c.fault 1 with
          | some e => rfl
          | none =>
              by_cases hold : (db.getMemoryMetaFull id).legalHold = true
              · simp [hold]
              simp only [hold, Bool.false_eq_true, if_false, run_forgetMemory, Proc.later,
                Nat.zero_add, Nat.reduceAdd]
              cases h2 : c.fault 2 with
              | some e => rfl
              | none =>
                  -- what is left is the idle tombstone, stopped at the ledger entry
                  rcases h with ⟨i, hi, hne⟩ | hhold | ⟨hidle, hlate⟩
                  · match i, hi, hne with
                    | 0, _, hne => exact absurd h0 hne
                    | 1, _, hne => exact absurd h1 hne
                    | 2, _, hne => exact absurd h2 hne
                  · exact absurd hhold hold
                  simp only [hidle.eq]
                  cases h3 : c.fault 3 with
                  | some e => rfl
                  | none =>
                      cases h4 : c.fault 4 with
                      | some e => rfl
                      | none =>
                          rcases hlate with ⟨i, hi, hne⟩ | hrefuse
                          · match i, hi, hne with
                            | 0, _, hne => exact absurd h0 hne
                            | 1, _, hne => exact absurd h1 hne
                            | 2, _, hne => exact absurd h2 hne
                            | 3, _, hne => exact absurd h3 hne
                            | 4, _, hne => exact absurd h4 hne
                          · have hno := hrefuse memory hmem
                            cases happ : appendForget codec id c.args memory
                                (db.getMemoryMetaFull id) (db.getMemorySessionBlob id) db with
                            | error e => rfl
                            | ok r => rw [happ] at hno; cases hno

/-- A failed call that leaves everything alone has failed early. -/
theorem failsEarly_of_unchanged {e : String} (herr : (c.run codec id db).1 = .error e)
    (hun : Unchanged db (c.run codec id db).2) : FailsEarly codec id c db := by
  by_contra hlate
  simp only [FailsEarly, not_or, not_and, not_exists, ne_eq, not_not] at hlate
  obtain ⟨hfault, hhold, hidle⟩ := hlate
  rw [DeleteCall.run, run_governedDeleteMemory, hfault 0 (by omega)] at herr hun
  cases hmem : db.getMemoryByIdAnyNamespace id with
  | none => rw [hmem] at herr; cases herr
  | some memory =>
      simp only [hmem, hfault 1 (by omega), hhold, Bool.false_eq_true, if_false, run_forgetMemory, Proc.later,
        Nat.zero_add, Nat.reduceAdd, hfault 2 (by omega)] at herr hun
      cases h3 : c.fault 3 with
      | some e =>
          rw [h3] at hun
          exact absurd h3 (by simp [(hidle hun.metadata).1 3 (by omega)])
      | none =>
          rw [h3] at hun
          cases h4 : c.fault 4 with
          | some e =>
              rw [h4] at hun
              exact absurd h4 (by simp [(hidle hun.metadata).1 4 (by omega)])
          | none =>
              rw [h4] at hun
              cases happ : appendForget codec id c.args memory (db.getMemoryMetaFull id)
                  ((tombstoneMemory id c.args.now c.args.reason db).getMemorySessionBlob id)
                  (tombstoneMemory id c.args.now c.args.reason db) with
              | error e =>
                  simp only [happ] at hun
                  have hid : TombstoneIdle id c.args db := hun.metadata
                  refine (hidle hid).2 fun m hm => ?_
                  obtain rfl := Option.some.inj (hm.symm.trans hmem)
                  rw [hid.eq] at happ
                  rw [happ]
                  rfl
              | ok r =>
                  obtain ⟨hash, db₂⟩ := r
                  simp only [happ] at hun
                  obtain ⟨row, rfl, -, -⟩ := appendMemoryLedger_ok happ
                  have hledger := run_forgetTail_ledger id
                    (Proc.later (Proc.later (Proc.later (Proc.later (Proc.later c.fault)))))
                    ((tombstoneMemory id c.args.now c.args.reason db).insertRow "memory_ledger" row)
                  have hlen := congrArg List.length (hledger.symm.trans hun.ledger)
                  simp [tombstoneMemory] at hlen

end Failed

/-! ## Successful calls

A call that succeeds met no fault, so that its effect is the composition of its statements. The
transcript is stored as long as it is counted or some row names it. -/

/-- The `forget` entries of a memory. -/
def Database.forgetEntries (db : Database) (id : Int) : Nat :=
  (db.table "memory_ledger").countP fun r =>
    r.col "op_type" = .str "forget" ∧ r.col "memory_id" = .int id

section Succeeded

variable {codec : Codec} {id : Int} {c : DeleteCall} {db db' : Database}

/-- What a call that returns `Ok` has done: nothing where there is no memory, and
every statement where there is one. -/
theorem run_ok {b : Bool} (h : c.run codec id db = (.ok b, db')) :
    b = (db.getMemoryByIdAnyNamespace id).isSome ∧
      (b = true → ∃ row : Record, row.col "op_type" = .str "forget" ∧ row.col "memory_id" = .int id
        ∧ db' = releaseAndDelete id
          ((tombstoneMemory id c.args.now c.args.reason db).insertRow "memory_ledger" row)) := by
  have hrun : (governedDeleteMemory codec id c.args).run Proc.noFault db = (.ok b, db') :=
    Proc.run_noFault_of_ok h
  rw [run_governedDeleteMemory] at hrun
  simp only [Proc.noFault] at hrun
  cases hmem : db.getMemoryByIdAnyNamespace id with
  | none =>
      simp only [hmem, Prod.mk.injEq, Except.ok.injEq] at hrun
      exact ⟨hrun.1.symm, fun hb => absurd (hrun.1.trans hb) (by decide)⟩
  | some memory =>
      simp only [hmem] at hrun
      split at hrun
      · cases hrun
      · rw [run_forgetMemory] at hrun
        simp only [Proc.later, Proc.noFault] at hrun
        cases happ : appendForget codec id c.args memory (db.getMemoryMetaFull id)
            ((tombstoneMemory id c.args.now c.args.reason db).getMemorySessionBlob id)
            (tombstoneMemory id c.args.now c.args.reason db) with
        | error e => simp [happ] at hrun
        | ok r =>
            obtain ⟨hash, db₂⟩ := r
            simp only [happ] at hrun
            obtain ⟨row, rfl, hop, hid⟩ := appendMemoryLedger_ok happ
            obtain ⟨hb, hdb⟩ := run_forgetTail_ok hrun
            -- the row of `memories` is still there for the last statement
            have hrow : ((tombstoneMemory id c.args.now c.args.reason db).insertRow
                "memory_ledger" row).memoryRow id = db.memoryRow id := rfl
            rw [hrow] at hb
            rw [Database.getMemoryByIdAnyNamespace] at hmem
            refine ⟨?_, fun _ => ⟨row, hop, hid, hdb⟩⟩
            rw [hb, ← hmem, Option.isSome_map]

theorem releaseAndDelete_ledger (id : Int) (db : Database) :
    (releaseAndDelete id db).table "memory_ledger" = db.table "memory_ledger" := by
  unfold releaseAndDelete decrefBlob
  cases db.getMemorySessionBlob id with
  | none => rfl
  | some hash =>
      dsimp only
      split
      · split <;> rfl
      · rfl

/-- The transcript loses one reference, if it has one, and survives collection: the
metadata row of the memory still points at it. -/
theorem releaseAndDelete_blob {hash : String} {b : Blob}
    (hblob : db.getMemorySessionBlob id = some hash) (hb : db.blobs[hash]? = some b) :
    (releaseAndDelete id db).blobs[hash]?
      = some (if 0 < b.refcount then { b with refcount := b.refcount - 1 } else b) := by
  have hpinned : (decrefBlob hash db).pinned hash = true := by
    obtain ⟨r, hr, htext⟩ := Option.bind_eq_some_iff.mp hblob
    have hany : ((decrefBlob hash db).table "memory_meta").any
        (fun r => r.text "session_blob" == some hash) = true := by
      rw [decrefBlob_table]
      exact List.any_eq_true.mpr ⟨r, List.mem_of_find?_eq_some hr, by simp [htext]⟩
    simp [Database.pinned, hany]
  simp only [releaseAndDelete, hblob, deleteMemory, Database.blobs_deleteRows]
  rw [gcBlobs_of_pinned hpinned]
  by_cases hcount : 0 < b.refcount
  · simp [decrefBlob, hb, hcount]
  · simp [decrefBlob, hb, hcount]

theorem getMemorySessionBlob_forgotten (row : Record) (args : DeleteArgs) :
    ((tombstoneMemory id args.now args.reason db).insertRow "memory_ledger"
        row).getMemorySessionBlob id = db.getMemorySessionBlob id := by
  have hmeta : ((tombstoneMemory id args.now args.reason db).insertRow "memory_ledger"
      row).metaRow id = (tombstoneMemory id args.now args.reason db).metaRow id := rfl
  rw [Database.getMemorySessionBlob, hmeta, metaRow_tombstoneMemory,
    Database.getMemorySessionBlob]
  cases db.metaRow id with
  | none => rfl
  | some r =>
      simp only [Option.map_some, Option.bind_some, Record.text]
      split <;> simp

end Succeeded

/-! ## Sequences of calls

In a sequence that ends with the first `Ok(true)` every call before it has failed, or found no
memory. The last call succeeds and so the memory was there all along; so they have all failed,
and the count of entries and references reduces to how many of them failed early. -/

/-- Calls on one memory, one after the other. -/
def runCalls (codec : Codec) (id : Int) (db : Database) : List DeleteCall → Database
  | [] => db
  | c :: cs => runCalls codec id (c.run codec id db).2 cs

/-- `P` holds of every call of the sequence and the database that call meets. -/
def EachCall (codec : Codec) (id : Int) (P : DeleteCall → Database → Prop) (db : Database) :
    List DeleteCall → Prop
  | [] => True
  | c :: cs => P c db ∧ EachCall codec id P (c.run codec id db).2 cs

/-- Every call of the sequence fails early. -/
def AllFailEarly (codec : Codec) (id : Int) (db : Database) (calls : List DeleteCall) : Prop :=
  EachCall codec id (FailsEarly codec id) db calls

/-- No call of the sequence returns `Ok(true)`. -/
def NoneDeletes (codec : Codec) (id : Int) (db : Database) (calls : List DeleteCall) : Prop :=
  EachCall codec id (fun c db => (c.run codec id db).1 ≠ .ok true) db calls

/-- Every call of the sequence that returns an error leaves things as it met them. -/
def FailuresUnchanged (codec : Codec) (id : Int) (db : Database) (calls : List DeleteCall) :
    Prop :=
  EachCall codec id (fun c db => ∀ e, (c.run codec id db).1 = .error e →
    Unchanged db (c.run codec id db).2) db calls

/-- The session blob of the memory has lost one reference. -/
def LosesReference (id : Int) (db db' : Database) : Prop :=
  ∀ (hash : String) (b : Blob), db.getMemorySessionBlob id = some hash →
    db.blobs[hash]? = some b → db'.blobs[hash]? = some { b with refcount := b.refcount - 1 }

/-- The session blob of the memory, where it is stored, has a positive count.
`checkpoint::restore` writes blobs that are missing back with the count 0. -/
def Counted (id : Int) (db : Database) : Prop :=
  ∀ (hash : String) (b : Blob), db.getMemorySessionBlob id = some hash →
    db.blobs[hash]? = some b → 0 < b.refcount

section Sequences

variable {codec : Codec} {id : Int} {db db' : Database} {calls : List DeleteCall}

theorem runCalls_of_allFailEarly (h : AllFailEarly codec id db calls) :
    runCalls codec id db calls = db := by
  induction calls generalizing db with
  | nil => rfl
  | cons c cs ih =>
      obtain ⟨hc, hcs⟩ := h
      have hsame := run_of_failsEarly hc
      rw [runCalls, hsame]
      exact ih (hsame ▸ hcs)

theorem failuresUnchanged_of_allFailEarly (h : AllFailEarly codec id db calls) :
    FailuresUnchanged codec id db calls := by
  induction calls generalizing db with
  | nil => trivial
  | cons c cs ih =>
      obtain ⟨hc, hcs⟩ := h
      refine ⟨fun e _ => ?_, ih hcs⟩
      rw [run_of_failsEarly hc]
      exact .refl db

/-- Without a row of `memories` no call deletes anything. -/
theorem run_of_absent (h : db.getMemoryByIdAnyNamespace id = none) (c : DeleteCall) :
    (c.run codec id db).2 = db ∧ (c.run codec id db).1 ≠ .ok true := by
  rw [DeleteCall.run, run_governedDeleteMemory, h]
  cases c.fault 0 <;> simp

theorem runCalls_of_absent (h : db.getMemoryByIdAnyNamespace id = none)
    (calls : List DeleteCall) : runCalls codec id db calls = db := by
  induction calls with
  | nil => rfl
  | cons c cs ih => rw [runCalls, (run_of_absent h c).1, ih]

/-- Before a call that deletes the memory, every call is one that failed: one that
returns `Ok(false)` has not found the memory, and neither would the last one. -/
theorem allFailEarly_of_unchanged {last : DeleteCall} (hnone : NoneDeletes codec id db calls)
    (hlast : (last.run codec id (runCalls codec id db calls)).1 = .ok true)
    (hun : FailuresUnchanged codec id db calls) : AllFailEarly codec id db calls := by
  induction calls generalizing db with
  | nil => trivial
  | cons c cs ih =>
      obtain ⟨hc, hcs⟩ := hnone
      obtain ⟨hunc, huncs⟩ := hun
      refine ⟨?_, ih hcs hlast huncs⟩
      cases hres : (c.run codec id db).1 with
      | error e => exact failsEarly_of_unchanged hres (hunc e hres)
      | ok b =>
          have hb : b = false := by
            cases b with
            | false => rfl
            | true => exact absurd hres hc
          have habsent : db.getMemoryByIdAnyNamespace id = none := by
            have hfound := (run_ok (Prod.ext hres rfl)).1
            exact Option.not_isSome_iff_eq_none.mp (by rw [← hfound, hb]; decide)
          rw [runCalls, (run_of_absent habsent c).1, runCalls_of_absent habsent] at hlast
          exact absurd hlast (run_of_absent habsent last).2

/-- The last statements take one reference from the session blob exactly when it
was counted: `decref_blob` lowers no count below zero, and the metadata row of the
memory keeps the blob from being collected. -/
theorem losesReference_iff {before : Database}
    (hblob : db.getMemorySessionBlob id = before.getMemorySessionBlob id)
    (hblobs : db.blobs = before.blobs) :
    LosesReference id before (releaseAndDelete id db) ↔ Counted id before := by
  refine ⟨fun h hash b hhash hb => ?_, fun h hash b hhash hb => ?_⟩
  · have hgone := h hash b hhash hb
    rw [releaseAndDelete_blob (hblob.trans hhash) (hblobs ▸ hb)] at hgone
    by_contra hzero
    rw [if_neg hzero] at hgone
    have hcount := congrArg Blob.refcount (Option.some.inj hgone)
    simp only at hcount
    omega
  · rw [releaseAndDelete_blob (hblob.trans hhash) (hblobs ▸ hb), if_pos (h hash b hhash hb)]

end Sequences

/-- A failed call changes nothing exactly when it fails early. And over every
sequence of calls that ends with the first one to return `Ok(true)`: the failed
calls change nothing, the ledger gains one `forget` entry and the session blob
loses one reference, exactly when every call before the last one fails early and
the session blob is counted. -/
theorem governed_delete_atomic (codec : Codec) (id : Int) :
    (∀ (db : Database) (c : DeleteCall) (e : String), (c.run codec id db).1 = .error e →
      (Unchanged db (c.run codec id db).2 ↔ FailsEarly codec id c db)) ∧
    (∀ (db db' : Database) (retries : List DeleteCall) (last : DeleteCall),
      NoneDeletes codec id db retries →
      last.run codec id (runCalls codec id db retries) = (.ok true, db') →
      ((FailuresUnchanged codec id db retries ∧ db'.forgetEntries id = db.forgetEntries id + 1 ∧
          LosesReference id db db') ↔
        AllFailEarly codec id db retries ∧ Counted id db)) := by
  refine ⟨fun db c e herr => ⟨failsEarly_of_unchanged herr, fun h => ?_⟩,
    fun db db' retries last hnone hlast => ?_⟩
  · rw [run_of_failsEarly h]
    exact .refl db
  · -- what the last call does, once the calls before it are known to do nothing
    have hdone (hearly : AllFailEarly codec id db retries) :
        db'.forgetEntries id = db.forgetEntries id + 1 ∧
          (LosesReference id db db' ↔ Counted id db) := by
      rw [runCalls_of_allFailEarly hearly] at hlast
      obtain ⟨row, hop, hid, rfl⟩ := (run_ok hlast).2 rfl
      exact ⟨by simp [Database.forgetEntries, releaseAndDelete_ledger, tombstoneMemory, hop, hid],
        losesReference_iff (getMemorySessionBlob_forgotten row last.args) rfl⟩
    constructor
    · rintro ⟨hun, -, hloses⟩
      have hearly := allFailEarly_of_unchanged hnone (congrArg Prod.fst hlast) hun
      exact ⟨hearly, (hdone hearly).2.mp hloses⟩
    · rintro ⟨hearly, hcounted⟩
      exact ⟨failuresUnchanged_of_allFailEarly hearly, (hdone hearly).1,
        (hdone hearly).2.mpr hcounted⟩

/-! ## The defect, concretely -/

/-- One memory whose transcript is shared with another one. -/
def sharedTranscript : Database :=
  let metaOf (id : Int) : Record := jsonObject [
    ("memory_id", .int id), ("namespace", .str "local"), ("legal_hold", .int 0),
    ("session_blob", .str "h")]
  let memory (id : Int) : Record := jsonObject [
    ("rowid", .int id), ("project", .str "p"), ("session_id", .str "s"), ("summary", .str "m"),
    ("tags", .null), ("created_at", .int 1)]
  { table := fun
      | "memories" => [memory 1, memory 2]
      | "memory_meta" => [metaOf 1, metaOf 2]
      | _ => []
    blobs := (∅ : BTreeMap Blob).insert "h" ⟨[1], 1, 2, .zstd⟩ }

/-- A call whose `n`th statement fails. -/
def deleteFailingAt (n : Nat) (now : Int) : DeleteCall where
  args := { now := now, ledgerNow := now }
  fault := fun i => if i = n then some "disk I/O error" else none

/-- The call fails while it collects blobs. The error is returned, but the memory
is tombstoned, its `forget` entry is written and the shared transcript has lost a
reference. -/
theorem governed_delete_not_atomic :
    ((deleteFailingAt 7 100).run (jsonCodec []) 1 sharedTranscript).1 = .error "disk I/O error"
      ∧ ¬ Unchanged sharedTranscript
          ((deleteFailingAt 7 100).run (jsonCodec []) 1 sharedTranscript).2
      ∧ ((deleteFailingAt 7 100).run (jsonCodec []) 1 sharedTranscript).2.forgetEntries 1 = 1
      ∧ ((deleteFailingAt 7 100).run (jsonCodec []) 1 sharedTranscript).2.blobs["h"]?
          = some ⟨[1], 1, 1, .zstd⟩ := by
  have hmeta : ¬ ((deleteFailingAt 7 100).run (jsonCodec []) 1 sharedTranscript).2.table
      "memory_meta" = sharedTranscript.table "memory_meta" := by
    decide +kernel
  exact ⟨by decide +kernel, fun h => hmeta h.metadata, by decide +kernel, by decide +kernel⟩

theorem DeleteCall.run_eq {codec : Codec} {id : Int} {c : DeleteCall} {db : Database}
    {r : Except String Bool} (h : (c.run codec id db).1 = r) :
    c.run codec id db = (r, (c.run codec id db).2) := by
  rw [← h]

/-- One attempt is stopped at its first read, the next one goes through: one entry
is written, and the transcript keeps the reference of the other memory. -/
theorem governed_delete_atomic_retry :
    let done := (⟨{ now := 200, ledgerNow := 200 }, Proc.noFault⟩ : DeleteCall).run (jsonCodec []) 1
      (runCalls (jsonCodec []) 1 sharedTranscript [deleteFailingAt 0 100])
    done.2.forgetEntries 1 = 1 ∧ done.2.blobs["h"]? = some ⟨[1], 1, 1, .zstd⟩ := by
  have hnone : NoneDeletes (jsonCodec []) 1 sharedTranscript [deleteFailingAt 0 100] :=
    ⟨by decide +kernel, trivial⟩
  have hearly : AllFailEarly (jsonCodec []) 1 sharedTranscript [deleteFailingAt 0 100] :=
    ⟨Or.inl ⟨0, by decide, by decide⟩, trivial⟩
  have hblob : sharedTranscript.getMemorySessionBlob 1 = some "h" := by decide +kernel
  have hstored : sharedTranscript.blobs["h"]? = some ⟨[1], 1, 2, .zstd⟩ := by decide +kernel
  have hcounted : Counted 1 sharedTranscript := fun hash b hhash hb => by
    obtain rfl := Option.some.inj (hblob.symm.trans hhash)
    obtain rfl := Option.some.inj (hstored.symm.trans hb)
    decide
  obtain ⟨-, hentries, hloses⟩ := ((governed_delete_atomic (jsonCodec []) 1).2 sharedTranscript _
    [deleteFailingAt 0 100] ⟨{ now := 200, ledgerNow := 200 }, Proc.noFault⟩ hnone
    (DeleteCall.run_eq (by decide +kernel))).mpr ⟨hearly, hcounted⟩
  exact ⟨hentries.trans (by decide +kernel), hloses "h" _ hblob hstored⟩

end IronMem
