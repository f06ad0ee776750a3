import IronMem.LedgerChain

/-!
# The epoch a migration starts

`verify_current_ledger_epoch` takes the first entry from the start of the epoch
on as it is: neither its link nor its hash is compared with the epoch's record.
Editing or reordering entries breaks the chain, removing the oldest ones does
not, the genesis entry included.

`Altered` is what somebody may do to the rows: edits, deletions and exchanges, in any
number. The epoch is the end of the ledger (`epochEntries_suffix`), so an altered epoch
that keeps its last entry is compared with a chain that has the same head. Two chains with
one head agree from the head backwards as far as the shorter one goes; the verifier
rejects all but the tails of what was written.
-/

namespace IronMem

open Fallible

/-- Entries edited, deleted or put in another order. -/
inductive Altered : List MemoryLedgerEntry → List MemoryLedgerEntry → Prop
  | refl (entries : List MemoryLedgerEntry) : Altered entries entries
  | edit {entries before after : List MemoryLedgerEntry} {e : MemoryLedgerEntry}
      (h : Altered entries (before ++ e :: after)) (e' : MemoryLedgerEntry) :
      Altered entries (before ++ e' :: after)
  | delete {entries before after : List MemoryLedgerEntry} {e : MemoryLedgerEntry}
      (h : Altered entries (before ++ e :: after)) : Altered entries (before ++ after)
  | swap {entries before after : List MemoryLedgerEntry} {e e' : MemoryLedgerEntry}
      (h : Altered entries (before ++ e :: e' :: after)) :
      Altered entries (before ++ e' :: e :: after)

theorem Altered.length_le {entries altered : List MemoryLedgerEntry} (h : Altered entries altered) :
    altered.length ≤ entries.length := by
  induction h with
  | refl => exact le_refl _
  | edit _ _ ih => simpa using ih
  | delete _ ih =>
      simp only [List.length_append, List.length_cons] at ih ⊢
      omega
  | swap _ ih => simpa using ih

/-- The entries of the current epoch as an auditor compares them. -/
def epochRecords (epoch : MemoryLedgerEpoch) (db : Database) (ns : String) : List LedgerRecord :=
  (epochEntries epoch (memoryLedgerForNamespace db ns)).map MemoryLedgerEntry.toLedgerRecord

section Epoch

variable {codec : Codec} {db : Database} {ns : String} {epoch : MemoryLedgerEpoch}

theorem verifyCurrentLedgerEpoch_valid (hepoch : latestMemoryLedgerEpoch db ns = some epoch) :
    (verifyCurrentLedgerEpoch codec db ns).valid = true ↔
      epochRecords epoch db ns ≠ [] ∧ HashChain.Chained (ledgerFormat codec)
        ((epochRecords epoch db ns).head?.bind LedgerRecord.prevHash) (epochRecords epoch db ns) := by
  have hhead : (epochRecords epoch db ns).head?.bind LedgerRecord.prevHash
      = (epochEntries epoch (memoryLedgerForNamespace db ns)).head?.bind fun e => e.prevHash := by
    rw [epochRecords, List.head?_map, Option.bind_map]
    rfl
  rw [hhead, epochRecords, HashChain.chained_map, ← HashChain.firstBroken_eq_none]
  simp only [verifyCurrentLedgerEpoch, hepoch]
  split <;> simp [*]

theorem mem_ledgerEpochs {e : MemoryLedgerEpoch} (h : e ∈ ledgerEpochs db ns) :
    ∃ r ∈ db.table "memory_ledger_epochs", r.text "namespace" = some (normalizeNamespace ns) ∧
      MemoryLedgerEpoch.ofRow r = e := by
  obtain ⟨r, hr, rfl⟩ := List.mem_map.mp ((RowDiff.mem_sortBy _).mp h)
  obtain ⟨hr, hns⟩ := List.mem_filter.mp hr
  exact ⟨r, hr, by simpa using hns, rfl⟩

/-- The ledger goes on at least up to the start of its latest epoch. -/
theorem LedgerSound.getLast?_epoch {entries : List MemoryLedgerEntry}
    (h : LedgerSound codec db entries) (hepoch : latestMemoryLedgerEpoch db ns = some epoch) :
    ∃ last, (memoryLedgerForNamespace db ns).getLast? = some last ∧ epoch.startEntryId ≤ last.id := by
  obtain ⟨r, hr, hns, rfl⟩ := mem_ledgerEpochs (List.mem_of_getLast? hepoch)
  obtain ⟨e, he, hns', hid⟩ := h.epochs r hr
  have hmem : e ∈ memoryLedgerForNamespace db ns := by
    rw [h.listed, List.mem_filter]
    exact ⟨he, by simpa using Option.some.inj (hns'.symm.trans hns)⟩
  have hsorted := h.listed_ascending ns
  obtain ⟨init, last, hlist⟩ :=
    (List.eq_nil_or_concat' _).resolve_left (List.ne_nil_of_mem hmem)
  rw [hlist] at hmem hsorted ⊢
  refine ⟨last, by simp, ?_⟩
  rw [MemoryLedgerEpoch.ofRow, hid, Option.getD_some]
  rcases List.mem_append.mp hmem with hmem | hmem
  · exact Int.le_of_lt ((List.pairwise_append.mp hsorted).2.2 e hmem last
      (List.mem_singleton_self last))
  · rw [List.mem_singleton.mp hmem]

theorem epochRecords_getLast? {last : MemoryLedgerEntry}
    (hlast : (memoryLedgerForNamespace db ns).getLast? = some last)
    (hstart : epoch.startEntryId ≤ last.id) :
    (epochRecords epoch db ns).getLast? = some last.toLedgerRecord := by
  obtain ⟨init, hinit⟩ := List.getLast?_eq_some_iff.mp hlast
  rw [epochRecords, hinit, epochEntries, List.filter_append]
  simp [hstart]

/-- With ascending ids an epoch is the end of the ledger. -/
theorem epochEntries_suffix {entries : List MemoryLedgerEntry}
    (hascending : entries.Pairwise fun a b => a.id < b.id) :
    epochEntries epoch entries <:+ entries := by
  induction entries with
  | nil => exact List.nil_suffix
  | cons e entries ih =>
      rw [List.pairwise_cons] at hascending
      by_cases hstart : epoch.startEntryId ≤ e.id
      · have hall : epochEntries epoch (e :: entries) = e :: entries := by
          refine List.filter_eq_self.mpr fun a ha => decide_eq_true ?_
          rcases List.mem_cons.mp ha with rfl | ha
          · exact hstart
          · exact le_trans hstart (Int.le_of_lt (hascending.1 a ha))
        rw [hall]
      · rw [epochEntries, List.filter_cons_of_neg (by simpa using hstart)]
        exact (ih hascending.2).trans (List.suffix_cons e entries)

theorem namespace_of_mem_epochRecords :
    ∀ e ∈ epochRecords epoch db ns, e.namespace = normalizeNamespace ns := by
  intro e he
  obtain ⟨entry, hentry, rfl⟩ := List.mem_map.mp he
  exact namespace_of_mem_ledgerRecords _
    (List.mem_map_of_mem (List.mem_of_mem_filter hentry))

end Epoch

/-- Altered entries of the current epoch are rejected exactly when they are not
what is left of the epoch after its oldest entries are removed. -/
theorem epoch_rejects_iff {codec : Codec} (hlossless : codec.Lossless)
    {evidenceToVec : LedgerEvidence → Bytes} {db₀ db db' : Database}
    {pool : List (Proc.Thread LedgerCall Statement Database String)}
    (hledger : db₀.table "memory_ledger" = []) (hepochs : db₀.table "memory_ledger_epochs" = [])
    (hrun : Proc.Reaches (LedgerCall.body codec evidenceToVec) (db₀, []) (db, pool)) {ns : String}
    {epoch : MemoryLedgerEpoch} (hepoch : latestMemoryLedgerEpoch db ns = some epoch)
    (hkept : db'.table "memory_ledger_epochs" = db.table "memory_ledger_epochs")
    (haltered : Altered (epochEntries epoch (memoryLedgerForNamespace db ns))
      (epochEntries epoch (memoryLedgerForNamespace db' ns)))
    (hlast : (memoryLedgerForNamespace db' ns).getLast? = (memoryLedgerForNamespace db ns).getLast?) :
    (verifyCurrentLedgerEpoch codec db' ns).valid = false ↔
      ¬ epochRecords epoch db' ns <:+ epochRecords epoch db ns := by
  obtain ⟨entries, hsound⟩ := soundLedger_reachable hledger hepochs hrun
  obtain ⟨last, hend, hstart⟩ := hsound.getLast?_epoch hepoch
  have hend' := epochRecords_getLast? hend hstart
  have hend'' := epochRecords_getLast? (hlast.trans hend) hstart
  have hnonempty : epochRecords epoch db' ns ≠ [] := by
    intro hnil
    rw [hnil] at hend''
    cases hend''
  have hepoch' : latestMemoryLedgerEpoch db' ns = some epoch := by
    rw [latestMemoryLedgerEpoch, ledgerEpochs, hkept]
    exact hepoch
  have hchained : HashChain.Chained (ledgerFormat codec)
      ((epochRecords epoch db ns).head?.bind LedgerRecord.prevHash) (epochRecords epoch db ns) :=
    (hsound.chained_records ns).of_suffix
      ((epochEntries_suffix (hsound.listed_ascending ns)).map _)
  rw [← Bool.not_eq_true, verifyCurrentLedgerEpoch_valid hepoch', not_iff_not]
  constructor
  · rintro ⟨-, hvalid⟩
    have hcommits : HashChain.Commits (ledgerFormat codec) (epochRecords epoch db' ns)
        (epochRecords epoch db ns) :=
      ledgerRecords_commits hlossless namespace_of_mem_epochRecords namespace_of_mem_epochRecords
    rcases HashChain.suffix_or_suffix hvalid hchained hcommits (by rw [hend', hend'']) with h | h
    · exact h
    · have hlength : (epochRecords epoch db' ns).length ≤ (epochRecords epoch db ns).length := by
        simpa [epochRecords] using haltered.length_le
      rw [h.eq_of_length_le hlength]
  · exact fun hsuffix => ⟨hnonempty, hchained.of_suffix hsuffix⟩

/-! ## Without the genesis entry

The first entry of the epoch is found by its id, and when it is gone the epoch starts with the
next one. That entry has a link, which nobody compares. -/

/-- A migration of a ledger that has an entry and no epoch goes through. -/
theorem LedgerSound.migration_ok {codec : Codec} (hlossless : codec.Lossless) {db : Database}
    {entries : List MemoryLedgerEntry} (h : LedgerSound codec db entries) {ns expected : String}
    (hhead : db.ledgerHead (normalizeNamespace ns) = some expected)
    (hnone : db.table "memory_ledger_epochs" = []) (actor payload evidence : String)
    (prior now epochNow : Int) :
    ∃ epoch db' genesis, appendMemoryLedgerMigration codec ns actor payload expected evidence prior
        now epochNow db = .ok (epoch, db') ∧ LedgerSound codec db' (entries ++ [genesis]) ∧
      genesis.namespace = normalizeNamespace ns ∧ latestMemoryLedgerEpoch db' ns = some epoch ∧
      epoch.startEntryId = genesis.id := by
  obtain ⟨hash, db₁, happend⟩ :=
    h.append_ok hlossless ns "migration_genesis" payload none (some actor) now
  obtain ⟨genesis, hsound, hdb, hns, hhash⟩ := h.append happend
  have hepochs : db₁.table "memory_ledger_epochs" = [] := by
    rw [hdb, Database.table_insertRow, if_neg (by decide), hnone]
  -- the row of the genesis entry is the first with its hash
  have hfind : (db₁.table "memory_ledger").find? (fun r => r.text "entry_hash" == some hash)
      = some genesis.toRow := by
    rw [hsound.rows, List.map_append, List.find?_append, List.find?_eq_none.mpr, Option.none_or]
    · simp [hhash]
    · intro r hr
      obtain ⟨e, he, rfl⟩ := List.mem_map.mp hr
      simpa using h.fresh_hash happend e he
  cases hrecord : recordMemoryLedgerEpoch ns hash evidence prior epochNow db₁ with
  | error e => simp [recordMemoryLedgerEpoch, hfind, hepochs] at hrecord
  | ok r =>
      obtain ⟨epoch, db'⟩ := r
      have hmigrate : appendMemoryLedgerMigration codec ns actor payload expected evidence prior now
          epochNow db = .ok (epoch, db') := by
        simp only [appendMemoryLedgerMigration, appendMemoryLedgerWithExpectedHead, hhead, happend,
          beq_self_eq_true, ensure, if_true]
        exact hrecord
      have hsound' := hsound.recordEpoch (fun e he hsame => ?_) hrecord
      · refine ⟨epoch, db', genesis, hmigrate, hsound', hns, ?_, ?_⟩
        · simp only [recordMemoryLedgerEpoch, hfind, hepochs, List.any_nil] at hrecord
          obtain ⟨rfl, rfl⟩ := Prod.mk.inj (Except.ok.inj hrecord)
          simp [latestMemoryLedgerEpoch, ledgerEpochs, hepochs, RowDiff.sortBy, jsonObject, Record.text,
            MemoryLedgerEpoch.ofRow, Record.integer]
        · simp only [recordMemoryLedgerEpoch, hfind, hepochs, List.any_nil] at hrecord
          obtain ⟨rfl, rfl⟩ := Prod.mk.inj (Except.ok.inj hrecord)
          simp
      · rcases List.mem_append.mp he with he | he
        · exact absurd hsame (h.fresh_hash happend e he)
        · rw [List.mem_singleton.mp he, hns]

section Calls

variable {codec : Codec} {evidenceToVec : LedgerEvidence → Bytes} {db db' : Database}

theorem run_migrate {bundle : LedgerEvidenceBundle} {actor : String} {now epochNow : Int}
    {last : MemoryLedgerEntry} {epoch : MemoryLedgerEpoch}
    (hnone : latestMemoryLedgerEpoch db bundle.evidence.namespace = none)
    (hdigest : codec.digest (evidenceToVec bundle.evidence) = bundle.evidenceSha256)
    (hlast : bundle.evidence.entries.getLast? = some last)
    (h : appendMemoryLedgerMigration codec bundle.evidence.namespace actor
      (migrationPayload codec bundle last) last.entryHash bundle.evidenceSha256
      bundle.evidence.entries.length now epochNow db = .ok (epoch, db')) :
    ((LedgerCall.migrate bundle actor now epochNow).body codec evidenceToVec).run
      Proc.noFault db = (.ok (), db') := by
  simp only [LedgerCall.body, applyLedgerMigration, Proc.query_bind, Proc.step_bind]
  rw [Proc.run_step_ok rfl rfl]
  simp only [hnone, hdigest, hlast, Option.isSome_none, Bool.false_eq_true, if_false, ne_eq,
    not_true_eq_false, Proc.exec_bind]
  rw [Proc.run_step_ok rfl h]
  rfl

end Calls

/-- The ledger with the first entry of the epoch deleted. -/
def withoutGenesis (epoch : MemoryLedgerEpoch) (db : Database) : Database :=
  db.deleteRows "memory_ledger" fun r => r.integer "id" == some epoch.startEntryId

/-- The evidence as it is hashed here: the entry hashes. -/
def evidenceHashes (evidence : LedgerEvidence) : Bytes :=
  utf8 (String.join (evidence.entries.map fun e => e.entryHash))

/-- One entry, a migration and one more entry. -/
theorem exists_migrated_ledger : ∃ db first genesis second epoch pool,
    Proc.Reaches (LedgerCall.body (jsonCodec []) evidenceHashes) (({} : Database), []) (db, pool) ∧
      LedgerSound (jsonCodec []) db [first, genesis, second] ∧
      (∀ e ∈ [first, genesis, second], e.namespace = "team") ∧
      latestMemoryLedgerEpoch db "team" = some epoch ∧ epoch.startEntryId = genesis.id := by
  have hlossless := jsonCodec_lossless []
  have hteam : normalizeNamespace "team" = "team" := by decide +kernel
  have hempty : LedgerSound (jsonCodec []) {} [] := .empty rfl rfl
  obtain ⟨hash, db₁, happend⟩ := hempty.append_ok hlossless "team" "remember" "note" none none 101
  obtain ⟨first, h₁, hdb₁, hns₁, hhash⟩ := hempty.append happend
  rw [hteam] at hns₁
  have hepochs₁ : db₁.table "memory_ledger_epochs" = [] := by
    rw [hdb₁, Database.table_insertRow, if_neg (by decide)]
  have hlisted₁ : memoryLedgerForNamespace db₁ "team" = [first] := by
    rw [h₁.listed, hteam]
    simp [hns₁]
  let bundle := buildLedgerEvidence (jsonCodec []) evidenceHashes db₁ "team"
  have hns : bundle.evidence.namespace = "team" := hteam
  have hhead : db₁.ledgerHead (normalizeNamespace "team") = some first.entryHash := by
    rw [h₁.ledgerHead_records, ledgerRecords, hlisted₁]
    rfl
  obtain ⟨epoch, db₂, genesis, hmigrate, h₂, hns₂, hepoch, hstart⟩ :=
    h₁.migration_ok hlossless hhead hepochs₁ "ann" (migrationPayload (jsonCodec []) bundle first)
      bundle.evidenceSha256 bundle.evidence.entries.length 102 102
  obtain ⟨hash₃, db₃, happend₃⟩ := h₂.append_ok hlossless "team" "remember" "note" none none 103
  obtain ⟨second, h₃, hdb₃, hns₃, -⟩ := h₂.append happend₃
  have hnone : latestMemoryLedgerEpoch db₁ bundle.evidence.namespace = none := by
    simp [latestMemoryLedgerEpoch, ledgerEpochs, hepochs₁, RowDiff.sortBy]
  have hlast : bundle.evidence.entries.getLast? = some first :=
    (congrArg List.getLast? hlisted₁).trans rfl
  have hreach := ((Proc.Reaches.call (run_append happend) []).trans
    (Proc.Reaches.call (run_migrate hnone rfl hlast (hns ▸ hmigrate)) _)).trans
      (Proc.Reaches.call (run_append happend₃) _)
  refine ⟨db₃, first, genesis, second, epoch, _, hreach, h₃, ?_, ?_, hstart⟩
  · rw [hteam] at hns₂ hns₃
    simp [hns₁, hns₂, hns₃]
  · rw [← hepoch, latestMemoryLedgerEpoch, latestMemoryLedgerEpoch, ledgerEpochs, ledgerEpochs, hdb₃,
      Database.table_insertRow, if_neg (by decide)]

/-- Without the genesis entry the epoch is the entry after it. -/
theorem LedgerSound.withoutGenesis {codec : Codec} {db : Database}
    {first genesis second : MemoryLedgerEntry} {epoch : MemoryLedgerEpoch} {ns : String}
    (h : LedgerSound codec db [first, genesis, second])
    (hns : ∀ e ∈ [first, genesis, second], e.namespace = normalizeNamespace ns)
    (hstart : epoch.startEntryId = genesis.id) :
    memoryLedgerForNamespace db ns = [first, genesis, second] ∧
      memoryLedgerForNamespace (withoutGenesis epoch db) ns = [first, second] ∧
      epochEntries epoch [first, genesis, second] = [genesis, second] ∧
      epochEntries epoch [first, second] = [second] := by
  have hids := h.ascending
  simp only [List.pairwise_cons, List.mem_cons, List.not_mem_nil, or_false, forall_eq_or_imp,
    forall_eq] at hids
  simp only [List.mem_cons, List.not_mem_nil, or_false, forall_eq_or_imp, forall_eq] at hns
  obtain ⟨⟨hfirst, hfirst'⟩, hgenesis, -⟩ := hids
  have hrows : (IronMem.withoutGenesis epoch db).table "memory_ledger"
      = [first, second].map MemoryLedgerEntry.toRow := by
    rw [IronMem.withoutGenesis, Database.table_deleteRows, if_pos rfl, h.rows]
    simp [hstart, ne_of_lt hfirst, ne_of_gt hgenesis]
  refine ⟨?_, ?_, ?_, ?_⟩
  · rw [h.listed]
    simp [hns]
  · rw [listed_of_rows hrows (by simpa using hfirst')]
    simp [hns]
  · simp [epochEntries, hstart, hfirst, hgenesis.le]
  · simp [epochEntries, hstart, hfirst, hgenesis.le]

/-- The genesis entry can be deleted. -/
theorem epoch_accepts_without_genesis : ∃ db epoch pool,
    Proc.Reaches (LedgerCall.body (jsonCodec []) evidenceHashes) (({} : Database), []) (db, pool) ∧
      latestMemoryLedgerEpoch db "team" = some epoch ∧
      Altered (epochEntries epoch (memoryLedgerForNamespace db "team"))
        (epochEntries epoch (memoryLedgerForNamespace (withoutGenesis epoch db) "team")) ∧
      epochEntries epoch (memoryLedgerForNamespace (withoutGenesis epoch db) "team")
        ≠ epochEntries epoch (memoryLedgerForNamespace db "team") ∧
      (memoryLedgerForNamespace (withoutGenesis epoch db) "team").getLast?
        = (memoryLedgerForNamespace db "team").getLast? ∧
      (verifyCurrentLedgerEpoch (jsonCodec []) (withoutGenesis epoch db) "team").valid = true := by
  obtain ⟨db, first, genesis, second, epoch, pool, hreach, hsound, hns, hepoch, hstart⟩ :=
    exists_migrated_ledger
  have hteam : normalizeNamespace "team" = "team" := by decide +kernel
  obtain ⟨hlisted, hleft, hcurrent, hcurrent'⟩ :=
    hsound.withoutGenesis (hteam.symm ▸ hns) hstart
  refine ⟨db, epoch, pool, hreach, hepoch, ?_⟩
  rw [hlisted, hleft, hcurrent, hcurrent']
  refine ⟨@Altered.delete _ [] _ _ (.refl _), by simp, rfl, ?_⟩
  have hepoch' : latestMemoryLedgerEpoch (withoutGenesis epoch db) "team" = some epoch := by
    rw [← hepoch, latestMemoryLedgerEpoch, latestMemoryLedgerEpoch, ledgerEpochs, ledgerEpochs,
      withoutGenesis, Database.table_deleteRows, if_neg (by decide)]
  have hrecords : epochRecords epoch (withoutGenesis epoch db) "team" = [second.toLedgerRecord] := by
    rw [epochRecords, hleft, hcurrent']
    rfl
  rw [verifyCurrentLedgerEpoch_valid hepoch', hrecords]
  exact ⟨List.cons_ne_nil _ _, rfl, hsound.sealed (by simp), trivial⟩

/-! ## With another genesis entry -/

/-- The ledger with another time in the first entry of the epoch. -/
def redatedGenesis (epoch : MemoryLedgerEpoch) (now : Int) (db : Database) : Database :=
  db.updateRows "memory_ledger" (fun r => r.integer "id" == some epoch.startEntryId) fun r =>
    r.set "created_at" (.int now)

theorem set_created_at_toRow (e : MemoryLedgerEntry) (now : Int) :
    e.toRow.set "created_at" (.int now) = { e with createdAt := now }.toRow := by
  refine Std.ExtTreeMap.ext_getElem? fun k => ?_
  simp only [MemoryLedgerEntry.toRow, jsonObject, Record.set, List.foldl_cons, List.foldl_nil,
    Std.ExtTreeMap.getElem?_insert]
  split <;> rfl

theorem LedgerSound.redatedGenesis {codec : Codec} {db : Database}
    {first genesis second : MemoryLedgerEntry} {epoch : MemoryLedgerEpoch} {ns : String}
    (h : LedgerSound codec db [first, genesis, second])
    (hns : ∀ e ∈ [first, genesis, second], e.namespace = normalizeNamespace ns)
    (hstart : epoch.startEntryId = genesis.id) (now : Int) :
    memoryLedgerForNamespace (redatedGenesis epoch now db) ns
        = [first, { genesis with createdAt := now }, second] ∧
      epochEntries epoch [first, { genesis with createdAt := now }, second]
        = [{ genesis with createdAt := now }, second] := by
  have hids := h.ascending
  simp only [List.pairwise_cons, List.mem_cons, List.not_mem_nil, or_false, forall_eq_or_imp,
    forall_eq] at hids
  simp only [List.mem_cons, List.not_mem_nil, or_false, forall_eq_or_imp, forall_eq] at hns
  obtain ⟨⟨hfirst, hfirst'⟩, hgenesis, -⟩ := hids
  have hrows : (IronMem.redatedGenesis epoch now db).table "memory_ledger"
      = [first, { genesis with createdAt := now }, second].map MemoryLedgerEntry.toRow := by
    rw [IronMem.redatedGenesis, Database.table_updateRows, if_pos rfl, h.rows]
    simp [hstart, ne_of_lt hfirst, ne_of_gt hgenesis, set_created_at_toRow]
  refine ⟨?_, ?_⟩
  · rw [listed_of_rows hrows (by simp [hfirst, hfirst', hgenesis])]
    simp [hns]
  · simp [epochEntries, hstart, hfirst, hgenesis.le]

/-- A genesis entry that is dated anew is noticed. -/
theorem epoch_rejects_iff_team : ∃ db epoch now, latestMemoryLedgerEpoch db "team" = some epoch ∧
    memoryLedgerForNamespace (redatedGenesis epoch now db) "team"
      ≠ memoryLedgerForNamespace db "team" ∧
    (verifyCurrentLedgerEpoch (jsonCodec []) (redatedGenesis epoch now db) "team").valid
      = false := by
  obtain ⟨db, first, genesis, second, epoch, pool, hreach, hsound, hns, hepoch, hstart⟩ :=
    exists_migrated_ledger
  have hteam : normalizeNamespace "team" = "team" := by decide +kernel
  obtain ⟨hlisted, -, hcurrent, -⟩ := hsound.withoutGenesis (hteam.symm ▸ hns) hstart
  obtain ⟨hlisted', hcurrent'⟩ :=
    hsound.redatedGenesis (hteam.symm ▸ hns) hstart (genesis.createdAt + 1)
  have hkept : (redatedGenesis epoch (genesis.createdAt + 1) db).table "memory_ledger_epochs"
      = db.table "memory_ledger_epochs" := by
    rw [redatedGenesis, Database.table_updateRows, if_neg (by decide)]
  have haltered : Altered (epochEntries epoch (memoryLedgerForNamespace db "team"))
      (epochEntries epoch (memoryLedgerForNamespace
        (redatedGenesis epoch (genesis.createdAt + 1) db) "team")) := by
    rw [hlisted, hcurrent, hlisted', hcurrent']
    exact @Altered.edit _ [] _ _ (.refl _) _
  refine ⟨db, epoch, genesis.createdAt + 1, hepoch, ?_, ?_⟩
  · rw [hlisted, hlisted']
    intro h
    have hgenesis := (List.cons.inj (List.cons.inj h).2).1
    have hcreated := congrArg (fun e : MemoryLedgerEntry => e.createdAt) hgenesis
    simp only at hcreated
    omega
  · rw [epoch_rejects_iff (jsonCodec_lossless []) rfl rfl hreach hepoch hkept haltered
      (by rw [hlisted, hlisted']; rfl)]
    intro hsuffix
    -- a tail that is as long is the list itself, and the time is part of the record
    rw [epochRecords, epochRecords, hlisted, hlisted', hcurrent, hcurrent'] at hsuffix
    have hsame := hsuffix.eq_of_length rfl
    have hcreated := congrArg LedgerRecord.createdAt (List.cons.inj hsame).1
    simp only at hcreated
    omega

end IronMem
