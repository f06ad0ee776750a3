import IronMem.Ledger
import IronMem.Lib.Fallible

/-!
# The ledger is one chain per namespace

Whatever the interleaving of its writers, the entries of a namespace form one
hash chain from nothing in the order of their ids (`LedgerSound`): an append
reads the head and inserts in one statement, so no two entries share a
predecessor. Under a lossless codec the last hash then determines every entry
before it, also against a ledger somebody else made up.

- **rows**: the readers sort by id and select by namespace. On a sound ledger that
  gives the entries in the order they were written (`listed_of_rows`), and the head is
  the last of them (`latest_map_toRow`).
- **writers** (`LedgerCall`): appends, migrations and governed deletions. Of their
  statements only the append and the record of an epoch concern the ledger, and both
  keep the invariant (`LedgerSound.append`, `LedgerSound.recordEpoch`).
- **readers**: the chain an accepted ledger forms is the chain of `HashChain`, and
  `ledgerRecords_commits` is its theorem at the fields of an entry. Row ids are not
  hashed, so the entries are compared without them.
-/

namespace IronMem

open Fallible

/-! ## Rows and entries -/

/-- The row an append inserts. -/
def MemoryLedgerEntry.toRow (e : MemoryLedgerEntry) : Record :=
  jsonObject [("id", .int e.id), ("namespace", .str e.namespace),
    ("memory_id", Value.ofOption e.memoryId), ("op_type", .str e.opType),
    ("actor", Value.ofOptionStr e.actor), ("prev_hash", Value.ofOptionStr e.prevHash),
    ("entry_hash", .str e.entryHash), ("payload", .str e.payload),
    ("created_at", .int e.createdAt)]

theorem asStr_ofOptionStr (s : Option String) : (Value.ofOptionStr s).asStr = s := by
  cases s <;> rfl

theorem integer_ofOption {r : Record} {field : String} {n : Option Int}
    (h : r.col field = Value.ofOption n) : r.integer field = n := by
  rw [Record.integer, h]
  cases n <;> rfl

@[simp] theorem integer_id_toRow (e : MemoryLedgerEntry) : e.toRow.integer "id" = some e.id := by
  simp [MemoryLedgerEntry.toRow, jsonObject, Record.integer]

@[simp] theorem text_namespace_toRow (e : MemoryLedgerEntry) :
    e.toRow.text "namespace" = some e.namespace := by
  simp [MemoryLedgerEntry.toRow, jsonObject, Record.text]

@[simp] theorem text_entry_hash_toRow (e : MemoryLedgerEntry) :
    e.toRow.text "entry_hash" = some e.entryHash := by
  simp [MemoryLedgerEntry.toRow, jsonObject, Record.text]

theorem ofRow_toRow (e : MemoryLedgerEntry) : MemoryLedgerEntry.ofRow e.toRow = e := by
  have hmemory : e.toRow.integer "memory_id" = e.memoryId :=
    integer_ofOption (by simp [MemoryLedgerEntry.toRow, jsonObject])
  have htext : ∀ {f s}, e.toRow.col f = Value.ofOptionStr s → e.toRow.text f = s := fun h => by
    rw [Record.text, h, asStr_ofOptionStr]
  have hactor : e.toRow.text "actor" = e.actor :=
    htext (by simp [MemoryLedgerEntry.toRow, jsonObject])
  have hprev : e.toRow.text "prev_hash" = e.prevHash :=
    htext (by simp [MemoryLedgerEntry.toRow, jsonObject])
  have hop : e.toRow.text "op_type" = some e.opType := by
    simp [MemoryLedgerEntry.toRow, jsonObject, Record.text]
  have hpayload : e.toRow.text "payload" = some e.payload := by
    simp [MemoryLedgerEntry.toRow, jsonObject, Record.text]
  have hcreated : e.toRow.integer "created_at" = some e.createdAt := by
    simp [MemoryLedgerEntry.toRow, jsonObject, Record.integer]
  simp only [MemoryLedgerEntry.ofRow, hmemory, hactor, hprev, hop, hpayload, hcreated,
    integer_id_toRow, text_namespace_toRow, text_entry_hash_toRow, Option.getD_some]

/-- The newest of entries with ascending ids is the last one. -/
theorem latest_map_toRow {entries : List MemoryLedgerEntry}
    (hascending : entries.Pairwise fun a b => a.id < b.id) :
    latest (entries.map MemoryLedgerEntry.toRow) = entries.getLast?.map MemoryLedgerEntry.toRow := by
  induction entries using List.reverseRecOn with
  | nil => rfl
  | append_singleton entries e ih =>
      rw [List.pairwise_append] at hascending
      rw [latest, List.map_append, List.foldl_append, ← latest, ih hascending.1]
      cases hlast : entries.getLast? with
      | none => simp
      | some last =>
          have hlt := hascending.2.2 last (List.mem_of_getLast? hlast) e (List.mem_singleton_self e)
          simp [hlt]

/-- What `append_memory_ledger` writes. -/
theorem appendMemoryLedger_entry {codec : Codec} {db db' : Database} {ns opType payload hash : String}
    {memoryId : Option Int} {actor : Option String} {now : Int}
    (h : appendMemoryLedger codec ns memoryId opType actor payload now db = .ok (hash, db')) :
    ∃ e : MemoryLedgerEntry, db' = db.insertRow "memory_ledger" e.toRow ∧ e.id = db.nextLedgerId
      ∧ e.namespace = normalizeNamespace ns ∧ e.prevHash = db.ledgerHead (normalizeNamespace ns)
      ∧ e.entryHash = hash
      ∧ (ledgerFormat codec).derive e.toLedgerRecord = e.entryHash := by
  simp only [appendMemoryLedger] at h
  split at h
  · cases h
  · obtain ⟨rfl, rfl⟩ := Prod.mk.inj (Except.ok.inj h)
    refine ⟨⟨⟨normalizeNamespace ns, memoryId, opType, actor,
      db.ledgerHead (normalizeNamespace ns), _, payload, now⟩, db.nextLedgerId⟩, rfl, rfl, rfl, rfl,
      rfl, rfl⟩

/-! ## The invariant

The entries are kept as a list, oldest first, and the table is that list as rows. What an append
needs is then immediate: the head of a namespace is the last of its entries. -/

/-- The ledger holds these entries, oldest first; the entries of each namespace
are a chain from nothing; every epoch starts at one of them. -/
structure LedgerSound (codec : Codec) (db : Database) (entries : List MemoryLedgerEntry) : Prop where
  rows : db.table "memory_ledger" = entries.map MemoryLedgerEntry.toRow
  ascending : entries.Pairwise fun a b => a.id < b.id
  chained : ∀ ns, HashChain.Chained ((ledgerFormat codec).comap MemoryLedgerEntry.toLedgerRecord) none
    (entries.filter fun e => e.namespace == ns)
  normalized : ∀ e ∈ entries, normalizeNamespace e.namespace = e.namespace
  epochs : ∀ r ∈ db.table "memory_ledger_epochs", ∃ e ∈ entries,
    r.text "namespace" = some e.namespace ∧ r.integer "start_entry_id" = some e.id

section Sound

variable {codec : Codec} {db db' : Database} {entries : List MemoryLedgerEntry}

theorem LedgerSound.empty (hledger : db.table "memory_ledger" = [])
    (hepochs : db.table "memory_ledger_epochs" = []) : LedgerSound codec db [] where
  rows := hledger
  ascending := .nil
  chained _ := trivial
  normalized e he := absurd he List.not_mem_nil
  epochs r hr := by rw [hepochs] at hr; cases hr

theorem LedgerSound.frame (h : LedgerSound codec db entries)
    (hledger : db'.table "memory_ledger" = db.table "memory_ledger")
    (hepochs : db'.table "memory_ledger_epochs" = db.table "memory_ledger_epochs") :
    LedgerSound codec db' entries :=
  ⟨hledger.trans h.rows, h.ascending, h.chained, h.normalized, hepochs ▸ h.epochs⟩

theorem filter_rows (hrows : db.table "memory_ledger" = entries.map MemoryLedgerEntry.toRow)
    (ns : String) : (db.table "memory_ledger").filter (fun r => r.text "namespace" == some ns)
      = (entries.filter fun e => e.namespace == ns).map MemoryLedgerEntry.toRow := by
  rw [hrows, List.filter_map]
  congr 1

/-- The readers see the entries of the namespace in the order they were written. -/
theorem listed_of_rows (hrows : db.table "memory_ledger" = entries.map MemoryLedgerEntry.toRow)
    (hascending : entries.Pairwise fun a b => a.id < b.id) (ns : String) :
    memoryLedgerForNamespace db ns
      = entries.filter fun e => e.namespace == normalizeNamespace ns := by
  have hmap : MemoryLedgerEntry.ofRow ∘ MemoryLedgerEntry.toRow = id := funext ofRow_toRow
  rw [memoryLedgerForNamespace, filter_rows hrows, List.map_map, hmap, List.map_id]
  exact RowDiff.sortBy_of_canonical _ ((hascending.imp Int.le_of_lt).filter _)

theorem LedgerSound.listed (h : LedgerSound codec db entries) (ns : String) :
    memoryLedgerForNamespace db ns
      = entries.filter fun e => e.namespace == normalizeNamespace ns :=
  listed_of_rows h.rows h.ascending ns

theorem LedgerSound.listed_ascending (h : LedgerSound codec db entries) (ns : String) :
    (memoryLedgerForNamespace db ns).Pairwise fun a b => a.id < b.id := by
  rw [h.listed]
  exact h.ascending.filter _

/-- An append chains to the last entry of its namespace. -/
theorem LedgerSound.ledgerHead (h : LedgerSound codec db entries) (ns : String) :
    db.ledgerHead ns = HashChain.head
      ((ledgerFormat codec).comap MemoryLedgerEntry.toLedgerRecord) none
      (entries.filter fun e => e.namespace == ns) := by
  rw [Database.ledgerHead, filter_rows h.rows, latest_map_toRow (h.ascending.filter _), HashChain.head,
    Option.or_none, Option.bind_map]
  cases (entries.filter fun e => e.namespace == ns).getLast? with
  | none => rfl
  | some e => exact text_entry_hash_toRow e

theorem LedgerSound.lt_nextLedgerId (h : LedgerSound codec db entries) {e : MemoryLedgerEntry}
    (he : e ∈ entries) : e.id < db.nextLedgerId := by
  rw [Database.nextLedgerId, h.rows, latest_map_toRow h.ascending]
  obtain ⟨init, last, rfl⟩ := (List.eq_nil_or_concat' entries).resolve_left (List.ne_nil_of_mem he)
  have hle : e.id ≤ last.id := by
    rcases List.mem_append.mp he with hmem | hmem
    · exact Int.le_of_lt ((List.pairwise_append.mp h.ascending).2.2 e hmem last
        (List.mem_singleton_self last))
    · rw [List.mem_singleton.mp hmem]
  simp
  omega

theorem LedgerSound.sealed (h : LedgerSound codec db entries) {e : MemoryLedgerEntry}
    (he : e ∈ entries) : (ledgerFormat codec).derive e.toLedgerRecord = e.entryHash := by
  have hchain := h.chained e.namespace
  obtain ⟨before, after, hsplit⟩ := List.append_of_mem
    (show e ∈ entries.filter fun e' => e'.namespace == e.namespace by simpa using he)
  rw [hsplit] at hchain
  exact (HashChain.chained_append.mp hchain).2.2.1

/-- `entry_hash` is unique. -/
theorem LedgerSound.fresh_hash {ns opType payload hash : String} {memoryId : Option Int}
    {actor : Option String} {now : Int} (h : LedgerSound codec db entries)
    (happend : appendMemoryLedger codec ns memoryId opType actor payload now db = .ok (hash, db')) :
    ∀ e ∈ entries, e.entryHash ≠ hash := by
  intro e he heq
  simp only [appendMemoryLedger] at happend
  split at happend
  · cases happend
  · next hunique =>
      obtain ⟨rfl, -⟩ := Prod.mk.inj (Except.ok.inj happend)
      refine hunique (List.any_eq_true.mpr ⟨e.toRow, ?_, by simp [heq]⟩)
      rw [h.rows]
      exact List.mem_map_of_mem he

/-- An append keeps the invariant. -/
theorem LedgerSound.append {ns opType payload hash : String} {memoryId : Option Int}
    {actor : Option String} {now : Int} (h : LedgerSound codec db entries)
    (happend : appendMemoryLedger codec ns memoryId opType actor payload now db = .ok (hash, db')) :
    ∃ e, LedgerSound codec db' (entries ++ [e]) ∧ db' = db.insertRow "memory_ledger" e.toRow
      ∧ e.namespace = normalizeNamespace ns ∧ e.entryHash = hash := by
  obtain ⟨e, rfl, hid, hns, hprev, hhash, hderive⟩ := appendMemoryLedger_entry happend
  refine ⟨e, ⟨?_, ?_, fun ns' => ?_, fun e' he' => ?_, fun r hr => ?_⟩, rfl, hns, hhash⟩
  · simp [h.rows]
  · refine List.pairwise_append.mpr ⟨h.ascending, List.pairwise_singleton _ _, fun a ha b hb => ?_⟩
    rw [List.mem_singleton.mp hb, hid]
    exact h.lt_nextLedgerId ha
  · rw [List.filter_append]
    by_cases hsame : e.namespace = ns'
    · rw [List.filter_cons_of_pos (by simp [hsame]), List.filter_nil]
      refine HashChain.chained_snoc.mpr ⟨h.chained ns', ?_, hderive⟩
      rw [← hsame, hns, ← h.ledgerHead]
      exact hprev
    · rw [List.filter_cons_of_neg (by simp [hsame]), List.filter_nil, List.append_nil]
      exact h.chained ns'
  · rcases List.mem_append.mp he' with he' | he'
    · exact h.normalized e' he'
    · rw [List.mem_singleton.mp he', hns, normalizeNamespace_idem]
  · obtain ⟨e', he', hr⟩ := h.epochs r (by simpa using hr)
    exact ⟨e', List.mem_append_left _ he', hr⟩

/-- Recording an epoch keeps the invariant. -/
theorem LedgerSound.recordEpoch {ns startEntryHash evidenceSha256 : String}
    {priorEntryCount now : Int} {epoch : MemoryLedgerEpoch} (h : LedgerSound codec db entries)
    (hns : ∀ e ∈ entries, e.entryHash = startEntryHash → e.namespace = normalizeNamespace ns)
    (hrecord : recordMemoryLedgerEpoch ns startEntryHash evidenceSha256 priorEntryCount now db
      = .ok (epoch, db')) : LedgerSound codec db' entries := by
  unfold recordMemoryLedgerEpoch at hrecord
  split at hrecord
  · cases hrecord
  · next row hfind =>
      dsimp only at hrecord
      split at hrecord
      · cases hrecord
      · obtain ⟨-, rfl⟩ := Prod.mk.inj (Except.ok.inj hrecord)
        refine ⟨by simpa using h.rows, h.ascending, h.chained, h.normalized, fun r hr => ?_⟩
        rw [Database.table_insertRow, if_pos rfl, List.mem_append, List.mem_singleton] at hr
        rcases hr with hr | rfl
        · exact h.epochs r hr
        · have hmem := List.mem_of_find?_eq_some hfind
          rw [h.rows] at hmem
          obtain ⟨e, he, rfl⟩ := List.mem_map.mp hmem
          have hhash : e.entryHash = startEntryHash := by
            simpa using List.find?_some hfind
          refine ⟨e, he, ?_, ?_⟩
          · simp [jsonObject, Record.text, hns e he hhash]
          · rw [integer_id_toRow, Option.getD_some]
            simp [jsonObject, Record.integer]

end Sound

/-! ## The writers -/

/-- A call that writes the ledger. -/
inductive LedgerCall where
  | append (ns : String) (memoryId : Option Int) (opType : String) (actor : Option String)
      (payload : String) (now : Int)
  | migrate (bundle : LedgerEvidenceBundle) (actor : String) (now epochNow : Int)
  | forget (id : Int) (args : DeleteArgs)

def LedgerCall.body (codec : Codec) (evidenceToVec : LedgerEvidence → Bytes) :
    LedgerCall → Call Unit
  | append ns memoryId opType actor payload now => do
      let _ ← Proc.exec .appendLedger
        (appendMemoryLedger codec ns memoryId opType actor payload now)
      return ()
  | migrate bundle actor now epochNow => do
      let _ ← applyLedgerMigration codec evidenceToVec bundle actor now epochNow
      return ()
  | forget id args => do
      let _ ← governedDeleteMemory codec id args
      return ()

/-- Some entries make the ledger sound. -/
def SoundLedger (codec : Codec) (db : Database) : Prop :=
  ∃ entries, LedgerSound codec db entries

section Writers

variable {codec : Codec} {db db' : Database}

theorem SoundLedger.frame (h : SoundLedger codec db)
    (hledger : db'.table "memory_ledger" = db.table "memory_ledger")
    (hepochs : db'.table "memory_ledger_epochs" = db.table "memory_ledger_epochs") :
    SoundLedger codec db' :=
  let ⟨entries, h⟩ := h
  ⟨entries, h.frame hledger hepochs⟩

theorem SoundLedger.append {ns opType payload hash : String} {memoryId : Option Int}
    {actor : Option String} {now : Int} (h : SoundLedger codec db)
    (happend : appendMemoryLedger codec ns memoryId opType actor payload now db = .ok (hash, db')) :
    SoundLedger codec db' := by
  obtain ⟨entries, h⟩ := h
  obtain ⟨e, h, -⟩ := h.append happend
  exact ⟨_, h⟩

theorem SoundLedger.migration {ns actor payload expected evidence : String}
    {prior now epochNow : Int} {epoch : MemoryLedgerEpoch} (h : SoundLedger codec db)
    (hmigrate : appendMemoryLedgerMigration codec ns actor payload expected evidence prior now
      epochNow db = .ok (epoch, db')) : SoundLedger codec db' := by
  obtain ⟨entries, h⟩ := h
  obtain ⟨⟨hash, db₁⟩, happend, hrecord⟩ := bind_eq_ok.mp hmigrate
  obtain ⟨_, _, hinsert⟩ := bind_eq_ok.mp happend
  have hfresh := h.fresh_hash hinsert
  obtain ⟨e, h, -, hns, -⟩ := h.append hinsert
  refine ⟨_, h.recordEpoch (fun e' he' hhash => ?_) hrecord⟩
  rcases List.mem_append.mp he' with he' | he'
  · exact absurd hhash (hfresh e' he')
  · rw [List.mem_singleton.mp he', hns]

/-- Of the statements of a deletion only one writes the ledger. -/
theorem forgetMemory_preserves (codec : Codec) (id : Int) (args : DeleteArgs) (memory : Memory)
    (info : MemoryMetaInfo) :
    (forgetMemory codec id args memory info).Preserves (SoundLedger codec) := by
  have hdecref : ∀ hash (db : Database), (decrefBlob hash db).table = db.table := by
    intro hash db
    unfold decrefBlob
    split
    · split <;> rfl
    · rfl
  refine .bind (.exec ?_) fun _ => .bind (.query _ _) fun blob => .bind (.exec ?_) fun _ =>
    .bind (.bind (.query _ _) fun released => ?_) fun _ => .bind (.exec ?_) fun _ => .exec ?_
  · intro s b s' hs h
    cases h
    exact hs.frame (by simp [tombstoneMemory]) (by simp [tombstoneMemory])
  · intro s b s' hs h
    exact hs.append h
  · cases released with
    | none => exact .done _
    | some hash =>
        refine .exec fun s b s' hs h => ?_
        cases h
        exact hs.frame (by rw [hdecref]) (by rw [hdecref])
  · intro s b s' hs h
    cases h
    exact hs.frame rfl rfl
  · intro s b s' hs h
    cases h
    exact hs.frame (by simp) (by simp)

/-- Every statement of every writer keeps the ledger sound. -/
theorem LedgerCall.preserves (codec : Codec) (evidenceToVec : LedgerEvidence → Bytes)
    (call : LedgerCall) : (call.body codec evidenceToVec).Preserves (SoundLedger codec) := by
  cases call with
  | append ns memoryId opType actor payload now =>
      exact .bind (.exec fun s b s' hs h => hs.append h) fun _ => .done _
  | migrate bundle actor now epochNow =>
      refine .bind (.bind (.query _ _) fun epoch => ?_) fun _ => .done _
      split_ifs
      · exact .done _
      · exact .done _
      · split
        · exact .done _
        · exact .exec fun s b s' hs h => hs.migration h
  | forget id args =>
      refine .bind (.bind (.query _ _) fun memory => ?_) fun _ => .done _
      cases memory with
      | none => exact .done _
      | some memory =>
          refine .bind (.query _ _) fun info => ?_
          split_ifs
          · exact .done _
          · exact forgetMemory_preserves codec id args memory info

/-- Whatever the interleaving of the writers, the ledger stays sound. -/
theorem soundLedger_reachable {evidenceToVec : LedgerEvidence → Bytes} {db₀ db : Database}
    {pool : List (Proc.Thread LedgerCall Statement Database String)}
    (hledger : db₀.table "memory_ledger" = []) (hepochs : db₀.table "memory_ledger_epochs" = [])
    (hrun : Proc.Reaches (LedgerCall.body codec evidenceToVec) (db₀, []) (db, pool)) :
    SoundLedger codec db :=
  Proc.Reaches.invariant (LedgerCall.preserves codec evidenceToVec) hrun
    ⟨[], .empty hledger hepochs⟩

end Writers

/-! ## What an accepted ledger commits to

Two ledgers are compared as lists of records. If their last hashes agree, so do the records
before them, one by one; and as both begin from nothing they have the same length. -/

/-- The entries as an auditor compares them. -/
def ledgerRecords (db : Database) (ns : String) : List LedgerRecord :=
  (memoryLedgerForNamespace db ns).map MemoryLedgerEntry.toLedgerRecord

/-- The hash of an entry determines its fields, the namespace up to
normalization. -/
theorem ledgerEntryHash_inj {codec : Codec} (hlossless : codec.Lossless) {a b : LedgerRecord}
    (h : (ledgerFormat codec).derive a = (ledgerFormat codec).derive b) :
    a.prevHash = b.prevHash ∧ normalizeNamespace a.namespace = normalizeNamespace b.namespace ∧
      a.memoryId = b.memoryId ∧ a.opType = b.opType ∧ a.actor = b.actor ∧ a.payload = b.payload ∧
      a.createdAt = b.createdAt := by
  have hflat : ∀ c : LedgerRecord, Record.Flat (jsonObject [
      ("actor", Value.ofOptionStr c.actor), ("created_at", .int c.createdAt),
      ("memory_id", Value.ofOption c.memoryId), ("namespace", .str (normalizeNamespace c.namespace)),
      ("op_type", .str c.opType), ("payload", .str c.payload),
      ("prev_hash", Value.ofOptionStr c.prevHash)]) := by
    intro c
    refine flat_jsonObject ?_
    simp only [List.mem_cons, List.not_mem_nil, or_false, forall_eq_or_imp, forall_eq]
    exact ⟨flat_ofOptionStr _, trivial, flat_ofOption _, trivial, trivial, trivial,
      flat_ofOptionStr _⟩
  have heq := hlossless.hash_inj (hflat a) (hflat b) h
  have hcol : ∀ f : String, Record.col _ f = Record.col _ f := fun f => congrArg (Record.col · f) heq
  have hactor := hcol "actor"
  have hcreated := hcol "created_at"
  have hmemory := hcol "memory_id"
  have hns := hcol "namespace"
  have hop := hcol "op_type"
  have hpayload := hcol "payload"
  have hprev := hcol "prev_hash"
  simp [jsonObject] at hactor hcreated hmemory hns hop hpayload hprev
  exact ⟨ofOptionStr_injective hprev, hns, ofOption_injective hmemory, hop,
    ofOptionStr_injective hactor, hpayload, hcreated⟩

/-- Two ledgers of one namespace agree wherever their hashes do. -/
theorem ledgerRecords_commits {codec : Codec} (hlossless : codec.Lossless)
    {es fs : List LedgerRecord} {ns : String} (hes : ∀ e ∈ es, e.namespace = ns)
    (hfs : ∀ e ∈ fs, e.namespace = ns) : HashChain.Commits (ledgerFormat codec) es fs := by
  intro a ha b hb hsealed hsealed' hhash
  obtain ⟨hprev, -, hmemory, hop, hactor, hpayload, hcreated⟩ :=
    ledgerEntryHash_inj hlossless ((hsealed.trans hhash).trans hsealed'.symm)
  have hns : a.namespace = b.namespace := (hes a ha).trans (hfs b hb).symm
  cases a
  cases b
  simp_all [ledgerFormat]

theorem namespace_of_mem_ledgerRecords {db : Database} {ns : String} :
    ∀ e ∈ ledgerRecords db ns, e.namespace = normalizeNamespace ns := by
  intro e he
  obtain ⟨entry, hentry, rfl⟩ := List.mem_map.mp he
  obtain ⟨r, hr, rfl⟩ := List.mem_map.mp ((RowDiff.mem_sortBy _).mp hentry)
  have hns := (List.mem_filter.mp hr).2
  simp only [beq_iff_eq] at hns
  simp [MemoryLedgerEntry.ofRow, hns]

theorem LedgerSound.chained_records {codec : Codec} {db : Database}
    {entries : List MemoryLedgerEntry} (h : LedgerSound codec db entries) (ns : String) :
    HashChain.Chained (ledgerFormat codec) none (ledgerRecords db ns) := by
  rw [ledgerRecords, HashChain.chained_map, h.listed]
  exact h.chained _

theorem LedgerSound.ledgerHead_records {codec : Codec} {db : Database}
    {entries : List MemoryLedgerEntry} (h : LedgerSound codec db entries) (ns : String) :
    db.ledgerHead (normalizeNamespace ns)
      = HashChain.head (ledgerFormat codec) none (ledgerRecords db ns) := by
  rw [h.ledgerHead, ledgerRecords, HashChain.head_map, h.listed]

/-- The hash of a new entry is new: it chains to the head, which no entry of the
ledger does. -/
theorem LedgerSound.append_ok {codec : Codec} (hlossless : codec.Lossless) {db : Database}
    {entries : List MemoryLedgerEntry} (h : LedgerSound codec db entries) (ns opType payload : String)
    (memoryId : Option Int) (actor : Option String) (now : Int) :
    ∃ hash db', appendMemoryLedger codec ns memoryId opType actor payload now db
      = .ok (hash, db') := by
  simp only [appendMemoryLedger]
  split
  · next hused =>
      obtain ⟨r, hr, hhash⟩ := List.any_eq_true.mp hused
      rw [h.rows] at hr
      obtain ⟨e, he, rfl⟩ := List.mem_map.mp hr
      rw [text_entry_hash_toRow, beq_iff_eq, Option.some.injEq] at hhash
      obtain ⟨hprev, hns, -⟩ := ledgerEntryHash_inj hlossless (a := e.toLedgerRecord)
        (b := ⟨normalizeNamespace ns, memoryId, opType, actor, db.ledgerHead (normalizeNamespace ns),
          "", payload, now⟩) ((h.sealed he).trans hhash)
      rw [normalizeNamespace_idem, h.normalized e he] at hns
      have hmem : e.toLedgerRecord ∈ ledgerRecords db ns := by
        rw [ledgerRecords, h.listed]
        exact List.mem_map_of_mem (List.mem_filter.mpr ⟨he, beq_iff_eq.mpr hns⟩)
      exact absurd (hprev.trans (h.ledgerHead_records ns))
        (HashChain.link_ne_head (h.chained_records ns) (ledgerRecords_commits hlossless
          namespace_of_mem_ledgerRecords namespace_of_mem_ledgerRecords) hmem)
  · exact ⟨_, _, rfl⟩

theorem verifyLedgerChain_valid {codec : Codec} {db : Database} {ns : String} :
    (verifyLedgerChain codec db ns).valid = true ↔
      HashChain.Chained (ledgerFormat codec) none (ledgerRecords db ns) := by
  rw [ledgerRecords, HashChain.chained_map, ← HashChain.firstBroken_eq_none]
  simp only [verifyLedgerChain]
  split <;> simp [*]

/-- Whatever the interleaving of its writers, the verifier accepts the ledger of
every namespace; and a ledger it accepts with the same last hash has the same
entries in the same order. -/
theorem ledger_head_commits {codec : Codec} (hlossless : codec.Lossless)
    {evidenceToVec : LedgerEvidence → Bytes} {db₀ db : Database}
    {pool : List (Proc.Thread LedgerCall Statement Database String)}
    (hledger : db₀.table "memory_ledger" = []) (hepochs : db₀.table "memory_ledger_epochs" = [])
    (hrun : Proc.Reaches (LedgerCall.body codec evidenceToVec) (db₀, []) (db, pool)) (ns : String) :
    (verifyLedgerChain codec db ns).valid = true ∧
      ∀ db' : Database, (verifyLedgerChain codec db' ns).valid = true →
        (ledgerRecords db' ns).getLast?.map LedgerRecord.entryHash
          = (ledgerRecords db ns).getLast?.map LedgerRecord.entryHash →
        ledgerRecords db' ns = ledgerRecords db ns := by
  obtain ⟨entries, hsound⟩ := soundLedger_reachable hledger hepochs hrun
  have hchained := hsound.chained_records ns
  refine ⟨verifyLedgerChain_valid.mpr hchained, fun db' hvalid hlast => ?_⟩
  exact HashChain.eq_of_getLast? (verifyLedgerChain_valid.mp hvalid) hchained
    (ledgerRecords_commits hlossless namespace_of_mem_ledgerRecords namespace_of_mem_ledgerRecords)
    hlast

theorem run_append {codec : Codec} {evidenceToVec : LedgerEvidence → Bytes} {db db' : Database}
    {ns opType payload hash : String} {memoryId : Option Int} {actor : Option String} {now : Int}
    (h : appendMemoryLedger codec ns memoryId opType actor payload now db = .ok (hash, db')) :
    ((LedgerCall.append ns memoryId opType actor payload now).body codec evidenceToVec).run
      Proc.noFault db = (.ok (), db') := by
  simp only [LedgerCall.body, Proc.exec_bind]
  rw [Proc.run_step_ok rfl h]
  rfl

/-- Two writers, one after the other. -/
theorem ledger_head_commits_team : ∃ db pool,
    Proc.Reaches (LedgerCall.body (jsonCodec []) fun _ => []) (({} : Database), []) (db, pool) ∧
      pool.length = 2 ∧ (verifyLedgerChain (jsonCodec []) db "team").valid = true ∧
      ∀ db' : Database, (verifyLedgerChain (jsonCodec []) db' "team").valid = true →
        (ledgerRecords db' "team").getLast?.map LedgerRecord.entryHash
          = (ledgerRecords db "team").getLast?.map LedgerRecord.entryHash →
        ledgerRecords db' "team" = ledgerRecords db "team" := by
  have hlossless := jsonCodec_lossless []
  have hempty : LedgerSound (jsonCodec []) {} [] := .empty rfl rfl
  obtain ⟨_, db₁, hfirst⟩ := hempty.append_ok hlossless "team" "remember" "note" none none 101
  obtain ⟨_, h₁, -⟩ := hempty.append hfirst
  obtain ⟨_, db₂, hsecond⟩ := h₁.append_ok hlossless "team" "remember" "note" none none 102
  have hreach : Proc.Reaches (LedgerCall.body (jsonCodec []) fun _ => []) (({} : Database), [])
      (db₂, _) :=
    (Proc.Reaches.call (run_append hfirst) []).trans (Proc.Reaches.call (run_append hsecond) _)
  exact ⟨db₂, _, hreach, rfl, ledger_head_commits hlossless rfl rfl hreach "team"⟩

end IronMem
