import IronMem.CheckpointChains
import IronMem.JsonLossless
import IronMem.Reclaim

/-!
# Listed checkpoints stay loadable

Checkpoints are created, deleted and collected while everything else in the database changes.
Every row of `brain_snapshots` and every head is the end of a chain: `create` adds a base or a
link, deletion only moves a head to a listed checkpoint, and collection leaves what a row, a head
or a link over it pins.

- **steps** (`CheckpointStep`): the calls on checkpoints, a collection, a reference dropped from
  any original, an original stored in any format with any statement failing, a restore, and an
  arbitrary change of the other tables. A step comes with the checkpoint it took, if any.
- **the invariant** (`SnapshotsChained`): over the checkpoints of the whole run, those still to
  be taken included, since the list of a run only grows.
- **one step** (`CheckpointStep.chained`): most steps keep the store, the links, the list and the
  heads (`SnapshotsChained.keep`). `create` is a case for each envelope it may choose
  (`chooseEnvelope_cases`).

SHA-256 is injective here, and `serde_json` reads back what the run had it write (`ReadBack`). The
latter fails for some numbers: a row with such a number is captured and listed, and no `load`
accepts it (`snapshots_not_loadable`).
-/

namespace IronMem

open Fallible

/-! ## The writes -/

section Writes

variable {codec : Codec} {args : CreateArgs} {state : State} {envelope : Envelope}
  {db db' : Database} {snap : BrainSnapshot}

theorem mem_insertNew_iff {α : Type} [DecidableEq α] {a b : α} {l : List α} :
    b ∈ insertNew a l ↔ b = a ∨ b ∈ l := by
  rw [insertNew]
  split
  · next hmem =>
      refine ⟨Or.inr, fun h => h.elim (fun heq => heq ▸ hmem) id⟩
  · rw [List.mem_append, List.mem_singleton, or_comm]

/-- What the writes of `create` leave. -/
structure Published (codec : Codec) (args : CreateArgs) (envelope : Envelope) (snap : BrainSnapshot)
    (db db' : Database) : Prop where
  blobHash : snap.blobHash = codec.digest (codec.envelopeToVec envelope)
  keeps : KeepsStore codec db db'
  contains : db'.blobs.contains snap.blobHash = true
  snapshots : db'.brainSnapshots = db.brainSnapshots ++ [snap]
  heads : db'.checkpointHeads = db.checkpointHeads.insert args.project snap.blobHash
  dependencies : ∀ entry ∈ db.checkpointDependencies, entry ∈ db'.checkpointDependencies
  dependency : ∀ parent, envelope.parent = some parent →
    (snap.blobHash, parent) ∈ db'.checkpointDependencies

theorem publish_ok (h : publish codec args state envelope db = .ok (snap, db')) :
    Published codec args envelope snap db db' := by
  rw [publish, persistBlob_eq] at h
  dsimp only at h
  obtain ⟨_, -, h⟩ := bind_eq_ok.mp h
  obtain ⟨_, -, h⟩ := bind_eq_ok.mp h
  obtain ⟨rfl, rfl⟩ := Prod.mk.inj (pure_eq_ok.mp h)
  have hstored : KeepsStore codec db (insertBlob (codec.digest (codec.envelopeToVec envelope))
      { original := codec.envelopeToVec envelope,
        compLen := codec.compressedLen (codec.envelopeToVec envelope), refcount := 1 } db) :=
    keepsStore_compressed rfl rfl rfl
  refine ⟨rfl, hstored.trans (SameStore.keepsStore ⟨⟨rfl, rfl, rfl⟩, rfl⟩),
    contains_insertBlob _ _ _, rfl, rfl, fun entry hentry => ?_, fun parent hparent => ?_⟩
  · cases hp : envelope.parent with
    | none => exact hentry
    | some parent => exact mem_insertNew_iff.mpr (Or.inr hentry)
  · rw [hparent]
    exact mem_insertNew_iff.mpr (Or.inl rfl)

theorem latestSnapshot_mem {snaps : List BrainSnapshot} {s : BrainSnapshot}
    (h : latestSnapshot snaps = some s) : s ∈ snaps := by
  unfold latestSnapshot at h
  refine List.foldlRecOn (motive := fun best => ∀ s, best = some s → s ∈ snaps) snaps _
    (fun s hs => by cases hs) (fun best hbest a ha s hs => ?_) s h
  cases best with
  | none => exact Option.some.inj hs ▸ ha
  | some b =>
      dsimp only at hs
      split at hs
      · exact Option.some.inj hs ▸ ha
      · exact hbest s hs

/-- What a deletion leaves: a head is the old one or a checkpoint that is still listed. -/
structure Deleted (codec : Codec) (db db' : Database) : Prop where
  keeps : KeepsStore codec db db'
  snapshots : ∀ s ∈ db'.brainSnapshots, s ∈ db.brainSnapshots
  heads : ∀ project hash : String, db'.checkpointHeads[project]? = some hash →
    db.checkpointHeads[project]? = some hash ∨ ∃ s ∈ db'.brainSnapshots, s.blobHash = hash
  dependencies : db'.checkpointDependencies = db.checkpointDependencies

theorem decrefBlob_frame (hash : String) (db : Database) :
    (decrefBlob hash db).brainSnapshots = db.brainSnapshots ∧
      (decrefBlob hash db).checkpointHeads = db.checkpointHeads ∧
      (decrefBlob hash db).checkpointDependencies = db.checkpointDependencies := by
  unfold decrefBlob
  split
  · split <;> exact ⟨rfl, rfl, rfl⟩
  · exact ⟨rfl, rfl, rfl⟩

theorem Deleted.reassignHead {project hash : String} (h : Deleted codec db db') :
    Deleted codec db (reassignHead project hash db') := by
  have herase : ∀ k v : String, (if db'.checkpointHeads[project]? = some hash then
      db'.checkpointHeads.erase project else db'.checkpointHeads)[k]? = some v →
        db'.checkpointHeads[k]? = some v := by
    intro k v hv
    split at hv
    · rw [Std.ExtTreeMap.getElem?_erase] at hv
      split at hv
      · cases hv
      · exact hv
    · exact hv
  refine ⟨h.keeps.trans (SameStore.keepsStore ⟨⟨rfl, rfl, rfl⟩, rfl⟩), h.snapshots, fun k v hv => ?_,
    h.dependencies⟩
  rw [IronMem.reassignHead] at hv
  dsimp only at hv
  generalize (if db'.checkpointHeads[project]? = some hash then db'.checkpointHeads.erase project
    else db'.checkpointHeads) = heads at hv herase
  split at hv
  · exact h.heads k v (herase k v hv)
  · split at hv
    · next s hlatest =>
        rw [Std.ExtTreeMap.getElem?_insert] at hv
        split at hv
        · exact Or.inr ⟨s, (List.mem_filter.mp (latestSnapshot_mem hlatest)).1, Option.some.inj hv⟩
        · exact h.heads k v (herase k v hv)
    · exact h.heads k v (herase k v hv)

theorem delete_ok {snapshotId : String} (h : delete snapshotId db = .ok db') : Deleted codec db db' := by
  unfold delete at h
  split at h
  · cases h
  · next snap hsnap =>
      obtain ⟨hsnaps, hheads, hdeps⟩ := decrefBlob_frame snap.blobHash
        { db with brainSnapshots := db.brainSnapshots.filter fun s => s.id ≠ snapshotId }
      have hsame : SameStore db
          { db with brainSnapshots := db.brainSnapshots.filter fun s => s.id ≠ snapshotId } :=
        ⟨⟨rfl, rfl, rfl⟩, rfl⟩
      have hdeleted : Deleted codec db (decrefBlob snap.blobHash
          { db with brainSnapshots := db.brainSnapshots.filter fun s => s.id ≠ snapshotId }) := by
        refine ⟨hsame.keepsStore.trans (keepsStore_decrefBlob _), fun s hs => ?_, fun k v hv => ?_, hdeps⟩
        · rw [hsnaps] at hs
          exact List.mem_of_mem_filter hs
        · rw [hheads] at hv
          exact Or.inl hv
      dsimp only at h
      split at h
      · rw [← Except.ok.inj h]
        exact hdeleted.reassignHead
      · rw [← Except.ok.inj h]
        exact hdeleted

end Writes

/-! ## Steps -/

/-- One step of a run: a call on checkpoints, with the checkpoint it took; a collection; a
reference dropped, an original stored or a checkpoint restored; or any other change of the tables. -/
inductive CheckpointStep (codec : Codec) : Database → List Taken → Database → Prop
  | create {db db' : Database} {args : CreateArgs} {c : Taken}
      (hcapture : captureChecked codec db args.project = .ok c.state)
      (henvelope : chooseEnvelope codec db args c.state = .ok c.envelope)
      (hpublish : publish codec args c.state c.envelope db = .ok (c.snap, db')) :
      CheckpointStep codec db [c] db'
  | delete {db db' : Database} {snapshotId : String} (h : delete snapshotId db = .ok db') :
      CheckpointStep codec db [] db'
  | gc (db : Database) : CheckpointStep codec db [] (gcBlobs db).2
  | decref (hash : String) (db : Database) : CheckpointStep codec db [] (decrefBlob hash db)
  | store (plan : StorePlan) (bytes : Bytes) (fault : Nat → Option String) (db : Database) :
      CheckpointStep codec db [] ((storeBlob codec plan bytes).run fault db).2
  | restore {args : RestoreArgs} {state : State} {counts : RestoreCounts} {db db' : Database}
      (h : restore codec args state db = .ok (counts, db')) : CheckpointStep codec db [] db'
  | change (db : Database) (table : String → List Record) (nonces : List NonceRow) (highwater : Int) :
      CheckpointStep codec db []
        { db with table := table, influenceReplayNonces := nonces, identityHighwater := highwater }

/-- The steps of a run and the checkpoints taken in it. -/
inductive CheckpointRun (codec : Codec) (start : Database) : List Taken → Database → Prop
  | refl : CheckpointRun codec start [] start
  | step {taken new : List Taken} {db db' : Database} (hrun : CheckpointRun codec start taken db)
      (hstep : CheckpointStep codec db new db') : CheckpointRun codec start (taken ++ new) db'

/-! ## The invariant

Every listed checkpoint and every head is the end of a chain over the checkpoints of the run.
Steps outside the checkpoints matter only for the bytes of the envelopes and the links between
them. -/

/-- Every listed checkpoint and every head is the end of a chain. -/
structure SnapshotsChained (codec : Codec) (taken : List Taken) (db : Database) : Prop where
  store : StoreSound codec db
  listed : ∀ s ∈ db.brainSnapshots, ∃ ancestors e state,
    Chain codec taken db s.blobHash ancestors e state
  heads : ∀ project hash : String, db.checkpointHeads[project]? = some hash →
    ∃ ancestors e state, Chain codec taken db hash ancestors e state

section Steps

variable {codec : Codec} {taken new : List Taken} {db db' : Database}

/-- A step that keeps the store, the links, the list and the heads keeps the chains. -/
theorem SnapshotsChained.keep (h : SnapshotsChained codec taken db) (hkeeps : KeepsStore codec db db')
    (hdependencies : ∀ entry ∈ db.checkpointDependencies, entry ∈ db'.checkpointDependencies)
    (hsnapshots : ∀ s ∈ db'.brainSnapshots, s ∈ db.brainSnapshots)
    (hheads : ∀ project hash : String, db'.checkpointHeads[project]? = some hash →
      db.checkpointHeads[project]? = some hash ∨ ∃ s ∈ db'.brainSnapshots, s.blobHash = hash) :
    SnapshotsChained codec taken db' := by
  have hlisted : ∀ s ∈ db'.brainSnapshots, ∃ ancestors e state,
      Chain codec taken db' s.blobHash ancestors e state := by
    intro s hs
    obtain ⟨ancestors, e, state, hchain⟩ := h.listed s (hsnapshots s hs)
    exact ⟨ancestors, e, state, hchain.mono hkeeps.loads hdependencies⟩
  refine ⟨hkeeps.sound h.store, hlisted, fun project hash hhead => ?_⟩
  rcases hheads project hash hhead with hold | ⟨s, hs, rfl⟩
  · obtain ⟨ancestors, e, state, hchain⟩ := h.heads project hash hold
    exact ⟨ancestors, e, state, hchain.mono hkeeps.loads hdependencies⟩
  · exact hlisted s hs

theorem SnapshotsChained.gc (h : SnapshotsChained codec taken db) : SnapshotsChained codec taken (gcBlobs db).2 := by
  refine ⟨storeSound_gcBlobs h.store, fun s hs => ?_, fun project hash hhead => ?_⟩
  · obtain ⟨ancestors, e, state, hchain⟩ := h.listed s hs
    refine ⟨ancestors, e, state, hchain.gcBlobs (Database.pinned_iff.mpr (Or.inl (Or.inr ?_)))⟩
    exact ⟨s, hs, rfl, rfl⟩
  · obtain ⟨ancestors, e, state, hchain⟩ := h.heads project hash hhead
    refine ⟨ancestors, e, state, hchain.gcBlobs (Database.pinned_iff.mpr (Or.inr (Or.inr ?_)))⟩
    exact ⟨(project, hash), Std.ExtTreeMap.mem_toList_iff_getElem?_eq_some.mpr hhead, rfl⟩

/-- What `create` stores: the state in full, the envelope of a chain that leads to it already, or
a link over a chain. -/
theorem chooseEnvelope_cases {args : CreateArgs} {state : State} {envelope : Envelope}
    (hsha : Function.Injective codec.digest) (hcodec : ReadBack codec taken)
    (h : SnapshotsChained codec taken db)
    (htaken : ∃ c ∈ taken, c.state = state ∧ c.envelope = envelope)
    (hstate : Snapshotted codec state) (hproject : state.project = args.project)
    (henvelope : chooseEnvelope codec db args state = .ok envelope) :
    envelope = fullEnvelope codec state.project state ∨
      (∃ hash ancestors, Chain codec taken db hash ancestors envelope state) ∨
      ∃ parent ancestors p base d, Chain codec taken db parent ancestors p base ∧ p.depth < 8 ∧
        base.project = state.project ∧ applyDelta codec base d = .ok state ∧
        envelope = deltaEnvelope codec state.project state parent p d := by
  obtain ⟨c, hc, rfl, -⟩ := htaken
  rw [chooseEnvelope, ← hproject] at henvelope
  dsimp only at henvelope
  split at henvelope
  · exact Or.inl (pure_eq_ok.mp henvelope).symm
  · next hash hhead =>
      have hhead : db.checkpointHeads[c.state.project]? = some hash := by
        split at hhead
        · exact hhead
        · cases hhead
      obtain ⟨ancestors, p, base, hchain⟩ := h.heads _ _ hhead
      obtain ⟨bytes, hload, henvelope⟩ := bind_eq_ok.mp henvelope
      obtain rfl := Except.ok.inj (hload.symm.trans hchain.stored)
      rw [hchain.readBack hcodec] at henvelope
      dsimp only at henvelope
      obtain ⟨loaded, hloaded, henvelope⟩ := bind_eq_ok.mp henvelope
      obtain rfl := Except.ok.inj (hloaded.symm.trans (hchain.load_eq hcodec))
      split at henvelope
      · next hsame =>
          -- the head holds the same state
          obtain rfl := pure_eq_ok.mp henvelope
          obtain ⟨c', hc', rfl, -⟩ := hchain.mem_taken
          have hhash : codec.stateHash c'.state = codec.stateHash c.state :=
            hchain.stateHash_eq.symm.trans hsame
          rw [← hcodec.states c' hc' c hc (hsha hhash)]
          exact Or.inr (Or.inl ⟨hash, ancestors, hchain⟩)
      · split at henvelope
        · next hdepth =>
            rw [Bool.and_eq_true, decide_eq_true_eq] at hdepth
            obtain ⟨d, hdelta, henvelope⟩ := bind_eq_ok.mp henvelope
            split at henvelope
            · have hsame : loaded.project = c.state.project := by
                obtain ⟨_, hshape, -⟩ := bind_eq_ok.mp hdelta
                rw [ensure_eq_ok, Bool.and_eq_true, beq_iff_eq] at hshape
                exact hshape.1
              exact Or.inr (Or.inr ⟨hash, ancestors, p, loaded, d, hchain, hdepth.1, hsame,
                hchain.snapshotted.applyDelta hsha hstate hsame hdelta,
                (pure_eq_ok.mp henvelope).symm⟩)
            · exact Or.inl (pure_eq_ok.mp henvelope).symm
        · exact Or.inl (pure_eq_ok.mp henvelope).symm

/-- The checkpoint that is published is the end of a chain. -/
theorem Published.chain {args : CreateArgs} {c : Taken} (hsha : Function.Injective codec.digest)
    (hcodec : ReadBack codec taken)
    (h : SnapshotsChained codec taken db) (hc : c ∈ taken) (hstate : Snapshotted codec c.state)
    (hproject : c.state.project = args.project)
    (henvelope : chooseEnvelope codec db args c.state = .ok c.envelope)
    (hpublished : Published codec args c.envelope c.snap db db') :
    c.envelope.stateHash = codec.stateHash c.state ∧
      ∃ ancestors, Chain codec taken db' c.snap.blobHash ancestors c.envelope c.state := by
  have hstored : loadBlob codec db' c.snap.blobHash = .ok (codec.envelopeToVec c.envelope) := by
    have hcontains := hpublished.contains
    rw [hpublished.blobHash] at hcontains ⊢
    exact loadBlob_of_contains hsha (hpublished.keeps.sound h.store) hcontains
  have htaken : ∃ c' ∈ taken, c'.state = c.state ∧ c'.envelope = c.envelope := ⟨c, hc, rfl, rfl⟩
  rcases chooseEnvelope_cases hsha hcodec h htaken hstate hproject henvelope with
    hfull | ⟨hash, ancestors, hchain⟩ | ⟨parent, ancestors, p, base, d, hchain, hdepth, hsame, happly, heq⟩
  · exact ⟨by rw [hfull]; rfl, [], .base htaken hstate hfull hstored⟩
  · refine ⟨hchain.stateHash_eq, ancestors, ?_⟩
    have hhash : c.snap.blobHash = hash :=
      hpublished.blobHash.trans (digest_of_loadBlob hchain.stored)
    rw [hhash]
    exact hchain.mono hpublished.keeps.loads hpublished.dependencies
  · refine ⟨by rw [heq]; rfl, ancestors ++ [p], ?_⟩
    exact .delta (hchain.mono hpublished.keeps.loads hpublished.dependencies) htaken hstate hdepth hsame
      happly heq (hpublished.dependency parent (by rw [heq]; rfl)) hstored

theorem storeBlob_frame (codec : Codec) (plan : StorePlan) (bytes : Bytes)
    (fault : Nat → Option String) (db : Database) :
    (((storeBlob codec plan bytes).run fault db).2).brainSnapshots = db.brainSnapshots ∧
      (((storeBlob codec plan bytes).run fault db).2).checkpointHeads = db.checkpointHeads ∧
      (((storeBlob codec plan bytes).run fault db).2).checkpointDependencies
        = db.checkpointDependencies := by
  suffices hpreserves : Proc.Preserves (fun s : Database => s.brainSnapshots = db.brainSnapshots ∧
      s.checkpointHeads = db.checkpointHeads ∧ s.checkpointDependencies = db.checkpointDependencies)
      (storeBlob codec plan bytes) from hpreserves.run fault ⟨rfl, rfl, rfl⟩
  cases plan with
  | floor =>
      refine .exec fun s r s' hs h => ?_
      obtain ⟨-, rfl⟩ := Prod.mk.inj (Except.ok.inj h)
      exact hs
  | dict dictHash =>
      refine .step (fun s r s' hs h => ?_) fun _ => .exec fun s r s' hs h => ?_
      · obtain ⟨-, rfl⟩ := Prod.mk.inj (Except.ok.inj h)
        exact hs
      · obtain ⟨-, rfl⟩ := Prod.mk.inj (Except.ok.inj h)
        exact hs
  | chunked =>
      refine .exec fun s r s' hs h => ?_
      obtain ⟨_, -, h⟩ := bind_eq_ok.mp h
      dsimp only at h
      split at h
      · obtain ⟨-, rfl⟩ := Prod.mk.inj (pure_eq_ok.mp h)
        exact hs
      · obtain ⟨t, ht, h⟩ := bind_eq_ok.mp h
        obtain ⟨-, rfl⟩ := Prod.mk.inj (pure_eq_ok.mp h)
        refine foldlM_induction (p := fun s : Database => s.brainSnapshots = db.brainSnapshots ∧
          s.checkpointHeads = db.checkpointHeads ∧
          s.checkpointDependencies = db.checkpointDependencies) ht (fun d e d' _ hd hstep => ?_) hs
        obtain ⟨_, -, hstep⟩ := bind_eq_ok.mp hstep
        rw [← pure_eq_ok.mp hstep]
        exact hd

/-- A restore leaves the list, the heads and the links alone. -/
theorem restore_frame {args : RestoreArgs} {state : State} {counts : RestoreCounts}
    (h : restore codec args state db = .ok (counts, db')) :
    db'.brainSnapshots = db.brainSnapshots ∧ db'.checkpointHeads = db.checkpointHeads ∧
      db'.checkpointDependencies = db.checkpointDependencies := by
  let Same (s : Database) : Prop := s.brainSnapshots = db.brainSnapshots ∧
    s.checkpointHeads = db.checkpointHeads ∧ s.checkpointDependencies = db.checkpointDependencies
  obtain ⟨tables, -, h⟩ := bind_eq_ok.mp h
  split at h
  · obtain ⟨-, rfl⟩ := Prod.mk.inj (pure_eq_ok.mp h)
    exact ⟨rfl, rfl, rfl⟩
  · obtain ⟨db'', hwrite, h⟩ := bind_eq_ok.mp h
    obtain ⟨-, rfl⟩ := Prod.mk.inj (pure_eq_ok.mp h)
    obtain ⟨s, hdelete, h⟩ := bind_eq_ok.mp hwrite
    obtain ⟨t, ht, h⟩ := bind_eq_ok.mp h
    obtain ⟨u, hu, h⟩ := bind_eq_ok.mp h
    obtain ⟨_, -, h⟩ := bind_eq_ok.mp h
    obtain rfl := pure_eq_ok.mp h
    have hs : Same s := by
      refine foldlM_induction (p := Same) hdelete (fun d name d' _ hd hcascade => ?_) ⟨rfl, rfl, rfl⟩
      refine foldlM_induction (p := Same) hcascade (fun e referrer e' _ he hstep => ?_) hd
      rw [followReference] at hstep
      split at hstep
      · rw [← Except.ok.inj hstep]
        exact he
      · obtain ⟨_, -, hstep⟩ := bind_eq_ok.mp hstep
        rw [← pure_eq_ok.mp hstep]
        exact he
    have ht : Same t := by
      refine foldlM_induction (p := Same) ht (fun d e d' _ hd hstep => ?_) hs
      obtain ⟨bytes, -, hstep⟩ := bind_eq_ok.mp hstep
      rw [← pure_eq_ok.mp hstep]
      exact hd
    have hu : Same u := by
      refine foldlM_induction (p := Same) hu (fun d name d' _ hd htable => ?_) ht
      refine foldlM_induction (p := Same) htable (fun e row e' _ he hrow => ?_) hd
      obtain ⟨r, -, -, rfl⟩ := insertRecord_ok hrow
      exact he
    have hevidence : ∀ (records : List Record) (d : Database), Same d →
        Same (records.foldl (insertEvidence codec state.project) d) := by
      intro records
      induction records with
      | nil => exact fun d hd => hd
      | cons record records ih =>
          intro d hd
          refine ih _ ?_
          rw [insertEvidence]
          split <;> exact hd
    exact hevidence _ _ hu

/-- One step keeps the chains, and what it takes is the end of one. -/
theorem CheckpointStep.chained (hsha : Function.Injective codec.digest)
    (hcodec : ReadBack codec taken)
    (hcuts : ∀ bytes, (codec.cuts bytes).flatten = bytes) (hnew : ∀ c ∈ new, c ∈ taken)
    (h : SnapshotsChained codec taken db) (hstep : CheckpointStep codec db new db') :
    SnapshotsChained codec taken db' ∧ ∀ c ∈ new,
      c.snap.blobHash = codec.digest (codec.envelopeToVec c.envelope) ∧
        c.envelope.stateHash = codec.stateHash c.state := by
  have hnone : ∀ c ∈ ([] : List Taken),
      c.snap.blobHash = codec.digest (codec.envelopeToVec c.envelope) ∧
        c.envelope.stateHash = codec.stateHash c.state := fun c hc => absurd hc List.not_mem_nil
  cases hstep with
  | @create db db' args c hcapture henvelope hpublish =>
      have hc := hnew c List.mem_cons_self
      obtain ⟨hstate, hproject⟩ := captureChecked_ok hcapture (hcodec.rows c hc)
      have hpublished := publish_ok hpublish
      obtain ⟨hhash, ancestors, hchain⟩ := hpublished.chain hsha hcodec h hc hstate hproject henvelope
      have hmono : ∀ {hash ancestors e state}, Chain codec taken db hash ancestors e state →
          Chain codec taken db' hash ancestors e state :=
        fun hold => hold.mono hpublished.keeps.loads hpublished.dependencies
      refine ⟨⟨hpublished.keeps.sound h.store, fun s hs => ?_, fun project hash hhead => ?_⟩,
        fun c' hc' => List.mem_singleton.mp hc' ▸ ⟨hpublished.blobHash, hhash⟩⟩
      · rw [hpublished.snapshots] at hs
        rcases List.mem_append.mp hs with hs | hs
        · obtain ⟨ancestors', e, state, hold⟩ := h.listed s hs
          exact ⟨ancestors', e, state, hmono hold⟩
        · rw [List.mem_singleton.mp hs]
          exact ⟨ancestors, c.envelope, c.state, hchain⟩
      · rw [hpublished.heads, Std.ExtTreeMap.getElem?_insert] at hhead
        split at hhead
        · rw [← Option.some.inj hhead]
          exact ⟨ancestors, c.envelope, c.state, hchain⟩
        · obtain ⟨ancestors', e, state, hold⟩ := h.heads project hash hhead
          exact ⟨ancestors', e, state, hmono hold⟩
  | delete hdelete =>
      have hdeleted : Deleted codec db db' := delete_ok hdelete
      refine ⟨h.keep hdeleted.keeps (fun entry hentry => ?_) hdeleted.snapshots hdeleted.heads, hnone⟩
      rw [hdeleted.dependencies]
      exact hentry
  | gc => exact ⟨h.gc, hnone⟩
  | decref hash =>
      obtain ⟨hsnaps, hheads, hdeps⟩ := decrefBlob_frame hash db
      refine ⟨h.keep (keepsStore_decrefBlob hash) (fun entry hentry => hdeps ▸ hentry)
        (fun s hs => hsnaps ▸ hs) (fun project k hk => Or.inl (hheads ▸ hk)), hnone⟩
  | store plan bytes fault =>
      obtain ⟨hsnaps, hheads, hdeps⟩ := storeBlob_frame codec plan bytes fault db
      refine ⟨h.keep (keepsStore_storeBlob hsha hcuts fault)
        (fun entry hentry => hdeps ▸ hentry) (fun s hs => hsnaps ▸ hs)
        (fun project k hk => Or.inl (hheads ▸ hk)), hnone⟩
  | restore hrestore =>
      obtain ⟨hsnaps, hheads, hdeps⟩ := restore_frame hrestore
      refine ⟨h.keep (keepsStore_restore hsha hrestore) (fun entry hentry => hdeps ▸ hentry)
        (fun s hs => hsnaps ▸ hs) (fun project k hk => Or.inl (hheads ▸ hk)), hnone⟩
  | change table nonces highwater =>
      exact ⟨h.keep (SameStore.keepsStore ⟨⟨rfl, rfl, rfl⟩, rfl⟩) (fun _ => id) (fun _ => id)
        (fun _ _ => Or.inl), hnone⟩

end Steps

/-! ## Runs -/

section Runs

variable {codec : Codec} {start db : Database} {taken : List Taken}

/-- The chains are there after every run, for any list that covers what the run took. -/
theorem CheckpointRun.chained {all : List Taken} (hsha : Function.Injective codec.digest)
    (hcodec : ReadBack codec all)
    (hcuts : ∀ bytes, (codec.cuts bytes).flatten = bytes) (hstart : SnapshotsChained codec all start)
    (hrun : CheckpointRun codec start taken db) (hall : ∀ c ∈ taken, c ∈ all) :
    SnapshotsChained codec all db ∧ ∀ c ∈ taken,
      c.snap.blobHash = codec.digest (codec.envelopeToVec c.envelope) ∧
        c.envelope.stateHash = codec.stateHash c.state := by
  induction hrun with
  | refl => exact ⟨hstart, fun c hc => absurd hc List.not_mem_nil⟩
  | step _ hstep ih =>
      obtain ⟨hchained, hold⟩ := ih fun c hc => hall c (List.mem_append_left _ hc)
      obtain ⟨hchained', hnew⟩ := hstep.chained hsha hcodec hcuts
        (fun c hc => hall c (List.mem_append_right _ hc)) hchained
      refine ⟨hchained', fun c hc => ?_⟩
      rcases List.mem_append.mp hc with hc | hc
      · exact hold c hc
      · exact hnew c hc

/-- Every checkpoint taken in a run that is still listed loads to the state it captured, over a
chain of at most eight deltas, where `serde_json` reads back what the run had it write. -/
theorem snapshots_loadable (hsha : Function.Injective codec.digest)
    (hcodec : ReadBack codec taken)
    (hcuts : ∀ bytes, (codec.cuts bytes).flatten = bytes) (hstore : StoreSound codec start)
    (hlisted : start.brainSnapshots = []) (hheads : start.checkpointHeads = ∅)
    (hrun : CheckpointRun codec start taken db) {c : Taken} (hc : c ∈ taken)
    (hmem : c.snap ∈ db.brainSnapshots) :
    load codec db c.snap.blobHash = .ok c.state ∧
      ∃ ancestors, ancestors.length ≤ 8 ∧
        Chain codec taken db c.snap.blobHash ancestors c.envelope c.state := by
  have hstart : SnapshotsChained codec taken start := by
    refine ⟨hstore, fun s hs => ?_, fun project hash hhead => ?_⟩
    · rw [hlisted] at hs
      exact absurd hs List.not_mem_nil
    · rw [hheads] at hhead
      simp at hhead
  obtain ⟨hchained, htaken⟩ := hrun.chained hsha hcodec hcuts hstart fun c hc => hc
  obtain ⟨hblob, hhash⟩ := htaken c hc
  obtain ⟨ancestors, e, state, hchain⟩ := hchained.listed c.snap hmem
  -- the row names the hash of the envelope, and the envelope names the hash of the state
  have hvec : codec.envelopeToVec e = codec.envelopeToVec c.envelope :=
    hsha ((digest_of_loadBlob hchain.stored).trans hblob)
  obtain rfl : e = c.envelope :=
    Except.ok.inj ((hchain.readBack hcodec).symm.trans (hvec ▸ hcodec.envelopes c hc))
  obtain ⟨c', hc', hstate, -⟩ := hchain.mem_taken
  obtain rfl : state = c.state := by
    rw [← hstate]
    refine hcodec.states c' hc' c hc (hsha ?_)
    rw [hstate]
    exact hchain.stateHash_eq.symm.trans hhash
  exact ⟨hchain.load_eq hcodec, ancestors, hchain.depth_eq.2, hchain⟩

end Runs

/-! ## A run -/

/-- The bytes of an ASCII text. -/
def asciiBytes (chars : List Char) : Bytes := chars.map fun c => UInt8.ofNat c.toNat

def rowsBytes (tables : BTreeMap (List Record)) : Bytes :=
  tables.toList.flatMap fun (_, rows) => rows.flatMap fun r => asciiBytes (recordChars r)

/-- A state as bytes, so far as these runs need it: the rows. -/
def stateBytes (state : State) : Bytes := rowsBytes (state.tables.map fun _ t => t.rows)

/-- An envelope as bytes: the hashes and the rows. -/
def envelopeBytes (e : Envelope) : Bytes :=
  asciiBytes ([e.stateHash, e.parent.getD "", e.parentHash.getD ""].flatMap String.toList)
    ++ (e.full.map stateBytes).getD []
    ++ (e.delta.map fun d => rowsBytes d.removed ++ rowsBytes d.added).getD []

/-- A codec that has short names for the byte strings it has hashed before, and reads back each
stored envelope as the one given with it. -/
def readingCodec (known : List Record) (hashed : List Bytes)
    (envelopes : List (Envelope × Envelope)) : Codec :=
  { jsonCodec known with
    stateToVec := stateBytes
    envelopeToVec := envelopeBytes
    envelopeFromSlice := fun bytes =>
      match envelopes.find? fun (e, _) => envelopeBytes e == bytes with
      | some (_, e) => .ok e
      | none => .error "expected value"
    digest := fun bytes =>
      if bytes ∈ hashed then "sha256:" ++ toString (hashed.idxOf bytes)
      else "bytes:" ++ (jsonCodec known).digest bytes }

/-- The names tell the byte strings apart. -/
theorem readingCodec_digest (known : List Record) (hashed : List Bytes)
    (envelopes : List (Envelope × Envelope)) :
    Function.Injective (readingCodec known hashed envelopes).digest := by
  have htags (s t : String) : "sha256:" ++ s ≠ "bytes:" ++ t := by
    intro h
    have hchars := congrArg String.toList h
    simp only [String.toList_append] at hchars
    exact absurd (List.cons.inj hchars).1 (by decide)
  intro a b h
  simp only [readingCodec] at h
  split at h
  · next ha =>
      split at h
      · exact (List.idxOf_inj ha).mp (Nat.repr_injective ((String.append_right_inj "sha256:").mp h))
      · exact absurd h (htags _ _)
  · split at h
    · exact absurd h.symm (htags _ _)
    · exact (jsonCodec_lossless known).digest ((String.append_right_inj "bytes:").mp h)

/-- What a capture of the tables of a database with project `p` holds. -/
def capturedState (tables : String → List Record) : State where
  project := "p"
  tables := TABLES.foldl (fun m name =>
    m.insert name ⟨captureFields name, (tables name).map (captureRow name)⟩) ∅
  sources := ∅
  auditEvidence := []

/-- A session of the project. -/
def sessionRow (id : String) : Record := jsonObject [("id", .str id), ("project", .str "p"),
  ("started_at", .int 1), ("ended_at", .null), ("compressed", .int 0)]

def sessionTables (ids : List String) : String → List Record := fun name =>
  if name = "sessions" then ids.map sessionRow else []

/-- The project before and after a session is added. -/
def firstState : State := capturedState (sessionTables ["s1", "s2", "s3"])
def secondState : State := capturedState (sessionTables ["s1", "s2", "s3", "s4"])

def sessionRows : List Record := ["s1", "s2", "s3", "s4"].map sessionRow

/-- The full checkpoint of the first state, and the delta that leads to the second one. -/
def baseEnvelope : Envelope where
  version := 5
  project := "p"
  stateHash := "sha256:0"
  parent := none
  parentHash := none
  depth := 0
  full := some firstState
  delta := none

def sessionDelta : Envelope :=
  let rowsPerTable (rows : String → List Record) : BTreeMap (List Record) :=
    firstState.tables.toList.foldl (fun m (name, _) => m.insert name (rows name)) ∅
  { version := 5
    project := "p"
    stateHash := "sha256:1"
    parent := some "sha256:2"
    parentHash := some "sha256:0"
    depth := 1
    full := none
    delta := some {
      removed := rowsPerTable fun _ => []
      added := rowsPerTable fun name => if name = "sessions" then [sessionRow "s4"] else []
      sources := ∅
      removedSources := []
      auditEvidence := [] } }

def sessionCodec : Codec :=
  readingCodec sessionRows
    [stateBytes firstState, stateBytes secondState, envelopeBytes baseEnvelope]
    [(baseEnvelope, baseEnvelope), (sessionDelta, sessionDelta)]

def createArgs (uuid : String) (now : Int) : CreateArgs where
  project := "p"
  incremental := true
  uuid := uuid
  now := now

def sessionDb : Database where
  table := sessionTables ["s1", "s2", "s3"]

/-- After the first checkpoint: the second state is captured, stored as the delta, and the first
checkpoint is deleted. -/
def sessionFollows (first : BrainSnapshot × Database) : Bool :=
  let db := { first.2 with table := sessionTables ["s1", "s2", "s3", "s4"] }
  decide (captureChecked sessionCodec db "p" = .ok secondState) &&
    decide (chooseEnvelope sessionCodec db (createArgs "2" 8) secondState = .ok sessionDelta) &&
      okAnd (fun second => okAnd (fun db => decide (db.brainSnapshots = [second.1]))
          (delete first.1.id second.2))
        (publish sessionCodec (createArgs "2" 8) secondState sessionDelta db)

/-- The calls of the run, and what the codec makes of the states and envelopes they are about. -/
theorem sessionCodec_computes :
    (captureChecked sessionCodec sessionDb "p" = .ok firstState ∧
      chooseEnvelope sessionCodec sessionDb (createArgs "1" 7) firstState = .ok baseEnvelope ∧
      okAnd sessionFollows
        (publish sessionCodec (createArgs "1" 7) firstState baseEnvelope sessionDb) = true) ∧
    (∀ state ∈ [firstState, secondState], ∀ e ∈ state.tables.toList,
      RoundTrips sessionCodec e.2.rows) ∧
    (∀ e ∈ [baseEnvelope, sessionDelta],
      sessionCodec.envelopeFromSlice (sessionCodec.envelopeToVec e) = .ok e) ∧
    sessionCodec.stateToVec firstState ≠ sessionCodec.stateToVec secondState := by
  decide +kernel

theorem sessionCodec_readBack (first second : BrainSnapshot) :
    ReadBack sessionCodec
      [⟨first, firstState, baseEnvelope⟩, ⟨second, secondState, sessionDelta⟩] := by
  have hstates (c : Taken) (hc : c ∈ [⟨first, firstState, baseEnvelope⟩,
      ⟨second, secondState, sessionDelta⟩]) : (c.state = firstState ∧ c.envelope = baseEnvelope) ∨
        (c.state = secondState ∧ c.envelope = sessionDelta) := by
    rcases List.mem_pair.mp hc with rfl | rfl
    · exact Or.inl ⟨rfl, rfl⟩
    · exact Or.inr ⟨rfl, rfl⟩
  obtain ⟨-, hrows, henvelopes, hdistinct⟩ := sessionCodec_computes
  refine ⟨fun c hc => ?_, fun c hc c' hc' heq => ?_, fun c hc name t ht => ?_⟩
  · exact henvelopes _ (List.mem_pair.mpr ((hstates c hc).imp And.right And.right))
  · rcases hstates c hc with ⟨h, -⟩ | ⟨h, -⟩ <;> rcases hstates c' hc' with ⟨h', -⟩ | ⟨h', -⟩ <;>
      rw [h, h'] at heq ⊢
    · exact absurd heq hdistinct
    · exact absurd heq.symm hdistinct
  · exact hrows _ (List.mem_pair.mpr ((hstates c hc).imp And.left And.left)) (name, t)
      (Std.ExtTreeMap.mem_toList_iff_getElem?_eq_some.mpr ht)

/-- A full checkpoint, a session more, a delta over the full one; then the full one is deleted and
the garbage is collected. The delta is the only checkpoint listed, and it loads. -/
theorem snapshots_loadable_session : ∃ first second db,
    CheckpointRun sessionCodec sessionDb
        [⟨first, firstState, baseEnvelope⟩, ⟨second, secondState, sessionDelta⟩] db ∧
      db.brainSnapshots = [second] ∧ load sessionCodec db second.blobHash = .ok secondState := by
  obtain ⟨⟨hcaptured, hbase, hcomputed⟩, -⟩ := sessionCodec_computes
  obtain ⟨⟨first, db₁⟩, hfirst, hfollows⟩ := okAnd_eq_true.mp hcomputed
  simp only [sessionFollows, Bool.and_eq_true, decide_eq_true_eq] at hfollows
  obtain ⟨⟨hcapture, henvelope⟩, hrest⟩ := hfollows
  obtain ⟨⟨second, db₂⟩, hsecond, hdeleted⟩ := okAnd_eq_true.mp hrest
  obtain ⟨db₃, hdelete, hlisted⟩ := okAnd_eq_true.mp hdeleted
  have hlisted : db₃.brainSnapshots = [second] := of_decide_eq_true hlisted
  have hcreate : CheckpointStep sessionCodec sessionDb [⟨first, firstState, baseEnvelope⟩] db₁ :=
    @CheckpointStep.create _ _ _ (createArgs "1" 7) ⟨first, firstState, baseEnvelope⟩ hcaptured
      hbase hfirst
  have hchange : CheckpointStep sessionCodec db₁ [] { db₁ with
      table := sessionTables ["s1", "s2", "s3", "s4"] } :=
    .change db₁ (sessionTables ["s1", "s2", "s3", "s4"]) db₁.influenceReplayNonces
      db₁.identityHighwater
  have hcreate' : CheckpointStep sessionCodec
      { db₁ with table := sessionTables ["s1", "s2", "s3", "s4"] }
      [⟨second, secondState, sessionDelta⟩] db₂ :=
    @CheckpointStep.create _ _ _ (createArgs "2" 8) ⟨second, secondState, sessionDelta⟩ hcapture
      henvelope hsecond
  have hempty : CheckpointRun sessionCodec sessionDb [] sessionDb := .refl
  have hrun := ((((hempty.step hcreate).step hchange).step hcreate').step (.delete hdelete)).step
    (.gc db₃)
  have hstore : StoreSound sessionCodec sessionDb :=
    ⟨fun hash h => by simp [sessionDb] at h, fun chunk c hc => by simp [sessionDb] at hc⟩
  refine ⟨first, second, (gcBlobs db₃).2, hrun, hlisted, ?_⟩
  exact (snapshots_loadable (readingCodec_digest _ _ _) (sessionCodec_readBack first second)
    (fun bytes => List.append_nil bytes) hstore rfl rfl hrun
    (c := ⟨second, secondState, sessionDelta⟩) (by simp)
    (show second ∈ db₃.brainSnapshots by rw [hlisted]; exact List.mem_singleton_self second)).1

/-! ## The defect, concretely -/

/-- A memory of the project with one edge. -/
def edgeTables (confidence : String) : String → List Record
  | "memories" => [jsonObject [("rowid", .int 1), ("project", .str "p"), ("session_id", .str "s"),
      ("summary", .str "m"), ("tags", .null), ("created_at", .int 1)]]
  | "memory_edges" => [jsonObject [("id", .int 1), ("project", .str "p"), ("memory_id", .int 1),
      ("source", .str "a"), ("source_norm", .str "a"), ("relation", .str "r"),
      ("relation_norm", .str "r"), ("target", .str "b"), ("target_norm", .str "b"),
      ("valid_from", .null), ("valid_until", .null), ("observed_at", .int 1),
      ("confidence", .real confidence), ("superseded_by", .null), ("superseded_reason", .null),
      ("created_at", .int 1)]]
  | _ => []

def edgeDb : Database where
  table := edgeTables "2.0216452258032297e-40"

def edgeState : State := capturedState (edgeTables "2.0216452258032297e-40")

def edgeEnvelope : Envelope :=
  fullEnvelope (readingCodec [] [stateBytes edgeState] []) "p" edgeState

/-- `serde_json` without `float_roundtrip` parses `2.0216452258032297e-40` as the quotient of
`20216452258032297` and `1e56`, whose shortest form is `2.0216452258032293e-40`. -/
def edgeCodec : Codec :=
  readingCodec [] [stateBytes edgeState, envelopeBytes edgeEnvelope] [(edgeEnvelope,
    { edgeEnvelope with full := some (capturedState (edgeTables "2.0216452258032293e-40")) })]

/-- `create` lists a checkpoint of this edge, and no `load` accepts it. -/
theorem snapshots_not_loadable : Function.Injective edgeCodec.digest ∧
    (∀ bytes, (edgeCodec.cuts bytes).flatten = bytes) ∧ StoreSound edgeCodec edgeDb ∧
      ∃ snap db, CheckpointRun edgeCodec edgeDb [⟨snap, edgeState, edgeEnvelope⟩] db ∧
        snap ∈ db.brainSnapshots ∧
          load edgeCodec db snap.blobHash = .error "checkpoint state hash mismatch" := by
  refine ⟨readingCodec_digest _ _ _, fun bytes => List.append_nil bytes,
    ⟨fun hash h => by simp [edgeDb] at h, fun chunk c hc => by simp [edgeDb] at hc⟩, ?_⟩
  obtain ⟨hcaptured, hchosen, hrefused⟩ : captureChecked edgeCodec edgeDb "p" = .ok edgeState ∧
      chooseEnvelope edgeCodec edgeDb (createArgs "1" 7) edgeState = .ok edgeEnvelope ∧
      okAnd (fun out => decide
        (load edgeCodec out.2 out.1.blobHash = .error "checkpoint state hash mismatch"))
          (publish edgeCodec (createArgs "1" 7) edgeState edgeEnvelope edgeDb) = true := by
    decide +kernel
  obtain ⟨⟨snap, db⟩, hpublish, hload⟩ := okAnd_eq_true.mp hrefused
  refine ⟨snap, db, .step .refl (@CheckpointStep.create _ _ _ (createArgs "1" 7)
    ⟨snap, edgeState, edgeEnvelope⟩ hcaptured hchosen hpublish), ?_, of_decide_eq_true hload⟩
  rw [(publish_ok hpublish).snapshots]
  exact List.mem_append_right _ (List.mem_singleton_self snap)

end IronMem
