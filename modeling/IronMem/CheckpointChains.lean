import IronMem.OriginalStore

/-!
# Chains of checkpoints

A listed checkpoint is the end of a chain: a full base, then deltas, each stored under
its hash and bound to its parent by a row of `checkpoint_dependencies`. `load` walks
the chain up and replays it down, so that a chain whose originals are there loads to the state
its last envelope was made for (`Chain.load_eq`). Nothing but collection takes originals
away, and collection leaves a chain whose end is pinned: the end keeps its dependency row, and
the row pins the parent (`Chain.gcBlobs`).

- `Taken` is a checkpoint with the state it captured and the envelope that was written for
  it. A chain is over a list of these, so that what is read can be compared with what was
  captured.
- `ReadBack` is what is asked of `serde_json`, for the checkpoints of one list only: it is
  no fact about all rows. The parser is built without `float_roundtrip`, and a row with the
  wrong float is captured and written, but not read back.
- `Chain` has one constructor for the base and one for a delta. Replaying it uses that a
  delta between two captures leads from one to the other (`Snapshotted.applyDelta`), which
  is the round trip of `CheckpointDelta`.
- `Chain.transfer` is the one lemma about steps: a chain survives whatever keeps the bytes
  and the dependency rows of a set of originals that is closed under parents.
-/

namespace IronMem

open Fallible

/-! ## What was captured

A checkpoint that was listed is compared with the state it captured, which is in no table. It is
part of `Taken`, and what was true of the capture stays true of it: canonical rows, sources that
hash to their keys. -/

/-- A checkpoint that `create` has listed: the row, the state it captured and the envelope it
stored. -/
structure Taken where
  snap : BrainSnapshot
  state : State
  envelope : Envelope

/-- `serde_json` reads back what the checkpoints taken had it write, and writes different
states differently. It does so where the numbers of a state are ones its parser returns: the crate
is built without `float_roundtrip`, and then the parser misses the last digit of some floats. -/
structure ReadBack (codec : Codec) (taken : List Taken) : Prop where
  envelopes : ∀ c ∈ taken, codec.envelopeFromSlice (codec.envelopeToVec c.envelope) = .ok c.envelope
  states : ∀ c ∈ taken, ∀ c' ∈ taken,
    codec.stateToVec c.state = codec.stateToVec c'.state → c.state = c'.state
  rows : ∀ c ∈ taken, ∀ (name : String) (t : Table), c.state.tables[name]? = some t →
    RoundTrips codec t.rows

/-- A state as `create` captures and checks it. -/
structure Snapshotted (codec : Codec) (state : State) : Prop where
  captured : state.Captured codec
  tables : ∀ name, (∃ t, state.tables[name]? = some t ∧ t.fields = captureFields name) ∧ name ∈ TABLES
    ∨ state.tables[name]? = none ∧ name ∉ TABLES
  sources : ∀ hash encoded, state.sources[hash]? = some encoded →
    ∃ bytes, codec.digest bytes = hash ∧ encoded = codec.base64Encode bytes
  valid : validate codec state = .ok ()

section Capture

variable {codec : Codec} {db : Database} {project : String} {state : State}

/-- The sources of a capture are the originals as they load. -/
theorem capture_sources {includeSources : Bool} (h : capture codec db project includeSources = .ok state)
    {hash encoded : String} (hsource : state.sources[hash]? = some encoded) :
    ∃ bytes, loadBlob codec db hash = .ok bytes ∧ encoded = codec.base64Encode bytes := by
  obtain ⟨tables, -, h⟩ := bind_eq_ok.mp h
  obtain ⟨_, -, h⟩ := bind_eq_ok.mp h
  obtain ⟨sources, hsources, h⟩ := bind_eq_ok.mp h
  obtain ⟨evidence, -, h⟩ := bind_eq_ok.mp h
  obtain rfl := pure_eq_ok.mp h
  refine foldlM_induction (p := fun acc : BTreeMap String => ∀ hash encoded : String,
      acc[hash]? = some encoded →
        ∃ bytes, loadBlob codec db hash = .ok bytes ∧ encoded = codec.base64Encode bytes)
    hsources (fun acc k acc' _ hacc hstep => ?_) (fun k v hk => by simp at hk) hash encoded hsource
  obtain ⟨bytes, hload, hstep⟩ := bind_eq_ok.mp hstep
  obtain rfl := pure_eq_ok.mp hstep
  intro k' v hv
  rw [Std.ExtTreeMap.getElem?_insert] at hv
  split at hv
  · next heq =>
      obtain rfl := compare_eq_iff_eq.mp heq
      exact ⟨bytes, hload, (Option.some.inj hv).symm⟩
  · exact hacc k' v hv

theorem captureChecked_ok (h : captureChecked codec db project = .ok state)
    (hrows : ∀ (name : String) (t : Table), state.tables[name]? = some t → RoundTrips codec t.rows) :
    Snapshotted codec state ∧ state.project = project := by
  obtain ⟨state', hcapture, h⟩ := bind_eq_ok.mp h
  obtain ⟨_, hvalid, h⟩ := bind_eq_ok.mp h
  obtain rfl := pure_eq_ok.mp h
  have hcaptures := capture_ok hcapture
  refine ⟨⟨⟨fun {name t} ht => ?_, fun {name t} ht => hrows name t ht⟩, fun name => ?_,
    fun hash encoded hsource => ?_, hvalid⟩, hcaptures.project_eq⟩
  · by_cases hname : name ∈ TABLES
    · obtain ⟨t', ht', hget⟩ := hcaptures.tables name hname
      obtain rfl := Option.some.inj (ht.symm.trans hget)
      rw [(captureTable_ok ht').2]
      exact RowDiff.canonical_sortBy _ _
    · rw [hcaptures.noOther name hname] at ht
      cases ht
  · by_cases hname : name ∈ TABLES
    · obtain ⟨t, ht, hget⟩ := hcaptures.tables name hname
      exact Or.inl ⟨⟨t, hget, (captureTable_ok ht).1⟩, hname⟩
    · exact Or.inr ⟨hcaptures.noOther name hname, hname⟩
  · obtain ⟨bytes, hload, hencoded⟩ := capture_sources hcapture hsource
    exact ⟨bytes, digest_of_loadBlob hload, hencoded⟩

/-- Two captures of one project differ by a delta that leads from one to the other. -/
theorem Snapshotted.applyDelta {base : State} (hsha : Function.Injective codec.digest)
    (hbase : Snapshotted codec base) (hstate : Snapshotted codec state)
    (hproject : base.project = state.project) {d : Delta} (hdelta : difference codec base state = .ok d) :
    applyDelta codec base d = .ok state := by
  have hshape : base.SameShape state := by
    refine ⟨hproject, sameKeys_of_mem fun name => ?_, fun {name b n} hb hn => ?_⟩
    · rw [Std.ExtTreeMap.mem_iff_isSome_getElem?, Std.ExtTreeMap.mem_iff_isSome_getElem?]
      rcases hbase.tables name with ⟨⟨b, hb, -⟩, hname⟩ | ⟨hb, hname⟩ <;>
        rcases hstate.tables name with ⟨⟨n, hn, -⟩, hname'⟩ | ⟨hn, hname'⟩
      · rw [hb, hn]; simp
      · exact absurd hname hname'
      · exact absurd hname' hname
      · rw [hb, hn]
    · rcases hbase.tables name with ⟨⟨b', hb', hfields⟩, -⟩ | ⟨hb', -⟩
      · rcases hstate.tables name with ⟨⟨n', hn', hfields'⟩, -⟩ | ⟨hn', -⟩
        · rw [Option.some.inj (hb.symm.trans hb'), Option.some.inj (hn.symm.trans hn'), hfields, hfields']
        · rw [hn'] at hn; cases hn
      · rw [hb'] at hb; cases hb
  have hsources : base.SourcesAgree state := by
    intro hash b n hb hn
    obtain ⟨bytes, hdigest, rfl⟩ := hbase.sources hash b hb
    obtain ⟨bytes', hdigest', rfl⟩ := hstate.sources hash n hn
    rw [hsha (hdigest.trans hdigest'.symm)]
  obtain ⟨d', hd', happly⟩ := applyDelta_difference hshape hbase.captured hstate.captured hsources
  rwa [Except.ok.inj (hdelta.symm.trans hd')]

end Capture

/-! ## Chains

`load` walks from an envelope to its base and replays the deltas on the way back. It refuses an
envelope it has met before and one that is too deep; on a chain it meets neither. -/

/-- The envelope stored under `hash` is the end of a chain that leads to `state`; its ancestors
come base first. -/
inductive Chain (codec : Codec) (taken : List Taken) (db : Database) :
    String → List Envelope → Envelope → State → Prop
  | base {hash : String} {e : Envelope} {state : State}
      (htaken : ∃ c ∈ taken, c.state = state ∧ c.envelope = e) (hstate : Snapshotted codec state)
      (henvelope : e = fullEnvelope codec state.project state)
      (hstored : loadBlob codec db hash = .ok (codec.envelopeToVec e)) :
      Chain codec taken db hash [] e state
  | delta {hash parent : String} {ancestors : List Envelope} {p e : Envelope} {base state : State}
      {d : Delta} (hparent : Chain codec taken db parent ancestors p base)
      (htaken : ∃ c ∈ taken, c.state = state ∧ c.envelope = e) (hstate : Snapshotted codec state)
      (hdepth : p.depth < 8) (hproject : base.project = state.project)
      (happly : applyDelta codec base d = .ok state)
      (henvelope : e = deltaEnvelope codec state.project state parent p d)
      (hdependency : (hash, parent) ∈ db.checkpointDependencies)
      (hstored : loadBlob codec db hash = .ok (codec.envelopeToVec e)) :
      Chain codec taken db hash (ancestors ++ [p]) e state

namespace Chain

variable {codec : Codec} {taken : List Taken} {db db' : Database} {hash : String}
  {ancestors : List Envelope} {e : Envelope} {state : State}

theorem stored (h : Chain codec taken db hash ancestors e state) :
    loadBlob codec db hash = .ok (codec.envelopeToVec e) := by
  cases h <;> assumption

theorem mem_taken (h : Chain codec taken db hash ancestors e state) :
    ∃ c ∈ taken, c.state = state ∧ c.envelope = e := by
  cases h <;> assumption

theorem snapshotted (h : Chain codec taken db hash ancestors e state) : Snapshotted codec state := by
  cases h <;> assumption

theorem stateHash_eq (h : Chain codec taken db hash ancestors e state) :
    e.stateHash = codec.stateHash state := by
  cases h with
  | base _ _ henvelope _ => rw [henvelope]; rfl
  | delta _ _ _ _ _ _ henvelope _ _ => rw [henvelope]; rfl

/-- The depth counts the ancestors; there are at most eight. -/
theorem depth_eq (h : Chain codec taken db hash ancestors e state) :
    e.depth = ancestors.length ∧ ancestors.length ≤ 8 := by
  induction h with
  | base _ _ henvelope _ => rw [henvelope]; exact ⟨rfl, Nat.zero_le _⟩
  | delta _ _ _ hdepth _ _ henvelope _ _ ih =>
      rw [henvelope, List.length_append, List.length_singleton]
      refine ⟨congrArg (· + 1) ih.1, ?_⟩
      omega

theorem readBack (hcodec : ReadBack codec taken) (h : Chain codec taken db hash ancestors e state) :
    codec.envelopeFromSlice (codec.envelopeToVec e) = .ok e := by
  obtain ⟨c, hc, -, rfl⟩ := h.mem_taken
  exact hcodec.envelopes c hc

/-- What `load` checks of every envelope it reads. -/
theorem accepted (h : Chain codec taken db hash ancestors e state) :
    (e.version == 5 && decide (e.depth ≤ 8) && (e.full.isSome ^^ e.delta.isSome)) = true := by
  have hdepth : e.depth ≤ 8 := by
    have := h.depth_eq
    omega
  cases h with
  | base _ _ henvelope _ => subst henvelope; simp [fullEnvelope]
  | delta _ _ _ _ _ _ henvelope _ _ =>
      subst henvelope
      simpa [deltaEnvelope] using hdepth

/-- Walking up a chain collects it. An envelope seen on the way is further down and so
another one. -/
theorem loadChain_eq (hcodec : ReadBack codec taken) (h : Chain codec taken db hash ancestors e state)
    {n : Nat} {seen : List String} {below : List Envelope} (hn : ancestors.length < n)
    (hseen : ∀ s ∈ seen, ∃ e', loadBlob codec db s = .ok (codec.envelopeToVec e') ∧
      codec.envelopeFromSlice (codec.envelopeToVec e') = .ok e' ∧ ancestors.length < e'.depth) :
    loadChain codec db n hash seen below = .ok (ancestors ++ e :: below) := by
  induction h generalizing n seen below with
  | @base hash e state htaken hstate henvelope hstored =>
      have h : Chain codec taken db hash [] e state := .base htaken hstate henvelope hstored
      obtain ⟨n, rfl⟩ : ∃ m, n = m + 1 := ⟨n - 1, by omega⟩
      have hfresh : seen.contains hash = false := by
        rw [← Bool.not_eq_true, List.contains_iff_mem]
        intro hmem
        obtain ⟨e', hload, hread, hdepth⟩ := hseen hash hmem
        have hsame := hread.symm.trans ((Except.ok.inj (hload.symm.trans hstored)) ▸ h.readBack hcodec)
        rw [Except.ok.inj hsame, h.depth_eq.1] at hdepth
        omega
      have hparent : e.parent = none := by rw [henvelope]; rfl
      rw [loadChain]
      refine bind_eq_ok.mpr ⟨(), ensure_eq_ok.mpr (by rw [hfresh]; rfl), bind_eq_ok.mpr ⟨_, hstored,
        bind_eq_ok.mpr ⟨e, h.readBack hcodec, bind_eq_ok.mpr ⟨(), ensure_eq_ok.mpr h.accepted, ?_⟩⟩⟩⟩
      rw [hparent]
      rfl
  | @delta hash parent ancestors p e base state d hup htaken hstate hdepth hproject happly henvelope
      hdependency hstored ih =>
      have h : Chain codec taken db hash (ancestors ++ [p]) e state :=
        .delta hup htaken hstate hdepth hproject happly henvelope hdependency hstored
      have hlength : (ancestors ++ [p]).length = ancestors.length + 1 := by simp
      obtain ⟨n, rfl⟩ : ∃ m, n = m + 1 := ⟨n - 1, by omega⟩
      have hfresh : seen.contains hash = false := by
        rw [← Bool.not_eq_true, List.contains_iff_mem]
        intro hmem
        obtain ⟨e', hload, hread, hdepth'⟩ := hseen hash hmem
        have hsame := hread.symm.trans ((Except.ok.inj (hload.symm.trans hstored)) ▸ h.readBack hcodec)
        rw [Except.ok.inj hsame, h.depth_eq.1] at hdepth'
        omega
      have hparent : e.parent = some parent := by rw [henvelope]; rfl
      rw [loadChain]
      refine bind_eq_ok.mpr ⟨(), ensure_eq_ok.mpr (by rw [hfresh]; rfl), bind_eq_ok.mpr ⟨_, hstored,
        bind_eq_ok.mpr ⟨e, h.readBack hcodec, bind_eq_ok.mpr ⟨(), ensure_eq_ok.mpr h.accepted, ?_⟩⟩⟩⟩
      rw [hparent]
      show loadChain codec db n parent (hash :: seen) (e :: below) = _
      rw [ih (by omega) fun s hs => ?_, List.append_assoc]
      · rfl
      · rcases List.mem_cons.mp hs with rfl | hs
        · exact ⟨e, hstored, h.readBack hcodec, by rw [h.depth_eq.1]; omega⟩
        · obtain ⟨e', hload, hread, hdepth'⟩ := hseen s hs
          exact ⟨e', hload, hread, by omega⟩

theorem replayChain_append (s : State) (n : Nat) (es es' : List Envelope) :
    replayChain codec s n (es ++ es')
      = replayChain codec s n es >>= fun t => replayChain codec t (n + es.length) es' := by
  induction es generalizing s n with
  | nil => rfl
  | cons e es ih =>
      have hlength : n + (e :: es).length = n + 1 + es.length := by
        rw [List.length_cons]
        omega
      rw [List.cons_append, replayChain, replayChain, hlength]
      cases e.delta with
      | none => simp only [bind_assoc]; rfl
      | some d => simp only [ih, bind_assoc]

/-- Replaying a chain leads from the base to the state. -/
theorem replay_eq (h : Chain codec taken db hash ancestors e state) :
    ∃ full rest base, ancestors ++ [e] = full :: rest ∧ baseState codec full = .ok base ∧
      replayChain codec base 0 rest = .ok state ∧ rest.length = ancestors.length := by
  induction h with
  | @base hash e state _ _ henvelope _ =>
      refine ⟨e, [], state, rfl, ?_, rfl, rfl⟩
      subst henvelope
      refine bind_eq_ok.mpr ⟨(), ensure_eq_ok.mpr rfl, bind_eq_ok.mpr ⟨state, rfl, ?_⟩⟩
      exact bind_eq_ok.mpr ⟨(), ensure_eq_ok.mpr (beq_self_eq_true _), rfl⟩
  | @delta hash parent ancestors p e base state d hup _ _ _ hproject happly henvelope _ _ ih =>
      obtain ⟨full, rest, first, hlist, hbase, hreplay, hlength⟩ := ih
      refine ⟨full, rest ++ [e], first, by rw [hlist]; rfl, hbase, ?_, by simp [hlength]⟩
      rw [replayChain_append, hreplay, hlength]
      show replayChain codec base (0 + ancestors.length) [e] = .ok state
      have hdepth : p.depth = ancestors.length := hup.depth_eq.1
      subst henvelope
      rw [replayChain]
      refine bind_eq_ok.mpr ⟨(), ensure_eq_ok.mpr ?_, ?_⟩
      · simp [deltaEnvelope, hproject, hdepth, hup.stateHash_eq]
      · refine bind_eq_ok.mpr ⟨d, rfl, bind_eq_ok.mpr ⟨state, happly, ?_⟩⟩
        exact bind_eq_ok.mpr ⟨(), ensure_eq_ok.mpr (beq_self_eq_true _), rfl⟩

/-- A chain loads to the state at its end. -/
theorem load_eq (hcodec : ReadBack codec taken) (h : Chain codec taken db hash ancestors e state) :
    load codec db hash = .ok state := by
  obtain ⟨full, rest, base, hlist, hbase, hreplay, -⟩ := h.replay_eq
  have hlength := h.depth_eq.2
  refine bind_eq_ok.mpr ⟨_, h.loadChain_eq hcodec (by omega) fun s hs => absurd hs List.not_mem_nil, ?_⟩
  rw [hlist]
  exact bind_eq_ok.mpr ⟨base, hbase, bind_eq_ok.mpr ⟨state, hreplay,
    bind_eq_ok.mpr ⟨(), h.snapshotted.valid, rfl⟩⟩⟩

/-- A chain is there after a step that keeps, of the originals that `P` holds of, the bytes and
the dependency rows, if `P` goes from a child to its parent. -/
theorem transfer {P : String → Prop} (h : Chain codec taken db hash ancestors e state) (hP : P hash)
    (hloads : ∀ k bytes, P k → loadBlob codec db k = .ok bytes → loadBlob codec db' k = .ok bytes)
    (hdependencies : ∀ k parent, P k → (∃ bytes, loadBlob codec db k = .ok bytes) →
      (k, parent) ∈ db.checkpointDependencies → (k, parent) ∈ db'.checkpointDependencies ∧ P parent) :
    Chain codec taken db' hash ancestors e state := by
  induction h with
  | base htaken hstate henvelope hstored =>
      exact .base htaken hstate henvelope (hloads _ _ hP hstored)
  | delta _ htaken hstate hdepth hproject happly henvelope hdependency hstored ih =>
      obtain ⟨hdependency', hparent⟩ := hdependencies _ _ hP ⟨_, hstored⟩ hdependency
      exact .delta (ih hparent) htaken hstate hdepth hproject happly henvelope hdependency'
        (hloads _ _ hP hstored)

theorem mono (h : Chain codec taken db hash ancestors e state) (hloads : KeepsLoads codec db db')
    (hdependencies : ∀ entry ∈ db.checkpointDependencies, entry ∈ db'.checkpointDependencies) :
    Chain codec taken db' hash ancestors e state :=
  h.transfer (P := fun _ => True) trivial (fun k bytes _ => hloads k bytes)
    fun _ _ _ _ hmem => ⟨hdependencies _ hmem, trivial⟩

/-- Collection leaves a chain whose end is pinned: each dependency row pins the parent. -/
theorem gcBlobs (h : Chain codec taken db hash ancestors e state) (hpinned : db.pinned hash = true) :
    Chain codec taken (gcBlobs db).2 hash ancestors e state := by
  refine h.transfer (P := fun k => db.pinned k = true) hpinned
    (fun k bytes hk => loadBlob_gcBlobs_of_pinned hk) fun k parent hk hload hmem => ⟨?_, ?_⟩
  · obtain ⟨bytes, hload⟩ := hload
    obtain ⟨b, hb, -, -⟩ := loadBlob_eq_ok.mp (loadBlob_gcBlobs_of_pinned hk hload)
    refine List.mem_filter.mpr ⟨hmem, ?_⟩
    show (IronMem.gcBlobs db).2.blobs.contains k = true
    rw [Std.ExtTreeMap.contains_eq_isSome_getElem?, hb]
    rfl
  · rw [Database.pinned]
    simp only [Bool.or_eq_true, List.any_eq_true, beq_iff_eq]
    exact Or.inl (Or.inr ⟨(k, parent), hmem, rfl⟩)

end Chain

end IronMem
