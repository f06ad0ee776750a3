import IronMem.Json

/-!
# Deltas are exact

`apply_delta (difference base next)` gives `next` back. Per table this is the
multiset round trip of `RowDiff`, with the serialized row as the key; the two
loops over the table maps only have to be unrolled (`getElem?_foldl_insert_toList`). Sources
follow a different rule, keys removed and added, and meet in a case split on
which side has the key.

What a capture establishes is a hypothesis by name (`State.Captured`): the rows of
every table are in the order of their serialized forms, and `serde_json` reads each
of them back. Without the first the rows would come back in another order, without
the second not at all, so neither can go. The two states have the same tables and
columns (`State.SameShape`), and equal keys carry equal bytes
(`State.SourcesAgree`), since a key is the hash of its bytes.
-/

namespace IronMem

/-! ## Loops that fill a map

The source fills a map table by table. With distinct keys the map holds afterwards, under each
key, what its round has computed; the order of the rounds is of no account. -/

section Loops

variable {α β γ : Type}

/-- A key that no entry has keeps its value through a loop of inserts. -/
theorem getElem?_foldl_insert_of_notMem (f : String × α → β) (l : List (String × α))
    (m : BTreeMap β) {k : String} (hk : k ∉ l.map Prod.fst) :
    (l.foldl (fun m e => m.insert e.1 (f e)) m)[k]? = m[k]? := by
  induction l generalizing m with
  | nil => rfl
  | cons e es ih =>
      simp only [List.map_cons, List.mem_cons, not_or] at hk
      rw [List.foldl_cons, ih _ hk.2, Std.ExtTreeMap.getElem?_insert]
      simp [Ne.symm hk.1]

/-- With distinct keys, each entry's value is there after the loop. -/
theorem getElem?_foldl_insert_of_mem (f : String × α → β) {l : List (String × α)}
    (m : BTreeMap β) (hl : (l.map Prod.fst).Nodup) {e : String × α} (he : e ∈ l) :
    (l.foldl (fun m e => m.insert e.1 (f e)) m)[e.1]? = some (f e) := by
  induction l generalizing m with
  | nil => cases he
  | cons x xs ih =>
      obtain ⟨hx, hxs⟩ := List.nodup_cons.mp hl
      rw [List.foldl_cons]
      rcases List.mem_cons.mp he with rfl | he
      · rw [getElem?_foldl_insert_of_notMem f xs _ hx, Std.ExtTreeMap.getElem?_insert]
        simp
      · exact ih _ hxs he

theorem nodup_fst_toList (m : BTreeMap α) : (m.toList.map Prod.fst).Nodup := by
  rw [Std.ExtTreeMap.map_fst_toList_eq_keys]
  exact Std.ExtTreeMap.nodup_keys

/-- A fallible loop whose every iteration succeeds is the plain loop. -/
theorem foldlM_eq_ok {f : β → α → Except String β} {g : β → α → β} {l : List α}
    (h : ∀ acc, ∀ e ∈ l, f acc e = .ok (g acc e)) (acc : β) :
    l.foldlM f acc = .ok (l.foldl g acc) := by
  induction l generalizing acc with
  | nil => rfl
  | cons x xs ih =>
      rw [List.foldlM_cons, h acc x (List.mem_cons_self ..), List.foldl_cons]
      exact ih (fun acc e he => h acc e (List.mem_cons_of_mem _ he)) (g acc x)

theorem mapM_eq_ok {f : α → Except String β} {g : α → β} {l : List α}
    (h : ∀ a ∈ l, f a = .ok (g a)) : l.mapM f = .ok (l.map g) := by
  induction l with
  | nil => rfl
  | cons x xs ih =>
      rw [List.mapM_cons, h x (List.mem_cons_self ..),
        ih fun a ha => h a (List.mem_cons_of_mem _ ha)]
      rfl

end Loops

theorem sameKeys_iff {α β : Type} {m : BTreeMap α} {n : BTreeMap β} (h : sameKeys m n = true)
    (k : String) : k ∈ m ↔ k ∈ n := by
  rw [sameKeys, beq_iff_eq] at h
  rw [← Std.ExtTreeMap.mem_keys, h, Std.ExtTreeMap.mem_keys]

theorem sameKeys_of_mem {α β : Type} {m : BTreeMap α} {n : BTreeMap β}
    (h : ∀ k, k ∈ m ↔ k ∈ n) : sameKeys m n = true := by
  rw [sameKeys, beq_iff_eq]
  have hperm : m.keys.Perm n.keys :=
    (List.perm_ext_iff_of_nodup Std.ExtTreeMap.nodup_keys Std.ExtTreeMap.nodup_keys).mpr
      fun k => by rw [Std.ExtTreeMap.mem_keys, Std.ExtTreeMap.mem_keys, h k]
  refine hperm.eq_of_pairwise ?_ Std.ExtTreeMap.ordered_keys Std.ExtTreeMap.ordered_keys
  intro a b _ _ hab hba
  have hswap : compare a b = (compare b a).swap := Std.OrientedCmp.eq_swap
  rw [hswap, hba] at hab
  cases hab

/-! ## One table

The two surpluses of a table are computed from counts of serialized rows and read back as
records. Where rows survive serialization these are the multiset differences of the two lists,
and `RowDiff` does the rest. -/

section OneTable

variable (codec : Codec)

/-- The rows survive serialization. -/
def RoundTrips (rows : List Record) : Prop :=
  ∀ r ∈ rows, codec.recordFromStr (codec.recordToString r) = .ok r

variable {codec}

theorem RoundTrips.key_inj {rows rows' : List Record} (h : RoundTrips codec rows)
    (h' : RoundTrips codec rows') :
    ∀ a ∈ rows, ∀ b ∈ rows', codec.recordToString a = codec.recordToString b → a = b := by
  intro a ha b hb hab
  have hb' := h' b hb
  rw [← hab, h a ha] at hb'
  exact Except.ok.inj hb'

/-- The surplus of one row list over another, as records again. -/
theorem surplusRows_eq_ok {old new : List Record} (hold : RoundTrips codec old)
    (hnew : RoundTrips codec new) :
    ∃ rows, surplusRows codec old new = .ok rows
      ∧ (rows : Multiset Record) = (old : Multiset Record) - new := by
  -- a total reading of the parser, right on every serialized row of `old`
  let decode : String → Record := fun s => ((codec.recordFromStr s).toOption).getD ∅
  have hdecode : ∀ r ∈ old, decode (codec.recordToString r) = r := fun r hr => by
    simp [decode, hold r hr, Except.toOption]
  have hkeys : ((RowDiff.surplus (old.map codec.recordToString)
      (new.map codec.recordToString) : List String) : Multiset String)
        = ((old : Multiset Record) - new).map codec.recordToString := by
    rw [RowDiff.surplus_eq_sub, ← Multiset.map_coe, ← Multiset.map_coe]
    exact RowDiff.map_sub_of_injOn _ _ _ fun a ha b hb => hold.key_inj hnew a ha b hb
  have hmem : ∀ r ∈ (old : Multiset Record) - (new : Multiset Record), r ∈ old := fun r hr =>
    Multiset.mem_coe.mp (Multiset.mem_of_le (Multiset.sub_le_self _ _) hr)
  refine ⟨_, mapM_eq_ok (g := decode) fun s hs => ?_, ?_⟩
  · rw [← Multiset.mem_coe, hkeys] at hs
    obtain ⟨r, hr, rfl⟩ := Multiset.mem_map.mp hs
    rw [hold r (hmem r hr), hdecode r (hmem r hr)]
  · rw [← Multiset.map_coe, hkeys, Multiset.map_map]
    conv_rhs => rw [← Multiset.map_id ((old : Multiset Record) - (new : Multiset Record))]
    exact Multiset.map_congr rfl fun r hr => hdecode r (hmem r hr)

/-- Taking the surplus out, putting the missing rows in and sorting turns the
old rows into the new ones. -/
theorem sortRows_exchange {old new deletes inserts : List Record}
    (hnew : RoundTrips codec new) (hcanon : RowDiff.Canonical codec.recordToString new)
    (hdel : (deletes : Multiset Record) = (old : Multiset Record) - new)
    (hins : (inserts : Multiset Record) = (new : Multiset Record) - old) :
    ∃ rows, RowDiff.eraseEach old deletes = some rows
      ∧ codec.sortRows (rows ++ inserts) = new := by
  have hle : (deletes : Multiset Record) ≤ (old : List Record) := hdel ▸ Multiset.sub_le_self _ _
  obtain ⟨rows, hrows, hval⟩ := RowDiff.eraseEach_eq_some hle
  refine ⟨rows, hrows, RowDiff.sortBy_eq_of_perm _ ?_ hcanon (hnew.key_inj hnew)⟩
  rw [← Multiset.coe_eq_coe, ← Multiset.coe_add, hval, hdel, hins]
  exact RowDiff.sub_sub_add_sub _ _

end OneTable

/-! ## Whole states -/

/-- What capture establishes for every table: canonical row order, rows that
survive serialization. -/
structure State.Captured (codec : Codec) (s : State) : Prop where
  canonical : ∀ {name : String} {t : Table}, s.tables[name]? = some t →
    RowDiff.Canonical codec.recordToString t.rows
  roundTrips : ∀ {name : String} {t : Table}, s.tables[name]? = some t → RoundTrips codec t.rows

/-- Two states of one project with the same tables and columns. -/
structure State.SameShape (base next : State) : Prop where
  project : base.project = next.project
  tables : sameKeys base.tables next.tables = true
  fields : ∀ {name : String} {b n : Table}, base.tables[name]? = some b →
    next.tables[name]? = some n → b.fields = n.fields

/-- Equal source keys carry equal bytes (they are hashes of them). -/
def State.SourcesAgree (base next : State) : Prop :=
  ∀ {h b n : String}, base.sources[h]? = some b → next.sources[h]? = some n → b = n

section Delta

variable {codec : Codec} {base next : State}

/-- Every table of `next` has its counterpart in `base`. -/
theorem State.SameShape.base_table (hshape : base.SameShape next) {name : String} {n : Table}
    (hn : next.tables[name]? = some n) : ∃ b, base.tables[name]? = some b := by
  have hmem : name ∈ base.tables :=
    (sameKeys_iff hshape.tables name).mpr (Std.ExtTreeMap.mem_iff_isSome_getElem?.mpr (by simp [hn]))
  exact Option.isSome_iff_exists.mp (Std.ExtTreeMap.mem_iff_isSome_getElem?.mp hmem)

theorem State.SameShape.next_table (hshape : base.SameShape next) {name : String} {b : Table}
    (hb : base.tables[name]? = some b) : ∃ n, next.tables[name]? = some n := by
  have hmem : name ∈ next.tables :=
    (sameKeys_iff hshape.tables name).mp (Std.ExtTreeMap.mem_iff_isSome_getElem?.mpr (by simp [hb]))
  exact Option.isSome_iff_exists.mp (Std.ExtTreeMap.mem_iff_isSome_getElem?.mp hmem)

/-- One iteration of `difference` stores the two surpluses of its table. -/
theorem differenceTable_eq_ok (hshape : base.SameShape next) (hbase : base.Captured codec)
    (hnext : next.Captured codec) :
    ∃ del ins : String × Table → List Record,
      (∀ acc, ∀ e ∈ next.tables.toList, differenceTable codec base acc e
        = .ok (acc.1.insert e.1 (del e), acc.2.insert e.1 (ins e)))
      ∧ ∀ name b n, base.tables[name]? = some b → next.tables[name]? = some n →
        (del (name, n) : Multiset Record) = (b.rows : Multiset Record) - (n.rows : Multiset Record)
          ∧ (ins (name, n) : Multiset Record)
            = (n.rows : Multiset Record) - (b.rows : Multiset Record) := by
  have hstep : ∀ e : String × Table, ∃ d i : List Record, e ∈ next.tables.toList →
      ∃ b, base.tables[e.1]? = some b
        ∧ surplusRows codec b.rows e.2.rows = .ok d
        ∧ surplusRows codec e.2.rows b.rows = .ok i
        ∧ (d : Multiset Record) = (b.rows : Multiset Record) - (e.2.rows : Multiset Record)
        ∧ (i : Multiset Record) = (e.2.rows : Multiset Record) - (b.rows : Multiset Record) := by
    intro e
    by_cases he : e ∈ next.tables.toList
    · have hn := Std.ExtTreeMap.mem_toList_iff_getElem?_eq_some.mp he
      obtain ⟨b, hb⟩ := hshape.base_table hn
      obtain ⟨d, hd, hdm⟩ := surplusRows_eq_ok (hbase.roundTrips hb) (hnext.roundTrips hn)
      obtain ⟨i, hi, him⟩ := surplusRows_eq_ok (hnext.roundTrips hn) (hbase.roundTrips hb)
      exact ⟨d, i, fun _ => ⟨b, hb, hd, hi, hdm, him⟩⟩
    · exact ⟨[], [], fun h => absurd h he⟩
  choose del ins hdi using hstep
  refine ⟨del, ins, fun acc e he => ?_, fun name b n hb hn => ?_⟩
  · obtain ⟨b, hb, hd, hi, -, -⟩ := hdi e he
    have hn := Std.ExtTreeMap.mem_toList_iff_getElem?_eq_some.mp he
    have hfields := hshape.fields hb hn
    simp [differenceTable, hb, hd, hi, hfields, ensure]
    rfl
  · obtain ⟨b', hb', -, -, hdm, him⟩ :=
      hdi (name, n) (Std.ExtTreeMap.mem_toList_iff_getElem?_eq_some.mpr hn)
    obtain rfl := Option.some.inj (hb.symm.trans hb')
    exact ⟨hdm, him⟩

theorem getElem?_eq_none_of_keys {α β : Type} {m : BTreeMap α} {n : BTreeMap β}
    (h : sameKeys m n = true) {k : String} (hk : m[k]? = none) : n[k]? = none := by
  have hm : k ∉ m := fun hmem => by
    simpa [hk] using Std.ExtTreeMap.mem_iff_isSome_getElem?.mp hmem
  have hn : k ∉ n := fun hmem => hm ((sameKeys_iff h k).mpr hmem)
  exact Std.ExtTreeMap.getElem?_eq_none hn

/-- Looking up the map a loop over all entries of `m` fills from empty. -/
theorem getElem?_foldl_insert_toList {α β : Type} (f : String × α → β) (m : BTreeMap α)
    (init : BTreeMap β) {k : String} {a : α} (h : m[k]? = some a) :
    (m.toList.foldl (fun acc e => acc.insert e.1 (f e)) init)[k]? = some (f (k, a)) :=
  getElem?_foldl_insert_of_mem f init (nodup_fst_toList m) (e := (k, a))
    (Std.ExtTreeMap.mem_toList_iff_getElem?_eq_some.mpr h)

theorem getElem?_foldl_insert_toList_none {α β : Type} (f : String × α → β) (m : BTreeMap α)
    (init : BTreeMap β) {k : String} (h : m[k]? = none) :
    (m.toList.foldl (fun acc e => acc.insert e.1 (f e)) init)[k]? = init[k]? := by
  refine getElem?_foldl_insert_of_notMem f m.toList init fun hk => ?_
  obtain ⟨⟨k', a⟩, hmem, rfl⟩ := List.mem_map.mp hk
  rw [Std.ExtTreeMap.mem_toList_iff_getElem?_eq_some.mp hmem] at h
  cases h

theorem foldl_prod {α β γ : Type} (f : β → α → β) (g : γ → α → γ) (l : List α) (b : β) (c : γ) :
    l.foldl (fun acc e => (f acc.1 e, g acc.2 e)) (b, c) = (l.foldl f b, l.foldl g c) := by
  induction l generalizing b c with
  | nil => rfl
  | cons x xs ih => exact ih (f b x) (g c x)

/-- A loop over all entries of a map fills exactly its keys. -/
theorem sameKeys_foldl_insert {α β γ : Type} {m : BTreeMap α} {n : BTreeMap γ}
    (f : String × γ → β) (h : sameKeys m n = true) :
    sameKeys m (n.toList.foldl (fun (acc : BTreeMap β) e => acc.insert e.1 (f e)) ∅) = true := by
  refine sameKeys_of_mem fun k => ?_
  rw [sameKeys_iff h k, Std.ExtTreeMap.mem_iff_isSome_getElem?,
    Std.ExtTreeMap.mem_iff_isSome_getElem?]
  cases hk : n[k]? with
  | none => rw [getElem?_foldl_insert_toList_none f n ∅ hk]; simp
  | some a => rw [getElem?_foldl_insert_toList f n ∅ hk]; simp

/-! ## Sources

A source is removed when the next state lacks its key and added when the old one does. Keys that
both have are not compared, which is sound as long as equal keys have equal bytes. -/

/-- Dropping distinct present keys succeeds and drops exactly those. -/
theorem foldlM_removeSource {ks : List String} {m : BTreeMap String} (hks : ks.Nodup)
    (hm : ∀ k ∈ ks, k ∈ m) :
    ∃ kept, ks.foldlM removeSource m = .ok kept
      ∧ ∀ k, kept[k]? = if k ∈ ks then none else m[k]? := by
  induction ks generalizing m with
  | nil => exact ⟨m, rfl, by simp⟩
  | cons x xs ih =>
      obtain ⟨hx, hxs⟩ := List.nodup_cons.mp hks
      have hstep : removeSource m x = .ok (m.erase x) := by
        have : m.contains x = true :=
          Std.ExtTreeMap.contains_iff_mem.mpr (hm x (List.mem_cons_self ..))
        simp only [removeSource, ensure, this, if_true]
        rfl
      obtain ⟨kept, hkept, hget⟩ := ih (m := m.erase x) hxs fun k hk => by
        have hne : x ≠ k := fun h => hx (h ▸ hk)
        simpa [Std.ExtTreeMap.mem_erase, hne] using hm k (List.mem_cons_of_mem _ hk)
      refine ⟨kept, by rw [List.foldlM_cons, hstep]; exact hkept, fun k => ?_⟩
      rw [hget k, Std.ExtTreeMap.getElem?_erase]
      by_cases hk : k = x
      · subst hk; simp
      · simp [hk, Ne.symm hk]

/-- Taking the sources `next` lacks out of `base` and adding the missing ones
gives the sources of `next`. -/
theorem sources_exchange (hsrc : base.SourcesAgree next) :
    ∃ kept, (base.sources.keys.filter fun h => !next.sources.contains h).foldlM removeSource
        base.sources = .ok kept
      ∧ (next.sources.filter fun h _ => !base.sources.contains h).toList.foldl
        (fun m (h, b) => m.insert h b) kept = next.sources := by
  have hnodup : (base.sources.keys.filter fun h => !next.sources.contains h).Nodup :=
    Std.ExtTreeMap.nodup_keys.filter _
  obtain ⟨kept, hkept, hget⟩ := foldlM_removeSource (m := base.sources) hnodup
    fun k hk => Std.ExtTreeMap.mem_keys.mp (List.mem_filter.mp hk).1
  refine ⟨kept, hkept, Std.ExtTreeMap.ext_getElem? fun k => ?_⟩
  have hfilter := Std.ExtTreeMap.getElem?_filter' (t := next.sources)
    (f := fun h _ => !base.sources.contains h) (k := k)
  cases hadd : (next.sources.filter fun h _ => !base.sources.contains h)[k]? with
  | some b =>
      rw [getElem?_foldl_insert_toList (fun e => e.2) _ kept hadd]
      rw [hfilter, Option.filter_eq_some_iff] at hadd
      exact hadd.1.symm
  | none =>
      rw [getElem?_foldl_insert_toList_none (fun e => e.2) _ kept hadd, hget k]
      rw [hfilter] at hadd
      -- `k` is not added: it is in `base` or not in `next`
      cases hn : next.sources[k]? with
      | none =>
          cases hb : base.sources[k]? with
          | none => simp
          | some b =>
              have hkb : k ∈ base.sources := Std.ExtTreeMap.mem_iff_isSome_getElem?.mpr (by simp [hb])
              have hkn : k ∉ next.sources := fun h => by
                simpa [hn] using Std.ExtTreeMap.mem_iff_isSome_getElem?.mp h
              rw [if_pos (List.mem_filter.mpr ⟨Std.ExtTreeMap.mem_keys.mpr hkb, by
                rw [Bool.not_eq_true', ← Bool.not_eq_true, Std.ExtTreeMap.contains_iff_mem]
                exact hkn⟩)]
      | some n =>
          have hkn : k ∈ next.sources := Std.ExtTreeMap.mem_iff_isSome_getElem?.mpr (by simp [hn])
          have hkb : k ∈ base.sources := by simpa [hn] using hadd
          obtain ⟨b, hb⟩ := Option.isSome_iff_exists.mp
            (Std.ExtTreeMap.mem_iff_isSome_getElem?.mp hkb)
          rw [if_neg (by simp [Std.ExtTreeMap.contains_iff_mem.mpr hkn]), hb, hsrc hb hn]

/-! ## The round trip -/

/-- `difference` succeeds and `apply_delta` undoes it. -/
theorem applyDelta_difference (hshape : base.SameShape next) (hbase : base.Captured codec)
    (hnext : next.Captured codec) (hsrc : base.SourcesAgree next) :
    ∃ delta, difference codec base next = .ok delta ∧ applyDelta codec base delta = .ok next := by
  obtain ⟨del, ins, hstep, hval⟩ := differenceTable_eq_ok hshape hbase hnext
  have hloop : next.tables.toList.foldlM (differenceTable codec base) (∅, ∅)
      = .ok (next.tables.toList.foldl (fun (m : BTreeMap (List Record)) e => m.insert e.1 (del e)) ∅,
          next.tables.toList.foldl (fun (m : BTreeMap (List Record)) e => m.insert e.1 (ins e)) ∅) := by
    rw [foldlM_eq_ok hstep, ← foldl_prod]
  let removed := next.tables.toList.foldl
    (fun (m : BTreeMap (List Record)) e => m.insert e.1 (del e)) ∅
  let added := next.tables.toList.foldl
    (fun (m : BTreeMap (List Record)) e => m.insert e.1 (ins e)) ∅
  let delta : Delta := {
    removed, added
    sources := next.sources.filter fun h _ => !base.sources.contains h
    removedSources := base.sources.keys.filter fun h => !next.sources.contains h
    auditEvidence := next.auditEvidence }
  refine ⟨delta, ?_, ?_⟩
  · simp only [difference, hshape.project, hshape.tables, beq_self_eq_true, Bool.and_self, ensure,
      if_true, hloop]
    rfl
  -- the loop of `apply_delta`: every table comes out as in `next`
  have htable : ∀ acc, ∀ e ∈ base.tables.toList, applyDeltaTable codec delta acc e
      = .ok (acc.insert e.1 ((next.tables[e.1]?).getD ⟨[], []⟩)) := by
    rintro acc ⟨name, b⟩ he
    have hb := Std.ExtTreeMap.mem_toList_iff_getElem?_eq_some.mp he
    obtain ⟨n, hn⟩ := hshape.next_table hb
    obtain ⟨hdel, hins⟩ := hval name b n hb hn
    have hremoved : (delta.removed[name]?).getD [] = del (name, n) := by
      rw [getElem?_foldl_insert_toList del next.tables ∅ hn]; rfl
    have hadded : (delta.added[name]?).getD [] = ins (name, n) := by
      rw [getElem?_foldl_insert_toList ins next.tables ∅ hn]; rfl
    obtain ⟨rows, hrows, hsort⟩ :=
      sortRows_exchange (hnext.roundTrips hn) (hnext.canonical hn) hdel hins
    simp only [applyDeltaTable, hremoved, hadded, hrows, hsort, hn, Option.getD_some,
      hshape.fields hb hn]
    rfl
  have htables : base.tables.toList.foldl
      (fun (m : BTreeMap Table) e => m.insert e.1 ((next.tables[e.1]?).getD ⟨[], []⟩)) base.tables
        = next.tables := by
    refine Std.ExtTreeMap.ext_getElem? fun k => ?_
    cases hb : base.tables[k]? with
    | some b =>
        obtain ⟨n, hn⟩ := hshape.next_table hb
        rw [getElem?_foldl_insert_toList
          (fun e => (next.tables[e.1]?).getD ⟨[], []⟩) base.tables base.tables hb, hn]
        rfl
    | none =>
        rw [getElem?_foldl_insert_toList_none
          (fun e => (next.tables[e.1]?).getD ⟨[], []⟩) base.tables base.tables hb, hb,
          getElem?_eq_none_of_keys hshape.tables hb]
  obtain ⟨kept, hkept, hsources⟩ := sources_exchange hsrc
  have hkeys : sameKeys base.tables delta.added = true ∧ sameKeys base.tables delta.removed = true :=
    ⟨sameKeys_foldl_insert ins hshape.tables, sameKeys_foldl_insert del hshape.tables⟩
  simp only [applyDelta, hkeys, Bool.and_self, ensure, if_true, foldlM_eq_ok htable, htables]
  change (do
    let sources ← delta.removedSources.foldlM removeSource base.sources
    pure { base with
      tables := next.tables
      sources := delta.sources.toList.foldl (fun m (h, b) => m.insert h b) sources
      auditEvidence := delta.auditEvidence } : Except String State) = .ok next
  rw [show delta.removedSources.foldlM removeSource base.sources = .ok kept from hkept]
  change Except.ok { base with
      tables := next.tables
      sources := delta.sources.toList.foldl (fun m (h, b) => m.insert h b) kept
      auditEvidence := delta.auditEvidence } = Except.ok next
  rw [show delta.sources.toList.foldl (fun m (h, b) => m.insert h b) kept = next.sources
    from hsources, hshape.project]

end Delta

/-! ## Captured states

 -/

/-- Deltas are exact: `difference` succeeds, `apply_delta` gives the next state
back, and the hash recomputed over the result is the hash of the next state. -/
theorem delta_reproduces_next {codec : Codec} {base next : State}
    (hshape : base.SameShape next) (hbase : base.Captured codec) (hnext : next.Captured codec)
    (hsrc : base.SourcesAgree next) :
    ∃ delta, difference codec base next = .ok delta
      ∧ applyDelta codec base delta = .ok next
      ∧ (applyDelta codec base delta).map codec.stateHash = .ok (codec.stateHash next) := by
  obtain ⟨delta, hdelta, happly⟩ := applyDelta_difference hshape hbase hnext hsrc
  exact ⟨delta, hdelta, happly, by rw [happly]; rfl⟩

/-- A state of one table, two columns and one source. -/
def notesState (rows : List Record) (source : String × String) (audit : List Record) : State where
  project := "p"
  tables := (∅ : BTreeMap Table).insert "memories"
    ⟨[("id", "BIGINT"), ("summary", "TEXT")], rows⟩
  sources := (∅ : BTreeMap String).insert source.1 source.2
  auditEvidence := audit

def note (id : Int) (summary : String) : Record :=
  ((∅ : Record).set "id" (.int id)).set "summary" (.str summary)

instance {codec : Codec} {rows : List Record} : Decidable (RoundTrips codec rows) :=
  inferInstanceAs (Decidable (∀ r ∈ rows, _))

instance {codec : Codec} {rows : List Record} :
    Decidable (RowDiff.Canonical codec.recordToString rows) :=
  inferInstanceAs (Decidable (List.Pairwise _ _))

/-- What has to be checked of a concrete state. -/
theorem State.captured_of_toList {codec : Codec} {s : State}
    (h : ∀ e ∈ s.tables.toList, RowDiff.Canonical codec.recordToString e.2.rows
      ∧ RoundTrips codec e.2.rows) : s.Captured codec where
  canonical := fun ht => (h _ (Std.ExtTreeMap.mem_toList_iff_getElem?_eq_some.mpr ht)).1
  roundTrips := fun ht => (h _ (Std.ExtTreeMap.mem_toList_iff_getElem?_eq_some.mpr ht)).2

theorem notesState_sameShape (rows rows' : List Record) (src src' : String × String)
    (audit audit' : List Record) :
    (notesState rows src audit).SameShape (notesState rows' src' audit') where
  project := rfl
  tables := by
    refine sameKeys_of_mem fun k => ?_
    simp [notesState, Std.ExtTreeMap.mem_insert]
  fields := by
    intro name b n hb hn
    simp only [notesState, Std.ExtTreeMap.getElem?_insert, Std.ExtTreeMap.getElem?_empty] at hb hn
    split at hb
    · next h =>
        rw [if_pos h] at hn
        rw [← Option.some.inj hb, ← Option.some.inj hn]
    · cases hb

/-- One copy of a doubled row goes, another row comes in twice, the source is
exchanged and the audit evidence replaced. -/
theorem delta_reproduces_next_notes :
    ∃ delta,
      difference (jsonCodec [note 1 "a", note 2 "b", note 3 "c"])
          (notesState [note 1 "a", note 1 "a", note 2 "b"] ("h1", "AA==") [])
          (notesState [note 1 "a", note 3 "c", note 3 "c"] ("h2", "AQ==") [note 9 "e"])
        = .ok delta
      ∧ applyDelta (jsonCodec [note 1 "a", note 2 "b", note 3 "c"])
          (notesState [note 1 "a", note 1 "a", note 2 "b"] ("h1", "AA==") []) delta
        = .ok (notesState [note 1 "a", note 3 "c", note 3 "c"] ("h2", "AQ==") [note 9 "e"]) := by
  obtain ⟨delta, hdelta, happly, -⟩ := @delta_reproduces_next
    (jsonCodec [note 1 "a", note 2 "b", note 3 "c"]) _ _
    (notesState_sameShape [note 1 "a", note 1 "a", note 2 "b"] [note 1 "a", note 3 "c", note 3 "c"]
      ("h1", "AA==") ("h2", "AQ==") [] [note 9 "e"])
    (State.captured_of_toList (by decide +kernel)) (State.captured_of_toList (by decide +kernel))
    (by
      intro h b n hb hn
      simp only [notesState, Std.ExtTreeMap.getElem?_insert, Std.ExtTreeMap.getElem?_empty]
        at hb hn
      split at hb
      · next hh =>
          obtain rfl := compare_eq_iff_eq.mp hh
          simp at hn
      · cases hb)
  exact ⟨delta, hdelta, happly⟩

end IronMem
