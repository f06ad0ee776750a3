import Mathlib.Data.List.Sort
import Mathlib.Data.List.Perm.Basic

/-!
# Code anchors

A memory is anchored to a symbol of the code by the symbol's name and the hash of its
text. `relink_project` looks every anchor up among the scanned symbols, takes the first
that has its name, kind and hash, and moves the anchor there.

The kind is only a preference: where no symbol of the kind is left, any with the name and
the hash will do (`anchorCandidates`). A run is a loop over the anchors with an update each;
what it makes of one anchor does not depend on the others (`relocated`), so the run as a
whole is a map over the rows of the project with a count beside it (`relinkProject_spec`).

Nothing in the lookup prefers the place where the anchor is. An anchor whose code has not
moved stays exactly when the first candidate is there, and as any candidate can come first
(`exists_perm_head`), the order of the scan decides as soon as there is a look-alike
(`NoLookAlikes`).
-/

namespace IronMem

structure RustSymbol where
  path : String
  kind : String
  name : String
  astHash : String
  contextHash : String
  startByte : UInt64
  endByte : UInt64
deriving DecidableEq, Repr

structure CodeAnchor where
  id : Int64
  project : String
  memoryId : Int64
  path : String
  language : String
  symbolKind : String
  symbolName : String
  astHash : String
  contextHash : String
  startByte : Int64
  endByte : Int64
  createdAt : Int64
  updatedAt : Int64
deriving DecidableEq, Repr

structure CodeRelinkReport where
  scannedSymbols : Nat := 0
  anchorsCreated : Nat := 0
  anchorsRelinked : Nat := 0
  dryRun : Bool := false
deriving DecidableEq, Repr

/-! ## The table -/

/-- The rows of `code_anchors`, whose ids are its primary key. -/
structure AnchorTable where
  rows : List CodeAnchor
  distinct : (rows.map (·.id)).Nodup

/-- What an update writes into a row. -/
def CodeAnchor.moveTo (a : CodeAnchor) (s : RustSymbol) (now : Int64) : CodeAnchor :=
  { a with
    path := s.path
    startByte := s.startByte.toInt64
    endByte := s.endByte.toInt64
    contextHash := s.contextHash
    updatedAt := now }

theorem map_id_of_keeps {f : CodeAnchor → CodeAnchor} (hf : ∀ a, (f a).id = a.id) (rows : List CodeAnchor) :
    (rows.map f).map (·.id) = rows.map (·.id) := by
  rw [List.map_map]
  exact List.map_congr_left fun a _ => hf a

/-- `update_code_anchor_location`. -/
def AnchorTable.updateLocation (t : AnchorTable) (id : Int64) (s : RustSymbol) (now : Int64) :
    AnchorTable where
  rows := t.rows.map fun a => if a.id = id then a.moveTo s now else a
  distinct := by
    rw [map_id_of_keeps]
    · exact t.distinct
    · intro a
      split <;> rfl

/-- `code_anchors_for_project`: the newest first. -/
def AnchorTable.forProject (t : AnchorTable) (project : String) : List CodeAnchor :=
  (t.rows.filter fun a => a.project == project).insertionSort fun a b =>
    b.updatedAt < a.updatedAt ∨ a.updatedAt = b.updatedAt ∧ b.id ≤ a.id

/-! ## Relinking -/

/-- `matching_symbol`. -/
def matchingSymbol (anchor : CodeAnchor) (symbols : List RustSymbol) : Option RustSymbol :=
  (symbols.find? fun s => s.name == anchor.symbolName && s.astHash == anchor.astHash &&
    s.kind == anchor.symbolKind).or
  (symbols.find? fun s => s.name == anchor.symbolName && s.astHash == anchor.astHash)

/-- The symbol is where the anchor is. -/
def RustSymbol.IsAt (s : RustSymbol) (a : CodeAnchor) : Prop :=
  s.path = a.path ∧ s.startByte.toInt64 = a.startByte ∧ s.endByte.toInt64 = a.endByte

instance (s : RustSymbol) (a : CodeAnchor) : Decidable (s.IsAt a) :=
  inferInstanceAs (Decidable (_ ∧ _ ∧ _))

/-- One round of the loop. `clock` is the time at which the row of an anchor is written. -/
def relinkAnchor (symbols : List RustSymbol) (dryRun : Bool) (clock : Int64 → Int64)
    (state : AnchorTable × Nat) (anchor : CodeAnchor) : AnchorTable × Nat :=
  match matchingSymbol anchor symbols with
  | none => state
  | some s =>
      if s.IsAt anchor then state
      else
        (if dryRun then state.1 else state.1.updateLocation anchor.id s (clock anchor.id), state.2 + 1)

/-- `relink_project`, on the symbols of the scan. -/
def relinkProject (symbols : List RustSymbol) (project : String) (dryRun : Bool)
    (clock : Int64 → Int64) (t : AnchorTable) : AnchorTable × CodeRelinkReport :=
  let (t', relinked) := (t.forProject project).foldl (relinkAnchor symbols dryRun clock) (t, 0)
  (t', { scannedSymbols := symbols.length, anchorsRelinked := relinked, dryRun })

/-! ## Candidates

The lookup filters the symbols by kind, name and hash, and if nothing is left by name and hash.
It takes the first of what it finds, so that everything depends on the order of the scan. -/

/-- The symbols an anchor could be moved to: those of its kind, when there are any. -/
def anchorCandidates (a : CodeAnchor) (symbols : List RustSymbol) : List RustSymbol :=
  let named := symbols.filter fun s => s.name == a.symbolName && s.astHash == a.astHash
  if named.any fun s => s.kind == a.symbolKind then named.filter fun s => s.kind == a.symbolKind
  else named

variable {symbols symbols' : List RustSymbol} {a : CodeAnchor} {clock : Int64 → Int64}

/-- The lookup takes the first candidate. -/
theorem matchingSymbol_eq_head (a : CodeAnchor) (symbols : List RustSymbol) :
    matchingSymbol a symbols = (anchorCandidates a symbols).head? := by
  have hkind : symbols.find? (fun s => s.name == a.symbolName && s.astHash == a.astHash &&
      s.kind == a.symbolKind) = ((symbols.filter fun s => s.name == a.symbolName &&
        s.astHash == a.astHash).filter fun s => s.kind == a.symbolKind).head? := by
    rw [List.filter_filter, List.head?_filter]
    congr 1
    funext s
    rw [Bool.and_comm]
  rw [matchingSymbol, hkind, anchorCandidates]
  generalize hnamed : (symbols.filter fun s => s.name == a.symbolName && s.astHash == a.astHash) = named
  split
  · next hany =>
      obtain ⟨s, hs, hskind⟩ := List.any_eq_true.mp hany
      have hmem : s ∈ named.filter fun s => s.kind == a.symbolKind := List.mem_filter.mpr ⟨hs, hskind⟩
      cases hfilter : named.filter fun s => s.kind == a.symbolKind with
      | nil =>
          rw [hfilter] at hmem
          exact absurd hmem List.not_mem_nil
      | cons s' rest => rfl
  · next hnone =>
      have hempty : (named.filter fun s => s.kind == a.symbolKind) = [] := by
        rw [List.filter_eq_nil_iff]
        exact fun s hs hskind => hnone (List.any_eq_true.mpr ⟨s, hs, hskind⟩)
      rw [hempty, List.head?_nil, Option.none_or, ← hnamed, List.head?_filter]

theorem mem_anchorCandidates {s : RustSymbol} : s ∈ anchorCandidates a symbols ↔ s ∈ symbols ∧
    s.name = a.symbolName ∧ s.astHash = a.astHash ∧
      ((∃ s' ∈ symbols, s'.name = a.symbolName ∧ s'.astHash = a.astHash ∧ s'.kind = a.symbolKind) →
        s.kind = a.symbolKind) := by
  unfold anchorCandidates
  dsimp only
  split
  · next hany =>
      have hsome : ∃ s' ∈ symbols, s'.name = a.symbolName ∧ s'.astHash = a.astHash ∧
          s'.kind = a.symbolKind := by
        simpa [and_assoc] using hany
      simp only [List.mem_filter, Bool.and_eq_true, beq_iff_eq, hsome, forall_const]
      tauto
  · next hnone =>
      have hno : ¬ ∃ s' ∈ symbols, s'.name = a.symbolName ∧ s'.astHash = a.astHash ∧
          s'.kind = a.symbolKind := by
        simpa [and_assoc] using hnone
      simp only [List.mem_filter, Bool.and_eq_true, beq_iff_eq, hno, false_implies, and_true]

theorem anchorCandidates_perm (h : symbols.Perm symbols') : (anchorCandidates a symbols).Perm (anchorCandidates a symbols') := by
  have hnamed := h.filter fun s => s.name == a.symbolName && s.astHash == a.astHash
  have hany : ((symbols.filter fun s => s.name == a.symbolName && s.astHash == a.astHash).any
      fun s => s.kind == a.symbolKind) = ((symbols'.filter fun s => s.name == a.symbolName &&
        s.astHash == a.astHash).any fun s => s.kind == a.symbolKind) := hnamed.any_eq
  unfold anchorCandidates
  dsimp only
  rw [hany]
  split
  · exact hnamed.filter _
  · exact hnamed

/-! ## One anchor -/

/-- What a run makes of an anchor. -/
def relocated (symbols : List RustSymbol) (clock : Int64 → Int64) (a : CodeAnchor) : CodeAnchor :=
  match matchingSymbol a symbols with
  | none => a
  | some s => if s.IsAt a then a else a.moveTo s (clock a.id)

theorem relocated_cases (symbols : List RustSymbol) (clock : Int64 → Int64) (a : CodeAnchor) :
    ((∀ s, (anchorCandidates a symbols).head? = some s → s.IsAt a) ∧ relocated symbols clock a = a) ∨
      ∃ s, (anchorCandidates a symbols).head? = some s ∧ ¬ s.IsAt a ∧
        relocated symbols clock a = a.moveTo s (clock a.id) := by
  unfold relocated
  rw [matchingSymbol_eq_head]
  cases hhead : (anchorCandidates a symbols).head? with
  | none => exact .inl ⟨fun s hs => absurd hs (Option.some_ne_none s).symm, rfl⟩
  | some s =>
      by_cases hat : s.IsAt a
      · exact .inl ⟨fun s' hs' => Option.some.inj hs' ▸ hat, if_pos hat⟩
      · exact .inr ⟨s, rfl, hat, if_neg hat⟩

theorem moveTo_ne {s : RustSymbol} (h : ¬ s.IsAt a) (now : Int64) : a.moveTo s now ≠ a := by
  intro heq
  refine h ⟨?_, ?_, ?_⟩
  · exact congrArg CodeAnchor.path heq
  · exact congrArg CodeAnchor.startByte heq
  · exact congrArg CodeAnchor.endByte heq

/-- An anchor is left alone if the first candidate is where it is. -/
theorem relocated_eq_self_iff (symbols : List RustSymbol) (clock : Int64 → Int64) (a : CodeAnchor) :
    relocated symbols clock a = a ↔
    ∀ s, (anchorCandidates a symbols).head? = some s → s.IsAt a := by
  rcases relocated_cases symbols clock a with ⟨hat, heq⟩ | ⟨s, hhead, hat, heq⟩
  · exact iff_of_true heq hat
  · refine iff_of_false (heq ▸ moveTo_ne hat _) fun hall => hat (hall s hhead)

theorem relocated_id (symbols : List RustSymbol) (clock : Int64 → Int64) (a : CodeAnchor) :
    (relocated symbols clock a).id = a.id := by
  rcases relocated_cases symbols clock a with ⟨-, heq⟩ | ⟨s, -, -, heq⟩ <;> rw [heq]
  rfl

/-- A relocated anchor is where its symbol is. -/
theorem relocated_again (symbols : List RustSymbol) (clock clock' : Int64 → Int64) (a : CodeAnchor) :
    relocated symbols clock' (relocated symbols clock a) = relocated symbols clock a := by
  rw [relocated_eq_self_iff]
  rcases relocated_cases symbols clock a with ⟨hat, heq⟩ | ⟨s, hhead, -, heq⟩
  · rwa [heq]
  · rw [heq]
    intro s' hs'
    have hsame : (anchorCandidates (a.moveTo s (clock a.id)) symbols).head? = (anchorCandidates a symbols).head? :=
      rfl
    rw [hsame, hhead] at hs'
    obtain rfl := Option.some.inj hs'
    exact ⟨rfl, rfl, rfl⟩

/-! ## A run

The loop writes the rows of the table it reads from, though it has fetched the anchors before.
Each id is written at most once, so the rows it has yet to write are as they were fetched. -/

theorem AnchorTable.row_ext {t : AnchorTable} {x y : CodeAnchor} (hx : x ∈ t.rows) (hy : y ∈ t.rows)
    (h : x.id = y.id) : x = y :=
  List.inj_on_of_nodup_map t.distinct hx hy h

/-- What one round does. -/
theorem relinkAnchor_spec (symbols : List RustSymbol) (clock : Int64 → Int64) {t : AnchorTable}
    (ha : a ∈ t.rows) (n : Nat) :
    (relinkAnchor symbols false clock (t, n) a).1.rows
        = t.rows.map (fun row => if row.id = a.id then relocated symbols clock row else row) ∧
      (relinkAnchor symbols false clock (t, n) a).2
        = n + if relocated symbols clock a = a then 0 else 1 := by
  have hrows : ∀ a' : CodeAnchor, relocated symbols clock a = a' →
      t.rows.map (fun row => if row.id = a.id then relocated symbols clock row else row)
        = t.rows.map fun row => if row.id = a.id then a' else row := by
    rintro _ rfl
    refine List.map_congr_left fun row hrow => ?_
    split
    · next hid => rw [t.row_ext hrow ha hid]
    · rfl
  rw [relinkAnchor, matchingSymbol_eq_head]
  rcases relocated_cases symbols clock a with ⟨hat, heq⟩ | ⟨s, hhead, hat, heq⟩
  · have hsame : t.rows.map (fun row => if row.id = a.id then a else row) = t.rows := by
      refine (List.map_congr_left fun row hrow => ?_).trans (List.map_id _)
      split
      · next hid => exact (t.row_ext hrow ha hid).symm
      · rfl
    rw [hrows a heq, hsame, if_pos heq]
    cases hhead : (anchorCandidates a symbols).head? with
    | none => exact ⟨rfl, rfl⟩
    | some s =>
        dsimp only
        rw [if_pos (hat s hhead)]
        exact ⟨rfl, rfl⟩
  · rw [hrows _ heq, hhead]
    dsimp only
    have hmoved : relocated symbols clock a ≠ a := heq ▸ moveTo_ne hat _
    rw [if_neg hat, if_neg hmoved, if_neg (by decide)]
    refine ⟨List.map_congr_left fun row hrow => ?_, rfl⟩
    split
    · next hid => rw [t.row_ext hrow ha hid]
    · rfl

/-- What the loop does: the rows it went through are relocated, the others stay. -/
theorem relinkRun_spec (symbols : List RustSymbol) (clock : Int64 → Int64) {l : List CodeAnchor}
    {t : AnchorTable} (hl : ∀ a ∈ l, a ∈ t.rows) (hdistinct : (l.map (·.id)).Nodup) (n : Nat) :
    (l.foldl (relinkAnchor symbols false clock) (t, n)).1.rows
        = t.rows.map (fun row => if row.id ∈ l.map (·.id) then relocated symbols clock row else row) ∧
      (l.foldl (relinkAnchor symbols false clock) (t, n)).2
        = n + l.countP fun a => decide (relocated symbols clock a ≠ a) := by
  induction l generalizing t n with
  | nil => exact ⟨(List.map_id _).symm, rfl⟩
  | cons a l ih =>
      obtain ⟨ha, hrest⟩ := List.forall_mem_cons.mp hl
      rw [List.map_cons, List.nodup_cons] at hdistinct
      obtain ⟨hrows, hcount⟩ := relinkAnchor_spec symbols clock ha n
      rw [List.foldl_cons]
      generalize relinkAnchor symbols false clock (t, n) a = next at hrows hcount
      obtain ⟨t', n'⟩ := next
      have hnext : ∀ x ∈ l, x ∈ t'.rows := by
        intro x hx
        have hne : x.id ≠ a.id := fun heq => hdistinct.1 (heq ▸ List.mem_map_of_mem hx)
        have hmem : x ∈ t.rows.map fun row => if row.id = a.id then relocated symbols clock row else row :=
          List.mem_map.mpr ⟨x, hrest x hx, if_neg hne⟩
        rwa [← hrows] at hmem
      obtain ⟨hrows', hcount'⟩ := ih hnext hdistinct.2 n'
      refine ⟨?_, ?_⟩
      · rw [hrows']
        have hfirst : t'.rows = _ := hrows
        rw [hfirst, List.map_map]
        refine List.map_congr_left fun row hrow => ?_
        simp only [Function.comp_apply, List.map_cons, List.mem_cons]
        by_cases hid : row.id = a.id
        · have hlast : (relocated symbols clock row).id ∉ l.map (·.id) := by
            rw [relocated_id, hid]
            exact hdistinct.1
          rw [if_pos hid, if_neg hlast, if_pos (Or.inl hid)]
        · simp only [hid, false_or, if_false]
      · have hsecond : n' = _ := hcount
        rw [hcount', hsecond, List.countP_cons]
        by_cases hstay : relocated symbols clock a = a
        · simp [hstay]
        · simp [hstay]
          omega

theorem mem_forProject {t : AnchorTable} {project : String} :
    a ∈ t.forProject project ↔ a ∈ t.rows ∧ a.project = project := by
  rw [AnchorTable.forProject, List.mem_insertionSort, List.mem_filter, beq_iff_eq]

theorem forProject_distinct (t : AnchorTable) (project : String) :
    ((t.forProject project).map (·.id)).Nodup := by
  have hperm := ((t.rows.filter fun a => a.project == project).perm_insertionSort fun a b =>
    b.updatedAt < a.updatedAt ∨ a.updatedAt = b.updatedAt ∧ b.id ≤ a.id).map (·.id)
  exact hperm.nodup_iff.mpr (t.distinct.sublist (List.filter_sublist.map _))

/-- A run relocates the anchors of the project and counts those it moved. -/
theorem relinkProject_spec (symbols : List RustSymbol) (project : String) (clock : Int64 → Int64)
    (t : AnchorTable) :
    (relinkProject symbols project false clock t).1.rows = t.rows.map (fun row =>
        if row.project = project then relocated symbols clock row else row) ∧
      (relinkProject symbols project false clock t).2.anchorsRelinked
        = (t.forProject project).countP fun a => decide (relocated symbols clock a ≠ a) := by
  obtain ⟨hrows, hcount⟩ := relinkRun_spec symbols clock (fun a ha => (mem_forProject.mp ha).1)
    (forProject_distinct t project) 0
  refine ⟨?_, ?_⟩
  · rw [relinkProject]
    refine hrows.trans (List.map_congr_left fun row hrow => ?_)
    by_cases hproject : row.project = project
    · rw [if_pos hproject, if_pos (List.mem_map_of_mem (mem_forProject.mpr ⟨hrow, hproject⟩))]
    · rw [if_neg hproject, if_neg]
      intro hmem
      obtain ⟨a, ha, hid⟩ := List.mem_map.mp hmem
      obtain ⟨harow, haproject⟩ := mem_forProject.mp ha
      exact hproject (t.row_ext harow hrow hid ▸ haproject)
  · rw [relinkProject]
    exact hcount.trans (Nat.zero_add _)

/-! ## Look-alikes

A symbol resembles an anchor when it has its name and hash; the kind only decides which of these
are looked at. An anchor can go wrong where a look-alike is elsewhere and a symbol stands in its
own place, and only there. -/

/-- The symbol has the name and the hash of the anchor. -/
def RustSymbol.Resembles (s : RustSymbol) (a : CodeAnchor) : Prop :=
  s.name = a.symbolName ∧ s.astHash = a.astHash

/-- Anchors whose code did not move stay, the others follow a symbol of theirs, a second run
has nothing to do, and the order of the symbols decides nothing about who stays. -/
structure FollowsCode (symbols : List RustSymbol) (project : String) (clock : Int64 → Int64)
    (t : AnchorTable) : Prop where
  unmoved : ∀ a ∈ t.rows, a.project = project →
    (∃ s ∈ symbols, s.Resembles a ∧ s.kind = a.symbolKind ∧ s.IsAt a) →
      a ∈ (relinkProject symbols project false clock t).1.rows
  moved : ∀ a ∈ t.rows, a.project = project →
    a ∈ (relinkProject symbols project false clock t).1.rows ∨
      ∃ a' ∈ (relinkProject symbols project false clock t).1.rows, a'.id = a.id ∧
        ∃ s ∈ symbols, s.Resembles a ∧ s.IsAt a' ∧
          ((∃ s' ∈ symbols, s'.Resembles a ∧ s'.kind = a.symbolKind) → s.kind = a.symbolKind)
  settled : ∀ clock',
    (relinkProject symbols project false clock' (relinkProject symbols project false clock t).1).2.anchorsRelinked
      = 0
  orderless : ∀ symbols', symbols'.Perm symbols → ∀ a ∈ t.rows, a.project = project →
    (a ∈ (relinkProject symbols' project false clock t).1.rows ↔
      a ∈ (relinkProject symbols project false clock t).1.rows)

/-- The candidates of an anchor are all where it is, or none is. -/
def NoLookAlikes (symbols : List RustSymbol) (a : CodeAnchor) : Prop :=
  (∀ s ∈ anchorCandidates a symbols, s.IsAt a) ∨ ∀ s ∈ anchorCandidates a symbols, ¬ s.IsAt a

/-- An anchor of the project is unchanged if the first candidate is where it is. -/
theorem mem_relinked_iff {project : String} {t : AnchorTable} (ha : a ∈ t.rows)
    (hproject : a.project = project) :
    a ∈ (relinkProject symbols project false clock t).1.rows ↔
      ∀ s, (anchorCandidates a symbols).head? = some s → s.IsAt a := by
  rw [(relinkProject_spec symbols project clock t).1, ← relocated_eq_self_iff symbols clock a,
    List.mem_map]
  constructor
  · rintro ⟨row, hrow, heq⟩
    have hid : row.id = a.id := by
      rw [← heq]
      split
      · exact (relocated_id symbols clock row).symm
      · rfl
    obtain rfl := t.row_ext hrow ha hid
    rwa [if_pos hproject] at heq
  · exact fun heq => ⟨a, ha, by rw [if_pos hproject, heq]⟩

theorem relinkProject_moved {project : String} {t : AnchorTable} (ha : a ∈ t.rows)
    (hproject : a.project = project) :
    a ∈ (relinkProject symbols project false clock t).1.rows ∨
      ∃ a' ∈ (relinkProject symbols project false clock t).1.rows, a'.id = a.id ∧
        ∃ s ∈ symbols, s.Resembles a ∧ s.IsAt a' ∧
          ((∃ s' ∈ symbols, s'.Resembles a ∧ s'.kind = a.symbolKind) → s.kind = a.symbolKind) := by
  have hmem : relocated symbols clock a ∈ (relinkProject symbols project false clock t).1.rows := by
    rw [(relinkProject_spec symbols project clock t).1]
    exact List.mem_map.mpr ⟨a, ha, if_pos hproject⟩
  rcases relocated_cases symbols clock a with ⟨-, heq⟩ | ⟨s, hhead, -, heq⟩
  · exact .inl (heq ▸ hmem)
  · obtain ⟨hs, hname, hhash, hkind⟩ := mem_anchorCandidates.mp (List.mem_of_head? hhead)
    refine .inr ⟨_, hmem, relocated_id symbols clock a, s, hs, ⟨hname, hhash⟩, ?_, ?_⟩
    · rw [heq]
      exact ⟨rfl, rfl, rfl⟩
    · rintro ⟨s', hs', hsame, hkind'⟩
      exact hkind ⟨s', hs', hsame.1, hsame.2, hkind'⟩

theorem relinkProject_settled (symbols : List RustSymbol) (project : String)
    (clock clock' : Int64 → Int64) (t : AnchorTable) :
    (relinkProject symbols project false clock' (relinkProject symbols project false clock t).1).2.anchorsRelinked
      = 0 := by
  rw [(relinkProject_spec symbols project clock' _).2, List.countP_eq_zero]
  intro a ha
  obtain ⟨hrow, hproject⟩ := mem_forProject.mp ha
  rw [(relinkProject_spec symbols project clock t).1] at hrow
  obtain ⟨row, -, rfl⟩ := List.mem_map.mp hrow
  by_cases hmine : row.project = project
  · rw [if_pos hmine, relocated_again]
    simp
  · rw [if_neg hmine] at hproject
    exact absurd hproject hmine

/-- Any candidate can come first. -/
theorem exists_perm_head {s : RustSymbol} (hs : s ∈ anchorCandidates a symbols) :
    ∃ symbols', symbols'.Perm symbols ∧ (anchorCandidates a symbols').head? = some s := by
  obtain ⟨hmem, hname, hhash, hkind⟩ := mem_anchorCandidates.mp hs
  refine ⟨s :: symbols.erase s, (List.perm_cons_erase hmem).symm, ?_⟩
  have hperm := anchorCandidates_perm (a := a) (List.perm_cons_erase hmem)
  have hfirst : s ∈ anchorCandidates a (s :: symbols.erase s) := hperm.mem_iff.mp hs
  have hnamed : ((s :: symbols.erase s).filter fun s => s.name == a.symbolName && s.astHash == a.astHash)
      = s :: (symbols.erase s).filter fun s => s.name == a.symbolName && s.astHash == a.astHash :=
    List.filter_cons_of_pos (by simp [hname, hhash])
  revert hfirst
  unfold anchorCandidates
  rw [hnamed]
  dsimp only
  split
  · intro hfirst
    have hmine := (List.mem_filter.mp hfirst).2
    rw [List.head?_filter]
    exact List.find?_cons_of_pos hmine
  · exact fun _ => rfl

/-- Anchors follow the code exactly where no anchor has a look-alike elsewhere beside a
symbol in its own place. -/
theorem relinkProject_followsCode_iff (symbols : List RustSymbol) (project : String)
    (clock : Int64 → Int64) (t : AnchorTable) :
    FollowsCode symbols project clock t ↔
      ∀ a ∈ t.rows, a.project = project → NoLookAlikes symbols a := by
  constructor
  · intro h a ha hproject
    by_contra hneither
    rw [NoLookAlikes, not_or] at hneither
    obtain ⟨haway, hhere⟩ := hneither
    push Not at haway hhere
    obtain ⟨s, hs, hsaway⟩ := haway
    obtain ⟨s', hs', hshere⟩ := hhere
    obtain ⟨symbols₁, hperm₁, hhead₁⟩ := exists_perm_head hs
    obtain ⟨symbols₂, hperm₂, hhead₂⟩ := exists_perm_head hs'
    have hstays : a ∈ (relinkProject symbols₂ project false clock t).1.rows :=
      (mem_relinked_iff ha hproject).mpr fun x hx => by
        rw [hhead₂] at hx
        exact Option.some.inj hx ▸ hshere
    have hmoves := (h.orderless symbols₁ hperm₁ a ha hproject).mpr
      ((h.orderless symbols₂ hperm₂ a ha hproject).mp hstays)
    exact hsaway ((mem_relinked_iff ha hproject).mp hmoves s hhead₁)
  · intro h
    refine ⟨fun a ha hproject hhere => ?_, fun a ha hproject => relinkProject_moved ha hproject,
      fun clock' => relinkProject_settled symbols project clock clock' t,
      fun symbols' hperm a ha hproject => ?_⟩
    · obtain ⟨s, hs, hsame, hkind, hat⟩ := hhere
      have hcand : s ∈ anchorCandidates a symbols := mem_anchorCandidates.mpr ⟨hs, hsame.1, hsame.2, fun _ => hkind⟩
      rw [mem_relinked_iff ha hproject]
      rcases h a ha hproject with hall | hnone
      · exact fun x hx => hall x (List.mem_of_head? hx)
      · exact absurd hat (hnone s hcand)
    · have hsame := anchorCandidates_perm (a := a) hperm
      rw [mem_relinked_iff ha hproject, mem_relinked_iff ha hproject]
      rcases h a ha hproject with hall | hnone
      · refine iff_of_true (fun x hx => ?_) fun x hx => hall x (List.mem_of_head? hx)
        exact hall x (hsame.mem_iff.mp (List.mem_of_head? hx))
      · have hboth : ∀ l : List RustSymbol, (∀ s ∈ l, ¬ s.IsAt a) →
            ((∀ s, l.head? = some s → s.IsAt a) ↔ l = []) := by
          intro l hl
          cases l with
          | nil => simp
          | cons x rest =>
              refine iff_of_false (fun hhead => hl x List.mem_cons_self (hhead x rfl)) ?_
              exact List.cons_ne_nil x rest
        rw [hboth _ hnone, hboth _ fun s hs => hnone s (hsame.mem_iff.mp hs)]
        exact ⟨fun hnil => List.perm_nil.mp (hnil ▸ hsame.symm), fun hnil => List.perm_nil.mp (hnil ▸ hsame)⟩

/-- `fn helper() {}` in two files, and an anchor in the second. -/
def helperIn (path : String) : RustSymbol := ⟨path, "function", "helper", "5f0a", "77c1", 0, 14⟩

def helperAnchor : AnchorTable where
  rows := [⟨1, "demo", 7, "b.rs", "rust", "function", "helper", "5f0a", "77c1", 0, 14, 100, 100⟩]
  distinct := by decide

theorem relink_moves_unmoved :
    ¬ FollowsCode [helperIn "a.rs", helperIn "b.rs"] "demo" (fun _ => 200) helperAnchor := by
  intro h
  have hstays := h.unmoved ⟨1, "demo", 7, "b.rs", "rust", "function", "helper", "5f0a", "77c1", 0, 14, 100,
    100⟩ (List.mem_singleton.mpr rfl) rfl ⟨helperIn "b.rs", by decide, ⟨rfl, rfl⟩, rfl, by decide⟩
  exact absurd hstays (by decide)

end IronMem
