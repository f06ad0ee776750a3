import IronMem.Contradictions
import IronMem.InjectedLines
import IronMem.Lib.Offers

/-!
# Working sets

`working_set::select` takes from ranked candidates what an injected file has room for: the
first candidate, a memory in dispute, one memory of each useful kind, and then everything in
order of rank band, temperature and rank.

All four passes do the same thing, offer memories to `try_add`, and differ in what they
offer; so a selection is one run of offers (`choose_offered`) and the library of `Offers`
speaks about it. Its one condition is that what does not fit once does not fit later, when
more has been chosen. That is a fact about the renderer: entries are numbered, so the place of
a memory changes the length of its header, and the footer counts what is left
(`Room.last`, `Room.more`).

`WellChosen` says what a selection is: eligible candidates without repetition, as many as
allowed, all of them written in full; the first candidate is among them if it fits by itself,
and no candidate that is left out could be added. The temperature of a memory is computed from
its access counters in floating point. It orders the pool and nothing else, so any function may
stand for it.
-/

namespace IronMem

/-! ## Configuration -/

namespace WorkingSet

open Fallible

inductive Profile where
  | generic | coding | planning | debug
deriving DecidableEq, Repr

structure Config where
  enabled : Bool := false
  profile : Profile := .generic
  budgetBytes : Nat := 24000
deriving DecidableEq, Repr

def Config.validate (config : Config) : Except String Unit :=
  ensure (decide (2000 ≤ config.budgetBytes) && decide (config.budgetBytes ≤ 24000))
    "working_set.budget_bytes must be 2000..=24000 inclusive"

inductive Temperature where
  | cold | warm | hot
deriving DecidableEq, Repr

/-- The derived order. -/
def Temperature.rank : Temperature → Nat
  | .cold => 0
  | .warm => 1
  | .hot => 2

/-- The kinds that are reserved for, in order. -/
def categories : Profile → List String
  | .generic => ["project_config", "architecture", "procedural", "error_solution"]
  | .coding => ["project_config", "procedural", "error_solution", "architecture"]
  | .planning => ["project_config", "architecture", "procedural", "error_solution"]
  | .debug => ["error_solution", "project_config", "procedural", "architecture"]

/-! ## The pool -/

/-- The rows of `contradiction_sets` joined with the memberships of a memory. -/
def setRowsOf (db : Database) (memoryId : Int) (ns : String) : List Record :=
  (((db.table "contradiction_sets").filter fun cs => cs.col "namespace" = .str ns).flatMap fun cs =>
    ((db.table "contradiction_members").filter fun cm =>
      cm.col "contradiction_set_id" = cs.col "id" ∧ cm.col "memory_id" = .int memoryId).map
        fun _ => cs).insertionSort fun a b =>
      (b.integer "updated_at").getD 0 < (a.integer "updated_at").getD 0 ∨
        ((a.integer "updated_at").getD 0 = (b.integer "updated_at").getD 0 ∧
          (a.text "id").getD "" ≤ (b.text "id").getD "")

/-- `contradiction_sets_for_memory`. -/
def contradictionSetsForMemory (db : Database) (memoryId : Int) (ns : String) :
    Except String (List ContradictionSet) :=
  (setRowsOf db memoryId (normalizeNamespace ns)).mapM fun row =>
    contradictionSetOnConnection ((row.text "id").getD "") ns db

structure PoolEntry where
  rank : Nat
  memory : Memory
  kind : String
  temp : Temperature
  correction : Bool

/-- Neither tombstoned nor expired. -/
def eligible (db : Database) (now : Int) (memory : Memory) : Bool :=
  let info := db.getMemoryMetaFull memory.id
  info.tombstonedAt.isNone && !info.expiresAt.any fun t => decide (t ≤ now)

/-- One candidate. The temperature of a memory is computed from its access counters in floating
point and only orders the pool: it is a parameter here. -/
def poolEntry (temperature : Int → Temperature) (db : Database) (now : Int)
    (candidate : Memory × Nat) : Except String (Option PoolEntry) :=
  let memory := candidate.1
  let info := db.getMemoryMetaFull memory.id
  if eligible db now memory then do
    let sets ← contradictionSetsForMemory db memory.id info.namespace
    return some {
      rank := candidate.2
      memory
      kind := info.kind
      temp := temperature memory.id
      correction := sets.any fun set => set.status == .unresolved || set.status == .preferred }
  else return none

/-- The order of `sort_by_key`: the band of four ranks, hotter first, the rank. -/
def PoolEntry.notAfter (a b : PoolEntry) : Prop :=
  a.rank / 4 < b.rank / 4 ∨ (a.rank / 4 = b.rank / 4 ∧
    (b.temp.rank < a.temp.rank ∨ (a.temp.rank = b.temp.rank ∧ a.rank ≤ b.rank)))

instance (a b : PoolEntry) : Decidable (a.notAfter b) := by
  unfold PoolEntry.notAfter
  infer_instance

/-- The pool, sorted. -/
def pool (temperature : Int → Temperature) (db : Database) (now : Int) (candidates : List Memory) :
    Except String (List PoolEntry) := do
  let entries ← candidates.zipIdx.mapM (poolEntry temperature db now)
  return (entries.filterMap id).insertionSort PoolEntry.notAfter

/-! ## Selection -/

/-- Room for what `render_memories` may append. -/
def RESERVED : Nat := 128

section

variable (date : Int → Option Day) (limit budget : Nat)

/-- `try_add`: what is chosen then, and whether it was added. -/
def tryAdd (chosen : List Memory) (memory : Memory) : List Memory × Bool :=
  if limit ≤ chosen.length || chosen.any (fun m => m.id == memory.id) then (chosen, false)
  else
    let pushed := chosen ++ [memory]
    let (_, report) := renderMemories date pushed (budget - RESERVED)
    if report.writtenIds.length ≠ pushed.length then (chosen, false) else (pushed, true)

/-- The first of a kind that can be added. -/
def addKind (kind : String) : List PoolEntry → List Memory → List Memory
  | [], chosen => chosen
  | e :: entries, chosen =>
      if e.kind = kind then
        let (chosen', added) := tryAdd date limit budget chosen e.memory
        if added then chosen' else addKind kind entries chosen'
      else addKind kind entries chosen

/-- The highest-ranked candidate, where the pool still has it. -/
def firstPass (candidates : List Memory) (entries : List PoolEntry) : List Memory :=
  match candidates.head? with
  | some memory =>
      if entries.any fun e => e.memory.id == memory.id then (tryAdd date limit budget [] memory).1
      else []
  | none => []

/-- The first memory in dispute. -/
def correctionPass (entries : List PoolEntry) (chosen : List Memory) : List Memory :=
  match entries.find? fun e => e.correction with
  | some e => (tryAdd date limit budget chosen e.memory).1
  | none => chosen

/-- The four passes. -/
def choose (profile : Profile) (candidates : List Memory) (entries : List PoolEntry) : List Memory :=
  let chosen := correctionPass date limit budget entries
    (firstPass date limit budget candidates entries)
  let chosen := (categories profile).foldl
    (fun chosen kind => addKind date limit budget kind entries chosen) chosen
  entries.foldl (fun chosen e => (tryAdd date limit budget chosen e.memory).1) chosen

end

/-- `select`. -/
def select (date : Int → Option Day) (temperature : Int → Temperature) (db : Database)
    (candidates : List Memory) (config : Config) (limit : Nat) (now : Int) :
    Except String (List Memory) := do
  config.validate
  if config.enabled = false then return candidates
  if limit = 0 then return []
  let entries ← pool temperature db now candidates
  return choose date limit config.budgetBytes config.profile candidates entries

/-! ## Rendering everything

Whether all memories of a list are written depends on the room each of them finds, with the
footer for the rest. Leaving out a memory makes the places of later ones smaller, and so their
headings no longer. -/

section Rendering

variable {date : Int → Option Day} {budget : Nat} {memory : Memory} {memories : List Memory}

theorem utf8Size_digit {c : Char} (h : c.isDigit = true) : c.utf8Size = 1 := by
  rw [Char.isDigit, Bool.and_eq_true, decide_eq_true_eq, decide_eq_true_eq] at h
  refine Char.utf8Size_eq_one_iff.mpr (UInt32.le_iff_toNat_le.mpr ?_)
  have hnine := UInt32.le_iff_toNat_le.mp h.2
  exact Nat.le_trans hnine (by decide)

theorem byteLen_toString (n : Nat) : byteLen (toString n) = (Nat.toDigits 10 n).length := by
  have hdigits : ∀ cs : List Char, (∀ c ∈ cs, c.isDigit = true) → utf8Len cs = cs.length := by
    intro cs hcs
    induction cs with
    | nil => rfl
    | cons c cs ih =>
        obtain ⟨hc, hcs⟩ := List.forall_mem_cons.mp hcs
        rw [utf8Len_cons, ih hcs, List.length_cons, utf8Size_digit hc, Nat.add_comm]
  have hlist : (toString n).toList = Nat.toDigits 10 n := Nat.toList_repr
  rw [byteLen_eq, hlist]
  exact hdigits _ fun c hc => Nat.isDigit_of_mem_toDigits (by decide) (by decide) hc

theorem byteLen_toString_mono {m n : Nat} (h : m ≤ n) :
    byteLen (toString m) ≤ byteLen (toString n) := by
  rw [byteLen_toString, byteLen_toString, Nat.length_toDigits_le_iff (by decide)
    Nat.length_toDigits_pos]
  exact Nat.lt_of_le_of_lt h
    ((Nat.length_toDigits_le_iff (by decide) Nat.length_toDigits_pos).mp (Nat.le_refl _))

theorem byteLen_unlines_cons (line : String) (rest : List String) :
    byteLen (unlines (line :: rest)) = byteLen line + (1 + byteLen (unlines rest)) := by
  have hone : unlines [line] = line ++ "\n" := String.empty_append
  have hbreak : byteLen "\n" = 1 := rfl
  rw [← List.singleton_append, unlines_append, hone, byteLen_append, byteLen_append, hbreak,
    Nat.add_assoc]

theorem footerRoom_mono {m n : Nat} (h : m ≤ n) : footerRoom m ≤ footerRoom n := by
  unfold footerRoom
  split
  · have hdigits := byteLen_toString_mono h
    rw [if_pos (by omega), footer, footer, byteLen_unlines_cons, byteLen_unlines_cons, footerLine,
      footerLine]
    simp only [byteLen_append]
    omega
  · exact Nat.zero_le _

/-- The number of an entry is all that depends on its place. -/
theorem byteLen_entry_shift (date : Int → Option Day) (memory : Memory) (i j : Nat) :
    byteLen (entry date i memory) + byteLen (toString (j + 1))
      = byteLen (entry date j memory) + byteLen (toString (i + 1)) := by
  simp only [entry, entryLines, byteLen_unlines_cons, byteLen_append]
  omega

theorem byteLen_entry_mono {i j : Nat} (h : i ≤ j) :
    byteLen (entry date i memory) ≤ byteLen (entry date j memory) := by
  have hdigits := byteLen_toString_mono (Nat.succ_le_succ h)
  have hshift := byteLen_entry_shift date memory i j
  rw [Nat.succ_eq_add_one, Nat.succ_eq_add_one] at hdigits
  omega

/-- Every memory from memory `i` on finds room, with a footer for those behind it. -/
def Room (date : Int → Option Day) (budget : Nat) : Nat → Nat → List Memory → Prop
  | _, _, [] => True
  | i, used, memory :: memories =>
      used + byteLen (entry date i memory) + footerRoom memories.length ≤ budget ∧
        Room date budget (i + 1) (used + byteLen (entry date i memory)) memories

theorem renderFrom_all {i : Nat} {text : String} {written : List Int} :
    (renderFrom date (written.length + memories.length) budget i memories text written).2.length
      = written.length + memories.length ↔ Room date budget i (byteLen text) memories := by
  induction memories generalizing i text written with
  | nil => exact ⟨fun _ => trivial, fun _ => rfl⟩
  | cons memory memories ih =>
      have hremaining : written.length + (memory :: memories).length - written.length - 1
          = memories.length := by
        rw [List.length_cons]
        omega
      rw [renderFrom, hremaining, Room]
      have hreserve : (if 0 < memories.length then byteLen (footer memories.length) else 0)
          = footerRoom memories.length := rfl
      rw [hreserve]
      by_cases hfull : budget < byteLen text + byteLen (entry date i memory) + footerRoom memories.length
      · rw [if_pos hfull]
        refine ⟨fun h => ?_, fun h => absurd h.1 (Nat.not_le.mpr hfull)⟩
        rw [List.length_cons] at h
        dsimp only at h
        omega
      · rw [if_neg hfull]
        have hnext : written.length + (memory :: memories).length
            = (written ++ [memory.id]).length + memories.length := by
          rw [List.length_cons, List.length_append, List.length_singleton]
          omega
        rw [hnext, ih, byteLen_append]
        exact ⟨fun h => ⟨Nat.not_lt.mp hfull, h⟩, fun h => h.2⟩

/-- All the memories are written. -/
def Fits (date : Int → Option Day) (budget : Nat) (memories : List Memory) : Prop :=
  memories = [] ∨ (byteLen (unlines headerLines) + byteLen (footer memories.length) ≤ budget ∧
    Room date budget 0 (byteLen (unlines headerLines)) memories)

theorem renderMemories_all :
    (renderMemories date memories budget).2.writtenIds.length = memories.length ↔
      Fits date budget memories := by
  cases memories with
  | nil => exact ⟨fun _ => .inl rfl, fun _ => rfl⟩
  | cons memory memories =>
      rw [renderMemories, if_neg (by simp)]
      by_cases hroom : budget < byteLen (unlines headerLines) + byteLen (footer (memory :: memories).length)
      · rw [if_pos hroom]
        refine ⟨fun h => (Nat.succ_ne_zero _ h.symm).elim, fun h => ?_⟩
        rcases h with h | ⟨h, -⟩
        · cases h
        · exact absurd h (Nat.not_le.mpr hroom)
      · rw [if_neg hroom]
        have hall : (renderFrom date (([] : List Int).length + (memory :: memories).length) budget 0
            (memory :: memories) (unlines headerLines) []).2.length
              = ([] : List Int).length + (memory :: memories).length ↔
            Room date budget 0 (byteLen (unlines headerLines)) (memory :: memories) := renderFrom_all
        rw [List.length_nil, Nat.zero_add] at hall
        refine Iff.trans hall ⟨fun h => .inr ⟨Nat.not_lt.mp hroom, h⟩, fun h => ?_⟩
        rcases h with h | ⟨-, h⟩
        · cases h
        · exact h

theorem renderMemories_omitted :
    (renderMemories date memories budget).2.omitted = 0 ↔ Fits date budget memories := by
  rw [← renderMemories_all]
  cases memories with
  | nil => exact ⟨fun _ => rfl, fun _ => rfl⟩
  | cons memory memories =>
      by_cases hroom : budget < byteLen (unlines headerLines) + byteLen (footer (memory :: memories).length)
      · rw [renderMemories, if_neg (by simp), if_pos hroom]
        exact ⟨fun h => h.symm, fun h => h.symm⟩
      · obtain ⟨k, hk, hrun, -⟩ := @renderMemories_written date (memory :: memories) budget
          (List.cons_ne_nil memory memories) (Nat.not_lt.mp hroom)
        rw [hrun, List.length_map, List.length_take]
        show (memory :: memories).length - k = 0 ↔ _
        omega

/-- With less in front of it a memory still finds room. -/
theorem Room.last {i j used used' : Nat} (hi : j ≤ i) (hused : used' ≤ used)
    (h : Room date budget i used (memories ++ [memory])) :
    Room date budget j used' [memory] := by
  induction memories generalizing i used with
  | nil =>
      have hentry : byteLen (entry date j memory) ≤ byteLen (entry date i memory) :=
        byteLen_entry_mono hi
      refine ⟨?_, trivial⟩
      have hroom := h.1
      omega
  | cons m memories ih => exact ih (Nat.le_succ_of_le hi) (Nat.le_add_right_of_le hused) h.2

theorem Room.shrink {i used : Nat} {l l' : List Memory} (hpre : l <+: l')
    (h : Room date budget i used (l' ++ [memory])) : Room date budget i used (l ++ [memory]) := by
  induction l generalizing i used l' with
  | nil => exact h.last (Nat.le_refl i) (Nat.le_refl used)
  | cons m l ih =>
      obtain ⟨rest, rfl⟩ := hpre
      have hfooter : footerRoom (l ++ [memory]).length ≤ footerRoom (l ++ rest ++ [memory]).length := by
        refine footerRoom_mono ?_
        rw [List.length_append, List.length_append, List.length_append]
        omega
      exact ⟨Nat.le_trans (Nat.add_le_add_left hfooter _) h.1, ih (List.prefix_append l rest) h.2⟩

/-- More budget is enough too. -/
theorem Room.more {i used more : Nat} (hmore : budget ≤ more) (h : Room date budget i used memories) :
    Room date more i used memories := by
  induction memories generalizing i used with
  | nil => trivial
  | cons m memories ih => exact ⟨Nat.le_trans h.1 hmore, ih h.2⟩

theorem Fits.more {more : Nat} (hmore : budget ≤ more) (h : Fits date budget memories) :
    Fits date more memories := by
  rcases h with h | ⟨hfooter, hroom⟩
  · exact .inl h
  · exact .inr ⟨Nat.le_trans hfooter hmore, hroom.more hmore⟩

theorem Fits.shrink {l l' : List Memory} (hpre : l <+: l') (h : Fits date budget (l' ++ [memory])) :
    Fits date budget (l ++ [memory]) := by
  rcases h with h | ⟨hfooter, hroom⟩
  · exact absurd h (by simp)
  · refine .inr ⟨?_, hroom.shrink hpre⟩
    have hlength : (l ++ [memory]).length ≤ (l' ++ [memory]).length := by
      have := hpre.length_le
      rw [List.length_append, List.length_append]
      omega
    have hmono := footerRoom_mono hlength
    rw [footerRoom, footerRoom, if_pos (by simp), if_pos (by simp)] at hmono
    omega

end Rendering

/-! ## Selection is a run of offers

Every pass offers some memories, one after the other. Whether an offer is taken depends on what
is chosen already and not on the pass. -/

section Choosing

variable {date : Int → Option Day} {limit budget : Nat}

/-- `try_add`'s test. -/
def fits (date : Int → Option Day) (budget : Nat) (memories : List Memory) : Bool :=
  decide ((renderMemories date memories (budget - RESERVED)).2.writtenIds.length = memories.length)

theorem fits_eq_true {memories : List Memory} :
    fits date budget memories = true ↔ Fits date (budget - RESERVED) memories := by
  rw [fits, decide_eq_true_eq, renderMemories_all]

theorem shrinks_fits : Offers.Shrinks (fits date budget) := fun _ _ _ hpre h =>
  fits_eq_true.mpr ((fits_eq_true.mp h).shrink hpre)

/-- The memories that are chosen when some are offered. -/
abbrev offered (date : Int → Option Day) (limit budget : Nat) (chosen memories : List Memory) :
    List Memory :=
  Offers.run Memory.id (fits date budget) limit chosen memories

theorem tryAdd_eq (chosen : List Memory) (memory : Memory) :
    tryAdd date limit budget chosen memory
      = (Offers.offer Memory.id (fits date budget) limit chosen memory,
        Offers.takes Memory.id (fits date budget) limit chosen memory) := by
  have hany : (chosen.any fun m => m.id == memory.id) = (chosen.map Memory.id).contains memory.id := by
    rw [Bool.eq_iff_iff, List.any_eq_true, List.contains_eq_mem, decide_eq_true_eq, List.mem_map]
    simp only [beq_iff_eq]
  unfold tryAdd Offers.offer Offers.takes
  rw [hany]
  by_cases hlimit : limit ≤ chosen.length
  · rw [decide_eq_true hlimit, decide_eq_false (Nat.not_lt.mpr hlimit)]
    rfl
  · rw [decide_eq_false hlimit, decide_eq_true (Nat.not_le.mp hlimit)]
    cases (chosen.map Memory.id).contains memory.id
    · by_cases hall : (renderMemories date (chosen ++ [memory]) (budget - RESERVED)).2.writtenIds.length
        = (chosen ++ [memory]).length
      · rw [show fits date budget (chosen ++ [memory]) = true from decide_eq_true hall]
        exact if_neg (not_not.mpr hall)
      · rw [show fits date budget (chosen ++ [memory]) = false from decide_eq_false hall]
        exact if_pos hall
    · rfl

theorem addKind_offered (kind : String) (entries : List PoolEntry) (chosen : List Memory) :
    ∃ offers ⊆ entries.map PoolEntry.memory,
      addKind date limit budget kind entries chosen = offered date limit budget chosen offers := by
  induction entries generalizing chosen with
  | nil => exact ⟨[], List.nil_subset _, rfl⟩
  | cons e entries ih =>
      rw [addKind]
      split
      · rw [tryAdd_eq]
        dsimp only
        split
        · exact ⟨[e.memory], List.cons_subset.mpr ⟨List.mem_cons_self, List.nil_subset _⟩, rfl⟩
        · obtain ⟨offers, hoffers, hrun⟩ :=
            ih (Offers.offer Memory.id (fits date budget) limit chosen e.memory)
          exact ⟨e.memory :: offers, List.cons_subset_cons _ hoffers, hrun⟩
      · obtain ⟨offers, hoffers, hrun⟩ := ih chosen
        exact ⟨offers, List.subset_cons_of_subset _ hoffers, hrun⟩

theorem addKinds_offered (kinds : List String) (entries : List PoolEntry) (chosen : List Memory) :
    ∃ offers ⊆ entries.map PoolEntry.memory,
      kinds.foldl (fun chosen kind => addKind date limit budget kind entries chosen) chosen
        = offered date limit budget chosen offers := by
  induction kinds generalizing chosen with
  | nil => exact ⟨[], List.nil_subset _, rfl⟩
  | cons kind kinds ih =>
      obtain ⟨offers, hoffers, hkind⟩ := addKind_offered kind entries chosen
      obtain ⟨rest, hrest, hrun⟩ := ih (addKind date limit budget kind entries chosen)
      refine ⟨offers ++ rest, List.append_subset.mpr ⟨hoffers, hrest⟩, ?_⟩
      rw [List.foldl_cons, hrun, hkind]
      exact Offers.run_append.symm

/-- The last pass offers the whole pool. -/
theorem lastPass_offered (entries : List PoolEntry) (chosen : List Memory) :
    entries.foldl (fun chosen e => (tryAdd date limit budget chosen e.memory).1) chosen
      = offered date limit budget chosen (entries.map PoolEntry.memory) := by
  induction entries generalizing chosen with
  | nil => rfl
  | cons e entries ih =>
      rw [List.foldl_cons, tryAdd_eq, ih]
      rfl

theorem correctionPass_offered (entries : List PoolEntry) (chosen : List Memory) :
    ∃ offers ⊆ entries.map PoolEntry.memory,
      correctionPass date limit budget entries chosen = offered date limit budget chosen offers := by
  rw [correctionPass]
  split
  · next e hfound =>
      rw [tryAdd_eq]
      exact ⟨[e.memory], List.cons_subset.mpr
        ⟨List.mem_map_of_mem (List.mem_of_find?_eq_some hfound), List.nil_subset _⟩, rfl⟩
  · exact ⟨[], List.nil_subset _, rfl⟩

/-- What the first pass offers. -/
def firstOffer (candidates : List Memory) (entries : List PoolEntry) : List Memory :=
  candidates.head?.toList.filter fun memory => entries.any fun e => e.memory.id == memory.id

theorem firstPass_offered (candidates : List Memory) (entries : List PoolEntry) :
    firstPass date limit budget candidates entries
      = offered date limit budget [] (firstOffer candidates entries) := by
  rw [firstPass, firstOffer]
  cases candidates with
  | nil => rfl
  | cons memory candidates =>
      show (if _ then _ else _) = offered date limit budget [] ([memory].filter _)
      rw [List.filter_singleton, tryAdd_eq]
      cases entries.any fun e => e.memory.id == memory.id <;> rfl

/-- The four passes are one run of offers: the first candidate, some of the pool, the pool. -/
theorem choose_offered (profile : Profile) (candidates : List Memory) (entries : List PoolEntry) :
    ∃ offers ⊆ entries.map PoolEntry.memory,
      choose date limit budget profile candidates entries
        = offered date limit budget [] (firstOffer candidates entries ++
            (offers ++ entries.map PoolEntry.memory)) := by
  obtain ⟨disputed, hdisputed, hcorrection⟩ := correctionPass_offered entries
    (firstPass date limit budget candidates entries)
  obtain ⟨kinds, hkinds, hrun⟩ := addKinds_offered (categories profile) entries
    (correctionPass date limit budget entries (firstPass date limit budget candidates entries))
  refine ⟨disputed ++ kinds, List.append_subset.mpr ⟨hdisputed, hkinds⟩, ?_⟩
  rw [choose, lastPass_offered, hrun, hcorrection, firstPass_offered]
  simp only [offered, Offers.run_append]

end Choosing

/-! ## The selected memories -/

variable {date : Int → Option Day} {temperature : Int → Temperature} {db : Database} {now : Int}
  {candidates : List Memory} {entries : List PoolEntry}

theorem poolEntry_ok {candidate : Memory × Nat} {found : Option PoolEntry}
    (h : poolEntry temperature db now candidate = .ok found) :
    (eligible db now candidate.1 = true ∧ ∃ e, found = some e ∧ e.memory = candidate.1) ∨
      (eligible db now candidate.1 = false ∧ found = none) := by
  rw [poolEntry] at h
  split at h
  · next heligible =>
      obtain ⟨sets, -, h⟩ := bind_eq_ok.mp h
      obtain rfl := pure_eq_ok.mp h
      exact .inl ⟨heligible, _, rfl, rfl⟩
  · next hbarred => exact .inr ⟨Bool.eq_false_iff.mpr hbarred, (pure_eq_ok.mp h).symm⟩

/-- The pool has the eligible candidates. -/
theorem mem_pool (h : pool temperature db now candidates = .ok entries) (memory : Memory) :
    memory ∈ entries.map PoolEntry.memory ↔ memory ∈ candidates ∧ eligible db now memory = true := by
  obtain ⟨found, hfound, h⟩ := bind_eq_ok.mp h
  obtain rfl := pure_eq_ok.mp h
  have hall := forall₂_of_mapM hfound
  rw [List.mem_map]
  simp only [List.mem_insertionSort, List.mem_filterMap, id_eq, exists_eq_right]
  constructor
  · rintro ⟨e, he, rfl⟩
    obtain ⟨candidate, hcandidate, hentry⟩ := forall₂_right hall _ he
    have hmem : candidate.1 ∈ candidates := List.fst_mem_of_mem_zipIdx hcandidate
    rcases poolEntry_ok hentry with ⟨heligible, e', he', hmemory⟩ | ⟨-, hnone⟩
    · obtain rfl := Option.some.inj he'
      rw [hmemory]
      exact ⟨hmem, heligible⟩
    · cases hnone
  · rintro ⟨hmem, heligible⟩
    obtain ⟨i, hi⟩ := List.mem_iff_getElem?.mp hmem
    obtain ⟨found', hfound', hentry⟩ :=
      forall₂_left hall (memory, i) (List.mem_zipIdx_iff_getElem?.mpr hi)
    rcases poolEntry_ok hentry with ⟨-, e, rfl, hmemory⟩ | ⟨hbarred, -⟩
    · exact ⟨e, hfound', hmemory⟩
    · exact absurd heligible (Bool.eq_false_iff.mp hbarred)

theorem select_ok {config : Config} {limit : Nat} {chosen : List Memory}
    (h : select date temperature db candidates config limit now = .ok chosen)
    (henabled : config.enabled = true) :
    config.validate = .ok () ∧ ((limit = 0 ∧ chosen = []) ∨ (0 < limit ∧ ∃ entries,
      pool temperature db now candidates = .ok entries ∧
      chosen = choose date limit config.budgetBytes config.profile candidates entries)) := by
  obtain ⟨_, hvalid, h⟩ := bind_eq_ok.mp h
  refine ⟨hvalid, ?_⟩
  rw [henabled] at h
  by_cases hlimit : limit = 0
  · subst hlimit
    exact .inl ⟨rfl, (pure_eq_ok.mp h).symm⟩
  · rw [if_neg hlimit] at h
    obtain ⟨entries, hpool, h⟩ := bind_eq_ok.mp h
    exact .inr ⟨Nat.pos_of_ne_zero hlimit, entries, hpool, (pure_eq_ok.mp h).symm⟩

/-- Where the memories in dispute can be read, a selection is made. -/
theorem select_succeeds {config : Config} (limit : Nat) (hvalid : config.validate = .ok ())
    (hsets : ∀ memory ∈ candidates, ∃ sets, contradictionSetsForMemory db memory.id
      (db.getMemoryMetaFull memory.id).namespace = .ok sets) :
    ∃ chosen, select date temperature db candidates config limit now = .ok chosen := by
  have hentry : ∀ candidate ∈ candidates.zipIdx,
      ∃ found, poolEntry temperature db now candidate = .ok found := by
    intro candidate hcandidate
    rw [poolEntry]
    split
    · obtain ⟨sets, hread⟩ := hsets candidate.1 (List.fst_mem_of_mem_zipIdx hcandidate)
      exact ⟨_, bind_eq_ok.mpr ⟨sets, hread, rfl⟩⟩
    · exact ⟨none, rfl⟩
  obtain ⟨found, hfound⟩ := exists_mapM hentry
  have hpool : pool temperature db now candidates
      = .ok ((found.filterMap id).insertionSort PoolEntry.notAfter) :=
    bind_eq_ok.mpr ⟨found, hfound, rfl⟩
  by_cases henabled : config.enabled = false
  · exact ⟨candidates, by rw [select, hvalid, henabled]; rfl⟩
  · by_cases hlimit : limit = 0
    · exact ⟨[], by rw [select, hvalid, if_neg henabled, if_pos hlimit]; rfl⟩
    · exact ⟨_, by rw [select, hvalid, if_neg henabled, if_neg hlimit, hpool]; rfl⟩

/-- What a selection is, for the candidates it was made from. -/
structure WellChosen (date : Int → Option Day) (db : Database) (candidates : List Memory)
    (config : Config) (limit : Nat) (now : Int) (chosen : List Memory) : Prop where
  distinct : (chosen.map Memory.id).Nodup
  allowed : ∀ memory ∈ chosen, memory ∈ candidates ∧ eligible db now memory = true
  bounded : chosen.length ≤ limit
  written : (renderMemories date chosen config.budgetBytes).2.omitted = 0
  first : ∀ memory, candidates.head? = some memory → eligible db now memory = true → 0 < limit →
    (renderMemories date [memory] (config.budgetBytes - RESERVED)).2.omitted = 0 → memory ∈ chosen
  maximal : chosen.length < limit → ∀ memory ∈ candidates, eligible db now memory = true →
    memory ∉ chosen →
      0 < (renderMemories date (chosen ++ [memory]) (config.budgetBytes - RESERVED)).2.omitted

/-- Selection always fits and wastes nothing. -/
theorem select_wellChosen {config : Config} {limit : Nat} {chosen : List Memory}
    (hdistinct : (candidates.map Memory.id).Nodup) (henabled : config.enabled = true)
    (h : select date temperature db candidates config limit now = .ok chosen) :
    WellChosen date db candidates config limit now chosen := by
  have hsame : ∀ a ∈ candidates, ∀ b ∈ candidates, a.id = b.id → a = b :=
    fun a ha b hb heq => List.inj_on_of_nodup_map hdistinct ha hb heq
  obtain ⟨-, ⟨rfl, rfl⟩ | ⟨hlimit, entries, hpool, rfl⟩⟩ := select_ok h henabled
  · exact ⟨List.nodup_nil, fun m hm => absurd hm List.not_mem_nil, Nat.le_refl 0, rfl,
      fun _ _ _ hpos => absurd hpos (Nat.lt_irrefl 0), fun hroom => absurd hroom (Nat.lt_irrefl 0)⟩
  · obtain ⟨offers, hoffers, hchosen⟩ :=
      @choose_offered date limit config.budgetBytes config.profile candidates entries
    have hfirst : ∀ m ∈ firstOffer candidates entries, m ∈ entries.map PoolEntry.memory := by
      intro m hm
      obtain ⟨hhead, hany⟩ := List.mem_filter.mp hm
      obtain ⟨e, he, hid⟩ := List.any_eq_true.mp hany
      have hmem : e.memory ∈ entries.map PoolEntry.memory := List.mem_map_of_mem he
      have hm' : m ∈ candidates := List.mem_of_head? (Option.mem_toList.mp hhead)
      rw [hsame m hm' e.memory ((mem_pool hpool _).mp hmem).1 (beq_iff_eq.mp hid).symm]
      exact hmem
    have hpacked : Offers.Packed Memory.id (fits date config.budgetBytes) limit
        (firstOffer candidates entries ++ (offers ++ entries.map PoolEntry.memory))
        (offered date limit config.budgetBytes []
          (firstOffer candidates entries ++ (offers ++ entries.map PoolEntry.memory))) :=
      Offers.packed_run _
    rw [hchosen]
    have hallowed : ∀ m ∈ offered date limit config.budgetBytes []
        (firstOffer candidates entries ++ (offers ++ entries.map PoolEntry.memory)),
        m ∈ candidates ∧ eligible db now m = true := by
      intro m hm
      refine (mem_pool hpool m).mp ?_
      rcases List.mem_append.mp (hpacked.subset hm) with hm | hm
      · exact hfirst m hm
      · rcases List.mem_append.mp hm with hm | hm
        · exact hoffers hm
        · exact hm
    refine ⟨hpacked.nodup, hallowed, hpacked.bounded, ?_, ?_, ?_⟩
    · rw [renderMemories_omitted]
      rcases hpacked.fits with hnil | hfits
      · exact .inl hnil
      · exact (fits_eq_true.mp hfits).more (Nat.sub_le _ _)
    · intro m hhead heligible hpos halone
      have hm : m ∈ candidates := List.mem_of_head? hhead
      obtain ⟨e, he, hmemory⟩ := List.mem_map.mp ((mem_pool hpool m).mpr ⟨hm, heligible⟩)
      have hoffer : firstOffer candidates entries = [m] := by
        rw [firstOffer, hhead]
        refine List.filter_eq_self.mpr fun x hx => List.any_eq_true.mpr ⟨e, he, ?_⟩
        rw [hmemory, List.mem_singleton.mp hx]
        exact beq_self_eq_true _
      rw [hoffer]
      exact Offers.mem_run_of_fits hpos (fits_eq_true.mpr (renderMemories_omitted.mp halone))
    · intro hroom m hm heligible hnew
      have hoffered : m ∈ firstOffer candidates entries ++ (offers ++ entries.map PoolEntry.memory) :=
        List.mem_append_right _ (List.mem_append_right _ ((mem_pool hpool m).mpr ⟨hm, heligible⟩))
      have hkey : m.id ∉ (offered date limit config.budgetBytes []
          (firstOffer candidates entries ++ (offers ++ entries.map PoolEntry.memory))).map Memory.id := by
        intro hmem
        obtain ⟨c, hc, hid⟩ := List.mem_map.mp hmem
        exact hnew (hsame c (hallowed c hc).1 m hm hid ▸ hc)
      have hfull := Offers.run_maximal shrinks_fits hoffered hroom hkey
      rw [Nat.pos_iff_ne_zero, ne_eq, renderMemories_omitted, ← fits_eq_true, hfull]
      decide

/-- Two memories for a file of 2,000 bytes. -/
def twoNotes : List Memory :=
  [⟨1, "p", "s", "first", none, 100⟩, ⟨2, "p", "s", "second", none, 100⟩]

theorem select_wellChosen_twoNotes :
    ∃ chosen, select (fun _ => none) (fun _ => .cold) {} twoNotes ⟨true, .coding, 2000⟩ 5 100
        = .ok chosen ∧
      WellChosen (fun _ => none) {} twoNotes ⟨true, .coding, 2000⟩ 5 100 chosen := by
  obtain ⟨chosen, h⟩ := @select_succeeds (fun _ => none) (fun _ => .cold) {} 100 twoNotes
    ⟨true, .coding, 2000⟩ 5 rfl fun _ _ => ⟨[], rfl⟩
  exact ⟨chosen, h, select_wellChosen (by decide) rfl h⟩

end WorkingSet

end IronMem
