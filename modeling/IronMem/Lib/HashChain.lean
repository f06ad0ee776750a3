import Mathlib.Data.List.Infix

/-!
# Hash chains

A log whose entries each record a hash of their own fields and the hash of the
entry before them. A verifier walks the log once: every link must be the hash
seen last, every hash must be the one its fields give.

Nothing here assumes what the hash function is. Where two sealed entries with
one hash are equal, the last hash of a chain determines the chain backwards:
two chains with the same last hash are suffixes of one another
(`suffix_or_suffix`), and equal when both start from nothing (`eq_of_getLast?`).
-/

namespace HashChain

variable {ε η : Type}

/-- What an entry of a log records, and the hash its fields give. -/
structure Format (ε η : Type) where
  link : ε → Option η
  hash : ε → η
  derive : ε → η

/-- Accepted by the verifier that starts with `prev` as the hash seen last. -/
def Chained (f : Format ε η) : Option η → List ε → Prop
  | _, [] => True
  | prev, e :: es => f.link e = prev ∧ f.derive e = f.hash e ∧ Chained f (some (f.hash e)) es

/-- The verifier: the first entry whose link or hash is wrong. -/
def firstBroken [DecidableEq η] (f : Format ε η) : Option η → List ε → Option ε
  | _, [] => none
  | prev, e :: es =>
      if f.link e ≠ prev ∨ f.derive e ≠ f.hash e then some e
      else firstBroken f (some (f.hash e)) es

/-- The hash seen last after a log. -/
def head (f : Format ε η) (prev : Option η) (es : List ε) : Option η :=
  (es.getLast?.map f.hash).or prev

/-- The format of a log whose entries carry more than what is chained. -/
def Format.comap {ε' : Type} (f : Format ε η) (g : ε' → ε) : Format ε' η where
  link e := f.link (g e)
  hash e := f.hash (g e)
  derive e := f.derive (g e)

variable {f : Format ε η} {prev : Option η} {es fs : List ε}

theorem firstBroken_eq_none [DecidableEq η] : firstBroken f prev es = none ↔ Chained f prev es := by
  induction es generalizing prev with
  | nil => simp [firstBroken, Chained]
  | cons e es ih =>
      rw [firstBroken, Chained, ← ih]
      split
      · next hbroken =>
          refine ⟨fun h => (nomatch h), fun ⟨hlink, hhash, _⟩ => ?_⟩
          exact absurd hbroken (by simp [hlink, hhash])
      · next hok =>
          rw [not_or, not_not, not_not] at hok
          exact ⟨fun h => ⟨hok.1, hok.2, h⟩, fun h => h.2.2⟩

theorem chained_map {ε' : Type} {g : ε' → ε} {l : List ε'} :
    Chained f prev (l.map g) ↔ Chained (f.comap g) prev l := by
  induction l generalizing prev with
  | nil => rfl
  | cons e l ih => rw [List.map_cons, Chained, Chained, ih]; rfl

/-! ## Appending -/

theorem head_map {ε' : Type} {g : ε' → ε} {l : List ε'} :
    head f prev (l.map g) = head (f.comap g) prev l := by
  rw [head, head, List.getLast?_map, Option.map_map]
  rfl

@[simp] theorem head_nil : head f prev [] = prev := rfl

@[simp] theorem head_append_singleton (e : ε) : head f prev (es ++ [e]) = some (f.hash e) := by
  simp [head]

theorem head_cons (e : ε) : head f prev (e :: es) = head f (some (f.hash e)) es := by
  cases h : es.getLast? <;> simp [head, List.getLast?_cons, h]

theorem chained_append :
    Chained f prev (es ++ fs) ↔ Chained f prev es ∧ Chained f (head f prev es) fs := by
  induction es generalizing prev with
  | nil => simp [Chained]
  | cons e es ih => simp [Chained, ih, head_cons, and_assoc]

theorem chained_snoc {e : ε} : Chained f prev (es ++ [e]) ↔
    Chained f prev es ∧ f.link e = head f prev es ∧ f.derive e = f.hash e := by
  rw [chained_append]
  simp [Chained]

/-- A suffix of a chain is a chain from the link of its first entry. -/
theorem Chained.of_suffix (h : Chained f prev fs) (hsuffix : es <:+ fs) :
    Chained f (es.head?.bind f.link) es := by
  obtain ⟨before, rfl⟩ := hsuffix
  have hes := (chained_append.mp h).2
  cases es with
  | nil => trivial
  | cons e es => exact ⟨rfl, hes.2⟩

/-! ## What the last hash determines -/

/-- Entries of the two logs that carry the hash of their fields and agree on it
are equal. -/
def Commits (f : Format ε η) (es fs : List ε) : Prop :=
  ∀ a ∈ es, ∀ b ∈ fs, f.derive a = f.hash a → f.derive b = f.hash b → f.hash a = f.hash b → a = b

theorem suffix_or_suffix {prev' : Option η} (hes : Chained f prev es) (hfs : Chained f prev' fs)
    (hcommits : Commits f es fs) (hlast : es.getLast?.map f.hash = fs.getLast?.map f.hash) :
    es <:+ fs ∨ fs <:+ es := by
  induction es using List.reverseRecOn generalizing fs with
  | nil => exact .inl List.nil_suffix
  | append_singleton es a ih =>
      rcases List.eq_nil_or_concat' fs with rfl | ⟨fs, b, rfl⟩
      · exact .inr List.nil_suffix
      · obtain ⟨hinit, hlink, hseal⟩ := chained_snoc.mp hes
        obtain ⟨hinit', hlink', hseal'⟩ := chained_snoc.mp hfs
        obtain rfl : a = b := hcommits a (by simp) b (by simp) hseal hseal' (by simpa using hlast)
        rw [List.suffix_append_self_iff, List.suffix_append_self_iff]
        have hheads : head f prev es = head f prev' fs := hlink.symm.trans hlink'
        rcases List.eq_nil_or_concat' es with rfl | ⟨es', c, rfl⟩
        · exact .inl List.nil_suffix
        · rcases List.eq_nil_or_concat' fs with rfl | ⟨fs', d, rfl⟩
          · exact .inr List.nil_suffix
          · refine ih hinit hinit' (fun x hx y hy => hcommits x (List.mem_append_left _ hx) y
              (List.mem_append_left _ hy)) ?_
            simpa using hheads

/-- A nonempty chain from nothing is no proper suffix of another one. -/
theorem eq_of_suffix (hes : Chained f none es) (hfs : Chained f none fs) (hne : es ≠ [])
    (hsuffix : es <:+ fs) : es = fs := by
  obtain ⟨before, rfl⟩ := hsuffix
  obtain ⟨e, es, rfl⟩ := List.exists_cons_of_ne_nil hne
  have hhead : head f none before = none :=
    ((chained_append.mp hfs).2.1).symm.trans hes.1
  rcases List.eq_nil_or_concat' before with rfl | ⟨before, b, rfl⟩
  · rfl
  · simp at hhead

theorem eq_of_getLast? (hes : Chained f none es) (hfs : Chained f none fs)
    (hcommits : Commits f es fs) (hlast : es.getLast?.map f.hash = fs.getLast?.map f.hash) :
    es = fs := by
  by_cases hnil : es = []
  · subst hnil
    simpa [eq_comm] using hlast
  · have hnil' : fs ≠ [] := by
      rintro rfl
      simp [hnil] at hlast
    rcases suffix_or_suffix hes hfs hcommits hlast with h | h
    · exact eq_of_suffix hes hfs hnil h
    · exact (eq_of_suffix hfs hes hnil' h).symm

/-- Nothing in a chain links to its end. -/
theorem link_ne_head (h : Chained f none es) (hcommits : Commits f es es) {e : ε} (he : e ∈ es) :
    f.link e ≠ head f none es := by
  intro hlink
  obtain ⟨before, after, rfl⟩ := List.append_of_mem he
  have hbefore := chained_append.mp h
  have heq : before = before ++ e :: after := by
    refine eq_of_getLast? hbefore.1 h (fun a ha b hb => hcommits a (List.mem_append_left _ ha) b hb) ?_
    have hheads := hbefore.2.1.symm.trans hlink
    rwa [head, head, Option.or_none, Option.or_none] at hheads
  have hlen := congrArg List.length heq
  rw [List.length_append, List.length_cons] at hlen
  omega

end HashChain
