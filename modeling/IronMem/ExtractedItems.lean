import IronMem.LocalExtractor

/-!
# What local extraction emits

The lists are what the offers of the observations leave in a bounded, duplicate-free list.
Commands and paths are searched for secrets with the case ignored, sentences are not.

The extractor is a loop over the observations with two lists. What an observation offers does
not depend on the lists, only whether an offer is taken does; so a list is made of the items
offered for it (`itemsFor`), and `Holds` says so of both lists after the observations gone
through. The loop ends early when the two together have as many items as one may have, which
`Reached` accounts for by the number of different items offered.

The promise (`Guarantee`) is kept exactly where every sentence with a secret comes late: when
the lists are full already it is offered in vain (`noSecrets_iff`). Lines that are explicit
markers are the user's own and are left out of the condition.
-/

namespace IronMem.LocalExtractor

open Collected

/-! ## Parts of texts

A secret is found as a part of a text. What an offer leaves in its list is cut out of the text
of an observation, so that secrets of the item are secrets of the text. -/

theorem dropWhile_isInfix (p : Char → Bool) (cs : List Char) : cs.dropWhile p <:+: cs :=
  (List.dropWhile_suffix p).isInfix

theorem trimEndMatches_isInfix (p : Char → Bool) (cs : List Char) : trimEndMatches p cs <:+: cs := by
  rw [trimEndMatches, ← List.reverse_infix, List.reverse_reverse]
  exact dropWhile_isInfix p cs.reverse

theorem trimChars_isInfix (cs : List Char) : trimChars cs <:+: cs :=
  (trimEndMatches_isInfix isWhitespace _).trans (dropWhile_isInfix isWhitespace cs)

theorem tidied_isInfix (value : String) : (tidied value).toList <:+: value.toList := by
  rw [tidied, trim, String.toList_ofList, String.toList_ofList, trim, String.toList_ofList]
  exact ((trimChars_isInfix _).trans (trimEndMatches_isInfix _ _)).trans (trimChars_isInfix _)

theorem dropWhile_eq_self {p : Char → Bool} {cs : List Char} (h : ∀ c, cs.head? = some c → p c = false) :
    cs.dropWhile p = cs := by
  cases cs with
  | nil => rfl
  | cons c cs => rw [List.dropWhile_cons_of_neg (by rw [h c rfl]; decide)]

theorem trimChars_trimChars (cs : List Char) : trimChars (trimChars cs) = trimChars cs := by
  have hhead : ∀ (l : List Char) (c : Char), (l.dropWhile isWhitespace).head? = some c →
      isWhitespace c = false := fun l c hc => by
    have hnot := List.head?_dropWhile_not isWhitespace l
    rw [hc] at hnot
    simpa using hnot
  have hfront : (trimChars cs).dropWhile isWhitespace = trimChars cs := by
    refine dropWhile_eq_self fun c hc => hhead cs c ?_
    have hpre : trimChars cs <+: cs.dropWhile isWhitespace := by
      rw [trimChars, ← List.reverse_suffix, List.reverse_reverse]
      exact List.dropWhile_suffix _
    obtain ⟨rest, hrest⟩ := hpre
    rw [← hrest, List.head?_append, hc, Option.some_or]
  have hback : (trimChars cs).reverse.dropWhile isWhitespace = (trimChars cs).reverse := by
    refine dropWhile_eq_self fun c hc => ?_
    rw [trimChars, List.reverse_reverse] at hc
    exact hhead _ c hc
  rw [trimChars, hfront, hback, List.reverse_reverse]

theorem trim_tidied (value : String) : trim (tidied value) = tidied value := by
  rw [tidied, trim, trim, String.toList_ofList, trimChars_trimChars]

/-- A word without the separator lies on one side of it. -/
theorem infix_of_infix_separator {c : Char} {word a b : List Char} (hc : c ∉ word)
    (h : word <:+: a ++ c :: b) : word <:+: a ∨ word <:+: b := by
  obtain ⟨s, t, heq⟩ := h
  rw [List.append_assoc] at heq
  rcases List.append_eq_append_iff.mp heq with ⟨a', rfl, hright⟩ | ⟨s', rfl, hright⟩
  · -- the word begins before the separator
    rcases List.append_eq_append_iff.mp hright with ⟨t', rfl, -⟩ | ⟨w, rfl, hrest⟩
    · exact .inl ⟨s, t', by simp⟩
    · rcases w with _ | ⟨d, w⟩
      · exact .inl ⟨s, [], by simp⟩
      · rw [List.cons_append, List.cons.injEq] at hrest
        exact absurd (List.mem_append_right a' (hrest.1 ▸ List.mem_cons_self)) hc
  · rcases s' with _ | ⟨d, s'⟩
    · rcases word with _ | ⟨d, word⟩
      · exact .inl List.nil_infix
      · rw [List.nil_append, List.cons_append, List.cons.injEq] at hright
        exact absurd (hright.1 ▸ List.mem_cons_self) hc
    · rw [List.cons_append, List.cons.injEq] at hright
      exact .inr ⟨s', t, by rw [hright.2, List.append_assoc]⟩

/-! ## Secrets -/

def secretSignals : List String := ["api_key", "token=", "password=", "secret="]

theorem containsSecretSignal_iff {text : String} : containsSecretSignal text = true ↔
    ∃ signal ∈ secretSignals, signal.toList <:+: text.toList.map lowerAscii := by
  rw [containsSecretSignal, List.any_eq_true]
  refine exists_congr fun signal => and_congr_right fun _ => ?_
  rw [contains, decide_eq_true_eq, toAsciiLowercase, String.toList_ofList]

theorem containsSecretSignal_of_isInfix {part text : String} (hpart : part.toList <:+: text.toList)
    (h : containsSecretSignal part = true) : containsSecretSignal text = true := by
  obtain ⟨signal, hsignal, hin⟩ := containsSecretSignal_iff.mp h
  exact containsSecretSignal_iff.mpr ⟨signal, hsignal, hin.trans (hpart.map lowerAscii)⟩

/-- Texts that differ in case only tell the same secrets. -/
theorem containsSecretSignal_congr {a b : String} (h : toAsciiLowercase a = toAsciiLowercase b) :
    containsSecretSignal a = containsSecretSignal b := by
  rw [containsSecretSignal, h, containsSecretSignal]

/-- Between backticks a secret is a secret of the text between them. -/
theorem containsSecretSignal_quoted {lead tail text : String} (before after : String)
    (hlead : lead = before ++ "\x60") (htail : tail = "\x60" ++ after)
    (hbefore : containsSecretSignal before = false) (hafter : containsSecretSignal after = false)
    (htext : containsSecretSignal text = false) : containsSecretSignal (lead ++ text ++ tail) = false := by
  rw [Bool.eq_false_iff] at hbefore hafter htext ⊢
  intro h
  obtain ⟨signal, hsignal, hin⟩ := containsSecretSignal_iff.mp h
  have htick : '\x60' ∉ signal.toList := by
    have hall : ∀ s ∈ secretSignals, '\x60' ∉ s.toList := by decide
    exact hall signal hsignal
  have hshape : (lead ++ text ++ tail).toList.map lowerAscii
      = before.toList.map lowerAscii ++ '\x60' ::
        (text.toList.map lowerAscii ++ '\x60' :: after.toList.map lowerAscii) := by
    rw [hlead, htail]
    simp only [String.toList_append, List.map_append, List.append_assoc]
    rfl
  rw [hshape] at hin
  rcases infix_of_infix_separator htick hin with hin | hin
  · exact hbefore (containsSecretSignal_iff.mpr ⟨signal, hsignal, hin⟩)
  · rcases infix_of_infix_separator htick hin with hin | hin
    · exact htext (containsSecretSignal_iff.mpr ⟨signal, hsignal, hin⟩)
    · exact hafter (containsSecretSignal_iff.mpr ⟨signal, hsignal, hin⟩)

/-! ## Pushing

Every list takes items up to its bound, each once. The lists do not look at one another, so that
the offers for one list determine what it holds. -/

/-- The value that an offer leaves in its list, if it is not there yet. -/
def Offer.item (o : Offer) : Option String :=
  if (tidied o.value).isEmpty || decide (MAX_ITEM_BYTES < byteLen (tidied o.value)) then none
  else some (tidied o.value)

/-- The items that offers have for a list. -/
def itemsFor (slot : Slot) (os : List Offer) : List String :=
  (os.filter fun o => o.slot == slot).filterMap Offer.item

theorem itemsFor_append (slot : Slot) (a b : List Offer) :
    itemsFor slot (a ++ b) = itemsFor slot a ++ itemsFor slot b := by
  rw [itemsFor, List.filter_append, List.filterMap_append]
  rfl

def LocalExtraction.list (e : LocalExtraction) : Slot → List String
  | .fact => e.facts.items
  | .procedure => e.procedures.items

theorem Items.pushUnique_items (t : Items) (o : Offer) :
    (t.pushUnique o.value).items = o.item.toList.foldl (push toAsciiLowercase MAX_ITEMS) t.items := by
  unfold Items.pushUnique Offer.item
  cases hbad : (tidied o.value).isEmpty || decide (MAX_ITEM_BYTES < byteLen (tidied o.value)) with
  | true => rw [Bool.true_or, Bool.true_or, if_pos rfl, if_pos rfl]; rfl
  | false =>
      rw [Bool.false_or, if_neg (by decide : ¬ false = true)]
      show _ = push toAsciiLowercase MAX_ITEMS t.items (tidied o.value)
      rw [push, ← t.tracks]
      by_cases hkeep : MAX_ITEMS ≤ t.items.length ∨ toAsciiLowercase (tidied o.value) ∈ t.seen
      · rw [if_pos hkeep, if_pos]
        rw [Bool.or_eq_true, decide_eq_true_eq, List.contains_iff_mem]
        exact hkeep
      · rw [if_neg hkeep, if_neg]
        rwa [Bool.or_eq_true, decide_eq_true_eq, List.contains_iff_mem]

theorem itemsFor_singleton (slot : Slot) (o : Offer) :
    itemsFor slot [o] = if o.slot = slot then o.item.toList else [] := by
  unfold itemsFor
  by_cases h : o.slot = slot
  · rw [if_pos h, List.filter_cons_of_pos (by simp [h]), List.filter_nil]
    cases hitem : o.item <;> simp [hitem]
  · rw [if_neg h, List.filter_cons_of_neg (by simp [h]), List.filter_nil, List.filterMap_nil]

theorem push_list (e : LocalExtraction) (o : Offer) (slot : Slot) :
    (e.push o).list slot = (itemsFor slot [o]).foldl (Collected.push toAsciiLowercase MAX_ITEMS) (e.list slot) := by
  obtain ⟨facts, procedures⟩ := e
  have hfacts := facts.pushUnique_items o
  have hprocedures := procedures.pushUnique_items o
  rw [itemsFor_singleton]
  unfold LocalExtraction.push
  generalize facts.pushUnique o.value = facts' at hfacts ⊢
  generalize procedures.pushUnique o.value = procedures' at hprocedures ⊢
  cases o.slot <;> cases slot <;> simp only [LocalExtraction.list, if_true, reduceCtorEq, if_false,
    List.foldl_nil, hfacts, hprocedures]

/-- Offers only add their items. -/
theorem foldl_push_list (os : List Offer) (e : LocalExtraction) (slot : Slot) :
    (os.foldl LocalExtraction.push e).list slot
      = (itemsFor slot os).foldl (Collected.push toAsciiLowercase MAX_ITEMS) (e.list slot) := by
  induction os generalizing e with
  | nil => rfl
  | cons o os ih =>
      rw [List.foldl_cons, ih, push_list, ← List.foldl_append, ← itemsFor_append, List.singleton_append]

/-! ## The loop

The loop stops when the two lists have `MAX_ITEMS` items between them. What comes later is not
looked at, and `Reached` says how far the loop got by the items offered before. -/

/-- The items that observations have for a list. -/
def offered (slot : Slot) (observations : List Observation) : List String :=
  itemsFor slot (observations.flatMap offers)

/-- The number of different items that observations have for the two lists. -/
def offeredTotal (observations : List Observation) : Nat :=
  distinct toAsciiLowercase (offered .fact observations) +
    distinct toAsciiLowercase (offered .procedure observations)

theorem offered_append (slot : Slot) (a b : List Observation) :
    offered slot (a ++ b) = offered slot a ++ offered slot b := by
  rw [offered, List.flatMap_append, itemsFor_append]
  rfl

theorem distinct_append_le (a b : List String) :
    distinct toAsciiLowercase a ≤ distinct toAsciiLowercase (a ++ b) := by
  unfold distinct
  refine Finset.card_le_card fun k hk => ?_
  rw [List.mem_toFinset] at hk ⊢
  rw [List.map_append]
  exact List.mem_append_left _ hk

theorem offeredTotal_mono (a b : List Observation) : offeredTotal a ≤ offeredTotal (a ++ b) := by
  have hfacts := distinct_append_le (offered .fact a) (offered .fact b)
  have hprocedures := distinct_append_le (offered .procedure a) (offered .procedure b)
  rw [offeredTotal, offeredTotal, offered_append, offered_append]
  omega

/-- The lists hold the items of these observations. -/
def Holds (e : LocalExtraction) (observations : List Observation) : Prop :=
  ∀ slot, e.list slot = collect toAsciiLowercase MAX_ITEMS (offered slot observations)

theorem Holds.full_iff {e : LocalExtraction} {observations : List Observation} (h : Holds e observations) :
    MAX_ITEMS ≤ e.facts.items.length + e.procedures.items.length ↔ MAX_ITEMS ≤ offeredTotal observations := by
  have hfacts : e.facts.items = _ := h .fact
  have hprocedures : e.procedures.items = _ := h .procedure
  rw [hfacts, hprocedures, length_collect, length_collect, offeredTotal]
  omega

theorem Holds.next {e : LocalExtraction} {observations : List Observation} (h : Holds e observations)
    (o : Observation) : Holds ((offers o).foldl LocalExtraction.push e) (observations ++ [o]) := by
  intro slot
  rw [foldl_push_list, h slot, offered_append, collect, collect, List.foldl_append]
  congr 1
  rw [offered, List.flatMap_singleton]

/-- How many observations the loop goes through. -/
structure Reached (observations : List Observation) (e : LocalExtraction) (n : Nat) : Prop where
  le : n ≤ observations.length
  holds : Holds e (observations.take n)
  open_before : ∀ i < n, offeredTotal (observations.take i) < MAX_ITEMS
  stopped : n = observations.length ∨ MAX_ITEMS ≤ offeredTotal (observations.take n)

theorem extractFrom_reached {rest before : List Observation} {e : LocalExtraction} (h : Holds e before)
    (hopen : ∀ i ≤ before.length, offeredTotal (before.take i) < MAX_ITEMS) :
    ∃ n, Reached (before ++ rest) (extractFrom e rest) n := by
  induction rest generalizing before e with
  | nil =>
      refine ⟨before.length, ?_, ?_, fun i hi => ?_, .inl ?_⟩
      · rw [List.append_nil]
      · rwa [List.append_nil, List.take_length]
      · rw [List.append_nil]
        exact hopen i hi.le
      · rw [List.append_nil]
  | cons o rest ih =>
      have hnext := h.next o
      have hfull := hnext.full_iff
      rw [extractFrom]
      have hopen' : ∀ i < (before ++ [o]).length,
          offeredTotal ((before ++ [o]).take i) < MAX_ITEMS := fun i hi => by
        rw [List.length_append, List.length_singleton] at hi
        rw [List.take_append_of_le_length (by omega)]
        exact hopen i (by omega)
      have hsplit : before ++ o :: rest = before ++ [o] ++ rest := by simp
      rw [hsplit]
      split
      · next hstop =>
          have htake : (before ++ [o] ++ rest).take (before ++ [o]).length = before ++ [o] :=
            List.take_left
          refine ⟨(before ++ [o]).length, by simp only [List.length_append]; omega, ?_,
            fun i hi => ?_, .inr ?_⟩
          · rwa [htake]
          · rw [List.take_append_of_le_length hi.le]
            exact hopen' i hi
          · rw [htake]
            exact hfull.mp hstop
      · next hgo =>
          refine ih hnext fun i hi => ?_
          rcases Nat.lt_or_eq_of_le hi with hlt | rfl
          · exact hopen' i hlt
          · rw [List.take_length]
            exact Nat.not_le.mp fun hle => hgo (hfull.mpr hle)

theorem extract_reached (observations : List Observation) :
    ∃ n, Reached observations (extract observations) n := by
  have hstart : Holds {} [] := by
    intro slot
    cases slot <;> rfl
  refine extractFrom_reached hstart fun i _ => ?_
  rw [List.take_nil]
  decide

/-! ## Which offers tell secrets

Commands and paths are checked with the case ignored before they are offered, sentences are
checked as they are. Explicit markers are not checked. -/

/-- The item of an offer is part of what was offered. -/
theorem item_secret {o : Offer} {v : String} (h : o.item = some v)
    (hsecret : containsSecretSignal o.value = false) : containsSecretSignal v = false := by
  unfold Offer.item at h
  split at h
  · cases h
  · obtain rfl := Option.some.inj h
    rw [Bool.eq_false_iff] at hsecret ⊢
    exact fun hv => hsecret (containsSecretSignal_of_isInfix (tidied_isInfix o.value) hv)

theorem mem_itemsFor {slot : Slot} {os : List Offer} {v : String} (h : v ∈ itemsFor slot os) :
    ∃ o ∈ os, o.item = some v := by
  obtain ⟨o, ho, hv⟩ := List.mem_filterMap.mp h
  exact ⟨o, (List.mem_filter.mp ho).1, hv⟩

theorem cleanCommand_secret {input command : String} (h : cleanCommand input = some command) :
    containsSecretSignal command = false := by
  obtain ⟨line, -, hline⟩ := Option.bind_eq_some_iff.mp h
  dsimp only at hline
  split at hline
  · cases hline
  · next hok =>
      obtain rfl := Option.some.inj hline
      simp only [Bool.or_eq_true, not_or, Bool.not_eq_true] at hok
      exact hok.2

theorem extractPath_secret {input path : String} (h : extractPath input = some path) :
    containsSecretSignal path = false := by
  have hpath := List.find?_some h
  simp only [isPathLike, Bool.and_eq_true, Bool.not_eq_true'] at hpath
  exact hpath.2

theorem commandOffers_secret {command : String} (h : containsSecretSignal command = false) {o : Offer}
    (ho : o ∈ commandOffers command) : containsSecretSignal o.value = false := by
  rw [commandOffers, List.mem_cons] at ho
  rcases ho with rfl | ho
  · exact containsSecretSignal_quoted "Command " " completed successfully." rfl rfl
      (by decide +kernel) (by decide +kernel) h
  · split at ho
    · obtain rfl := List.mem_singleton.mp ho
      exact containsSecretSignal_quoted "Use " " to verify this project." rfl rfl
        (by decide +kernel) (by decide +kernel) h
    · exact absurd ho List.not_mem_nil

/-- Commands and paths that are offered tell no secrets. -/
theorem toolOffers_secret {o : Observation} {slot : Slot} {v : String}
    (h : v ∈ itemsFor slot (toolOffers o)) : containsSecretSignal v = false := by
  obtain ⟨offer, hoffer, hitem⟩ := mem_itemsFor h
  refine item_secret hitem ?_
  rw [toolOffers, List.mem_append] at hoffer
  rcases hoffer with hoffer | hoffer
  · split at hoffer
    · cases hclean : o.input.bind cleanCommand with
      | none =>
          rw [hclean] at hoffer
          exact absurd hoffer List.not_mem_nil
      | some command =>
          rw [hclean] at hoffer
          obtain ⟨input, -, hinput⟩ := Option.bind_eq_some_iff.mp hclean
          exact commandOffers_secret (cleanCommand_secret hinput) hoffer
    · exact absurd hoffer List.not_mem_nil
  · split at hoffer
    · rw [Option.mem_toList, Option.map_eq_some_iff] at hoffer
      obtain ⟨path, hpath, rfl⟩ := hoffer
      obtain ⟨input, -, hinput⟩ := Option.bind_eq_some_iff.mp hpath
      exact containsSecretSignal_quoted "Modified " " during the session." rfl rfl
        (by decide +kernel) (by decide +kernel) (extractPath_secret hinput)
    · exact absurd hoffer List.not_mem_nil

/-- No line of the observations is an explicit marker. -/
def NoMarkers (observations : List Observation) : Prop :=
  ∀ o ∈ observations, ∀ text ∈ o.input.toList ++ o.output.toList, ∀ line ∈ lines text,
    ∀ marker ∈ ["FACT:", "MEMORY:", "PROCEDURE:", "RULE:"],
      stripPrefixAsciiCase (markerLine line) marker = none

theorem markerOffers_eq_nil {observations : List Observation} (h : NoMarkers observations)
    {o : Observation} (ho : o ∈ observations) : markerOffers o = [] := by
  refine List.flatMap_eq_nil_iff.mpr fun text htext => List.flatMap_eq_nil_iff.mpr fun line hline => ?_
  have hnone := h o ho text htext line hline
  simp only [List.forall_mem_cons] at hnone
  obtain ⟨hfact, hmemory, hprocedure, hrule, -⟩ := hnone
  simp [lineMarkers, hfact, hmemory, hprocedure, hrule]

/-! ## The guarantee -/

/-- What extraction promises of a list of observations. -/
structure Guarantee (observations : List Observation) : Prop where
  noSecrets : NoMarkers observations → ∀ slot, ∀ item ∈ (extract observations).list slot,
    containsSecretSignal item = false
  bounded : ∀ slot, ((extract observations).list slot).length ≤ MAX_ITEMS
  shape : ∀ slot, ∀ item ∈ (extract observations).list slot,
    item ≠ "" ∧ byteLen item ≤ MAX_ITEM_BYTES ∧ trim item = item
  distinct : ∀ slot, (((extract observations).list slot).map toAsciiLowercase).Nodup
  prefixes : ∀ before, before <+: observations → ∀ slot,
    (extract before).list slot <+: (extract observations).list slot

/-- A sentence with a secret comes when the lists are full: behind observations that offered
96 different items, or behind 96 different items for its own list. -/
def SecretsLate (observations : List Observation) : Prop :=
  ∀ before o after, observations = before ++ o :: after → offeredTotal before < MAX_ITEMS →
    ∀ slot earlier item later, itemsFor slot (sentenceOffers o) = earlier ++ item :: later →
      containsSecretSignal item = true →
        MAX_ITEMS ≤ Collected.distinct toAsciiLowercase
          (offered slot before ++ itemsFor slot (toolOffers o) ++ earlier)

/-- An element of a `flatMap` is among the images of one element. -/
theorem flatMap_split {α β : Type} {f : α → List β} {l : List α} {before after : List β} {b : β}
    (h : l.flatMap f = before ++ b :: after) :
    ∃ pre a post b₁ b₂, l = pre ++ a :: post ∧ f a = b₁ ++ b :: b₂ ∧ before = pre.flatMap f ++ b₁ := by
  induction l generalizing before with
  | nil => simp at h
  | cons a l ih =>
      rw [List.flatMap_cons] at h
      rcases List.append_eq_append_iff.mp h with ⟨mid, rfl, hrest⟩ | ⟨mid, hfirst, hrest⟩
      · obtain ⟨pre, a', post, b₁, b₂, rfl, hb, rfl⟩ := ih hrest
        exact ⟨a :: pre, a', post, b₁, b₂, rfl, hb, by rw [List.flatMap_cons, List.append_assoc]⟩
      · rcases mid with _ | ⟨b', mid⟩
        · rw [List.nil_append] at hrest
          obtain ⟨pre, a', post, b₁, b₂, rfl, hb, hnil⟩ := @ih [] hrest.symm
          refine ⟨a :: pre, a', post, b₁, b₂, rfl, hb, ?_⟩
          rw [List.append_nil] at hfirst
          rw [List.flatMap_cons, List.append_assoc, ← hnil, List.append_nil, hfirst]
        · rw [List.cons_append, List.cons.injEq] at hrest
          exact ⟨[], a, l, before, mid, rfl, hrest.1 ▸ hfirst, rfl⟩

theorem offered_eq_flatMap (slot : Slot) (observations : List Observation) :
    offered slot observations = observations.flatMap fun o => itemsFor slot (offers o) := by
  induction observations with
  | nil => rfl
  | cons o rest ih =>
      have hsingle : offered slot [o] = itemsFor slot (offers o) := by
        rw [offered, List.flatMap_singleton]
      rw [← List.singleton_append, offered_append, ih, hsingle]
      rfl

/-- Without markers an observation has the items of its tool and of its sentences. -/
theorem itemsFor_offers {observations : List Observation} (h : NoMarkers observations) {o : Observation}
    (ho : o ∈ observations) (slot : Slot) : itemsFor slot (offers o)
      = itemsFor slot (toolOffers o) ++ itemsFor slot (sentenceOffers o) := by
  rw [offers, markerOffers_eq_nil h ho, List.nil_append, itemsFor_append]

theorem Reached.lt_of_open {observations before after : List Observation} {o : Observation}
    {e : LocalExtraction} {n : Nat} (h : Reached observations e n)
    (hsplit : observations = before ++ o :: after) (hopen : offeredTotal before < MAX_ITEMS) :
    observations.take n = before ++ o :: after.take (n - before.length - 1) := by
  have hn : before.length < n := by
    by_contra hle
    rw [Nat.not_lt] at hle
    rcases h.stopped with hall | hfull
    · rw [hall, hsplit, List.length_append, List.length_cons] at hle
      omega
    · have hmono := offeredTotal_mono (before.take n) (before.drop n)
      rw [List.take_append_drop] at hmono
      rw [hsplit, List.take_append_of_le_length hle] at hfull
      omega
  rw [hsplit, List.take_append, List.take_of_length_le hn.le]
  congr 1
  obtain ⟨k, hk⟩ : ∃ k, n - before.length = k + 1 := ⟨n - before.length - 1, by omega⟩
  rw [hk, List.take_succ_cons, Nat.add_sub_cancel]

/-- Without markers no secret is emitted exactly where every sentence with one comes late. -/
theorem noSecrets_iff {observations : List Observation} (h : NoMarkers observations) :
    (∀ slot, ∀ item ∈ (extract observations).list slot, containsSecretSignal item = false) ↔
      SecretsLate observations := by
  obtain ⟨n, hreached⟩ := extract_reached observations
  have hleak : ∀ slot, (∃ item ∈ (extract observations).list slot, containsSecretSignal item = true) ↔
      ∃ before item after, offered slot (observations.take n) = before ++ item :: after ∧
        containsSecretSignal item = true ∧
          Collected.distinct toAsciiLowercase before < MAX_ITEMS := fun slot => by
    rw [hreached.holds slot]
    exact exists_mem_collect_iff fun a b hsame ha => (containsSecretSignal_congr hsame) ▸ ha
  constructor
  · intro hnone before o after hsplit hopen slot earlier item later hitems hsecret
    by_contra hroom
    have htake := hreached.lt_of_open hsplit hopen
    have hmem : o ∈ observations := hsplit ▸ List.mem_append_right _ List.mem_cons_self
    obtain ⟨item', hitem', hsecret'⟩ := (hleak slot).mpr
      ⟨offered slot before ++ itemsFor slot (toolOffers o) ++ earlier, item,
        later ++ offered slot (after.take (n - before.length - 1)), by
          rw [htake, ← List.singleton_append, offered_append, offered_append,
            offered_eq_flatMap slot [o], List.flatMap_singleton, itemsFor_offers h hmem, hitems]
          simp only [List.append_assoc, List.cons_append], hsecret, Nat.not_le.mp hroom⟩
    rw [hnone slot item' hitem'] at hsecret'
    exact absurd hsecret' (by decide)
  · intro hlate slot item hitem
    by_contra hsecret
    obtain ⟨before', item', after', hoffered, hsecret', hroom⟩ :=
      (hleak slot).mp ⟨item, hitem, by simpa using hsecret⟩
    rw [offered_eq_flatMap] at hoffered
    obtain ⟨pre, o, post, b₁, b₂, htake, hitems, rfl⟩ := flatMap_split hoffered
    have hpre : observations = pre ++ o :: (post ++ observations.drop n) := by
      rw [← List.cons_append, ← List.append_assoc, ← htake, List.take_append_drop]
    have hmem : o ∈ observations := hpre ▸ List.mem_append_right _ List.mem_cons_self
    have hlen : pre.length < n := by
      have hcount := congrArg List.length htake
      rw [List.length_take, List.length_append, List.length_cons] at hcount
      omega
    have hopen : offeredTotal pre < MAX_ITEMS := by
      have hi := hreached.open_before pre.length hlen
      rwa [hpre, List.take_left] at hi
    rw [itemsFor_offers h hmem] at hitems
    obtain ⟨earlier, rfl, hsentences⟩ : ∃ earlier, b₁ = itemsFor slot (toolOffers o) ++ earlier ∧
        itemsFor slot (sentenceOffers o) = earlier ++ item' :: b₂ := by
      rcases List.append_eq_append_iff.mp hitems with ⟨earlier, hb, hrest⟩ | ⟨mid, htool, hrest⟩
      · exact ⟨earlier, hb, hrest⟩
      · rcases mid with _ | ⟨x, mid⟩
        · exact ⟨[], by rw [htool, List.append_nil, List.append_nil], hrest.symm⟩
        · rw [List.cons_append, List.cons.injEq] at hrest
          have hoffered : item' ∈ itemsFor slot (toolOffers o) := by
            rw [htool]
            exact List.mem_append_right _ (hrest.1 ▸ List.mem_cons_self)
          have htells := toolOffers_secret hoffered
          rw [htells] at hsecret'
          exact absurd hsecret' (by decide)
    have hfull := hlate pre o _ hpre hopen slot earlier item' b₂ hsentences hsecret'
    rw [offered_eq_flatMap, List.append_assoc] at hfull
    exact absurd hroom (Nat.not_lt.mpr hfull)

theorem offered_shape {slot : Slot} {observations : List Observation} {item : String}
    (h : item ∈ offered slot observations) :
    item ≠ "" ∧ byteLen item ≤ MAX_ITEM_BYTES ∧ trim item = item := by
  obtain ⟨o, -, hitem⟩ := mem_itemsFor h
  unfold Offer.item at hitem
  split at hitem
  · cases hitem
  · next hok =>
      obtain rfl := Option.some.inj hitem
      rw [Bool.or_eq_true, not_or, decide_eq_true_eq, Nat.not_lt] at hok
      exact ⟨fun hempty => hok.1 (String.isEmpty_iff.mpr hempty), hok.2, trim_tidied o.value⟩

/-- More observations only add items. -/
theorem extract_isPrefix {before observations : List Observation} (h : before <+: observations)
    (slot : Slot) : (extract before).list slot <+: (extract observations).list slot := by
  obtain ⟨rest, rfl⟩ := h
  obtain ⟨m, hm⟩ := extract_reached before
  obtain ⟨n, hn⟩ := extract_reached (before ++ rest)
  have hle : m ≤ n := by
    by_contra hlt
    rw [Nat.not_le] at hlt
    have hshort : n ≤ before.length := hlt.le.trans hm.le
    have hopen := hm.open_before n hlt
    have hstop := hn.stopped
    rw [List.take_append_of_le_length hshort, List.length_append] at hstop
    have := hm.le
    omega
  have hpart : (before ++ rest).take m = before.take m := List.take_append_of_le_length hm.le
  have hgrow : offered slot ((before ++ rest).take n)
      = offered slot (before.take m) ++ offered slot (((before ++ rest).take n).drop m) := by
    have hcut : ((before ++ rest).take n).take m = before.take m := by
      rw [List.take_take, Nat.min_eq_left hle, hpart]
    rw [← offered_append, ← hcut, List.take_append_drop]
  rw [hm.holds slot, hn.holds slot, hgrow]
  exact collect_isPrefix _ _

/-- Extraction keeps its promise exactly where, in a list without markers, every sentence
with a secret comes when the lists are full. -/
theorem extract_guarantee_iff (observations : List Observation) :
    Guarantee observations ↔ (NoMarkers observations → SecretsLate observations) := by
  obtain ⟨n, hreached⟩ := extract_reached observations
  have htidy := fun slot => collect_tidy toAsciiLowercase MAX_ITEMS (offered slot (observations.take n))
  constructor
  · exact fun h hmarkers => (noSecrets_iff hmarkers).mp (h.noSecrets hmarkers)
  · intro h
    refine ⟨fun hmarkers => (noSecrets_iff hmarkers).mpr (h hmarkers), fun slot => ?_,
      fun slot item hitem => ?_, fun slot => ?_, fun before hbefore slot => extract_isPrefix hbefore slot⟩
    · rw [hreached.holds slot]
      exact (htidy slot).bounded
    · rw [hreached.holds slot] at hitem
      exact offered_shape ((htidy slot).subset hitem)
    · rw [hreached.holds slot]
      exact (htidy slot).nodup

/-- A progress note with a token in capitals. -/
def tokenNote : Observation where
  id := 1
  tool := "TaskUpdate"
  input := some "Login was verified with TOKEN=abc"
  output := none

theorem extract_tells_token : ¬ Guarantee [tokenNote] := by
  intro h
  have hmarkers : NoMarkers [tokenNote] := by
    have hall : ([tokenNote].all fun o => (o.input.toList ++ o.output.toList).all fun text =>
        (lines text).all fun line => ["FACT:", "MEMORY:", "PROCEDURE:", "RULE:"].all fun marker =>
          (stripPrefixAsciiCase (markerLine line) marker).isNone) = true := by
      decide +kernel
    simp only [List.all_eq_true, Option.isNone_iff_eq_none] at hall
    exact hall
  have htoken := h.noSecrets hmarkers .fact "Login was verified with TOKEN=abc" (by decide +kernel)
  exact absurd htoken (by decide +kernel)

end IronMem.LocalExtractor
