import Mathlib.Algebra.BigOperators.Group.Finset.Basic
import E2Guardian.PhraseSearch
import E2Guardian.TimedLists
import E2Guardian.Totals

/- checkphrase as a whole, search and scoring, on a list with time limits and on the list of the
   lines that are in time. Lines with one text are merged when the graph is built, and the
   time of the line that is kept is looked at only when the phrases are scored. -/
namespace GuardianTimedVerdicts
open GuardianString GuardianTime GuardianPhraseList GuardianPhraseGraph GuardianPhraseSearch
open GuardianScoring GuardianTimedLists QuickSearch OrderedMap MachineInts

def checkphrase (s : Settings) (limit : Int) (searchterms : Bool) (filter : Verdict) (now : Clock)
    (g : PhraseGraph) (file : Str) (filelen : Nat) (cat : Int) : Option Verdict :=
  match graphSearch g [] file filelen with
  | none => none
  | some (_, found) => scorePhrases s limit searchterms filter now g.list found cat

/- The line that the graph keeps for a text. -/
def kept (g : PhraseGraph) (w : Str) : Option PhraseItem :=
  ((entries g).find? fun x => getItemAtInt g.list x == w).bind fun x => g.list.items[x]?

def single (now : Clock) (g : PhraseGraph) (type : Int) (w : Str) : Option PhraseItem :=
  (kept g w).filter fun item => checkTimeAt now g.list item && decide (item.type = type)

def hidden (now : Clock) (g : PhraseGraph) (w : Str) : Bool :=
  (kept g w).any fun item => !checkTimeAt now g.list item

/- Facts of every loaded list. -/
theorem step_items_ok {l : PhraseList} (ok : ∀ item ∈ l.items, item.text ≠ [] ∧ Kind item) (step : Step) :
    ∀ item ∈ (step.apply l).items, item.text ≠ [] ∧ Kind item := by
  cases step with
  | phrases line isexception catindex timeindex nlimit =>
    intro item member
    rw [Step.apply, line_items, List.mem_append] at member
    rcases member with old | new
    · exact ok item old
    · obtain ⟨text, stored, rfl⟩ := List.mem_map.mp new
      refine ⟨by simpa using (List.mem_filter.mp stored).2, ?_⟩
      have types := lineType_cases (lineWeighting line nlimit) isexception
      unfold Kind
      dsimp only
      split <;> omega
  | category lcat =>
    rw [Step.apply, getCategoryIndex_frame]
    exact ok
  | time tl => exact ok
  | merge foundindex i =>
    intro item member
    simp only [Step.apply, resolveCollision] at member
    split at member
    · rename_i found new there here
      rcases List.mem_or_eq_of_mem_set member with old | merged
      · exact ok item old
      · have foundOk := ok found (List.mem_of_getElem? there)
        have newOk := ok new (List.mem_of_getElem? here)
        rw [merged, takeOver_text]
        refine ⟨foundOk.1, ?_⟩
        unfold PhraseItem.takeOver
        split
        · exact newOk.2
        · exact foundOk.2
    · exact ok item member

theorem Loaded.items_ok {l : PhraseList} (loaded : Loaded l) :
    ∀ item ∈ l.items, item.text ≠ [] ∧ Kind item := by
  obtain ⟨steps, rfl⟩ := loaded
  induction steps using List.reverseRecOn with
  | nil =>
    intro item member
    cases member
  | append_singleton steps step ih =>
    rw [load_append]
    exact step_items_ok ih step

theorem storeSlow_loaded {st : PhraseList × List Nat} (loaded : Loaded st.1) (i : Nat) :
    Loaded (storeSlow st i).1 := by
  unfold storeSlow
  split
  · exact loaded
  · exact loaded.step (.merge _ i)

theorem foldl_storeSlow_loaded (order : List Nat) (st : PhraseList × List Nat) (loaded : Loaded st.1) :
    Loaded (order.foldl storeSlow st).1 := by
  induction order generalizing st with
  | nil => exact loaded
  | cons i order ih => exact ih _ (storeSlow_loaded loaded i)

theorem graphAdd_loaded {st st' : PhraseList × Links} {i : Nat} (loaded : Loaded st.1)
    (added : graphAdd st i = some st') : Loaded st'.1 := by
  obtain ⟨⟨root, clash⟩, -, rfl⟩ := Option.map_eq_some_iff.mp added
  cases clash with
  | none => exact loaded
  | some px => exact loaded.step (.merge px i)

theorem foldlM_graphAdd_loaded (order : List Nat) {st st' : PhraseList × Links} (loaded : Loaded st.1)
    (added : order.foldlM graphAdd st = some st') : Loaded st'.1 := by
  induction order generalizing st with
  | nil => exact (Option.some.inj added) ▸ loaded
  | cons i order ih =>
    rw [List.foldlM_cons] at added
    obtain ⟨st1, first, rest⟩ := Option.bind_eq_some_iff.mp added
    exact ih (graphAdd_loaded loaded first) rest

theorem makeGraph_loaded {fqs : Bool} {l : PhraseList} {g : PhraseGraph} (loaded : Loaded l)
    (made : makeGraph fqs l = some g) : Loaded g.list := by
  unfold makeGraph at made
  split at made
  · exact (Option.some.inj made) ▸ loaded
  · split at made
    · exact (Option.some.inj made) ▸ foldl_storeSlow_loaded _ (l, []) loaded
    · split at made
      · cases made
      · split at made
        · cases made
        · rename_i inserted
          have added := foldlM_graphAdd_loaded _ loaded inserted
          rw [moveSparse_eq] at made
          exact (Option.some.inj made) ▸ foldl_storeSlow_loaded _ _ added

theorem mem_texts_of_item {l : PhraseList} {item : PhraseItem} (member : item ∈ l.items) : item.text ∈ texts l :=
  List.mem_map.mpr ⟨item, member, rfl⟩

theorem storedPhrase_length (phrase : Str) : (storedPhrase phrase).length ≤ 127 := by
  unfold storedPhrase
  dsimp only
  split
  · rw [List.length_take]
    exact min_le_left _ _
  · omega

theorem step_texts_short {l : PhraseList} (short : ∀ w ∈ texts l, w.length ≤ 127) (step : Step) :
    ∀ w ∈ texts (step.apply l), w.length ≤ 127 := by
  cases step with
  | phrases line isexception catindex timeindex nlimit =>
    intro w listed
    obtain ⟨item, member, rfl⟩ := List.mem_map.mp listed
    rw [Step.apply, line_items, List.mem_append] at member
    rcases member with old | new
    · exact short item.text (mem_texts_of_item old)
    · obtain ⟨text, stored, rfl⟩ := List.mem_map.mp new
      obtain ⟨phrase, -, rfl⟩ := List.mem_map.mp (List.mem_filter.mp stored).1
      exact storedPhrase_length phrase
  | category lcat =>
    rw [Step.apply, getCategoryIndex_frame]
    exact short
  | time tl => exact short
  | merge foundindex i =>
    rw [Step.apply, resolveCollision_texts]
    exact short

theorem loaded_texts_short {l : PhraseList} (loaded : Loaded l) : ∀ w ∈ texts l, w.length ≤ 127 := by
  obtain ⟨steps, rfl⟩ := loaded
  induction steps using List.reverseRecOn with
  | nil =>
    intro w listed
    cases listed
  | append_singleton steps step ih =>
    rw [load_append]
    exact step_texts_short ih step

/- Which line is kept: one of the highest ranking lines with the text. -/
section Kept
variable {l : PhraseList} {g : PhraseGraph}

theorem find_entry (built : Built l g) {x : Nat} (entry : x ∈ entries g) :
    (entries g).find? (fun y => getItemAtInt g.list y == getItemAtInt l x) = some x := by
  cases search : (entries g).find? (fun y => getItemAtInt g.list y == getItemAtInt l x) with
  | none =>
    have different := List.find?_eq_none.mp search x entry
    simp [built.textOf] at different
  | some y =>
    have same := List.find?_some search
    rw [built.textOf, beq_iff_eq] at same
    rw [built.merged.eq_of_text (List.mem_of_find?_eq_some search) entry same]

theorem kept_entry (built : Built l g) {x : Nat} (entry : x ∈ entries g) :
    kept g (getItemAtInt l x) = g.list.items[x]? := by
  rw [kept, find_entry built entry]
  rfl

theorem kept_of_text (built : Built l g) {w : Str} (listed : w ∈ texts l) : ∃ item, kept g w = some item := by
  obtain ⟨i, inside, rfl⟩ := mem_texts_iff.mp listed
  obtain ⟨x, entry, text⟩ := built.merged.covered i (List.mem_range.mpr inside)
  obtain ⟨item, there⟩ := built.merged.item entry
  exact ⟨item, by rw [← text, kept_entry built entry, there]⟩

theorem kept_spec (built : Built l g) (typed : Typed l) {w : Str} {item : PhraseItem}
    (here : kept g w = some item) :
    item ∈ l.items ∧ item.text = w ∧ ∀ other ∈ l.items, other.text = w → AtMost other item := by
  obtain ⟨x, search, there⟩ := Option.bind_eq_some_iff.mp here
  have entry := List.mem_of_find?_eq_some search
  have text := List.find?_some search
  rw [built.textOf, beq_iff_eq] at text
  obtain ⟨m, line, from_⟩ := built.merged.origin x entry
  refine ⟨List.mem_of_getElem? (from_ ▸ there), (built.merged.text_eq there).trans text, ?_⟩
  intro other member sameText
  obtain ⟨k, otherThere⟩ := List.mem_iff_getElem?.mp member
  have inside : k < l.items.length := (List.getElem?_eq_some_iff.mp otherThere).1
  refine built.merged.best typed x entry k (List.mem_range.mpr inside) ?_ other item otherThere there
  rw [text, ← sameText, getItemAtInt, otherThere]
  rfl

theorem built_check (built : Built l g) (now : Clock) : checkTimeAtD now g.list = checkTimeAtD now l := by
  apply check_congr
  · rw [built.merged.frame]
  · rw [built.merged.frame]

end Kept

theorem same_rank {a b : PhraseItem} (kindA : Kind a) (kindB : Kind b) (up : AtMost a b) (down : AtMost b a) :
    (∀ type, type = -1 ∨ type = 0 ∨ type = 1 → (a.type = type ↔ b.type = type)) ∧
      (a.type = 1 → a.weight = b.weight) := by
  unfold AtMost level Kind at *
  grind

/- Both lists side by side. -/
section Pair
variable {now : Clock} {l lt : PhraseList} {g gt : PhraseGraph}

structure Pair (now : Clock) (l lt : PhraseList) (g gt : PhraseGraph) : Prop where
  filtered : Filtered now l lt
  built : Built l g
  builtPart : Built lt gt

theorem Pair.typed (pair : Pair now l lt g gt) : Typed l := fun item member =>
  (Loaded.items_ok pair.filtered.loaded item member).2

theorem Pair.typedPart (pair : Pair now l lt g gt) : Typed lt := fun item member =>
  (Loaded.items_ok pair.filtered.loadedPart item member).2

theorem Pair.check (pair : Pair now l lt g gt) (time : Int) :
    checkTimeAtD now g.list time = checkTimeAtD now l time ∧
      checkTimeAtD now gt.list time = checkTimeAtD now l time := by
  rw [built_check pair.built, built_check pair.builtPart, pair.filtered.check_eq]
  exact ⟨rfl, rfl⟩

theorem Pair.mem_part_iff (pair : Pair now l lt g gt) (item : PhraseItem) :
    item ∈ lt.items ↔ item ∈ l.items ∧ checkTimeAtD now l item.time = true := by
  rw [pair.filtered.items, List.mem_filter]
  rfl

theorem Pair.kept_part_in_time (pair : Pair now l lt g gt) {w : Str} {item : PhraseItem}
    (here : kept gt w = some item) : checkTimeAtD now l item.time = true :=
  ((pair.mem_part_iff item).mp (kept_spec pair.builtPart pair.typedPart here).1).2

theorem Pair.kept_none (pair : Pair now l lt g gt) {w : Str} (absent : kept g w = none) :
    kept gt w = none := by
  cases here : kept gt w with
  | none => rfl
  | some item =>
    obtain ⟨member, text, -⟩ := kept_spec pair.builtPart pair.typedPart here
    have listed := mem_texts_of_item ((pair.mem_part_iff item).mp member).1
    rw [text] at listed
    obtain ⟨other, there⟩ := kept_of_text pair.built listed
    rw [absent] at there
    cases there

/-- If the line kept of all is in time, the one kept of those in time is as good. -/
theorem Pair.kept_agree (pair : Pair now l lt g gt) {w : Str} {item : PhraseItem}
    (here : kept g w = some item) (time : checkTimeAtD now l item.time = true) :
    ∃ other, kept gt w = some other ∧
      (∀ type, type = -1 ∨ type = 0 ∨ type = 1 → (item.type = type ↔ other.type = type)) ∧
      (item.type = 1 → item.weight = other.weight) := by
  obtain ⟨member, text, best⟩ := kept_spec pair.built pair.typed here
  have memberPart := (pair.mem_part_iff item).mpr ⟨member, time⟩
  have listed := mem_texts_of_item memberPart
  rw [text] at listed
  obtain ⟨other, there⟩ := kept_of_text pair.builtPart listed
  obtain ⟨otherMember, otherText, otherBest⟩ := kept_spec pair.builtPart pair.typedPart there
  have otherListed := ((pair.mem_part_iff other).mp otherMember).1
  exact ⟨other, there, same_rank (pair.typed item member) (pair.typed other otherListed)
    (otherBest item memberPart text) (best other otherListed otherText)⟩

theorem single_of_hidden {w : Str} {type : Int} (isHidden : hidden now g w = true) :
    single now g type w = none := by
  unfold hidden at isHidden
  unfold single
  cases here : kept g w with
  | none => rfl
  | some item =>
    rw [here] at isHidden
    simp at isHidden
    simp [isHidden]

/-- A text that is not hidden counts the same in both lists. -/
theorem Pair.single_agree (pair : Pair now l lt g gt) {w : Str} (shown : hidden now g w = false) {type : Int}
    (kind : type = -1 ∨ type = 0 ∨ type = 1) :
    (single now g type w).isSome = (single now gt type w).isSome ∧
      (single now g 1 w).map PhraseItem.weight = (single now gt 1 w).map PhraseItem.weight := by
  unfold hidden at shown
  unfold single
  cases here : kept g w with
  | none => simp [pair.kept_none here]
  | some item =>
    rw [here] at shown
    simp only [Option.any_some, Bool.not_eq_false'] at shown
    rw [checkTimeAt, (pair.check _).1] at shown
    obtain ⟨other, there, types, weights⟩ := pair.kept_agree here shown
    have otherTime := pair.kept_part_in_time there
    have sameType := types type kind
    have weighted := types 1 (by simp)
    rw [there]
    simp only [Option.filter_some, checkTimeAt, (pair.check _).1, (pair.check _).2, shown, otherTime,
      Bool.true_and, decide_eq_true_eq]
    refine ⟨?_, ?_⟩
    · by_cases match_ : item.type = type
      · simp [match_, sameType.mp match_]
      · have otherNot : ¬ other.type = type := fun h => match_ (sameType.mpr h)
        simp [match_, otherNot]
    · by_cases heavy : item.type = 1
      · simp [heavy, weighted.mp heavy, weights heavy]
      · have otherLight : ¬ other.type = 1 := fun h => heavy (weighted.mpr h)
        simp [heavy, otherLight]

end Pair

/- The map of found phrases, without the search: each text as often as it is counted. -/
def foundFrom (l : PhraseList) (tally : Str → Nat) (order : List Nat) : Found :=
  order.foldr (fun x found =>
    if 0 < tally (getItemAtInt l x) then
      put (getItemAtInt l x) (x, tally (getItemAtInt l x)) found
    else found) []

def foundIn (g : PhraseGraph) (tally : Str → Nat) : Found := foundFrom g.list tally (entries g)

theorem foundFrom_ordered (l : PhraseList) (tally : Str → Nat) (order : List Nat) :
    Ordered (foundFrom l tally order) := by
  induction order with
  | nil => exact List.Pairwise.nil
  | cons x order ih =>
    rw [foundFrom, List.foldr_cons]
    split
    · exact put_ordered _ _ ih
    · exact ih

theorem foundIn_distinct (g : PhraseGraph) (tally : Str → Nat) : ((foundIn g tally).map Prod.fst).Nodup :=
  (foundFrom_ordered g.list tally (entries g)).nodup_keys

theorem find_foundFrom (l : PhraseList) (tally : Str → Nat) (w : Str) (order : List Nat) :
    find w (foundFrom l tally order) = (order.find? fun x => getItemAtInt l x == w).bind fun x =>
      if 0 < tally w then some (x, tally w) else none := by
  induction order with
  | nil => rfl
  | cons x order ih =>
    rw [foundFrom, List.foldr_cons]
    rw [foundFrom] at ih
    by_cases same : getItemAtInt l x = w
    · rw [List.find?_cons_of_pos (by simpa using same), same]
      by_cases occurs : 0 < tally w
      · simp [occurs, find_put]
      · simp only [occurs, ↓reduceIte, ih, Option.bind_some]
        cases order.find? fun x => getItemAtInt l x == w <;> rfl
    · have different : ¬ w = getItemAtInt l x := fun h => same h.symm
      rw [List.find?_cons_of_neg (by simpa using same), ← ih]
      split
      · rw [find_put, if_neg different]
      · rfl

section Found
variable {l : PhraseList} {g : PhraseGraph} {tally : Str → Nat}

theorem find_foundIn (built : Built l g) {x : Nat} (entry : x ∈ entries g) :
    find (getItemAtInt l x) (foundIn g tally) =
      if 0 < tally (getItemAtInt l x) then some (x, tally (getItemAtInt l x))
      else none := by
  rw [foundIn, find_foundFrom, find_entry built entry]
  rfl

theorem mem_foundIn (built : Built l g) (w : Str) (x c : Nat) :
    (w, x, c) ∈ foundIn g tally ↔
      x ∈ entries g ∧ getItemAtInt l x = w ∧ 0 < c ∧ c = tally w := by
  constructor
  · intro member
    have found := find_of_mem (foundIn_distinct g tally) member
    rw [foundIn, find_foundFrom] at found
    obtain ⟨y, search, value⟩ := Option.bind_eq_some_iff.mp found
    split at value
    · rename_i occurs
      obtain ⟨rfl, rfl⟩ := Prod.ext_iff.mp (Option.some.inj value)
      have text := List.find?_some search
      rw [built.textOf, beq_iff_eq] at text
      exact ⟨List.mem_of_find?_eq_some search, text, occurs, rfl⟩
    · cases value
  · rintro ⟨entry, rfl, positive, rfl⟩
    apply mem_of_find
    rw [find_foundIn built entry, if_pos positive]

theorem filled_eq_foundIn {result : Found} (built : Built l g) (filled : Filled l g tally result) :
    result = foundIn g tally := by
  refine filled.ordered.ext (foundFrom_ordered _ _ _) ?_
  rintro ⟨w, x, c⟩
  rw [filled.mem_iff, mem_foundIn built]

def foundMap (built : Built l g) (tally : Str → Nat) : FoundMap g.list where
  entries := foundIn g tally
  distinct := foundIn_distinct g tally
  indexed := by
    rintro ⟨w, x, c⟩ member
    obtain ⟨entry, text, -⟩ := (mem_foundIn built w x c).mp member
    obtain ⟨item, there⟩ := built.merged.item entry
    rw [there, Option.map_some, built.merged.text_eq there, text]
  counted := by
    rintro ⟨w, x, c⟩ member
    exact ((mem_foundIn built w x c).mp member).2.2.1

theorem singleOf_eq_single (built : Built l g) (now : Clock) (type : Int) {w : Str} {x c : Nat}
    (member : (w, x, c) ∈ foundIn g tally) : singleOf now g.list type (w, x, c) = single now g type w := by
  obtain ⟨entry, rfl, -⟩ := (mem_foundIn built w x c).mp member
  rw [singleOf, single, kept_entry built entry]

theorem mem_keys_iff (built : Built l g) (w : Str) :
    w ∈ (foundIn g tally).map Prod.fst ↔ w ∈ texts l ∧ 0 < tally w := by
  constructor
  · intro member
    obtain ⟨⟨v, x, c⟩, found, rfl⟩ := List.mem_map.mp member
    obtain ⟨entry, text, positive, count⟩ := (mem_foundIn built v x c).mp found
    exact ⟨mem_texts_iff.mpr ⟨x, built.entry_listed entry, text⟩, count ▸ positive⟩
  · rintro ⟨listed, positive⟩
    obtain ⟨i, inside, rfl⟩ := mem_texts_iff.mp listed
    obtain ⟨x, entry, text⟩ := built.merged.covered i (List.mem_range.mpr inside)
    exact List.mem_map.mpr ⟨_, (mem_foundIn built _ x _).mpr ⟨entry, text, positive, rfl⟩, rfl⟩

/-- A phrase of some type is found if one occurs whose kept line is in time and of the type. -/
theorem found_single_iff (built : Built l g) (now : Clock) (type : Int) :
    (∃ e ∈ foundIn g tally, (singleOf now g.list type e).isSome) ↔
      ∃ w, 0 < tally w ∧ (single now g type w).isSome := by
  constructor
  · rintro ⟨⟨w, x, c⟩, member, isSingle⟩
    rw [singleOf_eq_single built now type member] at isSingle
    obtain ⟨-, -, positive, count⟩ := (mem_foundIn built w x c).mp member
    exact ⟨w, count ▸ positive, isSingle⟩
  · rintro ⟨w, positive, isSingle⟩
    have listed : w ∈ texts l := by
      by_contra unlisted
      obtain ⟨item, here⟩ := Option.isSome_iff_exists.mp isSingle
      obtain ⟨y, search, -⟩ := Option.bind_eq_some_iff.mp (Option.filter_eq_some_iff.mp here).1
      have text := List.find?_some search
      rw [built.textOf, beq_iff_eq] at text
      exact unlisted (mem_texts_iff.mpr ⟨y, built.entry_listed (List.mem_of_find?_eq_some search), text⟩)
    obtain ⟨⟨v, x, c⟩, member, rfl⟩ := List.mem_map.mp ((mem_keys_iff built w).mpr ⟨listed, positive⟩)
    exact ⟨_, member, by rw [singleOf_eq_single built now type member]; exact isSingle⟩

end Found

/- Combinations by the texts of their parts. -/
def chainOccurs (tally : Str → Nat) (t : TextChain) : Bool :=
  t.parts.all fun w => decide (0 < tally w)

def chainScore (s : Settings) (tally : Str → Nat) (t : TextChain) : Int :=
  if chainOccurs tally t ∧ t.type = 1 then t.weight * times s (lowest (t.parts.map fun w => tally w))
  else 0

def timedChains (now : Clock) (l : PhraseList) : List TextChain :=
  ((chains l).filter fun c => checkTimeAtD now l c.time).map (chainTexts l)

section Chains
variable {l : PhraseList} {g : PhraseGraph} {tally : Str → Nat}

theorem built_chains (built : Built l g) : chains g.list = chains l := by
  rw [built.merged.frame]
  rfl

theorem find_part (built : Built l g) (tally : Str → Nat) {part : Nat} (inside : part < l.items.length) :
    ∃ x, find (getItemAtInt g.list part) (foundIn g tally) =
      if 0 < tally (getItemAtInt l part) then some (x, tally (getItemAtInt l part))
      else none := by
  obtain ⟨x, entry, text⟩ := built.merged.covered part (List.mem_range.mpr inside)
  refine ⟨x, ?_⟩
  rw [built.textOf, ← text]
  exact find_foundIn built entry

theorem satisfied_eq (built : Built l g) {c : Chain} (parts : ∀ part ∈ c.parts, part < l.items.length) :
    satisfied g.list (foundIn g tally) c = chainOccurs tally (chainTexts l c) := by
  have each : ∀ part ∈ c.parts, (find (getItemAtInt g.list part) (foundIn g tally)).isSome ↔
      0 < tally (getItemAtInt l part) := by
    intro part member
    obtain ⟨x, found⟩ := find_part built tally (parts part member)
    rw [found]
    split
    · rename_i occurs
      simp [occurs]
    · rename_i absent
      simp [absent]
  rw [Bool.eq_iff_iff, satisfied, chainOccurs, chainTexts, List.all_map]
  simp only [List.all_eq_true, Function.comp_apply, decide_eq_true_eq]
  exact forall₂_congr each

theorem partCounts_eq (built : Built l g) {c : Chain} (parts : ∀ part ∈ c.parts, part < l.items.length) :
    partCounts g.list (foundIn g tally) c = (chainTexts l c).parts.map fun w => tally w := by
  rw [partCounts, chainTexts, List.map_map]
  refine List.map_congr_left fun part member => ?_
  obtain ⟨x, found⟩ := find_part built tally (parts part member)
  rw [occurrencesOf, found]
  split
  · rfl
  · rename_i absent
    simpa using (Nat.eq_zero_of_not_pos absent).symm

theorem active_eq (built : Built l g) (now : Clock) {c : Chain}
    (parts : ∀ part ∈ c.parts, part < l.items.length) :
    active now g.list (foundIn g tally) c =
      (chainOccurs tally (chainTexts l c) && checkTimeAtD now l c.time) := by
  rw [active, satisfied_eq built parts, built_check built]

theorem found_chain_iff (built : Built l g) (now : Clock) (type : Int)
    (parts : ∀ c ∈ chains l, ∀ part ∈ c.parts, part < l.items.length) :
    (∃ c ∈ chains g.list, active now g.list (foundIn g tally) c ∧ c.type = type) ↔
      ∃ t ∈ timedChains now l, chainOccurs tally t ∧ t.type = type := by
  rw [built_chains built, timedChains]
  constructor
  · rintro ⟨c, member, isActive, typed⟩
    rw [active_eq built now (parts c member), Bool.and_eq_true] at isActive
    exact ⟨chainTexts l c, List.mem_map.mpr ⟨c, List.mem_filter.mpr ⟨member, isActive.2⟩, rfl⟩,
      isActive.1, typed⟩
  · rintro ⟨t, member, occurs, typed⟩
    obtain ⟨c, timed, rfl⟩ := List.mem_map.mp member
    obtain ⟨listed, time⟩ := List.mem_filter.mp timed
    refine ⟨c, listed, ?_, typed⟩
    rw [active_eq built now (parts c listed), occurs, time]
    rfl

theorem chains_score (built : Built l g) (s : Settings) (now : Clock)
    (parts : ∀ c ∈ chains l, ∀ part ∈ c.parts, part < l.items.length) :
    ((chains g.list).map (chainWeight s now g.list (foundIn g tally))).sum =
      ((timedChains now l).map (chainScore s tally)).sum := by
  have weights : ∀ c ∈ chains l, chainWeight s now g.list (foundIn g tally) c =
      if checkTimeAtD now l c.time then chainScore s tally (chainTexts l c) else 0 := by
    intro c member
    rw [chainWeight, chainScore, active_eq built now (parts c member),
      partCounts_eq built (parts c member)]
    by_cases time : checkTimeAtD now l c.time
    · simp [time, chainTexts]
    · simp [time]
  rw [built_chains built, List.map_congr_left weights, timedChains]
  generalize chains l = cs
  induction cs with
  | nil => rfl
  | cons c cs ih =>
    by_cases time : checkTimeAtD now l c.time
    · simp [time, ih]
    · simp [time, ih]

end Chains

theorem Pair.timedChains_eq {now : Clock} {l lt : PhraseList} {g gt : PhraseGraph}
    (pair : Pair now l lt g gt) : timedChains now lt = timedChains now l := by
  have all : ((chains lt).filter fun c => checkTimeAtD now lt c.time) = chains lt := by
    refine List.filter_eq_self.mpr fun c member => ?_
    have listed : chainTexts lt c ∈ (chains lt).map (chainTexts lt) := List.mem_map.mpr ⟨c, member, rfl⟩
    rw [pair.filtered.combinations] at listed
    obtain ⟨c', timed, same⟩ := List.mem_map.mp listed
    have sameTime : c'.time = c.time := congrArg TextChain.time same
    rw [pair.filtered.check_eq, ← sameTime]
    exact (List.mem_filter.mp timed).2
  rw [timedChains, all, pair.filtered.combinations, timedChains]

/- The weight of single phrases, text by text. -/
def textWeight (s : Settings) (now : Clock) (g : PhraseGraph) (tally : Str → Nat) (w : Str) : Int :=
  ((single now g 1 w).map fun item => item.weight * times s (tally w)).getD 0

def hiddenWeight (s : Settings) (now : Clock) (g gt : PhraseGraph) (tally : Str → Nat) : Int :=
  (((foundIn gt tally).filter fun e => hidden now g e.1).map (singleWeight s now gt.list)).sum

theorem singleWeight_eq {l : PhraseList} {g : PhraseGraph} {tally : Str → Nat} (built : Built l g) (s : Settings)
    (now : Clock) {e : Str × Nat × Nat} (member : e ∈ foundIn g tally) :
    singleWeight s now g.list e = textWeight s now g tally e.1 := by
  obtain ⟨w, x, c⟩ := e
  obtain ⟨-, -, -, count⟩ := (mem_foundIn built w x c).mp member
  rw [singleWeight, textWeight, singleOf_eq_single built now 1 member, ← count]

theorem singles_sum {l : PhraseList} {g : PhraseGraph} (built : Built l g) (s : Settings) (now : Clock)
    (tally : Str → Nat) :
    ((foundIn g tally).map (singleWeight s now g.list)).sum =
      ∑ w ∈ ((foundIn g tally).map Prod.fst).toFinset, textWeight s now g tally w := by
  rw [List.sum_toFinset _ (foundIn_distinct _ _), List.map_map]
  refine congrArg List.sum (List.map_congr_left fun e member => ?_)
  exact singleWeight_eq built s now member

theorem filter_sum {ι : Type} (l : List ι) (p : ι → Bool) (f : ι → Int) :
    (l.map f).sum = (l.map fun e => if p e then 0 else f e).sum + ((l.filter p).map f).sum := by
  induction l with
  | nil => rfl
  | cons e l ih =>
    cases here : p e with
    | true =>
      simp [here, ih]
      ring
    | false =>
      simp [here, ih]
      ring

section PairWeights
variable {now : Clock} {l lt : PhraseList} {g gt : PhraseGraph}

theorem Pair.textWeight_eq (pair : Pair now l lt g gt) (s : Settings) (tally : Str → Nat) (w : Str) :
    textWeight s now g tally w = if hidden now g w then 0 else textWeight s now gt tally w := by
  unfold textWeight
  split
  · rename_i isHidden
    rw [single_of_hidden isHidden]
    rfl
  · rename_i shown
    have weights := (pair.single_agree (Bool.eq_false_of_not_eq_true shown)
      (.inr (.inr rfl : (1 : Int) = 0 ∨ (1 : Int) = 1))).2
    have factor : ∀ found : Option PhraseItem,
        (found.map fun item => item.weight * times s (tally w)) =
          (found.map PhraseItem.weight).map fun weight => weight * times s (tally w) := by
      intro found
      rw [Option.map_map]
      rfl
    rw [factor, factor, weights]

theorem Pair.mem_texts (pair : Pair now l lt g gt) {w : Str} (listed : w ∈ texts lt) : w ∈ texts l := by
  obtain ⟨item, member, rfl⟩ := List.mem_map.mp listed
  exact mem_texts_of_item ((pair.mem_part_iff item).mp member).1

theorem Pair.singles_sum (pair : Pair now l lt g gt) (s : Settings) (tally : Str → Nat) :
    ((foundIn gt tally).map (singleWeight s now gt.list)).sum =
      ((foundIn g tally).map (singleWeight s now g.list)).sum + hiddenWeight s now g gt tally := by
  have onPart : ((foundIn g tally).map (singleWeight s now g.list)).sum =
      ∑ w ∈ ((foundIn gt tally).map Prod.fst).toFinset, textWeight s now g tally w := by
    rw [GuardianTimedVerdicts.singles_sum pair.built]
    refine (Finset.sum_subset ?_ ?_).symm
    · intro w member
      rw [List.mem_toFinset, mem_keys_iff pair.builtPart] at member
      rw [List.mem_toFinset, mem_keys_iff pair.built]
      exact ⟨pair.mem_texts member.1, member.2⟩
    · -- a text without a line in time has no weight
      intro w member absent
      rw [List.mem_toFinset, mem_keys_iff pair.built] at member
      rw [List.mem_toFinset, mem_keys_iff pair.builtPart] at absent
      rw [pair.textWeight_eq]
      split
      · rfl
      · have gone : kept gt w = none := by
          cases here : kept gt w with
          | none => rfl
          | some item =>
            obtain ⟨part, text, -⟩ := kept_spec pair.builtPart pair.typedPart here
            exact absurd ⟨text ▸ mem_texts_of_item part, member.2⟩ absent
        simp [textWeight, single, gone]
  rw [onPart, List.sum_toFinset _ (foundIn_distinct _ _), List.map_map,
    filter_sum _ fun e => hidden now g e.1, hiddenWeight]
  congr 2
  refine List.map_congr_left fun e member => ?_
  rw [Function.comp_apply, pair.textWeight_eq, singleWeight_eq pair.builtPart s now member]

theorem Pair.totalWeight_eq (pair : Pair now l lt g gt) (s : Settings) (tally : Str → Nat) :
    totalWeight s now gt.list (foundIn gt tally) =
      totalWeight s now g.list (foundIn g tally) + hiddenWeight s now g gt tally := by
  rw [totalWeight, totalWeight, pair.singles_sum, chains_score pair.built s now pair.filtered.parts,
    chains_score pair.builtPart s now pair.filtered.partsOf, pair.timedChains_eq]
  ring

/-- A line in time of the type is found, and the line kept for its text is out of time. -/
def hiddenFound (now : Clock) (g gt : PhraseGraph) (tally : Str → Nat) (type : Int) : Prop :=
  ∃ e ∈ foundIn gt tally, hidden now g e.1 = true ∧ (singleOf now gt.list type e).isSome

theorem Pair.found_single_iff (pair : Pair now l lt g gt) (tally : Str → Nat) {type : Int}
    (kind : type = -1 ∨ type = 0 ∨ type = 1) :
    (∃ e ∈ foundIn gt tally, (singleOf now gt.list type e).isSome) ↔
      (∃ e ∈ foundIn g tally, (singleOf now g.list type e).isSome) ∨ hiddenFound now g gt tally type := by
  rw [GuardianTimedVerdicts.found_single_iff pair.built]
  constructor
  · rintro ⟨e, member, isSingle⟩
    cases isHidden : hidden now g e.1 with
    | true => exact .inr ⟨e, member, isHidden, isSingle⟩
    | false =>
      obtain ⟨w, x, c⟩ := e
      obtain ⟨-, -, positive, count⟩ := (mem_foundIn pair.builtPart w x c).mp member
      rw [singleOf_eq_single pair.builtPart now type member, ← (pair.single_agree isHidden kind).1] at isSingle
      exact .inl ⟨w, count ▸ positive, isSingle⟩
  · rintro (⟨w, occurs, isSingle⟩ | ⟨e, member, -, isSingle⟩)
    · have shown : hidden now g w = false := by
        cases isHidden : hidden now g w with
        | true =>
          rw [single_of_hidden isHidden] at isSingle
          cases isSingle
        | false => rfl
      rw [(pair.single_agree shown kind).1] at isSingle
      exact (GuardianTimedVerdicts.found_single_iff pair.builtPart now type).mpr ⟨w, occurs, isSingle⟩
    · exact ⟨e, member, isSingle⟩

theorem Pair.exceptionFound_iff (pair : Pair now l lt g gt) (tally : Str → Nat) :
    exceptionFound now gt.list (foundIn gt tally) ↔
      exceptionFound now g.list (foundIn g tally) ∨ hiddenFound now g gt tally (-1) := by
  rw [exceptionFound, exceptionFound, found_chain_iff pair.built now _ pair.filtered.parts,
    found_chain_iff pair.builtPart now _ pair.filtered.partsOf, pair.timedChains_eq,
    pair.found_single_iff tally (.inl rfl), or_assoc]

theorem Pair.bannedFound_iff (pair : Pair now l lt g gt) (tally : Str → Nat) :
    bannedFound now gt.list (foundIn gt tally) ↔
      bannedFound now g.list (foundIn g tally) ∨ hiddenFound now g gt tally 0 := by
  rw [bannedFound, bannedFound, found_chain_iff pair.built now _ pair.filtered.parts,
    found_chain_iff pair.builtPart now _ pair.filtered.partsOf, pair.timedChains_eq,
    pair.found_single_iff tally (.inr (.inl rfl)), or_assoc]

end PairWeights

/- The verdict of a filter that has not decided yet: the weight that is left, an exception, a ban. -/
structure Undecided (filter : Verdict) : Prop where
  notNaughty : filter.isItNaughty = false
  noException : filter.isException = false

theorem storeNaughtiness_zero (weighting : Int) : storeNaughtiness 0 weighting = weighting := by
  unfold storeNaughtiness
  split <;> omega

theorem scorePhrases_outcome {l : PhraseList} (s : Settings) (limit : Int) (searchterms : Bool)
    {filter : Verdict} (now : Clock) (found : FoundMap l) (cat : Int) (loaded : Loaded l)
    (undecided : Undecided filter) :
    ∃ verdict, scorePhrases s limit searchterms filter now l found.entries cat = some verdict ∧
      (exceptionFound now l found.entries →
        verdict.isException = true ∧ verdict.isItNaughty = false ∧
          verdict.naughtiness = filter.naughtiness) ∧
      (¬ exceptionFound now l found.entries →
        verdict.isException = false ∧
          verdict.naughtiness =
            storeNaughtiness filter.naughtiness (weighed s now l found.entries) ∧
          (verdict.isItNaughty = true ↔
            bannedFound now l found.entries ∨ weighed s now l found.entries > limit)) := by
  have outcome := scanPhrases_eq s now found loaded false cat
  unfold scorePhrases
  rw [undecided.notNaughty]
  split at outcome
  · rename_i exception
    obtain ⟨phrase, categories, combination, stopped⟩ := outcome
    rw [stopped]
    refine ⟨_, rfl, fun _ => ⟨rfl, rfl, rfl⟩, fun none => absurd exception none⟩
  · rename_i none
    rw [outcome]
    refine ⟨_, rfl, fun exception => absurd exception none, fun _ => ?_⟩
    have flags := finalVerdict_flags s limit searchterms filter (endLocals s now found false cat)
    have banned := endLocals_banned s now found loaded cat none
    have weight := endLocals_weighting s now found false cat
    refine ⟨flags.1.trans undecided.noException, ?_, ?_⟩
    · rw [flags.2.2, weight]
    · rw [flags.2.1, Bool.or_eq_true, banned, weight, decide_eq_true_eq]

def SameVerdict (a b : Verdict) : Prop :=
  a.isItNaughty = b.isItNaughty ∧ a.isException = b.isException ∧ a.naughtiness = b.naughtiness

/-- No phrase is longer than the search takes or runs over the end of the document. -/
def SearchClean (l : PhraseList) (g : PhraseGraph) (buffer : Str) (len : Nat) : Prop :=
  ∀ w ∈ texts l, w.length ≤ 126 ∧ ∀ i < len,
    occursAt w (buffer.take len ++ behind g len (buffer.drop len) w) i → i + w.length ≤ len

def timesFound (g : PhraseGraph) (buffer : Str) (len : Nat) (w : Str) : Nat :=
  (((graphSearch g [] buffer len).bind fun result => find w result.2).map Prod.snd).getD 0

/-- The search counts the lines in time as often with all lines as with the lines in time alone. -/
def SameCounts (lt : PhraseList) (g gt : PhraseGraph) (buffer : Str) (len : Nat) : Prop :=
  ∀ w ∈ texts lt, timesFound g buffer len w = timesFound gt buffer len w

/-- The lines in time that are hidden by lines out of time make no difference to the verdict. -/
def HiddenHarmless (s : Settings) (limit : Int) (now : Clock) (g gt : PhraseGraph) (tally : Str → Nat) : Prop :=
  exceptionFound now g.list (foundIn g tally) ∨
    ¬ hiddenFound now g gt tally (-1) ∧
      (hiddenFound now g gt tally 0 →
        bannedFound now g.list (foundIn g tally) ∨ weighed s now g.list (foundIn g tally) > limit) ∧
      (2 ^ 32 : Int) ∣ hiddenWeight s now g gt tally -
        (shortfall s now gt.list (foundIn gt tally) - shortfall s now g.list (foundIn g tally))

section Searches
variable {l : PhraseList} {g : PhraseGraph} {buffer : Str} {len : Nat}

theorem foundIn_congr (built : Built l g) {tally tally' : Str → Nat} (same : ∀ w ∈ texts l, tally w = tally' w) :
    foundIn g tally = foundIn g tally' := by
  refine (foundFrom_ordered _ _ _).ext (foundFrom_ordered _ _ _) ?_
  rintro ⟨w, x, c⟩
  refine ((mem_foundIn built w x c).trans ?_).trans (mem_foundIn built w x c).symm
  refine and_congr_right fun entry => and_congr_right fun text => and_congr_right fun _ => ?_
  rw [same w (mem_texts_iff.mpr ⟨x, built.entry_listed entry, text⟩)]

theorem timesFound_of_filled (built : Built l g) {file : Str} {tally : Str → Nat} {result : Found}
    (search : graphSearch g [] buffer len = some (file, result)) (filled : Filled l g tally result) :
    ∀ w ∈ texts l, timesFound g buffer len w = tally w := by
  intro w listed
  obtain ⟨i, inside, rfl⟩ := mem_texts_iff.mp listed
  obtain ⟨x, entry, text⟩ := built.merged.covered i (List.mem_range.mpr inside)
  rw [timesFound, search, Option.bind_some, filled_eq_foundIn built filled, ← text, find_foundIn built entry]
  split
  · rfl
  · rename_i none_
    exact (Nat.eq_zero_of_not_pos none_).symm

theorem graphSearch_found (built : Built l g) (short : ∀ w ∈ texts l, w.length ≤ 127) (room : len + 127 ≤ buffer.length) :
    ∃ file, graphSearch g [] buffer len = some (file, foundIn g (timesFound g buffer len)) := by
  have docLength : (buffer.take len).length = len := by
    rw [List.length_take]
    omega
  have roomBehind : 127 ≤ (buffer.drop len).length := by
    rw [List.length_drop]
    omega
  have search := graphSearch_any built short (buffer.take len) roomBehind
  have filled := filled_of_hits built fun x hit => @hitsBefore_entries g (buffer.take len) (marked g len (buffer.drop len)) x hit
  rw [List.take_append_drop, docLength] at search
  have counts := timesFound_of_filled built search filled
  rw [filled_eq_foundIn built filled, ← foundIn_congr built counts] at search
  exact ⟨_, search⟩

theorem checkphrase_eq (built : Built l g) (short : ∀ w ∈ texts l, w.length ≤ 127) (room : len + 127 ≤ buffer.length)
    (s : Settings) (limit : Int) (searchterms : Bool) (filter : Verdict) (now : Clock) (cat : Int) :
    checkphrase s limit searchterms filter now g buffer len cat =
      scorePhrases s limit searchterms filter now g.list (foundIn g (timesFound g buffer len)) cat := by
  obtain ⟨file, search⟩ := graphSearch_found built short room
  rw [checkphrase, search]

theorem timesFound_clean (built : Built l g) (room : len + 127 ≤ buffer.length) (search : SearchClean l g buffer len) :
    ∀ w ∈ texts l, timesFound g buffer len w = occurrences w (buffer.take len) := by
  have docLength : (buffer.take len).length = len := by
    rw [List.length_take]
    omega
  obtain ⟨file, result, found, filled⟩ := graphSearch_filled built (buffer.take len) (buffer.drop len)
    (fun i inside => (search _ (mem_texts_iff.mpr ⟨i, inside, rfl⟩)).1) (by rw [List.length_drop]; omega)
  rw [List.take_append_drop, docLength] at found
  intro w listed
  rw [timesFound_of_filled built found filled w listed, searchCount, countBetween_append_eq_iff, docLength]
  exact (search w listed).2

end Searches

theorem Pair.counts_of_clean {now : Clock} {l lt : PhraseList} {g gt : PhraseGraph} (pair : Pair now l lt g gt) {buffer : Str}
    {len : Nat} (room : len + 127 ≤ buffer.length) (search : SearchClean l g buffer len)
    (searchInTime : SearchClean lt gt buffer len) : SameCounts lt g gt buffer len := by
  intro w listed
  rw [timesFound_clean pair.built room search w (pair.mem_texts listed),
      timesFound_clean pair.builtPart room searchInTime w listed]

theorem Pair.weighed_eq {now : Clock} {l lt : PhraseList} {g gt : PhraseGraph} (pair : Pair now l lt g gt)
    (s : Settings) (tally : Str → Nat) :
    weighed s now gt.list (foundIn gt tally) = weighed s now g.list (foundIn g tally) ↔
      (2 ^ 32 : Int) ∣ hiddenWeight s now g gt tally -
        (shortfall s now gt.list (foundIn gt tally) - shortfall s now g.list (foundIn g tally)) := by
  rw [weighed, weighed, pair.totalWeight_eq, int32_eq_iff]
  have apart : totalWeight s now g.list (foundIn g tally) + hiddenWeight s now g gt tally -
        shortfall s now gt.list (foundIn gt tally) -
        (totalWeight s now g.list (foundIn g tally) - shortfall s now g.list (foundIn g tally)) =
      hiddenWeight s now g gt tally -
        (shortfall s now gt.list (foundIn gt tally) - shortfall s now g.list (foundIn g tally)) := by ring
  rw [apart]

/-- Both verdicts of one filter. An earlier weight of the filter can hide a difference, so the
    converse needs a filter that has none. -/
theorem Pair.verdicts {now : Clock} {l lt : PhraseList} {g gt : PhraseGraph} (pair : Pair now l lt g gt)
    (loaded : Loaded g.list) (loadedPart : Loaded gt.list) (s : Settings) (limit : Int)
    (searchterms : Bool) {filter : Verdict} (cat cat' : Int) (undecided : Undecided filter) (tally : Str → Nat) :
    ∃ verdict verdict', scorePhrases s limit searchterms filter now g.list (foundIn g tally) cat = some verdict ∧
      scorePhrases s limit searchterms filter now gt.list (foundIn gt tally) cat' = some verdict' ∧
      (HiddenHarmless s limit now g gt tally → SameVerdict verdict verdict') ∧
      (filter.naughtiness = 0 → SameVerdict verdict verdict' → HiddenHarmless s limit now g gt tally) := by
  obtain ⟨verdict, scored, ifException, ifNone⟩ :=
    scorePhrases_outcome s limit searchterms now (foundMap pair.built tally) cat loaded undecided
  obtain ⟨verdict', scored', ifException', ifNone'⟩ :=
    scorePhrases_outcome s limit searchterms now (foundMap pair.builtPart tally) cat' loadedPart undecided
  refine ⟨verdict, verdict', scored, scored', ?_⟩
  simp only [foundMap] at ifException ifNone ifException' ifNone'
  rw [pair.exceptionFound_iff] at ifException' ifNone'
  rw [pair.bannedFound_iff] at ifNone'
  have balance := pair.weighed_eq s tally
  by_cases exception : exceptionFound now g.list (foundIn g tally)
  · obtain ⟨isException, notNaughty, noWeight⟩ := ifException exception
    obtain ⟨isException', notNaughty', noWeight'⟩ := ifException' (.inl exception)
    refine ⟨fun _ => ⟨?_, ?_, ?_⟩, fun _ _ => .inl exception⟩
    · rw [notNaughty, notNaughty']
    · rw [isException, isException']
    · rw [noWeight, noWeight']
  · obtain ⟨noException, naughtiness, naughty⟩ := ifNone exception
    by_cases hiddenOne : hiddenFound now g gt tally (-1)
    · have isException' := (ifException' (.inr hiddenOne)).1
      constructor
      · rintro (found | ⟨noneHidden, -⟩)
        · exact absurd found exception
        · exact absurd hiddenOne noneHidden
      · rintro - ⟨-, same, -⟩
        rw [noException, isException'] at same
        cases same
    · obtain ⟨noException', naughtiness', naughty'⟩ := ifNone' (by simp [exception, hiddenOne])
      rw [SameVerdict, Bool.eq_iff_iff, naughty, naughty', noException, noException', naughtiness,
        naughtiness', HiddenHarmless, ← balance]
      simp only [exception, hiddenOne, not_false_eq_true, true_and, false_or]
      constructor
      · rintro ⟨harmless, balanced⟩
        rw [balanced]
        refine ⟨⟨?_, ?_⟩, rfl⟩
        · rintro (banned | above)
          · exact .inl (.inl banned)
          · exact .inr above
        · rintro ((banned | hiddenBan) | above)
          · exact .inl banned
          · exact harmless hiddenBan
          · exact .inr above
      · rintro noWeight ⟨same, balanced⟩
        rw [noWeight, storeNaughtiness_zero, storeNaughtiness_zero] at balanced
        exact ⟨fun banned => same.mpr (.inl (.inr banned)), balanced.symm⟩

/-- Every filter that has not decided yet gets the same verdict from both graphs. -/
def VerdictInTime (s : Settings) (limit : Int) (searchterms : Bool) (now : Clock) (g gt : PhraseGraph)
    (buffer : Str) (len : Nat) (cat cat' : Int) : Prop :=
  ∀ filter, Undecided filter → ∃ verdict verdict',
    checkphrase s limit searchterms filter now g buffer len cat = some verdict ∧
      checkphrase s limit searchterms filter now gt buffer len cat' = some verdict' ∧
      SameVerdict verdict verdict'

theorem pair_of_files {now : Clock} {fs : FileSystem} {depth : Nat} {files : PhraseFiles} {fqs : Bool} {l lt : PhraseList}
    {g gt : PhraseGraph} (read : readFiles fs depth files = some l)
    (readInTime : readFilesKeeping (inTime now) fs depth files = some lt) (made : makeGraph fqs l = some g)
    (madeInTime : makeGraph fqs lt = some gt) : Pair now l lt g gt := by
  obtain ⟨lt', again, filtered⟩ := readFiles_filtered now read
  obtain rfl : lt' = lt := Option.some.inj (again.symm.trans readInTime)
  have notEmpty : ∀ {l : PhraseList}, Loaded l → ∀ i < l.items.length, getItemAtInt l i ≠ [] := by
    intro l loaded i inside
    have there := List.getElem?_eq_getElem inside
    rw [getItemAtInt, there]
    exact (Loaded.items_ok loaded _ (List.getElem_mem inside)).1
  exact ⟨filtered, makeGraph_built (notEmpty filtered.loaded) made, makeGraph_built (notEmpty filtered.loadedPart) madeInTime⟩

section Files
variable (s : Settings) (limit : Int) (searchterms : Bool) {now : Clock} {fs : FileSystem} {depth : Nat} {files : PhraseFiles}
  {fqs : Bool} {l lt : PhraseList} {g gt : PhraseGraph} {buffer : Str} {len : Nat} (cat cat' : Int)
  (read : readFiles fs depth files = some l) (readInTime : readFilesKeeping (inTime now) fs depth files = some lt)
  (made : makeGraph fqs l = some g) (madeInTime : makeGraph fqs lt = some gt) (room : len + 127 ≤ buffer.length)
include read readInTime made madeInTime room

theorem verdicts_of_counts (counts : SameCounts lt g gt buffer len) {filter : Verdict} (undecided : Undecided filter) :
    ∃ verdict verdict', checkphrase s limit searchterms filter now g buffer len cat = some verdict ∧
      checkphrase s limit searchterms filter now gt buffer len cat' = some verdict' ∧
      (HiddenHarmless s limit now g gt (timesFound g buffer len) → SameVerdict verdict verdict') ∧
      (filter.naughtiness = 0 → SameVerdict verdict verdict' →
        HiddenHarmless s limit now g gt (timesFound g buffer len)) := by
  have pair := pair_of_files read readInTime made madeInTime
  rw [checkphrase_eq pair.built (loaded_texts_short pair.filtered.loaded) room,
    checkphrase_eq pair.builtPart (loaded_texts_short pair.filtered.loadedPart) room,
    foundIn_congr pair.builtPart fun w listed => (counts w listed).symm]
  exact pair.verdicts (makeGraph_loaded pair.filtered.loaded made) (makeGraph_loaded pair.filtered.loadedPart madeInTime)
    s limit searchterms cat cat' undecided _

theorem verdict_of_harmless (counts : SameCounts lt g gt buffer len)
    (harmless : HiddenHarmless s limit now g gt (timesFound g buffer len)) :
    VerdictInTime s limit searchterms now g gt buffer len cat cat' := by
  intro filter undecided
  obtain ⟨verdict, verdict', full, part, same, -⟩ :=
    verdicts_of_counts s limit searchterms cat cat' read readInTime made madeInTime room counts undecided
  exact ⟨verdict, verdict', full, part, same harmless⟩

end Files

theorem Pair.shown_untimed {now : Clock} {l : PhraseList} {g gt : PhraseGraph} (pair : Pair now l l g gt) (w : Str) :
    hidden now g w = false := by
  unfold hidden
  cases here : kept g w with
  | none => rfl
  | some item =>
    have listed := (kept_spec pair.built pair.typed here).1
    have time := ((pair.mem_part_iff item).mp listed).2
    rw [Option.any_some, checkTimeAt, (pair.check _).1, time]
    rfl

/-- A list of lines that are all in time gives the verdict of the lines in time for every page. -/
theorem verdict_untimed (s : Settings) (limit : Int) (searchterms : Bool) (now : Clock) {fs : FileSystem} {depth : Nat}
    {files : PhraseFiles} (fqs : Bool) {l : PhraseList} {g gt : PhraseGraph} (buffer : Str) (len : Nat) (cat cat' : Int)
    (read : readFiles fs depth files = some l) (readInTime : readFilesKeeping (inTime now) fs depth files = some l)
    (made : makeGraph fqs l = some g) (madeInTime : makeGraph fqs l = some gt) (room : len + 127 ≤ buffer.length) :
    VerdictInTime s limit searchterms now g gt buffer len cat cat' := by
  have pair := pair_of_files read readInTime made madeInTime
  have shown := pair.shown_untimed
  obtain rfl : g = gt := Option.some.inj (made.symm.trans madeInTime)
  have counts : SameCounts l g g buffer len := fun w _ => rfl
  have unhidden : ∀ type, ¬ hiddenFound now g g (timesFound g buffer len) type := by
    rintro type ⟨e, -, isHidden, -⟩
    rw [shown] at isHidden
    cases isHidden
  have weightless : hiddenWeight s now g g (timesFound g buffer len) = 0 := by
    simp [hiddenWeight, shown]
  refine verdict_of_harmless s limit searchterms cat cat' read readInTime made madeInTime room counts (.inr ⟨unhidden _, ?_, ?_⟩)
  · exact fun banned => absurd banned (unhidden 0)
  · rw [weightless, sub_self, sub_self]
    exact dvd_zero _

/-- Where the search counts the lines in time alike, the verdict is that of the lines in time exactly if the lines in time
    that are hidden by lines out of time are harmless. -/
theorem verdict_in_time_iff_hidden_harmless (s : Settings) (limit : Int) (searchterms : Bool) (now : Clock)
    {fs : FileSystem} {depth : Nat} {files : PhraseFiles} (fqs : Bool) {l lt : PhraseList}
    {g gt : PhraseGraph} (buffer : Str) (len : Nat) (cat cat' : Int)
    (read : readFiles fs depth files = some l)
    (readInTime : readFilesKeeping (inTime now) fs depth files = some lt)
    (made : makeGraph fqs l = some g) (madeInTime : makeGraph fqs lt = some gt)
    (room : len + 127 ≤ buffer.length) :
    (SameCounts lt g gt buffer len ∧ HiddenHarmless s limit now g gt (timesFound g buffer len) →
      VerdictInTime s limit searchterms now g gt buffer len cat cat') ∧
      (SameCounts lt g gt buffer len → VerdictInTime s limit searchterms now g gt buffer len cat cat' →
        HiddenHarmless s limit now g gt (timesFound g buffer len)) ∧
      (SearchClean l g buffer len → SearchClean lt gt buffer len → SameCounts lt g gt buffer len) ∧
      (l = lt → VerdictInTime s limit searchterms now g gt buffer len cat cat') := by
  refine ⟨?_, ?_, ?_, ?_⟩
  · rintro ⟨counts, harmless⟩
    exact verdict_of_harmless s limit searchterms cat cat' read readInTime made madeInTime room counts harmless
  · intro counts always
    have undecided : Undecided clearVerdict := ⟨rfl, rfl⟩
    obtain ⟨verdict, verdict', full, part, same⟩ := always clearVerdict undecided
    obtain ⟨_, _, full', part', -, harmless⟩ :=
      verdicts_of_counts s limit searchterms cat cat' read readInTime made madeInTime room counts undecided
    rw [full] at full'
    rw [part] at part'
    obtain rfl := Option.some.inj full'
    obtain rfl := Option.some.inj part'
    exact harmless rfl same
  · exact (pair_of_files read readInTime made madeInTime).counts_of_clean room
  · rintro rfl
    exact verdict_untimed s limit searchterms now fqs buffer len cat cat' read readInTime made madeInTime room

-- A phrase that is only weighted at night beside one that always is.
def nightPhraseFiles : FileSystem := fun name =>
  if name = str "weighted" then some (str "<bad><10>\n#time: 22 0 23 0 0123456\n<worse><50>") else some []

-- The exception for a banned phrase is only in time at night.
def nightExceptionFiles : FileSystem := fun name =>
  if name = str "exception" then some (str "#time: 22 0 23 0 0123456\n<bad>")
  else if name = str "banned" then some (str "<bad>") else some []

def threeFiles : PhraseFiles := ⟨str "exception", str "banned", str "weighted", 100⟩

def fullList (fs : FileSystem) : PhraseList := (readFiles fs 1 threeFiles).getD .empty

def noonList (fs : FileSystem) : PhraseList :=
  (readFilesKeeping (inTime noon) fs 1 threeFiles).getD .empty

def quickGraph (l : PhraseList) : PhraseGraph := (makeGraph true l).getD ⟨.empty, true, [], .nil⟩

instance (now : Clock) (g gt : PhraseGraph) (tally : Str → Nat) (type : Int) :
    Decidable (hiddenFound now g gt tally type) :=
  inferInstanceAs (Decidable (∃ e ∈ foundIn gt tally, _ ∧ _))

instance (l : PhraseList) (g : PhraseGraph) (buffer : Str) (len : Nat) :
    Decidable (SearchClean l g buffer len) :=
  inferInstanceAs (Decidable (∀ w ∈ texts l, _ ∧ _))

theorem verdict_in_time_beside_night_phrase :
    VerdictInTime everyOccurrence 20 false noon (quickGraph (fullList nightPhraseFiles))
      (quickGraph (noonList nightPhraseFiles)) (str "bad worse" ++ List.replicate 127 0) 9 0 0 := by
  have read : readFiles nightPhraseFiles 1 threeFiles = some (fullList nightPhraseFiles) := by decide
  have readInTime : readFilesKeeping (inTime noon) nightPhraseFiles 1 threeFiles = some (noonList nightPhraseFiles) := by
    decide
  have made : makeGraph true (fullList nightPhraseFiles) = some (quickGraph (fullList nightPhraseFiles)) := by decide
  have madeInTime : makeGraph true (noonList nightPhraseFiles) = some (quickGraph (noonList nightPhraseFiles)) := by decide
  have counts := (pair_of_files read readInTime made madeInTime).counts_of_clean
    (by decide +kernel : 9 + 127 ≤ (str "bad worse" ++ List.replicate 127 0).length) (by decide +kernel) (by decide +kernel)
  refine (verdict_in_time_iff_hidden_harmless everyOccurrence 20 false noon true (str "bad worse" ++ List.replicate 127 0) 9 0 0
    read readInTime made madeInTime (by decide +kernel)).1 ⟨counts, .inr ⟨by decide +kernel, ?_, by decide +kernel⟩⟩
  intro banned
  exact absurd banned (by decide +kernel)

/-- At noon the page with a banned phrase passes, because of an exception for the night. -/
theorem ban_hidden_by_night_exception :
    ¬ ∀ (s : Settings) (limit : Int) (searchterms : Bool) (now : Clock) (fs : FileSystem) (depth : Nat)
      (files : PhraseFiles) (fqs : Bool) (l lt : PhraseList) (g gt : PhraseGraph) (buffer : Str)
      (len : Nat) (cat cat' : Int), readFiles fs depth files = some l →
      readFilesKeeping (inTime now) fs depth files = some lt → makeGraph fqs l = some g →
      makeGraph fqs lt = some gt → len + 127 ≤ buffer.length →
      VerdictInTime s limit searchterms now g gt buffer len cat cat' := by
  intro always
  have passes : ((checkphrase everyOccurrence 20 false clearVerdict noon
      (quickGraph (fullList nightExceptionFiles)) (str "bad" ++ List.replicate 127 0) 3 0).map
        Verdict.isItNaughty) = some false := by decide +kernel
  have blocked : ((checkphrase everyOccurrence 20 false clearVerdict noon
      (quickGraph (noonList nightExceptionFiles)) (str "bad" ++ List.replicate 127 0) 3 0).map
        Verdict.isItNaughty) = some true := by decide +kernel
  obtain ⟨verdict, verdict', full, part, same, -⟩ := always everyOccurrence 20 false noon
    nightExceptionFiles 1 threeFiles true (fullList nightExceptionFiles) (noonList nightExceptionFiles)
    (quickGraph (fullList nightExceptionFiles)) (quickGraph (noonList nightExceptionFiles))
    (str "bad" ++ List.replicate 127 0) 3 0 0 (by decide) (by decide) (by decide)
    (by decide +kernel) (by decide +kernel) clearVerdict ⟨rfl, rfl⟩
  rw [full, Option.map_some] at passes
  rw [part, Option.map_some] at blocked
  rw [Option.some.inj passes, Option.some.inj blocked] at same
  cases same

end GuardianTimedVerdicts
