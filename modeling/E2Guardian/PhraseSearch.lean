import Mathlib.Data.List.Count
import E2Guardian.OrderedMap
import E2Guardian.PhraseGraph
import E2Guardian.QuickSearch

/- The search for phrases in a document: quick search for those of the slow list, each writing
   itself behind the document as a sentinel, then a walk of the graph from every byte of the
   document. The buffer is all the memory that there is; a read or write past its end gives
   none. The counts are ints in the code; documents with fewer than 2^31 occurrences of a
   phrase are meant. -/
namespace GuardianPhraseSearch
open GuardianString GuardianPhraseList GuardianPhraseGraph WordTrie QuickSearch OrderedMap

def bmsearch (file : Str) (fl : Nat) (s : Str) : Option (Str × Nat) :=
  let pl := s.length
  if fl < pl then some (file, 0)
  else if pl > 126 then some (file, 0)
  else if file.length < fl + pl then none
  else
    let file := file.take fl ++ s ++ file.drop (fl + pl)
    (searchLoop s file fl (fl + 1) 0 0).map fun count => (file, count)

-- text, number of the item, occurrences
abbrev Found := List (Str × Nat × Nat)

def noteFound (l : PhraseList) (result : Found) (item : Nat) : Found :=
  let phrase := getItemAtInt l item
  match find phrase result with
  | none => put phrase (item, 1) result
  | some (index, count) => put phrase (index, count + 1) result

def slowSearch (l : PhraseList) (len : Nat) : List Nat → Str × Found → Option (Str × Found)
  | [], st => some st
  | i :: rest, (doc, result) =>
    match bmsearch doc len (getItemAtInt l i) with
    | none => none
    | some (doc, j) => slowSearch l len rest (doc, (List.replicate j i).foldl (noteFound l) result)

def walkSearch (l : PhraseList) (root : Links) (doc : Str) : List Nat → Found → Option Found
  | [], result => some result
  | i :: rest, result =>
    match root.walkEach (doc.drop i) with
    | none => none
    | some items => walkSearch l root doc rest (items.foldl (noteFound l) result)

def graphSearch (g : PhraseGraph) (result : Found) (doc : Str) (len : Nat) : Option (Str × Found) :=
  match slowSearch g.list len g.slowgraph (doc, result) with
  | none => none
  | some (doc, result) =>
    if g.force_quick_search then some (doc, result)
    else (walkSearch g.list g.root doc (List.range len) result).map fun result => (doc, result)

/- The map of found phrases: keys in order, each with its first item and the number of hits. -/
instance : IsStrictTotalOrder Str (· < ·) where
  irrefl := List.lt_irrefl
  trans _ _ _ := List.lt_trans
  trichotomous _ _ notLess notGreater :=
    List.le_antisymm (List.not_lt.mp notGreater) (List.not_lt.mp notLess)

section Notes
variable (l : PhraseList)

theorem noteFound_find (result : Found) (item : Nat) (w : Str) :
    find w (noteFound l result item) =
      if w = getItemAtInt l item then
        some (((find w result).map fun e => (e.1, e.2 + 1)).getD (item, 1))
      else find w result := by
  unfold noteFound
  dsimp only
  split
  · rename_i unknown
    rw [find_put]
    by_cases same : w = getItemAtInt l item
    · simp [same, unknown]
    · simp [same]
  · rename_i index count known
    rw [find_put]
    by_cases same : w = getItemAtInt l item
    · simp [same, known]
    · simp [same]

theorem noteFound_ordered {result : Found} (ordered : Ordered result) (item : Nat) :
    Ordered (noteFound l result item) := by
  unfold noteFound
  dsimp only
  split
  · exact put_ordered _ _ ordered
  · exact put_ordered _ _ ordered

theorem foldl_noteFound_ordered (hits : List Nat) {result : Found} (ordered : Ordered result) :
    Ordered (hits.foldl (noteFound l) result) := by
  induction hits generalizing result with
  | nil => exact ordered
  | cons item hits ih => exact ih (noteFound_ordered l ordered item)

def hitsOf (hits : List Nat) (w : Str) : Nat := hits.countP fun i => getItemAtInt l i == w

theorem foldl_noteFound_known (hits : List Nat) {result : Found} {w : Str} {index count : Nat}
    (known : find w result = some (index, count)) :
    find w (hits.foldl (noteFound l) result) = some (index, count + hitsOf l hits w) := by
  induction hits generalizing result count with
  | nil => exact known
  | cons item hits ih =>
    have step := noteFound_find l result item w
    rw [List.foldl_cons, hitsOf, List.countP_cons]
    by_cases same : getItemAtInt l item = w
    · rw [if_pos same.symm, known] at step
      rw [ih step]
      simp [hitsOf, same, Nat.add_assoc, Nat.add_comm]
    · rw [if_neg fun h => same h.symm, known] at step
      rw [ih step]
      simp [hitsOf, same]

/-- The entry of a text after all hits: one of its items, and how many there were. -/
theorem foldl_noteFound_find (hits : List Nat) (w : Str) {result : Found} (new : find w result = none) :
    match find w (hits.foldl (noteFound l) result) with
    | none => hitsOf l hits w = 0
    | some (index, count) =>
      index ∈ hits ∧ getItemAtInt l index = w ∧ 0 < count ∧ count = hitsOf l hits w := by
  induction hits generalizing result with
  | nil => simp [new, hitsOf]
  | cons item hits ih =>
    have step := noteFound_find l result item w
    rw [List.foldl_cons]
    by_cases same : getItemAtInt l item = w
    · rw [if_pos same.symm, new] at step
      rw [foldl_noteFound_known l hits step]
      refine ⟨List.mem_cons_self, same, by omega, ?_⟩
      simp [hitsOf, same, Nat.add_comm]
    · rw [if_neg fun h => same h.symm, new] at step
      have rest := ih step
      have count : hitsOf l (item :: hits) w = hitsOf l hits w := by
        simp [hitsOf, same]
      rw [count]
      split
      · rename_i absent
        rw [absent] at rest
        exact rest
      · rename_i index c found
        rw [found] at rest
        exact ⟨List.mem_cons_of_mem _ rest.1, rest.2⟩

end Notes

/- What stands behind a document of the given length while a phrase is searched for, and what
   is left there afterwards. A phrase longer than the document is not searched for. -/
def sentinel (len : Nat) (s : Str) : Str := if len < s.length then [] else s

def leftBehind (len : Nat) (tail s : Str) : Str := sentinel len s ++ tail.drop (sentinel len s).length

theorem leftBehind_length (len : Nat) {tail s : Str} (room : s.length ≤ tail.length) :
    (leftBehind len tail s).length = tail.length := by
  unfold leftBehind sentinel
  split
  · simp
  · rw [List.length_append, List.length_drop]
    omega

theorem bmsearch_eq (doc : Str) {tail s : Str} (short : s.length ≤ 126) (room : s.length ≤ tail.length) :
    bmsearch (doc ++ tail) doc.length s =
      some (doc ++ leftBehind doc.length tail s,
        countBetween s (doc ++ sentinel doc.length s) 0 doc.length) := by
  unfold bmsearch leftBehind sentinel
  dsimp only
  split
  · rename_i long
    have none := occurrences_eq_zero long
    rw [occurrences] at none
    simp [none]
  · rename_i fits
    have space : ¬ (doc ++ tail).length < doc.length + s.length := by
      rw [List.length_append]
      omega
    have rewritten : (doc ++ tail).take doc.length ++ s ++ (doc ++ tail).drop (doc.length + s.length) =
        doc ++ (s ++ tail.drop s.length) := by
      rw [List.take_left, List.drop_append, List.append_assoc,
        List.drop_eq_nil_of_le (Nat.le_add_right _ _)]
      simp
    rw [if_neg (by omega), if_neg space, rewritten]
    have there : occursAt s (doc ++ (s ++ tail.drop s.length)) doc.length := by
      rw [occursAt_iff, List.drop_left]
      exact List.prefix_append _ _
    have behind : doc.length + s.length ≤ (doc ++ (s ++ tail.drop s.length)).length := by
      simp only [List.length_append]
      omega
    rw [searchLoop_eq there behind (doc.length + 1) 0 0 (Nat.zero_le _) (by omega), Nat.zero_add]
    have same : countBetween s (doc ++ (s ++ tail.drop s.length)) 0 doc.length =
        countBetween s (doc ++ s) 0 doc.length := by
      apply List.countP_congr
      intro i member
      have inside : i < doc.length := by simpa using member
      have reach := occursAt_append_iff s (doc ++ s) (tail.drop s.length) i
      rw [List.append_assoc, List.length_append] at reach
      rw [reach]
      simp only [iff_self_and]
      omega
    rw [same]
    rfl

/-- The places before fl at which the phrase is found, counting it behind the text as well. -/
def placesBefore (file : Str) (fl : Nat) (s : Str) : Nat :=
  (List.range fl).countP fun j => s.isPrefixOf ((file.take fl ++ s).drop j)

section Search
variable (l : PhraseList)

def tailAfter (len : Nat) (tail : Str) (order : List Nat) : Str :=
  order.foldl (fun tail i => leftBehind len tail (getItemAtInt l i)) tail

def slowCount (doc w : Str) : Nat := countBetween w (doc ++ sentinel doc.length w) 0 doc.length

def slowHits (doc : Str) (order : List Nat) : List Nat :=
  order.flatMap fun i => List.replicate (slowCount doc (getItemAtInt l i)) i

theorem slowSearch_eq (doc : Str) (order : List Nat) (tail : Str) (result : Found)
    (short : ∀ i ∈ order, (getItemAtInt l i).length ≤ 126) (room : 126 ≤ tail.length) :
    slowSearch l doc.length order (doc ++ tail, result) =
        some (doc ++ tailAfter l doc.length tail order, (slowHits l doc order).foldl (noteFound l) result) ∧
      (tailAfter l doc.length tail order).length = tail.length := by
  induction order generalizing tail result with
  | nil => exact ⟨rfl, rfl⟩
  | cons i order ih =>
    have fits := short i List.mem_cons_self
    have kept := leftBehind_length doc.length (fits.trans room)
    have rest := ih (leftBehind doc.length tail (getItemAtInt l i))
      ((List.replicate (slowCount doc (getItemAtInt l i)) i).foldl (noteFound l) result)
      (fun j member => short j (List.mem_cons_of_mem _ member)) (by rw [kept]; exact room)
    rw [slowSearch, bmsearch_eq doc fits (fits.trans room)]
    refine ⟨?_, rest.2.trans kept⟩
    rw [slowHits, List.flatMap_cons, List.foldl_append]
    exact rest.1

theorem walkSearch_eq {root : Links} (distinct : root.Distinct) (doc : Str) (order : List Nat)
    (result : Found) (long : ∀ i ∈ order, root.height ≤ (doc.drop i).length) :
    walkSearch l root doc order result =
      some ((order.flatMap fun i => root.found (doc.drop i)).foldl (noteFound l) result) := by
  induction order generalizing result with
  | nil => rfl
  | cons i order ih =>
    rw [walkSearch, Forest.walkEach_eq distinct (long i List.mem_cons_self), List.flatMap_cons,
      List.foldl_append]
    exact ih _ fun j member => long j (List.mem_cons_of_mem _ member)

theorem hitsOf_append (hits more : List Nat) (w : Str) :
    hitsOf l (hits ++ more) w = hitsOf l hits w + hitsOf l more w :=
  List.countP_append

theorem slowHits_count (doc w : Str) {order : List Nat} (once : (order.map (getItemAtInt l)).Nodup) :
    hitsOf l (slowHits l doc order) w = if w ∈ order.map (getItemAtInt l) then slowCount doc w else 0 := by
  induction order with
  | nil => rfl
  | cons i order ih =>
    rw [List.map_cons, List.nodup_cons] at once
    have split : slowHits l doc (i :: order) =
        List.replicate (slowCount doc (getItemAtInt l i)) i ++ slowHits l doc order := List.flatMap_cons
    rw [split, hitsOf_append, ih once.2]
    by_cases same : w = getItemAtInt l i
    · have absent : w ∉ order.map (getItemAtInt l) := same ▸ once.1
      have listed : w ∈ (i :: order).map (getItemAtInt l) := by simp [same]
      rw [if_neg absent, if_pos listed, hitsOf, List.countP_replicate]
      simp [same]
    · have different : ¬ getItemAtInt l i = w := fun h => same h.symm
      simp [hitsOf, List.countP_replicate, same, different]

theorem found_count {root : Links} (distinct : root.Distinct)
    (spelled : ∀ e ∈ root.words, e.1 = getItemAtInt l e.2) (w text : Str) :
    hitsOf l (root.found text) w =
      if w ∈ root.words.map Prod.fst ∧ w.isPrefixOf text then 1 else 0 := by
  have once := Forest.words_nodup distinct
  have counted : hitsOf l (root.found text) w =
      root.words.countP fun e => e.1.isPrefixOf text && e.1 == w := by
    rw [hitsOf, Forest.found, List.countP_map, List.countP_filter]
    apply List.countP_congr
    intro e member
    simp [spelled e member, and_comm]
  rw [counted]
  by_cases starts : w.isPrefixOf text
  · have onlyText : (root.words.countP fun e => e.1.isPrefixOf text && e.1 == w) =
        (root.words.map Prod.fst).count w := by
      rw [List.count, List.countP_map]
      apply List.countP_congr
      intro e member
      simp only [Bool.and_eq_true, beq_iff_eq, Function.comp_apply]
      constructor
      · exact And.right
      · intro same
        exact ⟨same ▸ starts, same⟩
    rw [onlyText]
    by_cases member : w ∈ root.words.map Prod.fst
    · rw [List.count_eq_one_of_mem once member, if_pos ⟨member, starts⟩]
    · rw [List.count_eq_zero_of_not_mem member, if_neg fun h => member h.1]
  · rw [if_neg fun h => starts h.2, List.countP_eq_zero]
    intro e member both
    simp only [Bool.and_eq_true, beq_iff_eq] at both
    exact starts (both.2 ▸ both.1)

theorem walkHits_count {root : Links} (distinct : root.Distinct)
    (spelled : ∀ e ∈ root.words, e.1 = getItemAtInt l e.2) (w doc : Str) (order : List Nat) :
    hitsOf l (order.flatMap fun i => root.found (doc.drop i)) w =
      if w ∈ root.words.map Prod.fst then order.countP (occursAt w doc) else 0 := by
  induction order with
  | nil => simp [hitsOf]
  | cons i order ih =>
    rw [List.flatMap_cons, hitsOf_append, ih, found_count l distinct spelled, List.countP_cons]
    by_cases member : w ∈ root.words.map Prod.fst
    · simp [member, occursAt, Nat.add_comm]
    · simp [member]

end Search

/-- What stands behind the document when a phrase is searched for: the phrase itself if it is
    on the slow list, else what the sentinels of the slow list have left. -/
def behind (g : PhraseGraph) (len : Nat) (tail w : Str) : Str :=
  if w ∈ g.slowgraph.map (getItemAtInt g.list) then sentinel len w
  else tailAfter g.list len tail g.slowgraph

def searchCount (g : PhraseGraph) (doc tail w : Str) : Nat :=
  countBetween w (doc ++ behind g doc.length tail w) 0 doc.length

section Result
variable {l : PhraseList} {g : PhraseGraph} {doc tail : Str}

def allHits (g : PhraseGraph) (doc tail : Str) : List Nat :=
  slowHits g.list doc g.slowgraph ++ (List.range doc.length).flatMap fun i =>
    g.root.found ((doc ++ tailAfter g.list doc.length tail g.slowgraph).drop i)

theorem graphSearch_eq (built : Built l g) (short : ∀ i < l.items.length, (getItemAtInt l i).length ≤ 126)
    (result : Found) (room : 126 ≤ tail.length) :
    graphSearch g result (doc ++ tail) doc.length =
      some (doc ++ tailAfter g.list doc.length tail g.slowgraph,
        (allHits g doc tail).foldl (noteFound g.list) result) := by
  have slowShort : ∀ i ∈ g.slowgraph, (getItemAtInt g.list i).length ≤ 126 := by
    intro i listed
    rw [built.textOf]
    exact short i (built.entry_listed (List.mem_append_left _ listed))
  obtain ⟨slow, tailLength⟩ := slowSearch_eq g.list doc g.slowgraph tail result slowShort room
  rw [graphSearch, slow, allHits, List.foldl_append]
  dsimp only
  split
  · rename_i forced
    have noWalk : ((List.range doc.length).flatMap fun i =>
        g.root.found ((doc ++ tailAfter g.list doc.length tail g.slowgraph).drop i)) = [] := by
      rw [built.forced forced]
      exact List.flatMap_eq_nil_iff.mpr fun _ _ => rfl
    rw [noWalk]
    rfl
  · rw [walkSearch_eq g.list built.distinct]
    · rfl
    · intro i member
      have low := built.short 126 short
      have before : i < doc.length := List.mem_range.mp member
      rw [List.length_drop, List.length_append]
      omega

theorem allHits_count (built : Built l g) (w : Str) :
    hitsOf g.list (allHits g doc tail) w = if w ∈ texts l then searchCount g doc tail w else 0 := by
  have spelled : ∀ e ∈ g.root.words, e.1 = getItemAtInt g.list e.2 := by
    rw [built.textOf]
    exact built.spelled
  rw [allHits, hitsOf_append, slowHits_count g.list doc w built.slow_distinct,
    walkHits_count g.list built.distinct spelled]
  by_cases slow : w ∈ g.slowgraph.map (getItemAtInt g.list)
  · have noWord : w ∉ g.root.words.map Prod.fst := fun word => built.not_slow_of_word word slow
    have listed : w ∈ texts l := (built.mem_texts_iff w).mpr (.inl slow)
    rw [if_pos slow, if_neg noWord, if_pos listed, searchCount, behind, if_pos slow]
    rfl
  · rw [if_neg slow, Nat.zero_add]
    by_cases word : w ∈ g.root.words.map Prod.fst
    · have listed : w ∈ texts l := (built.mem_texts_iff w).mpr (.inr word)
      rw [if_pos word, if_pos listed, searchCount, behind, if_neg slow, countBetween,
        List.range_eq_range', Nat.sub_zero]
    · have unlisted : w ∉ texts l := fun listed => ((built.mem_texts_iff w).mp listed).elim slow word
      rw [if_neg word, if_neg unlisted]

theorem allHits_entries {x : Nat} (hit : x ∈ allHits g doc tail) : x ∈ entries g := by
  rcases List.mem_append.mp hit with slow | walked
  · obtain ⟨i, listed, copies⟩ := List.mem_flatMap.mp slow
    rw [List.eq_of_mem_replicate copies]
    exact List.mem_append_left _ listed
  · obtain ⟨i, -, found⟩ := List.mem_flatMap.mp walked
    obtain ⟨e, member, rfl⟩ := List.mem_map.mp found
    exact List.mem_append_right _ (List.mem_map.mpr ⟨e, List.mem_of_mem_filter member, rfl⟩)

/-- The map that a search fills: for each text that it counted its entry in the merged list. -/
structure Filled (l : PhraseList) (g : PhraseGraph) (count : Str → Nat) (result : Found) : Prop where
  ordered : Ordered result
  mem_iff : ∀ w x c, (w, x, c) ∈ result ↔ x ∈ entries g ∧ getItemAtInt l x = w ∧ 0 < c ∧ c = count w

theorem filled_of_hits (built : Built l g) {hits : List Nat} (listed : ∀ x ∈ hits, x ∈ entries g) :
    Filled l g (hitsOf g.list hits) (hits.foldl (noteFound g.list) []) := by
  have empty : Ordered ([] : Found) := List.Pairwise.nil
  have ordered := foldl_noteFound_ordered g.list hits empty
  have once := ordered.nodup_keys
  refine ⟨ordered, ?_⟩
  intro w x c
  have new : find w ([] : Found) = none := rfl
  have entry := foldl_noteFound_find g.list hits w new
  constructor
  · intro member
    rw [find_of_mem once member] at entry
    obtain ⟨hit, text, positive, count⟩ := entry
    rw [built.textOf] at text
    exact ⟨listed x hit, text, positive, count⟩
  · rintro ⟨isEntry, text, positive, count⟩
    split at entry
    · omega
    · rename_i index counted found
      obtain ⟨hit, textOf, -, sameCount⟩ := entry
      rw [built.textOf] at textOf
      have sameIndex : index = x := built.merged.eq_of_text (listed index hit) isEntry (textOf.trans text.symm)
      rw [count, ← sameCount, ← sameIndex]
      exact mem_of_find found

theorem Filled.congr {result : Found} (built : Built l g) {count count' : Str → Nat} (filled : Filled l g count result)
    (same : ∀ w ∈ texts l, count w = count' w) : Filled l g count' result := by
  refine ⟨filled.ordered, fun w x c => ?_⟩
  rw [filled.mem_iff]
  refine and_congr_right fun entry => and_congr_right fun text => and_congr_right fun _ => ?_
  rw [same w (mem_texts_iff.mpr ⟨x, built.entry_listed entry, text⟩)]

theorem graphSearch_filled (built : Built l g) (doc tail : Str)
    (short : ∀ i < l.items.length, (getItemAtInt l i).length ≤ 126) (room : 126 ≤ tail.length) :
    ∃ file result, graphSearch g [] (doc ++ tail) doc.length = some (file, result) ∧
      Filled l g (searchCount g doc tail) result := by
  refine ⟨_, _, graphSearch_eq built short [] room, ?_⟩
  refine (filled_of_hits built fun x hit => allHits_entries hit).congr built fun w listed => ?_
  rw [allHits_count built, if_pos listed]

/-- One entry for each listed text that occurs in the document, with its occurrences. -/
def SearchExact (l : PhraseList) (doc : Str) (result : Found) : Prop :=
  (result.map Prod.fst).Nodup ∧
    ∀ w c, (∃ x, (w, x, c) ∈ result) ↔ w ∈ texts l ∧ 0 < c ∧ c = occurrences w doc

theorem Filled.exact_iff {result : Found} {count : Str → Nat} (built : Built l g) (filled : Filled l g count result) :
    SearchExact l doc result ↔ ∀ w ∈ texts l, count w = occurrences w doc := by
  have entryOf : ∀ w ∈ texts l, ∃ x ∈ entries g, getItemAtInt l x = w := by
    intro w listed
    obtain ⟨i, inside, rfl⟩ := mem_texts_iff.mp listed
    exact built.merged.covered i (List.mem_range.mpr inside)
  have member_iff : ∀ w c, (∃ x, (w, x, c) ∈ result) ↔
      w ∈ texts l ∧ 0 < c ∧ c = count w := by
    intro w c
    constructor
    · rintro ⟨x, member⟩
      obtain ⟨entry, text, counts⟩ := (filled.mem_iff w x c).mp member
      exact ⟨mem_texts_iff.mpr ⟨x, built.entry_listed entry, text⟩, counts⟩
    · rintro ⟨listed, counts⟩
      obtain ⟨x, entry, text⟩ := entryOf w listed
      exact ⟨x, (filled.mem_iff w x c).mpr ⟨entry, text, counts⟩⟩
  constructor
  · rintro ⟨-, exact⟩ w listed
    by_contra different
    by_cases counted : 0 < count w
    · have entry := (exact w _).mp ((member_iff w _).mpr ⟨listed, counted, rfl⟩)
      exact different entry.2.2
    · have entry := (member_iff w _).mp ((exact w _).mpr ⟨listed, by omega, rfl⟩)
      exact different entry.2.2.symm
  · intro same
    refine ⟨filled.ordered.nodup_keys, ?_⟩
    intro w c
    rw [member_iff]
    constructor
    · rintro ⟨listed, positive, count⟩
      exact ⟨listed, positive, count.trans (same w listed)⟩
    · rintro ⟨listed, positive, count⟩
      exact ⟨listed, positive, count.trans (same w listed).symm⟩

end Result

def bannedTexts (phrases : List Str) : PhraseList :=
  { PhraseList.empty with items := phrases.map fun s => ⟨s, 0, 0, -1, -1⟩ }

def branching : PhraseList := bannedTexts ((str "abcdefghijklm").map fun c => [ch 'a', c])

def branchingGraph : PhraseGraph where
  list := branching
  force_quick_search := false
  slowgraph := []
  root := .cons (ch 'a') false 11 (((str "lkjihgfedcbam").zip [11, 10, 9, 8, 7, 6, 5, 4, 3, 2, 1, 0, 12]).foldr
    (fun e rest => .cons e.1 true e.2 .nil rest) .nil) .nil

/- A search with phrases of every length on the slow list. -/
def slowTimes (doc s : Str) : Nat := if s.length ≤ 126 then slowCount doc s else 0

def slowNotes (l : PhraseList) (doc : Str) (order : List Nat) : List Nat :=
  order.flatMap fun i => List.replicate (slowTimes doc (getItemAtInt l i)) i

def sought (len : Nat) (s : Str) : Str := if s.length ≤ len ∧ s.length ≤ 126 then s else []

def stamp (l : PhraseList) (len : Nat) : List Nat → Str
  | [] => []
  | i :: order => stamp l len order ++ (sought len (getItemAtInt l i)).drop (stamp l len order).length

def stampOn (mark tail : Str) : Str := mark ++ tail.drop mark.length

theorem stampOn_stampOn (mark under tail : Str) :
    stampOn mark (stampOn under tail) = stampOn (mark ++ under.drop mark.length) tail := by
  unfold stampOn
  rw [List.drop_append, List.drop_drop, List.append_assoc, List.length_append, List.length_drop]
  congr 3
  omega

theorem stamp_length (l : PhraseList) (len : Nat) (order : List Nat) : (stamp l len order).length ≤ 126 := by
  induction order with
  | nil => exact Nat.zero_le _
  | cons i order ih =>
    have one : (sought len (getItemAtInt l i)).length ≤ 126 := by
      unfold sought
      split
      · rename_i short
        exact short.2
      · exact Nat.zero_le _
    rw [stamp, List.length_append, List.length_drop]
    omega

theorem bmsearch_any (doc : Str) {tail : Str} (s : Str) (room : 126 ≤ tail.length) :
    bmsearch (doc ++ tail) doc.length s = some (doc ++ stampOn (sought doc.length s) tail, slowTimes doc s) := by
  by_cases short : s.length ≤ 126
  · rw [bmsearch_eq doc short (short.trans room), slowTimes, if_pos short, slowCount]
    unfold leftBehind sentinel stampOn sought
    by_cases long : doc.length < s.length
    · rw [if_pos long, if_neg (by omega)]
    · rw [if_neg long, if_pos ⟨by omega, short⟩]
  · unfold bmsearch slowTimes sought stampOn
    dsimp only
    rw [if_neg short, if_pos (by omega : s.length > 126), ite_self, if_neg fun both => short both.2]
    rfl

theorem slowSearch_any (l : PhraseList) (doc : Str) (order : List Nat) {tail : Str} (result : Found)
    (room : 126 ≤ tail.length) :
    slowSearch l doc.length order (doc ++ tail, result) =
      some (doc ++ stampOn (stamp l doc.length order) tail, (slowNotes l doc order).foldl (noteFound l) result) := by
  induction order generalizing tail result with
  | nil => rfl
  | cons i order ih =>
    have kept : 126 ≤ (stampOn (sought doc.length (getItemAtInt l i)) tail).length := by
      rw [stampOn, List.length_append, List.length_drop]
      omega
    have notes : slowNotes l doc (i :: order) =
        List.replicate (slowTimes doc (getItemAtInt l i)) i ++ slowNotes l doc order := List.flatMap_cons
    rw [slowSearch, bmsearch_any doc _ room, notes, List.foldl_append]
    dsimp only
    rw [ih _ kept, stampOn_stampOn]
    rfl

def hitsBefore (g : PhraseGraph) (doc tail : Str) : List Nat :=
  slowNotes g.list doc g.slowgraph ++ (List.range doc.length).flatMap fun i => g.root.found ((doc ++ tail).drop i)

def marked (g : PhraseGraph) (len : Nat) (tail : Str) : Str := stampOn (stamp g.list len g.slowgraph) tail

theorem graphSearch_any {l : PhraseList} {g : PhraseGraph} (built : Built l g) (short : ∀ w ∈ texts l, w.length ≤ 127)
    (doc : Str) {tail : Str} (room : 127 ≤ tail.length) :
    graphSearch g [] (doc ++ tail) doc.length = some (doc ++ marked g doc.length tail,
      (hitsBefore g doc (marked g doc.length tail)).foldl (noteFound g.list) []) := by
  rw [graphSearch, slowSearch_any g.list doc g.slowgraph [] (by omega : 126 ≤ tail.length), hitsBefore,
    List.foldl_append]
  dsimp only
  split
  · rename_i forced
    have noWalk : ((List.range doc.length).flatMap fun i =>
        g.root.found ((doc ++ marked g doc.length tail).drop i)) = [] := by
      rw [built.forced forced]
      exact List.flatMap_eq_nil_iff.mpr fun _ _ => rfl
    rw [noWalk]
    rfl
  · rw [walkSearch_eq g.list built.distinct]
    · rfl
    · intro i member
      have low := built.short 127 fun i inside => short _ (mem_texts_iff.mpr ⟨i, inside, rfl⟩)
      have before : i < doc.length := List.mem_range.mp member
      rw [List.length_drop, List.length_append, stampOn, List.length_append, List.length_drop]
      omega

theorem hitsBefore_entries {g : PhraseGraph} {doc tail : Str} {x : Nat} (hit : x ∈ hitsBefore g doc tail) :
    x ∈ entries g := by
  rcases List.mem_append.mp hit with slow | walked
  · obtain ⟨i, listed, copies⟩ := List.mem_flatMap.mp slow
    rw [List.eq_of_mem_replicate copies]
    exact List.mem_append_left _ listed
  · obtain ⟨i, -, found⟩ := List.mem_flatMap.mp walked
    obtain ⟨e, member, rfl⟩ := List.mem_map.mp found
    exact List.mem_append_right _ (List.mem_map.mpr ⟨e, List.mem_of_mem_filter member, rfl⟩)

theorem hitsBefore_count {l : PhraseList} {g : PhraseGraph} (built : Built l g) (doc tail w : Str) :
    hitsOf g.list (hitsBefore g doc tail) w = hitsOf g.list (slowNotes g.list doc g.slowgraph) w +
      if w ∈ g.root.words.map Prod.fst then (List.range doc.length).countP (occursAt w (doc ++ tail)) else 0 := by
  have spelled : ∀ e ∈ g.root.words, e.1 = getItemAtInt g.list e.2 := by
    rw [built.textOf]
    exact built.spelled
  rw [hitsBefore, hitsOf_append, walkHits_count g.list built.distinct spelled]

end GuardianPhraseSearch
