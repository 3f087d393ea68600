import E2Guardian.PhraseList
import E2Guardian.ThreeWaySort
import E2Guardian.WordTrie

/- The phrase graph of ListContainer: makeGraph with the sort by length, the insertion into the
   graph, the merge of lines with one text, and the move of sparse root branches to the list
   of phrases that are searched for one by one. The array of nodes is a tree here; what is
   done to the array itself comes to the same (GuardianPhraseNodes). None stands for the exit
   of the program when a node has no room for another link. -/
namespace GuardianPhraseGraph
open GuardianString GuardianPhraseList WordTrie

def rootNodeSize : Nat := 260
def graphEntrySize : Nat := 64
def maxRootLinks : Nat := rootNodeSize - 4
def maxLinks : Nat := graphEntrySize - 4

abbrev Links := Forest UInt8 Nat

structure PhraseGraph where
  list : PhraseList -- its items as they are after the merges
  force_quick_search : Bool
  slowgraph : List Nat
  root : Links
  deriving DecidableEq, Repr

def graphSizeSort (l : PhraseList) (sizelist : List Nat) : Option (List Nat) :=
  ThreeWaySort.sort (fun i => (getItemAtInt l i).length) sizelist.length sizelist 0
    (sizelist.length - 1)

/-- The sort ends within the deque, which then has the same items with the shorter phrases first. -/
theorem graphSizeSort_sorts (l : PhraseList) (sizelist : List Nat) :
    ∃ sorted, graphSizeSort l sizelist = some sorted ∧ sorted.Perm sizelist ∧
      sorted.Pairwise fun x y => (getItemAtInt l x).length ≤ (getItemAtInt l y).length :=
  ThreeWaySort.sort_whole (fun i => (getItemAtInt l i).length) sizelist

-- charAt(0) of an empty string is 0; the letters of one node's links differ, so that at most
-- one of them matches
def graphAdd (st : PhraseList × Links) (item : Nat) : Option (PhraseList × Links) :=
  let s := getItemAtInt st.1 item
  (st.2.add maxLinks item maxRootLinks (s.headD 0) s.tail).map fun
    | (root, none) => (st.1, root)
    | (root, some px) => (resolveCollision st.1 px item, root)

/-- Puts a phrase on the slow list unless its text is there. -/
def storeSlow (st : PhraseList × List Nat) (phrasenumber : Nat) : PhraseList × List Nat :=
  match st.2.find? fun i => getItemAtInt st.1 i == getItemAtInt st.1 phrasenumber with
  | none => (st.1, st.2 ++ [phrasenumber])
  | some foundindex => (resolveCollision st.1 foundindex phrasenumber, st.2)

def linkCount : Links → Nat
  | .nil => 0
  | .cons _ _ _ _ rest => linkCount rest + 1

def linkBranches : Links → Nat
  | .nil => 0
  | .cons _ _ _ links rest => linkBranches links + (linkCount links - 1) + linkBranches rest

def graphFindBranches (links : Links) : Nat := linkBranches links + (linkCount links - 1)

def graphCopyNodePhrases (node : Links) (st : PhraseList × List Nat) : PhraseList × List Nat :=
  node.items.foldl storeSlow st

/-- From the last root link to the first: those with few branches go to the slow list. -/
def moveSparse : Links → PhraseList × List Nat → Links × PhraseList × List Nat
  | .nil, st => (.nil, st)
  | .cons letter last item links rest, st =>
    let (rest, st) := moveSparse rest st
    if graphFindBranches links < 12 then
      (rest, graphCopyNodePhrases (.cons letter last item links .nil) st)
    else (.cons letter last item links rest, st)

attribute [local simp] moveSparse

def makeGraph (fqs : Bool) (l : PhraseList) : Option PhraseGraph :=
  if l.items.length = 0 then some ⟨l, fqs, [], .nil⟩
  else if fqs then
    let (l, slowgraph) := (List.range l.items.length).foldl storeSlow (l, [])
    some ⟨l, true, slowgraph, .nil⟩
  else
    match graphSizeSort l (List.range l.items.length) with
    | none => none
    | some sizelist =>
      match sizelist.foldlM graphAdd (l, .nil) with
      | none => none
      | some (l, root) =>
        let (root, l, slowgraph) := moveSparse root (l, [])
        some ⟨l, false, slowgraph, root⟩

/- What merging keeps: the order of the kinds of phrases is exception, banned, weighted
   (the heavier first), part of a combination. -/
def level (item : PhraseItem) : Nat :=
  if item.type = -1 then 3 else if item.type = 0 then 2 else if item.type = 1 then 1 else 0

/-- The second item ranks at least as high as the first. -/
def AtMost (a b : PhraseItem) : Prop :=
  level a < level b ∨ (level a = level b ∧ (a.type = 1 → a.weight ≤ b.weight))

def Kind (item : PhraseItem) : Prop :=
  item.type = -1 ∨ item.type = 0 ∨ item.type = 1 ∨ 9 < item.type

def Typed (l : PhraseList) : Prop := ∀ item ∈ l.items, Kind item

def texts (l : PhraseList) : List Str := l.items.map PhraseItem.text

theorem getItemAtInt_eq (l : PhraseList) (i : Nat) : getItemAtInt l i = (texts l)[i]?.getD [] := by
  rw [getItemAtInt, texts, List.getElem?_map]

theorem mem_texts_iff {l : PhraseList} {w : Str} :
    w ∈ texts l ↔ ∃ i < l.items.length, getItemAtInt l i = w := by
  rw [List.mem_iff_getElem?]
  constructor
  · rintro ⟨i, there⟩
    have inside : i < (texts l).length := (List.getElem?_eq_some_iff.mp there).1
    refine ⟨i, by simpa [texts] using inside, ?_⟩
    rw [getItemAtInt_eq, there]
    rfl
  · rintro ⟨i, inside, rfl⟩
    have listed : i < (texts l).length := by simpa [texts] using inside
    refine ⟨i, ?_⟩
    rw [getItemAtInt_eq, List.getElem?_eq_getElem listed]
    rfl

theorem getItemAtInt_congr {l l' : PhraseList} (same : texts l' = texts l) (i : Nat) :
    getItemAtInt l' i = getItemAtInt l i := by
  rw [getItemAtInt_eq, getItemAtInt_eq, same]

theorem AtMost.refl (a : PhraseItem) : AtMost a a := .inr ⟨rfl, fun _ => le_refl _⟩

theorem AtMost.trans {a b c : PhraseItem} (first : AtMost a b) (second : AtMost b c) : AtMost a c := by
  unfold AtMost level at *
  grind

theorem takeOver_text (found new : PhraseItem) : (found.takeOver new).text = found.text := by
  unfold PhraseItem.takeOver
  split <;> rfl

theorem takeOver_best {found new : PhraseItem} (first : Kind found) (second : Kind new) :
    AtMost found (found.takeOver new) ∧ AtMost new (found.takeOver new) := by
  unfold PhraseItem.takeOver overrides AtMost level Kind at *
  grind

theorem takeOver_of_text {found new : PhraseItem} (same : new.text = found.text) :
    found.takeOver new = found ∨ found.takeOver new = new := by
  unfold PhraseItem.takeOver
  split
  · exact .inr (by rw [← same])
  · exact .inl rfl

theorem set_of_getElem? {α : Type} {as : List α} {i : Nat} {x : α} (there : as[i]? = some x) :
    as.set i x = as := by
  obtain ⟨inside, rfl⟩ := List.getElem?_eq_some_iff.mp there
  exact List.set_getElem_self inside

theorem resolveCollision_eq {l : PhraseList} {foundindex i : Nat} {found new : PhraseItem}
    (there : l.items[foundindex]? = some found) (here : l.items[i]? = some new) :
    resolveCollision l foundindex i =
      { l with items := l.items.set foundindex (found.takeOver new) } := by
  rw [resolveCollision, there, here]

theorem resolveCollision_frame (l : PhraseList) (foundindex i : Nat) :
    resolveCollision l foundindex i = { l with items := (resolveCollision l foundindex i).items } := by
  unfold resolveCollision
  split <;> rfl

theorem resolveCollision_texts (l : PhraseList) (foundindex i : Nat) :
    texts (resolveCollision l foundindex i) = texts l := by
  unfold resolveCollision
  split
  · rename_i found new there here
    have text : (texts l)[foundindex]? = some found.text := by
      rw [texts, List.getElem?_map, there]
      rfl
    rw [texts, List.map_set, takeOver_text]
    exact set_of_getElem? text
  · rfl

/-- A phrase that ranks no higher than itself changes nothing. -/
theorem resolveCollision_self (l : PhraseList) (i : Nat) : resolveCollision l i i = l := by
  cases here : l.items[i]? with
  | none => rw [resolveCollision, here]
  | some item =>
    have same : item.takeOver item = item := (takeOver_of_text rfl).elim id id
    rw [resolveCollision_eq here here, same, set_of_getElem? here]

/-- One phrase meets those that stand for the texts so far. -/
def MergeStep (l : PhraseList) (reps : List Nat) (i : Nat) (l' : PhraseList) (reps' : List Nat) : Prop :=
  (∃ r ∈ reps, getItemAtInt l r = getItemAtInt l i ∧ l' = resolveCollision l r i ∧ reps'.Perm reps) ∨
    ((∀ r ∈ reps, getItemAtInt l r ≠ getItemAtInt l i) ∧ l' = l ∧ reps'.Perm (i :: reps))

/-- After some of the lines of a list: each of their texts has one entry, which holds the
    highest ranking one of them. -/
structure Merged (l₀ l : PhraseList) (done reps : List Nat) : Prop where
  frame : l = { l₀ with items := l.items }
  texts : texts l = texts l₀
  untouched : ∀ i, i ∉ reps → l.items[i]? = l₀.items[i]?
  inside : ∀ i ∈ done, i < l₀.items.length
  subset : ∀ r ∈ reps, r ∈ done
  distinct : (reps.map (getItemAtInt l₀)).Nodup
  covered : ∀ i ∈ done, ∃ r ∈ reps, getItemAtInt l₀ r = getItemAtInt l₀ i
  origin : ∀ r ∈ reps, ∃ m ∈ done, l.items[r]? = l₀.items[m]?
  best : Typed l₀ → ∀ r ∈ reps, ∀ m ∈ done, getItemAtInt l₀ m = getItemAtInt l₀ r →
    ∀ a b, l₀.items[m]? = some a → l.items[r]? = some b → AtMost a b

theorem Merged.start (l : PhraseList) : Merged l l [] [] where
  frame := rfl
  texts := rfl
  untouched _ _ := rfl
  inside _ member := by cases member
  subset _ member := by cases member
  distinct := List.nodup_nil
  covered _ member := by cases member
  origin _ member := by cases member
  best _ _ member := by cases member

theorem Merged.perm {l₀ l : PhraseList} {done reps reps' : List Nat} (merged : Merged l₀ l done reps)
    (same : reps'.Perm reps) : Merged l₀ l done reps' where
  frame := merged.frame
  texts := merged.texts
  untouched i out := merged.untouched i fun member => out (same.mem_iff.mpr member)
  inside := merged.inside
  subset r member := merged.subset r (same.mem_iff.mp member)
  distinct := (same.map _).nodup_iff.mpr merged.distinct
  covered i member := by
    obtain ⟨r, rep, text⟩ := merged.covered i member
    exact ⟨r, same.mem_iff.mpr rep, text⟩
  origin r member := merged.origin r (same.mem_iff.mp member)
  best typed r member := merged.best typed r (same.mem_iff.mp member)

theorem Merged.eq_of_text {l₀ l : PhraseList} {done reps : List Nat} (merged : Merged l₀ l done reps)
    {r s : Nat} (first : r ∈ reps) (second : s ∈ reps) (same : getItemAtInt l₀ r = getItemAtInt l₀ s) :
    r = s :=
  List.inj_on_of_nodup_map merged.distinct first second same

theorem Merged.text_eq {l₀ l : PhraseList} {done reps : List Nat} (merged : Merged l₀ l done reps)
    {i : Nat} {item : PhraseItem} (there : l.items[i]? = some item) : item.text = getItemAtInt l₀ i := by
  rw [← getItemAtInt_congr merged.texts, getItemAtInt, there]
  rfl

theorem Merged.item {l₀ l : PhraseList} {done reps : List Nat} (merged : Merged l₀ l done reps)
    {r : Nat} (rep : r ∈ reps) : ∃ item, l.items[r]? = some item := by
  obtain ⟨m, line, from_⟩ := merged.origin r rep
  exact ⟨_, from_.trans (List.getElem?_eq_getElem (merged.inside m line))⟩

/-- A text that has an entry: the entry takes the line over if that ranks higher. -/
theorem Merged.collide {l₀ l : PhraseList} {done reps : List Nat} (merged : Merged l₀ l done reps)
    {i r : Nat} (new : i ∉ done) (inList : i < l₀.items.length) (rep : r ∈ reps)
    (same : getItemAtInt l₀ r = getItemAtInt l₀ i) :
    Merged l₀ (resolveCollision l r i) (done ++ [i]) reps := by
  obtain ⟨line, here⟩ : ∃ line, l₀.items[i]? = some line := ⟨_, List.getElem?_eq_getElem inList⟩
  have hereNow : l.items[i]? = some line := by
    rw [merged.untouched i fun member => new (merged.subset i member), here]
  obtain ⟨found, there⟩ := merged.item rep
  have sameText : line.text = found.text := by
    rw [merged.text_eq hereNow, merged.text_eq there, same]
  have placed : ∀ j, (resolveCollision l r i).items[j]? =
      if j = r then some (found.takeOver line) else l.items[j]? := by
    intro j
    rw [resolveCollision_eq there hereNow]
    split
    · rename_i atEntry
      rw [atEntry, List.getElem?_set_self (List.getElem?_eq_some_iff.mp there).1]
    · rename_i elsewhere
      rw [List.getElem?_set_ne fun h => elsewhere h.symm]
  refine ⟨?_, ?_, ?_, ?_, ?_, merged.distinct, ?_, ?_, ?_⟩
  · rw [resolveCollision_frame, merged.frame]
  · rw [resolveCollision_texts, merged.texts]
  · intro j out
    rw [placed, if_neg fun atEntry : j = r => out (atEntry ▸ rep)]
    exact merged.untouched j out
  · intro j member
    rcases List.mem_append.mp member with old | last
    · exact merged.inside j old
    · rwa [List.mem_singleton.mp last]
  · intro s member
    exact List.mem_append_left _ (merged.subset s member)
  · intro j member
    rcases List.mem_append.mp member with old | last
    · exact merged.covered j old
    · exact ⟨r, rep, by rw [same, List.mem_singleton.mp last]⟩
  · intro s member
    rw [placed]
    obtain ⟨m, lineOf, from_⟩ := merged.origin s member
    split
    · rename_i atEntry
      rcases takeOver_of_text sameText with kept | taken
      · exact ⟨m, List.mem_append_left _ lineOf, by rw [kept, ← there, ← atEntry, from_]⟩
      · exact ⟨i, by simp, by rw [taken, here]⟩
    · exact ⟨m, List.mem_append_left _ lineOf, from_⟩
  · intro typed s member m done' text a b first second
    rw [placed] at second
    split at second
    · rename_i atEntry
      have kindFound : Kind found := by
        obtain ⟨m', -, from_⟩ := merged.origin r rep
        exact typed found (List.mem_of_getElem? (from_ ▸ there))
      have kindLine : Kind line := typed line (List.mem_of_getElem? here)
      have ranks := takeOver_best kindFound kindLine
      rw [← Option.some.inj second]
      rcases List.mem_append.mp done' with old | last
      · rw [atEntry] at text
        exact (merged.best typed r rep m old text a found first there).trans ranks.1
      · rw [List.mem_singleton.mp last, here] at first
        rw [← Option.some.inj first]
        exact ranks.2
    · rename_i elsewhere
      rcases List.mem_append.mp done' with old | last
      · exact merged.best typed s member m old text a b first second
      · rw [List.mem_singleton.mp last, ← same] at text
        exact absurd (merged.eq_of_text member rep text.symm) elsewhere

theorem Merged.store {l₀ l : PhraseList} {done reps : List Nat} (merged : Merged l₀ l done reps)
    {i : Nat} (new : i ∉ done) (inList : i < l₀.items.length)
    (fresh : ∀ r ∈ reps, getItemAtInt l₀ r ≠ getItemAtInt l₀ i) :
    Merged l₀ l (done ++ [i]) (i :: reps) := by
  have unchanged : l.items[i]? = l₀.items[i]? :=
    merged.untouched i fun member => new (merged.subset i member)
  refine ⟨merged.frame, merged.texts, ?_, ?_, ?_, ?_, ?_, ?_, ?_⟩
  · intro j out
    exact merged.untouched j fun member => out (List.mem_cons_of_mem _ member)
  · intro j member
    rcases List.mem_append.mp member with old | last
    · exact merged.inside j old
    · rwa [List.mem_singleton.mp last]
  · intro s member
    rcases List.mem_cons.mp member with first | old
    · simp [first]
    · exact List.mem_append_left _ (merged.subset s old)
  · rw [List.map_cons, List.nodup_cons]
    refine ⟨?_, merged.distinct⟩
    intro member
    obtain ⟨r, rep, text⟩ := List.mem_map.mp member
    exact fresh r rep text
  · intro j member
    rcases List.mem_append.mp member with old | last
    · obtain ⟨r, rep, text⟩ := merged.covered j old
      exact ⟨r, List.mem_cons_of_mem _ rep, text⟩
    · exact ⟨i, List.mem_cons_self, by rw [List.mem_singleton.mp last]⟩
  · intro s member
    rcases List.mem_cons.mp member with first | old
    · exact ⟨i, by simp, by rw [first, unchanged]⟩
    · obtain ⟨m, line, from_⟩ := merged.origin s old
      exact ⟨m, List.mem_append_left _ line, from_⟩
  · intro typed s member m line text a b first second
    rcases List.mem_cons.mp member with atNew | old
    · rcases List.mem_append.mp line with earlier | last
      · obtain ⟨r, rep, textOf⟩ := merged.covered m earlier
        exact absurd (textOf.trans (text.trans (by rw [atNew]))) (fresh r rep)
      · rw [List.mem_singleton.mp last, ← unchanged, ← atNew, second] at first
        rw [Option.some.inj first]
        exact .refl a
    · rcases List.mem_append.mp line with earlier | last
      · exact merged.best typed s old m earlier text a b first second
      · rw [List.mem_singleton.mp last] at text
        exact absurd text.symm (fresh s old)

theorem Merged.step {l₀ l l' : PhraseList} {done reps reps' : List Nat}
    (merged : Merged l₀ l done reps) {i : Nat} (new : i ∉ done) (inList : i < l₀.items.length)
    (step : MergeStep l reps i l' reps') : Merged l₀ l' (done ++ [i]) reps' := by
  have textOf := getItemAtInt_congr merged.texts
  rcases step with ⟨r, rep, same, rfl, perm⟩ | ⟨fresh, rfl, perm⟩
  · rw [textOf, textOf] at same
    exact (merged.collide new inList rep same).perm perm
  · refine (merged.store new inList ?_).perm perm
    intro r rep
    rw [← textOf, ← textOf]
    exact fresh r rep

theorem Merged.perm_done {l₀ l : PhraseList} {done done' reps : List Nat}
    (merged : Merged l₀ l done reps) (same : done'.Perm done) : Merged l₀ l done' reps where
  frame := merged.frame
  texts := merged.texts
  untouched := merged.untouched
  inside i member := merged.inside i (same.mem_iff.mp member)
  subset r member := same.mem_iff.mpr (merged.subset r member)
  distinct := merged.distinct
  covered i member := merged.covered i (same.mem_iff.mp member)
  origin r member := by
    obtain ⟨m, line, from_⟩ := merged.origin r member
    exact ⟨m, same.mem_iff.mpr line, from_⟩
  best typed r member m line := merged.best typed r member m (same.mem_iff.mp line)

theorem storeSlow_step (st : PhraseList × List Nat) (i : Nat) :
    MergeStep st.1 st.2 i (storeSlow st i).1 (storeSlow st i).2 := by
  unfold storeSlow
  split
  · rename_i absent
    refine .inr ⟨?_, rfl, List.perm_append_singleton i st.2⟩
    intro r rep same
    simpa [same] using List.find?_eq_none.mp absent r rep
  · rename_i r there
    refine .inl ⟨r, List.mem_of_find?_eq_some there, ?_, rfl, .refl _⟩
    simpa using List.find?_some there

theorem storeSlow_run {l₀ : PhraseList} (order : List Nat) {done : List Nat} (st : PhraseList × List Nat)
    (merged : Merged l₀ st.1 done st.2) (once : (done ++ order).Nodup)
    (inList : ∀ i ∈ order, i < l₀.items.length) :
    Merged l₀ (order.foldl storeSlow st).1 (done ++ order) (order.foldl storeSlow st).2 := by
  induction order generalizing done st with
  | nil => simpa using merged
  | cons i order ih =>
    have new : i ∉ done := by
      intro member
      exact List.disjoint_of_nodup_append once member List.mem_cons_self
    have next := merged.step new (inList i List.mem_cons_self) (storeSlow_step st i)
    have rest := ih _ next (by simpa using once) fun j member => inList j (List.mem_cons_of_mem _ member)
    simpa using rest

structure Grown (l₀ l : PhraseList) (root : Links) (done : List Nat) : Prop where
  merged : Merged l₀ l done (root.words.map Prod.snd)
  distinct : root.Distinct
  owned : root.Owned
  spelled : ∀ e ∈ root.words, e.1 = getItemAtInt l₀ e.2

theorem graphAdd_grown {l₀ l l' : PhraseList} {root root' : Links} {done : List Nat} {i : Nat}
    (grown : Grown l₀ l root done) (added : graphAdd (l, root) i = some (l', root')) (new : i ∉ done)
    (inList : i < l₀.items.length) (text : getItemAtInt l₀ i ≠ [])
    (low : root.height ≤ (getItemAtInt l₀ i).length) :
    Grown l₀ l' root' (done ++ [i]) ∧ root'.height ≤ (getItemAtInt l₀ i).length := by
  have textOf := getItemAtInt_congr grown.merged.texts
  obtain ⟨p, t, letters⟩ := List.exists_cons_of_ne_nil text
  have sameLetters := (textOf i).trans letters
  rw [letters, List.length_cons] at low
  simp only [graphAdd, sameLetters, List.headD_cons, List.tail_cons, Option.map_eq_some_iff] at added
  obtain ⟨⟨f, clash⟩, inserted, result⟩ := added
  have distinct := Forest.add_distinct inserted grown.distinct
  have owned := Forest.add_owned inserted grown.owned low
  have height := Forest.add_height inserted low
  rw [letters, List.length_cons]
  cases clash with
  | none =>
    obtain ⟨rfl, rfl⟩ := Prod.ext_iff.mp result
    have words := Forest.add_words inserted grown.owned low
    have fresh : ∀ r ∈ root.words.map Prod.snd, getItemAtInt l r ≠ getItemAtInt l i := by
      intro r member same
      obtain ⟨e, word, rfl⟩ := List.mem_map.mp member
      have once := (words.map Prod.fst).nodup_iff.mp (Forest.words_nodup distinct)
      rw [List.map_cons, List.nodup_cons] at once
      refine once.1 (List.mem_map.mpr ⟨e, word, ?_⟩)
      rw [grown.spelled e word, ← textOf, same, sameLetters]
    have step : MergeStep l (root.words.map Prod.snd) i l (f.words.map Prod.snd) :=
      .inr ⟨fresh, rfl, words.map Prod.snd⟩
    refine ⟨⟨grown.merged.step new inList step, distinct, owned, ?_⟩, height⟩
    intro e member
    rcases List.mem_cons.mp (words.mem_iff.mp member) with rfl | old
    · exact letters.symm
    · exact grown.spelled e old
  | some px =>
    obtain ⟨rfl, rfl⟩ := Prod.ext_iff.mp result
    obtain ⟨rfl, word⟩ := Forest.add_clash inserted
    have step : MergeStep l (f.words.map Prod.snd) i (resolveCollision l px i) (f.words.map Prod.snd) := by
      refine .inl ⟨px, List.mem_map.mpr ⟨_, word, rfl⟩, ?_, rfl, .refl _⟩
      rw [sameLetters, textOf]
      exact (grown.spelled _ word).symm
    exact ⟨⟨grown.merged.step new inList step, distinct, owned, grown.spelled⟩, height⟩

theorem graphAdd_run {l₀ : PhraseList} (order : List Nat) {done : List Nat} {l l' : PhraseList}
    {root root' : Links} (grown : Grown l₀ l root done)
    (added : order.foldlM graphAdd (l, root) = some (l', root')) (once : (done ++ order).Nodup)
    (inList : ∀ i ∈ order, i < l₀.items.length) (text : ∀ i ∈ order, getItemAtInt l₀ i ≠ [])
    (sorted : order.Pairwise fun i j => (getItemAtInt l₀ i).length ≤ (getItemAtInt l₀ j).length)
    (low : ∀ i ∈ order, root.height ≤ (getItemAtInt l₀ i).length) {bound : Nat}
    (short : ∀ i ∈ order, (getItemAtInt l₀ i).length ≤ bound) (start : root.height ≤ bound) :
    Grown l₀ l' root' (done ++ order) ∧ root'.height ≤ bound := by
  induction order generalizing done l root with
  | nil =>
    obtain ⟨rfl, rfl⟩ := Prod.ext_iff.mp (Option.some.inj added)
    rw [List.append_nil]
    exact ⟨grown, start⟩
  | cons i order ih =>
    rw [List.foldlM_cons] at added
    obtain ⟨⟨l1, root1⟩, first, rest⟩ := Option.bind_eq_some_iff.mp added
    have new : i ∉ done := fun member =>
      List.disjoint_of_nodup_append once member List.mem_cons_self
    obtain ⟨above, sortedRest⟩ := List.pairwise_cons.mp sorted
    obtain ⟨grown1, height1⟩ := graphAdd_grown grown first new (inList i List.mem_cons_self)
      (text i List.mem_cons_self) (low i List.mem_cons_self)
    have result := ih grown1 rest (by simpa using once)
      (fun j member => inList j (List.mem_cons_of_mem _ member))
      (fun j member => text j (List.mem_cons_of_mem _ member)) sortedRest
      (fun j member => height1.trans (above j member))
      (fun j member => short j (List.mem_cons_of_mem _ member))
      (height1.trans (short i List.mem_cons_self))
    simpa using result

/- The root links that stay and those that are moved. -/
def dense : Links → Links
  | .nil => .nil
  | .cons letter last item links rest =>
    if graphFindBranches links < 12 then dense rest else .cons letter last item links (dense rest)

def sparse : Links → Links
  | .nil => .nil
  | .cons letter last item links rest =>
    if graphFindBranches links < 12 then .cons letter last item links (sparse rest) else sparse rest

def sparseItems : Links → List Nat
  | .nil => []
  | .cons letter last item links rest =>
    sparseItems rest ++
      if graphFindBranches links < 12 then Forest.items (.cons letter last item links .nil) else []

theorem moveSparse_eq (root : Links) (st : PhraseList × List Nat) :
    moveSparse root st = (dense root, (sparseItems root).foldl storeSlow st) := by
  induction root with
  | nil => rfl
  | cons letter last item links rest _ ih =>
    simp only [moveSparse, ih, dense, sparseItems, List.foldl_append]
    split <;> rfl

theorem mem_sparseItems (root : Links) (x : Nat) : x ∈ sparseItems root ↔ x ∈ (sparse root).items := by
  induction root with
  | nil => rfl
  | cons letter last item links rest _ ih =>
    rw [sparseItems, sparse, List.mem_append, ih]
    split
    · simp only [Forest.items, List.mem_append, List.mem_cons, List.not_mem_nil, or_false]
      rw [or_comm, or_assoc]
    · simp

theorem dense_sparse_words (root : Links) :
    ((sparse root).words ++ (dense root).words).Perm root.words := by
  induction root with
  | nil => exact .refl _
  | cons letter last item links rest _ ih =>
    rw [sparse, dense, Forest.words]
    split
    · rw [Forest.words, List.append_assoc]
      exact ih.append_left _
    · rw [Forest.words]
      exact (List.perm_append_comm_assoc _ _ _).trans (ih.append_left _)

theorem dense_letters (root : Links) {c : UInt8} (member : c ∈ (dense root).letters) :
    c ∈ root.letters := by
  induction root with
  | nil => exact member
  | cons letter last item links rest _ ih =>
    rw [dense] at member
    rw [Forest.letters, List.mem_cons]
    split at member
    · exact .inr (ih member)
    · rcases List.mem_cons.mp member with first | later
      · exact .inl first
      · exact .inr (ih later)

theorem dense_distinct {root : Links} (distinct : root.Distinct) : (dense root).Distinct := by
  induction root with
  | nil => trivial
  | cons letter last item links rest _ ih =>
    obtain ⟨fresh, linksDistinct, restDistinct⟩ := distinct
    rw [dense]
    split
    · exact ih restDistinct
    · exact ⟨fun member => fresh (dense_letters rest member), linksDistinct, ih restDistinct⟩

theorem dense_height (root : Links) : (dense root).height ≤ root.height := by
  induction root with
  | nil => exact le_refl _
  | cons letter last item links rest _ ih =>
    rw [dense, Forest.height]
    split
    · exact ih.trans (le_max_right _ _)
    · rw [Forest.height]
      omega

theorem sparse_owned {root : Links} (owned : root.Owned) : (sparse root).Owned := by
  induction root with
  | nil => trivial
  | cons letter last item links rest _ ih =>
    obtain ⟨mine, linksOwned, restOwned⟩ := owned
    rw [sparse]
    split
    · exact ⟨mine, linksOwned, ih restOwned⟩
    · exact ih restOwned

/-- Copying entries that stand for different texts changes no entry and copies each once. -/
theorem copy_eq {l₀ l : PhraseList} {done reps : List Nat} (merged : Merged l₀ l done reps)
    (xs : List Nat) (listed : ∀ x ∈ xs, x ∈ reps) {slow : List Nat} (slowListed : ∀ x ∈ slow, x ∈ reps)
    (once : slow.Nodup) :
    ∃ slow', xs.foldl storeSlow (l, slow) = (l, slow') ∧ slow'.Nodup ∧
      ∀ x, x ∈ slow' ↔ x ∈ slow ∨ x ∈ xs := by
  induction xs generalizing slow with
  | nil => exact ⟨slow, rfl, once, by simp⟩
  | cons y xs ih =>
    have textOf := getItemAtInt_congr merged.texts
    have step : ∃ slow1, storeSlow (l, slow) y = (l, slow1) ∧ slow1.Nodup ∧
        ∀ x, x ∈ slow1 ↔ x ∈ slow ∨ x = y := by
      unfold storeSlow
      split
      · rename_i absent
        have fresh : y ∉ slow := by
          intro member
          simpa using List.find?_eq_none.mp absent y member
        refine ⟨slow ++ [y], rfl, List.nodup_append.mpr ⟨once, List.nodup_singleton y, ?_⟩, by simp⟩
        intro x member z last same
        rw [List.mem_singleton.mp last] at same
        exact fresh (same ▸ member)
      · rename_i r there
        have member := List.mem_of_find?_eq_some there
        have same : r = y := by
          refine merged.eq_of_text (slowListed r member) (listed y List.mem_cons_self) ?_
          rw [← textOf, ← textOf]
          simpa using List.find?_some there
        refine ⟨slow, by rw [same, resolveCollision_self], once, ?_⟩
        intro x
        constructor
        · exact .inl
        · rintro (old | rfl)
          · exact old
          · exact same ▸ member
    obtain ⟨slow1, stored, once1, members1⟩ := step
    obtain ⟨slow', rest, once', members⟩ := ih (fun x member => listed x (List.mem_cons_of_mem _ member))
      (fun x member => by
        rcases (members1 x).mp member with old | rfl
        · exact slowListed x old
        · exact listed x List.mem_cons_self) once1
    refine ⟨slow', by rw [List.foldl_cons, stored, rest], once', ?_⟩
    intro x
    rw [members, members1, List.mem_cons, or_assoc]

def entries (g : PhraseGraph) : List Nat := g.slowgraph ++ g.root.words.map Prod.snd

/-- What makeGraph makes of a list: the phrases of the slow list and the words of the graph
    are, together, the entries of the merged list. -/
structure Built (l₀ : PhraseList) (g : PhraseGraph) : Prop where
  merged : Merged l₀ g.list (List.range l₀.items.length) (entries g)
  distinct : g.root.Distinct
  spelled : ∀ e ∈ g.root.words, e.1 = getItemAtInt l₀ e.2
  forced : g.force_quick_search = true → g.root = .nil
  short : ∀ bound, (∀ i < l₀.items.length, (getItemAtInt l₀ i).length ≤ bound) → g.root.height ≤ bound

theorem Grown.moved {l₀ l : PhraseList} {root : Links} {done : List Nat} (grown : Grown l₀ l root done) :
    ∃ slow, moveSparse root (l, []) = (dense root, l, slow) ∧
      Merged l₀ l done (slow ++ (dense root).words.map Prod.snd) := by
  have moved : ∀ x, x ∈ sparseItems root ↔ x ∈ (sparse root).words.map Prod.snd := by
    intro x
    rw [mem_sparseItems, Forest.mem_items_iff (sparse_owned grown.owned)]
    simp
  have all := (dense_sparse_words root).map Prod.snd
  rw [List.map_append] at all
  have listed : ∀ x ∈ sparseItems root, x ∈ root.words.map Prod.snd := fun x member =>
    all.subset (List.mem_append_left _ ((moved x).mp member))
  obtain ⟨slow, copied, once, members⟩ := copy_eq grown.merged (sparseItems root) listed
    (fun x member => by cases member) List.nodup_nil
  have different : (root.words.map Prod.snd).Nodup := List.Nodup.of_map _ grown.merged.distinct
  have sparseOnce : ((sparse root).words.map Prod.snd).Nodup :=
    (List.nodup_append.mp (all.nodup_iff.mpr different)).1
  have same : slow.Perm ((sparse root).words.map Prod.snd) := by
    rw [List.perm_ext_iff_of_nodup once sparseOnce]
    intro x
    rw [members, moved]
    simp
  refine ⟨slow, by rw [moveSparse_eq, copied], grown.merged.perm ?_⟩
  exact (same.append_right _).trans all

theorem Grown.start (l : PhraseList) : Grown l l .nil [] where
  merged := Merged.start l
  distinct := trivial
  owned := trivial
  spelled _ member := by cases member

/-- All lines of a list, the shorter ones first, leave a graph as high as the longest. -/
theorem graphAdd_sorted {l₀ l : PhraseList} {root : Links} {sorted : List Nat}
    (perm : sorted.Perm (List.range l₀.items.length))
    (ordered : sorted.Pairwise fun i j => (getItemAtInt l₀ i).length ≤ (getItemAtInt l₀ j).length)
    (text : ∀ i < l₀.items.length, getItemAtInt l₀ i ≠ [])
    (added : sorted.foldlM graphAdd (l₀, .nil) = some (l, root)) :
    Grown l₀ l root sorted ∧
      ∀ bound, (∀ i < l₀.items.length, (getItemAtInt l₀ i).length ≤ bound) → root.height ≤ bound := by
  have inRange : ∀ i ∈ sorted, i < l₀.items.length := fun i member =>
    List.mem_range.mp (perm.mem_iff.mp member)
  have grownTo := fun bound (short : ∀ i ∈ sorted, (getItemAtInt l₀ i).length ≤ bound) =>
    graphAdd_run sorted (Grown.start l₀) added (by simpa using perm.nodup_iff.mpr List.nodup_range)
      inRange (fun i member => text i (inRange i member)) ordered (fun _ _ => Nat.zero_le _) short
      (Nat.zero_le _)
  obtain ⟨longest, short⟩ : ∃ bound, ∀ i ∈ sorted, (getItemAtInt l₀ i).length ≤ bound :=
    ⟨(sorted.map fun i => (getItemAtInt l₀ i).length).max?.getD 0, fun i member =>
      List.le_max?_getD_of_mem (List.mem_map.mpr ⟨i, member, rfl⟩)⟩
  refine ⟨(grownTo longest short).1, ?_⟩
  intro bound within
  exact (grownTo bound fun i member => within i (inRange i member)).2

theorem makeGraph_built {fqs : Bool} {l₀ : PhraseList} {g : PhraseGraph}
    (text : ∀ i < l₀.items.length, getItemAtInt l₀ i ≠ []) (made : makeGraph fqs l₀ = some g) :
    Built l₀ g := by
  unfold makeGraph at made
  split at made
  · rename_i empty
    obtain rfl := Option.some.inj made
    refine ⟨?_, trivial, ?_, fun _ => rfl, fun _ _ => Nat.zero_le _⟩
    · rw [empty]
      exact Merged.start l₀
    · intro e member
      cases member
  · split at made
    · obtain rfl := Option.some.inj made
      have run := storeSlow_run (List.range l₀.items.length) (l₀, []) (Merged.start l₀)
        (by simpa using List.nodup_range) (fun i member => List.mem_range.mp member)
      refine ⟨by simpa [entries, Forest.words] using run, trivial, ?_, fun _ => rfl, fun _ _ => Nat.zero_le _⟩
      intro e member
      cases member
    · split at made
      · cases made
      · rename_i sizelist sizes
        obtain ⟨sorted, result, perm, ordered⟩ := ThreeWaySort.sort_whole
          (fun i => (getItemAtInt l₀ i).length) (List.range l₀.items.length)
        obtain rfl : sorted = sizelist := Option.some.inj (result.symm.trans sizes)
        split at made
        · cases made
        · rename_i l root added
          obtain ⟨grown, low⟩ := graphAdd_sorted perm ordered text added
          obtain ⟨slow, moved, merged⟩ := grown.moved
          rw [moved] at made
          obtain rfl := Option.some.inj made
          refine ⟨merged.perm_done perm.symm, dense_distinct grown.distinct, ?_, ?_, ?_⟩
          · intro e member
            exact grown.spelled e ((dense_sparse_words root).subset (List.mem_append_right _ member))
          · intro forced
            cases forced
          · intro bound within
            exact (dense_height root).trans (low bound within)

section Entries
variable {l : PhraseList} {g : PhraseGraph}

theorem Built.textOf (built : Built l g) : getItemAtInt g.list = getItemAtInt l :=
  funext (getItemAtInt_congr built.merged.texts)

theorem Built.slow_distinct (built : Built l g) : (g.slowgraph.map (getItemAtInt g.list)).Nodup := by
  have all := built.merged.distinct
  rw [entries, List.map_append, List.nodup_append] at all
  rw [built.textOf]
  exact all.1

theorem Built.not_slow_of_word (built : Built l g) {w : Str} (word : w ∈ g.root.words.map Prod.fst) :
    w ∉ g.slowgraph.map (getItemAtInt g.list) := by
  intro slow
  rw [built.textOf] at slow
  obtain ⟨e, member, spelled⟩ := List.mem_map.mp word
  have all := built.merged.distinct
  rw [entries, List.map_append, List.nodup_append] at all
  refine all.2.2 w slow w (List.mem_map.mpr ⟨e.2, List.mem_map.mpr ⟨e, member, rfl⟩, ?_⟩) rfl
  rw [← built.spelled e member, spelled]

theorem Built.entry_listed (built : Built l g) {x : Nat} (entry : x ∈ entries g) : x < l.items.length :=
  built.merged.inside x (built.merged.subset x entry)

theorem Built.mem_texts_iff (built : Built l g) (w : Str) :
    w ∈ texts l ↔ w ∈ g.slowgraph.map (getItemAtInt g.list) ∨ w ∈ g.root.words.map Prod.fst := by
  rw [GuardianPhraseGraph.mem_texts_iff, built.textOf]
  constructor
  · rintro ⟨i, inside, rfl⟩
    obtain ⟨r, entry, text⟩ := built.merged.covered i (List.mem_range.mpr inside)
    rcases List.mem_append.mp entry with slow | word
    · exact .inl (List.mem_map.mpr ⟨r, slow, text⟩)
    · obtain ⟨e, member, rfl⟩ := List.mem_map.mp word
      exact .inr (List.mem_map.mpr ⟨e, member, (built.spelled e member).trans text⟩)
  · rintro (slow | word)
    · obtain ⟨r, listed, text⟩ := List.mem_map.mp slow
      exact ⟨r, built.entry_listed (List.mem_append_left _ listed), text⟩
    · obtain ⟨e, member, text⟩ := List.mem_map.mp word
      refine ⟨e.2, built.entry_listed (List.mem_append_right _ (List.mem_map.mpr ⟨e, member, rfl⟩)), ?_⟩
      rw [← built.spelled e member, text]

end Entries

end GuardianPhraseGraph
