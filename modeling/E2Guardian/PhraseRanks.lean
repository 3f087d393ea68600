import E2Guardian.TimedVerdicts

/- What makeGraph keeps: each text of a list in one place, and for it one of the highest ranking lines that
   have it, whatever their order and whichever way the graph is made. -/
namespace GuardianPhraseRanks
open GuardianString GuardianPhraseList GuardianPhraseGraph GuardianPhraseSearch GuardianTimedVerdicts WordTrie

/- Each text in one place. -/

theorem count_of_nodup {ws : List Str} (once : ws.Nodup) (w : Str) : ws.count w = if w ∈ ws then 1 else 0 := by
  split
  · rename_i member
    exact List.count_eq_one_of_mem once member
  · rename_i absent
    exact List.count_eq_zero.mpr absent

/-- No phrase is lost, duplicated or invented: its text is on the slow list or spelled by a path from the root. -/
theorem every_text_kept_once {l : PhraseList} {g : PhraseGraph} (phrases : ∀ i < l.items.length, getItemAtInt l i ≠ [])
    (made : makeGraph false l = some g) :
    (∀ w, (g.slowgraph.map (getItemAtInt g.list)).count w + (g.root.words.map Prod.fst).count w =
      if w ∈ texts l then 1 else 0) ∧
    ∀ e ∈ g.root.words, e.1 = getItemAtInt g.list e.2 := by
  have built := makeGraph_built phrases made
  constructor
  · intro w
    rw [count_of_nodup built.slow_distinct, count_of_nodup (Forest.words_nodup built.distinct)]
    by_cases word : w ∈ g.root.words.map Prod.fst
    · rw [if_neg (built.not_slow_of_word word), if_pos word, if_pos ((built.mem_texts_iff w).mpr (.inr word))]
    · have same : w ∈ texts l ↔ w ∈ g.slowgraph.map (getItemAtInt g.list) := by
        rw [built.mem_texts_iff, or_iff_left word]
      simp only [if_neg word, same, Nat.add_zero]
  · intro e member
    rw [built.textOf]
    exact built.spelled e member

def branchAndTree : PhraseList := bannedTexts ([str "tree"] ++ (str "abcdefghijklm").map fun c => [ch 'a', c])

theorem tree_kept_once : ∃ g, makeGraph false branchAndTree = some g ∧
    (g.slowgraph.map (getItemAtInt g.list)).count (str "tree") + (g.root.words.map Prod.fst).count (str "tree") = 1 := by
  have some_ : (makeGraph false branchAndTree).isSome = true := by decide
  obtain ⟨g, made⟩ := Option.isSome_iff_exists.mp some_
  refine ⟨g, made, ?_⟩
  rw [(every_text_kept_once (by decide) made).1 (str "tree")]
  decide

/- One of the highest ranking lines. -/

theorem same_class {a b : PhraseItem} (kind : Kind a) (kind' : Kind b) (up : AtMost a b) (down : AtMost b a) :
    level a = level b ∧ (¬ 9 < a.type → b.type = a.type) ∧ (a.type = 1 → b.weight = a.weight) := by
  unfold AtMost level Kind at *
  grind

/-- The line that is kept for a text ranks highest of those with the text: exception, banned, weighted (the heavier first),
part of a combination. So its class, and the weight of a weighted phrase, do not depend on the order of the lines or on the
way the graph is made. -/
theorem kept_ranks_highest {l : PhraseList} {g : PhraseGraph} {fqs : Bool} (phrases : ∀ item ∈ l.items, item.text ≠ [])
    (typed : Typed l) (made : makeGraph fqs l = some g) :
    (∀ w ∈ texts l, ∃ item, kept g w = some item ∧ item ∈ l.items ∧ item.text = w ∧
      ∀ other ∈ l.items, other.text = w → AtMost other item) ∧
    ∀ (l' : PhraseList) (fqs' : Bool) (g' : PhraseGraph), l'.items.Perm l.items → makeGraph fqs' l' = some g' →
      ∀ w ∈ texts l, ∃ item item', kept g w = some item ∧ kept g' w = some item' ∧ level item = level item' ∧
        (¬ 9 < item.type → item'.type = item.type) ∧ (item.type = 1 → item'.weight = item.weight) := by
  have place : ∀ (l : PhraseList), (∀ item ∈ l.items, item.text ≠ []) → ∀ i < l.items.length, getItemAtInt l i ≠ [] := by
    intro l phrases i inside
    rw [getItemAtInt, List.getElem?_eq_getElem inside]
    exact phrases _ (List.getElem_mem inside)
  have built := makeGraph_built (place l phrases) made
  constructor
  · intro w listed
    obtain ⟨item, here⟩ := kept_of_text built listed
    exact ⟨item, here, kept_spec built typed here⟩
  · intro l' fqs' g' perm made' w listed
    have phrases' : ∀ item ∈ l'.items, item.text ≠ [] := fun item member => phrases item (perm.mem_iff.mp member)
    have typed' : Typed l' := fun item member => typed item (perm.mem_iff.mp member)
    have built' := makeGraph_built (place l' phrases') made'
    have listed' : w ∈ texts l' := (perm.map PhraseItem.text).mem_iff.mpr listed
    obtain ⟨item, here⟩ := kept_of_text built listed
    obtain ⟨item', here'⟩ := kept_of_text built' listed'
    obtain ⟨member, text, best⟩ := kept_spec built typed here
    obtain ⟨member', text', best'⟩ := kept_spec built' typed' here'
    have up := best' item (perm.mem_iff.mpr member) text
    have down := best item' (perm.mem_iff.mp member') text'
    exact ⟨item, item', here, here', same_class (typed item member) (typed item' (perm.mem_iff.mp member')) up down⟩

def lines (items : List PhraseItem) : PhraseList := { PhraseList.empty with items := items }

theorem heavier_kept : ∃ g item, makeGraph true (lines [⟨str "bet", 1, 5, -1, -1⟩, ⟨str "bet", 1, 50, -1, -1⟩]) = some g ∧
    kept g (str "bet") = some item ∧ item.type = 1 ∧ item.weight = 50 := by
  have some_ : (makeGraph true (lines [⟨str "bet", 1, 5, -1, -1⟩, ⟨str "bet", 1, 50, -1, -1⟩])).isSome = true := by
    decide
  obtain ⟨g, made⟩ := Option.isSome_iff_exists.mp some_
  obtain ⟨item, here, member, text, best⟩ := (kept_ranks_highest (by decide) (by unfold Typed Kind; decide)
      made).1 (str "bet") (by decide)
  have heavy := best ⟨str "bet", 1, 50, -1, -1⟩ (by decide) rfl
  refine ⟨g, item, made, here, ?_⟩
  simp only [lines, List.mem_cons, List.not_mem_nil, or_false] at member
  rcases member with rfl | rfl
  · simp [AtMost, level] at heavy
  · exact ⟨rfl, rfl⟩

/-- A text that is a part of an exception combination and of a weighted one: the number of the type and the
    weight that are kept are
those of the part that was loaded first. -/
theorem part_depends_on_order :
    (makeGraph true (lines [⟨str "bet", 10, 0, -1, -1⟩, ⟨str "bet", 12, 50, -1, -1⟩])).bind (kept · (str "bet")) =
        some ⟨str "bet", 10, 0, -1, -1⟩ ∧
      (makeGraph true (lines [⟨str "bet", 12, 50, -1, -1⟩, ⟨str "bet", 10, 0, -1, -1⟩])).bind (kept · (str "bet")) =
        some ⟨str "bet", 12, 50, -1, -1⟩ := by decide

end GuardianPhraseRanks
