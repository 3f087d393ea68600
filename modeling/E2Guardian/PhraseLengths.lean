import E2Guardian.TimedVerdicts

/- The loader keeps phrases of up to 127 bytes and the quick search looks for phrases of up to
   126 bytes. Which of the two searches a phrase is left to depends on the other phrases with
   the same first byte. -/
namespace GuardianPhraseLengths
open GuardianString GuardianPhraseList GuardianPhraseGraph GuardianPhraseSearch
open GuardianTimedLists GuardianTimedVerdicts QuickSearch OrderedMap WordTrie

/- The slow list: the phrases whose first byte begins at most twelve phrases that are no
   beginning of a longer one. -/
theorem longest_length (f : Links) : f.longest.length = linkBranches f + linkCount f := by
  induction f with
  | nil => rfl
  | cons c last item links rest below ih =>
    by_cases leaf : links = .nil
    · subst leaf
      rw [Forest.longest_cons_nil, List.length_cons, ih]
      simp only [linkBranches, linkCount]
      omega
    · have some_ : linkCount links ≠ 0 := by
        cases links with
        | nil => exact absurd rfl leaf
        | cons => simp [linkCount]
      rw [Forest.longest_cons _ _ _ _ leaf, List.length_append, List.length_map, below, ih]
      simp only [linkBranches, linkCount]
      omega

theorem graphFindBranches_eq (c : UInt8) (last : Bool) (item : Nat) (links : Links) :
    graphFindBranches links = (Forest.cons c last item links .nil).longest.length - 1 := by
  rw [longest_length, graphFindBranches, linkBranches, linkBranches, linkCount, linkCount]
  omega

def beginsWith (c : UInt8) (w : Str) : Bool := w.head? == some c

theorem longest_head_cons (c : UInt8) (last : Bool) (item : Nat) (links rest : Links) :
    ∃ ends, (Forest.cons c last item links rest).longest = ends ++ rest.longest ∧
      (Forest.cons c last item links .nil).longest = ends ∧ ∀ w ∈ ends, beginsWith c w = true := by
  by_cases leaf : links = .nil
  · subst leaf
    exact ⟨[[c]], rfl, rfl, by simp [beginsWith]⟩
  · refine ⟨links.longest.map (c :: ·), Forest.longest_cons _ _ _ _ leaf, ?_, ?_⟩
    · rw [Forest.longest_cons _ _ _ _ leaf]
      exact List.append_nil _
    · intro w member
      obtain ⟨t, -, rfl⟩ := List.mem_map.mp member
      exact beq_self_eq_true _

theorem mem_dense_iff {root : Links} (distinct : root.Distinct) (owned : root.Owned) {c : UInt8} {t : Str} :
    c :: t ∈ (dense root).words.map Prod.fst ↔
      c :: t ∈ root.words.map Prod.fst ∧ 12 < (root.longest.filter (beginsWith c)).length := by
  induction root with
  | nil => simp [dense, Forest.words]
  | cons b last item links rest _ ih =>
    obtain ⟨fresh, linksDistinct, restDistinct⟩ := distinct
    obtain ⟨mine, linksOwned, restOwned⟩ := owned
    obtain ⟨ends, all, alone, begins⟩ := longest_head_cons b last item links rest
    have branches := graphFindBranches_eq b last item links
    rw [alone] at branches
    have here : ∀ {w : Str}, (c :: w ∈ (Forest.cons b last item links .nil).words.map Prod.fst) → c = b := by
      intro w member
      obtain ⟨⟨v, x⟩, word, rfl⟩ := List.mem_map.mp member
      simpa [Forest.letters] using Forest.words_head _ word
    have parts : ∀ rest : Links, (Forest.cons b last item links rest).words =
        (Forest.cons b last item links .nil).words ++ rest.words := by
      intro rest
      simp [Forest.words]
    rw [all, List.filter_append, dense, parts rest, List.map_append, List.mem_append]
    by_cases same : c = b
    · -- the link of the first byte: all its words stay or go together
      subst same
      have none_ : rest.longest.filter (beginsWith c) = [] := by
        refine List.filter_eq_nil_iff.mpr fun w member head => ?_
        obtain ⟨d, letter, first⟩ := Forest.longest_head restOwned member
        have equal : w.head? = some c := by simpa [beginsWith] using head
        exact fresh (Option.some.inj (first.symm.trans equal) ▸ letter)
      have notRest : c :: t ∉ rest.words.map Prod.fst := by
        intro member
        obtain ⟨⟨v, x⟩, word, rfl⟩ := List.mem_map.mp member
        exact fresh (Forest.words_head rest word)
      have notDense : c :: t ∉ (dense rest).words.map Prod.fst := by
        intro member
        exact notRest ((ih restDistinct restOwned).mp member).1
      rw [none_, List.append_nil, List.filter_eq_self.mpr begins, or_iff_left notRest]
      split
      · rw [iff_false_left notDense]
        omega
      · rw [parts, List.map_append, List.mem_append, or_iff_left notDense]
        exact (and_iff_left (by omega)).symm
    · have notHere : c :: t ∉ (Forest.cons b last item links .nil).words.map Prod.fst := fun member =>
        same (here member)
      have none_ : ends.filter (beginsWith c) = [] := by
        refine List.filter_eq_nil_iff.mpr fun w member head => ?_
        have first := begins w member
        simp only [beginsWith, beq_iff_eq] at first head
        exact same (Option.some.inj (head.symm.trans first))
      rw [none_, List.nil_append, or_iff_right notHere]
      split
      · exact ih restDistinct restOwned
      · rw [parts, List.map_append, List.mem_append, or_iff_right notHere]
        exact ih restDistinct restOwned

/-- The phrases with the first byte that are no beginning of a longer phrase. -/
def endings (l : PhraseList) (c : UInt8) : List Str :=
  (texts l).dedup.filter fun w => beginsWith c w && decide (∀ v ∈ texts l, w <+: v → v = w)

/-- What the graph keeps of the tree: the words under a first byte with more than twelve ends. -/
theorem mem_words_iff {l : PhraseList} {g : PhraseGraph} (text : ∀ i < l.items.length, getItemAtInt l i ≠ [])
    (made : makeGraph false l = some g) (c : UInt8) (t : Str) :
    c :: t ∈ g.root.words.map Prod.fst ↔ c :: t ∈ texts l ∧ 12 < (endings l c).length := by
  unfold makeGraph at made
  split at made
  · rename_i empty
    obtain rfl := Option.some.inj made
    have none_ : texts l = [] := by simpa [texts] using empty
    simp [none_, Forest.words]
  · rw [if_neg Bool.false_ne_true] at made
    split at made
    · cases made
    · rename_i sizelist sizes
      obtain ⟨sorted, result, perm, ordered⟩ := ThreeWaySort.sort_whole
        (fun i => (getItemAtInt l i).length) (List.range l.items.length)
      obtain rfl : sorted = sizelist := Option.some.inj (result.symm.trans sizes)
      split at made
      · cases made
      · rename_i l' root added
        obtain ⟨grown, -⟩ := graphAdd_sorted perm ordered text added
        obtain ⟨slow, moved, -⟩ := grown.moved
        rw [moved] at made
        obtain rfl := Option.some.inj made
        have words : ∀ w, w ∈ root.words.map Prod.fst ↔ w ∈ texts l := by
          intro w
          rw [mem_texts_iff]
          constructor
          · intro word
            obtain ⟨e, member, rfl⟩ := List.mem_map.mp word
            have listed := grown.merged.subset e.2 (List.mem_map_of_mem member)
            exact ⟨e.2, List.mem_range.mp (perm.mem_iff.mp listed), (grown.spelled e member).symm⟩
          · rintro ⟨i, inside, rfl⟩
            obtain ⟨r, entry, same⟩ := grown.merged.covered i (perm.mem_iff.mpr (List.mem_range.mpr inside))
            obtain ⟨e, member, rfl⟩ := List.mem_map.mp entry
            exact List.mem_map.mpr ⟨e, member, (grown.spelled e member).trans same⟩
        have ends : (root.longest.filter (beginsWith c)).Perm (endings l c) := by
          have once := (Forest.longest_sublist grown.owned).nodup (Forest.words_nodup grown.distinct)
          refine (List.perm_ext_iff_of_nodup (once.filter _) ((List.nodup_dedup _).filter _)).mpr fun w => ?_
          rw [List.mem_filter, List.mem_filter, Forest.mem_longest_iff grown.distinct grown.owned, List.mem_dedup,
            Bool.and_eq_true, decide_eq_true_eq]
          simp only [words]
          tauto
        rw [mem_dense_iff grown.distinct grown.owned, words, ends.length_eq]

def Reported (w : Str) (result : Found) : Prop := ∃ x c, (w, x, c) ∈ result ∧ 0 < c

theorem reported_iff (l : PhraseList) (hits : List Nat) (w : Str) :
    Reported w (hits.foldl (noteFound l) []) ↔ 0 < hitsOf l hits w := by
  have once := (foldl_noteFound_ordered l hits List.Pairwise.nil).nodup_keys
  have entry := foldl_noteFound_find l hits w (rfl : find w ([] : Found) = none)
  constructor
  · rintro ⟨x, c, member, positive⟩
    rw [find_of_mem once member] at entry
    exact entry.2.2.2 ▸ positive
  · intro positive
    split at entry
    · omega
    · rename_i index count found
      exact ⟨index, count, mem_of_find found, entry.2.2.1⟩

theorem slowNotes_positive (l : PhraseList) (doc w : Str) (order : List Nat) :
    0 < hitsOf l (slowNotes l doc order) w ↔ w ∈ order.map (getItemAtInt l) ∧ 0 < slowTimes doc w := by
  rw [hitsOf, List.countP_pos_iff]
  constructor
  · rintro ⟨x, noted, same⟩
    obtain ⟨i, listed, copies⟩ := List.mem_flatMap.mp noted
    obtain ⟨some_, rfl⟩ := List.mem_replicate.mp copies
    obtain rfl : getItemAtInt l x = w := by simpa using same
    exact ⟨List.mem_map_of_mem listed, Nat.pos_of_ne_zero some_⟩
  · rintro ⟨listed, positive⟩
    obtain ⟨i, member, rfl⟩ := List.mem_map.mp listed
    exact ⟨i, List.mem_flatMap.mpr ⟨i, member, List.mem_replicate.mpr ⟨by omega, rfl⟩⟩, by simp⟩

theorem occursAt_between (a w rest : Str) : occursAt w (a ++ w ++ rest) a.length = true := by
  rw [occursAt_iff, List.append_assoc, List.drop_left]
  exact List.prefix_append _ _

theorem texts_nonempty {l : PhraseList} (loaded : Loaded l) : ∀ i < l.items.length, getItemAtInt l i ≠ [] := by
  intro i inside
  obtain ⟨item, member, same⟩ := List.mem_map.mp (mem_texts_iff.mpr ⟨i, inside, rfl⟩)
  exact same ▸ (Loaded.items_ok loaded item member).1

def longLine : PhraseList := load [.phrases (str "<" ++ List.replicate 130 (ch 'a') ++ str ">") false 0 0 100]

end GuardianPhraseLengths
