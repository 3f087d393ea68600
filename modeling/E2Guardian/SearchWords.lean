import E2Guardian.BubbleSort
import E2Guardian.StoryRun

/- String::sortedSearch with its buffer: the words are cut in place, their addresses sorted and the words
   put together again. The storyboard works with its result only. -/
namespace GuardianSearchWords
open GuardianString GuardianStoryRun

theorem wordLe_iff (s t : Str) : wordLe s t = true ↔ s ≤ t := by
  induction s generalizing t with
  | nil => simp [wordLe]
  | cons a s ih =>
    cases t with
    | nil => simp [wordLe]
    | cons b t =>
      simp only [wordLe, Bool.or_eq_true, Bool.and_eq_true, decide_eq_true_eq, beq_iff_eq, ih]
      exact List.cons_le_cons_iff.symm

def wordOrder : BubbleSort.Order Str where
  le := wordLe
  total s t := by
    rw [Bool.or_eq_true, wordLe_iff, wordLe_iff]
    exact Std.le_total
  trans a b c first second := by
    rw [wordLe_iff] at *
    exact Std.le_trans first second

/-- The end of the word that starts at `j`; `ind[j]` is read at the end of the buffer too. -/
def wordEnd (temp : Str) (ln j : Nat) : Option Nat :=
  match temp[j]? with
  | none => none
  | some b => if j < ln then (if b = ch '+' then some j else wordEnd temp ln (j + 1)) else some j
termination_by ln - j

def split (ln : Nat) : Nat → Str → Nat → Option (List Nat × Str)
  | 0, temp, _ => some ([], temp)
  | rounds + 1, temp, j => do
    let stop ← wordEnd temp ln j
    let (p, temp) ← if stop < ln then split ln rounds (temp.set stop 0) (stop + 1) else split ln rounds temp stop
    return (j :: p, temp)

def wordAt (temp : Str) (p : Nat) : Str := cstr (temp.drop p)

def addWord (ret word : Str) : Str := if ret.isEmpty then word else ret ++ ch '+' :: word

def rejoin : List Str → Str
  | [] => []
  | first :: rest => rest.foldl addWord first

/-- None stands for a read outside the bytes that `strcpy` has written. -/
def sortSearch (s : Str) : Option Str :=
  let s := toLower s
  let ln := s.length
  if ln < 3 then some s
  else
    let temp := cstr s ++ [0]
    if temp.length < ln then none
    else
      let c := (temp.take ln).count (ch '+')
      if c = 0 then some s
      else do
        let (p, temp) ← split ln (c + 1) temp 0
        return rejoin (BubbleSort.sort wordOrder (p.map (wordAt temp)))

def searchWords (s : Str) : List Str := ((toLower s).splitOn (ch '+')).filter fun word => !word.isEmpty

/- The words in the buffer. -/

theorem wordEnd_at (front word rest : Str) (plain : ch '+' ∉ word) (ln : Nat)
    (stops : rest.head? = some (ch '+') ∧ front.length + word.length < ln ∨
      rest ≠ [] ∧ front.length + word.length = ln) :
    wordEnd (front ++ (word ++ rest)) ln front.length = some (front.length + word.length) := by
  induction word generalizing front with
  | nil =>
    cases rest with
    | nil => simp at stops
    | cons b rest =>
      rw [wordEnd, List.getElem?_append_right (Nat.le_refl _), Nat.sub_self]
      simp only [List.head?_cons, Option.some.injEq, List.length_nil, Nat.add_zero] at stops
      simp only [List.nil_append, List.getElem?_cons_zero, List.length_nil, Nat.add_zero]
      rcases stops with ⟨plus, inside⟩ | ⟨-, last⟩
      · rw [if_pos inside, if_pos plus]
      · rw [if_neg (by omega)]
  | cons b word ih =>
    have other : b ≠ ch '+' := fun same => plain (same ▸ List.mem_cons_self)
    have inside : front.length < ln := by
      rcases stops with ⟨-, before_⟩ | ⟨-, last⟩
      · exact Nat.lt_of_le_of_lt (Nat.le_add_right _ _) before_
      · simp at last
        omega
    have size : (front ++ [b]).length + word.length = front.length + (b :: word).length := by
      simp only [List.length_append, List.length_cons, List.length_nil]
      omega
    have next := ih (front ++ [b]) (fun member => plain (List.mem_cons_of_mem _ member)) (by rw [size]; exact stops)
    rw [size, List.append_assoc, List.singleton_append, List.length_append] at next
    rw [wordEnd, List.getElem?_append_right (Nat.le_refl _), Nat.sub_self]
    simp only [List.cons_append, List.getElem?_cons_zero]
    rw [if_pos inside, if_neg other]
    exact next

theorem wordAt_front (front word : Str) (free : 0 ∉ word) (rest : Str) :
    wordAt (front ++ (word ++ 0 :: rest)) front.length = word := by
  rw [wordAt, List.drop_left, cstr_append free]
  simp [cstr]

theorem split_words (more : List Str) : ∀ (front word : Str) (ln : Nat),
    ln = front.length + (List.intercalate [ch '+'] (word :: more)).length → (∀ w ∈ word :: more, ch '+' ∉ w ∧ 0 ∉ w) →
    ∃ (p : List Nat) (rest : Str),
      split ln (more.length + 1) (front ++ (List.intercalate [ch '+'] (word :: more) ++ [0])) front.length =
        some (p, front ++ rest) ∧ p.map (wordAt (front ++ rest)) = word :: more := by
  induction more with
  | nil =>
    intro front word ln size plain
    rw [List.intercalate_singleton] at size ⊢
    have last := wordEnd_at front word [0] (plain word List.mem_cons_self).1 ln
      (.inr ⟨List.cons_ne_nil _ _, size.symm⟩)
    refine ⟨[front.length], word ++ [0], ?_, ?_⟩
    · rw [List.length_nil, split, last]
      simp [split]
    · rw [List.map_singleton, wordAt_front front word (plain word List.mem_cons_self).2]
  | cons second more ih =>
    intro front word ln size plain
    let later := List.intercalate [ch '+'] (second :: more)
    have whole : List.intercalate [ch '+'] (word :: second :: more) = word ++ ch '+' :: later := by
      rw [List.intercalate_cons_cons, List.append_assoc, List.singleton_append]
    rw [whole, List.length_append, List.length_cons] at size
    have sized : ln = front.length + word.length + 1 + later.length := by omega
    have stop := wordEnd_at front word (ch '+' :: (later ++ [0])) (plain word List.mem_cons_self).1
      ln (.inl ⟨rfl, by omega⟩)
    have next : (front ++ (word ++ [0])).length = front.length + word.length + 1 := by
      simp only [List.length_append, List.length_singleton]
      omega
    obtain ⟨p, rest, cut, words⟩ := ih (front ++ (word ++ [0])) second ln (by rw [next]; exact sized)
      (fun w member => plain w (List.mem_cons_of_mem _ member))
    have marked : (front ++ (word ++ ch '+' :: (later ++ [0]))).set (front.length + word.length) 0 =
        front ++ (word ++ [0]) ++ (later ++ [0]) := by
      rw [← List.append_assoc front word, ← List.length_append, List.set_append_right _ _ (Nat.le_refl _), Nat.sub_self]
      simp
    have behind : front ++ (word ++ 0 :: rest) = front ++ (word ++ [0]) ++ rest := by simp
    refine ⟨front.length :: p, word ++ 0 :: rest, ?_, ?_⟩
    · rw [whole, List.append_assoc word, List.cons_append, List.length_cons, split, stop]
      simp only [Option.bind_eq_bind, Option.bind_some]
      rw [if_pos (by omega), marked, ← next, cut, behind]
      rfl
    · rw [List.map_cons, wordAt_front front word (plain word List.mem_cons_self).2, behind, words]

theorem count_plus (s : Str) : (s.splitOn (ch '+')).length = s.count (ch '+') + 1 := by
  induction s with
  | nil => rfl
  | cons b s ih =>
    rw [List.splitOn_cons_eq_if_modifyHead, List.count_cons]
    by_cases plus : b = ch '+'
    · rw [if_pos (by simp [plus]), if_pos (by simp [plus]), List.length_cons, ih]
    · rw [if_neg (by simp [plus]), if_neg (by simp [plus]), List.length_modifyHead, ih]

theorem splitOn_plain (s : Str) (free : 0 ∉ s) : ∀ w ∈ s.splitOn (ch '+'), ch '+' ∉ w ∧ 0 ∉ w := by
  induction s with
  | nil => simp
  | cons b s ih =>
    obtain ⟨zero, free⟩ := not_or.mp (fun inside => free (List.mem_cons.mpr inside))
    have inside := ih free
    rw [List.splitOn_cons_eq_if_modifyHead]
    obtain ⟨first, more, words⟩ := List.exists_cons_of_ne_nil (List.splitOn_ne_nil (ch '+') s)
    rw [words] at inside ⊢
    by_cases plus : b = ch '+'
    · rw [if_pos (by simp [plus])]
      intro w member
      rcases List.mem_cons.mp member with empty | member
      · simp [empty]
      · exact inside w member
    · rw [if_neg (by simp [plus]), List.modifyHead_cons]
      intro w member
      rcases List.mem_cons.mp member with grown | member
      · obtain ⟨noPlus, noZero⟩ := inside first List.mem_cons_self
        rw [grown, List.mem_cons, List.mem_cons]
        exact ⟨not_or.mpr ⟨fun same => plus same.symm, noPlus⟩, not_or.mpr ⟨zero, noZero⟩⟩
      · exact inside w (List.mem_cons_of_mem _ member)

/- The words put together. -/

theorem foldl_addWord (words : List Str) (nonempty : ∀ w ∈ words, w ≠ []) {ret : Str} (some_ : ret ≠ []) :
    words.foldl addWord ret = List.intercalate [ch '+'] (ret :: words) := by
  induction words generalizing ret with
  | nil => rw [List.foldl_nil, List.intercalate_singleton]
  | cons word words ih =>
    have joined : addWord ret word = ret ++ ch '+' :: word := if_neg (by simpa using some_)
    rw [List.foldl_cons, joined, ih (fun w member => nonempty w (List.mem_cons_of_mem _ member)) (by simp)]
    cases words with
    | nil => simp [List.intercalate_cons_cons]
    | cons second words => simp [List.intercalate_cons_cons]

/-- Behind a word that is not empty there is none in ascending order. -/
theorem later_nonempty {word : Str} {words : List Str} (some_ : word ≠ [])
    (sorted : (word :: words).Pairwise fun a b => wordLe a b = true) : ∀ w ∈ words, w ≠ [] := by
  intro w member empty
  have least := List.rel_of_pairwise_cons sorted member
  rw [wordLe_iff, empty, List.le_nil] at least
  exact some_ least

theorem foldl_sorted (words : List Str) (sorted : words.Pairwise fun a b => wordLe a b = true) :
    words.foldl addWord [] = List.intercalate [ch '+'] (words.filter fun word => !word.isEmpty) := by
  induction words with
  | nil => rfl
  | cons word words ih =>
    have first : addWord [] word = word := if_pos rfl
    rw [List.foldl_cons, first]
    by_cases empty : word = []
    · rw [empty, List.filter_cons_of_neg (by simp)]
      exact ih (List.pairwise_cons.mp sorted).2
    · have later := later_nonempty empty sorted
      rw [foldl_addWord words later empty, List.filter_cons_of_pos (by simpa using empty),
        List.filter_eq_self.mpr (fun w member => by simpa using later w member)]

theorem rejoin_eq (words : List Str) : rejoin words = words.foldl addWord [] := by
  cases words with
  | nil => rfl
  | cons word words => exact congrArg (words.foldl addWord) (if_pos rfl).symm

/- The whole function. -/

theorem toLower_free {s : Str} (free : 0 ∉ s) : 0 ∉ toLower s := by
  intro member
  obtain ⟨b, inside, lower⟩ := List.mem_map.mp member
  rw [tolower] at lower
  split at lower
  · rename_i capital
    have low : 65 ≤ b.toNat := capital.1
    have high : b.toNat ≤ 90 := capital.2
    have value := congrArg UInt8.toNat lower
    rw [UInt8.toNat_add] at value
    simp at value
    omega
  · exact free (lower ▸ inside)

theorem sort_words {a b : List Str} (perm : a.Perm b) (sorted : b.Pairwise fun x y => wordLe x y = true) :
    BubbleSort.sort wordOrder a = b := by
  refine ((BubbleSort.sort_perm wordOrder a).trans perm).eq_of_pairwise ?_ (BubbleSort.sort_sorted wordOrder a) sorted
  intro x y _ _ below above
  exact Std.le_antisymm ((wordLe_iff x y).mp below) ((wordLe_iff y x).mp above)

theorem sortSearch_words {s : Str} (free : 0 ∉ s) (long : 3 ≤ s.length) :
    sortSearch s = some (rejoin (BubbleSort.sort wordOrder ((toLower s).splitOn (ch '+')))) := by
  have lowered := toLower_free free
  have whole : cstr (toLower s) = toLower s := cstr_of_nul_free lowered
  have size : (toLower s).length = s.length := List.length_map _
  rw [sortSearch]
  simp only
  rw [if_neg (by omega), whole, if_neg (by simp), List.take_append_of_le_length (Nat.le_refl _), List.take_length]
  obtain ⟨word, more, words⟩ := List.exists_cons_of_ne_nil (List.splitOn_ne_nil (ch '+') (toLower s))
  have count := count_plus (toLower s)
  have joined : List.intercalate [ch '+'] ((toLower s).splitOn (ch '+')) = toLower s := List.intercalate_splitOn (ch '+')
  have plain := splitOn_plain _ lowered
  rw [words] at count joined plain
  by_cases none_ : (toLower s).count (ch '+') = 0
  · have single : more = [] := List.eq_nil_of_length_eq_zero (by simpa [none_] using count)
    rw [if_pos none_, words, single, BubbleSort.sort]
    rw [single, List.intercalate_singleton] at joined
    rw [← joined]
    rfl
  · rw [if_neg none_, ← count]
    obtain ⟨p, rest, cut, cutWords⟩ := split_words more [] word (toLower s).length
      (by rw [joined, List.length_nil, Nat.zero_add]) plain
    rw [List.nil_append, joined] at cut
    rw [List.length_cons, show (0 : Nat) = List.length ([] : Str) from rfl, cut, words]
    simp only [Option.bind_eq_bind, Option.bind_some]
    rw [cutWords]
    rfl

theorem sortedSearch_computed {s : Str} (free : 0 ∉ s) : sortSearch s = some (sortedSearch (toLower s)) := by
  have size : (toLower s).length = s.length := List.length_map _
  by_cases short : s.length < 3
  · rw [sortSearch, sortedSearch, if_pos (by omega), if_pos (.inl (by omega))]
  · have whole : cstr (toLower s) = toLower s := cstr_of_nul_free (toLower_free free)
    rw [sortSearch_words free (by omega), sortedSearch, whole]
    by_cases plus : ch '+' ∈ toLower s
    · rw [if_neg (not_or.mpr ⟨by omega, not_not_intro plus⟩), joinWords, rejoin_eq]
      have sorted := List.pairwise_mergeSort wordOrder.trans wordOrder.total ((toLower s).splitOn (ch '+'))
      rw [sort_words (List.mergeSort_perm _ _).symm sorted]
      rfl
    · have single : (toLower s).splitOn (ch '+') = [toLower s] := List.splitOn_eq_singleton plus
      rw [if_pos (.inr plus), single, BubbleSort.sort]
      rfl

theorem filter_sorted {words : List Str} (sorted : words.Pairwise fun a b => wordLe a b = true) :
    (words.filter fun word => !word.isEmpty).Pairwise (· ≤ ·) :=
  (sorted.imp fun {a b} below => (wordLe_iff a b).mp below).filter _

/-- The key holds the words in ascending order, and depends on the words only. -/
theorem search_key_sorted (s : Str) (long : 3 ≤ s.length) (free : 0 ∉ s) :
    (∃ words, sortSearch s = some (List.intercalate [ch '+'] words) ∧ words.Perm (searchWords s) ∧
      words.Pairwise (· ≤ ·)) ∧
    ∀ t : Str, 3 ≤ t.length → 0 ∉ t → (searchWords t).Perm (searchWords s) → sortSearch t = sortSearch s := by
  have key : ∀ t : Str, 3 ≤ t.length → 0 ∉ t → ∃ words, sortSearch t = some (List.intercalate [ch '+'] words) ∧
      words.Perm (searchWords t) ∧ words.Pairwise (· ≤ ·) := by
    intro t long free
    have sorted := BubbleSort.sort_sorted wordOrder ((toLower t).splitOn (ch '+'))
    refine ⟨_, ?_, (BubbleSort.sort_perm wordOrder _).filter _, filter_sorted sorted⟩
    rw [sortSearch_words free long, rejoin_eq, foldl_sorted _ sorted]
  refine ⟨key s long free, ?_⟩
  intro t longT freeT same
  obtain ⟨words, result, perm, sorted⟩ := key s long free
  obtain ⟨wordsT, resultT, permT, sortedT⟩ := key t longT freeT
  have equal : wordsT = words := ((permT.trans same).trans perm.symm).eq_of_pairwise
    (fun a b _ _ below above => Std.le_antisymm below above) sortedT sorted
  rw [result, resultT, equal]

theorem search_key_example : sortSearch (str "Red++Apple") = sortSearch (str "apple+rEd") :=
  (search_key_sorted (str "apple+rEd") (by decide) (by decide)).2 (str "Red++Apple") (by decide) (by decide) (by decide)

end GuardianSearchWords
