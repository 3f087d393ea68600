import E2Guardian.PrefixSearch
import E2Guardian.TimeLimits

/- Item lists of ListContainer: sorting, the recursive binary search and the lookups over a
   list and the lists it includes. An item list is the tree its includes unfold to; the
   character buffer with its offsets is the list of the item texts in the current order. -/
namespace GuardianItemList
open GuardianString GuardianTime PrefixSearch ThreeWayBisection

inductive ItemList where
  | node (items : List Str) (limit : Option TimeLimit) (category : Str)
      (isSW issorted : Bool) (morelists : List ItemList)

/-- `isNow()` of a list: lists without a time limit always count. -/
def inTime (now : Clock) : Option TimeLimit → Bool
  | none => true
  | some tl => isNow now tl

def lessThanSWF (a b : Str) : Bool := precedes charKey a b

def lessThanEWF (a b : Str) : Bool := precedes charKey a.reverse b.reverse

def sortItems (startsWith : Bool) (items : List Str) : List Str :=
  if startsWith then items.insertionSort fun a b => lessThanSWF b a = false
  else items.insertionSort fun a b => lessThanEWF b a = false

mutual

def doSort (startsWith : Bool) : ItemList → ItemList
  | .node items limit category isSW issorted morelists =>
    let morelists := doSortAll startsWith morelists
    if items.length < 2 ∨ issorted then .node items limit category isSW issorted morelists
    else .node (sortItems startsWith items) limit category startsWith true morelists

def doSortAll (startsWith : Bool) : List ItemList → List ItemList
  | [] => []
  | t :: ts => doSort startsWith t :: doSortAll startsWith ts

end

def isSeparator (b : UInt8) : Bool :=
  b == ch '/' || b == ch '?' || b == ch '&' || b == ch '='

def greaterThanSWF (a b : Str) : Int := probe charKey (fun _ => false) a b

def greaterThanEWF (a b : Str) : Int := probe charKey (fun _ => false) a.reverse b.reverse

def greaterThanSW (a b : Str) : Int := probe charKey isSeparator a b

def greaterThanEW (a b : Str) : Int := probe charKey (fun _ => true) a.reverse b.reverse

def search (comparitor : Str → Str → Int) (items : List Str) (p : Str) : Int :=
  bisect (fun m => comparitor p (items.getD m.toNat [])) items.length 0 (items.length - 1)

mutual

/-- The shape shared by the lookups: the list itself, then its includes in order, all only
    while the list is in time. The answer is the item with the category of its list. -/
def findWith (comparitor : Bool → Str → Str → Int) (now : Clock) (p : Str) :
    ItemList → Option (Str × Str)
  | .node items limit category isSW _ morelists =>
    if inTime now limit then
      let r := search (comparitor isSW) items p
      if items.length > 0 ∧ r ≥ 0 then some (items.getD r.toNat [], category)
      else findWithMore comparitor now p morelists
    else none

def findWithMore (comparitor : Bool → Str → Str → Int) (now : Clock) (p : Str) :
    List ItemList → Option (Str × Str)
  | [] => none
  | t :: ts =>
    match findWith comparitor now p t with
    | some rc => some rc
    | none => findWithMore comparitor now p ts

end

def findInList (now : Clock) (t : ItemList) (string : Str) : Option (Str × Str) :=
  findWith (fun isSW => if isSW then greaterThanSWF else greaterThanEWF) now string t

def findStartsWith (now : Clock) (t : ItemList) (string : Str) : Option (Str × Str) :=
  findWith (fun _ => greaterThanSW) now string t

def findEndsWith (now : Clock) (t : ItemList) (string : Str) : Option (Str × Str) :=
  findWith (fun _ => greaterThanEW) now string t

def inListEndsWith (now : Clock) (t : ItemList) (string : Str) : Option Str :=
  (findWith (fun _ => greaterThanEW) now string t).map Prod.snd

mutual

/-- The item texts of every list that a lookup can reach, list by list in lookup order: the
    list and, while it is in time, the lists it includes. -/
def liveLists (now : Clock) : ItemList → List (List Str)
  | .node items limit _ _ _ morelists =>
    if inTime now limit then items :: liveListsMore now morelists else []

def liveListsMore (now : Clock) : List ItemList → List (List Str)
  | [] => []
  | t :: ts => liveLists now t ++ liveListsMore now ts

end

mutual

def Unsorted : ItemList → Prop
  | .node _ _ _ _ issorted morelists => issorted = false ∧ UnsortedMore morelists

def UnsortedMore : List ItemList → Prop
  | [] => True
  | t :: ts => Unsorted t ∧ UnsortedMore ts

end

theorem sortItems_eq (startsWith : Bool) (items : List Str) :
    sortItems startsWith items =
      sortDescending charKey (if startsWith then id else List.reverse) items := by
  cases startsWith <;> rfl

theorem sortItems_perm (startsWith : Bool) (items : List Str) :
    (sortItems startsWith items).Perm items := by
  rw [sortItems_eq]
  exact sortDescending_perm charKey _ items

theorem sortItems_short (startsWith : Bool) {items : List Str} (short : items.length < 2) :
    sortItems startsWith items = items := by
  match items, short with
  | [], _ => cases startsWith <;> rfl
  | [x], _ => cases startsWith <;> rfl

mutual

theorem doSort_liveLists (now : Clock) (startsWith : Bool) :
    ∀ t, Unsorted t →
      liveLists now (doSort startsWith t) = (liveLists now t).map (sortItems startsWith)
  | .node items limit category isSW issorted morelists, fresh => by
    have more := doSortAll_liveLists now startsWith morelists fresh.2
    simp only [doSort, fresh.1, Bool.false_eq_true, or_false]
    split
    · rename_i short
      simp only [liveLists]
      split <;> simp [more, sortItems_short startsWith short]
    · simp only [liveLists]
      split <;> simp [more]

theorem doSortAll_liveLists (now : Clock) (startsWith : Bool) :
    ∀ ts, UnsortedMore ts →
      liveListsMore now (doSortAll startsWith ts) =
        (liveListsMore now ts).map (sortItems startsWith)
  | [], _ => rfl
  | t :: ts, fresh => by
    simp only [doSortAll, liveListsMore, List.map_append]
    rw [doSort_liveLists now startsWith t fresh.1, doSortAll_liveLists now startsWith ts fresh.2]

end

theorem search_empty (comparitor : Str → Str → Int) (p : Str) : search comparitor [] p = -1 :=
  rfl

mutual

/-- A lookup with one comparator succeeds exactly when the search of some live list does. -/
theorem findWith_isSome_iff (comparitor : Str → Str → Int) (now : Clock) (p : Str) :
    ∀ t, (findWith (fun _ => comparitor) now p t).isSome = true ↔
      ∃ items ∈ liveLists now t, 0 ≤ search comparitor items p
  | .node items limit category isSW issorted morelists => by
    have more := findWithMore_isSome_iff comparitor now p morelists
    simp only [findWith, liveLists]
    split
    · split
      · rename_i found
        simp only [Option.isSome_some, List.mem_cons, exists_eq_or_imp, true_iff]
        exact Or.inl found.2
      · rename_i missed
        have none_here : ¬ 0 ≤ search comparitor items p := by
          intro found
          rcases items with _ | ⟨x, items⟩
          · rw [search_empty] at found
            omega
          · exact missed ⟨by simp, found⟩
        rw [more]
        simp [none_here]
    · simp

theorem findWithMore_isSome_iff (comparitor : Str → Str → Int) (now : Clock) (p : Str) :
    ∀ ts, (findWithMore (fun _ => comparitor) now p ts).isSome = true ↔
      ∃ items ∈ liveListsMore now ts, 0 ≤ search comparitor items p
  | [] => by simp [findWithMore, liveListsMore]
  | t :: ts => by
    have head := findWith_isSome_iff comparitor now p t
    have tail := findWithMore_isSome_iff comparitor now p ts
    simp only [findWithMore, liveListsMore, List.mem_append, or_and_right, exists_or]
    rw [← head, ← tail]
    cases findWith (fun _ => comparitor) now p t <;> simp

end

mutual

/-- What a lookup returns is an item of a live list that its own search found there. -/
theorem findWith_sound (comparitor : Str → Str → Int) (now : Clock) (p : Str) :
    ∀ t rc, findWith (fun _ => comparitor) now p t = some rc →
      ∃ items ∈ liveLists now t, 0 ≤ search comparitor items p ∧
        rc.1 = items.getD (search comparitor items p).toNat []
  | .node items limit category isSW issorted morelists, rc, found => by
    simp only [findWith] at found
    split at found
    · rename_i live
      simp only [liveLists, live, ↓reduceIte, List.mem_cons, exists_eq_or_imp]
      split at found
      · rename_i hit
        simp only [Option.some.injEq] at found
        subst found
        exact Or.inl ⟨hit.2, rfl⟩
      · exact Or.inr (findWithMore_sound comparitor now p morelists rc found)
    · simp at found

theorem findWithMore_sound (comparitor : Str → Str → Int) (now : Clock) (p : Str) :
    ∀ ts rc, findWithMore (fun _ => comparitor) now p ts = some rc →
      ∃ items ∈ liveListsMore now ts, 0 ≤ search comparitor items p ∧
        rc.1 = items.getD (search comparitor items p).toNat []
  | [], rc, found => by simp [findWithMore] at found
  | t :: ts, rc, found => by
    simp only [liveListsMore, List.mem_append, or_and_right, exists_or]
    cases head : findWith (fun _ => comparitor) now p t with
    | some rc' =>
      simp only [findWithMore, head, Option.some.injEq] at found
      subst found
      exact Or.inl (findWith_sound comparitor now p t rc' head)
    | none =>
      simp only [findWithMore, head] at found
      exact Or.inr (findWithMore_sound comparitor now p ts rc found)

end

theorem search_startsWith_eq (items : List Str) (p : Str) :
    search greaterThanSW items p = searchWords charKey isSeparator items p := rfl

theorem search_reversed_eq (stop : UInt8 → Bool) (items : List Str) (p : Str) :
    search (fun a b => probe charKey stop a.reverse b.reverse) items p =
      searchWords charKey stop (items.map List.reverse) p.reverse := by
  have mirrored : (fun m : Int => probe charKey stop p.reverse (items.getD m.toNat []).reverse) =
      probeAt charKey stop (items.map List.reverse) p.reverse := by
    funext m
    have cell : (items.map List.reverse).getD m.toNat [] = (items.getD m.toNat []).reverse := by
      simp only [List.getD_eq_getElem?_getD, List.getElem?_map]
      cases items[m.toNat]? <;> rfl
    rw [probeAt, cell]
  rw [search, mirrored, searchWords, List.length_map]

theorem search_endsWith_eq (items : List Str) (p : Str) :
    search greaterThanEW items p =
      searchWords charKey (fun _ => true) (items.map List.reverse) p.reverse := search_reversed_eq _ items p

/-- The list has an item, at some place of its sorted order, that ends the query and that no
    item met by the binary search on its way there shadows: none of them is a longer item
    with the same ending that compares below the query. -/
def EndsWithUnshadowed (items : List Str) (q : Str) : Prop :=
  ∃ k, Unshadowed charKey (fun _ => true) ((sortItems false items).map List.reverse) q.reverse k

theorem search_endsWith_succeeds_iff (items : List Str) (q : Str) :
    0 ≤ search greaterThanEW (sortItems false items) q ↔ EndsWithUnshadowed items q := by
  have sorted : Descending charKey ((sortItems false items).map List.reverse) := by
    rw [sortItems_eq]
    exact sortDescending_descending charKey List.reverse items
  rw [search_endsWith_eq]
  exact searchWords_succeeds_iff charKey charKey_injective _ sorted _

theorem findEndsWith_isSome_iff (now : Clock) {t : ItemList} (fresh : Unsorted t) (q : Str) :
    (findEndsWith now (doSort false t) q).isSome = true ↔
      ∃ items ∈ liveLists now t, EndsWithUnshadowed items q := by
  rw [findEndsWith, findWith_isSome_iff, doSort_liveLists now false t fresh]
  simp only [List.mem_map, exists_exists_and_eq_and, search_endsWith_succeeds_iff]

/-- Some item within reach of the lookup is a suffix of the query. -/
def EndsWithMatch (now : Clock) (t : ItemList) (q : Str) : Prop :=
  ∃ items ∈ liveLists now t, ∃ x ∈ items, x <:+ q

theorem endsWithUnshadowed_match {items : List Str} {q : Str} (h : EndsWithUnshadowed items q) :
    ∃ x ∈ items, x <:+ q := by
  obtain ⟨k, bound, hit, _⟩ := h
  rw [List.length_map] at bound
  refine ⟨(sortItems false items)[k], ?_, ?_⟩
  · exact (sortItems_perm false items).mem_iff.mp (List.getElem_mem bound)
  · have pre := hit.1
    simpa [List.getD_eq_getElem?_getD, bound, List.reverse_prefix] using pre

/-- Both suffix lookups report a match exactly when there is one to report. -/
def EndsWithExact (now : Clock) (t : ItemList) (q : Str) : Prop :=
  ((findEndsWith now (doSort false t) q).isSome = true ↔ EndsWithMatch now t q) ∧
    ((inListEndsWith now (doSort false t) q).isSome = true ↔ EndsWithMatch now t q)

/-- The suffix lookups are exact unless every matching item is shadowed in its own list. -/
theorem ends_with_exact_iff_unshadowed (now : Clock) (t : ItemList) (fresh : Unsorted t)
    (q : Str) :
    EndsWithExact now t q ↔
      (EndsWithMatch now t q → ∃ items ∈ liveLists now t, EndsWithUnshadowed items q) := by
  have found := findEndsWith_isSome_iff now fresh q
  have same : (inListEndsWith now (doSort false t) q).isSome =
      (findEndsWith now (doSort false t) q).isSome := by
    simp [inListEndsWith, findEndsWith]
  have sound : (∃ items ∈ liveLists now t, EndsWithUnshadowed items q) → EndsWithMatch now t q := by
    rintro ⟨items, live, clear_⟩
    exact ⟨items, live, endsWithUnshadowed_match clear_⟩
  simp only [EndsWithExact, same, found, and_self]
  exact ⟨fun exact_ some_match => exact_.mpr some_match, fun complete => ⟨sound, complete⟩⟩

def archiveExtensions : ItemList :=
  .node [str ".tar.gz", str ".gz"] none [] false false []

theorem ends_with_exact_backup :
    Unsorted archiveExtensions ∧ EndsWithExact noon archiveExtensions (str "home.gz") :=
  ⟨⟨rfl, trivial⟩, (ends_with_exact_iff_unshadowed noon archiveExtensions ⟨rfl, trivial⟩
    (str "home.gz")).mpr fun _ => ⟨[str ".tar.gz", str ".gz"], by decide, 1, by decide⟩⟩

/-- notes.txt.gz ends with .gz, but compares above .tar.gz, which the search meets first. -/
theorem ends_with_misses_gz :
    ¬ EndsWithExact noon archiveExtensions (str "notes.txt.gz") := by
  intro exact_
  have miss : (findEndsWith noon (doSort false archiveExtensions) (str "notes.txt.gz")).isSome =
      false := by decide
  have some_match : EndsWithMatch noon archiveExtensions (str "notes.txt.gz") :=
    ⟨[str ".tar.gz", str ".gz"], by decide, str ".gz", by decide, by decide⟩
  rw [exact_.1.mpr some_match] at miss
  exact Bool.noConfusion miss

end GuardianItemList
