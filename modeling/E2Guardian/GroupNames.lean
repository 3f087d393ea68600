import E2Guardian.GroupLabels

/- The filter group that a label of a user map stands for. The label is cut down when its line is loaded and
   resolved when the names of the groups are known, and StoryBoard has a reading of its own. -/
namespace GuardianGroupNames
open GuardianString GuardianItemFile GuardianStoryRun GuardianUrls GuardianHeaderVariants GuardianGroupLabels

/- Which group a label leads to. -/

section Labels
variable (c : Groups)

def InGroups (number : Int) : Prop := 1 ≤ number ∧ number ≤ c.names.length

instance (number : Int) : Decidable (InGroups c number) := inferInstanceAs (Decidable (_ ∧ _))

/-- No group has the key for its name or for the first word of its name. -/
def Unnamed (key : Str) : Prop := ∀ j name, c.names[j]? = some name → namesGroup key j name = false

/-- The group at that index is the first one with the key for its name or for the first word of it. -/
structure FirstNamed (key : Str) (i : Nat) : Prop where
  named : ∃ name, c.names[i]? = some name ∧ namesGroup key i name = true
  first : ∀ j < i, ∀ name, c.names[j]? = some name → namesGroup key j name = false

/-- The key leads to the group at that index, by its name or as a word for the default group. -/
def StandsFor (key : Str) (i : Nat) : Prop :=
  FirstNamed c key i ∨ (Unnamed c key ∧ key ∈ defaultWords ∧ defaultGroup c = i + 1)

/-- The key leads to no group. -/
def Unknown (key : Str) : Prop := Unnamed c key ∧ key ∉ defaultWords

/-- What a label is looked up by when it has no number of a group. -/
def wordOf (label : Str) : Str :=
  if firstDigits label = [] then normaliseGroupLabel (cutLabel label) else firstDigits label

/-- The label is loaded for the group: it is no special word, its first number is that of no other group, and
    without one it is cut down to something that stands for the group. -/
structure Loaded (label : Str) (i : Nat) : Prop where
  plain : isSpecialGroup label = false
  number : InGroups c (toInteger (firstDigits label)) → toInteger (firstDigits label) = i + 1
  word : ¬InGroups c (toInteger (firstDigits label)) → ∃ missing key rest,
    candidates (wordOf label) = missing ++ key :: rest ∧ (∀ other ∈ missing, Unknown c other) ∧ StandsFor c key i

/-- The label is read for the group: the number it begins with and the first number in it are those of no
    other group, a word for the default group stands for this one, and no earlier group has its name for
    a first word. -/
structure ReadFor (label : Str) (i : Nat) : Prop where
  leading : InGroups c (toInteger (removeWhiteSpace label)) → toInteger (removeWhiteSpace label) = i + 1
  word : ¬InGroups c (toInteger (removeWhiteSpace label)) → toLower (removeWhiteSpace label) ∈ defaultWords →
    defaultGroup c = i + 1
  number : ¬InGroups c (toInteger (removeWhiteSpace label)) →
    InGroups c (toInteger (firstDigits (normaliseGroupLabel label))) →
    toInteger (firstDigits (normaliseGroupLabel label)) = i + 1
  name : ¬InGroups c (toInteger (removeWhiteSpace label)) → toLower (removeWhiteSpace label) ∉ defaultWords →
    ¬InGroups c (toInteger (firstDigits (normaliseGroupLabel label))) →
    ∀ j < i, ∀ name, c.names[j]? = some name → namesGroup (normaliseGroupLabel label) j name = false

variable {c}

theorem found_iff (key : Str) (i : Nat) : groupFound key 0 c.names = some ((i : Int) + 1) ↔ FirstNamed c key i := by
  rw [groupFound_iff]
  constructor
  · rintro ⟨j, number, ⟨name, at_, named⟩, first⟩
    obtain rfl : i = j := by omega
    simp only [Nat.zero_add] at named first
    exact ⟨⟨name, at_, named⟩, first⟩
  · rintro ⟨⟨name, at_, named⟩, first⟩
    refine ⟨i, by omega, ⟨name, at_, ?_⟩, ?_⟩
    · rwa [Nat.zero_add]
    · intro j low other at_
      rw [Nat.zero_add]
      exact first j low other at_

theorem found_none_iff (key : Str) : groupFound key 0 c.names = none ↔ Unnamed c key := by
  rw [groupFound_none_iff]
  simp only [Nat.zero_add]
  rfl

theorem stands_iff {key : Str} (apart : NoAlias c.names.length key) (i : Nat) :
    (nameLookup c).lookup key = some ((i : Int) + 1) ↔ StandsFor c key i := by
  rw [nameLookup_lookup c apart, StandsFor, ← found_iff, ← found_none_iff]
  cases found : groupFound key 0 c.names with
  | some g => simp
  | none =>
    by_cases member : key ∈ defaultWords
    · simp [member]
    · simp [member]

theorem unknown_iff {key : Str} (apart : NoAlias c.names.length key) :
    (nameLookup c).lookup key = none ↔ Unknown c key := by
  rw [nameLookup_lookup c apart, Unknown, ← found_none_iff, Option.or_eq_none_iff]
  by_cases member : key ∈ defaultWords
  · simp [member]
  · simp [member]

/-- A key without digits is no alias. -/
theorem noAlias_of_free (filter_groups : Int) {key : Str} (free : DigitFree key) : NoAlias filter_groups key := by
  intro m low _ front _ same
  obtain ⟨b, rest, number⟩ := List.exists_cons_of_ne_nil (ofInt_ne_nil m)
  have digit : isDigit b = true := isDigit_of_ofInt (n := m) (by omega) (by rw [number]; exact List.mem_cons_self)
  have digits : normaliseGroupLabel (ofInt m) = ofInt m :=
    normalise_digits fun _ member => isDigit_of_ofInt (n := m) (by omega) member
  have inside : b ∈ key := by
    rw [← same, normalise_append, digits, number]
    exact List.mem_append_right _ List.mem_cons_self
  rw [free b inside] at digit
  cases digit

theorem fronts_lettered :
    ∀ front ∈ [str "group", str "filter", str "grp"], ∃ b ∈ normaliseGroupLabel front, isDigit b = false := by
  decide

theorem noAlias_of_number {d : Str} (digits : ∀ b ∈ d, isDigit b = true) (none_ : ¬InGroups c (toInteger d)) :
    NoAlias c.names.length d := by
  have int := c.int
  intro m low high front member same
  rw [normalise_append] at same
  by_cases empty : front = []
  · have number : normaliseGroupLabel (ofInt m) = ofInt m :=
      normalise_digits fun _ member => isDigit_of_ofInt (n := m) (by omega) member
    have read := toInteger_int (n := m) (by omega) (by omega) (r := []) (by simp)
    rw [List.append_nil] at read
    rw [empty, number, normaliseGroupLabel, List.filter_nil, List.map_nil, List.nil_append] at same
    rw [← same, read] at none_
    exact none_ ⟨low, high⟩
  · have lettered : front ∈ [str "group", str "filter", str "grp"] := by
      simp only [List.mem_cons, List.not_mem_nil, or_false] at member ⊢
      tauto
    obtain ⟨b, inside, letter⟩ := fronts_lettered front lettered
    have digit := digits b (by rw [← same]; exact List.mem_append_left _ inside)
    rw [digit] at letter
    cases letter

theorem unknown_empty : (nameLookup c).lookup [] = none := by
  have free : DigitFree [] := fun _ member => absurd member List.not_mem_nil
  apply (unknown_iff (noAlias_of_free _ free)).mpr
  refine ⟨?_, by decide⟩
  intro j name _
  unfold namesGroup
  grind

omit c in
theorem getD_group (found : Option Int) (i : Nat) : found.getD 0 = (i : Int) + 1 ↔ found = some ((i : Int) + 1) := by
  cases found with
  | none =>
    rw [Option.getD_none]
    constructor
    · intro zero
      omega
    · intro none_
      cases none_
  | some g => rw [Option.getD_some, Option.some_inj]

theorem candidates_iff {key : Str} (apart : ∀ word ∈ candidates key, NoAlias c.names.length word) (i : Nat) :
    ((candidates key).findSome? fun word => (nameLookup c).lookup word).getD 0 = (i : Int) + 1 ↔
      ∃ missing word rest, candidates key = missing ++ word :: rest ∧
        (∀ other ∈ missing, Unknown c other) ∧ StandsFor c word i := by
  have stands : ∀ missing word rest, candidates key = missing ++ word :: rest →
      ((nameLookup c).lookup word = some ((i : Int) + 1) ↔ StandsFor c word i) := by
    intro missing word rest parts
    apply stands_iff (apart word _)
    rw [parts]
    exact List.mem_append_right _ List.mem_cons_self
  have unknown : ∀ missing word rest, candidates key = missing ++ word :: rest →
      ∀ other ∈ missing, ((nameLookup c).lookup other = none ↔ Unknown c other) := by
    intro missing word rest parts other member
    apply unknown_iff (apart other _)
    rw [parts]
    exact List.mem_append_left _ member
  rw [getD_group, List.findSome?_eq_some_iff]
  constructor
  · rintro ⟨missing, word, rest, parts, found, none_⟩
    exact ⟨missing, word, rest, parts, fun other member => (unknown _ _ _ parts other member).mp (none_ other member),
      (stands _ _ _ parts).mp found⟩
  · rintro ⟨missing, word, rest, parts, none_, found⟩
    exact ⟨missing, word, rest, parts, (stands _ _ _ parts).mpr found,
      fun other member => (unknown _ _ _ parts other member).mpr (none_ other member)⟩

theorem candidates_free {key : Str} (free : DigitFree key) : ∀ word ∈ candidates key, DigitFree word := by
  intro word member
  rcases List.mem_cons.mp member with rfl | behind
  · exact free
  · obtain ⟨front, -, rfl⟩ := List.mem_map.mp behind
    exact fun b inside => free b ((List.drop_suffix _ _).subset inside)

/-- What is loaded for a label resolves to the group exactly in these cases. -/
theorem loaded_iff {label : Str} (nulFree : 0 ∉ label) (i : Nat) :
    resolveGroupNumber c.names.length (nameLookup c) (groupOf label) = (i : Int) + 1 ↔ Loaded c label i := by
  by_cases plain : isSpecialGroup label = false
  · rw [groupOf_eq nulFree plain]
    by_cases none_ : firstDigits label = []
    · have nothing : ¬InGroups c (toInteger (firstDigits label)) := by
        rw [none_]
        exact fun group => absurd group.1 (by decide)
      have cut : DigitFree (cutLabel label) := by
        apply digitFree_of_none
        rw [cutLabel, firstDigits_dropLabel _ (by decide) filter_free, firstDigits_trimmed, none_]
      have word : wordOf label = normaliseGroupLabel (cutLabel label) := if_pos none_
      have apart : ∀ word ∈ candidates (wordOf label), NoAlias c.names.length word := by
        rw [word]
        exact fun word member => noAlias_of_free _ (candidates_free (normalise_free cut) word member)
      rw [if_pos none_, resolve_word unknown_empty cut, ← word, candidates_iff apart]
      constructor
      · exact fun found => ⟨plain, fun group => absurd group nothing, fun _ => found⟩
      · exact fun loaded => loaded.word nothing
    · have digits := firstDigits_digits label
      have word : wordOf label = firstDigits label := if_neg none_
      rw [if_neg none_, resolve_digits none_ digits]
      by_cases group : InGroups c (toInteger (firstDigits label))
      · have take : 1 ≤ toInteger (firstDigits label) ∧ toInteger (firstDigits label) ≤ c.names.length := group
        rw [if_pos take]
        constructor
        · exact fun number => ⟨plain, fun _ => number, fun no => absurd group no⟩
        · exact fun loaded => loaded.number group
      · have only : candidates (firstDigits label) = [firstDigits label] := by
          rw [candidates, digits_unprefixed digits, List.map_nil]
        have apart : ∀ word ∈ candidates (firstDigits label), NoAlias c.names.length word := by
          rw [only]
          intro word member
          rw [List.mem_singleton.mp member]
          exact noAlias_of_number digits group
        have skip : ¬(1 ≤ toInteger (firstDigits label) ∧ toInteger (firstDigits label) ≤ c.names.length) := group
        rw [if_neg skip, candidates_iff apart]
        constructor
        · intro found
          refine ⟨plain, fun no => absurd no group, fun _ => ?_⟩
          rwa [word]
        · intro loaded
          have found := loaded.word group
          rwa [word] at found
  · have special : isSpecialGroup label = true := by simpa using plain
    have stored : groupOf label = [] := if_pos special
    constructor
    · intro resolved
      rw [stored, resolveGroupNumber, if_pos List.length_nil] at resolved
      omega
    · exact fun loaded => absurd loaded.plain plain

theorem name_base {i : Nat} {name : Str} (at_ : c.names[i]? = some name) : baseName i name = cstr name := by
  have named := c.named name (List.mem_of_getElem? at_)
  have some_ : ¬name.isEmpty = true := by
    intro empty
    rw [List.isEmpty_iff.mp empty] at named
    exact named rfl
  rw [baseName, if_neg some_]

theorem own_name {i : Nat} {name : Str} (at_ : c.names[i]? = some name) :
    namesGroup (normaliseGroupLabel (cstr name)) i name = true := by
  have named := c.named name (List.mem_of_getElem? at_)
  rw [namesGroup, name_base at_]
  simp [named]

theorem dropLabel_other {s label : Str} (other : startsWith s label = false) : dropLabel s label = s := by
  rw [dropLabel, if_neg (by simp [other])]

/-- A label without digits that begins with none of the words that are cut off is loaded for its group unless it is a
    special word or an earlier group has it for a first word. -/
theorem loaded_plain_iff {i : Nat} {name label : Str} (at_ : c.names[i]? = some name)
    (same : normaliseGroupLabel label = normaliseGroupLabel (cstr name)) (free : DigitFree label)
    (noFilter : startsWith (toLower (removeWhiteSpace label)) (str "filter") = false)
    (noGroup : startsWith (toLower (removeWhiteSpace label)) (str "group") = false) :
    Loaded c label i ↔ isSpecialGroup label = false ∧
      ∀ j < i, ∀ name, c.names[j]? = some name → namesGroup (normaliseGroupLabel label) j name = false := by
  have none_ := firstDigits_free free
  have nothing : ¬InGroups c (toInteger (firstDigits label)) := by
    rw [none_]
    exact fun group => absurd group.1 (by decide)
  have trimmed : trimmedLabel label = toLower (removeWhiteSpace label) := by
    rw [trimmedLabel, dropLabel_other noFilter, dropLabel_other noGroup, removeWhiteSpace_toLower, removeWhiteSpace_trimmed]
  have word : wordOf label = normaliseGroupLabel label := by
    rw [wordOf, if_pos none_, cutLabel, trimmed, dropLabel_other noFilter, normalise_toLower, normalise_removeWhiteSpace]
  have own : namesGroup (normaliseGroupLabel label) i name = true := by
    rw [same]
    exact own_name at_
  have known : ¬Unnamed c (normaliseGroupLabel label) := by
    intro unnamed
    rw [unnamed i name at_] at own
    cases own
  constructor
  · intro loaded
    refine ⟨loaded.plain, ?_⟩
    obtain ⟨missing, key, rest, parts, unknown, stands⟩ := loaded.word nothing
    rw [word, candidates] at parts
    cases missing with
    | nil =>
      obtain ⟨rfl, -⟩ := List.cons.inj parts
      rcases stands with first | ⟨unnamed, -⟩
      · exact first.first
      · exact absurd unnamed known
    | cons other missing =>
      obtain ⟨rfl, -⟩ := List.cons.inj parts
      exact absurd (unknown _ List.mem_cons_self).1 known
  · rintro ⟨plain, first⟩
    refine ⟨plain, fun group => absurd group nothing, fun _ => ?_⟩
    rw [word]
    exact ⟨[], _, _, rfl, fun _ member => absurd member List.not_mem_nil, Or.inl ⟨⟨name, at_, own⟩, first⟩⟩

/- StoryBoard's reading. -/

theorem normalise_alnum (s : Str) : ∀ b ∈ normaliseGroupLabel s, isAlnum b = true := by
  intro b member
  obtain ⟨d, inside, rfl⟩ := List.mem_map.mp member
  rw [isAlnum_tolower]
  exact (List.mem_filter.mp inside).2

theorem alnum_unsigned : ∀ b, isAlnum b = true → isSpace b = false ∧ b ≠ ch '-' ∧ b ≠ ch '+' :=
  byte_cases (by decide +kernel)

/-- A text of letters and digits that reads as a number reads as its first one. -/
theorem toInteger_alnum {s : Str} (alnum : ∀ b ∈ s, isAlnum b = true) (positive : 1 ≤ toInteger s) :
    toInteger s = toInteger (firstDigits s) := by
  have stops : ∀ b ∈ (s.dropWhile isDigit).head?, isDigit b = false := by
    intro b first
    have no := List.head?_dropWhile_not isDigit s
    rw [first] at no
    exact no
  by_cases none_ : s.takeWhile isDigit = []
  · exfalso
    have zero : toInteger s = 0 := by
      cases s with
      | nil => decide
      | cons b t =>
        obtain ⟨noSpace, minus, plus⟩ := alnum_unsigned b (alnum b List.mem_cons_self)
        rw [toInteger, List.dropWhile_cons_of_neg (by simp [noSpace]), signedDecimal, if_neg minus, if_neg plus, decimal, none_]
        decide
    omega
  · have first : firstDigits s = s.takeWhile isDigit := by
      cases s with
      | nil => rfl
      | cons b t =>
        have digit : isDigit b = true := by
          by_contra no
          exact none_ (List.takeWhile_cons_of_neg no)
        rw [firstDigits, List.dropWhile_cons_of_neg (by simp [digit])]
    have digits : ∀ b ∈ s.takeWhile isDigit, isDigit b = true := fun b member => List.mem_takeWhile_imp member
    have whole := signedDecimal_digits none_ digits stops
    have alone := signedDecimal_digits none_ digits (r := []) (by simp)
    rw [List.takeWhile_append_dropWhile] at whole
    rw [List.append_nil] at alone
    rw [first, toInteger, toInteger, whole, alone]

theorem maxGroups_eq : maxGroups c.options = c.names.length := by
  have counted := c.counted
  rw [maxGroups, c.listed]
  dsimp only
  rw [List.length_map, counted, max_self]

theorem resolve_eq {label : Str} (named : normaliseGroupLabel label ≠ []) :
    resolveFilterGroupFromLabel c.options label =
      if InGroups c (toInteger (removeWhiteSpace label)) then toInteger (removeWhiteSpace label)
      else if toLower (removeWhiteSpace label) ∈ defaultWords then defaultGroup c
      else if InGroups c (toInteger (firstDigits (normaliseGroupLabel label))) then
        toInteger (firstDigits (normaliseGroupLabel label))
      else (groupFound (normaliseGroupLabel label) 0 c.names).getD 0 := by
  have given : ¬(label.length = 0 ∨ (removeWhiteSpace label).length = 0) := by
    rintro (empty | empty)
    · rw [List.length_eq_zero_iff.mp empty] at named
      exact named rfl
    · rw [← normalise_removeWhiteSpace, List.length_eq_zero_iff.mp empty] at named
      exact named rfl
  have lowered : normaliseGroupLabel (toLower (removeWhiteSpace label)) = normaliseGroupLabel label := by
    rw [normalise_toLower, normalise_removeWhiteSpace]
  have words : (toLower (removeWhiteSpace label) = str "default" ∨ toLower (removeWhiteSpace label) = str "defaultgroup" ∨
      toLower (removeWhiteSpace label) = str "defaultfiltergroup") ↔ toLower (removeWhiteSpace label) ∈ defaultWords := by
    simp [defaultWords]
  have own : (if c.options.default_fg ≥ 0 ∧ c.options.default_fg + 1 ≤ c.names.length then c.options.default_fg + 1 else 1) =
      defaultGroup c := by
    unfold defaultGroup
    split <;> split <;> omega
  rw [resolveFilterGroupFromLabel, if_neg given]
  dsimp only
  rw [maxGroups_eq, lowered, c.listed, own]
  simp only [words, findGroup_eq]
  by_cases leading : 1 ≤ toInteger (removeWhiteSpace label) ∧ toInteger (removeWhiteSpace label) ≤ c.names.length
  · rw [if_pos leading, if_pos (show InGroups c _ from leading)]
  · rw [if_neg leading, if_neg (show ¬InGroups c _ from leading)]
    by_cases word : toLower (removeWhiteSpace label) ∈ defaultWords
    · rw [if_pos word, if_pos word]
    · rw [if_neg word, if_neg word, if_neg (by simp [named])]
      by_cases whole : 1 ≤ toInteger (normaliseGroupLabel label) ∧ toInteger (normaliseGroupLabel label) ≤ c.names.length
      · have first := toInteger_alnum (normalise_alnum label) whole.1
        rw [if_pos whole]
        rw [first] at whole ⊢
        rw [if_pos (show InGroups c _ from whole)]
      · rw [if_neg whole]
        rfl

theorem defaultWords_free : ∀ word ∈ defaultWords, firstDigits (normaliseGroupLabel word) = [] := by decide

/-- The label is read as the group exactly in these cases. -/
theorem read_iff {i : Nat} {name label : Str} (at_ : c.names[i]? = some name)
    (same : normaliseGroupLabel label = normaliseGroupLabel (cstr name)) :
    resolveFilterGroupFromLabel c.options label = (i : Int) + 1 ↔ ReadFor c label i := by
  have named : normaliseGroupLabel label ≠ [] := by
    rw [same]
    exact c.named name (List.mem_of_getElem? at_)
  have own : namesGroup (normaliseGroupLabel label) i name = true := by
    rw [same]
    exact own_name at_
  have found : (groupFound (normaliseGroupLabel label) 0 c.names).getD 0 = (i : Int) + 1 ↔
      ∀ j < i, ∀ name, c.names[j]? = some name → namesGroup (normaliseGroupLabel label) j name = false := by
    rw [getD_group, found_iff]
    exact ⟨fun first => first.first, fun first => ⟨⟨name, at_, own⟩, first⟩⟩
  rw [resolve_eq named]
  by_cases leading : InGroups c (toInteger (removeWhiteSpace label))
  · rw [if_pos leading]
    constructor
    · intro number
      exact ⟨fun _ => number, fun no => absurd leading no, fun no => absurd leading no, fun no => absurd leading no⟩
    · exact fun read => read.leading leading
  · rw [if_neg leading]
    by_cases word : toLower (removeWhiteSpace label) ∈ defaultWords
    · have nothing : ¬InGroups c (toInteger (firstDigits (normaliseGroupLabel label))) := by
        have free := defaultWords_free _ word
        rw [normalise_toLower, normalise_removeWhiteSpace] at free
        rw [free]
        exact fun group => absurd group.1 (by decide)
      rw [if_pos word]
      constructor
      · exact fun number => ⟨fun group => absurd group leading, fun _ _ => number, fun _ group => absurd group nothing,
          fun _ other => absurd word other⟩
      · exact fun read => read.word leading word
    · rw [if_neg word]
      by_cases number : InGroups c (toInteger (firstDigits (normaliseGroupLabel label)))
      · rw [if_pos number]
        constructor
        · exact fun value => ⟨fun group => absurd group leading, fun _ member => absurd member word, fun _ _ => value,
            fun _ _ no => absurd number no⟩
        · exact fun read => read.number leading number
      · rw [if_neg number, found]
        constructor
        · exact fun first => ⟨fun group => absurd group leading, fun _ member => absurd member word,
            fun _ group => absurd group number, fun _ _ _ => first⟩
        · exact fun read => read.name leading word number

/- A line of a user map. -/

theorem normalised_perm {kind : Kind} (map : kind.ismap = true) (noIp : kind.isip = false) (k : Contents) :
    (normaliseDataMapGroups c kind k).datamaplist.Perm (k.datamaplist.map (regrouped c)) := by
  rw [normaliseDataMapGroups, if_neg (by simp [map, noIp])]
  dsimp only
  split
  · exact List.perm_insertionSort _ _
  · exact List.Perm.refl _

/-- The line adds one entry, and the entry holds the number of the group. -/
def HoldsGroup (c : Groups) (kind : Kind) (key label : Str) (k : Contents) (i : Nat) : Prop :=
  ∃ v, (normaliseDataMapGroups c kind (addToDataMap (key ++ str "=" ++ label) k)).datamaplist.Perm
      ((normaliseDataMapGroups c kind k).datamaplist ++ [(toLower (removeWhiteSpace key), v)]) ∧ toInteger v = (i : Int) + 1

theorem holdsGroup_iff {kind : Kind} (map : kind.ismap = true) (noIp : kind.isip = false) {key : Str} (single : ch '=' ∉ key)
    (label : Str) (k : Contents) (i : Nat) :
    HoldsGroup c kind key label k i ↔
      resolveGroupNumber c.names.length (nameLookup c) (groupOf label) = (i : Int) + 1 := by
  have int := c.int
  have begins : (str "=").head? = some (ch '=') := rfl
  have added : (addToDataMap (key ++ str "=" ++ label) k).datamaplist =
      k.datamaplist ++ [(toLower (removeWhiteSpace key), groupOf label)] := by
    rw [List.append_assoc, addToDataMap, if_pos (contains_at begins single label), before_at begins single,
      after_at begins single]
  have high : (c.names.length : Int) < 2 ^ 31 := by omega
  have held := renamed_holds high (nameLookup_numbers c) (groupOf label)
  have after_ := normalised_perm (c := c) map noIp (addToDataMap (key ++ str "=" ++ label) k)
  rw [added, List.map_append, List.map_singleton] at after_
  have earlier := (normalised_perm (c := c) map noIp k).symm.append_right
    [regrouped c (toLower (removeWhiteSpace key), groupOf label)]
  rw [← held]
  constructor
  · rintro ⟨v, entries, number⟩
    have same := (List.perm_append_left_iff _).mp (entries.symm.trans (after_.trans earlier))
    have one := List.perm_singleton.mp same
    have value : v = (regrouped c (toLower (removeWhiteSpace key), groupOf label)).2 := by
      have := (List.cons.inj one).1
      rw [← this]
    rw [value] at number
    exact number
  · intro number
    exact ⟨_, after_.trans earlier, number⟩

end Labels

theorem stripComment_subset (temp : Str) : stripComment temp ⊆ temp := by
  induction temp with
  | nil => exact List.Subset.refl _
  | cons a rest ih =>
    cases rest with
    | nil => exact List.Subset.refl _
    | cons b rest =>
      rw [stripComment]
      split
      · exact List.cons_subset_cons a (List.nil_subset _)
      · exact List.cons_subset_cons a ih

/-- The lines that are handed to the map have no NUL. -/
theorem entry_nul_free {source : Source} {linebuffer temp : Str} (entry : parseLine source linebuffer = .entry temp) :
    0 ∉ temp := by
  have text : temp = removeWhiteSpace (stripComment (cstr linebuffer)) := by
    unfold parseLine at entry
    dsimp only at entry
    split_ifs at entry
    cases entry
    rfl
  intro member
  rw [text] at member
  exact cstr_nul_free linebuffer (stripComment_subset _ (removeWhiteSpace_subset _ member))

/-- A line of a user map and StoryBoard both take the label for the group whose name it is exactly if no number, special
    word, cut or first word of another group comes in between. -/
theorem label_kept_iff (c : Groups) {kind : Kind} (map : kind.ismap = true) (noIp : kind.isip = false) {i : Nat} {name : Str}
    (at_ : c.names[i]? = some name) {key label : Str} (single : ch '=' ∉ key) (nulFree : 0 ∉ label)
    (same : normaliseGroupLabel label = normaliseGroupLabel (cstr name)) (k : Contents) :
    HoldsGroup c kind key label k i ∧ resolveFilterGroupFromLabel c.options label = (i : Int) + 1 ↔
      Loaded c label i ∧ ReadFor c label i := by
  rw [holdsGroup_iff map noIp single, loaded_iff nulFree, read_iff at_ same]

def schoolNames : List Str := [str "year2", str "filterkids", str "Year Nine"]

theorem school_facts : (∀ name ∈ schoolNames, normaliseGroupLabel (cstr name) ≠ []) ∧
    (schoolNames.map fun name => normaliseGroupLabel (cstr name)).Nodup ∧
    ∀ name ∈ schoolNames, isAlias (normaliseGroupLabel (cstr name)) = false := by decide

theorem school_named : ∀ name ∈ schoolNames, normaliseGroupLabel (cstr name) ≠ [] := school_facts.1

theorem school_distinct : (schoolNames.map fun name => normaliseGroupLabel (cstr name)).Nodup := school_facts.2.1

theorem school_plain : ∀ name ∈ schoolNames, isAlias (normaliseGroupLabel (cstr name)) = false := school_facts.2.2

def schoolGroups : Groups where
  options := ⟨false, false, 3, 0, some (schoolNames.map some), []⟩
  names := schoolNames
  listed := rfl
  counted := rfl
  int := Nat.lt_of_sub_eq_succ rfl
  named := school_named
  distinct := school_distinct
  plain := school_plain

def userMap : Kind := ⟨false, false, true⟩

theorem year_nine_kept : HoldsGroup schoolGroups userMap (str "ann") (str "year nine") Contents.empty 2 ∧
    resolveFilterGroupFromLabel schoolGroups.options (str "year nine") = 3 := by
  have loaded : Loaded schoolGroups (str "year nine") 2 := (loaded_iff (by decide) 2).mp (by decide)
  have read : ReadFor schoolGroups (str "year nine") 2 := (read_iff rfl (by decide)).mp (by decide)
  have key : ch '=' ∉ str "ann" := by decide
  have nulFree : 0 ∉ str "year nine" := by decide
  exact (label_kept_iff schoolGroups rfl rfl rfl key nulFree (by decide) Contents.empty).mpr ⟨loaded, read⟩

/-- `year2` is the first group but is taken for the second, and `filterkids` is taken for none. -/
theorem names_misread :
    (¬HoldsGroup schoolGroups userMap (str "ben") (str "year2") Contents.empty 0 ∧
      resolveFilterGroupFromLabel schoolGroups.options (str "year2") ≠ 1) ∧
    ¬HoldsGroup schoolGroups userMap (str "eve") (str "filterkids") Contents.empty 1 := by
  refine ⟨⟨?_, by decide⟩, ?_⟩
  · rw [holdsGroup_iff rfl rfl (by decide)]
    decide
  · rw [holdsGroup_iff rfl rfl (by decide)]
    decide

end GuardianGroupNames
