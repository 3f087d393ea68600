import E2Guardian.ExactSearch
import E2Guardian.HeaderVariants
import E2Guardian.StoryRun

/- The filter groups of a user map: what is stored for a label when its line is loaded, the table of the names
   of the groups, and how the stored label is resolved when the table is known. -/
namespace GuardianGroupLabels
open GuardianString GuardianItemFile GuardianStoryRun GuardianUrls GuardianHeaderVariants

/-- Whether a name in its normalised form is a number or one of the aliases that every group has. -/
def isAlias (key : Str) : Bool :=
  [str "filter", str "group", str "grp", []].any fun front =>
    startsWith key front && !(key.drop front.length).isEmpty && (key.drop front.length).all isDigit

structure Groups where
  options : Options
  names : List Str
  listed : options.groups = some (names.map some)
  counted : options.numfg = names.length
  int : names.length < 2 ^ 31
  named : ∀ name ∈ names, normaliseGroupLabel (cstr name) ≠ []
  distinct : (names.map fun name => normaliseGroupLabel (cstr name)).Nodup
  plain : ∀ name ∈ names, isAlias (normaliseGroupLabel (cstr name)) = false

def parseGroupNumberToken (filter_groups : Int) (token : Str) : Int :=
  let digits := firstDigits token
  if digits.isEmpty then 0
  else
    let number := toInteger digits
    if number < 1 ∨ number > filter_groups then 0 else number

/-- The numbers of the groups under their names and aliases; the first one of a name stays. -/
abbrev NameLookup := List (Str × Int)

def addAlias (label : Str) (group_no : Int) (name_lookup : NameLookup) : NameLookup :=
  if label.length = 0 then name_lookup
  else
    let key := normaliseGroupLabel label
    if key.isEmpty then name_lookup
    else if (name_lookup.lookup key).isNone then name_lookup ++ [(key, group_no)]
    else name_lookup

def addGroup (idx : Nat) (name : Str) (name_lookup : NameLookup) : NameLookup :=
  let base_name := baseName idx name
  let name_lookup := addAlias base_name (idx + 1) name_lookup
  let name_lookup := if contains base_name (str " ") then
      addAlias (before base_name (str " ")) (idx + 1) name_lookup
    else name_lookup
  let name_lookup := addAlias (str "group" ++ ofInt (idx + 1)) (idx + 1) name_lookup
  let name_lookup := addAlias (str "filter" ++ ofInt (idx + 1)) (idx + 1) name_lookup
  let name_lookup := addAlias (str "grp" ++ ofInt (idx + 1)) (idx + 1) name_lookup
  addAlias (ofInt (idx + 1)) (idx + 1) name_lookup

def addGroups : Nat → List Str → NameLookup → NameLookup
  | _, [], name_lookup => name_lookup
  | idx, name :: names, name_lookup => addGroups (idx + 1) names (addGroup idx name name_lookup)

def defaultGroup (c : Groups) : Int :=
  if 0 ≤ c.options.default_fg ∧ c.options.default_fg < c.names.length then c.options.default_fg + 1 else 1

def nameLookup (c : Groups) : NameLookup :=
  let name_lookup := addGroups 0 c.names []
  let name_lookup := addAlias (str "default") (defaultGroup c) name_lookup
  let name_lookup := addAlias (str "defaultgroup") (defaultGroup c) name_lookup
  addAlias (str "defaultfiltergroup") (defaultGroup c) name_lookup

def prefixes : List Str := [str "filtergroup", str "filter", str "group", str "grp"]

def behindPrefixes (filter_groups : Int) (name_lookup : NameLookup) (key : Str) : List Str → Int
  | [] => 0
  | word :: words =>
    if startsWith key word then
      let remainder := key.drop word.length
      if remainder.isEmpty then behindPrefixes filter_groups name_lookup key words
      else
        let number := parseGroupNumberToken filter_groups remainder
        if number > 0 then number
        else (name_lookup.lookup remainder).getD (behindPrefixes filter_groups name_lookup key words)
    else behindPrefixes filter_groups name_lookup key words

def resolveGroupNumber (filter_groups : Int) (name_lookup : NameLookup) (value : Str) : Int :=
  if value.length = 0 then 0
  else
    let number := parseGroupNumberToken filter_groups value
    if number > 0 then number
    else
      let key := normaliseGroupLabel value
      if key.isEmpty then 0
      else (name_lookup.lookup key).getD (behindPrefixes filter_groups name_lookup key prefixes)

def renamed (filter_groups : Int) (name_lookup : NameLookup) (group : Str) : Option Str :=
  if group.length = 0 then none
  else
    let resolved := resolveGroupNumber filter_groups name_lookup group
    if resolved > 0 then if toInteger group ≠ resolved then some (ofInt resolved) else none
    else some [] -- unable to resolve the group

def regrouped (c : Groups) (e : Str × Str) : Str × Str :=
  (e.1, (renamed c.names.length (nameLookup c) e.2).getD e.2)

def normaliseDataMapGroups (c : Groups) (kind : Kind) (k : Contents) : Contents :=
  if !kind.ismap || kind.isip then k
  else
    let modified := k.datamaplist.any fun e => (renamed c.names.length (nameLookup c) e.2).isSome
    let entries := k.datamaplist.map (regrouped c)
    { k with datamaplist := if modified then entries.insertionSort (fun a b => a.1 ≤ b.1) else entries }

/- Labels, their digits and what is cut off them. -/

theorem letter_facts : ∀ b, isDigit (tolower b) = isDigit b ∧ (isDigit b = true → tolower b = b) ∧ (tolower b = 0 → b = 0) ∧
    isAlnum (tolower b) = isAlnum b ∧ isWhiteSpace (tolower b) = isWhiteSpace b ∧
    (isWhiteSpace b = true → isAlnum b = false) ∧ (isWhiteSpace b = true → isDigit b = false) := byte_cases (by decide +kernel)

theorem isDigit_tolower (b : UInt8) : isDigit (tolower b) = isDigit b := (letter_facts b).1

theorem tolower_digit (b : UInt8) : isDigit b = true → tolower b = b := (letter_facts b).2.1

theorem tolower_nul (b : UInt8) : tolower b = 0 → b = 0 := (letter_facts b).2.2.1

theorem isAlnum_tolower (b : UInt8) : isAlnum (tolower b) = isAlnum b := (letter_facts b).2.2.2.1

theorem isWhiteSpace_tolower (b : UInt8) : isWhiteSpace (tolower b) = isWhiteSpace b := (letter_facts b).2.2.2.2.1

theorem white_not_alnum (b : UInt8) : isWhiteSpace b = true → isAlnum b = false := (letter_facts b).2.2.2.2.2.1

theorem white_not_digit (b : UInt8) : isWhiteSpace b = true → isDigit b = false := (letter_facts b).2.2.2.2.2.2

theorem normalise_append (s t : Str) :
    normaliseGroupLabel (s ++ t) = normaliseGroupLabel s ++ normaliseGroupLabel t := by
  rw [normaliseGroupLabel, List.filter_append, List.map_append]
  rfl

theorem normalise_toLower (s : Str) : normaliseGroupLabel (toLower s) = normaliseGroupLabel s := by
  have same : isAlnum ∘ tolower = isAlnum := funext isAlnum_tolower
  have twice : tolower ∘ tolower = tolower := funext tolower_twice
  rw [normaliseGroupLabel, toLower, List.filter_map, List.map_map, same, twice]
  rfl

theorem normalise_white {p : Str} (white : ∀ b ∈ p, isWhiteSpace b = true) : normaliseGroupLabel p = [] := by
  have none_ : p.filter isAlnum = [] := by
    apply List.filter_eq_nil_iff.mpr
    intro b member
    simp [white_not_alnum b (white b member)]
  rw [normaliseGroupLabel, none_]
  rfl

theorem normalise_removeWhiteSpace (s : Str) :
    normaliseGroupLabel (removeWhiteSpace s) = normaliseGroupLabel s := by
  obtain ⟨p, q, whole, front, back⟩ := removeWhiteSpace_between s
  have parts := congrArg normaliseGroupLabel whole
  rw [normalise_append, normalise_append, normalise_white front, normalise_white back, List.nil_append,
    List.append_nil] at parts
  exact parts.symm

theorem removeWhiteSpace_toLower (s : Str) : removeWhiteSpace (toLower s) = toLower (removeWhiteSpace s) := by
  have same : isWhiteSpace ∘ tolower = isWhiteSpace := funext isWhiteSpace_tolower
  have all : (s.map tolower).all isWhiteSpace = s.all isWhiteSpace := by rw [List.all_map, same]
  unfold removeWhiteSpace toLower
  rw [all]
  split
  · rfl
  · rw [List.dropWhile_map, same, ← List.map_reverse, List.dropWhile_map, same, ← List.map_reverse]

theorem dropLabel_behind (s : Str) {label : Str} (some_ : label ≠ []) :
    s = dropLabel s label ∨ s = label ++ dropLabel s label := by
  unfold dropLabel
  split
  · rename_i begins
    obtain ⟨rest, rfl⟩ := List.isPrefixOf_iff_prefix.mp begins
    right
    rw [after, find_front some_]
    simp
  · exact Or.inl rfl

def DigitFree (s : Str) : Prop := ∀ b ∈ s, isDigit b = false

theorem firstDigits_skip {p : Str} (free : DigitFree p) (s : Str) : firstDigits (p ++ s) = firstDigits s := by
  unfold firstDigits
  rw [List.dropWhile_append_of_pos fun b member => by simp [free b member]]

theorem takeWhile_free {q : Str} (free : DigitFree q) : q.takeWhile isDigit = [] := by
  cases q with
  | nil => rfl
  | cons b q => exact List.takeWhile_cons_of_neg (by simp [free b List.mem_cons_self])

theorem firstDigits_free {q : Str} (free : DigitFree q) : firstDigits q = [] := by
  have none_ := firstDigits_skip free []
  rwa [List.append_nil] at none_

theorem digitFree_of_none {s : Str} (none_ : firstDigits s = []) : DigitFree s := by
  unfold firstDigits at none_
  cases rest : s.dropWhile fun b => !isDigit b with
  | nil =>
    intro b member
    simpa using List.dropWhile_eq_nil_iff.mp rest b member
  | cons c t =>
    have digit := List.head?_dropWhile_not (fun b => !isDigit b) s
    rw [rest] at digit none_
    rw [List.takeWhile_cons_of_pos (by simpa using digit)] at none_
    cases none_

theorem firstDigits_front {s : Str} (some_ : firstDigits s ≠ []) {r : Str} (stop : ∀ b ∈ r.head?, isDigit b = false) :
    firstDigits (s ++ r) = firstDigits s := by
  unfold firstDigits at some_ ⊢
  have behind : r.takeWhile isDigit = [] := by
    cases r with
    | nil => rfl
    | cons b r => exact List.takeWhile_cons_of_neg (by simp [stop b rfl])
  rw [List.dropWhile_append]
  split
  · rename_i none_
    rw [List.isEmpty_iff.mp none_] at some_
    exact absurd rfl some_
  · rw [List.takeWhile_append, behind, List.append_nil]
    split
    · rename_i whole
      exact ((List.takeWhile_prefix _).eq_of_length whole).symm
    · rfl

theorem firstDigits_stop {q : Str} (free : DigitFree q) (s : Str) : firstDigits (s ++ q) = firstDigits s := by
  by_cases none_ : firstDigits s = []
  · rw [firstDigits_skip (digitFree_of_none none_), firstDigits_free free, none_]
  · exact firstDigits_front none_ fun b first => free b (List.mem_of_mem_head? first)

theorem firstDigits_removeWhiteSpace (s : Str) : firstDigits (removeWhiteSpace s) = firstDigits s := by
  obtain ⟨p, q, whole, front, back⟩ := removeWhiteSpace_between s
  have before_ : DigitFree p := fun b member => white_not_digit b (front b member)
  have behind : DigitFree q := fun b member => white_not_digit b (back b member)
  rw [congrArg firstDigits whole, firstDigits_skip before_, firstDigits_stop behind]

theorem firstDigits_toLower (s : Str) : firstDigits (toLower s) = firstDigits s := by
  have same : isDigit ∘ tolower = isDigit := funext isDigit_tolower
  have other : (fun b => !isDigit b) ∘ tolower = fun b => !isDigit b := by
    funext b
    rw [Function.comp_apply, isDigit_tolower]
  rw [firstDigits, toLower, List.dropWhile_map, List.takeWhile_map, same, other, ← firstDigits]
  have keep : ∀ b ∈ firstDigits s, tolower b = b := fun b member => tolower_digit b (List.mem_takeWhile_imp member)
  rw [List.map_congr_left keep, List.map_id']

theorem firstDigits_dropLabel (s : Str) {label : Str} (some_ : label ≠ []) (free : DigitFree label) :
    firstDigits (dropLabel s label) = firstDigits s := by
  rcases dropLabel_behind s some_ with same | front
  · rw [← same]
  · rw [congrArg firstDigits front, firstDigits_skip free]

theorem firstDigits_digits (s : Str) : ∀ b ∈ firstDigits s, isDigit b = true :=
  fun _ member => List.mem_takeWhile_imp member

theorem firstDigits_all {d : Str} (digits : ∀ b ∈ d, isDigit b = true) : firstDigits d = d := by
  have start : d.dropWhile (fun b => !isDigit b) = d := by
    cases d with
    | nil => rfl
    | cons b d => exact List.dropWhile_cons_of_neg (by simp [digits b List.mem_cons_self])
  rw [firstDigits, start]
  exact List.takeWhile_eq_self_iff.mpr digits

/- What is stored for a label. -/

/-- The label without white space around it and without the words that are cut off its start, in lower case. -/
def trimmedLabel (label : Str) : Str :=
  removeWhiteSpace (dropLabel (dropLabel (toLower (removeWhiteSpace label)) (str "filter")) (str "group"))

/-- The word that a label without a number in it is cut down to. -/
def cutLabel (label : Str) : Str := dropLabel (trimmedLabel label) (str "filter")

theorem words_free : DigitFree (str "filter") ∧ DigitFree (str "group") := by
  unfold DigitFree
  decide +kernel

theorem filter_free : DigitFree (str "filter") := words_free.1

theorem group_free : DigitFree (str "group") := words_free.2

theorem firstDigits_trimmed (label : Str) : firstDigits (trimmedLabel label) = firstDigits label := by
  rw [trimmedLabel, firstDigits_removeWhiteSpace, firstDigits_dropLabel _ (by decide) group_free,
    firstDigits_dropLabel _ (by decide) filter_free, firstDigits_toLower, firstDigits_removeWhiteSpace]

theorem dropLabel_subset (s : Str) {label : Str} (some_ : label ≠ []) : dropLabel s label ⊆ s := by
  intro b member
  rcases dropLabel_behind s some_ with same | front
  · rwa [same]
  · rw [front]
    exact List.mem_append_right _ member

theorem trimmed_nul_free {label : Str} (nulFree : 0 ∉ label) : 0 ∉ trimmedLabel label := by
  intro member
  have member := dropLabel_subset _ (by decide) (removeWhiteSpace_subset _ member)
  have member := dropLabel_subset _ (by decide) member
  obtain ⟨b, inside, nul⟩ := List.mem_map.mp member
  rw [tolower_nul b nul] at inside
  exact nulFree (removeWhiteSpace_subset _ inside)

theorem digits_not_labelled {d : Str} (digits : ∀ b ∈ d, isDigit b = true) : dropLabel d (str "filter") = d := by
  unfold dropLabel
  split
  · rename_i begins
    obtain ⟨rest, rfl⟩ := List.isPrefixOf_iff_prefix.mp begins
    have letter := digits (ch 'f') (List.mem_append_left _ (by decide))
    exact absurd letter (by decide)
  · rfl

theorem groupOf_eq {label : Str} (nulFree : 0 ∉ label) (plain : isSpecialGroup label = false) :
    groupOf label = if firstDigits label = [] then cutLabel label else firstDigits label := by
  have digits : ((cstr (trimmedLabel label)).dropWhile fun b => !isDigit b).takeWhile isDigit = firstDigits label := by
    rw [cstr_of_nul_free (trimmed_nul_free nulFree)]
    exact firstDigits_trimmed label
  have stored : groupOf label = dropLabel (removeWhiteSpace
      (if (firstDigits label).length > 0 then firstDigits label else trimmedLabel label)) (str "filter") := by
    rw [← digits, groupOf, if_neg (by simp [plain])]
    rfl
  rw [stored]
  by_cases none_ : firstDigits label = []
  · rw [if_pos none_, if_neg (by simp [none_]), trimmedLabel, removeWhiteSpace_trimmed]
    rfl
  · have only := firstDigits_digits label
    rw [if_neg none_, if_pos (List.length_pos_iff.mpr none_),
      removeWhiteSpace_of_none fun b member => digit_not_whiteSpace (only b member), digits_not_labelled only]

/- The table of names. -/

theorem add_alias_lookup (label key : Str) (group_no : Int) (name_lookup : NameLookup) :
    (addAlias label group_no name_lookup).lookup key = (name_lookup.lookup key).or
      (if normaliseGroupLabel label = key ∧ key ≠ [] then some group_no else none) := by
  unfold addAlias
  split
  · rename_i empty
    obtain rfl := List.length_eq_zero_iff.mp empty
    have apart : ¬(normaliseGroupLabel [] = key ∧ key ≠ []) := fun both => both.2 both.1.symm
    rw [if_neg apart, Option.or_none]
  · dsimp only
    split
    · rename_i empty
      have apart : ¬(normaliseGroupLabel label = key ∧ key ≠ []) :=
        fun both => both.2 (both.1.symm.trans (List.isEmpty_iff.mp empty))
      rw [if_neg apart, Option.or_none]
    · rename_i some_
      rw [List.isEmpty_iff] at some_
      by_cases same : normaliseGroupLabel label = key
      · subst same
        split
        · rename_i missing
          rw [List.lookup_append, Option.isNone_iff_eq_none.mp missing]
          simp [some_]
        · rename_i known
          rw [Option.isNone_iff_eq_none] at known
          obtain ⟨g, found⟩ := Option.ne_none_iff_exists'.mp known
          rw [found, Option.some_or]
      · have other : (key == normaliseGroupLabel label) = false := by
          simpa using fun h : key = normaliseGroupLabel label => same h.symm
        split
        · rw [List.lookup_append, List.lookup_cons, other]
          simp [same]
        · simp [same]

/-- The key is not one of the aliases that every group has. -/
def NoAlias (filter_groups : Int) (key : Str) : Prop :=
  ∀ m : Int, 1 ≤ m → m ≤ filter_groups → ∀ front ∈ [str "group", str "filter", str "grp", []],
    normaliseGroupLabel (front ++ ofInt m) ≠ key

theorem addGroup_lookup {filter_groups : Int} {key : Str} (apart : NoAlias filter_groups key) {idx : Nat}
    (low : (idx : Int) + 1 ≤ filter_groups) (name : Str) (name_lookup : NameLookup) :
    (addGroup idx name name_lookup).lookup key = (name_lookup.lookup key).or
      (if namesGroup key idx name = true then some ((idx : Int) + 1) else none) := by
  have other : ∀ front ∈ [str "group", str "filter", str "grp", []],
      ¬(normaliseGroupLabel (front ++ ofInt (idx + 1)) = key ∧ key ≠ []) :=
    fun front member both => apart _ (by omega) low front member both.1
  have number : ¬(normaliseGroupLabel (ofInt ((idx : Int) + 1)) = key ∧ key ≠ []) := other [] (by simp)
  simp only [addGroup, add_alias_lookup, if_neg (other (str "group") (by simp)), if_neg (other (str "filter") (by simp)),
    if_neg (other (str "grp") (by simp)), if_neg number, Option.or_none, namesGroup]
  by_cases blank : contains (baseName idx name) (str " ") = true
  · rw [if_pos blank, add_alias_lookup, add_alias_lookup, Option.or_assoc]
    congr 1
    grind
  · rw [if_neg blank, add_alias_lookup]
    congr 1
    grind

def groupFound (key : Str) : Nat → List Str → Option Int
  | _, [] => none
  | idx, name :: names => if namesGroup key idx name = true then some (idx + 1) else groupFound key (idx + 1) names

theorem findGroup_eq (key : Str) (idx : Nat) (names : List Str) :
    findGroup key idx (names.map some) = (groupFound key idx names).getD 0 := by
  induction names generalizing idx with
  | nil => rfl
  | cons name names ih =>
    rw [List.map_cons, findGroup, groupFound, ih]
    split <;> rfl

theorem addGroups_lookup {filter_groups : Int} {key : Str} (apart : NoAlias filter_groups key) (names : List Str) (idx : Nat)
    (low : (idx : Int) + names.length ≤ filter_groups) (name_lookup : NameLookup) :
    (addGroups idx names name_lookup).lookup key = (name_lookup.lookup key).or (groupFound key idx names) := by
  induction names generalizing idx name_lookup with
  | nil => rw [addGroups, groupFound, Option.or_none]
  | cons name names ih =>
    rw [List.length_cons] at low
    rw [addGroups, ih (idx + 1) (by omega), addGroup_lookup apart (by omega), Option.or_assoc, groupFound]
    congr 1
    split <;> rfl

def defaultWords : List Str := [str "default", str "defaultgroup", str "defaultfiltergroup"]

theorem default_words : ∀ word ∈ defaultWords, normaliseGroupLabel word = word ∧ word ≠ [] := by decide

theorem nameLookup_lookup (c : Groups) {key : Str} (apart : NoAlias c.names.length key) :
    (nameLookup c).lookup key = (groupFound key 0 c.names).or
      (if key ∈ defaultWords then some (defaultGroup c) else none) := by
  have words : ∀ word ∈ defaultWords, (normaliseGroupLabel word = key ∧ key ≠ []) ↔ key = word := by
    intro word member
    obtain ⟨same, some_⟩ := default_words word member
    rw [same]
    constructor
    · exact fun both => both.1.symm
    · rintro rfl
      exact ⟨rfl, some_⟩
  simp only [nameLookup, add_alias_lookup, words (str "default") (by simp [defaultWords]),
    words (str "defaultgroup") (by simp [defaultWords]), words (str "defaultfiltergroup") (by simp [defaultWords]),
    addGroups_lookup apart c.names 0 (by omega), List.lookup_nil, Option.none_or, Option.or_assoc]
  congr 1
  simp only [defaultWords, List.mem_cons, List.not_mem_nil, or_false]
  grind

section Found
variable {key : Str}

theorem groupFound_none_iff (names : List Str) (idx : Nat) : groupFound key idx names = none ↔
    ∀ j name, names[j]? = some name → namesGroup key (idx + j) name = false := by
  induction names generalizing idx with
  | nil => simp [groupFound]
  | cons name names ih =>
    rw [groupFound]
    constructor
    · intro none_ j other at_
      split at none_
      · cases none_
      · rename_i no
        cases j with
        | zero =>
          obtain rfl := Option.some.inj at_
          exact Bool.eq_false_of_not_eq_true no
        | succ j =>
          have later := (ih (idx + 1)).mp none_ j other at_
          rwa [show idx + (j + 1) = idx + 1 + j by omega]
    · intro no
      have other : namesGroup key idx name = false := no 0 name rfl
      rw [if_neg (by simp [other]), ih]
      intro j other at_
      rw [show idx + 1 + j = idx + (j + 1) by omega]
      exact no (j + 1) other at_

theorem groupFound_iff (names : List Str) (idx : Nat) (g : Int) : groupFound key idx names = some g ↔
    ∃ i : Nat, g = idx + i + 1 ∧ (∃ name, names[i]? = some name ∧ namesGroup key (idx + i) name = true) ∧
      ∀ j < i, ∀ name, names[j]? = some name → namesGroup key (idx + j) name = false := by
  induction names generalizing idx with
  | nil => simp [groupFound]
  | cons name names ih =>
    rw [groupFound]
    constructor
    · intro found
      split at found
      · rename_i yes
        have number := Option.some.inj found
        exact ⟨0, by omega, ⟨name, rfl, yes⟩, fun j none_ => absurd none_ (Nat.not_lt_zero j)⟩
      · rename_i no
        obtain ⟨i, number, ⟨other, at_, yes⟩, first⟩ := (ih (idx + 1)).mp found
        refine ⟨i + 1, by push_cast at number ⊢; omega, ⟨other, at_, ?_⟩, ?_⟩
        · rwa [show idx + (i + 1) = idx + 1 + i by omega]
        · intro j low another at_
          cases j with
          | zero =>
            obtain rfl := Option.some.inj at_
            exact Bool.eq_false_of_not_eq_true no
          | succ j =>
            have later := first j (by omega) another at_
            rwa [show idx + (j + 1) = idx + 1 + j by omega]
    · rintro ⟨i, number, ⟨other, at_, yes⟩, first⟩
      cases i with
      | zero =>
        obtain rfl := Option.some.inj at_
        rw [Nat.add_zero] at yes
        rw [if_pos yes]
        congr 1
        omega
      | succ i =>
        have no : namesGroup key idx name = false := first 0 (by omega) name rfl
        rw [if_neg (by simp [no]), ih]
        refine ⟨i, by push_cast at number ⊢; omega, ⟨other, at_, ?_⟩, ?_⟩
        · rwa [show idx + 1 + i = idx + (i + 1) by omega]
        · intro j low another at_
          rw [show idx + 1 + j = idx + (j + 1) by omega]
          exact first (j + 1) (by omega) another at_

end Found

/- Every number in the table is the number of a group. -/

def Numbers (name_lookup : NameLookup) : Prop := ∀ e ∈ name_lookup, 1 ≤ e.2 ∧ e.2 < 2 ^ 31

theorem add_alias_numbers {name_lookup : NameLookup} (numbers : Numbers name_lookup) (label : Str) {group_no : Int}
    (valid : 1 ≤ group_no ∧ group_no < 2 ^ 31) : Numbers (addAlias label group_no name_lookup) := by
  unfold addAlias
  split
  · exact numbers
  · dsimp only
    split
    · exact numbers
    · split
      · intro e member
        rcases List.mem_append.mp member with old | new
        · exact numbers e old
        · rw [List.mem_singleton.mp new]
          exact valid
      · exact numbers

theorem addGroup_numbers {name_lookup : NameLookup} (numbers : Numbers name_lookup) {idx : Nat} (low : idx + 1 < 2 ^ 31)
    (name : Str) : Numbers (addGroup idx name name_lookup) := by
  have valid : 1 ≤ (idx : Int) + 1 ∧ (idx : Int) + 1 < 2 ^ 31 := by omega
  unfold addGroup
  apply add_alias_numbers _ _ valid
  apply add_alias_numbers _ _ valid
  apply add_alias_numbers _ _ valid
  apply add_alias_numbers _ _ valid
  split
  · apply add_alias_numbers _ _ valid
    exact add_alias_numbers numbers _ valid
  · exact add_alias_numbers numbers _ valid

theorem addGroups_numbers (names : List Str) {name_lookup : NameLookup} (numbers : Numbers name_lookup) {idx : Nat}
    (low : idx + names.length < 2 ^ 31) : Numbers (addGroups idx names name_lookup) := by
  induction names generalizing idx name_lookup with
  | nil => exact numbers
  | cons name names ih =>
    rw [List.length_cons] at low
    apply ih (addGroup_numbers numbers (by omega) name)
    omega

theorem defaultGroup_valid (c : Groups) : 1 ≤ defaultGroup c ∧ defaultGroup c < 2 ^ 31 := by
  have int := c.int
  unfold defaultGroup
  split <;> omega

theorem nameLookup_numbers (c : Groups) : Numbers (nameLookup c) := by
  have int := c.int
  have groups : Numbers (addGroups 0 c.names []) :=
    addGroups_numbers c.names (fun _ member => absurd member List.not_mem_nil) (by omega)
  apply add_alias_numbers _ _ (defaultGroup_valid c)
  apply add_alias_numbers _ _ (defaultGroup_valid c)
  exact add_alias_numbers groups _ (defaultGroup_valid c)

/- Resolving what is stored. -/

section Resolving
variable {filter_groups : Int} {name_lookup : NameLookup}

theorem parse_valid (high : filter_groups < 2 ^ 31) (token : Str) :
    0 ≤ parseGroupNumberToken filter_groups token ∧ parseGroupNumberToken filter_groups token < 2 ^ 31 := by
  unfold parseGroupNumberToken
  dsimp only
  split
  · omega
  · split <;> omega

theorem lookup_valid (numbers : Numbers name_lookup) {key : Str} {g : Int} (found : name_lookup.lookup key = some g) :
    1 ≤ g ∧ g < 2 ^ 31 := by
  obtain ⟨before_, behind, rfl, -⟩ := List.lookup_eq_some_iff.mp found
  exact numbers (key, g) (List.mem_append_right _ List.mem_cons_self)

theorem getD_valid (numbers : Numbers name_lookup) (key : Str) {other : Int} (valid : 0 ≤ other ∧ other < 2 ^ 31) :
    0 ≤ (name_lookup.lookup key).getD other ∧ (name_lookup.lookup key).getD other < 2 ^ 31 := by
  cases found : name_lookup.lookup key with
  | none => exact valid
  | some g =>
    have group := lookup_valid numbers found
    rw [Option.getD_some]
    omega

theorem behindPrefixes_valid (high : filter_groups < 2 ^ 31) (numbers : Numbers name_lookup) (key : Str) (words : List Str) :
    0 ≤ behindPrefixes filter_groups name_lookup key words ∧ behindPrefixes filter_groups name_lookup key words < 2 ^ 31 := by
  induction words with
  | nil =>
    unfold behindPrefixes
    omega
  | cons word words ih =>
    unfold behindPrefixes
    split
    · dsimp only
      split
      · exact ih
      · split
        · exact parse_valid high _
        · exact getD_valid numbers _ ih
    · exact ih

theorem resolve_valid (high : filter_groups < 2 ^ 31) (numbers : Numbers name_lookup) (value : Str) :
    0 ≤ resolveGroupNumber filter_groups name_lookup value ∧
      resolveGroupNumber filter_groups name_lookup value < 2 ^ 31 := by
  unfold resolveGroupNumber
  split
  · omega
  · dsimp only
    split
    · exact parse_valid high value
    · split
      · omega
      · exact getD_valid numbers _ (behindPrefixes_valid high numbers _ _)

theorem renamed_holds (high : filter_groups < 2 ^ 31) (numbers : Numbers name_lookup) (group : Str) :
    toInteger ((renamed filter_groups name_lookup group).getD group) = resolveGroupNumber filter_groups name_lookup group := by
  obtain ⟨natural, small⟩ := resolve_valid high numbers group
  have nothing : toInteger [] = 0 := by decide
  unfold renamed
  split
  · rename_i empty
    obtain rfl := List.length_eq_zero_iff.mp empty
    exact nothing
  · dsimp only
    split
    · split
      · have read := toInteger_int (n := resolveGroupNumber filter_groups name_lookup group) (by omega) small (r := []) (by simp)
        rwa [List.append_nil] at read
      · rename_i same
        rw [Option.getD_none]
        exact not_not.mp same
    · have zero : resolveGroupNumber filter_groups name_lookup group = 0 := by omega
      rw [zero]
      exact nothing

theorem parse_free {token : Str} (free : DigitFree token) : parseGroupNumberToken filter_groups token = 0 := by
  rw [parseGroupNumberToken, firstDigits_free free]
  rfl

def candidates (key : Str) : List Str :=
  key :: (prefixes.filter fun word => startsWith key word).map fun word => key.drop word.length

theorem behindPrefixes_eq (missing : name_lookup.lookup [] = none) {key : Str} (free : DigitFree key) (words : List Str) :
    behindPrefixes filter_groups name_lookup key words =
      (((words.filter fun word => startsWith key word).map fun word => key.drop word.length).findSome?
        fun word => name_lookup.lookup word).getD 0 := by
  induction words with
  | nil => rfl
  | cons word words ih =>
    have remainder : DigitFree (key.drop word.length) := fun b member => free b ((List.drop_suffix _ _).subset member)
    rw [behindPrefixes, List.filter_cons]
    dsimp only
    rw [parse_free remainder]
    split
    · rw [List.map_cons, List.findSome?_cons, ih]
      split
      · rename_i empty
        rw [List.isEmpty_iff.mp empty, missing]
      · rw [if_neg (by omega)]
        cases name_lookup.lookup (key.drop word.length) <;> rfl
    · exact ih

theorem normalise_free {v : Str} (free : DigitFree v) : DigitFree (normaliseGroupLabel v) := by
  intro b member
  obtain ⟨d, inside, rfl⟩ := List.mem_map.mp member
  rw [isDigit_tolower]
  exact free d (List.mem_filter.mp inside).1

theorem resolve_word (missing : name_lookup.lookup [] = none) {v : Str} (free : DigitFree v) :
    resolveGroupNumber filter_groups name_lookup v =
      ((candidates (normaliseGroupLabel v)).findSome? fun word => name_lookup.lookup word).getD 0 := by
  have empty : ((candidates []).findSome? fun word => name_lookup.lookup word).getD 0 = 0 := by
    have only : candidates [] = [[]] := by decide
    rw [only, List.findSome?_cons, missing]
    rfl
  unfold resolveGroupNumber
  split
  · rename_i none_
    obtain rfl := List.length_eq_zero_iff.mp none_
    exact empty.symm
  · rw [parse_free free]
    dsimp only
    rw [if_neg (by omega)]
    split
    · rename_i none_
      rw [List.isEmpty_iff.mp none_, empty]
    · rw [candidates, List.findSome?_cons, behindPrefixes_eq missing (normalise_free free)]
      cases name_lookup.lookup (normaliseGroupLabel v) <;> rfl

theorem digit_alnum {b : UInt8} (digit : isDigit b = true) : isAlnum b = true := by
  rw [isAlnum, digit]
  rfl

theorem normalise_digits {d : Str} (digits : ∀ b ∈ d, isDigit b = true) : normaliseGroupLabel d = d := by
  have all : d.filter isAlnum = d := List.filter_eq_self.mpr fun b member => digit_alnum (digits b member)
  have keep : ∀ b ∈ d, tolower b = b := fun b member => tolower_digit b (digits b member)
  rw [normaliseGroupLabel, all, List.map_congr_left keep, List.map_id']

theorem prefixes_free : ∀ word ∈ prefixes, ∃ b ∈ word, isDigit b = false := by decide

theorem digits_unprefixed {d : Str} (digits : ∀ b ∈ d, isDigit b = true) :
    (prefixes.filter fun word => startsWith d word) = [] := by
  apply List.filter_eq_nil_iff.mpr
  intro word member begins
  obtain ⟨rest, rfl⟩ := List.isPrefixOf_iff_prefix.mp begins
  obtain ⟨b, inside, letter⟩ := prefixes_free word member
  rw [digits b (List.mem_append_left _ inside)] at letter
  cases letter

theorem behindPrefixes_digits {d : Str} (digits : ∀ b ∈ d, isDigit b = true) :
    behindPrefixes filter_groups name_lookup d prefixes = 0 := by
  have none_ := List.filter_eq_nil_iff.mp (digits_unprefixed digits)
  have skip : ∀ words : List Str, (∀ word ∈ words, ¬startsWith d word = true) →
      behindPrefixes filter_groups name_lookup d words = 0 := by
    intro words
    induction words with
    | nil => exact fun _ => rfl
    | cons word words ih =>
      intro apart
      rw [behindPrefixes, if_neg (apart word List.mem_cons_self)]
      exact ih fun other member => apart other (List.mem_cons_of_mem _ member)
  exact skip prefixes none_

theorem resolve_digits {d : Str} (some_ : d ≠ []) (digits : ∀ b ∈ d, isDigit b = true) :
    resolveGroupNumber filter_groups name_lookup d =
      if 1 ≤ toInteger d ∧ toInteger d ≤ filter_groups then toInteger d
      else ((candidates d).findSome? fun word => name_lookup.lookup word).getD 0 := by
  have token : parseGroupNumberToken filter_groups d =
      if toInteger d < 1 ∨ toInteger d > filter_groups then 0 else toInteger d := by
    rw [parseGroupNumberToken, firstDigits_all digits, if_neg (by simp [some_])]
  rw [candidates, digits_unprefixed digits, List.map_nil, List.findSome?_cons, resolveGroupNumber, if_neg (by simp [some_])]
  dsimp only
  by_cases group : 1 ≤ toInteger d ∧ toInteger d ≤ filter_groups
  · have number : parseGroupNumberToken filter_groups d = toInteger d := by rw [token, if_neg (by omega)]
    rw [if_pos group, number, if_pos (by omega)]
  · have number : parseGroupNumberToken filter_groups d = 0 := by rw [token, if_pos (by omega)]
    rw [if_neg group, number, if_neg (by omega), normalise_digits digits, if_neg (by simp [some_]), behindPrefixes_digits digits]
    cases name_lookup.lookup d <;> rfl

end Resolving

end GuardianGroupLabels
