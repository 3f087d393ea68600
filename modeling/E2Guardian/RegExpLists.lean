import E2Guardian.UrlList

/- Lists of regular expressions of ListMeta: match lists, which are compiled with all lists
   that they include, and replacement lists. The expressions are used through the regcomp and
   regexec of the library. A list is the tree its includes unfold to, as for item lists; what
   a lookup may use is stated with the limits on the way from the top list to an entry. -/
namespace GuardianRegExpLists
open GuardianString GuardianTime GuardianItemList GuardianUrlList

structure Engine (R : Type) where
  regcomp : Str → Option R
  regexec : R → Str → Bool

def Engine.match_ {R : Type} (engine : Engine R) (r : R) (text : Str) : Bool :=
  !(cstr text).isEmpty && engine.regexec r (cstr text)

/-- An entry of the three deques: an expression, its source and the list that holds it. -/
structure Compiled (R : Type) where
  comp : R
  source : Str
  list_ref : ItemList

def isNowList (now : Clock) : ItemList → Bool
  | .node _ limit _ _ _ _ => inTime now limit

section Lists
variable {R : Type} (engine : Engine R)

def compileItem (list : ItemList) (item : Str) : Option (Compiled R) :=
  (engine.regcomp (cstr item)).map fun r => ⟨r, cstr item, list⟩

mutual

/-- The entries of the included lists, then those of the list; none if one does not compile. -/
def compileRegExMatchFile : ItemList → Option (List (Compiled R))
  | .node items limit category isSW issorted morelists => do
    let included ← compileRegExMatchFiles morelists
    let own ← items.mapM (compileItem engine (.node items limit category isSW issorted morelists))
    some (included ++ own)

def compileRegExMatchFiles : List ItemList → Option (List (Compiled R))
  | [] => some []
  | t :: ts => do
    let first ← compileRegExMatchFile t
    let rest ← compileRegExMatchFiles ts
    some (first ++ rest)

end

def searchedUrl (urlin : Str) : Str := normalise (removePTP (toLower (removeWhiteSpace urlin)))

def inRegExpURLList (now : Clock) (compiled : List (Compiled R)) (list : ItemList) (urlin : Str) : Option Nat :=
  if isNowList now list then
    compiled.findIdx? fun c => isNowList now c.list_ref && engine.match_ c.comp (searchedUrl urlin)
  else none

def chopToQuote : Str → Str
  | b :: c :: t => if b == ch '"' then b :: c :: t else chopToQuote (c :: t)
  | s => s

/-- The expression and the replacement of an item; items without an expression are skipped. -/
def replacementItem (item : Str) : Option (Str × Str) :=
  let item := cstr item
  let replacement := chop (chopToQuote (after item (str "\"->\"")).reverse).reverse
  let regexp := before (after item (str "\"")) (str "\"->\"")
  if regexp.length < 1 then none else some (regexp, replacement)

def compileReplacement (entry : Str × Str) : Option (R × Str) :=
  (engine.regcomp (cstr entry.1)).map fun r => (r, entry.2)

/-- What regExp goes through, at any time of day: only the list itself is read. -/
def readRegExReplacementFile : ItemList → Option (List (R × Str))
  | .node items _ _ _ _ _ => (items.filterMap replacementItem).mapM (compileReplacement engine)

end Lists

structure Entry where
  path : List (Option TimeLimit)
  text : Str
  deriving DecidableEq, Repr

mutual

def entriesBelow (path : List (Option TimeLimit)) : ItemList → List Entry
  | .node items limit _ _ _ morelists =>
    entriesBelowMore (path ++ [limit]) morelists ++ items.map fun item => ⟨path ++ [limit], cstr item⟩

def entriesBelowMore (path : List (Option TimeLimit)) : List ItemList → List Entry
  | [] => []
  | t :: ts => entriesBelow path t ++ entriesBelowMore path ts

end

def entries (t : ItemList) : List Entry := entriesBelow [] t

def Entry.inTime (now : Clock) (e : Entry) : Bool := e.path.all (GuardianItemList.inTime now)

mutual

/-- All lists of a tree with the limits on the way to them, in the order of the item lookups. -/
def listsBelow (path : List (Option TimeLimit)) : ItemList → List (List (Option TimeLimit) × ItemList)
  | .node items limit category isSW issorted morelists =>
    (path ++ [limit], .node items limit category isSW issorted morelists) ::
      listsBelowMore (path ++ [limit]) morelists

def listsBelowMore (path : List (Option TimeLimit)) : List ItemList → List (List (Option TimeLimit) × ItemList)
  | [] => []
  | t :: ts => listsBelow path t ++ listsBelowMore path ts

end

def searchOwn (comparitor : Bool → Str → Str → Int) (p : Str) : ItemList → Option (Str × Str)
  | .node items _ category isSW _ _ =>
    let r := search (comparitor isSW) items p
    if items.length > 0 ∧ r ≥ 0 then some (items.getD r.toNat [], category) else none

def findInTime (comparitor : Bool → Str → Str → Int) (now : Clock) (p : Str) (t : ItemList) : Option (Str × Str) :=
  ((listsBelow [] t).filter fun l => l.1.all (inTime now)).findSome? fun l => searchOwn comparitor p l.2

/- The item lookups. -/
section Items
variable (comparitor : Bool → Str → Str → Int) (now : Clock) (p : Str)

def liveList (l : List (Option TimeLimit) × ItemList) : Bool := l.1.all (inTime now)

mutual

theorem listsBelow_out_of_time {path : List (Option TimeLimit)} (out : path.all (inTime now) = false) :
    ∀ t, (listsBelow path t).filter (liveList now) = []
  | .node items limit category isSW issorted morelists => by
    have further : (path ++ [limit]).all (inTime now) = false := by simp [List.all_append, out]
    rw [listsBelow, List.filter_cons, liveList, further, listsBelowMore_out_of_time further morelists]
    rfl

theorem listsBelowMore_out_of_time {path : List (Option TimeLimit)} (out : path.all (inTime now) = false) :
    ∀ ts, (listsBelowMore path ts).filter (liveList now) = []
  | [] => rfl
  | t :: ts => by
    rw [listsBelowMore, List.filter_append, listsBelow_out_of_time out t, listsBelowMore_out_of_time out ts]
    rfl

end

mutual

theorem findWith_eq {path : List (Option TimeLimit)} (live : path.all (inTime now) = true) :
    ∀ t, findWith comparitor now p t =
      ((listsBelow path t).filter (liveList now)).findSome? fun l => searchOwn comparitor p l.2
  | .node items limit category isSW issorted morelists => by
    have whole : (path ++ [limit]).all (inTime now) = inTime now limit := by simp [List.all_append, live]
    rw [findWith, listsBelow, List.filter_cons, liveList, whole]
    cases timed : inTime now limit with
    | true =>
      have more := findWithMore_eq (whole.trans timed) morelists
      simp only [↓reduceIte, List.findSome?_cons, ← more]
      simp only [searchOwn]
      split
      · rfl
      · rfl
    | false =>
      simp only [Bool.false_eq_true, ↓reduceIte]
      rw [listsBelowMore_out_of_time now (whole.trans timed) morelists]
      rfl

theorem findWithMore_eq {path : List (Option TimeLimit)} (live : path.all (inTime now) = true) :
    ∀ ts, findWithMore comparitor now p ts =
      ((listsBelowMore path ts).filter (liveList now)).findSome? fun l => searchOwn comparitor p l.2
  | [] => rfl
  | t :: ts => by
    rw [findWithMore, listsBelowMore, List.filter_append, List.findSome?_append, ← findWith_eq live t,
      ← findWithMore_eq live ts]
    cases findWith comparitor now p t <;> rfl

end

end Items

/- The match lists: what a lookup tests. -/
section Matches
variable {R : Type} (engine : Engine R) (now : Clock)

def Entry.ownInTime (e : Entry) : Bool := (e.path.getLast?.map (GuardianItemList.inTime now)).getD true

/-- A compiled entry, and the entry that it was made from. -/
def Stands (c : Compiled R) (e : Entry) : Prop :=
  engine.regcomp e.text = some c.comp ∧ isNowList now c.list_ref = e.ownInTime now

theorem compileItems_stand (list : ItemList) (path : List (Option TimeLimit)) (limit : Option TimeLimit)
    (same : isNowList now list = inTime now limit) :
    ∀ (items : List Str) (own : List (Compiled R)), items.mapM (compileItem engine list) = some own →
      List.Forall₂ (Stands engine now) own (items.map fun item => ⟨path ++ [limit], cstr item⟩)
  | [], own, compiled => by
    simp only [List.mapM_nil, pure, Option.some.injEq] at compiled
    subst compiled
    exact .nil
  | item :: items, own, compiled => by
    simp only [List.mapM_cons, Option.bind_eq_bind, Option.bind_eq_some_iff, pure, Option.some.injEq] at compiled
    obtain ⟨c, first, rest, others, rfl⟩ := compiled
    simp only [compileItem, Option.map_eq_some_iff] at first
    obtain ⟨r, expression, rfl⟩ := first
    refine .cons ⟨expression, ?_⟩ (compileItems_stand list path limit same items rest others)
    simp [Entry.ownInTime, same]

mutual

theorem compile_stands (path : List (Option TimeLimit)) :
    ∀ t compiled, compileRegExMatchFile engine t = some compiled →
      List.Forall₂ (Stands engine now) compiled (entriesBelow path t)
  | .node items limit category isSW issorted morelists, compiled, read => by
    simp only [compileRegExMatchFile, Option.bind_eq_bind, Option.bind_eq_some_iff, Option.some.injEq] at read
    obtain ⟨included, more, own, items_, rfl⟩ := read
    rw [entriesBelow]
    exact List.rel_append (compileMore_stands (path ++ [limit]) morelists included more)
      (compileItems_stand engine now _ path limit rfl items own items_)

theorem compileMore_stands (path : List (Option TimeLimit)) :
    ∀ ts compiled, compileRegExMatchFiles engine ts = some compiled →
      List.Forall₂ (Stands engine now) compiled (entriesBelowMore path ts)
  | [], compiled, read => by
    simp only [compileRegExMatchFiles, Option.some.injEq] at read
    subst read
    exact .nil
  | t :: ts, compiled, read => by
    simp only [compileRegExMatchFiles, Option.bind_eq_bind, Option.bind_eq_some_iff, Option.some.injEq] at read
    obtain ⟨first, here, rest, others, rfl⟩ := read
    rw [entriesBelowMore]
    exact List.rel_append (compile_stands path t first here) (compileMore_stands path ts rest others)

end

theorem findIdx?_of_forall₂ {α β : Type} {r : α → β → Prop} {p : α → Bool} {q : β → Bool}
    (agree : ∀ a b, r a b → p a = q b) {l : List α} {l' : List β} (related : List.Forall₂ r l l') :
    l.findIdx? p = l'.findIdx? q := by
  induction related with
  | nil => rfl
  | cons here _ ih => rw [List.findIdx?_cons, List.findIdx?_cons, agree _ _ here, ih]

def Entry.found (e : Entry) (text : Str) : Bool :=
  match engine.regcomp e.text with
  | some r => engine.match_ r text
  | none => false

def Entry.tested (e : Entry) : Bool :=
  (e.path.head?.map (GuardianItemList.inTime now)).getD true && e.ownInTime now

mutual

theorem entriesBelow_path {path : List (Option TimeLimit)} :
    ∀ t, ∀ e ∈ entriesBelow path t, ∃ rest, e.path = path ++ rest ∧ rest ≠ []
  | .node items limit category isSW issorted morelists, e, member => by
    rw [entriesBelow, List.mem_append, List.mem_map] at member
    rcases member with more | ⟨item, -, rfl⟩
    · obtain ⟨rest, below, -⟩ := entriesBelowMore_path morelists e more
      exact ⟨limit :: rest, by simp [below], by simp⟩
    · exact ⟨[limit], rfl, by simp⟩

theorem entriesBelowMore_path {path : List (Option TimeLimit)} :
    ∀ ts, ∀ e ∈ entriesBelowMore path ts, ∃ rest, e.path = path ++ rest ∧ rest ≠ []
  | [], e, member => by simp [entriesBelowMore] at member
  | t :: ts, e, member => by
    rw [entriesBelowMore, List.mem_append] at member
    rcases member with first | rest
    · exact entriesBelow_path t e first
    · exact entriesBelowMore_path ts e rest

end

def limitOf : ItemList → Option TimeLimit
  | .node _ limit _ _ _ _ => limit

theorem entries_head {t : ItemList} {e : Entry} (member : e ∈ entries t) : e.path.head? = some (limitOf t) := by
  cases t with
  | node items limit category isSW issorted morelists =>
    rw [entries, entriesBelow, List.mem_append, List.mem_map] at member
    rcases member with more | ⟨item, -, rfl⟩
    · obtain ⟨rest, below, -⟩ := entriesBelowMore_path morelists e more
      simp [below, limitOf]
    · rfl

theorem inRegExpURLList_eq {t : ItemList} {compiled : List (Compiled R)}
    (read : compileRegExMatchFile engine t = some compiled) (urlin : Str) :
    inRegExpURLList engine now compiled t urlin =
      (entries t).findIdx? fun e => e.tested now && e.found engine (searchedUrl urlin) := by
  have top : isNowList now t = inTime now (limitOf t) := by cases t; rfl
  unfold inRegExpURLList
  rw [top]
  cases timed : inTime now (limitOf t) with
  | true =>
    have same : ∀ e ∈ entries t, (e.tested now && e.found engine (searchedUrl urlin)) =
        (e.ownInTime now && e.found engine (searchedUrl urlin)) := by
      intro e member
      simp [Entry.tested, entries_head member, timed]
    rw [if_pos rfl, findIdx?_of_forall₂ (fun _ _ agree => agree) (List.forall₂_same.mpr same)]
    refine findIdx?_of_forall₂ ?_ (compile_stands engine now [] t compiled read)
    intro c e ⟨expression, own⟩
    rw [own, Entry.found, expression]
  | false =>
    have none_ : ∀ e ∈ entries t, (e.tested now && e.found engine (searchedUrl urlin)) = false := by
      intro e member
      simp [Entry.tested, entries_head member, timed]
    rw [if_neg (by simp), List.findIdx?_eq_none_iff.mpr none_]

end Matches

/- The three kinds of lists beside each other. -/
section Timed
variable (now : Clock)

/-- Item lists: every lookup answers from the lists in time, all the way down. -/
def ItemsTimed (t : ItemList) : Prop :=
  ∀ p, findInList now t p = findInTime (fun isSW => if isSW then greaterThanSWF else greaterThanEWF) now p t ∧
    findStartsWith now t p = findInTime (fun _ => greaterThanSW) now p t ∧
    findEndsWith now t p = findInTime (fun _ => greaterThanEW) now p t

/-- Match lists: whatever the expressions mean, a lookup answers with the first entry in time,
all the way down, that is found. -/
def MatchesTimed (t : ItemList) : Prop :=
  ∀ (R : Type) (engine : Engine R) compiled, compileRegExMatchFile engine t = some compiled →
    ∀ urlin, inRegExpURLList engine now compiled t urlin =
      (entries t).findIdx? fun e => e.inTime now && e.found engine (searchedUrl urlin)

def Entry.substitution {R : Type} (engine : Engine R) (e : Entry) : Option (R × Str) :=
  replacementItem e.text >>= compileReplacement engine

def replacementsInTime {R : Type} (engine : Engine R) (t : ItemList) : List (R × Str) :=
  ((entries t).filter (·.inTime now)).filterMap (·.substitution engine)

/-- Replacement lists: the substitutions that are made are those of the entries in time. -/
def ReplacementsTimed (t : ItemList) : Prop :=
  ∀ (R : Type) (engine : Engine R) pairs, readRegExReplacementFile engine t = some pairs →
    pairs.Perm (replacementsInTime now engine t)

def TimedThroughIncludes (t : ItemList) : Prop :=
  ItemsTimed now t ∧ MatchesTimed now t ∧ ReplacementsTimed now t

/-- An entry that is tested although a list between the top list and its own is out of time
repeats an entry in time that is compiled before it. -/
def TestedEarlier (t : ItemList) : Prop :=
  ∀ (i : Nat) (e : Entry), (entries t)[i]? = some e → e.tested now = true → e.inTime now = false →
    ∃ j < i, ∃ e' : Entry, (entries t)[j]? = some e' ∧ e'.text = e.text ∧ e'.inTime now = true

/-- The entries with an expression that are in time are those of the list itself. -/
def OwnReplacements (t : ItemList) : Prop :=
  ∀ e ∈ entries t, (replacementItem e.text).isSome = true → (e.inTime now = true ↔ e.path.length = 1)

theorem itemsTimed (t : ItemList) : ItemsTimed now t := by
  intro p
  exact ⟨findWith_eq _ now p rfl t, findWith_eq _ now p rfl t, findWith_eq _ now p rfl t⟩

theorem tested_of_inTime {e : Entry} (timed : e.inTime now = true) : e.tested now = true := by
  have all : ∀ limit ∈ e.path, inTime now limit = true := List.all_eq_true.mp timed
  have first : (e.path.head?.map (GuardianItemList.inTime now)).getD true = true := by
    cases head : e.path.head? with
    | none => rfl
    | some limit => exact all limit (List.mem_of_head? head)
  have last : e.ownInTime now = true := by
    unfold Entry.ownInTime
    cases own : e.path.getLast? with
    | none => rfl
    | some limit => exact all limit (List.mem_of_getLast? own)
  simp [Entry.tested, first, last]

/-- Two searches of which one finds more find the same if what only that one finds always
comes later. -/
theorem findIdx?_eq_of_earlier {α : Type} {p q : α → Bool} {l : List α} (wider : ∀ a ∈ l, q a = true → p a = true)
    (earlier : ∀ (i : Nat) (a : α), l[i]? = some a → p a = true → q a = false →
      ∃ j < i, ∃ b, l[j]? = some b ∧ q b = true) :
    l.findIdx? p = l.findIdx? q := by
  cases found : l.findIdx? p with
  | none =>
    rw [List.findIdx?_eq_none_iff] at found
    symm
    rw [List.findIdx?_eq_none_iff]
    intro a member
    by_contra hit
    have both := wider a member (by simpa using hit)
    simp [found a member] at both
  | some i =>
    rw [List.findIdx?_eq_some_iff_getElem] at found
    obtain ⟨bound, hit, first⟩ := found
    symm
    rw [List.findIdx?_eq_some_iff_getElem]
    refine ⟨bound, ?_, ?_⟩
    · by_contra miss
      obtain ⟨j, before_, b, place, other⟩ :=
        earlier i l[i] (List.getElem?_eq_getElem bound) hit (by simpa using miss)
      obtain ⟨low, rfl⟩ := List.getElem?_eq_some_iff.mp place
      exact first j before_ (wider _ (List.getElem_mem low) other)
    · intro j before_ other
      exact first j before_ (wider _ (List.getElem_mem (by omega)) other)

/-- Expressions that are their own source and match what they are told to. -/
def literalEngine (hit : Str → Bool) : Engine Str := ⟨some, fun r _ => hit r⟩

theorem mapM_total {α β : Type} {f : α → Option β} (total : ∀ a, ∃ b, f a = some b) :
    ∀ l : List α, ∃ r, l.mapM f = some r
  | [] => ⟨[], rfl⟩
  | a :: l => by
    obtain ⟨b, first⟩ := total a
    obtain ⟨r, others⟩ := mapM_total total l
    exact ⟨b :: r, by simp [List.mapM_cons, first, others]⟩

mutual

theorem literalEngine_compiles_all (hit : Str → Bool) :
    ∀ t, ∃ compiled, compileRegExMatchFile (literalEngine hit) t = some compiled
  | .node items limit category isSW issorted morelists => by
    obtain ⟨included, more⟩ := literalEngine_compiles_more hit morelists
    obtain ⟨own, here⟩ := mapM_total (f := compileItem (literalEngine hit)
      (.node items limit category isSW issorted morelists)) (fun item => ⟨_, rfl⟩) items
    exact ⟨included ++ own, by simp [compileRegExMatchFile, more, here]⟩

theorem literalEngine_compiles_more (hit : Str → Bool) :
    ∀ ts, ∃ compiled, compileRegExMatchFiles (literalEngine hit) ts = some compiled
  | [] => ⟨[], rfl⟩
  | t :: ts => by
    obtain ⟨first, here⟩ := literalEngine_compiles_all hit t
    obtain ⟨rest, more⟩ := literalEngine_compiles_more hit ts
    exact ⟨first ++ rest, by simp [compileRegExMatchFiles, here, more]⟩

end

theorem literalEngine_found (hit : Str → Bool) (e : Entry) :
    e.found (literalEngine hit) (searchedUrl (str "x")) = hit e.text := by
  have given : (cstr (searchedUrl (str "x"))).isEmpty = false := by decide
  simp [Entry.found, literalEngine, Engine.match_, given]

theorem testedEarlier_of_timed {t : ItemList} (timed : MatchesTimed now t) : TestedEarlier now t := by
  intro i e place tested early
  -- an expression that only matches where the source of the entry stands
  let engine := literalEngine (· == e.text)
  obtain ⟨compiled, read⟩ := literalEngine_compiles_all (· == e.text) t
  have same := timed Str engine compiled read (str "x")
  rw [inRegExpURLList_eq engine now read] at same
  simp only [engine, literalEngine_found] at same
  obtain ⟨bound, rfl⟩ := List.getElem?_eq_some_iff.mp place
  cases first : (entries t).findIdx? fun e' => e'.tested now && e'.text == (entries t)[i].text with
  | none =>
    have nowhere := List.findIdx?_eq_none_iff.mp first _ (List.getElem_mem bound)
    simp [tested] at nowhere
  | some k =>
    rw [first] at same
    obtain ⟨low, -, none_⟩ := List.findIdx?_eq_some_iff_getElem.mp first
    obtain ⟨_, hit, -⟩ := List.findIdx?_eq_some_iff_getElem.mp same.symm
    simp only [Bool.and_eq_true, beq_iff_eq] at hit
    have notLater : ¬ i < k := by
      intro later
      exact none_ i later (by simp [tested])
    have other : k ≠ i := by
      rintro rfl
      simp [early] at hit
    exact ⟨k, by omega, _, List.getElem?_eq_getElem low, hit.2, hit.1⟩

theorem matchesTimed_iff (t : ItemList) : MatchesTimed now t ↔ TestedEarlier now t := by
  refine ⟨testedEarlier_of_timed now, ?_⟩
  intro earlier R engine compiled read urlin
  rw [inRegExpURLList_eq engine now read]
  refine findIdx?_eq_of_earlier ?_ ?_
  · intro e _ hit
    rw [Bool.and_eq_true] at hit ⊢
    exact ⟨tested_of_inTime now hit.1, hit.2⟩
  · intro i e place hit miss
    rw [Bool.and_eq_true] at hit
    rw [hit.2, Bool.and_true] at miss
    obtain ⟨j, before_, e', place', text, timed⟩ := earlier i e place hit.1 miss
    refine ⟨j, before_, e', place', ?_⟩
    have found : e'.found engine (searchedUrl urlin) = e.found engine (searchedUrl urlin) := by
      simp only [Entry.found, text]
    rw [found, hit.2, timed]
    rfl

theorem filterMap_of_mapM {α β : Type} {f : α → Option β} :
    ∀ {l : List α} {r : List β}, l.mapM f = some r → l.filterMap f = r
  | [], r, all => by
    simp only [List.mapM_nil, pure, Option.some.injEq] at all
    exact all
  | a :: l, r, all => by
    simp only [List.mapM_cons, Option.bind_eq_bind, Option.bind_eq_some_iff, pure, Option.some.injEq] at all
    obtain ⟨b, first, rest, others, rfl⟩ := all
    rw [List.filterMap_cons_some first, filterMap_of_mapM others]

theorem replacementItem_cstr (item : Str) : replacementItem (cstr item) = replacementItem item := by
  have same : cstr (cstr item) = cstr item := cstr_of_nul_free (cstr_nul_free item)
  simp only [replacementItem, same]

theorem own_entries (items : List Str) (limit : Option TimeLimit) (category : Str) (isSW issorted : Bool)
    (morelists : List ItemList) :
    (entries (.node items limit category isSW issorted morelists)).filter (·.path.length == 1) =
      items.map fun item => ⟨[limit], cstr item⟩ := by
  rw [entries, entriesBelow, List.filter_append]
  have more : (entriesBelowMore ([] ++ [limit]) morelists).filter (·.path.length == 1) = [] := by
    rw [List.filter_eq_nil_iff]
    intro e member
    obtain ⟨rest, below, deeper⟩ := entriesBelowMore_path morelists e member
    have longer := List.length_pos_of_ne_nil deeper
    simp [below]
    omega
  rw [more, List.nil_append, List.filter_eq_self.mpr]
  · rfl
  · intro e member
    obtain ⟨item, -, rfl⟩ := List.mem_map.mp member
    rfl

theorem readRegExReplacementFile_eq {R : Type} {engine : Engine R} {t : ItemList} {pairs : List (R × Str)}
    (read : readRegExReplacementFile engine t = some pairs) :
    pairs = ((entries t).filter (·.path.length == 1)).filterMap (·.substitution engine) := by
  cases t with
  | node items limit category isSW issorted morelists =>
    have all := filterMap_of_mapM read
    rw [← all, own_entries, List.filterMap_map, List.filterMap_filterMap]
    congr 1
    funext item
    simp only [Function.comp, Entry.substitution, replacementItem_cstr]
    rfl

theorem replacementsTimed_of_own {t : ItemList} (own : OwnReplacements now t) : ReplacementsTimed now t := by
  intro R engine pairs read
  rw [readRegExReplacementFile_eq read, replacementsInTime, List.filterMap_filter, List.filterMap_filter]
  have same : ∀ e ∈ entries t, (if (e.path.length == 1) = true then e.substitution engine else none) =
      if e.inTime now = true then e.substitution engine else none := by
    intro e member
    cases usable : replacementItem e.text with
    | none => simp [Entry.substitution, usable]
    | some pair =>
      have which := own e member (by simp [usable])
      simp only [beq_iff_eq, which]
  rw [List.filterMap_congr same]

theorem own_entry_inTime {t : ItemList} {e : Entry} (member : e ∈ entries t) (own : e.path.length = 1) :
    e.inTime now = inTime now (limitOf t) := by
  obtain ⟨limit, path⟩ := List.length_eq_one_iff.mp own
  have head := entries_head member
  rw [path, List.head?_cons, Option.some.injEq] at head
  simp [Entry.inTime, path, head]

theorem inTime_top {t : ItemList} {e : Entry} (member : e ∈ entries t) (timed : e.inTime now = true) :
    inTime now (limitOf t) = true :=
  List.all_eq_true.mp timed _ (List.mem_of_head? (entries_head member))

/-- What holds of no more members than something it implies is implied by it. -/
theorem converse_of_countP_eq {α : Type} {p q : α → Bool} :
    ∀ {l : List α}, (∀ a ∈ l, p a = true → q a = true) → l.countP p = l.countP q →
      ∀ a ∈ l, q a = true → p a = true
  | [], _, _, a, member => by simp at member
  | x :: l, implied, counts, a, member => by
    have tail : ∀ a ∈ l, p a = true → q a = true := fun a inside => implied a (List.mem_cons_of_mem _ inside)
    have fewer := List.countP_mono_left tail
    have here := implied x List.mem_cons_self
    simp only [List.countP_cons] at counts
    intro holds
    rcases List.mem_cons.mp member with rfl | inside
    · by_contra missing
      simp only [holds, missing, ↓reduceIte] at counts
      omega
    · refine converse_of_countP_eq tail ?_ a inside holds
      cases px : p x with
      | true => simpa [px, here px] using counts
      | false =>
        simp only [px, Bool.false_eq_true, ↓reduceIte] at counts
        omega

theorem ownReplacements_of_timed {t : ItemList} (timed : ReplacementsTimed now t) : OwnReplacements now t := by
  let engine := literalEngine fun _ => true
  have readable : ∃ pairs, readRegExReplacementFile engine t = some pairs := by
    cases t
    exact mapM_total (fun pair => ⟨_, rfl⟩) _
  obtain ⟨pairs, read⟩ := readable
  have usable : ∀ e : Entry, (e.substitution engine).isSome = (replacementItem e.text).isSome := by
    intro e
    cases whole : replacementItem e.text <;> simp [Entry.substitution, whole, compileReplacement, engine, literalEngine]
  have counts := (timed Str engine pairs read).length_eq
  rw [readRegExReplacementFile_eq read, replacementsInTime, List.length_filterMap_eq_countP,
    List.length_filterMap_eq_countP, List.countP_filter, List.countP_filter] at counts
  intro e member given
  constructor
  · intro live
    have top := inTime_top now member live
    have both := converse_of_countP_eq ?_ counts e member (by simp [live, given, usable])
    · simp only [Bool.and_eq_true, beq_iff_eq] at both
      exact both.2
    · intro e' inside own
      simp only [Bool.and_eq_true, beq_iff_eq] at own ⊢
      exact ⟨own.1, (own_entry_inTime now inside own.2).trans top⟩
  · intro own
    rw [own_entry_inTime now member own]
    by_contra late
    -- nothing is in time, so that no substitution may be made
    have none_ : (entries t).countP (fun e => (e.substitution engine).isSome && e.inTime now) = 0 := by
      rw [List.countP_eq_zero]
      intro e' inside both
      simp only [Bool.and_eq_true] at both
      exact late (inTime_top now inside both.2)
    rw [none_, List.countP_eq_zero] at counts
    exact counts e member (by simp [given, usable, own])

/-- Entries take part in lookups exactly if every list on the way to them is in time, in all
three kinds of lists, exactly if match lists have no entry behind a list out of time and
replacement lists have their entries in time and none in included lists. -/
theorem timed_through_includes_iff (t : ItemList) :
    TimedThroughIncludes now t ↔ TestedEarlier now t ∧ OwnReplacements now t := by
  constructor
  · intro ⟨_, matches_, replacements⟩
    exact ⟨testedEarlier_of_timed now matches_, ownReplacements_of_timed now replacements⟩
  · intro ⟨earlier, own⟩
    exact ⟨itemsTimed now t, (matchesTimed_iff now t).mpr earlier, replacementsTimed_of_own now own⟩

end Timed

/-- A list that includes one for the night, which includes one without a limit. -/
def nightRules : ItemList :=
  .node [] none [] true false
    [.node [] (some ⟨22, 0, 23, 0, str "0123456", []⟩) [] true false
      [.node [str "casino"] none [] true false []]]

def includedReplacement : ItemList :=
  .node [] none [] true false [.node [str "\"cat\"->\"dog\""] none [] true false []]

/-- At noon the match list answers with its entry, since only the top list and its own are
looked at; the substitution is made at no time. -/
theorem night_rule_matched_and_replacement_lost :
    ¬ TimedThroughIncludes noon nightRules ∧ ¬ TimedThroughIncludes noon includedReplacement := by
  constructor
  · intro ⟨_, timed, _⟩
    have compiled : compileRegExMatchFile (literalEngine fun _ => true) nightRules =
        some [⟨str "casino", str "casino", .node [str "casino"] none [] true false []⟩] := rfl
    have same := timed Str (literalEngine fun _ => true) _ compiled (str "casino.example")
    exact absurd same (by decide)
  · intro ⟨_, _, timed⟩
    have read : readRegExReplacementFile (literalEngine fun _ => true) includedReplacement = some [] := rfl
    have same := (timed Str (literalEngine fun _ => true) _ read).length_eq
    exact absurd same (by decide)

end GuardianRegExpLists
