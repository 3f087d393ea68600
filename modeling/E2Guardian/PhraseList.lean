import Mathlib.Data.List.Induction
import E2Guardian.TimeLimits

/- Phrase lists of ListContainer: the reader of phrase files with their includes, #time
   sections, #listcategory and #noconvert lines, and the flat combination list it fills.
   The parallel vectors of text, weight, type, category and time index are one list of
   records. Reading an include is a call back into the reader; a nesting deeper than the
   given depth, as an include cycle has it, gives no list at all. -/
namespace GuardianPhraseList
open GuardianString GuardianTime

-- Types: -1 exception, 0 banned, 1 weighted; 10, 11, 12 a part of such a combination.
structure PhraseItem where
  text : Str
  type : Int
  weight : Int
  category : Int
  time : Int
  deriving DecidableEq, Repr

structure PhraseList where
  items : List PhraseItem
  combilist : List Int
  listcategory : List Str
  timelimits : List TimeLimit
  istimelimited : Bool
  deriving DecidableEq, Repr

def PhraseList.empty : PhraseList := ⟨[], [], [], [], false⟩

def getItemAtInt (l : PhraseList) (index : Nat) : Str := (l.items[index]?.map (·.text)).getD []

def checkTimeAtD (now : Clock) (l : PhraseList) (index : Int) : Bool :=
  if index = -1 then true
  else if !l.istimelimited then true
  else
    match l.timelimits[index.toNat]? with
    | some tl => isNow now tl
    | none => false

/-- The index of the category; a new category is added, a blank one counts as the first. -/
def getCategoryIndex (l : PhraseList) (lcat : Str) : Int × PhraseList :=
  if lcat.length < 2 then (0, l)
  else
    match l.listcategory.findIdx? (· == lcat) with
    | some i => (i, l)
    | none => (l.listcategory.length, { l with listcategory := l.listcategory ++ [lcat] })

def addToItemListPhrase (l : PhraseList) (s : Str) (type weighting : Int) (combi : Bool)
    (catindex timeindex : Int) : PhraseList :=
  { l with
    items := l.items ++ [⟨s, type, weighting, catindex, timeindex⟩]
    combilist := if combi then l.combilist ++ [(l.items.length : Int)] else l.combilist }

def storedPhrase (phrase : Str) : Str :=
  let phrase := removePunctuation phrase
  if phrase.length > 127 then phrase.take 127 else phrase

def readPhraseListHelper2 (l : PhraseList) (phrase : Str) (type weighting catindex timeindex : Int) :
    PhraseList :=
  if type > 19 then
    { l with combilist := l.combilist ++ [-2, type - 21, timeindex, weighting, catindex] }
  else
    let phrase := storedPhrase phrase
    if phrase.length < 1 then l -- it is too small to use
    else if type < 10 then addToItemListPhrase l phrase type weighting false catindex timeindex
    else addToItemListPhrase l phrase type weighting true catindex timeindex

/-- A percentage of the limit if there is one, else the plain weight, else 0. The product is an `int`. -/
def lineWeighting (line : Str) (nlimit : Int) : Int :=
  let weighting := toInteger (before (after line (str "><")) (str "%>"))
  if weighting ≠ 0 then ((weighting * nlimit).bmod (2 ^ 32)).tdiv 100
  else toInteger (before (after line (str "><")) (str ">"))

def lineType (weighting : Int) (isexception : Bool) : Int :=
  if weighting ≠ 0 then 1 else if isexception then -1 else 0

def linePhrases (line : Str) (nlimit : Int) : Str :=
  if lineWeighting line nlimit ≠ 0 then before line (str "><") ++ str ">" else line

def isCombination (line : Str) : Bool := (after line (str ">,")).length > 2

def combiPartsLoop : Nat → Str → List Str
  | 0, _ => []
  | fuel + 1, line =>
    if line.length > 2 then
      let line := after line (str "<")
      before line (str ">") :: combiPartsLoop fuel (after line (str ">,"))
    else []

def combiParts (line : Str) : List Str := combiPartsLoop line.length line

def readPhraseListHelper (l : PhraseList) (line : Str) (isexception : Bool)
    (catindex timeindex nlimit : Int) : PhraseList :=
  let weighting := lineWeighting line nlimit
  let type := lineType weighting isexception
  let line := linePhrases line nlimit
  if isCombination line then
    let l := (combiParts line).foldl
      (fun l part => readPhraseListHelper2 l part (type + 11) weighting catindex timeindex) l
    readPhraseListHelper2 l [] (type + 21) weighting catindex timeindex -- end of combi marker
  else
    readPhraseListHelper2 l (before (after line (str "<")) (str ">")) type weighting catindex
      timeindex

abbrev FileSystem := Str → Option Str

structure ReadState where
  list : PhraseList
  catindex : Int
  timeindex : Int
  caseinsensitive : Bool
  deriving DecidableEq, Repr

section Reader
-- keep decides which phrase lines are stored; the program's own reader keeps them all.
variable (keep : PhraseList → Int → Bool)
variable (include_ : PhraseList → Str → Int → Int → Option (Bool × PhraseList))
variable (isexception : Bool) (nlimit : Int)

def readLine (linebuffer : Str) (st : ReadState) : Option (Bool × ReadState) :=
  if linebuffer.length = 0 then some (true, st)
  else
    let line := removeWhiteSpace (cstr linebuffer)
    let line := if st.caseinsensitive then toLower line else line
    if startsWith line (str "<") then
      if keep st.list st.timeindex then
        some (true, { st with
          list := readPhraseListHelper st.list line isexception st.catindex st.timeindex nlimit })
      else some (true, st)
    else if startsWith line (str ".") then
      let temp := before (after line (str ".include<")) (str ">")
      if temp.length > 0 then
        match include_ st.list temp st.catindex st.timeindex with
        | some (_, list) => some (true, { st with list := list })
        | none => none
      else some (true, st)
    else if startsWith line (str "#listcategory:") then
      let lcat := before (after (cstr linebuffer) (str "\"")) (str "\"")
      let (catindex, list) := getCategoryIndex st.list lcat
      some (true, { st with list := list, catindex := catindex })
    else if startsWith line (str "#noconvert") then
      some (true, { st with caseinsensitive := false })
    else if startsWith line (str "#time: ") then
      match readTimeTag line with
      | none => some (false, st)
      | some tl =>
        some (true, { st with
          list := { st.list with
            timelimits := st.list.timelimits ++ [tl]
            istimelimited := true }
          timeindex := st.list.timelimits.length })
    else some (true, st)

def readLines : List Str → ReadState → Option (Bool × PhraseList)
  | [], st => some (true, st.list)
  | linebuffer :: rest, st =>
    match readLine keep include_ isexception nlimit linebuffer st with
    | none => none
    | some (false, st) => some (false, st.list)
    | some (true, st) => readLines rest st

end Reader

def readPhraseListKeeping (keep : PhraseList → Int → Bool) (fs : FileSystem) (isexception : Bool)
    (nlimit : Int) : Nat → PhraseList → Str → Int → Int → Option (Bool × PhraseList)
  | 0, _, _, _, _ => none
  | depth + 1, list, filename, catindex, timeindex =>
    match fs filename with
    | none => some (false, list)
    | some text =>
      if text.length < 2 then some (true, list) -- its blank
      else readLines keep (readPhraseListKeeping keep fs isexception nlimit depth) isexception
        nlimit (text.splitOn (ch '\n')) ⟨list, catindex, timeindex, true⟩

def readPhraseList (fs : FileSystem) (isexception : Bool) (nlimit : Int) (depth : Nat)
    (list : PhraseList) (filename : Str) (catindex timeindex : Int) : Option (Bool × PhraseList) :=
  readPhraseListKeeping (fun _ _ => true) fs isexception nlimit depth list filename catindex
    timeindex

structure PhraseFiles where
  exception : Str
  banned : Str
  weighted : Str
  nlimit : Int

def readFilesKeeping (keep : PhraseList → Int → Bool) (fs : FileSystem) (depth : Nat)
    (files : PhraseFiles) : Option PhraseList :=
  match readPhraseListKeeping keep fs true 0 depth .empty files.exception (-1) (-1) with
  | some (true, l) =>
    match readPhraseListKeeping keep fs false files.nlimit depth l files.banned (-1) (-1) with
    | some (true, l) =>
      match readPhraseListKeeping keep fs false files.nlimit depth l files.weighted (-1) (-1) with
      | some (true, l) => some l
      | _ => none
    | _ => none
  | _ => none

def readFiles (fs : FileSystem) (depth : Nat) (files : PhraseFiles) : Option PhraseList :=
  readFilesKeeping (fun _ _ => true) fs depth files

/- The combination list as chains. A chain is its part numbers followed by the end marker -2
   and the type, time limit, weight and category of the combination. -/
structure Chain where
  parts : List Nat
  type : Int
  time : Int
  weight : Int
  cat : Int
  deriving DecidableEq, Repr

def Chain.encode (c : Chain) : List Int :=
  c.parts.map (fun i : Nat => (i : Int)) ++ [-2, c.type, c.time, c.weight, c.cat]

def chainsFrom (parts : List Nat) : List Int → List Chain
  | [] => []
  | index :: rest =>
    if index = -2 then
      match rest with
      | type :: time :: weight :: cat :: rest =>
        ⟨parts, type, time, weight, cat⟩ :: chainsFrom [] rest
      | _ => []
    else chainsFrom (parts ++ [index.toNat]) rest

def chains (l : PhraseList) : List Chain := chainsFrom [] l.combilist

theorem chainsFrom_parts (ps : List Nat) (rest : List Int) (parts : List Nat) :
    chainsFrom parts (ps.map (fun i : Nat => (i : Int)) ++ rest) = chainsFrom (parts ++ ps) rest := by
  induction ps generalizing parts with
  | nil => simp
  | cons p ps ih =>
    have notEnd : ¬ (p : Int) = -2 := by omega
    rw [List.map_cons, List.cons_append, chainsFrom.eq_def]
    simp [notEnd, ih]

theorem chainsFrom_encode (cs : List Chain) : chainsFrom [] (cs.flatMap Chain.encode) = cs := by
  induction cs with
  | nil => rfl
  | cons c cs ih =>
    rw [List.flatMap_cons, Chain.encode, List.append_assoc, chainsFrom_parts]
    simp [chainsFrom, ih]

/-- The texts a line stores, in order: those that are not empty. -/
def lineTexts (line : Str) (nlimit : Int) : List Str :=
  let line := linePhrases line nlimit
  let phrases := if isCombination line then combiParts line
    else [before (after line (str "<")) (str ">")]
  (phrases.map storedPhrase).filter (· ≠ [])

def addLine (l : PhraseList) (combination : Bool) (texts : List Str) (type weighting : Int)
    (catindex timeindex : Int) : PhraseList :=
  let itemtype := if combination then type + 11 else type
  { l with
    items := l.items ++ texts.map fun s => ⟨s, itemtype, weighting, catindex, timeindex⟩
    combilist := if combination then
        l.combilist ++ Chain.encode ⟨List.range' l.items.length texts.length, type, timeindex,
          weighting, catindex⟩
      else l.combilist }

theorem helper2_part (l : PhraseList) (phrase : Str) {type : Int} (weighting catindex timeindex : Int)
    (part : ¬ type > 19) :
    readPhraseListHelper2 l phrase type weighting catindex timeindex =
      if storedPhrase phrase = [] then l
      else addToItemListPhrase l (storedPhrase phrase) type weighting (decide (¬ type < 10)) catindex
        timeindex := by
  have short : (storedPhrase phrase).length < 1 ↔ storedPhrase phrase = [] := by
    rw [Nat.lt_one_iff, List.length_eq_zero_iff]
  unfold readPhraseListHelper2
  rw [if_neg part]
  simp only [short]
  split
  · rfl
  · split <;> simp_all

theorem foldl_helper2 (phrases : List Str) (l : PhraseList) {type : Int}
    (weighting catindex timeindex : Int) (part : ¬ type > 19) (combi : ¬ type < 10) :
    phrases.foldl (fun l part => readPhraseListHelper2 l part type weighting catindex timeindex) l =
      let texts := (phrases.map storedPhrase).filter (· ≠ [])
      { l with
        items := l.items ++ texts.map fun s => ⟨s, type, weighting, catindex, timeindex⟩
        combilist := l.combilist ++
          (List.range' l.items.length texts.length).map fun i : Nat => (i : Int) } := by
  induction phrases generalizing l with
  | nil => simp
  | cons phrase phrases ih =>
    rw [List.foldl_cons, helper2_part l phrase weighting catindex timeindex part, ih]
    by_cases empty : storedPhrase phrase = []
    · simp [empty]
    · simp [empty, combi, addToItemListPhrase, List.range'_succ]

theorem lineType_cases (weighting : Int) (isexception : Bool) :
    lineType weighting isexception = -1 ∨ lineType weighting isexception = 0 ∨
      lineType weighting isexception = 1 := by
  unfold lineType
  split
  · simp
  · split <;> simp

theorem readPhraseListHelper_eq (l : PhraseList) (line : Str) (isexception : Bool)
    (catindex timeindex nlimit : Int) :
    readPhraseListHelper l line isexception catindex timeindex nlimit =
      addLine l (isCombination (linePhrases line nlimit)) (lineTexts line nlimit)
        (lineType (lineWeighting line nlimit) isexception) (lineWeighting line nlimit) catindex
        timeindex := by
  have types := lineType_cases (lineWeighting line nlimit) isexception
  unfold readPhraseListHelper lineTexts addLine
  by_cases combination : isCombination (linePhrases line nlimit)
  · simp only [combination, ↓reduceIte]
    rw [foldl_helper2 _ _ _ _ _ (by omega) (by omega), readPhraseListHelper2, if_pos (by omega)]
    simp only [Chain.encode, List.append_assoc, show ∀ t : Int, t + 21 - 21 = t from by omega]
  · simp only [combination, Bool.false_eq_true, ↓reduceIte]
    rw [helper2_part _ _ _ _ _ (by omega)]
    by_cases empty : storedPhrase (before (after (linePhrases line nlimit) (str "<")) (str ">")) = []
    · simp [empty]
    · simp only [empty, ↓reduceIte, addToItemListPhrase, List.map_cons, List.map_nil]
      rw [if_neg (by simp only [decide_eq_true_eq]; omega)]
      simp [empty]

/- Lines with the same text are merged when the phrase graph is built. The entry that was
   there first takes over the values of the new one, never its text. -/
def overrides (found new : PhraseItem) : Bool :=
  (decide (found.type > 9) && decide (new.type < 10)) ||
  (decide (found.type = 1) && decide (new.type = 1) && decide (new.weight > found.weight)) ||
  (decide (found.type = 1) && decide (new.type = 0)) || decide (new.type = -1)

def PhraseItem.takeOver (found new : PhraseItem) : PhraseItem :=
  if overrides found new then { new with text := found.text } else found

def resolveCollision (l : PhraseList) (foundindex i : Nat) : PhraseList :=
  match l.items[foundindex]?, l.items[i]? with
  | some found, some new => { l with items := l.items.set foundindex (found.takeOver new) }
  | _, _ => l

inductive Step where
  | phrases (line : Str) (isexception : Bool) (catindex timeindex nlimit : Int)
  | category (lcat : Str)
  | time (tl : TimeLimit)
  | merge (foundindex i : Nat)
  deriving DecidableEq, Repr

def Step.apply (l : PhraseList) : Step → PhraseList
  | .phrases line isexception catindex timeindex nlimit =>
    readPhraseListHelper l line isexception catindex timeindex nlimit
  | .category lcat => (getCategoryIndex l lcat).2
  | .time tl => { l with timelimits := l.timelimits ++ [tl], istimelimited := true }
  | .merge foundindex i => resolveCollision l foundindex i

def load (steps : List Step) : PhraseList := steps.foldl Step.apply .empty

def Loaded (l : PhraseList) : Prop := ∃ steps, load steps = l

theorem load_append (steps : List Step) (step : Step) :
    load (steps ++ [step]) = step.apply (load steps) := by
  simp [load]

theorem Loaded.step {l : PhraseList} (step : Step) (loaded : Loaded l) :
    Loaded (step.apply l) := by
  obtain ⟨steps, rfl⟩ := loaded
  exact ⟨steps ++ [step], load_append steps step⟩

inductive Request where
  | nothing
  | stop
  | phrases (line : Str)
  | include_ (name : Str)
  | category (lcat : Str)
  | noconvert
  | time (tl : TimeLimit)
  deriving DecidableEq, Repr

def lineRequest (linebuffer : Str) (caseinsensitive : Bool) : Request :=
  if linebuffer.length = 0 then .nothing
  else
    let line := removeWhiteSpace (cstr linebuffer)
    let line := if caseinsensitive then toLower line else line
    if startsWith line (str "<") then .phrases line
    else if startsWith line (str ".") then
      let temp := before (after line (str ".include<")) (str ">")
      if temp.length > 0 then .include_ temp else .nothing
    else if startsWith line (str "#listcategory:") then
      .category (before (after (cstr linebuffer) (str "\"")) (str "\""))
    else if startsWith line (str "#noconvert") then .noconvert
    else if startsWith line (str "#time: ") then
      match readTimeTag line with
      | none => .stop
      | some tl => .time tl
    else .nothing

section Loading
variable {keep : PhraseList → Int → Bool} {isexception : Bool} {nlimit : Int}

def serve (keep : PhraseList → Int → Bool)
    (include_ : PhraseList → Str → Int → Int → Option (Bool × PhraseList)) (isexception : Bool)
    (nlimit : Int) (st : ReadState) : Request → Option (Bool × ReadState)
  | .nothing => some (true, st)
  | .stop => some (false, st)
  | .phrases line =>
    if keep st.list st.timeindex then
      some (true, { st with
        list := readPhraseListHelper st.list line isexception st.catindex st.timeindex nlimit })
    else some (true, st)
  | .include_ name =>
    match include_ st.list name st.catindex st.timeindex with
    | some (_, list) => some (true, { st with list := list })
    | none => none
  | .category lcat =>
    some (true, { st with
      list := (getCategoryIndex st.list lcat).2
      catindex := (getCategoryIndex st.list lcat).1 })
  | .noconvert => some (true, { st with caseinsensitive := false })
  | .time tl =>
    some (true, { st with
      list := { st.list with
        timelimits := st.list.timelimits ++ [tl]
        istimelimited := true }
      timeindex := st.list.timelimits.length })

/-- The reading of a line depends on it only through its request. -/
theorem readLine_eq {include_ : PhraseList → Str → Int → Int → Option (Bool × PhraseList)}
    (linebuffer : Str) (st : ReadState) :
    readLine keep include_ isexception nlimit linebuffer st =
      serve keep include_ isexception nlimit st (lineRequest linebuffer st.caseinsensitive) := by
  simp only [readLine, lineRequest]
  generalize (if st.caseinsensitive then toLower _ else _) = line
  cases readTimeTag line with
  | none => split_ifs <;> simp only [serve, ↓reduceIte, Bool.false_eq_true, *]
  | some tl => split_ifs <;> simp only [serve, ↓reduceIte, Bool.false_eq_true, *]

theorem readLine_loaded {include_ : PhraseList → Str → Int → Int → Option (Bool × PhraseList)}
    (included : ∀ l name cat time ok l', include_ l name cat time = some (ok, l') → Loaded l →
      Loaded l')
    {linebuffer : Str} {st st' : ReadState} {ok : Bool} (loaded : Loaded st.list)
    (read : readLine keep include_ isexception nlimit linebuffer st = some (ok, st')) :
    Loaded st'.list := by
  rw [readLine_eq] at read
  cases request : lineRequest linebuffer st.caseinsensitive with
  | nothing | stop | noconvert =>
    rw [request] at read
    obtain ⟨-, rfl⟩ := Prod.ext_iff.mp (Option.some.inj read)
    exact loaded
  | phrases line =>
    simp only [request, serve] at read
    split at read
    · obtain ⟨-, rfl⟩ := Prod.ext_iff.mp (Option.some.inj read)
      exact loaded.step (.phrases _ _ _ _ _)
    · obtain ⟨-, rfl⟩ := Prod.ext_iff.mp (Option.some.inj read)
      exact loaded
  | include_ name =>
    simp only [request, serve] at read
    split at read
    · rename_i list answer
      obtain ⟨-, rfl⟩ := Prod.ext_iff.mp (Option.some.inj read)
      exact included _ _ _ _ _ _ answer loaded
    · cases read
  | category lcat =>
    rw [request] at read
    obtain ⟨-, rfl⟩ := Prod.ext_iff.mp (Option.some.inj read)
    exact loaded.step (.category lcat)
  | time tl =>
    rw [request] at read
    obtain ⟨-, rfl⟩ := Prod.ext_iff.mp (Option.some.inj read)
    exact loaded.step (.time tl)

theorem readLines_loaded {include_ : PhraseList → Str → Int → Int → Option (Bool × PhraseList)}
    (included : ∀ l name cat time ok l', include_ l name cat time = some (ok, l') → Loaded l →
      Loaded l')
    (lines : List Str) {st : ReadState} {l' : PhraseList} {ok : Bool} (loaded : Loaded st.list)
    (read : readLines keep include_ isexception nlimit lines st = some (ok, l')) : Loaded l' := by
  induction lines generalizing st with
  | nil => simp_all [readLines]
  | cons line lines ih =>
    rw [readLines] at read
    split at read
    · cases read
    · rename_i st' step
      obtain ⟨-, rfl⟩ : false = ok ∧ st'.list = l' := by simpa using read
      exact readLine_loaded included loaded step
    · rename_i st' step
      exact ih (readLine_loaded included loaded step) read

theorem readPhraseListKeeping_loaded {fs : FileSystem} (depth : Nat) {l l' : PhraseList}
    {filename : Str} {catindex timeindex : Int} {ok : Bool}
    (read : readPhraseListKeeping keep fs isexception nlimit depth l filename catindex timeindex =
      some (ok, l')) (loaded : Loaded l) : Loaded l' := by
  induction depth generalizing l l' filename catindex timeindex ok with
  | zero => simp [readPhraseListKeeping] at read
  | succ depth ih =>
    rw [readPhraseListKeeping] at read
    split at read
    · grind
    · split at read
      · grind
      · exact readLines_loaded (fun _ _ _ _ _ _ => ih) _ loaded read

end Loading

theorem readFilesKeeping_loaded {keep : PhraseList → Int → Bool} {fs : FileSystem} {depth : Nat}
    {files : PhraseFiles} {l : PhraseList} (read : readFilesKeeping keep fs depth files = some l) :
    Loaded l := by
  unfold readFilesKeeping at read
  split at read
  · rename_i first
    split at read
    · rename_i second
      split at read
      · rename_i third
        obtain rfl := Option.some.inj read
        exact readPhraseListKeeping_loaded depth third
          (readPhraseListKeeping_loaded depth second (readPhraseListKeeping_loaded depth first ⟨[], rfl⟩))
      · cases read
    · cases read
  · cases read

def Step.chain? (l : PhraseList) : Step → Option Chain
  | .phrases line isexception catindex timeindex nlimit =>
    if isCombination (linePhrases line nlimit) then
      some ⟨List.range' l.items.length (lineTexts line nlimit).length,
        lineType (lineWeighting line nlimit) isexception, timeindex, lineWeighting line nlimit, catindex⟩
    else none
  | _ => none

theorem step_combilist (l : PhraseList) (step : Step) :
    (step.apply l).combilist = l.combilist ++ (step.chain? l).toList.flatMap Chain.encode := by
  cases step with
  | phrases line isexception catindex timeindex nlimit =>
    rw [Step.apply, readPhraseListHelper_eq, Step.chain?]
    cases isCombination (linePhrases line nlimit) <;> simp [addLine]
  | category lcat =>
    simp only [Step.apply, Step.chain?, getCategoryIndex]
    split
    · simp
    · split <;> simp
  | time tl => simp [Step.apply, Step.chain?]
  | merge foundindex i =>
    simp only [Step.apply, Step.chain?, resolveCollision]
    split <;> simp

theorem load_combilist (steps : List Step) :
    (load steps).combilist = (chains (load steps)).flatMap Chain.encode := by
  induction steps using List.reverseRecOn with
  | nil => rfl
  | append_singleton steps step ih =>
    rw [chains, load_append, step_combilist, ih, ← List.flatMap_append, chainsFrom_encode]

theorem step_chains (steps : List Step) (step : Step) :
    chains (load (steps ++ [step])) = chains (load steps) ++ (step.chain? (load steps)).toList := by
  rw [chains, load_append, step_combilist, load_combilist, ← List.flatMap_append, chainsFrom_encode]

theorem Loaded.combilist_eq {l : PhraseList} (loaded : Loaded l) :
    l.combilist = (chains l).flatMap Chain.encode := by
  obtain ⟨steps, rfl⟩ := loaded
  exact load_combilist steps

/-- What holds of the combination of every line holds of the chains of a loaded list. -/
theorem Loaded.chain_of_line {l : PhraseList} (loaded : Loaded l) {P : Chain → Prop}
    (lines : ∀ (parts : List Nat) (line : Str) (isexception : Bool) (timeindex catindex nlimit : Int),
      P ⟨parts, lineType (lineWeighting line nlimit) isexception, timeindex, lineWeighting line nlimit, catindex⟩)
    {c : Chain} (member : c ∈ chains l) : P c := by
  obtain ⟨steps, rfl⟩ := loaded
  induction steps using List.reverseRecOn with
  | nil => cases member
  | append_singleton steps step ih =>
    rw [step_chains] at member
    rcases List.mem_append.mp member with old | new
    · exact ih old
    · cases step with
      | phrases line isexception catindex timeindex nlimit =>
        simp only [Step.chain?] at new
        split at new
        · rw [List.mem_singleton.mp new]
          exact lines _ _ _ _ _ _
        · cases new
      | category lcat => cases new
      | time tl => cases new
      | merge foundindex i => cases new

theorem Loaded.chain_type {l : PhraseList} (loaded : Loaded l) {c : Chain} (member : c ∈ chains l) :
    c.type = -1 ∨ c.type = 0 ∨ c.type = 1 :=
  loaded.chain_of_line (P := fun c => c.type = -1 ∨ c.type = 0 ∨ c.type = 1) (fun _ _ _ _ _ _ => lineType_cases _ _) member

end GuardianPhraseList
