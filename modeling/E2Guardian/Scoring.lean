import Mathlib.Algebra.BigOperators.Group.List.Basic
import Mathlib.Data.List.Sort
import E2Guardian.MachineInts
import E2Guardian.OrderedMap
import E2Guardian.PhraseList

/- The scorer of NaughtyFilter::checkphrase from the map of found phrases on: the walk over
   the flat combination list, the single phrases, the verdict and the category report.
   Reading past the end of the combination list or of the items gives none. Embedded URLs
   are compiled out of the source and are not modelled. -/
namespace GuardianScoring
open GuardianString GuardianTime GuardianPhraseList OrderedMap MachineInts

-- the counts are ints in the code, so those that stand for a map are below 2^31
structure FoundMap (l : PhraseList) where
  entries : List (Str × Nat × Nat)
  distinct : (entries.map Prod.fst).Nodup
  indexed : ∀ e ∈ entries, (l.items[e.2.1]?).map PhraseItem.text = some e.1
  counted : ∀ e ∈ entries, 0 < e.2.2

structure Settings where
  weighted_phrase_mode : Nat
  category_threshold : Int
  show_weighted_found : Bool
  show_all_weighted_found : Bool
  getTranslation : Nat → Str

structure ListEnt where
  weight : Int
  string : Str
  deriving DecidableEq, Repr

-- cat is unsigned in the source, so that its test cat >= 0 always holds; kept here is the
-- signed value that the map of categories has as its key.
structure Locals where
  weighting : Int
  cat : Int
  allcmatched : Bool
  bannedcombi : Bool
  lowest_occurrences : Nat
  combisofar : Str
  combifound : Str
  weightedphrase : Str
  bannedphrase : Str
  bannedcategory : Str
  listcategories : List (Int × ListEnt)
  isItNaughty : Bool
  deriving DecidableEq, Repr

inductive Scan where
  | exception (phrase categories : Str) (combination : Bool)
  | finished (v : Locals)
  deriving DecidableEq, Repr

def getListCategoryAtD (l : PhraseList) (index : Int) : Str :=
  if index < 0 then [] else (l.listcategory[index.toNat]?).getD []

def getListCategoryAt (l : PhraseList) (item : PhraseItem) (cat : Int) : Str × Int :=
  if item.category < 0 then ([], cat)
  else ((l.listcategory[item.category.toNat]?).getD [], item.category)

def times (s : Settings) (occurrences : Nat) : Int :=
  if s.weighted_phrase_mode = 2 then 1 else occurrences

def creditCategory (cat first later : Int) (name : Str) (m : List (Int × ListEnt)) :
    List (Int × ListEnt) :=
  match find cat m with
  | some e => put cat { e with weight := int32 (e.weight + later) } m
  | none => put cat ⟨first, name⟩ m

def checkTimeAt (now : Clock) (l : PhraseList) (item : PhraseItem) : Bool :=
  checkTimeAtD now l item.time

section Scan
variable (s : Settings) (now : Clock) (l : PhraseList) (found : List (Str × Nat × Nat))

def matchPart (v : Locals) (index : Int) : Locals :=
  if v.allcmatched then
    let s1 := getItemAtInt l index.toNat
    match find s1 found with
    | none => { v with allcmatched := false, combisofar := [] }
    | some (_, occurrences) =>
      { v with
        combisofar :=
          (if v.combisofar.length > 0 then v.combisofar ++ str ", " else v.combisofar) ++ s1
        lowest_occurrences :=
          if v.lowest_occurrences = 0 ∨ v.lowest_occurrences > occurrences then occurrences
          else v.lowest_occurrences }
  else v

def combinationWeighting (weight cat : Int) (v : Locals) : Locals :=
  let credited := int32 (weight * times s v.lowest_occurrences)
  { v with
    weighting := int32 (v.weighting + credited)
    cat := if weight > 0 then cat else v.cat
    listcategories := if weight > 0 then
        creditCategory cat weight credited (getListCategoryAtD l cat) v.listcategories
      else v.listcategories
    weightedphrase := (if v.weightedphrase.length > 0 then v.weightedphrase ++ str "+"
      else v.weightedphrase) ++ str "(" ++ (if weight < 0 then str "-" else []) ++ v.combisofar ++
      str ")"
    combisofar := [] }

def combinationBanned (cat : Int) (v : Locals) : Locals :=
  { v with
    bannedcombi := true
    combifound := v.combifound ++ str "(" ++ v.combisofar ++ str ")"
    combisofar := []
    cat := cat
    bannedcategory := getListCategoryAtD l cat }

def combiLoop : List Int → Locals → Option Scan
  | [], v => some (.finished v)
  | index :: rest, v =>
    if index = -2 then
      if v.allcmatched then
        match rest with
        | type :: time :: rest =>
          if !checkTimeAtD now l time then
            match rest with
            | _ :: _ :: rest => combiLoop rest { v with combisofar := [] }
            | _ => none
          else if type = -1 then
            match rest with
            | _ :: cat :: _ => some (.exception v.combisofar (getListCategoryAtD l cat) true)
            | _ => none
          else if type = 1 then
            match rest with
            | weight :: cat :: rest => combiLoop rest (combinationWeighting s l weight cat v)
            | _ => none
          else if type = 0 then
            match rest with
            | _ :: cat :: rest => combiLoop rest (combinationBanned l cat v)
            | _ => none
          else combiLoop rest v
        | _ => none
      else
        match rest with
        | _ :: _ :: _ :: _ :: rest =>
          combiLoop rest { v with allcmatched := true, lowest_occurrences := 0 }
        | _ => none
    else combiLoop rest (matchPart l found v index)

def singleBanned (text : Str) (item : PhraseItem) (v : Locals) : Locals :=
  if v.bannedcombi then v
  else
    let (category, cat) := getListCategoryAt l item v.cat
    { v with isItNaughty := true, bannedphrase := text, bannedcategory := category, cat := cat }

def singleWeighted (text : Str) (occurrences : Nat) (item : PhraseItem) (v : Locals) : Locals :=
  let weight := int32 (item.weight * times s occurrences)
  let (currcat, cat) := getListCategoryAt l item v.cat
  { v with
    weighting := int32 (v.weighting + weight)
    cat := if weight > 0 then cat else v.cat
    listcategories := if weight > 0 then
        creditCategory cat weight (int32 (weight * times s occurrences)) currcat v.listcategories
      else v.listcategories
    weightedphrase := if s.show_weighted_found then
        (if v.weightedphrase.length > 0 then v.weightedphrase ++ str "+" else v.weightedphrase) ++
          (if weight < 0 then str "-" else []) ++ text
      else v.weightedphrase }

/-- The loop over the found phrases that are not combinations. -/
def foundLoop : List (Str × Nat × Nat) → Locals → Option Scan
  | [], v => some (.finished v)
  | (text, index, occurrences) :: rest, v =>
    match l.items[index]? with
    | none => none
    | some item =>
      if !checkTimeAt now l item then foundLoop rest v
      else if item.type = 0 then foundLoop rest (singleBanned l text item v)
      else if item.type = 1 then foundLoop rest (singleWeighted s l text occurrences item v)
      else if item.type = -1 then some (.exception text (getListCategoryAt l item v.cat).1 false)
      else foundLoop rest v

/-- From the object's isItNaughty and whatever cat holds before it is set. -/
def startLocals (isItNaughty : Bool) (cat : Int) : Locals :=
  ⟨0, cat, true, false, 0, [], [], [], [], [], [], isItNaughty⟩

def scanPhrases (isItNaughty : Bool) (cat : Int) : Option Scan :=
  match combiLoop s now l found l.combilist (startLocals isItNaughty cat) with
  | some (.finished v) => foundLoop s now l found v
  | other => other

end Scan

structure Verdict where
  isItNaughty : Bool
  isException : Bool
  naughtiness : Int
  usedisplaycats : Bool
  message_no : Nat
  log_message_no : Nat
  whatIsNaughty : Str
  whatIsNaughtyLog : Str
  whatIsNaughtyCategories : Str
  whatIsNaughtyDisplayCategories : Str
  deriving DecidableEq, Repr

structure CategoryReport where
  categories : Str
  nonempty : Bool
  display : Option Str -- set when a category is below the threshold

def reportCategory (threshold : Int) (r : CategoryReport) (k : ListEnt) : CategoryReport :=
  let r := if r.display = none ∧ threshold > 0 ∧ k.weight < threshold then
      { r with display := some r.categories } else r
  let r := if k.string.length > 0 then
      { r with
        categories := (if r.nonempty then r.categories ++ str ", " else r.categories) ++ k.string
        nonempty := true }
    else r
  if r.display = none ∧ threshold < 0 then { r with display := some r.categories } else r

-- std::sort leaves the order of equal scores open; here they keep the order of the map.
def reportCategories (threshold : Int) (listcategories : List (Int × ListEnt)) : CategoryReport :=
  ((listcategories.map Prod.snd).insertionSort fun a b => b.weight ≤ a.weight).foldl
    (reportCategory threshold) ⟨[], false, none⟩

def storeNaughtiness (naughtiness weighting : Int) : Int :=
  if (weighting < 0 ∧ naughtiness ≤ 0 ∧ weighting < naughtiness) ∨
      (naughtiness ≥ 0 ∧ weighting > naughtiness) ∨ (naughtiness < 0 ∧ weighting > 0) then weighting
  else naughtiness

def decimal (n : Int) : Str := (toString n).toList.map fun c => UInt8.ofNat c.toNat

section Verdict
variable (s : Settings) (limit : Int) (searchterms : Bool) (filter : Verdict)

def exceptionVerdict (phrase categories : Str) (combination : Bool) : Verdict :=
  let message_no := if combination then (if searchterms then 456 else 605)
    else if searchterms then 457 else 604
  { filter with
    isItNaughty := false
    isException := true
    message_no := message_no
    whatIsNaughtyLog := s.getTranslation message_no ++ phrase
    whatIsNaughty := []
    whatIsNaughtyCategories := categories }

def weightVerdict (v : Locals) : Verdict :=
  let mno := if searchterms then 454 else 402
  let filter := if v.weighting > limit then
      { filter with
        isItNaughty := true
        message_no := mno
        whatIsNaughty := s.getTranslation (if searchterms then 455 else 403) }
    else filter
  if v.weighting > limit ∨ s.show_all_weighted_found then
    let r := reportCategories s.category_threshold v.listcategories
    { filter with
      whatIsNaughtyLog := s.getTranslation mno ++ decimal limit ++ str " : " ++
        decimal v.weighting ++
        (if s.show_weighted_found then str " (" ++ v.weightedphrase ++ str ")" else [])
      whatIsNaughtyCategories := r.categories
      whatIsNaughtyDisplayCategories := r.display.getD filter.whatIsNaughtyDisplayCategories
      usedisplaycats := filter.usedisplaycats || r.display.isSome }
  else filter

def finalVerdict (v : Locals) : Verdict :=
  let filter := { filter with
    isItNaughty := v.isItNaughty
    naughtiness := storeNaughtiness filter.naughtiness v.weighting }
  if v.bannedcombi then
    let message_no := if searchterms then 453 else 401
    let log_message_no := if searchterms then 452 else 400
    { filter with
      isItNaughty := true
      message_no := message_no
      log_message_no := log_message_no
      whatIsNaughtyLog := s.getTranslation log_message_no ++ v.combifound
      whatIsNaughty := s.getTranslation message_no
      whatIsNaughtyCategories := v.bannedcategory }
  else if v.isItNaughty then
    let message_no := if searchterms then 450 else 300
    { filter with
      message_no := message_no
      whatIsNaughtyLog := s.getTranslation message_no ++ v.bannedphrase
      whatIsNaughty := s.getTranslation (if searchterms then 451 else 301)
      whatIsNaughtyCategories := v.bannedcategory }
  else weightVerdict s limit searchterms filter v

/-- The part of checkphrase after the search; cat is the unset variable of the source. -/
def scorePhrases (now : Clock) (l : PhraseList) (found : List (Str × Nat × Nat)) (cat : Int) :
    Option Verdict :=
  (scanPhrases s now l found filter.isItNaughty cat).map fun
    | .exception phrase categories combination =>
      exceptionVerdict s searchterms filter phrase categories combination
    | .finished v => finalVerdict s limit searchterms filter v

end Verdict

/- What the scorer is for, in terms of chains and found phrases and without an order. -/
section Meaning
variable (s : Settings) (now : Clock) (l : PhraseList) (found : List (Str × Nat × Nat))

def occurrencesOf (part : Nat) : Nat := ((find (getItemAtInt l part) found).map Prod.snd).getD 0

def satisfied (c : Chain) : Bool := c.parts.all fun part => (find (getItemAtInt l part) found).isSome

def active (c : Chain) : Bool := satisfied l found c && checkTimeAtD now l c.time

def partCounts (c : Chain) : List Nat := c.parts.map (occurrencesOf l found)

def lowest (counts : List Nat) : Nat := counts.min?.getD 0

def chainWeight (c : Chain) : Int :=
  if active now l found c ∧ c.type = 1 then c.weight * times s (lowest (partCounts l found c)) else 0

def singleOf (type : Int) (e : Str × Nat × Nat) : Option PhraseItem :=
  l.items[e.2.1]?.filter fun item => checkTimeAt now l item && decide (item.type = type)

def singleWeight (e : Str × Nat × Nat) : Int :=
  ((singleOf now l 1 e).map fun item => item.weight * times s e.2.2).getD 0

def totalWeight : Int :=
  (found.map (singleWeight s now l)).sum + ((chains l).map (chainWeight s now l found)).sum

/-- What the weighted combinations are short of because a smaller count of the satisfied
chains right before them is used in place of their own. -/
def undercut (run : List Nat) : List Chain → Int
  | [] => 0
  | c :: cs =>
    (if active now l found c ∧ c.type = 1 then
      c.weight * (lowest (partCounts l found c) - lowest (run ++ partCounts l found c) : Int)
    else 0) + undercut (if satisfied l found c then run ++ partCounts l found c else []) cs

def shortfall : Int := if s.weighted_phrase_mode = 2 then 0 else undercut now l found [] (chains l)

def weighed : Int := int32 (totalWeight s now l found - shortfall s now l found)

def exceptionFound : Prop :=
  (∃ c ∈ chains l, active now l found c ∧ c.type = -1) ∨
    ∃ e ∈ found, (singleOf now l (-1) e).isSome

def bannedFound : Prop :=
  (∃ c ∈ chains l, active now l found c ∧ c.type = 0) ∨ ∃ e ∈ found, (singleOf now l 0 e).isSome

end Meaning

end GuardianScoring
