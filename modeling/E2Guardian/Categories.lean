import Mathlib.Algebra.Order.Ring.Int
import E2Guardian.Totals

/- The scores by which checkphrase orders its categories. The matches with a weight are a ledger of
   credits in the order in which the two loops meet them: under which key each is filed, if it is,
   what it starts a category with or adds to one, and what is due to the category that it belongs to. -/
namespace GuardianScoring
open GuardianString GuardianTime GuardianPhraseList OrderedMap MachineInts

-- A product that is no int may be filed or not whatever its sign.
structure Credit where
  key : Option Int
  first : Int
  later : Int
  own : Option Int
  due : Int
  deriving DecidableEq

def score (k : Int) (m : List (Int × ListEnt)) : Option Int := (find k m).map ListEnt.weight

def Credit.file (k : Int) (old : Option Int) (c : Credit) : Option Int :=
  if c.key = some k then some (match old with | some w => int32 (w + c.later) | none => c.first) else old

def Filed (k : Int) (credits : List Credit) : Prop := ∃ c ∈ credits, c.key = some k

def Owned (k : Int) (credits : List Credit) : Prop := ∃ c ∈ credits, c.own = some k

def dues (k : Int) (credits : List Credit) : Int :=
  (credits.map fun c => if c.own = some k then c.due else 0).sum

def amount (k : Int) (started : Bool) : List Credit → Int
  | [] => 0
  | c :: credits =>
    if c.key = some k then (if started then c.later else c.first) + amount k true credits else amount k started credits

def surplus (k : Int) (credits : List Credit) : Int := amount k false credits - dues k credits

theorem score_creditCategory (k cat first later : Int) (name : Str) (m : List (Int × ListEnt)) :
    score k (creditCategory cat first later name m) =
      if cat = k then some (match score k m with | some w => int32 (w + later) | none => first)
      else score k m := by
  unfold creditCategory score
  cases here : find cat m with
  | some e =>
    by_cases same : cat = k
    · subst same
      simp [find_put, here]
    · simp [find_put, same, Ne.symm same]
  | none =>
    by_cases same : cat = k
    · subst same
      simp [find_put, here]
    · simp [find_put, same, Ne.symm same]

theorem file_started (k : Int) (credits : List Credit) {w total : Int} (sofar : w = int32 total) :
    credits.foldl (Credit.file k) (some w) = some (int32 (total + amount k true credits)) := by
  induction credits generalizing w total with
  | nil => simp [amount, sofar]
  | cons c credits ih =>
    rw [List.foldl_cons, amount]
    by_cases filed : c.key = some k
    · have next : int32 (w + c.later) = int32 (total + c.later) := by rw [sofar, int32_add_left]
      simp only [Credit.file, filed, ↓reduceIte, ih next, Int.add_assoc]
    · simp only [Credit.file, filed, ↓reduceIte]
      exact ih sofar

theorem filed_cons_other {k : Int} {c : Credit} (other : ¬ c.key = some k) (credits : List Credit) :
    Filed k (c :: credits) ↔ Filed k credits := by
  simp [Filed, other]

/-- The final score of a category that something is filed in; no other has one. -/
theorem file_filed {k : Int} {credits : List Credit} (filed : Filed k credits) (fits : ∀ c ∈ credits, FitsInt c.first) :
    credits.foldl (Credit.file k) none = some (int32 (amount k false credits)) := by
  induction credits with
  | nil =>
    obtain ⟨c, member, -⟩ := filed
    cases member
  | cons c credits ih =>
    rw [List.foldl_cons, amount]
    by_cases here : c.key = some k
    · have first : c.first = int32 c.first := (int32_of_fits (fits c List.mem_cons_self)).symm
      simp only [Credit.file, here, ↓reduceIte, file_started k credits first, Bool.false_eq_true]
    · simp only [Credit.file, here, ↓reduceIte]
      exact ih ((filed_cons_other here credits).mp filed) fun d member => fits d (List.mem_cons_of_mem _ member)

theorem file_unfiled {k : Int} {credits : List Credit} (unfiled : ¬ Filed k credits) :
    credits.foldl (Credit.file k) none = none := by
  induction credits with
  | nil => rfl
  | cons c credits ih =>
    have other : ¬ c.key = some k := fun here => unfiled ⟨c, List.mem_cons_self, here⟩
    rw [List.foldl_cons, Credit.file, if_neg other]
    exact ih (mt (filed_cons_other other credits).mpr unfiled)

section Meaning
variable (s : Settings) (now : Clock) (l : PhraseList) (found : List (Str × Nat × Nat))

def chainBelongs (k : Int) (c : Chain) : Prop :=
  (active now l found c ∧ c.type = 1) ∧ 0 < c.weight ∧ c.cat = k

def singleBelongs (k : Int) (e : Str × Nat × Nat) : Prop :=
  ∃ item ∈ singleOf now l 1 e, 0 < item.weight ∧ item.category = k

/-- Some match with a positive weight belongs to the category. -/
def Belongs (k : Int) : Prop :=
  (∃ c ∈ chains l, chainBelongs now l found k c) ∨ ∃ e ∈ found, singleBelongs now l k e

open Classical in
noncomputable def categoryScore (k : Int) : Int :=
  ((chains l).map fun c => if chainBelongs now l found k c then chainWeight s now l found c else 0).sum +
    (found.map fun e => if singleBelongs now l k e then singleWeight s now l e else 0).sum

/-- Each category of which something is found has its score, and nothing else has one. -/
def ScoresExact (m : List (Int × ListEnt)) : Prop :=
  ∀ k, (0 ≤ k ∧ Belongs now l found k → score k m = some (categoryScore s now l found k)) ∧
    (¬ (0 ≤ k ∧ Belongs now l found k) → score k m = none)

def chainCredit (run : List Nat) (c : Chain) : List Credit :=
  if (active now l found c ∧ c.type = 1) ∧ 0 < c.weight then
    [⟨some c.cat, c.weight, c.weight * times s (lowest (run ++ partCounts l found c)), some c.cat,
      c.weight * times s (lowest (partCounts l found c))⟩]
  else []

def chainCredits (run : List Nat) : List Chain → List Credit
  | [] => []
  | c :: cs => chainCredit s now l found run c ++ chainCredits (runAfter l found run c) cs

def lastCategory (cat : Int) (c : Chain) : Int :=
  if active now l found c ∧ (c.type = 1 → 0 < c.weight) then c.cat else cat

def ownOrLast (item : PhraseItem) (cat : Int) : Int :=
  if item.category < 0 then cat else item.category

def singleCredit (cat : Int) (n : Nat) (item : PhraseItem) : Credit :=
  let weight := int32 (item.weight * times s n)
  ⟨if 0 < weight then some (ownOrLast item cat) else none, weight, item.weight * times s n * times s n,
    if 0 < item.weight then some item.category else none, item.weight * times s n⟩

def singleCredits (bannedcombi : Bool) (cat : Int) : List (Str × Nat × Nat) → List Credit
  | [] => []
  | e :: es =>
    match singleOf now l 0 e with
    | some item => singleCredits bannedcombi (if bannedcombi then cat else ownOrLast item cat) es
    | none =>
      match singleOf now l 1 e with
      | some item =>
        singleCredit s cat e.2.2 item :: singleCredits bannedcombi
          (if 0 < int32 (item.weight * times s e.2.2) then ownOrLast item cat else cat) es
      | none => singleCredits bannedcombi cat es

def credits (cat : Int) : List Credit :=
  chainCredits s now l found [] (chains l) ++
    singleCredits s now l ((chains l).any fun c => active now l found c && decide (c.type = 0))
      ((chains l).foldl (lastCategory now l found) cat) found

/-- Nothing is filed where nothing belongs, something wherever something does, and but for a multiple of 2^32 just what
is due, which is an int. -/
structure Booked (ledger : List Credit) : Prop where
  keys : ∀ k, Filed k ledger → 0 ≤ k ∧ Owned k ledger
  owners : ∀ k, 0 ≤ k → Owned k ledger → Filed k ledger
  sums : ∀ k, 0 ≤ k → Owned k ledger → FitsInt (dues k ledger) ∧ (2 ^ 32 : Int) ∣ surplus k ledger

end Meaning

section Ledger
variable {s : Settings} {now : Clock} {l : PhraseList} {found : List (Str × Nat × Nat)}

theorem afterChain_score (counted : ∀ e ∈ found, 0 < e.2.2) {run : List Nat} {v : Locals}
    (carried : Carried run v) (c : Chain) (k : Int) :
    score k (afterChain s now l found v c).listcategories =
        (chainCredit s now l found run c).foldl (Credit.file k) (score k v.listcategories) ∧
      (afterChain s now l found v c).cat = lastCategory now l found v.cat c := by
  obtain ⟨sofar, effect⟩ := afterChain_eq (s := s) counted carried c
  rw [effect, chainCredit, lastCategory]
  by_cases inForce : active now l found c
  · have all : satisfied l found c := by
      simp only [active, Bool.and_eq_true] at inForce
      exact inForce.1
    by_cases weighted : c.type = 1
    · by_cases positive : 0 < c.weight
      · simp [inForce, weighted, positive, combinationWeighting, score_creditCategory, Credit.file,
          runAfter, all]
      · simp [inForce, weighted, positive, combinationWeighting]
    · simp [inForce, weighted, combinationBanned]
  · simp [inForce]

theorem chains_score (counted : ∀ e ∈ found, 0 < e.2.2) (cs : List Chain) {run : List Nat}
    {v : Locals} (carried : Carried run v) (k : Int) :
    score k (cs.foldl (afterChain s now l found) v).listcategories =
        (chainCredits s now l found run cs).foldl (Credit.file k) (score k v.listcategories) ∧
      (cs.foldl (afterChain s now l found) v).cat = cs.foldl (lastCategory now l found) v.cat := by
  induction cs generalizing run v with
  | nil => exact ⟨rfl, rfl⟩
  | cons c cs ih =>
    have next := ih (v := afterChain s now l found v c) (afterChain_carried counted carried c)
    rw [(afterChain_score counted carried c k).1, (afterChain_score counted carried c k).2] at next
    rw [chainCredits, List.foldl_cons, List.foldl_cons, List.foldl_append]
    exact next

theorem getListCategoryAt_cat (item : PhraseItem) (cat : Int) :
    (getListCategoryAt l item cat).2 = ownOrLast item cat := by
  unfold getListCategoryAt ownOrLast
  split <;> rfl

theorem singleWeighted_score (text : Str) (n : Nat) (item : PhraseItem) (v : Locals) (k : Int) :
    score k (singleWeighted s l text n item v).listcategories =
        (singleCredit s v.cat n item).file k (score k v.listcategories) ∧
      (singleWeighted s l text n item v).cat =
        (if 0 < int32 (item.weight * times s n) then ownOrLast item v.cat else v.cat) ∧
      (singleWeighted s l text n item v).bannedcombi = v.bannedcombi := by
  unfold singleWeighted singleCredit
  by_cases positive : 0 < int32 (item.weight * times s n)
  · simp [positive, score_creditCategory, getListCategoryAt_cat, Credit.file]
  · simp [positive, Credit.file]

theorem singleBanned_score (text : Str) (item : PhraseItem) (v : Locals) :
    (singleBanned l text item v).listcategories = v.listcategories ∧
      (singleBanned l text item v).cat =
        (if v.bannedcombi then v.cat else ownOrLast item v.cat) ∧
      (singleBanned l text item v).bannedcombi = v.bannedcombi := by
  unfold singleBanned
  split
  · exact ⟨rfl, rfl, rfl⟩
  · exact ⟨rfl, getListCategoryAt_cat item v.cat, rfl⟩

theorem singles_score (es : List (Str × Nat × Nat)) (v : Locals) (k : Int) :
    score k (es.foldl (afterSingle s now l) v).listcategories =
      (singleCredits s now l v.bannedcombi v.cat es).foldl (Credit.file k)
        (score k v.listcategories) := by
  induction es generalizing v with
  | nil => rfl
  | cons e es ih =>
    rw [List.foldl_cons, ih, singleCredits, afterSingle]
    cases singleOf now l 0 e with
    | some item =>
      obtain ⟨same, last, combi⟩ := singleBanned_score (l := l) e.1 item v
      rw [same, last, combi]
    | none =>
      cases singleOf now l 1 e with
      | some item =>
        obtain ⟨scored, last, combi⟩ := singleWeighted_score (s := s) (l := l) e.1 e.2.2 item v k
        rw [scored, last, combi, List.foldl_cons]
      | none => rfl

theorem endLocals_score (found : FoundMap l) (loaded : Loaded l)
    (noException : ¬ exceptionFound now l found.entries) (isItNaughty : Bool) (cat k : Int) :
    score k (endLocals s now found isItNaughty cat).listcategories =
      (credits s now l found.entries cat).foldl (Credit.file k) none := by
  have carried := startLocals_carried isItNaughty cat
  rw [endLocals, singles_score, (chains_score found.counted _ carried k).1,
    (chains_score found.counted _ carried k).2, chains_banned found.counted
      (fun c => loaded.chain_type) (fun exception => noException (.inl exception)) carried,
    credits, List.foldl_append]
  rfl

theorem dues_append (k : Int) (xs ys : List Credit) : dues k (xs ++ ys) = dues k xs + dues k ys := by
  simp [dues]

open Classical in
theorem chainCredits_due (k : Int) (run : List Nat) (cs : List Chain) :
    dues k (chainCredits s now l found run cs) = (cs.map fun c =>
        if chainBelongs now l found k c then chainWeight s now l found c else 0).sum ∧
      (Owned k (chainCredits s now l found run cs) ↔ ∃ c ∈ cs, chainBelongs now l found k c) := by
  unfold Owned
  induction cs generalizing run with
  | nil => simp [chainCredits, dues]
  | cons c cs ih =>
    obtain ⟨due, belongs⟩ := ih (runAfter l found run c)
    have head : dues k (chainCredit s now l found run c) =
          (if chainBelongs now l found k c then chainWeight s now l found c else 0) ∧
        ((∃ d ∈ chainCredit s now l found run c, d.own = some k) ↔ chainBelongs now l found k c) := by
      unfold chainCredit chainBelongs chainWeight
      by_cases weighted : active now l found c ∧ c.type = 1
      · by_cases positive : 0 < c.weight
        · simp [weighted, positive, dues]
        · simp [weighted, positive, dues]
      · simp [weighted, dues]
    refine ⟨by rw [chainCredits, dues_append, head.1, due, List.map_cons, List.sum_cons], ?_⟩
    simp only [chainCredits, List.mem_append, or_and_right, exists_or, head.2, belongs,
      List.mem_cons, exists_eq_left]

open Classical in
theorem singleCredits_due (k : Int) (bannedcombi : Bool) (cat : Int) (es : List (Str × Nat × Nat)) :
    dues k (singleCredits s now l bannedcombi cat es) = (es.map fun e =>
        if singleBelongs now l k e then singleWeight s now l e else 0).sum ∧
      (Owned k (singleCredits s now l bannedcombi cat es) ↔ ∃ e ∈ es, singleBelongs now l k e) := by
  induction es generalizing cat with
  | nil => simp [singleCredits, dues, Owned]
  | cons e es ih =>
    rw [singleCredits, List.map_cons, List.sum_cons]
    cases banned : singleOf now l 0 e with
    | some item =>
      have other : ¬ singleBelongs now l k e := by
        rw [singleBelongs, singleOf_unique (by rw [banned]; rfl) (by decide : (0 : Int) ≠ 1)]
        simp
      simp only [other, ↓reduceIte, Int.zero_add, List.mem_cons, exists_eq_or_imp, false_or]
      exact ih _
    | none =>
      cases weighted : singleOf now l 1 e with
      | none =>
        have other : ¬ singleBelongs now l k e := by simp [singleBelongs, weighted]
        simp only [other, ↓reduceIte, Int.zero_add, List.mem_cons, exists_eq_or_imp, false_or]
        exact ih _
      | some item =>
        have own : (singleCredit s cat e.2.2 item).own = some k ↔ singleBelongs now l k e := by
          simp [singleCredit, singleBelongs, weighted]
        have due : (singleCredit s cat e.2.2 item).due = singleWeight s now l e := by
          simp [singleCredit, singleWeight, weighted]
        obtain ⟨dues_, owned⟩ := ih (if 0 < int32 (item.weight * times s e.2.2) then ownOrLast item cat else cat)
        dsimp only
        constructor
        · rw [← dues_, dues, List.map_cons, List.sum_cons, due]
          simp only [own, dues]
        · simp only [Owned] at owned
          simp only [Owned, List.mem_cons, exists_eq_or_imp, own, owned]

variable (s now) in
theorem credits_due (found : List (Str × Nat × Nat)) (cat k : Int) :
    dues k (credits s now l found cat) = categoryScore s now l found k ∧
      (Owned k (credits s now l found cat) ↔ Belongs now l found k) := by
  constructor
  · rw [credits, dues_append, (chainCredits_due k _ _).1, (singleCredits_due k _ _ found).1, categoryScore]
  · have chain : Owned k (chainCredits s now l found [] (chains l)) ↔ _ := (chainCredits_due k [] (chains l)).2
    have single : ∀ banned cat, Owned k (singleCredits s now l banned cat found) ↔ _ :=
      fun banned cat => (singleCredits_due k banned cat found).2
    simp only [Owned] at chain single
    simp only [Owned, credits, List.mem_append, or_and_right, exists_or, chain, single, Belongs]

theorem lineWeighting_fits (line : Str) (nlimit : Int) : FitsInt (lineWeighting line nlimit) := by
  have plain : ∀ s, FitsInt (toInteger s) := fun s => int32_fits _
  unfold lineWeighting
  dsimp only
  split
  · have product := int32_fits (toInteger (before (after line (str "><")) (str "%>")) * nlimit)
    unfold int32 FitsInt at product
    unfold FitsInt
    generalize (toInteger (before (after line (str "><")) (str "%>")) * nlimit).bmod (2 ^ 32) = n at product
    have smaller : (n.tdiv 100).natAbs = n.natAbs / 100 := Int.natAbs_tdiv n 100
    omega
  · exact plain _

theorem chain_weight_fits {l : PhraseList} (loaded : Loaded l) {c : Chain} (member : c ∈ chains l) : FitsInt c.weight :=
  loaded.chain_of_line (P := fun c => FitsInt c.weight) (fun _ line _ _ _ nlimit => lineWeighting_fits line nlimit) member

theorem credits_fit (loaded : Loaded l) (cat : Int) : ∀ c ∈ credits s now l found cat, FitsInt c.first := by
  have chain : ∀ run cs, (∀ c ∈ cs, FitsInt c.weight) → ∀ c ∈ chainCredits s now l found run cs, FitsInt c.first := by
    intro run cs fits
    induction cs generalizing run with
    | nil => simp [chainCredits]
    | cons c cs ih =>
      intro d member
      rw [chainCredits, List.mem_append] at member
      rcases member with here | later
      · rw [chainCredit] at here
        split at here
        · rw [List.mem_singleton.mp here]
          exact fits c List.mem_cons_self
        · cases here
      · exact ih (runAfter l found run c) (fun c member => fits c (List.mem_cons_of_mem _ member)) d later
  have single : ∀ banned cat es, ∀ c ∈ singleCredits s now l banned cat es, FitsInt c.first := by
    intro banned cat es
    induction es generalizing cat with
    | nil => simp [singleCredits]
    | cons e es ih =>
      intro d member
      rw [singleCredits] at member
      cases one : singleOf now l 0 e with
      | some item =>
        rw [one] at member
        exact ih _ d member
      | none =>
        rw [one] at member
        cases other : singleOf now l 1 e with
        | none =>
          rw [other] at member
          exact ih _ d member
        | some item =>
          rw [other, List.mem_cons] at member
          rcases member with rfl | later
          · exact int32_fits _
          · exact ih _ d later
  intro c member
  rcases List.mem_append.mp member with inChains | inFound
  · exact chain [] _ (fun c member => chain_weight_fits loaded member) c inChains
  · exact single _ _ _ c inFound

/-- The scores are exact if and only if the ledger books every match where it belongs, with what it is due. -/
theorem category_scores_exact_iff_no_surplus (found : FoundMap l) (loaded : Loaded l)
    (isItNaughty : Bool) (cat : Int) (v : Locals)
    (finished : scanPhrases s now l found.entries isItNaughty cat = some (.finished v)) :
    ScoresExact s now l found.entries v.listcategories ↔ Booked (credits s now l found.entries cat) := by
  have outcome := scanPhrases_eq s now found loaded isItNaughty cat
  split at outcome
  · obtain ⟨phrase, categories, combination, stopped⟩ := outcome
    rw [stopped] at finished
    cases finished
  · rename_i noException
    obtain rfl : endLocals s now found isItNaughty cat = v := by
      simpa using outcome.symm.trans finished
    have scored := endLocals_score (s := s) found loaded noException isItNaughty cat
    have due := credits_due s now (l := l) found.entries cat
    have fits : ∀ c ∈ credits s now l found.entries cat, FitsInt c.first := credits_fit loaded cat
    generalize credits s now l found.entries cat = ledger at scored due fits ⊢
    have right : ∀ k, int32 (amount k false ledger) = dues k ledger ↔
        FitsInt (dues k ledger) ∧ (2 ^ 32 : Int) ∣ surplus k ledger := by
      intro k
      have parts : amount k false ledger = dues k ledger - -surplus k ledger := by
        rw [surplus]
        ring
      rw [parts, int32_sub_eq_iff, Int.dvd_neg]
    unfold ScoresExact
    simp only [scored, ← (due _).1, ← (due _).2]
    constructor
    · intro exact_
      have keys : ∀ k, Filed k ledger → 0 ≤ k ∧ Owned k ledger := by
        intro k filed
        by_contra outside
        have none_ := (exact_ k).2 outside
        rw [file_filed filed fits] at none_
        cases none_
      have owners : ∀ k, 0 ≤ k → Owned k ledger → Filed k ledger := by
        intro k category owned
        by_contra unfiled
        have some_ := (exact_ k).1 ⟨category, owned⟩
        rw [file_unfiled unfiled] at some_
        cases some_
      refine ⟨keys, owners, fun k category owned => (right k).mp ?_⟩
      have some_ := (exact_ k).1 ⟨category, owned⟩
      rw [file_filed (owners k category owned) fits] at some_
      exact Option.some.inj some_
    · rintro ⟨keys, owners, sums⟩ k
      constructor
      · rintro ⟨category, owned⟩
        rw [file_filed (owners k category owned) fits, (right k).mpr (sums k category owned)]
      · intro outside
        exact file_unfiled (mt (keys k) outside)

end Ledger

-- A combination of a category, and pages that have both of its parts once and three times.
def categorisedPair : PhraseList :=
  load [.category (str "Gambling"), .phrases (str "<aa>,<bb><10>") false 0 (-1) 100]

theorem categorisedPair_loaded : Loaded categorisedPair := ⟨_, rfl⟩

def pairOnce : FoundMap categorisedPair where
  entries := [(str "aa", 0, 1), (str "bb", 1, 1)]
  distinct := by decide
  indexed := by decide
  counted := by decide

def pairThrice : FoundMap categorisedPair where
  entries := [(str "aa", 0, 3), (str "bb", 1, 3)]
  distinct := by decide
  indexed := by decide
  counted := by decide

theorem single_occurrence_scores_exact :
    ScoresExact everyOccurrence noon categorisedPair pairOnce.entries
      (endLocals everyOccurrence noon pairOnce false 0).listcategories := by
  have finished := scanPhrases_eq everyOccurrence noon pairOnce categorisedPair_loaded false 0
  rw [if_neg (by decide)] at finished
  refine (category_scores_exact_iff_no_surplus pairOnce categorisedPair_loaded false 0 _ finished).mpr ?_
  have ledger : credits everyOccurrence noon categorisedPair pairOnce.entries 0 =
      [⟨some 0, 10, 10, some 0, 10⟩] := by decide
  rw [ledger]
  refine ⟨?_, ?_, ?_⟩
  · rintro k ⟨c, member, key⟩
    rw [List.mem_singleton.mp member] at key
    obtain rfl := Option.some.inj key
    exact ⟨by decide, _, List.mem_singleton_self _, rfl⟩
  · rintro k - ⟨c, member, own⟩
    rw [List.mem_singleton.mp member] at own
    obtain rfl := Option.some.inj own
    exact ⟨_, List.mem_singleton_self _, rfl⟩
  · rintro k - ⟨c, member, own⟩
    rw [List.mem_singleton.mp member] at own
    obtain rfl := Option.some.inj own
    decide

theorem frequent_combination_scored_once :
    ¬ ∀ (s : Settings) (now : Clock) (l : PhraseList) (found : FoundMap l), Loaded l →
      ∀ (isItNaughty : Bool) (cat : Int) (v : Locals),
        scanPhrases s now l found.entries isItNaughty cat = some (.finished v) →
        ScoresExact s now l found.entries v.listcategories := by
  intro always
  have finished := scanPhrases_eq everyOccurrence noon pairThrice categorisedPair_loaded false 0
  rw [if_neg (by decide)] at finished
  have exact_ := always everyOccurrence noon categorisedPair pairThrice categorisedPair_loaded _ _ _
    finished
  have due := credits_due everyOccurrence noon (l := categorisedPair) pairThrice.entries 0 0
  have scored := (exact_ 0).1 ⟨by decide, due.2.mp ⟨⟨some 0, 10, 30, some 0, 30⟩, by decide, rfl⟩⟩
  rw [endLocals_score pairThrice categorisedPair_loaded (by decide), ← due.1] at scored
  revert scored
  decide

end GuardianScoring
