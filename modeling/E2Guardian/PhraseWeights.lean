import E2Guardian.PhraseList

/- The weight of a phrase line. A line is weighted if the weight that is left after a percentage has
   been taken of the limit is not 0. -/
namespace GuardianPhraseWeights
open GuardianString GuardianPhraseList

def weightText (line : Str) : Str := before (after line (str "><")) (str ">")

def explicitWeight (line : Str) : Int := toInteger (weightText line)

def isPercentage (line : Str) : Bool := endsWith (weightText line) (str "%")

/-- Where the reader looks for the end of a percentage: in all that follows the last phrase. -/
def percentAhead (line : Str) : Bool := contains (after line (str "><")) (str "%>")

/- A number ends at the first byte that is no digit. -/
theorem decimal_stop (s : Str) {c : UInt8} (stop : isDigit c = false) (t : Str) : decimal (s ++ c :: t) = decimal s := by
  have cut : (s ++ c :: t).takeWhile isDigit = s.takeWhile isDigit := by
    induction s with
    | nil => exact List.takeWhile_cons_of_neg (by simp [stop])
    | cons b s ih => simp only [List.cons_append, List.takeWhile_cons, ih]
  rw [decimal, decimal, cut]

theorem toInteger_stop (s : Str) {c : UInt8} (noDigit : isDigit c = false) (noSpace : isSpace c = false)
    (unsigned : c ≠ ch '-' ∧ c ≠ ch '+') (t : Str) : toInteger (s ++ c :: t) = toInteger s := by
  have same : signedDecimal ((s ++ c :: t).dropWhile isSpace) = signedDecimal (s.dropWhile isSpace) := by
    induction s with
    | nil =>
      rw [List.nil_append, List.dropWhile_cons_of_neg (by simp [noSpace]), signedDecimal, if_neg unsigned.1,
        if_neg unsigned.2]
      exact congrArg Nat.cast (decimal_stop [] noDigit t)
    | cons b s ih =>
      by_cases space : isSpace b = true
      · rw [List.cons_append, List.dropWhile_cons_of_pos space, List.dropWhile_cons_of_pos space, ih]
      · have whole := decimal_stop (b :: s) noDigit t
        rw [List.cons_append] at whole
        rw [List.cons_append, List.dropWhile_cons_of_neg space, List.dropWhile_cons_of_neg space, signedDecimal,
          signedDecimal, decimal_stop s noDigit t, whole]
  rw [toInteger, toInteger, same]

theorem toInteger_percent (s t : Str) : toInteger (s ++ ch '%' :: t) = toInteger s :=
  toInteger_stop s (by decide) (by decide) (by decide) t

theorem toInteger_bracket (s t : Str) : toInteger (s ++ ch '>' :: t) = toInteger s :=
  toInteger_stop s (by decide) (by decide) (by decide) t

theorem toInteger_nil : toInteger [] = 0 := by decide

theorem weightText_cut {line : Str} (explicit : explicitWeight line ≠ 0) :
    ∃ t, after line (str "><") = weightText line ++ ch '>' :: t := by
  have cut := before_byte (after line (str "><")) (ch '>')
  have text : weightText line = before (after line (str "><")) [ch '>'] := rfl
  by_cases closed : ch '>' ∈ after line (str "><")
  · rw [if_pos closed] at cut
    have parts := List.takeWhile_append_dropWhile (p := (· != ch '>')) (l := after line (str "><"))
    cases behind : (after line (str "><")).dropWhile (· != ch '>') with
    | nil =>
      have all := List.dropWhile_eq_nil_iff.mp behind _ closed
      simp at all
    | cons b t =>
      have bracket := List.head?_dropWhile_not (· != ch '>') (after line (str "><"))
      rw [behind] at bracket parts
      obtain rfl : b = ch '>' := by simpa using bracket
      exact ⟨t, by rw [text, cut, parts]⟩
  · rw [if_neg closed] at cut
    rw [explicitWeight, text, cut] at explicit
    exact absurd toInteger_nil explicit

/-- The number in front of a percent sign is the weight, also when the sign belongs to a later text of the line. -/
theorem percentage_eq {line : Str} (explicit : explicitWeight line ≠ 0) (ahead : percentAhead line = true) :
    toInteger (before (after line (str "><")) (str "%>")) = explicitWeight line := by
  obtain ⟨t, cut⟩ := weightText_cut explicit
  obtain ⟨i, found⟩ := Option.isSome_iff_exists.mp ahead
  obtain ⟨-, y, sign⟩ := find_some found
  have start : before (after line (str "><")) (str "%>") = (after line (str "><")).take i := by
    rw [before, found]
  rw [start, explicitWeight]
  have parts := List.take_append_drop i (after line (str "><"))
  rw [← sign] at parts
  generalize (after line (str "><")).take i = x at parts
  have both : x ++ ch '%' :: ch '>' :: y = weightText line ++ ch '>' :: t := parts.trans cut
  rcases List.append_eq_append_iff.mp both with ⟨a, inner, rest⟩ | ⟨a, inner, rest⟩
  · cases a with
    | nil => exact absurd (List.cons.inj rest).1 (by decide)
    | cons b a =>
      obtain ⟨rfl, -⟩ := List.cons.inj rest
      rw [inner, toInteger_percent]
  · cases a with
    | nil => exact absurd (List.cons.inj rest).1 (by decide)
    | cons b a =>
      obtain ⟨rfl, -⟩ := List.cons.inj rest
      rw [inner, toInteger_bracket]

theorem percentAhead_of_percentage {line : Str} (explicit : explicitWeight line ≠ 0) (sign : isPercentage line = true) :
    percentAhead line = true := by
  obtain ⟨t, cut⟩ := weightText_cut explicit
  obtain ⟨x, text⟩ := List.isSuffixOf_iff_suffix.mp sign
  rw [percentAhead, contains_iff_occurs, cut, ← text]
  exact ⟨x, t, by simp only [List.append_assoc]; rfl⟩

def product (line : Str) (nlimit : Int) : Int := (explicitWeight line * nlimit).bmod (2 ^ 32)

theorem lineWeighting_eq {line : Str} (explicit : explicitWeight line ≠ 0) (nlimit : Int) :
    lineWeighting line nlimit = if percentAhead line then (product line nlimit).tdiv 100 else explicitWeight line := by
  unfold lineWeighting
  by_cases ahead : percentAhead line = true
  · dsimp only
    rw [percentage_eq explicit ahead, if_pos explicit, if_pos ahead]
    rfl
  · have none_ : before (after line (str "><")) (str "%>") = [] := by
      rw [percentAhead, contains, Bool.not_eq_true, Option.isSome_eq_false_iff, Option.isNone_iff_eq_none] at ahead
      rw [before, ahead]
    dsimp only
    rw [none_, toInteger_nil, if_neg (by simp), if_neg ahead]
    rfl

/- Division by 100, rounded toward zero. -/
theorem tdiv_bounds (x : Int) :
    100 * (x.tdiv 100).natAbs ≤ x.natAbs ∧ x.natAbs < 100 * (x.tdiv 100).natAbs + 100 ∧
      (0 ≤ x → 0 ≤ x.tdiv 100) ∧ (x ≤ 0 → x.tdiv 100 ≤ 0) := by
  have abs_ : (x.tdiv 100).natAbs = x.natAbs / 100 := Int.natAbs_tdiv x 100
  refine ⟨by omega, by omega, fun up => Int.tdiv_nonneg up (by decide), fun down => ?_⟩
  have flipped : 0 ≤ (-x).tdiv 100 := Int.tdiv_nonneg (by omega) (by decide)
  rw [Int.neg_tdiv] at flipped
  omega

theorem tdiv_ne_zero_iff (x : Int) : x.tdiv 100 ≠ 0 ↔ 100 ≤ x.natAbs := by
  have bounds := tdiv_bounds x
  omega

theorem bmod_tdiv_eq_iff (x : Int) : (x.bmod (2 ^ 32)).tdiv 100 = x.tdiv 100 ↔ -2 ^ 31 ≤ x ∧ x < 2 ^ 31 := by
  have wrapped : -2 ^ 31 ≤ x.bmod (2 ^ 32) ∧ x.bmod (2 ^ 32) < 2 ^ 31 ∧ (x.bmod (2 ^ 32) - x) % 2 ^ 32 = 0 := by
    rw [Int.bmod_def]
    omega
  have bounds := tdiv_bounds x
  have bounds' := tdiv_bounds (x.bmod (2 ^ 32))
  constructor
  · intro same
    omega
  · intro inside
    congr 1
    omega

/- What a line with a weight adds to the list. -/
def scaledWeight (line : Str) (nlimit : Int) : Int := (explicitWeight line * nlimit).tdiv 100

/-- The weight that is stored: of a percentage the part of the limit. -/
def RightWeight (line : Str) (nlimit weight : Int) : Prop :=
  isPercentage line = true → weight = scaledWeight line nlimit

/-- All that is added is weighted: single phrases of type 1, or the parts of a combination, of type 12, with the end
marker of type 22 behind their numbers. -/
def AddsWeighted (line : Str) (nlimit : Int) (l l' : PhraseList) : Prop :=
  ∃ new marks, l'.items = l.items ++ new ∧ l'.combilist = l.combilist ++ marks ∧
    (∀ item ∈ new, RightWeight line nlimit item.weight) ∧
    ((marks = [] ∧ ∀ item ∈ new, item.type = 1) ∨
      ∃ time weight cat, marks = (List.range' l.items.length new.length).map (fun i : Nat => (i : Int)) ++
          [-2, 22 - 21, time, weight, cat] ∧ RightWeight line nlimit weight ∧ ∀ item ∈ new, item.type = 12)

def storesNothing (line : Str) (nlimit : Int) : Bool :=
  !isCombination (linePhrases line nlimit) && (lineTexts line nlimit).isEmpty

theorem lineType_one_iff (weighting : Int) (isexception : Bool) : lineType weighting isexception = 1 ↔ weighting ≠ 0 := by
  unfold lineType
  split
  · simpa
  · split <;> simp_all

theorem addsWeighted_iff (l : PhraseList) (line : Str) (isexception : Bool) (catindex timeindex nlimit : Int) :
    AddsWeighted line nlimit l (readPhraseListHelper l line isexception catindex timeindex nlimit) ↔
      storesNothing line nlimit = true ∨
        (lineWeighting line nlimit ≠ 0 ∧ RightWeight line nlimit (lineWeighting line nlimit)) := by
  have types := lineType_cases (lineWeighting line nlimit) isexception
  rw [readPhraseListHelper_eq, ← lineType_one_iff _ isexception, AddsWeighted, addLine, storesNothing]
  generalize lineType (lineWeighting line nlimit) isexception = type at *
  generalize lineWeighting line nlimit = weight
  generalize lineTexts line nlimit = texts
  dsimp only
  by_cases combination : isCombination (linePhrases line nlimit) = true
  · simp only [combination, if_true, Bool.not_true, Bool.false_and, Bool.false_eq_true, false_or]
    constructor
    · rintro ⟨new, marks, items, combi, right, single | parts⟩
      · rw [single.1, List.append_cancel_left_eq] at combi
        simp [Chain.encode] at combi
      · obtain ⟨time, stored, cat, rfl, rightWeight, types⟩ := parts
        obtain rfl := List.append_cancel_left items
        have marks := List.append_cancel_left combi
        rw [Chain.encode, List.length_map] at marks
        have tail := List.append_cancel_left marks
        simp only [List.cons.injEq, true_and, and_true] at tail
        obtain ⟨one, -, rfl, -⟩ := tail
        exact ⟨one, rightWeight⟩
    · rintro ⟨rfl, right⟩
      refine ⟨_, _, rfl, rfl, ?_, .inr ⟨timeindex, weight, catindex, ?_, right, ?_⟩⟩
      · intro item member
        obtain ⟨s, -, rfl⟩ := List.mem_map.mp member
        exact right
      · rw [Chain.encode, List.length_map]
        rfl
      · intro item member
        obtain ⟨s, -, rfl⟩ := List.mem_map.mp member
        rfl
  · rw [Bool.not_eq_true] at combination
    simp only [combination, Bool.not_false, Bool.true_and, List.isEmpty_iff, Bool.false_eq_true, if_false]
    constructor
    · rintro ⟨new, marks, items, combi, right, single | parts⟩
      · obtain rfl := List.append_cancel_left items
        by_cases none_ : texts = []
        · exact .inl none_
        · obtain ⟨s, member⟩ := List.exists_mem_of_ne_nil _ none_
          have stored := List.mem_map_of_mem (f := fun s => (⟨s, type, weight, catindex, timeindex⟩ : PhraseItem)) member
          exact .inr ⟨single.2 _ stored, right _ stored⟩
      · obtain ⟨time, stored, cat, rfl, -⟩ := parts
        have marks := List.self_eq_append_right.mp combi
        simp at marks
    · intro kept
      refine ⟨_, [], rfl, (List.append_nil _).symm, ?_, .inl ⟨rfl, ?_⟩⟩
      · intro item member
        obtain ⟨s, listed, rfl⟩ := List.mem_map.mp member
        exact (kept.resolve_left fun none_ => by simp [none_] at listed).2
      · intro item member
        obtain ⟨s, listed, rfl⟩ := List.mem_map.mp member
        exact (kept.resolve_left fun none_ => by simp [none_] at listed).1

/-- A line with a weight adds weighted phrases if a percentage comes to at least 1 and is taken of a product that is
an `int`. A percent sign behind the weight makes the weight a percentage. -/
theorem weighted_iff_product_large (l : PhraseList) (line : Str) (isexception : Bool) (catindex timeindex nlimit : Int)
    (explicit : explicitWeight line ≠ 0) :
    AddsWeighted line nlimit l (readPhraseListHelper l line isexception catindex timeindex nlimit) ↔
      storesNothing line nlimit = true ∨ ((percentAhead line = true → 100 ≤ (product line nlimit).natAbs) ∧
        (isPercentage line = true →
          -2 ^ 31 ≤ explicitWeight line * nlimit ∧ explicitWeight line * nlimit < 2 ^ 31)) := by
  rw [addsWeighted_iff, lineWeighting_eq explicit, RightWeight]
  by_cases ahead : percentAhead line = true
  · simp only [ahead, if_true, forall_const, tdiv_ne_zero_iff]
    rw [product, scaledWeight, bmod_tdiv_eq_iff]
  · have plain : isPercentage line ≠ true := fun sign => ahead (percentAhead_of_percentage explicit sign)
    simp only [ahead, plain, if_false, Bool.false_eq_true, false_imp_iff, and_true]
    exact iff_of_true (.inr explicit) (.inr trivial)

theorem half_weighted : AddsWeighted (str "<bet><50%>") 100 .empty
    (readPhraseListHelper .empty (str "<bet><50%>") false (-1) (-1) 100) :=
  (weighted_iff_product_large .empty (str "<bet><50%>") false (-1) (-1) 100 (by decide)).mpr (by decide)

/-- One per cent of a limit of 50 bans the phrase. -/
theorem percentage_bans : ¬ ∀ (l : PhraseList) (line : Str) (isexception : Bool) (catindex timeindex nlimit : Int),
    explicitWeight line ≠ 0 → AddsWeighted line nlimit l (readPhraseListHelper l line isexception catindex timeindex nlimit) := by
  intro always
  have stored : (readPhraseListHelper .empty (str "<bet><1%>") false (-1) (-1) 50).items = [⟨str "bet", 0, 0, -1, -1⟩] := by
    decide
  obtain ⟨new, marks, items, -, -, kept⟩ := always .empty (str "<bet><1%>") false (-1) (-1) 50 (by decide)
  rw [stored] at items
  have banned : (⟨str "bet", 0, 0, -1, -1⟩ : PhraseItem) ∈ new := by
    rw [← show _ = new from items]
    exact List.mem_singleton.mpr rfl
  rcases kept with single | ⟨time, weight, cat, -, -, parts⟩
  · exact absurd (single.2 _ banned) (by decide)
  · exact absurd (parts _ banned) (by decide)

end GuardianPhraseWeights
