import E2Guardian.RunCollapse
import E2Guardian.PhraseList

/- The two normalisations that a phrase and a document go through before they are compared:
   that of the list reader on a phrase line, and the byte loop of NaughtyFilter::checkme
   that fills bodylc. -/
namespace GuardianNormalisation
open GuardianString GuardianPhraseList RunCollapse

/-- What becomes a space when the tags are not stripped later. -/
def isRawPunctuation (c : UInt8) : Bool :=
  c < ch '/' || (ch '9' < c && c < ch 'A') || (ch 'Z' < c && c < ch 'a')

-- The class for tag stripping is the one of removePunctuation.
def convertByte (preserve_case stripping : Bool) (c : UInt8) : UInt8 :=
  let space := if stripping then isPunctuation c else isRawPunctuation c
  if preserve_case then if space then 32 else c
  else if ch 'A' ≤ c ∧ c ≤ ch 'Z' then ch 'a' + c - ch 'A'
  else if 192 ≤ c ∧ c ≤ 221 then c + 32 -- for accented chars
  else if space then 32
  else c

def bodylc (preserve_case stripping : Bool) (hexdecoded : Str) : Str :=
  hexdecoded.map (convertByte preserve_case stripping)

/-- The copy of phrase_filter_mode 0 without case preservation. -/
def rawCopy (document : Str) : Str := bodylc false false document

/-- The texts that a line leaves in an empty list when it is read with case conversion on. -/
def storedTexts (isexception : Bool) (nlimit : Int) (linebuffer : Str) : List Str :=
  match readLine (fun _ _ => true) (fun _ _ _ _ => none) isexception nlimit linebuffer
      ⟨.empty, -1, -1, true⟩ with
  | some (_, st) => st.list.items.map PhraseItem.text
  | none => []

def PhraseByte (b : UInt8) : Prop := b ≠ 0 ∧ b ≠ ch '\n' ∧ b ≠ ch '<' ∧ b ≠ ch '>'

def Accented (b : UInt8) : Prop := 192 ≤ b ∧ b ≤ 221

/-- Separators that stand side by side stand only at an end of the phrase. -/
def NoInnerSeparatorRun (p : Str) : Prop :=
  ∀ a b c d, p = a ++ b :: c :: d → isPunctuation b → isPunctuation c →
    (∀ x ∈ a, isPunctuation x) ∨ ∀ x ∈ d, isPunctuation x

instance (b : UInt8) : Decidable (PhraseByte b) := inferInstanceAs (Decidable (_ ∧ _))

instance (b : UInt8) : Decidable (Accented b) := inferInstanceAs (Decidable (_ ∧ _))

/-- The byte that removePunctuation leaves of a lower-cased one before it collapses runs. -/
def phraseByte (b : UInt8) : UInt8 := if isPunctuation (tolower b) then 32 else tolower b

def Conversions (b : UInt8) : Prop :=
  (PhraseByte b → ¬ Accented b → convertByte false false b = phraseByte b) ∧
  ¬ Accented (convertByte false false b) ∧ (Accented b → phraseByte b = b) ∧
  (phraseByte b = 32 ↔ isPunctuation b) ∧
  (isPunctuation (tolower b) || tolower b == 32) = decide (phraseByte b = 32) ∧
  (PhraseByte b → tolower b ≠ ch '<' ∧ tolower b ≠ ch '>')

instance (b : UInt8) : Decidable (Conversions b) := inferInstanceAs (Decidable (_ ∧ _))

theorem conversions (b : UInt8) : Conversions b := byte_cases (by decide +kernel) b

theorem convertByte_plain (b : UInt8) : PhraseByte b → ¬ Accented b → convertByte false false b = phraseByte b :=
  (conversions b).1

theorem convertByte_not_accented (b : UInt8) : ¬ Accented (convertByte false false b) := (conversions b).2.1

theorem phraseByte_accented (b : UInt8) : Accented b → phraseByte b = b := (conversions b).2.2.1

theorem phraseByte_space_iff (b : UInt8) : phraseByte b = 32 ↔ isPunctuation b := (conversions b).2.2.2.1

theorem removePunctuation_eq (lastspace : Bool) (s : Str) :
    removePunctuationLoop lastspace (toLower s) = squeeze 32 lastspace (s.map phraseByte) := by
  induction s generalizing lastspace with
  | nil => rfl
  | cons b s ih =>
    have space := (conversions b).2.2.2.2.1
    simp only [toLower, List.map_cons] at ih ⊢
    rw [removePunctuationLoop, squeeze, space]
    by_cases gap : phraseByte b = 32
    · simp [gap, ih]
    · have kept : tolower b = phraseByte b := by
        unfold phraseByte at gap ⊢
        split
        · rename_i punctuation
          exact absurd (if_pos punctuation) gap
        · rfl
      simp [gap, ih, kept]

section PhraseLine
variable {p : Str} (bytes : ∀ b ∈ p, PhraseByte b)
include bytes

theorem toLower_phraseByte : ∀ b ∈ toLower p, b ≠ ch '<' ∧ b ≠ ch '>' := by
  intro b member
  obtain ⟨c, inPhrase, rfl⟩ := List.mem_map.mp member
  exact (conversions c).2.2.2.2.2 (bytes c inPhrase)

/-- The line is not trimmed, and has neither a weight nor a second phrase. -/
theorem phraseLine_texts (nlimit : Int) :
    let line := str "<" ++ toLower p ++ str ">"
    lineWeighting line nlimit = 0 ∧ isCombination line = false ∧
      before (after line (str "<")) (str ">") = toLower p := by
  have plain := toLower_phraseByte bytes
  have closing : ch '>' ∉ str "<" ++ toLower p := by
    intro member
    rcases List.mem_append.mp member with opening | inner
    · revert opening
      decide
    · exact (plain _ inner).2 rfl
  have noWeight : after (str "<" ++ toLower p ++ str ">") (str "><") = [] :=
    after_of_absent (last_not_followed closing (ch '<'))
  have noPart : after (str "<" ++ toLower p ++ str ">") (str ">,") = [] :=
    after_of_absent (last_not_followed closing (ch ','))
  refine ⟨?_, ?_, ?_⟩
  · have percentage : toInteger (before [] (str "%>")) = 0 := by decide
    have number : toInteger (before [] (str ">")) = 0 := by decide
    unfold lineWeighting
    rw [noWeight, percentage, number]
    rfl
  · unfold isCombination
    rw [noPart]
    rfl
  · have opened : after (str "<" ++ toLower p ++ str ">") (str "<") = toLower p ++ str ">" := by
      rw [show str "<" = [ch '<'] from rfl, after_byte]
      simp
    have free : ∀ b ∈ toLower p, (b != ch '>') = true := by
      intro b member
      simpa using (plain b member).2
    rw [opened, show str ">" = [ch '>'] from rfl, before_byte, if_pos (by simp),
      List.takeWhile_append_of_pos free]
    simp

theorem storedTexts_eq (isexception : Bool) (nlimit : Int) (short : p.length ≤ 126) :
    storedTexts isexception nlimit (str "<" ++ p ++ str ">") =
      if p = [] then [] else [removePunctuation (toLower p)] := by
  obtain ⟨noWeight, single, inner⟩ := phraseLine_texts bytes nlimit
  have nulFree : 0 ∉ str "<" ++ p ++ str ">" := by
    intro member
    rcases List.mem_append.mp member with opening | closing
    · rcases List.mem_append.mp opening with mark | inPhrase
      · revert mark
        decide
      · exact (bytes 0 inPhrase).1 rfl
    · revert closing
      decide
  have line : toLower (removeWhiteSpace (cstr (str "<" ++ p ++ str ">"))) =
      str "<" ++ toLower p ++ str ">" := by
    rw [cstr_of_nul_free nulFree]
    have trimmed := removeWhiteSpace_of_ends p (x := ch '<') (y := ch '>') (by decide) (by decide)
    have spelled : str "<" ++ p ++ str ">" = ch '<' :: (p ++ [ch '>']) := rfl
    rw [spelled, trimmed, toLower, List.map_cons, List.map_append]
    rfl
  have texts : lineTexts (str "<" ++ toLower p ++ str ">") nlimit =
      if p = [] then [] else [removePunctuation (toLower p)] := by
    have whole : linePhrases (str "<" ++ toLower p ++ str ">") nlimit =
        str "<" ++ toLower p ++ str ">" := by
      rw [linePhrases, if_neg (not_not.mpr noWeight)]
    have squeezed := removePunctuation_eq false p
    have fits : ¬ (removePunctuation (toLower p)).length > 127 := by
      have := squeeze_length_le (g := (32 : UInt8)) false (p.map phraseByte)
      rw [removePunctuation, squeezed]
      rw [List.length_map] at this
      omega
    simp only [lineTexts, whole, single, Bool.false_eq_true, ↓reduceIte, inner, storedPhrase,
      List.map_cons, List.map_nil, fits]
    by_cases empty : p = []
    · subst empty
      rfl
    · have kept : removePunctuation (toLower p) ≠ [] := by
        rw [removePunctuation, squeezed]
        exact squeeze_ne_nil (by simpa using empty)
      simp [kept, empty]
  have opens : startsWith (str "<" ++ toLower p ++ str ">") (str "<") = true := by
    simp [startsWith, str]
  have some : ¬ (str "<" ++ p ++ str ">").length = 0 := by simp [str]
  simp only [storedTexts, readLine, some, ↓reduceIte, line, opens, readPhraseListHelper_eq, addLine,
    texts, PhraseList.empty, List.nil_append, List.map_map]
  exact List.map_id _

end PhraseLine

theorem converted_eq {p : Str} (bytes : ∀ b ∈ p, PhraseByte b) (plain : ∀ b ∈ p, ¬ Accented b) :
    p.map (convertByte false false) = p.map phraseByte :=
  List.map_congr_left fun b member => convertByte_plain b (bytes b member) (plain b member)

/-- An accented byte stays in the stored text and is in no converted document. -/
theorem plain_of_occurs {p : Str}
    (occurs : squeeze 32 false (p.map phraseByte) <:+: p.map (convertByte false false)) :
    ∀ b ∈ p, ¬ Accented b := by
  intro b member accented
  have kept : b ∈ squeeze 32 false (p.map phraseByte) := by
    have notSpace : ¬ b = 32 := by
      rintro rfl
      revert accented
      decide
    have inFilter : b ∈ (p.map phraseByte).filter fun x => !decide (x = 32) := by
      refine List.mem_filter.mpr ⟨List.mem_map.mpr ⟨b, member, phraseByte_accented b accented⟩, ?_⟩
      simp [notSpace]
    rw [← squeeze_filter false] at inFilter
    exact (List.mem_filter.mp inFilter).1
  obtain ⟨c, -, converted⟩ := List.mem_map.mp (occurs.subset kept)
  exact convertByte_not_accented c (converted ▸ accented)

theorem outer_runs_iff {p : Str} : OnlyOuterRuns 32 (p.map phraseByte) ↔ NoInnerSeparatorRun p := by
  have spaces : ∀ s : Str, (∀ x ∈ s.map phraseByte, x = 32) ↔ ∀ x ∈ s, isPunctuation x := by
    intro s
    simp [phraseByte_space_iff]
  constructor
  · intro outer a b c d split first second
    have runs := outer (a.map phraseByte) (d.map phraseByte) (by
      rw [split, List.map_append, List.map_cons, List.map_cons, (phraseByte_space_iff b).mpr first,
        (phraseByte_space_iff c).mpr second])
    rwa [spaces, spaces] at runs
  · intro outer a d split
    obtain ⟨a, rest, rfl, rfl, second⟩ := List.map_eq_append_iff.mp split
    obtain ⟨b, rest, rfl, gapB, third⟩ := List.map_eq_cons_iff.mp second
    obtain ⟨c, d, rfl, gapC, rfl⟩ := List.map_eq_cons_iff.mp third
    rw [spaces, spaces]
    exact outer a b c d rfl ((phraseByte_space_iff b).mp gapB) ((phraseByte_space_iff c).mp gapC)

/-- A phrase is found wherever it stands exactly if it has no accented byte and no inner run
of separators. -/
theorem phrase_found_iff_plain (p : Str) (bytes : ∀ b ∈ p, PhraseByte b) (short : p.length ≤ 126)
    (isexception : Bool) (nlimit : Int) :
    (∀ text ∈ storedTexts isexception nlimit (str "<" ++ p ++ str ">"), ∀ document,
        p <:+: document → text <:+: rawCopy document) ↔
      (∀ b ∈ p, ¬ Accented b) ∧ NoInnerSeparatorRun p := by
  rw [storedTexts_eq bytes isexception nlimit short]
  by_cases empty : p = []
  · simp [empty, NoInnerSeparatorRun]
  · simp only [empty, ↓reduceIte, List.mem_singleton, forall_eq, removePunctuation,
      removePunctuation_eq, rawCopy, bodylc]
    constructor
    · intro found
      have self := found p List.infix_rfl
      have plain := plain_of_occurs self
      rw [converted_eq bytes plain, squeeze_occurs_iff, outer_runs_iff] at self
      exact ⟨plain, self⟩
    · rintro ⟨plain, outer⟩ document occurs
      have inPhrase := (squeeze_occurs_iff _).mpr (outer_runs_iff.mpr outer)
      have inDocument := occurs.map (convertByte false false)
      rw [converted_eq bytes plain] at inDocument
      exact inPhrase.trans inDocument

theorem phrase_found_bad_word :
    (∀ b ∈ str "Bad word!", PhraseByte b) ∧
      ∀ text ∈ storedTexts false 50 (str "<" ++ str "Bad word!" ++ str ">"), ∀ document,
        str "Bad word!" <:+: document → text <:+: rawCopy document := by
  have bytes : ∀ b ∈ str "Bad word!", PhraseByte b := by decide +kernel
  have outer : NoInnerSeparatorRun (str "Bad word!") :=
    outer_runs_iff.mp ((squeeze_occurs_iff _).mp (by decide))
  have found := phrase_found_iff_plain (str "Bad word!") bytes (by decide) false 50
  exact ⟨bytes, found.mpr ⟨by decide +kernel, outer⟩⟩

theorem phrase_missed_double_space :
    ¬ ∀ (p : Str), (∀ b ∈ p, PhraseByte b) → p.length ≤ 126 → ∀ (isexception : Bool) (nlimit : Int),
      ∀ text ∈ storedTexts isexception nlimit (str "<" ++ p ++ str ">"), ∀ document,
        p <:+: document → text <:+: rawCopy document := by
  intro always
  have found := always (str "a - b") (by decide +kernel) (by decide +kernel) false 50 (str "a b") (by decide +kernel)
    (str "a - b") List.infix_rfl
  revert found
  rw [← contains_iff_occurs]
  decide

end GuardianNormalisation
