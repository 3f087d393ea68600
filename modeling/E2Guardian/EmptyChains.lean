import E2Guardian.Totals

/- Combination lines none of whose parts leaves a text. Their chain has no parts, so that
   the scorer takes it as matched on every page. -/
namespace GuardianScoring
open GuardianString GuardianTime GuardianPhraseList OrderedMap

def Step.HasPart : Step → Prop
  | .phrases line _ _ _ nlimit =>
    isCombination (linePhrases line nlimit) →
      ∃ part ∈ combiParts (linePhrases line nlimit), storedPhrase part ≠ []
  | _ => True

/-- A page on which nothing is found passes the scorer. -/
def BlankPagePasses (l : PhraseList) : Prop :=
  ∀ (s : Settings) (now : Clock) (limit : Int) (searchterms : Bool) (filter : Verdict) (cat : Int),
    0 ≤ limit →
      (∃ v, scanPhrases s now l [] filter.isItNaughty cat = some (.finished v) ∧ v.weighting = 0) ∧
      ∃ verdict, scorePhrases s limit searchterms filter now l [] cat = some verdict ∧
        verdict.isItNaughty = filter.isItNaughty ∧ verdict.isException = filter.isException

theorem lineTexts_eq_nil_iff {line : Str} {nlimit : Int}
    (combination : isCombination (linePhrases line nlimit)) :
    lineTexts line nlimit = [] ↔
      ∀ part ∈ combiParts (linePhrases line nlimit), storedPhrase part = [] := by
  simp [lineTexts, combination, List.filter_eq_nil_iff]

theorem chain_has_part_iff (l : PhraseList) (step : Step) :
    (∀ c ∈ (step.chain? l).toList, c.parts ≠ []) ↔ Step.HasPart step := by
  cases step with
  | phrases line isexception catindex timeindex nlimit =>
    by_cases combination : isCombination (linePhrases line nlimit)
    · have texts := not_congr (lineTexts_eq_nil_iff combination)
      push Not at texts
      simpa [Step.chain?, Step.HasPart, combination] using texts
    · simp [Step.chain?, Step.HasPart, combination]
  | category lcat => simp [Step.chain?, Step.HasPart]
  | time tl => simp [Step.chain?, Step.HasPart]
  | merge foundindex i => simp [Step.chain?, Step.HasPart]

theorem chains_have_parts_iff (steps : List Step) :
    (∀ c ∈ chains (load steps), c.parts ≠ []) ↔ ∀ step ∈ steps, Step.HasPart step := by
  induction steps using List.reverseRecOn with
  | nil => simp [load, chains, chainsFrom, PhraseList.empty]
  | append_singleton steps step ih =>
    rw [step_chains, List.forall_mem_append, List.forall_mem_append, ih, chain_has_part_iff]
    simp

def noneFound (l : PhraseList) : FoundMap l := ⟨[], by simp, by simp, by simp⟩

theorem not_active_of_parts {now : Clock} {l : PhraseList} {c : Chain} (parts : c.parts ≠ []) :
    active now l [] c = false := by
  obtain ⟨part, member⟩ := List.exists_mem_of_ne_nil c.parts parts
  have unsatisfied : satisfied l [] c = false :=
    List.all_eq_false.mpr ⟨part, member, by simp [OrderedMap.find]⟩
  rw [active, unsatisfied, Bool.false_and]

theorem inactive_chains {s : Settings} {now : Clock} {l : PhraseList} {cs : List Chain}
    (inactive : ∀ c ∈ cs, active now l [] c = false) {run : List Nat} {v : Locals}
    (carried : Carried run v) :
    (cs.foldl (afterChain s now l []) v).weighting = v.weighting ∧
      (cs.foldl (afterChain s now l []) v).bannedcombi = v.bannedcombi ∧
      (cs.foldl (afterChain s now l []) v).isItNaughty = v.isItNaughty := by
  induction cs generalizing run v with
  | nil => exact ⟨rfl, rfl, rfl⟩
  | cons c cs ih =>
    have nothing : ∀ e ∈ ([] : List (Str × Nat × Nat)), 0 < e.2.2 := by simp
    obtain ⟨sofar, effect⟩ := afterChain_eq (s := s) nothing carried c
    rw [inactive c List.mem_cons_self] at effect
    rw [List.foldl_cons]
    have next : Carried (runAfter l [] run c) (afterChain s now l [] v c) :=
      afterChain_carried nothing carried c
    have rest := ih (fun d member => inactive d (List.mem_cons_of_mem _ member)) next
    rw [effect] at rest ⊢
    exact rest

theorem blank_page_passes {l : PhraseList} (loaded : Loaded l)
    (parts : ∀ c ∈ chains l, c.parts ≠ []) : BlankPagePasses l := by
  intro s now limit searchterms filter cat nonneg
  have noException : ¬ exceptionFound now l (noneFound l).entries := by
    rintro (⟨c, member, inForce, -⟩ | ⟨e, member, -⟩)
    · rw [noneFound, not_active_of_parts (parts c member)] at inForce
      cases inForce
    · cases member
  have scanned := scanPhrases_eq s now (noneFound l) loaded filter.isItNaughty cat
  rw [if_neg noException] at scanned
  obtain ⟨weight, combi, naughty⟩ : (endLocals s now (noneFound l) filter.isItNaughty cat).weighting = 0 ∧
      (endLocals s now (noneFound l) filter.isItNaughty cat).bannedcombi = false ∧
      (endLocals s now (noneFound l) filter.isItNaughty cat).isItNaughty = filter.isItNaughty :=
    inactive_chains (fun c member => not_active_of_parts (parts c member))
      (startLocals_carried filter.isItNaughty cat)
  have flags := finalVerdict_flags s limit searchterms filter
    (endLocals s now (noneFound l) filter.isItNaughty cat)
  refine ⟨⟨_, scanned, weight⟩, _, congrArg (Option.map _) scanned, ?_, flags.1⟩
  rw [flags.2.1, combi, naughty, weight]
  have within : ¬ 0 > limit := by omega
  simp [within]

theorem blank_page_passes_iff_parts (steps : List Step) :
    ((∀ c ∈ chains (load steps), c.parts ≠ []) ∧ BlankPagePasses (load steps)) ↔
      ∀ step ∈ steps, Step.HasPart step := by
  rw [chains_have_parts_iff]
  constructor
  · exact And.left
  · intro parts
    exact ⟨parts, blank_page_passes ⟨steps, rfl⟩ ((chains_have_parts_iff steps).mpr parts)⟩

theorem blank_page_banned_by_empty_combination :
    ¬ ((∀ c ∈ chains (load [.phrases (str "<>,<>,<>") false (-1) (-1) 50]), c.parts ≠ []) ∧
      BlankPagePasses (load [.phrases (str "<>,<>,<>") false (-1) (-1) 50])) := by
  rintro ⟨-, passes⟩
  obtain ⟨-, verdict, scored, innocent, -⟩ :=
    passes everyOccurrence noon 50 false clearVerdict 0 (by decide)
  have banned : (scorePhrases everyOccurrence 50 false clearVerdict noon
      (load [.phrases (str "<>,<>,<>") false (-1) (-1) 50]) [] 0).map Verdict.isItNaughty =
        some true := by decide
  rw [scored, Option.map_some, innocent] at banned
  cases banned

end GuardianScoring
