import Mathlib.Tactic.Ring
import E2Guardian.Scoring

/- The walk over the combination list is a fold over whole chains that carries only the
   lowest count on. From it the total weight and the verdict of the scorer. -/
namespace GuardianScoring
open GuardianString GuardianTime GuardianPhraseList OrderedMap MachineInts

def carry (lowest_occurrences occurrences : Nat) : Nat :=
  if lowest_occurrences = 0 ∨ lowest_occurrences > occurrences then occurrences
  else lowest_occurrences

theorem lowest_positive {counts : List Nat} (positive : ∀ n ∈ counts, 0 < n) (some : counts ≠ []) :
    0 < lowest counts := by
  obtain ⟨n, smallest⟩ := Option.isSome_iff_exists.mp (List.isSome_min?_of_ne_nil some)
  rw [lowest, smallest]
  exact positive n (List.min?_mem smallest)

theorem carry_lowest {counts : List Nat} (positive : ∀ n ∈ counts, 0 < n) (n : Nat) :
    carry (lowest counts) n = lowest (counts ++ [n]) := by
  cases counts with
  | nil => simp [carry, lowest]
  | cons m counts =>
    have nonzero := lowest_positive positive (List.cons_ne_nil m counts)
    have smallest : lowest (m :: counts ++ [n]) = min (lowest (m :: counts)) n := by
      simp only [lowest, List.cons_append, List.min?_cons', List.foldl_append, List.foldl_cons,
        List.foldl_nil, Option.getD_some]
    rw [smallest, carry]
    split <;> omega

theorem foldl_carry {counts more : List Nat} (positive : ∀ n ∈ counts ++ more, 0 < n) :
    more.foldl carry (lowest counts) = lowest (counts ++ more) := by
  induction more generalizing counts with
  | nil => simp
  | cons n more ih =>
    rw [List.foldl_cons, carry_lowest (fun m member => positive m (List.mem_append_left _ member)),
      ih (by simpa using positive)]
    simp

section Chains
variable {s : Settings} {now : Clock} {l : PhraseList} {found : List (Str × Nat × Nat)}

theorem combiLoop_parts (parts : List Nat) (rest : List Int) (v : Locals) :
    combiLoop s now l found (parts.map (fun i : Nat => (i : Int)) ++ rest) v =
      combiLoop s now l found rest (parts.foldl (fun v (i : Nat) => matchPart l found v i) v) := by
  induction parts generalizing v with
  | nil => rfl
  | cons part parts ih =>
    have notEnd : ¬ (part : Int) = -2 := by omega
    rw [List.map_cons, List.cons_append, combiLoop.eq_def, List.foldl_cons, ← ih]
    simp [notEnd]

theorem unmatched_parts (parts : List Nat) {v : Locals} (unmatched : v.allcmatched = false) :
    parts.foldl (fun v (i : Nat) => matchPart l found v i) v = v := by
  induction parts with
  | nil => rfl
  | cons part parts ih => simpa [matchPart, unmatched] using ih

theorem satisfied_parts (parts : List Nat) {v : Locals} (clean : v.allcmatched = true)
    (all : ∀ part ∈ parts, (find (getItemAtInt l part) found).isSome) :
    ∃ sofar, parts.foldl (fun v (i : Nat) => matchPart l found v i) v =
      { v with
        combisofar := sofar
        lowest_occurrences :=
          (parts.map (occurrencesOf l found)).foldl carry v.lowest_occurrences } := by
  induction parts generalizing v with
  | nil => exact ⟨v.combisofar, rfl⟩
  | cons part parts ih =>
    obtain ⟨⟨index, n⟩, here⟩ := Option.isSome_iff_exists.mp (all part List.mem_cons_self)
    have step : matchPart l found v part = { v with
        combisofar := (matchPart l found v part).combisofar
        lowest_occurrences := carry v.lowest_occurrences n } := by
      simp [matchPart, clean, here, carry]
    have count : occurrencesOf l found part = n := by simp [occurrencesOf, here]
    obtain ⟨sofar, rest⟩ := ih (v := matchPart l found v part) (by rw [step]; exact clean)
      fun p member => all p (List.mem_cons_of_mem _ member)
    refine ⟨sofar, ?_⟩
    rw [List.foldl_cons, rest, List.map_cons, List.foldl_cons, count, step]

theorem unsatisfied_parts (parts : List Nat) {v : Locals} (clean : v.allcmatched = true)
    (missing : ¬ ∀ part ∈ parts, (find (getItemAtInt l part) found).isSome) :
    ∃ n, parts.foldl (fun v (i : Nat) => matchPart l found v i) v =
      { v with allcmatched := false, combisofar := [], lowest_occurrences := n } := by
  induction parts generalizing v with
  | nil => simp at missing
  | cons part parts ih =>
    rw [List.foldl_cons]
    cases here : find (getItemAtInt l part) found with
    | none =>
      refine ⟨v.lowest_occurrences, ?_⟩
      have step : matchPart l found v part = { v with allcmatched := false, combisofar := [] } := by
        simp [matchPart, clean, here]
      rw [step, unmatched_parts parts rfl]
    | some entry =>
      have later : ¬ ∀ p ∈ parts, (find (getItemAtInt l p) found).isSome := by
        simpa [here] using missing
      have step : matchPart l found v part = { v with
          combisofar := (matchPart l found v part).combisofar
          lowest_occurrences := (matchPart l found v part).lowest_occurrences } := by
        simp [matchPart, clean, here]
      obtain ⟨n, rest⟩ := ih (v := matchPart l found v part) (by rw [step]; exact clean) later
      exact ⟨n, by rw [rest, step]⟩

variable (s now l found)

def afterChain (v : Locals) (c : Chain) : Locals :=
  let walked := c.parts.foldl (fun v (i : Nat) => matchPart l found v i) v
  if satisfied l found c then
    if checkTimeAtD now l c.time then
      if c.type = 1 then combinationWeighting s l c.weight c.cat walked
      else combinationBanned l c.cat walked
    else { walked with combisofar := [] }
  else { walked with allcmatched := true, lowest_occurrences := 0 }

theorem combiLoop_chain {c : Chain} (typed : c.type = -1 ∨ c.type = 0 ∨ c.type = 1)
    (rest : List Int) {v : Locals} (clean : v.allcmatched = true) :
    if active now l found c ∧ c.type = -1 then
      ∃ phrase categories,
        combiLoop s now l found (c.encode ++ rest) v = some (.exception phrase categories true)
    else combiLoop s now l found (c.encode ++ rest) v =
      combiLoop s now l found rest (afterChain s now l found v c) := by
  rw [Chain.encode, List.append_assoc, combiLoop_parts, afterChain]
  by_cases all : satisfied l found c
  · obtain ⟨sofar, walked⟩ := satisfied_parts c.parts clean (by simpa [satisfied] using all)
    rw [walked, combiLoop.eq_def]
    by_cases inTime : checkTimeAtD now l c.time
    · rcases typed with exception | banned | weighted
      · simp [active, clean, all, inTime, exception]
      · simp [active, clean, all, inTime, banned]
      · simp [active, clean, all, inTime, weighted]
    · simp [active, clean, all, inTime]
  · obtain ⟨n, walked⟩ := unsatisfied_parts c.parts clean (by simpa [satisfied] using all)
    rw [walked, combiLoop.eq_def]
    simp [active, all]

theorem afterChain_clean {v : Locals} (clean : v.allcmatched = true) (c : Chain) :
    (afterChain s now l found v c).allcmatched = true := by
  unfold afterChain
  by_cases all : satisfied l found c
  · obtain ⟨sofar, walked⟩ := satisfied_parts c.parts clean (by simpa [satisfied] using all)
    simp only [walked, all, ↓reduceIte]
    split
    · split <;> simpa [combinationWeighting, combinationBanned] using clean
    · exact clean
  · simp [all]

/-- The loop over a list of whole chains is a fold over them unless an exception is met. -/
theorem combiLoop_chains {cs : List Chain} (typed : ∀ c ∈ cs, c.type = -1 ∨ c.type = 0 ∨ c.type = 1)
    {v : Locals} (clean : v.allcmatched = true) :
    if ∃ c ∈ cs, active now l found c ∧ c.type = -1 then
      ∃ phrase categories, combiLoop s now l found (cs.flatMap Chain.encode) v =
        some (.exception phrase categories true)
    else combiLoop s now l found (cs.flatMap Chain.encode) v =
      some (.finished (cs.foldl (afterChain s now l found) v)) := by
  induction cs generalizing v with
  | nil => simp [combiLoop]
  | cons c cs ih =>
    rw [List.flatMap_cons, List.foldl_cons]
    have head := combiLoop_chain s now l found (typed c List.mem_cons_self)
      (cs.flatMap Chain.encode) clean
    by_cases here : active now l found c ∧ c.type = -1
    · rw [if_pos ⟨c, List.mem_cons_self, here⟩]
      rwa [if_pos here] at head
    · rw [if_neg here] at head
      have tail := ih (fun d member => typed d (List.mem_cons_of_mem _ member))
        (afterChain_clean s now l found clean c)
      rw [head]
      simpa [here] using tail

/-- Between two chains only the count of the satisfied chains right before is carried on. -/
structure Carried (run : List Nat) (v : Locals) : Prop where
  clean : v.allcmatched = true
  lowest_eq : v.lowest_occurrences = lowest run
  positive : ∀ n ∈ run, 0 < n

def runAfter (run : List Nat) (c : Chain) : List Nat :=
  if satisfied l found c then run ++ partCounts l found c else []

variable {s now l found}

theorem partCounts_positive (counted : ∀ e ∈ found, 0 < e.2.2) {c : Chain}
    (all : satisfied l found c) : ∀ n ∈ partCounts l found c, 0 < n := by
  intro n member
  obtain ⟨part, inParts, rfl⟩ := List.mem_map.mp member
  obtain ⟨entry, here⟩ := Option.isSome_iff_exists.mp (List.all_eq_true.mp all part inParts)
  rw [occurrencesOf, here]
  exact counted _ (mem_of_find here)

theorem Carried.walked (counted : ∀ e ∈ found, 0 < e.2.2) {run : List Nat} {v : Locals}
    (carried : Carried run v) {c : Chain} (all : satisfied l found c) :
    ∃ sofar, c.parts.foldl (fun v (i : Nat) => matchPart l found v i) v = { v with
      combisofar := sofar
      lowest_occurrences := lowest (run ++ partCounts l found c) } := by
  obtain ⟨sofar, walked⟩ := satisfied_parts c.parts carried.clean (by simpa [satisfied] using all)
  refine ⟨sofar, ?_⟩
  rw [walked, carried.lowest_eq, ← partCounts, foldl_carry]
  intro n member
  rcases List.mem_append.mp member with before | here
  · exact carried.positive n before
  · exact partCounts_positive counted all n here

theorem afterChain_eq (counted : ∀ e ∈ found, 0 < e.2.2) {run : List Nat} {v : Locals}
    (carried : Carried run v) (c : Chain) :
    ∃ sofar, afterChain s now l found v c =
      let matched : Locals := { v with
        combisofar := sofar
        lowest_occurrences := lowest (runAfter l found run c) }
      if active now l found c then
        if c.type = 1 then combinationWeighting s l c.weight c.cat matched
        else combinationBanned l c.cat matched
      else { matched with combisofar := [] } := by
  unfold afterChain active runAfter
  by_cases all : satisfied l found c
  · obtain ⟨sofar, walked⟩ := carried.walked counted all
    refine ⟨sofar, ?_⟩
    rw [walked]
    simp [all]
  · obtain ⟨n, walked⟩ := unsatisfied_parts c.parts carried.clean (by simpa [satisfied] using all)
    refine ⟨[], ?_⟩
    rw [walked]
    simp [all, lowest, carried.clean]

theorem afterChain_carried (counted : ∀ e ∈ found, 0 < e.2.2) {run : List Nat} {v : Locals}
    (carried : Carried run v) (c : Chain) :
    Carried (runAfter l found run c) (afterChain s now l found v c) := by
  refine ⟨afterChain_clean s now l found carried.clean c, ?_, ?_⟩
  · obtain ⟨sofar, effect⟩ := afterChain_eq (s := s) (v := v) counted carried c
    rw [effect]
    split
    · split <;> simp [combinationWeighting, combinationBanned]
    · rfl
  · unfold runAfter
    split
    · rename_i all
      intro n member
      rcases List.mem_append.mp member with before | here
      · exact carried.positive n before
      · exact partCounts_positive counted all n here
    · simp

theorem afterChain_weighting (counted : ∀ e ∈ found, 0 < e.2.2) {run : List Nat} {v : Locals}
    (carried : Carried run v) (c : Chain) {w : Int} (sofar : v.weighting = int32 w) :
    (afterChain s now l found v c).weighting = int32 (w +
      if active now l found c ∧ c.type = 1 then
        c.weight * times s (lowest (run ++ partCounts l found c)) else 0) := by
  obtain ⟨text, effect⟩ := afterChain_eq (s := s) counted carried c
  rw [effect]
  by_cases inForce : active now l found c
  · have all : satisfied l found c := by
      simp only [active, Bool.and_eq_true] at inForce
      exact inForce.1
    by_cases weighted : c.type = 1
    · simp [inForce, weighted, combinationWeighting, runAfter, all, sofar]
    · simp [inForce, weighted, combinationBanned, sofar]
  · simp [inForce, sofar]

theorem chains_weighting (counted : ∀ e ∈ found, 0 < e.2.2) (cs : List Chain) {run : List Nat}
    {v : Locals} (carried : Carried run v) {w : Int} (sofar : v.weighting = int32 w) :
    (cs.foldl (afterChain s now l found) v).weighting =
      int32 (w + (cs.map (chainWeight s now l found)).sum -
        if s.weighted_phrase_mode = 2 then 0 else undercut now l found run cs) := by
  induction cs generalizing run v w with
  | nil => simp [undercut, sofar]
  | cons c cs ih =>
    rw [List.foldl_cons, ih (afterChain_carried counted carried c)
      (afterChain_weighting counted carried c sofar), List.map_cons, List.sum_cons, undercut, ← runAfter]
    congr 1
    by_cases mode : s.weighted_phrase_mode = 2
    · simp only [mode, ↓reduceIte, chainWeight, times]
      ring
    · simp only [mode, ↓reduceIte, chainWeight, times]
      split
      · ring
      · ring

theorem afterChain_banned (counted : ∀ e ∈ found, 0 < e.2.2) {run : List Nat} {v : Locals}
    (carried : Carried run v) {c : Chain} (typed : c.type = -1 ∨ c.type = 0 ∨ c.type = 1)
    (noException : ¬ (active now l found c ∧ c.type = -1)) :
    (afterChain s now l found v c).bannedcombi =
      (v.bannedcombi || (active now l found c && decide (c.type = 0))) := by
  obtain ⟨sofar, effect⟩ := afterChain_eq (s := s) counted carried c
  rw [effect]
  by_cases inForce : active now l found c
  · rcases typed with exception | banned | weighted
    · exact absurd ⟨inForce, exception⟩ noException
    · simp [inForce, banned, combinationBanned]
    · simp [inForce, weighted, combinationWeighting]
  · simp [inForce]

theorem chains_banned (counted : ∀ e ∈ found, 0 < e.2.2) {cs : List Chain}
    (typed : ∀ c ∈ cs, c.type = -1 ∨ c.type = 0 ∨ c.type = 1)
    (noException : ¬ ∃ c ∈ cs, active now l found c ∧ c.type = -1) {run : List Nat} {v : Locals}
    (carried : Carried run v) :
    (cs.foldl (afterChain s now l found) v).bannedcombi =
      (v.bannedcombi || cs.any fun c => active now l found c && decide (c.type = 0)) := by
  induction cs generalizing run v with
  | nil => simp
  | cons c cs ih =>
    rw [List.foldl_cons, ih (fun d member => typed d (List.mem_cons_of_mem _ member))
        (fun ⟨d, member, exception⟩ => noException ⟨d, List.mem_cons_of_mem _ member, exception⟩)
        (afterChain_carried counted carried c),
      afterChain_banned counted carried (typed c List.mem_cons_self)
        (fun exception => noException ⟨c, List.mem_cons_self, exception⟩),
      List.any_cons, Bool.or_assoc]

theorem chains_isItNaughty (counted : ∀ e ∈ found, 0 < e.2.2) (cs : List Chain) {run : List Nat}
    {v : Locals} (carried : Carried run v) :
    (cs.foldl (afterChain s now l found) v).isItNaughty = v.isItNaughty := by
  induction cs generalizing run v with
  | nil => rfl
  | cons c cs ih =>
    rw [List.foldl_cons, ih (afterChain_carried counted carried c)]
    obtain ⟨sofar, effect⟩ := afterChain_eq (s := s) counted carried c
    rw [effect]
    split
    · split <;> rfl
    · rfl

end Chains

section Singles
variable (s : Settings) (now : Clock) (l : PhraseList)

/-- The locals after a found phrase that is no exception in force. -/
def afterSingle (v : Locals) (e : Str × Nat × Nat) : Locals :=
  match singleOf now l 0 e with
  | some item => singleBanned l e.1 item v
  | none =>
    match singleOf now l 1 e with
    | some item => singleWeighted s l e.1 e.2.2 item v
    | none => v

variable {l}

theorem foundLoop_single {e : Str × Nat × Nat} (indexed : (l.items[e.2.1]?).isSome)
    (rest : List (Str × Nat × Nat)) (v : Locals) :
    if (singleOf now l (-1) e).isSome then
      ∃ phrase categories, foundLoop s now l (e :: rest) v = some (.exception phrase categories false)
    else foundLoop s now l (e :: rest) v = foundLoop s now l rest (afterSingle s now l v e) := by
  obtain ⟨item, here⟩ := Option.isSome_iff_exists.mp indexed
  obtain ⟨text, index, occurrences⟩ := e
  simp only [singleOf, afterSingle, foundLoop, here, Option.filter_some, Bool.and_eq_true,
    decide_eq_true_eq]
  by_cases inTime : checkTimeAt now l item
  · by_cases banned : item.type = 0
    · simp [inTime, banned]
    · by_cases weighted : item.type = 1
      · simp [inTime, weighted]
      · by_cases exception : item.type = -1
        · simp [inTime, exception]
        · simp [inTime, banned, weighted, exception]
  · simp [inTime]

theorem foundLoop_singles {entries : List (Str × Nat × Nat)}
    (indexed : ∀ e ∈ entries, (l.items[e.2.1]?).isSome) (v : Locals) :
    if ∃ e ∈ entries, (singleOf now l (-1) e).isSome then
      ∃ phrase categories, foundLoop s now l entries v = some (.exception phrase categories false)
    else foundLoop s now l entries v =
      some (.finished (entries.foldl (afterSingle s now l) v)) := by
  induction entries generalizing v with
  | nil => simp [foundLoop]
  | cons e entries ih =>
    have head := foundLoop_single s now (indexed e List.mem_cons_self) entries v
    by_cases here : (singleOf now l (-1) e).isSome
    · rw [if_pos ⟨e, List.mem_cons_self, here⟩]
      rwa [if_pos here] at head
    · rw [if_neg here] at head
      have tail := ih (fun d member => indexed d (List.mem_cons_of_mem _ member))
        (afterSingle s now l v e)
      rw [head, List.foldl_cons]
      simpa only [List.mem_cons, exists_eq_or_imp, here, Bool.false_eq_true, false_or] using tail

variable {s now}

theorem singleOf_unique {type other : Int} {e : Str × Nat × Nat}
    (single : (singleOf now l type e).isSome) (differ : type ≠ other) :
    singleOf now l other e = none := by
  obtain ⟨item, here⟩ := Option.isSome_iff_exists.mp single
  cases there : singleOf now l other e with
  | none => rfl
  | some item' =>
    simp only [singleOf, Option.filter_eq_some_iff, Bool.and_eq_true, decide_eq_true_eq] at here there
    obtain rfl : item = item' := Option.some.inj (here.1.symm.trans there.1)
    exact absurd (here.2.2.symm.trans there.2.2) differ

theorem singles_weighting (entries : List (Str × Nat × Nat)) (v : Locals) {w : Int} (sofar : v.weighting = int32 w) :
    (entries.foldl (afterSingle s now l) v).weighting =
      int32 (w + (entries.map (singleWeight s now l)).sum) := by
  induction entries generalizing v w with
  | nil => simp [sofar]
  | cons e entries ih =>
    have step : (afterSingle s now l v e).weighting = int32 (w + singleWeight s now l e) := by
      unfold afterSingle singleWeight
      cases banned : singleOf now l 0 e with
      | some item =>
        rw [singleOf_unique (by rw [banned]; rfl) (by decide : (0 : Int) ≠ 1)]
        simp only [singleBanned, Option.map_none, Option.getD_none, Int.add_zero]
        split
        · exact sofar
        · exact sofar
      | none =>
        cases singleOf now l 1 e with
        | none => simp [sofar]
        | some item => simp [singleWeighted, sofar]
    rw [List.foldl_cons, ih _ step, List.map_cons, List.sum_cons, Int.add_assoc]

theorem singles_naughty (entries : List (Str × Nat × Nat)) (v : Locals) :
    let v' := entries.foldl (afterSingle s now l) v
    v'.bannedcombi = v.bannedcombi ∧ v'.isItNaughty = (v.isItNaughty ||
      (!v.bannedcombi && entries.any fun e => (singleOf now l 0 e).isSome)) := by
  induction entries generalizing v with
  | nil => simp
  | cons e entries ih =>
    have step : (afterSingle s now l v e).bannedcombi = v.bannedcombi ∧
        (afterSingle s now l v e).isItNaughty =
          (v.isItNaughty || (!v.bannedcombi && (singleOf now l 0 e).isSome)) := by
      unfold afterSingle
      cases singleOf now l 0 e with
      | some item =>
        unfold singleBanned
        cases combi : v.bannedcombi <;> simp [combi]
      | none =>
        cases singleOf now l 1 e with
        | none => simp
        | some item => simp [singleWeighted]
    rw [List.foldl_cons, List.any_cons]
    obtain ⟨sameCombi, naughty⟩ := ih (afterSingle s now l v e)
    refine ⟨sameCombi.trans step.1, ?_⟩
    rw [naughty, step.1, step.2]
    cases v.isItNaughty <;> cases v.bannedcombi <;> simp

end Singles

section Whole
variable (s : Settings) (now : Clock) {l : PhraseList} (found : FoundMap l)

instance : Decidable (exceptionFound now l found.entries) :=
  inferInstanceAs (Decidable (_ ∨ _))

instance : Decidable (bannedFound now l found.entries) :=
  inferInstanceAs (Decidable (_ ∨ _))

/-- The locals at the end of both loops when there is no exception. -/
def endLocals (isItNaughty : Bool) (cat : Int) : Locals :=
  found.entries.foldl (afterSingle s now l)
    ((chains l).foldl (afterChain s now l found.entries) (startLocals isItNaughty cat))

theorem startLocals_carried (isItNaughty : Bool) (cat : Int) :
    Carried [] (startLocals isItNaughty cat) := ⟨rfl, rfl, by simp⟩

/-- Both loops end, with an exception exactly if one is found. -/
theorem scanPhrases_eq (loaded : Loaded l) (isItNaughty : Bool) (cat : Int) :
    if exceptionFound now l found.entries then
      ∃ phrase categories combination, scanPhrases s now l found.entries isItNaughty cat =
        some (.exception phrase categories combination)
    else scanPhrases s now l found.entries isItNaughty cat =
      some (.finished (endLocals s now found isItNaughty cat)) := by
  have combis := combiLoop_chains s now l found.entries (fun c => loaded.chain_type)
    (startLocals_carried isItNaughty cat).clean
  rw [← loaded.combilist_eq] at combis
  have indexed : ∀ e ∈ found.entries, (l.items[e.2.1]?).isSome := by
    intro e member
    have here := found.indexed e member
    cases item : l.items[e.2.1]? with
    | none => simp [item] at here
    | some item => rfl
  unfold scanPhrases
  by_cases exception : ∃ c ∈ chains l, active now l found.entries c ∧ c.type = -1
  · rw [if_pos exception] at combis
    obtain ⟨phrase, categories, stopped⟩ := combis
    rw [if_pos (.inl exception)]
    exact ⟨phrase, categories, true, by rw [stopped]⟩
  · rw [if_neg exception] at combis
    have singles := foundLoop_singles s now indexed
      ((chains l).foldl (afterChain s now l found.entries) (startLocals isItNaughty cat))
    rw [combis]
    by_cases single : ∃ e ∈ found.entries, (singleOf now l (-1) e).isSome
    · rw [if_pos single] at singles
      obtain ⟨phrase, categories, stopped⟩ := singles
      rw [if_pos (.inr single)]
      exact ⟨phrase, categories, false, stopped⟩
    · rw [if_neg single] at singles
      rw [if_neg (by rintro (combi | one); exacts [exception combi, single one])]
      exact singles

theorem endLocals_weighting (isItNaughty : Bool) (cat : Int) :
    (endLocals s now found isItNaughty cat).weighting = weighed s now l found.entries := by
  rw [endLocals, singles_weighting _ _ (chains_weighting found.counted _
    (startLocals_carried isItNaughty cat) (w := 0) rfl), weighed, totalWeight, shortfall]
  congr 1
  ring

/-- The total weight is that of its definition exactly if it is an int, and nothing is lost in all
to the counts of neighbouring chains. -/
theorem total_weight_iff_not_undercut (loaded : Loaded l) (isItNaughty : Bool) (cat : Int) :
    ∃ scan, scanPhrases s now l found.entries isItNaughty cat = some scan ∧
      ∀ v, scan = .finished v →
        (v.weighting = totalWeight s now l found.entries ↔
          FitsInt (totalWeight s now l found.entries) ∧
            (s.weighted_phrase_mode = 2 ∨ (2 ^ 32 : Int) ∣ undercut now l found.entries [] (chains l))) := by
  have outcome := scanPhrases_eq s now found loaded isItNaughty cat
  split at outcome
  · obtain ⟨phrase, categories, combination, stopped⟩ := outcome
    exact ⟨_, stopped, by simp⟩
  · refine ⟨_, outcome, ?_⟩
    rintro v ⟨rfl⟩
    have lost : (2 ^ 32 : Int) ∣ shortfall s now l found.entries ↔
        s.weighted_phrase_mode = 2 ∨ (2 ^ 32 : Int) ∣ undercut now l found.entries [] (chains l) := by
      unfold shortfall
      split
      · simp [*]
      · simp [*]
    rw [endLocals_weighting, weighed, ← lost, int32_sub_eq_iff]

theorem weightVerdict_flags (limit : Int) (searchterms : Bool) (filter : Verdict) (v : Locals) :
    (weightVerdict s limit searchterms filter v).isException = filter.isException ∧
      (weightVerdict s limit searchterms filter v).isItNaughty =
        (filter.isItNaughty || decide (v.weighting > limit)) ∧
      (weightVerdict s limit searchterms filter v).naughtiness = filter.naughtiness := by
  unfold weightVerdict
  by_cases above : v.weighting > limit
  · simp [above]
  · cases s.show_all_weighted_found <;> simp [above]

theorem finalVerdict_flags (limit : Int) (searchterms : Bool) (filter : Verdict) (v : Locals) :
    (finalVerdict s limit searchterms filter v).isException = filter.isException ∧
      (finalVerdict s limit searchterms filter v).isItNaughty =
        (v.bannedcombi || v.isItNaughty || decide (v.weighting > limit)) ∧
      (finalVerdict s limit searchterms filter v).naughtiness =
        storeNaughtiness filter.naughtiness v.weighting := by
  unfold finalVerdict
  cases combi : v.bannedcombi
  · cases naughty : v.isItNaughty
    · simp [weightVerdict_flags]
    · simp
  · simp

theorem endLocals_banned (loaded : Loaded l) (cat : Int)
    (noException : ¬ exceptionFound now l found.entries) :
    ((endLocals s now found false cat).bannedcombi ||
      (endLocals s now found false cat).isItNaughty) = true ↔ bannedFound now l found.entries := by
  have carried := startLocals_carried false cat
  simp only [endLocals, bannedFound]
  rw [(singles_naughty _ _).1, (singles_naughty _ _).2, chains_isItNaughty found.counted _ carried,
    chains_banned found.counted (fun c => loaded.chain_type)
      (fun exception => noException (.inl exception)) carried]
  simp only [startLocals, Bool.false_or, Bool.or_eq_true, Bool.and_eq_true, Bool.not_eq_true',
    List.any_eq_true, decide_eq_true_eq]
  constructor
  · rintro (combination | ⟨-, single⟩)
    · exact .inl combination
    · exact .inr single
  · rintro (combination | single)
    · exact .inl combination
    · -- a banned phrase is only noted when there is no banned combination
      cases combi : (chains l).any fun c => active now l found.entries c && decide (c.type = 0) with
      | true =>
        exact .inl (by simpa only [List.any_eq_true, Bool.and_eq_true, decide_eq_true_eq] using combi)
      | false => exact .inr ⟨rfl, single⟩

-- Two combinations, and a page that has each part of the first once and of the second five times.
def scarceThenFrequent : PhraseList :=
  load [.phrases (str "<aa>,<bb><1>") false (-1) (-1) 100,
    .phrases (str "<cc>,<dd><10>") false (-1) (-1) 100]

def frequentThenScarce : PhraseList :=
  load [.phrases (str "<cc>,<dd><10>") false (-1) (-1) 100,
    .phrases (str "<aa>,<bb><1>") false (-1) (-1) 100]

def scarceFirstFound : FoundMap scarceThenFrequent where
  entries := [(str "aa", 0, 1), (str "bb", 1, 1), (str "cc", 2, 5), (str "dd", 3, 5)]
  distinct := by decide
  indexed := by decide
  counted := by decide

def frequentFirstFound : FoundMap frequentThenScarce where
  entries := [(str "aa", 2, 1), (str "bb", 3, 1), (str "cc", 0, 5), (str "dd", 1, 5)]
  distinct := by decide
  indexed := by decide
  counted := by decide

def everyOccurrence : Settings := ⟨1, 0, true, false, fun _ => []⟩

theorem total_weight_of_falling_counts :
    ∃ scan, scanPhrases everyOccurrence noon frequentThenScarce frequentFirstFound.entries false 0 =
        some scan ∧
      ∀ v, scan = .finished v → v.weighting =
        totalWeight everyOccurrence noon frequentThenScarce frequentFirstFound.entries := by
  obtain ⟨scan, ran, weight⟩ := total_weight_iff_not_undercut everyOccurrence noon
    frequentFirstFound ⟨_, rfl⟩ false 0
  exact ⟨scan, ran, fun v done => (weight v done).mpr ⟨by decide, .inr (by decide)⟩⟩

theorem total_weight_lost_to_chain_before :
    ¬ ∀ (s : Settings) (now : Clock) (l : PhraseList) (found : FoundMap l), Loaded l →
      ∀ (isItNaughty : Bool) (cat : Int) (v : Locals),
        scanPhrases s now l found.entries isItNaughty cat = some (.finished v) →
        v.weighting = totalWeight s now l found.entries := by
  intro always
  have ran := scanPhrases_eq everyOccurrence noon scarceFirstFound
    ⟨_, rfl⟩ false 0
  rw [if_neg (by decide)] at ran
  have weight := always everyOccurrence noon scarceThenFrequent scarceFirstFound
    ⟨_, rfl⟩ false 0 _ ran
  revert weight
  decide

def FlagsExact (s : Settings) (now : Clock) (l : PhraseList) (found : List (Str × Nat × Nat))
    (limit : Int) (verdict : Verdict) : Prop :=
  (exceptionFound now l found → verdict.isException = true ∧ verdict.isItNaughty = false) ∧
    (¬ exceptionFound now l found → verdict.isException = false ∧ (verdict.isItNaughty = true ↔
      bannedFound now l found ∨ totalWeight s now l found > limit))

/-- The flags are those of the definition exactly if an exception or a ban decides, or the
limit does not stand between the weight and what an int and the undercut counts leave of it. -/
theorem verdict_iff_limit_not_between (loaded : Loaded l) (limit : Int) (searchterms : Bool)
    (filter : Verdict) (cat : Int) (fresh : filter.isItNaughty = false)
    (noException : filter.isException = false) :
    ∃ verdict, scorePhrases s limit searchterms filter now l found.entries cat = some verdict ∧
      (FlagsExact s now l found.entries limit verdict ↔
        exceptionFound now l found.entries ∨ bannedFound now l found.entries ∨
          (totalWeight s now l found.entries > limit ↔
            int32 (totalWeight s now l found.entries - shortfall s now l found.entries) > limit)) := by
  have outcome := scanPhrases_eq s now found loaded false cat
  unfold scorePhrases
  rw [fresh]
  split at outcome
  · rename_i exception
    obtain ⟨phrase, categories, combination, stopped⟩ := outcome
    rw [stopped]
    exact ⟨_, rfl, by simp [FlagsExact, exception, exceptionVerdict]⟩
  · rename_i none
    rw [outcome]
    refine ⟨_, rfl, ?_⟩
    have flags := finalVerdict_flags s limit searchterms filter (endLocals s now found false cat)
    have banned := endLocals_banned s now found loaded cat none
    have weight := endLocals_weighting s now found false cat
    simp only [FlagsExact, none, false_implies, not_false_eq_true, true_implies, false_or, flags.1,
      flags.2.1, noException, true_and]
    rw [Bool.or_eq_true, banned, weight]
    simp only [decide_eq_true_eq]
    by_cases ban : bannedFound now l found.entries
    · simp [ban]
    · simp only [ban, false_or]
      exact Iff.comm

def clearVerdict : Verdict := ⟨false, false, 0, false, 0, 0, [], [], [], []⟩

theorem verdict_of_high_limit :
    ∃ verdict, scorePhrases everyOccurrence 100 false clearVerdict noon scarceThenFrequent
        scarceFirstFound.entries 0 = some verdict ∧
      FlagsExact everyOccurrence noon scarceThenFrequent scarceFirstFound.entries 100 verdict := by
  obtain ⟨verdict, scored, flags⟩ := verdict_iff_limit_not_between everyOccurrence noon
    scarceFirstFound ⟨_, rfl⟩ 100 false clearVerdict 0 rfl rfl
  have notBetween : totalWeight everyOccurrence noon scarceThenFrequent scarceFirstFound.entries > 100 ↔
      int32 (totalWeight everyOccurrence noon scarceThenFrequent scarceFirstFound.entries -
        shortfall everyOccurrence noon scarceThenFrequent scarceFirstFound.entries) > 100 := by decide
  exact ⟨verdict, scored, flags.mpr (.inr (.inr notBetween))⟩

theorem verdict_missed_by_chain_before :
    ¬ ∀ (s : Settings) (now : Clock) (l : PhraseList) (found : FoundMap l), Loaded l →
      ∀ (limit : Int) (searchterms : Bool) (filter verdict : Verdict) (cat : Int),
        filter.isItNaughty = false → filter.isException = false →
        scorePhrases s limit searchterms filter now l found.entries cat = some verdict →
        FlagsExact s now l found.entries limit verdict := by
  intro always
  have ran := scanPhrases_eq everyOccurrence noon scarceFirstFound
    ⟨_, rfl⟩ false 0
  rw [if_neg (by decide)] at ran
  have flags := always everyOccurrence noon scarceThenFrequent scarceFirstFound
    ⟨_, rfl⟩ 20 false clearVerdict _ 0 rfl rfl
    (congrArg (Option.map _) ran)
  have naughty := (flags.2 (by decide)).2.mpr (.inr (by decide))
  revert naughty
  decide

end Whole

end GuardianScoring
