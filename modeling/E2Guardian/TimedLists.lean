import E2Guardian.Scoring

/- A phrase list at a given time, and the list that the reader makes of the same files when it
   stores only the lines whose time limit contains that time. Both readings go through the
   files in step. -/
namespace GuardianTimedLists
open GuardianString GuardianTime GuardianPhraseList GuardianScoring

def inTime (now : Clock) (l : PhraseList) (timeindex : Int) : Bool := checkTimeAtD now l timeindex

/-- A time index that no later line can change. -/
def Settled (l : PhraseList) (time : Int) : Prop :=
  time = -1 ∨ (0 ≤ time ∧ time.toNat < l.timelimits.length ∧ l.istimelimited = true)

structure Grows (l l' : PhraseList) : Prop where
  limits : l.timelimits <+: l'.timelimits
  limited : l.istimelimited = true → l'.istimelimited = true

theorem Grows.refl (l : PhraseList) : Grows l l := ⟨List.prefix_refl _, id⟩

theorem Grows.trans {l l' l'' : PhraseList} (first : Grows l l') (second : Grows l' l'') : Grows l l'' :=
  ⟨first.limits.trans second.limits, fun limited => second.limited (first.limited limited)⟩

theorem Settled.grow {l l' : PhraseList} {time : Int} (settled : Settled l time) (grows : Grows l l') :
    Settled l' time := by
  rcases settled with untimed | ⟨low, high, limited⟩
  · exact .inl untimed
  · exact .inr ⟨low, high.trans_le grows.limits.length_le, grows.limited limited⟩

theorem Settled.check_eq {l l' : PhraseList} {time : Int} (settled : Settled l time) (grows : Grows l l')
    (now : Clock) : checkTimeAtD now l' time = checkTimeAtD now l time := by
  rcases settled with untimed | ⟨low, high, limited⟩
  · simp [checkTimeAtD, untimed]
  · have same : l'.timelimits[time.toNat]? = l.timelimits[time.toNat]? := by
      obtain ⟨more, appended⟩ := grows.limits
      rw [← appended, List.getElem?_append_left high]
    simp only [checkTimeAtD, grows.limited limited, limited, same]

/- A combination with the texts of its parts in place of their numbers. -/
structure TextChain where
  parts : List Str
  type : Int
  time : Int
  weight : Int
  cat : Int

def chainTexts (l : PhraseList) (c : Chain) : TextChain :=
  ⟨c.parts.map (getItemAtInt l), c.type, c.time, c.weight, c.cat⟩

/-- The second list holds the lines of the first that are in time, in the same order. -/
structure Filtered (now : Clock) (l lt : PhraseList) : Prop where
  loaded : Loaded l
  loadedPart : Loaded lt
  categories : lt.listcategory = l.listcategory
  limits : lt.timelimits = l.timelimits
  limited : lt.istimelimited = l.istimelimited
  items : lt.items = l.items.filter (checkTimeAt now l)
  combinations : (chains lt).map (chainTexts lt) =
    ((chains l).filter fun c => checkTimeAtD now l c.time).map (chainTexts l)
  itemTimes : ∀ item ∈ l.items, Settled l item.time
  chainTimes : ∀ c ∈ chains l, Settled l c.time
  parts : ∀ c ∈ chains l, ∀ part ∈ c.parts, part < l.items.length
  partsOf : ∀ c ∈ chains lt, ∀ part ∈ c.parts, part < lt.items.length

theorem Filtered.empty (now : Clock) : Filtered now .empty .empty where
  loaded := ⟨[], rfl⟩
  loadedPart := ⟨[], rfl⟩
  categories := rfl
  limits := rfl
  limited := rfl
  items := rfl
  combinations := rfl
  itemTimes _ member := by cases member
  chainTimes _ member := by cases member
  parts _ member := by cases member
  partsOf _ member := by cases member

theorem Loaded.step_chains {l : PhraseList} (loaded : Loaded l) (step : Step) :
    chains (step.apply l) = chains l ++ (step.chain? l).toList := by
  obtain ⟨steps, rfl⟩ := loaded
  rw [← load_append, GuardianPhraseList.step_chains]

theorem Filtered.check_eq {now : Clock} {l lt : PhraseList} (filtered : Filtered now l lt) (time : Int) :
    checkTimeAtD now lt time = checkTimeAtD now l time := by
  rw [checkTimeAtD, checkTimeAtD, filtered.limits, filtered.limited]

/- What a phrase line adds. -/
section Line
variable (l : PhraseList) (line : Str) (isexception : Bool) (catindex timeindex nlimit : Int)

def lineItems : List PhraseItem :=
  (lineTexts line nlimit).map fun s =>
    ⟨s, if isCombination (linePhrases line nlimit) then
        lineType (lineWeighting line nlimit) isexception + 11
      else lineType (lineWeighting line nlimit) isexception,
      lineWeighting line nlimit, catindex, timeindex⟩

def lineChain : TextChain :=
  ⟨lineTexts line nlimit, lineType (lineWeighting line nlimit) isexception, timeindex,
    lineWeighting line nlimit, catindex⟩

theorem line_items :
    (readPhraseListHelper l line isexception catindex timeindex nlimit).items =
      l.items ++ lineItems line isexception catindex timeindex nlimit := by
  rw [readPhraseListHelper_eq]
  rfl

theorem line_limits :
    (readPhraseListHelper l line isexception catindex timeindex nlimit).timelimits = l.timelimits ∧
      (readPhraseListHelper l line isexception catindex timeindex nlimit).istimelimited =
        l.istimelimited ∧
      (readPhraseListHelper l line isexception catindex timeindex nlimit).listcategory =
        l.listcategory := by
  rw [readPhraseListHelper_eq]
  exact ⟨rfl, rfl, rfl⟩

end Line

theorem getItemAtInt_append {l l' : PhraseList} {more : List PhraseItem} (added : l'.items = l.items ++ more)
    {part : Nat} (old : part < l.items.length) : getItemAtInt l' part = getItemAtInt l part := by
  rw [getItemAtInt, getItemAtInt, added, List.getElem?_append_left old]

theorem chainTexts_append {l l' : PhraseList} {more : List PhraseItem} (added : l'.items = l.items ++ more)
    {c : Chain} (parts : ∀ part ∈ c.parts, part < l.items.length) : chainTexts l' c = chainTexts l c := by
  have same : c.parts.map (getItemAtInt l') = c.parts.map (getItemAtInt l) :=
    List.map_congr_left fun part member => getItemAtInt_append added (parts part member)
  rw [chainTexts, chainTexts, same]

theorem range_texts {l l' : PhraseList} {more : List PhraseItem} (added : l'.items = l.items ++ more) :
    (List.range' l.items.length more.length).map (getItemAtInt l') = more.map PhraseItem.text := by
  apply List.ext_getElem
  · simp
  · intro i low high
    have inside : i < more.length := by simpa using high
    have there : l'.items[l.items.length + i]? = some more[i] := by
      rw [added, List.getElem?_append_right (by omega)]
      simp [inside]
    simp [getItemAtInt, there]

theorem check_congr {l l' : PhraseList} (limits : l'.timelimits = l.timelimits)
    (limited : l'.istimelimited = l.istimelimited) (now : Clock) :
    checkTimeAtD now l' = checkTimeAtD now l := by
  funext time
  rw [checkTimeAtD, checkTimeAtD, limits, limited]

theorem settled_congr {l l' : PhraseList} (limits : l'.timelimits = l.timelimits)
    (limited : l'.istimelimited = l.istimelimited) (time : Int) : Settled l' time ↔ Settled l time := by
  rw [Settled, Settled, limits, limited]

theorem lineItems_time {line : Str} {isexception : Bool} {catindex timeindex nlimit : Int}
    {item : PhraseItem} (member : item ∈ lineItems line isexception catindex timeindex nlimit) :
    item.time = timeindex := by
  obtain ⟨text, -, rfl⟩ := List.mem_map.mp member
  rfl

theorem lineItems_filter (now : Clock) (l : PhraseList) (line : Str) (isexception : Bool)
    (catindex timeindex nlimit : Int) :
    (lineItems line isexception catindex timeindex nlimit).filter (checkTimeAt now l) =
      if checkTimeAtD now l timeindex then lineItems line isexception catindex timeindex nlimit
      else [] := by
  split
  · rename_i now
    refine List.filter_eq_self.mpr fun item member => ?_
    rw [checkTimeAt, lineItems_time member, now]
  · rename_i late
    refine List.filter_eq_nil_iff.mpr fun item member => ?_
    rw [checkTimeAt, lineItems_time member]
    exact late

section Line
variable {l : PhraseList} (line : Str) (isexception : Bool) (catindex timeindex nlimit : Int)

theorem line_chains (loaded : Loaded l) :
    ∃ new, chains (readPhraseListHelper l line isexception catindex timeindex nlimit) = chains l ++ new ∧
      (∀ c ∈ new, c.time = timeindex) ∧
      (∀ c ∈ new, ∀ part ∈ c.parts,
        part < (readPhraseListHelper l line isexception catindex timeindex nlimit).items.length) ∧
      new.map (chainTexts (readPhraseListHelper l line isexception catindex timeindex nlimit)) =
        if isCombination (linePhrases line nlimit) then
          [lineChain line isexception catindex timeindex nlimit]
        else [] := by
  have added := line_items l line isexception catindex timeindex nlimit
  refine ⟨_, Loaded.step_chains loaded (.phrases line isexception catindex timeindex nlimit), ?_⟩
  simp only [Step.chain?]
  split
  · simp only [Option.toList_some, List.forall_mem_singleton, List.map_singleton]
    have count : (lineItems line isexception catindex timeindex nlimit).length =
        (lineTexts line nlimit).length := List.length_map _
    refine ⟨trivial, ?_, ?_⟩
    · intro part member
      rw [List.mem_range'_1] at member
      rw [added, List.length_append, count]
      exact member.2
    · have texts := range_texts added
      rw [count] at texts
      rw [chainTexts, texts, lineItems, List.map_map]
      simp [lineChain, Function.comp_def]
  · simp

end Line

theorem Filtered.extend {now : Clock} {l lt l' lt' : PhraseList} (filtered : Filtered now l lt)
    (loaded : Loaded l') (loadedPart : Loaded lt')
    (limits : l'.timelimits = l.timelimits ∧ l'.istimelimited = l.istimelimited ∧
      l'.listcategory = l.listcategory)
    (limitsPart : lt'.timelimits = lt.timelimits ∧ lt'.istimelimited = lt.istimelimited ∧
      lt'.listcategory = lt.listcategory)
    {more morePart : List PhraseItem} (items : l'.items = l.items ++ more)
    (itemsPart : lt'.items = lt.items ++ morePart) (kept : morePart = more.filter (checkTimeAt now l))
    {new newPart : List Chain} (chains_ : chains l' = chains l ++ new)
    (chainsPart : chains lt' = chains lt ++ newPart)
    (keptChains : newPart.map (chainTexts lt') =
      (new.filter fun c => checkTimeAtD now l c.time).map (chainTexts l'))
    (itemTimes : ∀ item ∈ more, Settled l item.time) (chainTimes : ∀ c ∈ new, Settled l c.time)
    (parts : ∀ c ∈ new, ∀ part ∈ c.parts, part < l'.items.length)
    (partsOf : ∀ c ∈ newPart, ∀ part ∈ c.parts, part < lt'.items.length) : Filtered now l' lt' := by
  have check := check_congr limits.1 limits.2.1 now
  have settles := settled_congr limits.1 limits.2.1
  refine ⟨loaded, loadedPart, ?_, ?_, ?_, ?_, ?_, ?_, ?_, ?_, ?_⟩
  · rw [limits.2.2, limitsPart.2.2, filtered.categories]
  · rw [limits.1, limitsPart.1, filtered.limits]
  · rw [limits.2.1, limitsPart.2.1, filtered.limited]
  · have sameCheck : checkTimeAt now l' = checkTimeAt now l := by
      funext item
      rw [checkTimeAt, checkTimeAt, check]
    rw [items, itemsPart, sameCheck, List.filter_append, filtered.items, kept]
  · have oldPart : (chains lt).map (chainTexts lt') = (chains lt).map (chainTexts lt) :=
      List.map_congr_left fun c member => chainTexts_append itemsPart (filtered.partsOf c member)
    have old : ((chains l).filter fun c => checkTimeAtD now l c.time).map (chainTexts l') =
        ((chains l).filter fun c => checkTimeAtD now l c.time).map (chainTexts l) :=
      List.map_congr_left fun c member =>
        chainTexts_append items (filtered.parts c (List.mem_of_mem_filter member))
    rw [chains_, chainsPart, check, List.filter_append, List.map_append, List.map_append, oldPart, old,
      filtered.combinations, keptChains]
  · intro item member
    rw [items, List.mem_append] at member
    exact (settles _).mpr (member.elim (filtered.itemTimes item) (itemTimes item))
  · intro c member
    rw [chains_, List.mem_append] at member
    exact (settles _).mpr (member.elim (filtered.chainTimes c) (chainTimes c))
  · intro c member part used
    rw [chains_, List.mem_append] at member
    rcases member with old | added
    · rw [items, List.length_append]
      exact (filtered.parts c old part used).trans_le (Nat.le_add_right _ _)
    · exact parts c added part used
  · intro c member part used
    rw [chainsPart, List.mem_append] at member
    rcases member with old | added
    · rw [itemsPart, List.length_append]
      exact (filtered.partsOf c old part used).trans_le (Nat.le_add_right _ _)
    · exact partsOf c added part used

/-- A phrase line, stored in the second list only if it is in time. -/
theorem Filtered.phraseLine {now : Clock} {l lt : PhraseList} (filtered : Filtered now l lt)
    (line : Str) (isexception : Bool) (catindex timeindex nlimit : Int) (settled : Settled l timeindex) :
    Filtered now (readPhraseListHelper l line isexception catindex timeindex nlimit)
      (if inTime now lt timeindex then
        readPhraseListHelper lt line isexception catindex timeindex nlimit else lt) := by
  obtain ⟨new, chains_, times, parts, texts⟩ :=
    line_chains line isexception catindex timeindex nlimit filtered.loaded
  obtain ⟨newPart, chainsPart, timesPart, partsPart, textsPart⟩ :=
    line_chains line isexception catindex timeindex nlimit filtered.loadedPart
  have loaded := filtered.loaded.step (.phrases line isexception catindex timeindex nlimit)
  have limits := line_limits l line isexception catindex timeindex nlimit
  have items := line_items l line isexception catindex timeindex nlimit
  have itemTimes : ∀ item ∈ lineItems line isexception catindex timeindex nlimit,
      Settled l item.time := fun item member => by rwa [lineItems_time member]
  have chainTimes : ∀ c ∈ new, Settled l c.time := fun c member => by rwa [times c member]
  have kept := lineItems_filter now l line isexception catindex timeindex nlimit
  rw [inTime, filtered.check_eq]
  by_cases here : checkTimeAtD now l timeindex
  · rw [if_pos here] at kept ⊢
    have allChains : (new.filter fun c => checkTimeAtD now l c.time) = new :=
      List.filter_eq_self.mpr fun c member => by rw [times c member, here]
    exact filtered.extend loaded (filtered.loadedPart.step (.phrases ..)) limits (line_limits lt ..)
      items (line_items lt ..) kept.symm chains_ chainsPart (by rw [allChains, texts, textsPart]) itemTimes
      chainTimes parts partsPart
  · rw [if_neg here] at kept ⊢
    have noChain : (new.filter fun c => checkTimeAtD now l c.time) = [] :=
      List.filter_eq_nil_iff.mpr fun c member => by rw [times c member]; exact here
    exact filtered.extend loaded filtered.loadedPart limits ⟨rfl, rfl, rfl⟩ items
      (List.append_nil _).symm kept.symm chains_ (List.append_nil _).symm (by rw [noChain]; rfl) itemTimes
      chainTimes parts (fun c member => by cases member)

theorem Filtered.regrow {now : Clock} {l lt l' lt' : PhraseList} (filtered : Filtered now l lt)
    (loaded : Loaded l') (loadedPart : Loaded lt') (categories : lt'.listcategory = l'.listcategory)
    (limits : lt'.timelimits = l'.timelimits) (limited : lt'.istimelimited = l'.istimelimited)
    (same : l'.items = l.items ∧ l'.combilist = l.combilist)
    (samePart : lt'.items = lt.items ∧ lt'.combilist = lt.combilist) (grows : Grows l l') :
    Filtered now l' lt' := by
  have sameChains : chains l' = chains l := by rw [chains, chains, same.2]
  have sameChainsPart : chains lt' = chains lt := by rw [chains, chains, samePart.2]
  have sameTexts : chainTexts l' = chainTexts l := by
    funext c
    unfold chainTexts getItemAtInt
    rw [same.1]
  have sameTextsPart : chainTexts lt' = chainTexts lt := by
    funext c
    unfold chainTexts getItemAtInt
    rw [samePart.1]
  refine ⟨loaded, loadedPart, categories, limits, limited, ?_, ?_, ?_, ?_, ?_, ?_⟩
  · rw [same.1, samePart.1, filtered.items]
    refine List.filter_congr fun item member => ?_
    exact ((filtered.itemTimes item member).check_eq grows now).symm
  · rw [sameChains, sameChainsPart, sameTexts, sameTextsPart, filtered.combinations]
    congr 1
    refine List.filter_congr fun c member => ?_
    exact ((filtered.chainTimes c member).check_eq grows now).symm
  · intro item member
    exact (filtered.itemTimes item (same.1 ▸ member)).grow grows
  · intro c member
    exact (filtered.chainTimes c (sameChains ▸ member)).grow grows
  · rw [sameChains, same.1]
    exact filtered.parts
  · rw [sameChainsPart, samePart.1]
    exact filtered.partsOf

theorem getCategoryIndex_frame (l : PhraseList) (lcat : Str) :
    (getCategoryIndex l lcat).2 = { l with listcategory := (getCategoryIndex l lcat).2.listcategory } := by
  unfold getCategoryIndex
  split
  · rfl
  · split <;> rfl

theorem getCategoryIndex_congr {l lt : PhraseList} (same : lt.listcategory = l.listcategory) (lcat : Str) :
    (getCategoryIndex lt lcat).1 = (getCategoryIndex l lcat).1 ∧
      (getCategoryIndex lt lcat).2.listcategory = (getCategoryIndex l lcat).2.listcategory := by
  unfold getCategoryIndex
  rw [same]
  split
  · exact ⟨rfl, same⟩
  · split
    · exact ⟨rfl, same⟩
    · exact ⟨rfl, rfl⟩

theorem Filtered.category {now : Clock} {l lt : PhraseList} (filtered : Filtered now l lt) (lcat : Str) :
    Filtered now (getCategoryIndex l lcat).2 (getCategoryIndex lt lcat).2 := by
  have frame := getCategoryIndex_frame l lcat
  have framePart := getCategoryIndex_frame lt lcat
  refine filtered.regrow (filtered.loaded.step (.category lcat)) (filtered.loadedPart.step (.category lcat))
    (getCategoryIndex_congr filtered.categories lcat).2 ?_ ?_ ?_ ?_ ?_
  · rw [frame, framePart]
    exact filtered.limits
  · rw [frame, framePart]
    exact filtered.limited
  · rw [frame]
    exact ⟨rfl, rfl⟩
  · rw [framePart]
    exact ⟨rfl, rfl⟩
  · rw [frame]
    exact ⟨List.prefix_refl _, id⟩

theorem Filtered.timeLine {now : Clock} {l lt : PhraseList} (filtered : Filtered now l lt)
    (tl : TimeLimit) :
    Filtered now { l with timelimits := l.timelimits ++ [tl], istimelimited := true }
      { lt with timelimits := lt.timelimits ++ [tl], istimelimited := true } :=
  filtered.regrow (filtered.loaded.step (.time tl)) (filtered.loadedPart.step (.time tl))
    filtered.categories (by rw [filtered.limits]) rfl ⟨rfl, rfl⟩ ⟨rfl, rfl⟩
    ⟨List.prefix_append _ _, fun _ => rfl⟩

/- The two readings in step. -/
section Reading
variable {now : Clock} {isexception : Bool} {nlimit : Int}

structure InStep (now : Clock) (st stPart : ReadState) : Prop where
  lists : Filtered now st.list stPart.list
  catindex : stPart.catindex = st.catindex
  timeindex : stPart.timeindex = st.timeindex
  caseinsensitive : stPart.caseinsensitive = st.caseinsensitive
  settled : Settled st.list st.timeindex

/-- A reader of included files and one that skips what is not in time. -/
def IncludesInStep (now : Clock)
    (include_ includePart : PhraseList → Str → Int → Int → Option (Bool × PhraseList)) : Prop :=
  ∀ l lt name cat time ok l', Filtered now l lt → Settled l time →
    include_ l name cat time = some (ok, l') →
    ∃ lt', includePart lt name cat time = some (ok, lt') ∧ Filtered now l' lt' ∧ Grows l l'

theorem line_grows (l : PhraseList) (line : Str) (isexception : Bool) (catindex timeindex nlimit : Int) :
    Grows l (readPhraseListHelper l line isexception catindex timeindex nlimit) := by
  obtain ⟨limits, limited, -⟩ := line_limits l line isexception catindex timeindex nlimit
  exact ⟨by rw [limits], by rw [limited]; exact id⟩

theorem category_grows (l : PhraseList) (lcat : Str) : Grows l (getCategoryIndex l lcat).2 := by
  rw [getCategoryIndex_frame]
  exact ⟨List.prefix_refl _, id⟩

theorem InStep.phrases {st stPart : ReadState} (inStep : InStep now st stPart) (line : Str) :
    InStep now
      { st with list := readPhraseListHelper st.list line isexception st.catindex st.timeindex nlimit }
      (if inTime now stPart.list stPart.timeindex then
        { stPart with list :=
            readPhraseListHelper stPart.list line isexception stPart.catindex stPart.timeindex nlimit }
      else stPart) := by
  obtain ⟨l, _, _, _⟩ := st
  obtain ⟨lt, catindex, timeindex, caseinsensitive⟩ := stPart
  obtain ⟨lists, rfl, rfl, rfl, settled⟩ := inStep
  dsimp only at lists settled ⊢
  have added := lists.phraseLine line isexception catindex timeindex nlimit settled
  have grows := line_grows l line isexception catindex timeindex nlimit
  split at added
  · rename_i here
    rw [if_pos here]
    exact ⟨added, rfl, rfl, rfl, settled.grow grows⟩
  · rename_i late
    rw [if_neg late]
    exact ⟨added, rfl, rfl, rfl, settled.grow grows⟩

theorem InStep.time {st stPart : ReadState} (inStep : InStep now st stPart) (tl : TimeLimit) :
    InStep now
      { st with
        list := { st.list with timelimits := st.list.timelimits ++ [tl], istimelimited := true }
        timeindex := st.list.timelimits.length }
      { stPart with
        list := { stPart.list with timelimits := stPart.list.timelimits ++ [tl], istimelimited := true }
        timeindex := stPart.list.timelimits.length } where
  lists := inStep.lists.timeLine tl
  catindex := inStep.catindex
  timeindex := congrArg (fun n : Nat => (n : Int)) (congrArg List.length inStep.lists.limits)
  caseinsensitive := inStep.caseinsensitive
  settled := .inr ⟨by simp, by simp, rfl⟩

theorem serve_inStep
    {include_ includePart : PhraseList → Str → Int → Int → Option (Bool × PhraseList)}
    (included : IncludesInStep now include_ includePart) (request : Request)
    {st stPart st' : ReadState} {ok : Bool} (inStep : InStep now st stPart)
    (read : serve (fun _ _ => true) include_ isexception nlimit st request = some (ok, st')) :
    ∃ stPart', serve (inTime now) includePart isexception nlimit stPart request =
        some (ok, stPart') ∧ InStep now st' stPart' ∧ Grows st.list st'.list := by
  cases request with
  | nothing | stop =>
    obtain ⟨rfl, rfl⟩ := Prod.ext_iff.mp (Option.some.inj read)
    exact ⟨stPart, rfl, inStep, .refl _⟩
  | noconvert =>
    obtain ⟨rfl, rfl⟩ := Prod.ext_iff.mp (Option.some.inj read)
    exact ⟨_, rfl, ⟨inStep.lists, inStep.catindex, inStep.timeindex, rfl, inStep.settled⟩, .refl _⟩
  | phrases line =>
    obtain ⟨rfl, rfl⟩ := Prod.ext_iff.mp (Option.some.inj read)
    refine ⟨_, ?_, inStep.phrases line, line_grows _ _ _ _ _ _⟩
    rw [serve]
    split <;> rfl
  | include_ name =>
    simp only [serve] at read ⊢
    split at read
    · rename_i list reading
      obtain ⟨rfl, rfl⟩ := Prod.ext_iff.mp (Option.some.inj read)
      obtain ⟨list', readingPart, filtered, grows⟩ :=
        included _ _ _ _ _ _ _ inStep.lists inStep.settled reading
      rw [inStep.catindex, inStep.timeindex, readingPart]
      exact ⟨_, rfl, ⟨filtered, rfl, rfl, inStep.caseinsensitive, inStep.settled.grow grows⟩, grows⟩
    · cases read
  | category lcat =>
    obtain ⟨rfl, rfl⟩ := Prod.ext_iff.mp (Option.some.inj read)
    have grows := category_grows st.list lcat
    exact ⟨_, rfl, ⟨inStep.lists.category lcat, (getCategoryIndex_congr inStep.lists.categories _).1,
      inStep.timeindex, inStep.caseinsensitive, inStep.settled.grow grows⟩, grows⟩
  | time tl =>
    obtain ⟨rfl, rfl⟩ := Prod.ext_iff.mp (Option.some.inj read)
    exact ⟨_, rfl, inStep.time tl, List.prefix_append _ _, fun _ => rfl⟩

theorem readLines_inStep
    {include_ includePart : PhraseList → Str → Int → Int → Option (Bool × PhraseList)}
    (included : IncludesInStep now include_ includePart) (lines : List Str) {st stPart : ReadState}
    {l' : PhraseList} {ok : Bool} (inStep : InStep now st stPart)
    (read : readLines (fun _ _ => true) include_ isexception nlimit lines st = some (ok, l')) :
    ∃ lt', readLines (inTime now) includePart isexception nlimit lines stPart = some (ok, lt') ∧
      Filtered now l' lt' ∧ Grows st.list l' := by
  induction lines generalizing st stPart with
  | nil =>
    obtain ⟨rfl, rfl⟩ := Prod.ext_iff.mp (Option.some.inj read)
    exact ⟨_, rfl, inStep.lists, .refl _⟩
  | cons line lines ih =>
    rw [readLines, readLine_eq] at read ⊢
    rw [inStep.caseinsensitive]
    split at read
    · cases read
    · rename_i st' step
      obtain ⟨rfl, rfl⟩ := Prod.ext_iff.mp (Option.some.inj read)
      obtain ⟨stPart', stepPart, inStep', grows⟩ := serve_inStep included _ inStep step
      rw [stepPart]
      exact ⟨_, rfl, inStep'.lists, grows⟩
    · rename_i st' step
      obtain ⟨stPart', stepPart, inStep', grows⟩ := serve_inStep included _ inStep step
      obtain ⟨lt', rest, filtered, grows'⟩ := ih inStep' read
      rw [stepPart]
      exact ⟨lt', rest, filtered, grows.trans grows'⟩

theorem readPhraseList_inStep {fs : FileSystem} (depth : Nat) :
    IncludesInStep now (readPhraseListKeeping (fun _ _ => true) fs isexception nlimit depth)
      (readPhraseListKeeping (inTime now) fs isexception nlimit depth) := by
  induction depth with
  | zero =>
    intro l lt name cat time ok l' lists settled read
    cases read
  | succ depth ih =>
    intro l lt name cat time ok l' lists settled read
    rw [readPhraseListKeeping] at read ⊢
    split at read
    · obtain ⟨rfl, rfl⟩ := Prod.ext_iff.mp (Option.some.inj read)
      exact ⟨lt, rfl, lists, .refl _⟩
    · rename_i text opened
      split at read
      · rename_i blank
        obtain ⟨rfl, rfl⟩ := Prod.ext_iff.mp (Option.some.inj read)
        rw [if_pos blank]
        exact ⟨lt, rfl, lists, .refl _⟩
      · rename_i lines
        rw [if_neg lines]
        have inStep : InStep now ⟨l, cat, time, true⟩ ⟨lt, cat, time, true⟩ :=
          ⟨lists, rfl, rfl, rfl, settled⟩
        exact readLines_inStep ih _ inStep read

theorem readFiles_filtered (now : Clock) {fs : FileSystem} {depth : Nat} {files : PhraseFiles}
    {l : PhraseList} (read : readFiles fs depth files = some l) :
    ∃ lt, readFilesKeeping (inTime now) fs depth files = some lt ∧ Filtered now l lt := by
  unfold readFiles readFilesKeeping at read
  unfold readFilesKeeping
  split at read
  · rename_i l1 first
    obtain ⟨lt1, firstPart, filtered1, -⟩ :=
      readPhraseList_inStep depth _ _ _ _ _ _ _ (Filtered.empty now) (.inl rfl) first
    rw [firstPart]
    split at read
    · rename_i l2 second
      obtain ⟨lt2, secondPart, filtered2, -⟩ :=
        readPhraseList_inStep depth _ _ _ _ _ _ _ filtered1 (.inl rfl) second
      rw [secondPart]
      split at read
      · rename_i l3 third
        obtain ⟨lt3, thirdPart, filtered3, -⟩ :=
          readPhraseList_inStep depth _ _ _ _ _ _ _ filtered2 (.inl rfl) third
        rw [thirdPart]
        obtain rfl := Option.some.inj read
        exact ⟨lt3, rfl, filtered3⟩
      · cases read
    · cases read
  · cases read

end Reading

end GuardianTimedLists
