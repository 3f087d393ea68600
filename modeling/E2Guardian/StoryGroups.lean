import E2Guardian.StoryFlags

/- Where the setgroup action takes the filter group from. The result of a lookup stays in the
   filter until the next one; the conditions of lines do not read it, so that two runs that
   differ in what earlier lines left there check the same. -/
namespace GuardianStoryRun
open GuardianString
open GuardianStoryBoard hiding runFunct

variable {W H : Type}

def Story.withResult (s : Story W H) (result : Str) : Story W H := ⟨{ s.cm with result := result }, s.world⟩

section Stale
variable (env : Env W H)

theorem reverseLookup_withResult (s : Story W H) (r : Str) :
    reverseLookup env (s.withResult r) = (reverseLookup env s).withResult r := by
  have same : (s.withResult r).cm.reverse_checked = s.cm.reverse_checked := rfl
  simp only [reverseLookup, same]
  split <;> rfl

theorem has_reverse_hosts_withResult (s : Story W H) (r : Str) :
    hasReverseHosts env (s.withResult r) =
      ((hasReverseHosts env s).1, (hasReverseHosts env s).2.1,
        (hasReverseHosts env s).2.2.withResult r) := by
  have same : (s.withResult r).cm.isiphost = s.cm.isiphost := rfl
  simp only [hasReverseHosts, same, reverseLookup_withResult]
  split <;> rfl

theorem noteDeepUrls_withResult (s : Story W H) (r : Str) :
    noteDeepUrls (s.withResult r) = (noteDeepUrls s).withResult r := by
  have same : (s.withResult r).cm.deep_urls_checked = s.cm.deep_urls_checked := rfl
  simp only [noteDeepUrls, same]
  split <;> rfl

theorem examine_withResult (condition : Condition) (s : Story W H) (r : Str) :
    examine env condition (s.withResult r) =
      ((examine env condition s).1, (examine env condition s).2.withResult r) := by
  cases condition with
  | sitein | urlin | fullurlin =>
    simp only [examine, urlCheck, has_reverse_hosts_withResult]
    rfl
  | embeddedin =>
    simp only [examine, noteDeepUrls_withResult]
    rfl
  | _ => rfl

def kept (i : ComRec) (checked : Checked W H) : Bool := checked.made && checked.found && i.isif

def Checked.withResult (i : ComRec) (checked : Checked W H) (r : Str) : Checked W H :=
  { checked with story := if kept i checked then checked.story else checked.story.withResult r }

theorem runHeaderCheck_withResult (i : ComRec) (check : Check) (s : Story W H) (r : Str) :
    runHeaderCheck env i check (s.withResult r) = (runHeaderCheck env i check s).withResult i r := by
  simp only [runHeaderCheck, Story.withResult]
  split
  · rename_i j before_ rest res world search
    cases kind : i.isif with
    | true =>
      simp only [Checked.withResult, kept, kind, Bool.and_self, ↓reduceIte, noteHeader]
      rfl
    | false =>
      simp only [Checked.withResult, kept, kind, Bool.and_false, Bool.false_eq_true, ↓reduceIte]
      rfl
  · rfl

theorem runListChecks_withResult (i : ComRec) (check : Check) (s : Story W H) (r : Str) :
    runListChecks env i check (s.withResult r) = (runListChecks env i check s).withResult i r := by
  have lookups : listLookups env (s.withResult r).cm check i.list_id_dq =
      listLookups env s.cm check i.list_id_dq := rfl
  simp only [runListChecks, lookups]
  simp only [Story.withResult]
  split
  · cases kind : i.isif with
    | true => simp only [Checked.withResult, kept, kind, Bool.and_self, ↓reduceIte]
    | false =>
      simp only [Checked.withResult, kept, kind, Bool.and_false, Bool.false_eq_true, ↓reduceIte]
      rfl
  · rfl

theorem checkLine_withResult (i : ComRec) (s : Story W H) (r : Str) :
    checkLine env i (s.withResult r) = (checkLine env i s).withResult i r := by
  unfold checkLine
  split
  · rfl
  · simp only [examine_withResult]
    split
    · exact runHeaderCheck_withResult env i _ _ r
    · split
      · exact runListChecks_withResult env i _ _ r
      · rfl

theorem runHeaderCheck_result {i : ComRec} {check : Check} {s : Story W H}
    (own : kept i (runHeaderCheck env i check s) = true) :
    (runHeaderCheck env i check s).story.cm.result = (runHeaderCheck env i check s).res.result := by
  unfold runHeaderCheck at own ⊢
  dsimp only at own ⊢
  split
  · rename_i j before_ rest res world search
    simp only [search, kept, Bool.true_and] at own
    simp only [own, ↓reduceIte, noteHeader]
    split
    · split <;> rfl
    · rfl
  · rename_i search
    simp only [search, kept, Bool.and_false, Bool.false_and, Bool.false_eq_true] at own

theorem runListChecks_result {i : ComRec} {check : Check} {s : Story W H}
    (own : kept i (runListChecks env i check s) = true) :
    (runListChecks env i check s).story.cm.result = (runListChecks env i check s).res.result := by
  unfold runListChecks at own ⊢
  dsimp only at own ⊢
  split
  · rename_i search
    simp only [search, kept, Bool.true_and] at own
    simp only [own, ↓reduceIte]
  · rename_i search
    simp only [search, kept, Bool.and_false, Bool.false_and, Bool.false_eq_true] at own

theorem checkLine_result_kept {i : ComRec} {s : Story W H} (own : kept i (checkLine env i s) = true) :
    (checkLine env i s).story.cm.result = (checkLine env i s).res.result := by
  unfold checkLine at own ⊢
  split at own
  · simp [kept] at own
  · dsimp only at own ⊢
    split at own
    · rename_i header
      rw [if_pos header]
      exact runHeaderCheck_result env own
    · rename_i header
      rw [if_neg header]
      split at own
      · rename_i list
        rw [if_pos list]
        exact runListChecks_result env own
      · simp [kept] at own

theorem checkLine_result_stale {i : ComRec} {s : Story W H} (stale : kept i (checkLine env i s) = false) :
    (checkLine env i s).story.cm.result = s.cm.result := by
  have self : (checkLine env i s) = (checkLine env i s).withResult i s.cm.result :=
    checkLine_withResult env i s s.cm.result
  rw [self]
  simp only [Checked.withResult, stale, Bool.false_eq_true, ↓reduceIte]
  rfl

end Stale

/- The group that a line with the setgroup action leaves. -/
section Groups
variable (env : Env W H)

def groupNamed (result : Str) : Option Int :=
  let g := resolveFilterGroupFromLabel env.options result
  if g > 0 ∧ g ≤ env.options.numfg then some (g - 1) else none

theorem groupNamed_nil : groupNamed env [] = none := by
  simp [groupNamed, resolveFilterGroupFromLabel]

theorem setgroup_filtergroup (i : ComRec) (made : Bool) (cm : Filter H) :
    (setgroup env i made cm).2.filtergroup =
      if made then (groupNamed env cm.result).getD cm.filtergroup else cm.filtergroup := by
  unfold setgroup
  cases made with
  | false => rfl
  | true =>
    by_cases empty : cm.result = []
    · simp [empty, groupNamed_nil]
    · have given : (cm.result.length == 0) = false := by simpa using empty
      simp only [given, groupNamed, Bool.not_true, Bool.or_self, Bool.false_eq_true, ↓reduceIte]
      split <;> rfl

def setsGroup (i : ComRec) : Prop := actionOf i.action_id = some .setgroup

theorem lineDone_filtergroup {i : ComRec} (sets : setsGroup i) (s : Story W H) :
    (lineDone env i s).cm.filtergroup =
      if (checkLine env i s).found = i.isif ∧ (checkLine env i s).made = true then
        (groupNamed env (checkLine env i s).story.cm.result).getD s.cm.filtergroup
      else s.cm.filtergroup := by
  have same : (checkLine env i s).story.cm.filtergroup = s.cm.filtergroup :=
    congrArg Decisions.filtergroup (checkLine_decisions env i s)
  have known : actionOf i.action_id = some .setgroup := sets
  by_cases acts : (checkLine env i s).found = i.isif
  · simp only [lineDone, acts, beq_self_eq_true, ↓reduceIte, performAction, known, Story.setReturn, act,
      setgroup_filtergroup, same, true_and]
  · have passed : ((checkLine env i s).found == i.isif) = false := by simpa using acts
    simp only [lineDone, passed, Bool.false_eq_true, ↓reduceIte, Story.setReturn, acts, false_and, same]

/-- An ifnot line that looks something up and finds nothing: the only line that acts on a
lookup without a result of its own. -/
def actsOnNothing (i : ComRec) (s : Story W H) : Prop :=
  i.isif = false ∧ (checkLine env i s).made = true ∧ (checkLine env i s).found = false

theorem lineDone_group_of_nothing {i : ComRec} (sets : setsGroup i) {s : Story W H}
    (nothing : actsOnNothing env i s) :
    (lineDone env i s).cm.filtergroup = (groupNamed env s.cm.result).getD s.cm.filtergroup := by
  obtain ⟨isIfnot, made, missed⟩ := nothing
  have stale : kept i (checkLine env i s) = false := by simp [kept, missed]
  rw [lineDone_filtergroup env sets, if_pos ⟨missed.trans isIfnot.symm, made⟩, checkLine_result_stale env stale]

theorem lineDone_group_of_own {i : ComRec} (sets : setsGroup i) {s : Story W H}
    (own : ¬ actsOnNothing env i s) :
    (lineDone env i s).cm.filtergroup =
      if kept i (checkLine env i s) then (groupNamed env (checkLine env i s).res.result).getD s.cm.filtergroup
      else s.cm.filtergroup := by
  rw [lineDone_filtergroup env sets]
  cases whole : kept i (checkLine env i s) with
  | true =>
    have match_ := checkLine_result_kept env whole
    simp only [kept, Bool.and_eq_true] at whole
    rw [if_pos ⟨whole.1.2.trans whole.2.symm, whole.1.1⟩, match_]
    rfl
  | false =>
    have none_ : ¬ ((checkLine env i s).found = i.isif ∧ (checkLine env i s).made = true) := by
      intro ⟨acts, made⟩
      simp only [kept, made, acts, Bool.true_and, Bool.and_self] at whole
      exact own ⟨whole, made, acts.trans whole⟩
    rw [if_neg none_]
    rfl

theorem actsOnNothing_withResult {i : ComRec} {s : Story W H} (r : Str) :
    actsOnNothing env i (s.withResult r) ↔ actsOnNothing env i s := by
  simp only [actsOnNothing, checkLine_withResult, Checked.withResult]

theorem lineDone_group_withResult {i : ComRec} (sets : setsGroup i) {s : Story W H}
    (own : ¬ actsOnNothing env i s) (r : Str) :
    (lineDone env i (s.withResult r)).cm.filtergroup = (lineDone env i s).cm.filtergroup := by
  rw [lineDone_group_of_own env sets own,
    lineDone_group_of_own env sets ((actsOnNothing_withResult env r).not.mpr own)]
  simp only [checkLine_withResult, Checked.withResult, kept]
  rfl

theorem resolve_number (o : Options) {label : Str} {n : Int} (given : removeWhiteSpace label ≠ [])
    (number : toInteger (removeWhiteSpace label) = n) (positive : 1 ≤ n) (low : n ≤ o.numfg) :
    resolveFilterGroupFromLabel o label = n := by
  have some_ : ¬ (label.length = 0 ∨ (removeWhiteSpace label).length = 0) := by
    rintro (empty | empty)
    · obtain rfl := List.length_eq_zero_iff.mp empty
      exact given rfl
    · exact given (List.length_eq_zero_iff.mp empty)
  have bound : n ≤ maxGroups o := by
    unfold maxGroups
    split <;> omega
  simp only [resolveFilterGroupFromLabel, number, if_neg some_]
  rw [if_pos ⟨positive, bound⟩]

theorem groupNamed_one (groups : 1 ≤ env.options.numfg) : groupNamed env (str "1") = some 0 := by
  have first : resolveFilterGroupFromLabel env.options (str "1") = 1 :=
    resolve_number env.options (by decide) (by decide) (by omega) groups
  simp [groupNamed, first, groups]

theorem groupNamed_two (groups : 2 ≤ env.options.numfg) : groupNamed env (str "2") = some 1 := by
  have second : resolveFilterGroupFromLabel env.options (str "2") = 2 :=
    resolve_number env.options (by decide) (by decide) (by omega) groups
  simp [groupNamed, second, groups]

/-- There is no group that an old result could change to. -/
def NoOtherGroup (s : Story W H) : Prop :=
  env.options.numfg < 1 ∨ (env.options.numfg = 1 ∧ s.cm.filtergroup = 0)

theorem groupNamed_of_noOtherGroup {s : Story W H} (only : NoOtherGroup env s) (r : Str) :
    (groupNamed env r).getD s.cm.filtergroup = s.cm.filtergroup := by
  unfold groupNamed
  dsimp only
  split
  · rename_i named
    rcases only with none_ | ⟨one, zero⟩
    · omega
    · have first : resolveFilterGroupFromLabel env.options r = 1 := by omega
      rw [first, zero]
      rfl
  · rfl

/-- The group changes only to the one that the line's own match names. -/
def FromOwnMatch (e : Event W H) : Prop :=
  e.after_.cm.filtergroup ≠ e.before_.cm.filtergroup →
    (checkLine env e.line e.before_).made = true ∧ (checkLine env e.line e.before_).found = true ∧
      groupNamed env (checkLine env e.line e.before_).res.result = some e.after_.cm.filtergroup

/-- Every run that reaches the line, with another result left by earlier lines, sets the same group. -/
def SameInAllRuns (e : Event W H) : Prop :=
  ∀ sb depth fID start, ∀ e' ∈ (runFunct env sb depth fID start).events, e'.line = e.line →
    (∃ r, e'.before_ = e.before_.withResult r) → e'.after_.cm.filtergroup = e.after_.cm.filtergroup

theorem fromOwnMatch_of_done {e : Event W H} (sets : setsGroup e.line)
    (done : e.after_ = lineDone env e.line e.before_)
    (harmless : actsOnNothing env e.line e.before_ → NoOtherGroup env e.before_) : FromOwnMatch env e := by
  intro changed
  rw [done] at changed ⊢
  by_cases nothing : actsOnNothing env e.line e.before_
  · rw [lineDone_group_of_nothing env sets nothing, groupNamed_of_noOtherGroup env (harmless nothing)] at changed
    exact absurd rfl changed
  · rw [lineDone_group_of_own env sets nothing] at changed ⊢
    cases whole : kept e.line (checkLine env e.line e.before_) with
    | false => simp [whole] at changed
    | true =>
      simp only [whole, ↓reduceIte] at changed ⊢
      simp only [kept, Bool.and_eq_true] at whole
      cases named : groupNamed env (checkLine env e.line e.before_).res.result with
      | none => simp [named] at changed
      | some g => exact ⟨whole.1.1, whole.1.2, rfl⟩

theorem sameInAllRuns_of_done {e : Event W H} (sets : setsGroup e.line)
    (done : e.after_ = lineDone env e.line e.before_)
    (harmless : actsOnNothing env e.line e.before_ → NoOtherGroup env e.before_) : SameInAllRuns env e := by
  intro sb depth fID start e' member line ⟨r, before_⟩
  have done' := runFunct_own env sb depth fID start e' member (isCall_of_action (line ▸ sets))
  rw [done', done, line, before_]
  by_cases nothing : actsOnNothing env e.line e.before_
  · rw [lineDone_group_of_nothing env sets ((actsOnNothing_withResult env r).mpr nothing),
      lineDone_group_of_nothing env sets nothing, groupNamed_of_noOtherGroup env (harmless nothing)]
    exact groupNamed_of_noOtherGroup env (s := e.before_.withResult r) (harmless nothing) r
  · exact lineDone_group_withResult env sets nothing r

def oneLine (i : ComRec) : StoryBoard := ⟨[⟨str "checkrequest", 1, [i], [], 0⟩], 1, fun _ => 1⟩

theorem oneLine_reached {i : ComRec} (own : isCall i = false) (s : Story W H) :
    ⟨i, s, lineDone env i s⟩ ∈ (runFunct env (oneLine i) 1 1 s).events := by
  have only : runFunct env (oneLine i) 1 1 s = runLines env (perform env (runFunct env (oneLine i) 0)) [i] false s := rfl
  rw [only]
  rcases runLines_cons env (runFunct env (oneLine i) 0) i [] false s with
    ⟨calls, done, answer, execution, last | more⟩ | ⟨isCalled, -, -⟩
  · cases execution with
    | own _ => simp [last]
    | called isCalled _ => simp [own] at isCalled
  · cases execution with
    | own _ => simp [more]
    | called isCalled _ => simp [own] at isCalled
  · simp [own] at isCalled

theorem noOtherGroup_of_same {e : Event W H} (sets : setsGroup e.line)
    (nothing : actsOnNothing env e.line e.before_) (same : SameInAllRuns env e) :
    NoOtherGroup env e.before_ := by
  -- what the line sets if an earlier one left the result r
  have left : ∀ r, (groupNamed env r).getD e.before_.cm.filtergroup = e.after_.cm.filtergroup := by
    intro r
    have reached := oneLine_reached env (isCall_of_action sets) (e.before_.withResult r)
    have group := same _ _ _ _ _ reached rfl ⟨r, rfl⟩
    rwa [lineDone_group_of_nothing env sets ((actsOnNothing_withResult env r).mpr nothing)] at group
  have unchanged := left []
  rw [groupNamed_nil, Option.getD_none] at unchanged
  by_cases one : 1 ≤ env.options.numfg
  · have first := left (str "1")
    rw [groupNamed_one env one, Option.getD_some] at first
    by_cases two : 2 ≤ env.options.numfg
    · have second := left (str "2")
      rw [groupNamed_two env two, Option.getD_some] at second
      omega
    · exact .inr ⟨by omega, by omega⟩
  · exact .inl (by omega)

/-- The setgroup lines of a run set the group that their own match names, the same in every
run that reaches them, exactly if none acts on lookups that found nothing while there is
another group to change to. -/
theorem groups_set_by_own_match_iff (sb : StoryBoard) (depth fID : Nat) (s : Story W H) :
    (∀ e ∈ (runFunct env sb depth fID s).events, setsGroup e.line → FromOwnMatch env e ∧ SameInAllRuns env e) ↔
      ∀ e ∈ (runFunct env sb depth fID s).events, setsGroup e.line →
        actsOnNothing env e.line e.before_ → NoOtherGroup env e.before_ := by
  constructor
  · intro own e member sets nothing
    exact noOtherGroup_of_same env sets nothing (own e member sets).2
  · intro harmless e member sets
    have done := runFunct_own env sb depth fID s e member (isCall_of_action sets)
    exact ⟨fromOwnMatch_of_done env sets done (harmless e member sets),
      sameInAllRuns_of_done env sets done (harmless e member sets)⟩

end Groups

/-- A match in the list of sites whose result is the second group, then a line that looks the
client up in another list and acts because it is not there. -/
def groupOfSite : StoryBoard :=
  ⟨[⟨str "checkrequest", 1, [sampleLine true 2 [⟨str "sites", 2, 0⟩] 0 5006,
    sampleLine false 10 [⟨str "clients", 1, 1⟩] 0 5025], [], 0⟩], 1, fun _ => 1⟩

/-- The second line sets the group that the first one's match left; if an earlier line has left
another result, or none, it sets another. -/
theorem group_taken_from_earlier_line :
    (∃ e ∈ (runFunct sampleEnv groupOfSite 1 1 sampleStory).events,
      setsGroup e.line ∧ ¬ FromOwnMatch sampleEnv e ∧ ¬ SameInAllRuns sampleEnv e) := by
  have line : actionOf (sampleLine false 10 [⟨str "clients", 1, 1⟩] 0 5025).action_id = some .setgroup := by
    decide
  have found : ((runFunct sampleEnv groupOfSite 1 1 sampleStory).events.map fun e =>
      (e.line, e.before_.cm.filtergroup, e.after_.cm.filtergroup, (checkLine sampleEnv e.line e.before_).found,
        (lineDone sampleEnv e.line (e.before_.withResult [])).cm.filtergroup))[1]? =
      some (sampleLine false 10 [⟨str "clients", 1, 1⟩] 0 5025, 0, 1, false, 0) := by decide
  rw [List.getElem?_map, Option.map_eq_some_iff] at found
  obtain ⟨e, place, same⟩ := found
  simp only [Prod.mk.injEq] at same
  obtain ⟨isLine, before_, after_, missed, other⟩ := same
  refine ⟨e, List.mem_of_getElem? place, isLine ▸ line, ?_, ?_⟩
  · intro own
    have match_ := (own (by omega)).2.1
    simp [missed] at match_
  · intro same
    have reached := oneLine_reached sampleEnv (isCall_of_action (isLine ▸ line)) (e.before_.withResult [])
    have group := same _ _ _ _ _ reached rfl ⟨[], rfl⟩
    rw [other, after_] at group
    exact absurd group (by decide)

end GuardianStoryRun
