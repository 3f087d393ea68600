import E2Guardian.StoryRun

/- What the lines of a storyboard can do to the decisions of the filter. Conditions and checks
   leave them alone, so that every statement about them is one about the built-in actions,
   carried over all lines that a run executes. -/
namespace GuardianStoryRun
open GuardianString
open GuardianStoryBoard hiding runFunct

variable {W H : Type}

structure Decisions where
  isexception : Bool
  isGrey : Bool
  isBlocked : Bool
  gomitm : Bool
  nomitm : Bool
  automitm : Bool
  filtergroup : Int
  deriving DecidableEq, Repr

def decisions (cm : Filter H) : Decisions :=
  ⟨cm.isexception, cm.isGrey, cm.isBlocked, cm.gomitm, cm.nomitm, cm.automitm, cm.filtergroup⟩

section Conditions
variable (env : Env W H)

theorem reverseLookup_decisions (s : Story W H) : decisions (reverseLookup env s).cm = decisions s.cm := by
  unfold reverseLookup
  split <;> rfl

theorem has_reverse_hosts_decisions (s : Story W H) :
    decisions (hasReverseHosts env s).2.2.cm = decisions s.cm := by
  unfold hasReverseHosts
  split
  · exact reverseLookup_decisions env s
  · rfl

theorem noteDeepUrls_decisions (s : Story W H) : decisions (noteDeepUrls s).cm = decisions s.cm := by
  unfold noteDeepUrls
  split <;> rfl

theorem examine_decisions (condition : Condition) (s : Story W H) :
    decisions (examine env condition s).2.cm = decisions s.cm := by
  cases condition with
  | sitein | urlin | fullurlin => exact has_reverse_hosts_decisions env s
  | embeddedin => exact noteDeepUrls_decisions s
  | _ => rfl

theorem noteHeader_decisions (check : Check) (cm : Filter H) (j : ListInfo) (before_ rest : List Str)
    (res : ListResult) : decisions (noteHeader env check cm j before_ rest res) = decisions cm := by
  simp only [noteHeader]
  split
  · split <;> rfl
  · rfl

theorem runHeaderCheck_decisions (i : ComRec) (check : Check) (s : Story W H) :
    decisions (runHeaderCheck env i check s).story.cm = decisions s.cm := by
  simp only [runHeaderCheck]
  split
  · simp only
    split
    · exact noteHeader_decisions env _ _ _ _ _ _
    · rfl
  · rfl

theorem runListChecks_decisions (i : ComRec) (check : Check) (s : Story W H) :
    decisions (runListChecks env i check s).story.cm = decisions s.cm := by
  simp only [runListChecks]
  split
  · simp only
    split <;> rfl
  · rfl

theorem checkLine_decisions (i : ComRec) (s : Story W H) :
    decisions (checkLine env i s).story.cm = decisions s.cm := by
  unfold checkLine
  split
  · rfl
  · rename_i condition _
    have examined := examine_decisions env condition s
    dsimp only
    split
    · rw [runHeaderCheck_decisions, examined]
    · split
      · rw [runListChecks_decisions, examined]
      · exact examined

/-- The list match or the line has a message number of the clients that are always excepted. -/
def excepts (i : ComRec) (res : ListResult) (cm : Filter H) : Bool := specialException (lineMessages i res cm)

def bans (i : ComRec) (res : ListResult) (cm : Filter H) : Bool := specialBan (lineMessages i res cm)

def decide_ (i : ComRec) (made : Bool) (res : ListResult) (cm : Filter H) : Action → Decisions
  | .setexception =>
    { decisions cm with
      isexception := true, isGrey := false, isBlocked := false
      nomitm := excepts i res cm || cm.nomitm
      automitm := !excepts i res cm && cm.automitm
      filtergroup := if excepts i res cm then -1 else cm.filtergroup }
  | .setgrey => { decisions cm with isGrey := true, isexception := false, isBlocked := false }
  | .setblock =>
    { decisions cm with
      isBlocked := true, isGrey := false, isexception := false
      filtergroup := if bans i res cm then -1 else cm.filtergroup }
  | .setgomitm => { decisions cm with gomitm := (cm.ismitmcandidate && !cm.nomitm) || cm.gomitm }
  | .setnomitm => { decisions cm with nomitm := true, gomitm := false, automitm := false }
  | .setautomitm => { decisions cm with automitm := !cm.nomitm || cm.automitm }
  | .unsetautomitm => { decisions cm with automitm := false }
  | .setgroup => { decisions cm with filtergroup := (setgroup env i made cm).2.filtergroup }
  | .unsetbypass => { decisions cm with isexception := false }
  | _ => decisions cm

theorem setexception_decisions (i : ComRec) (made : Bool) (res : ListResult) (cm : Filter H) :
    decisions (setexception env i res cm) = decide_ env i made res cm .setexception := by
  have same : specialException (noteException env i res cm) = excepts i res cm := rfl
  simp only [setexception, decide_, same]
  cases excepts i res cm with
  | true => rfl
  | false => rfl

theorem setblock_decisions (i : ComRec) (made : Bool) (res : ListResult) (cm : Filter H) :
    decisions (setblock env i res cm) = decide_ env i made res cm .setblock := by
  have same : specialBan (noteBlock env i res cm) = bans i res cm := rfl
  simp only [setblock, decide_, same]
  cases bans i res cm with
  | true => rfl
  | false => rfl

theorem setgroup_decisions (i : ComRec) (made : Bool) (res : ListResult) (cm : Filter H) :
    decisions (setgroup env i made cm).2 = decide_ env i made res cm .setgroup := by
  simp only [decide_, setgroup]
  split
  · rfl
  · split <;> rfl

theorem setgomitm_decisions (i : ComRec) (made : Bool) (res : ListResult) (cm : Filter H) :
    decisions (act env i made res cm .setgomitm).2 = decide_ env i made res cm .setgomitm := by
  simp only [act, decide_]
  cases cm.ismitmcandidate && !cm.nomitm with
  | true => rfl
  | false => rfl

theorem setautomitm_decisions (i : ComRec) (made : Bool) (res : ListResult) (cm : Filter H) :
    decisions (act env i made res cm .setautomitm).2 = decide_ env i made res cm .setautomitm := by
  simp only [act, decide_]
  split
  · rename_i forbidden
    rw [forbidden]
    rfl
  · rename_i allowed
    have set : (!cm.nomitm || cm.automitm) = true := by simp [allowed]
    rw [set]
    rfl

theorem act_decisions (i : ComRec) (made : Bool) (res : ListResult) (cm : Filter H) (action : Action) :
    decisions (act env i made res cm action).2 = decide_ env i made res cm action := by
  cases action with
  | setexception => exact setexception_decisions env i made res cm
  | setblock => exact setblock_decisions env i made res cm
  | setgroup => exact setgroup_decisions env i made res cm
  | setgomitm => exact setgomitm_decisions env i made res cm
  | setautomitm => exact setautomitm_decisions env i made res cm
  | setredirect | setsearchterm | unsetbypassallow | unsetinfectionbypassallow =>
    simp only [act, decide_]
    split <;> rfl
  | _ => rfl

end Conditions

/- What holds of every line of a run, given that it does of every line by itself. -/
section Runs
variable (env : Env W H)

/-- Lines whose action is not a call, with the state that they leave. -/
def lineDone (i : ComRec) (s : Story W H) : Story W H :=
  let checked := checkLine env i s
  if checked.found == i.isif then
    let (answer, s) := performAction env i checked
    s.setReturn answer
  else checked.story.setReturn false

def isCall (i : ComRec) : Bool := 0 < i.action_id && i.action_id ≤ sbBiFuncBase

theorem actionOf_low {action_id : Nat} (low : action_id ≤ sbBiFuncBase) : actionOf action_id = none :=
  if_pos low

theorem perform_call (call : Nat → Story W H → Run W H) {i : ComRec} (checked : Checked W H)
    (isCalled : isCall i = true) : perform env call i checked = call i.action_id checked.story := by
  simp only [isCall, Bool.and_eq_true, decide_eq_true_eq] at isCalled
  have low : ¬ i.action_id > sbBiFuncBase := by omega
  rw [perform, if_neg low, if_pos isCalled.1]

theorem perform_own (call : Nat → Story W H → Run W H) {i : ComRec} (checked : Checked W H)
    (own : isCall i = false) :
    perform env call i checked =
      ⟨.returned (performAction env i checked).1, (performAction env i checked).2, []⟩ := by
  simp only [isCall, Bool.and_eq_false_imp, decide_eq_true_eq, decide_eq_false_iff_not] at own
  unfold perform
  split
  · rfl
  · rename_i low
    have zero : i.action_id = 0 := by
      by_contra positive
      exact own (Nat.pos_of_ne_zero positive) (Nat.le_of_not_gt low)
    rw [if_neg (by omega), performAction, actionOf_low (by omega)]

/-- A line that was executed to its end: the events of the function it called and the state
it leaves. -/
inductive Executed (call : Nat → Story W H → Run W H) (i : ComRec) (s : Story W H) :
    List (Event W H) → Story W H → Prop where
  | own (noCall : isCall i = true → (checkLine env i s).found ≠ i.isif) :
    Executed call i s [] (lineDone env i s)
  | called {answer : Bool} (isCalled : isCall i = true)
    (returned : (call i.action_id (checkLine env i s).story).outcome = .returned answer) :
    Executed call i s (call i.action_id (checkLine env i s).story).events
      ((call i.action_id (checkLine env i s).story).story.setReturn answer)

/-- The run of a function from one of its lines on: the line is the last one executed, others
follow, or the function that it calls does not return. -/
theorem runLines_cons (call : Nat → Story W H → Run W H) (i : ComRec) (rest : List ComRec)
    (old : Bool) (s : Story W H) :
    (∃ calls done answer, Executed env call i s calls done ∧
      (runLines env (perform env call) (i :: rest) old s = ⟨.returned answer, done, calls ++ [⟨i, s, done⟩]⟩ ∨
        runLines env (perform env call) (i :: rest) old s =
          { runLines env (perform env call) rest answer done with
            events := calls ++ ⟨i, s, done⟩ :: (runLines env (perform env call) rest answer done).events })) ∨
      (isCall i = true ∧ (∀ answer, (runLines env (perform env call) (i :: rest) old s).outcome ≠ .returned answer) ∧
        runLines env (perform env call) (i :: rest) old s = call i.action_id (checkLine env i s).story) := by
  rw [runLines]
  dsimp only
  split
  · rename_i acts
    rw [beq_iff_eq] at acts
    cases kind : isCall i with
    | true =>
      rw [perform_call env call _ kind]
      split
      · rename_i answer returned
        refine .inl ⟨_, _, answer, .called kind returned, ?_⟩
        split
        · exact .inl rfl
        · exact .inr (by simp)
      · rename_i unfinished
        exact .inr ⟨rfl, unfinished, rfl⟩
    | false =>
      have done : lineDone env i s =
          (performAction env i (checkLine env i s)).2.setReturn (performAction env i (checkLine env i s)).1 := by
        rw [lineDone, if_pos (by simpa using acts)]
      rw [perform_own env call _ kind]
      refine .inl ⟨[], lineDone env i s, (performAction env i (checkLine env i s)).1,
        .own (by simp [kind]), ?_⟩
      dsimp only
      rw [← done]
      split
      · exact .inl rfl
      · exact .inr rfl
  · rename_i passed
    rw [beq_iff_eq] at passed
    have done : lineDone env i s = (checkLine env i s).story.setReturn false := by
      rw [lineDone, if_neg (by simpa using passed)]
    refine .inl ⟨[], lineDone env i s, false, .own (fun _ => passed), .inr ?_⟩
    rw [done]
    rfl

/-- An invariant of stories, kept by the conditions of lines and, where the line and the state
before it meet a condition, by the lines that are no calls. -/
structure Kept (Inv : Story W H → Prop) (Cond : ComRec → Story W H → Prop) : Prop where
  check : ∀ i s, Inv s → Inv (checkLine env i s).story
  done : ∀ i s, (isCall i = true → (checkLine env i s).found ≠ i.isif) → Inv s → Cond i s →
    Inv (lineDone env i s)
  setReturn : ∀ s answer, Inv s → Inv (s.setReturn answer)

def Holds (Inv : Story W H → Prop) (run : Run W H) : Prop :=
  (∀ e ∈ run.events, Inv e.before_ ∧ Inv e.after_) ∧ Inv run.story

def Meets (Cond : ComRec → Story W H → Prop) (run : Run W H) : Prop :=
  ∀ e ∈ run.events, Cond e.line e.before_

variable {Inv : Story W H → Prop} {Cond : ComRec → Story W H → Prop}

theorem runLines_holds (kept : Kept env Inv Cond) {call : Nat → Story W H → Run W H}
    (calls : ∀ fID s, Inv s → Meets Cond (call fID s) → Holds Inv (call fID s))
    (lines : List ComRec) (old : Bool) (s : Story W H) (start : Inv s)
    (meets : Meets Cond (runLines env (perform env call) lines old s)) :
    Holds Inv (runLines env (perform env call) lines old s) := by
  induction lines generalizing old s with
  | nil => exact ⟨by simp [runLines], start⟩
  | cons i rest ih =>
    -- what the line itself leaves, if its own events and those of its calls meet the condition
    have executed : ∀ events done, Executed env call i s events done → Cond i s →
        (∀ e ∈ events, Cond e.line e.before_) →
          (∀ e ∈ events, Inv e.before_ ∧ Inv e.after_) ∧ Inv done := by
      intro events done execution here inner
      cases execution with
      | own noCall => exact ⟨by simp, kept.done i s noCall start here⟩
      | called isCalled returned =>
        obtain ⟨all, last⟩ := calls _ _ (kept.check i s start) inner
        exact ⟨all, kept.setReturn _ _ last⟩
    rcases runLines_cons env call i rest old s with ⟨events, done, answer, execution, last | more⟩ | ⟨-, -, open_⟩
    · rw [last] at meets ⊢
      have here : Cond i s := meets ⟨i, s, done⟩ (by simp)
      obtain ⟨all, after_⟩ := executed events done execution here fun e member => meets e (by simp [member])
      refine ⟨?_, after_⟩
      intro e member
      rcases List.mem_append.mp member with inner | own
      · exact all e inner
      · obtain rfl := List.mem_singleton.mp own
        exact ⟨start, after_⟩
    · rw [more] at meets ⊢
      have here : Cond i s := meets ⟨i, s, done⟩ (by simp)
      obtain ⟨all, after_⟩ := executed events done execution here fun e member => meets e (by simp [member])
      obtain ⟨following, final⟩ := ih answer done after_ fun e member => meets e (by simp [member])
      refine ⟨?_, final⟩
      intro e member
      rcases List.mem_append.mp member with inner | own
      · exact all e inner
      · rcases List.mem_cons.mp own with rfl | later
        · exact ⟨start, after_⟩
        · exact following e later
    · rw [open_] at meets ⊢
      exact calls _ _ (kept.check i s start) meets

theorem runFunct_holds (kept : Kept env Inv Cond) (sb : StoryBoard) (depth fID : Nat) (s : Story W H)
    (start : Inv s) (meets : Meets Cond (runFunct env sb depth fID s)) :
    Holds Inv (runFunct env sb depth fID s) := by
  induction depth generalizing fID s with
  | zero => exact ⟨by simp [runFunct], start⟩
  | succ depth ih =>
    rw [runFunct] at meets ⊢
    split at meets
    · exact ⟨by simp, start⟩
    · exact runLines_holds env kept ih _ _ _ start meets

/-- Every event of a line that is no call is what the line does by itself. -/
theorem runLines_own {call : Nat → Story W H → Run W H}
    (calls : ∀ fID s, ∀ e ∈ (call fID s).events, isCall e.line = false → e.after_ = lineDone env e.line e.before_)
    (lines : List ComRec) (old : Bool) (s : Story W H) :
    ∀ e ∈ (runLines env (perform env call) lines old s).events, isCall e.line = false →
      e.after_ = lineDone env e.line e.before_ := by
  induction lines generalizing old s with
  | nil => simp [runLines]
  | cons i rest ih =>
    have executed : ∀ events done, Executed env call i s events done →
        (∀ e ∈ events, isCall e.line = false → e.after_ = lineDone env e.line e.before_) ∧
          (isCall i = false → done = lineDone env i s) := by
      intro events done execution
      cases execution with
      | own noCall => exact ⟨by simp, fun _ => rfl⟩
      | called isCalled returned => exact ⟨calls _ _, by simp [isCalled]⟩
    intro e member own
    rcases runLines_cons env call i rest old s with ⟨events, done, answer, execution, last | more⟩ | ⟨-, -, open_⟩
    · obtain ⟨inner, here⟩ := executed events done execution
      rw [last] at member
      rcases List.mem_append.mp member with deeper | self
      · exact inner e deeper own
      · obtain rfl := List.mem_singleton.mp self
        exact here own
    · obtain ⟨inner, here⟩ := executed events done execution
      rw [more] at member
      rcases List.mem_append.mp member with deeper | self
      · exact inner e deeper own
      · rcases List.mem_cons.mp self with rfl | later
        · exact here own
        · exact ih _ _ e later own
    · rw [open_] at member
      exact calls _ _ e member own

theorem runFunct_own (sb : StoryBoard) (depth fID : Nat) (s : Story W H) :
    ∀ e ∈ (runFunct env sb depth fID s).events, isCall e.line = false →
      e.after_ = lineDone env e.line e.before_ := by
  induction depth generalizing fID s with
  | zero => simp [runFunct]
  | succ depth ih =>
    rw [runFunct]
    split
    · simp
    · exact runLines_own env ih _ _ _

/-- Functions call only functions of the table that stand lower in some ranking, so that no
function calls itself, directly or through others. -/
def CallsDescend (sb : StoryBoard) (rank : Nat → Nat) : Prop :=
  ∀ n F, sb.funct_vec[n]? = some F → ∀ i ∈ F.comm_dq, isCall i = true →
    i.action_id ≤ sb.funct_vec.length ∧ rank i.action_id < rank (n + 1)

def callsDescend (sb : StoryBoard) (rank : Nat → Nat) : Bool :=
  sb.funct_vec.zipIdx.all fun (F, n) => F.comm_dq.all fun i =>
    !isCall i || (i.action_id ≤ sb.funct_vec.length && rank i.action_id < rank (n + 1))

theorem callsDescend_sound {sb : StoryBoard} {rank : Nat → Nat} (checked : callsDescend sb rank = true) :
    CallsDescend sb rank := by
  intro n F found i member isCalled
  have place : (F, n) ∈ sb.funct_vec.zipIdx := List.mem_zipIdx_iff_getElem?.mpr found
  simp only [callsDescend, List.all_eq_true] at checked
  simpa [isCalled] using checked (F, n) place i member

theorem runLines_returns {call : Nat → Story W H → Run W H} (lines : List ComRec) (old : Bool)
    (s : Story W H)
    (calls : ∀ i ∈ lines, isCall i = true → ∀ s, ∃ answer, (call i.action_id s).outcome = .returned answer) :
    ∃ answer, (runLines env (perform env call) lines old s).outcome = .returned answer := by
  induction lines generalizing old s with
  | nil => exact ⟨old, rfl⟩
  | cons i rest ih =>
    rcases runLines_cons env call i rest old s with ⟨events, done, answer, -, last | more⟩ | ⟨isCalled, -, open_⟩
    · exact ⟨answer, by rw [last]⟩
    · obtain ⟨final, returned⟩ := ih answer done fun j member => calls j (List.mem_cons_of_mem _ member)
      exact ⟨final, by rw [more]; exact returned⟩
    · rw [open_]
      exact calls i List.mem_cons_self isCalled _

theorem runFunct_returns {sb : StoryBoard} {rank : Nat → Nat} (descend : CallsDescend sb rank)
    (depth : Nat) {fID : Nat} (defined : 0 < fID ∧ fID ≤ sb.funct_vec.length) (deep : rank fID < depth)
    (s : Story W H) : ∃ answer, (runFunct env sb depth fID s).outcome = .returned answer := by
  induction depth generalizing fID s with
  | zero => omega
  | succ depth ih =>
    have place : sb.funct_vec[if fID = 0 then 2 ^ 32 - 1 else fID - 1]? =
        some (sb.funct_vec.get ⟨fID - 1, by omega⟩) := by
      rw [if_neg (by omega), List.getElem?_eq_getElem]
      rfl
    rw [runFunct, place]
    refine runLines_returns env _ _ _ ?_
    intro i member isCalled s
    have lower := descend (fID - 1) _ (List.getElem?_eq_getElem (by omega)) i member isCalled
    have same : fID - 1 + 1 = fID := by omega
    rw [same] at lower
    simp only [isCall, Bool.and_eq_true, decide_eq_true_eq] at isCalled
    exact ih ⟨isCalled.1, lower.1⟩ (by omega) s

/-- What a line that is no call makes of the decisions. -/
theorem lineDone_decisions (i : ComRec) (s : Story W H) :
    decisions (lineDone env i s).cm = decisions s.cm ∨
      ∃ action, actionOf i.action_id = some action ∧ (checkLine env i s).found = i.isif ∧
        decisions (lineDone env i s).cm =
          decide_ env i (checkLine env i s).made (checkLine env i s).res (checkLine env i s).story.cm action := by
  have checked := checkLine_decisions env i s
  simp only [lineDone]
  split
  · rename_i acts
    rw [beq_iff_eq] at acts
    simp only [performAction]
    cases known : actionOf i.action_id with
    | none => exact .inl checked
    | some action => exact .inr ⟨action, rfl, acts, act_decisions env i _ _ _ action⟩
  · exact .inl checked

end Runs

/- At most one verdict. -/
section Verdicts
variable (env : Env W H)

def AtMostOne (d : Decisions) : Prop :=
  ¬ (d.isexception ∧ d.isGrey) ∧ ¬ (d.isexception ∧ d.isBlocked) ∧ ¬ (d.isGrey ∧ d.isBlocked)

theorem decide_atMostOne (i : ComRec) (made : Bool) (res : ListResult) {cm : Filter H}
    (before_ : AtMostOne (decisions cm)) (action : Action) : AtMostOne (decide_ env i made res cm action) := by
  cases action with
  | setexception | setgrey | setblock => simp [decide_, AtMostOne]
  | unsetbypass => exact ⟨by simp [decide_], by simp [decide_], before_.2.2⟩
  | _ => exact before_

theorem atMostOne_kept : Kept env (fun s => AtMostOne (decisions s.cm)) (fun _ _ => True) where
  check i s before_ := by
    rw [checkLine_decisions]
    exact before_
  done i s _ before_ _ := by
    rcases lineDone_decisions env i s with same | ⟨action, -, -, decided⟩
    · rwa [same]
    · rw [decided]
      refine decide_atMostOne env i _ _ ?_ action
      rwa [checkLine_decisions]
  setReturn _ _ before_ := before_

/-- Whatever the lists answer, no line of a run leaves two of the three verdicts. -/
theorem one_verdict_at_most {sb : StoryBoard} {rank : Nat → Nat} (descend : CallsDescend sb rank)
    {fID : Nat} (defined : 0 < fID ∧ fID ≤ sb.funct_vec.length) (s : Story W H)
    (start : AtMostOne (decisions s.cm)) :
    (∃ depth answer, (runFunct env sb depth fID s).outcome = .returned answer) ∧
      ∀ depth, ∀ e ∈ (runFunct env sb depth fID s).events, AtMostOne (decisions e.after_.cm) := by
  refine ⟨⟨rank fID + 1, runFunct_returns env descend _ defined (Nat.lt_succ_self _) s⟩, ?_⟩
  intro depth e member
  exact ((runFunct_holds env (atMostOne_kept env) sb depth fID s start fun _ _ => trivial).1 e member).2

/-- A setting to run storyboards in: headers without lines, two groups, one list that holds
every text. -/
def sampleEnv : Env Unit Unit where
  options := ⟨false, false, 2, 0, none, []⟩
  headers := ⟨fun _ => [], fun _ h => h, fun _ => [], fun _ => [], fun _ => [], fun _ => [], fun _ => [],
    fun url h => (url, h), fun _ h => ([], h), fun url _ => url, fun _ h => h, fun _ h => h⟩
  inList j _ _ world := ((j.name == str "sites", ⟨[], [], str "2", 0, 0, false⟩), world)
  hostOf _ world := (none, world)

def sampleStory : Story Unit Unit := ⟨{ Filter.reset false true () () with ismitmcandidate := true }, ()⟩

def sampleLine (isif : Bool) (state : Nat) (lists : List ListInfo) (mess_no action_id : Nat) : ComRec :=
  ⟨isif, state, lists, mess_no, 0, action_id, false, false, false, 0, [], []⟩

/-- The first function calls the second one, which blocks, and makes the request grey then. -/
def blockThenGrey : StoryBoard :=
  ⟨[⟨str "checkrequest", 1, [sampleLine true 27 [] 0 2, sampleLine true 27 [] 0 5002], [], 0⟩,
    ⟨str "block", 2, [sampleLine true 27 [] 0 5003], [], 0⟩], 2, fun _ => 1⟩

theorem blockThenGrey_descends : callsDescend blockThenGrey (fun n => 2 - n) = true := by decide

theorem one_verdict_after_nested_block :
    (∃ depth answer, (runFunct sampleEnv blockThenGrey depth 1 sampleStory).outcome = .returned answer) ∧
      ∀ depth, ∀ e ∈ (runFunct sampleEnv blockThenGrey depth 1 sampleStory).events,
        AtMostOne (decisions e.after_.cm) :=
  one_verdict_at_most sampleEnv (callsDescend_sound blockThenGrey_descends) (by decide)
    sampleStory (by simp [AtMostOne, decisions, sampleStory, Filter.reset])

end Verdicts

/- Decisions about MITM. -/
section Mitm
variable (env : Env W H)

def MitmClear (d : Decisions) : Prop := d.nomitm = true → d.gomitm = false ∧ d.automitm = false

/-- The line is an exception that forbids MITM because of its message number. -/
def forbidsMitm (i : ComRec) (s : Story W H) : Prop :=
  (checkLine env i s).found = i.isif ∧ actionOf i.action_id = some .setexception ∧
    excepts i (checkLine env i s).res (checkLine env i s).story.cm = true

theorem decide_mitmClear (i : ComRec) (made : Bool) (res : ListResult) {cm : Filter H}
    (before_ : MitmClear (decisions cm)) (action : Action)
    (allowed : action = .setexception → excepts i res cm = true → cm.gomitm = false) :
    MitmClear (decide_ env i made res cm action) := by
  cases action with
  | setexception =>
    intro forbidden
    simp only [decide_, decisions, Bool.or_eq_true] at forbidden ⊢
    by_cases special : excepts i res cm = true
    · exact ⟨allowed rfl special, by simp [special]⟩
    · obtain ⟨noGo, noAuto⟩ := before_ (forbidden.resolve_left special)
      exact ⟨noGo, by simp [show cm.automitm = false from noAuto]⟩
  | setgomitm =>
    intro forbidden
    obtain ⟨noGo, noAuto⟩ := before_ forbidden
    exact ⟨by simp [decide_, show cm.nomitm = true from forbidden, show cm.gomitm = false from noGo], noAuto⟩
  | setautomitm =>
    intro forbidden
    obtain ⟨noGo, noAuto⟩ := before_ forbidden
    exact ⟨noGo, by simp [decide_, show cm.nomitm = true from forbidden, show cm.automitm = false from noAuto]⟩
  | setnomitm => simp [decide_, MitmClear]
  | unsetautomitm => exact fun forbidden => ⟨(before_ forbidden).1, rfl⟩
  | _ => exact before_

theorem gomitm_of_decisions {a b : Filter H} (same : decisions a = decisions b) : a.gomitm = b.gomitm :=
  congrArg Decisions.gomitm same

theorem mitmClear_kept : Kept env (fun s => MitmClear (decisions s.cm))
    (fun i s => forbidsMitm env i s → s.cm.gomitm = false) where
  check i s before_ := by
    rw [checkLine_decisions]
    exact before_
  done i s _ before_ allowed := by
    rcases lineDone_decisions env i s with same | ⟨action, known, acts, decided⟩
    · rwa [same]
    · rw [decided]
      refine decide_mitmClear env i _ _ ?_ action ?_
      · rwa [checkLine_decisions]
      · intro exception special
        rw [gomitm_of_decisions (checkLine_decisions env i s)]
        exact allowed ⟨acts, exception ▸ known, special⟩
  setReturn _ _ before_ := before_

theorem isCall_of_action {i : ComRec} {action : Action} (known : actionOf i.action_id = some action) :
    isCall i = false := by
  rw [← Bool.not_eq_true]
  intro isCalled
  simp only [isCall, Bool.and_eq_true, decide_eq_true_eq] at isCalled
  rw [actionOf_low isCalled.2] at known
  cases known

theorem forbidsMitm_done {i : ComRec} {s : Story W H} (forbids : forbidsMitm env i s)
    (clear_ : MitmClear (decisions (lineDone env i s).cm)) : s.cm.gomitm = false := by
  obtain ⟨acts, known, special⟩ := forbids
  have done : decisions (lineDone env i s).cm = decide_ env i (checkLine env i s).made
      (checkLine env i s).res (checkLine env i s).story.cm .setexception := by
    simp only [lineDone, acts, beq_self_eq_true, ↓reduceIte, performAction, known]
    exact act_decisions env i _ _ _ .setexception
  rw [done] at clear_
  have noGo := (clear_ (by simp [decide_, special])).1
  rwa [← gomitm_of_decisions (checkLine_decisions env i s)]

/-- Once MITM is forbidden no decision for it is left standing, exactly if no exception
forbids it after it has been decided. -/
theorem mitm_clear_iff_none_decided {sb : StoryBoard} {rank : Nat → Nat} (descend : CallsDescend sb rank)
    {fID : Nat} (defined : 0 < fID ∧ fID ≤ sb.funct_vec.length) (s : Story W H)
    (start : MitmClear (decisions s.cm)) :
    (∃ depth answer, (runFunct env sb depth fID s).outcome = .returned answer) ∧
      ∀ depth, (∀ e ∈ (runFunct env sb depth fID s).events, MitmClear (decisions e.after_.cm)) ↔
        ∀ e ∈ (runFunct env sb depth fID s).events,
          forbidsMitm env e.line e.before_ → e.before_.cm.gomitm = false := by
  refine ⟨⟨rank fID + 1, runFunct_returns env descend _ defined (Nat.lt_succ_self _) s⟩, ?_⟩
  intro depth
  constructor
  · intro clear_ e member forbids
    have own := runFunct_own env sb depth fID s e member (isCall_of_action forbids.2.1)
    exact forbidsMitm_done env forbids (own ▸ clear_ e member)
  · intro allowed e member
    exact ((runFunct_holds env (mitmClear_kept env) sb depth fID s start allowed).1 e member).2

/-- A connection that is to be intercepted, then the exception for the client's address. -/
def gomitmThenException : StoryBoard :=
  ⟨[⟨str "checkrequest", 1, [sampleLine true 27 [] 0 5008, sampleLine true 27 [] 600 5001], [], 0⟩], 1, fun _ => 1⟩

theorem mitm_left_by_exception :
    CallsDescend gomitmThenException (fun _ => 0) ∧ MitmClear (decisions sampleStory.cm) ∧
      ∃ e ∈ (runFunct sampleEnv gomitmThenException 1 1 sampleStory).events,
        e.after_.cm.nomitm = true ∧ e.after_.cm.gomitm = true ∧ ¬ MitmClear (decisions e.after_.cm) := by
  refine ⟨callsDescend_sound (by decide), by simp [MitmClear, decisions, sampleStory, Filter.reset], ?_⟩
  have flags : (runFunct sampleEnv gomitmThenException 1 1 sampleStory).events.map
      (fun e => decisions e.after_.cm) =
        [⟨false, false, false, true, false, false, 0⟩, ⟨true, false, false, true, true, false, -1⟩] := by decide
  obtain ⟨e, member, left⟩ := List.mem_map.mp (flags ▸ List.mem_cons_of_mem _ List.mem_cons_self :
    (⟨true, false, false, true, true, false, -1⟩ : Decisions) ∈ _)
  have forbidden : e.after_.cm.nomitm = true := congrArg Decisions.nomitm left
  have decided : e.after_.cm.gomitm = true := congrArg Decisions.gomitm left
  refine ⟨e, member, forbidden, decided, ?_⟩
  intro clear_
  have noGo := (clear_ forbidden).1
  simp [decisions, decided] at noGo

def nomitmThenException : StoryBoard :=
  ⟨[⟨str "checkrequest", 1, [sampleLine true 27 [] 0 5008, sampleLine true 27 [] 0 5022,
    sampleLine true 27 [] 600 5001], [], 0⟩], 1, fun _ => 1⟩

theorem nomitmThenException_descends : callsDescend nomitmThenException (fun _ => 0) = true := by decide

theorem mitm_clear_after_nomitm :
    (∃ depth answer, (runFunct sampleEnv nomitmThenException depth 1 sampleStory).outcome = .returned answer) ∧
      ∀ depth, (∀ e ∈ (runFunct sampleEnv nomitmThenException depth 1 sampleStory).events,
          MitmClear (decisions e.after_.cm)) ↔
        ∀ e ∈ (runFunct sampleEnv nomitmThenException depth 1 sampleStory).events,
          forbidsMitm sampleEnv e.line e.before_ → e.before_.cm.gomitm = false :=
  mitm_clear_iff_none_decided sampleEnv (callsDescend_sound nomitmThenException_descends) (by decide)
    sampleStory (by simp [MitmClear, decisions, sampleStory, Filter.reset])

end Mitm

end GuardianStoryRun
