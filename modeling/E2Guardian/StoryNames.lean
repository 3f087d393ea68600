import E2Guardian.StoryFlags
import E2Guardian.StoryTable

/- A storyboard as its author writes it, where an action is the name of a built-in action or of a function, and the numbers
   that the second pass puts in the place of the names. -/
namespace GuardianStoryNames
open GuardianString GuardianTime GuardianStoryBoard GuardianStoryRun

def builtin (name : Str) : Option Action := (biFunctMap.findIdx? (· == name)).bind fun i => actions[i]?

def functionOf (functions : List SBFunction) (name : Str) : Option SBFunction := functions.find? (·.name == name)

section Meaning
variable {W H : Type} (env : Env W H)

/-- An action by its name. One that has not been defined does nothing. -/
def performNamed (functions : List SBFunction) (call : SBFunction → Story W H → Run W H) (i : ComRec) (checked : Checked W H) :
    Run W H :=
  match builtin i.action_name with
  | some action =>
    let (answer, cm) := act env i checked.made checked.res checked.story.cm action
    ⟨.returned answer, ⟨cm, checked.story.world⟩, []⟩
  | none =>
    match functionOf functions i.action_name with
    | some F => call F checked.story
    | none => ⟨.returned true, checked.story, []⟩

/-- The run of a function, with the depth to which calls may nest. No number is looked at. -/
def runNamed (functions : List SBFunction) : Nat → SBFunction → Story W H → Run W H
  | 0, _, s => ⟨.deep, s, []⟩
  | depth + 1, F, s => runLines env (performNamed env functions (runNamed functions depth)) F.comm_dq false s

/- The numbers. -/

theorem actions_listed : ∀ i < 25, actions[i]? ≠ none := by decide

theorem builtin_none {name : Str} (unreserved : getBIFunctID name = 0) : builtin name = none := by
  rw [getBIFunctID] at unreserved
  rw [builtin]
  cases place : biFunctMap.findIdx? (· == name) with
  | none => rfl
  | some i =>
    rw [place] at unreserved
    cases unreserved

theorem builtin_some {name : Str} (reserved : getBIFunctID name ≠ 0) :
    ∃ action, builtin name = some action ∧ actionOf (getBIFunctID name) = some action := by
  rw [getBIFunctID] at reserved ⊢
  rw [builtin]
  cases place : biFunctMap.findIdx? (· == name) with
  | none =>
    rw [place] at reserved
    exact absurd rfl reserved
  | some i =>
    have few : i < 25 := (List.findIdx?_eq_some_iff_getElem.mp place).1
    obtain ⟨action, known⟩ := Option.ne_none_iff_exists'.mp (actions_listed i few)
    have number : i + 1 + sbBiFuncBase - sbBiFuncBase - 1 = i := by omega
    refine ⟨action, known, ?_⟩
    rw [Option.map_some, Option.getD_some, actionOf, if_neg (by omega), number]
    exact known

variable {sb : StoryBoard}

theorem number_of_function (aligned : Aligned sb) {fname : Str} (unreserved : getBIFunctID fname = 0) {F : SBFunction}
    (found : functionOf sb.funct_vec fname = some F) :
    0 < getFunctID sb fname ∧ getFunctID sb fname ≤ sb.funct_vec.length ∧ sb.funct_vec[getFunctID sb fname - 1]? = some F := by
  obtain ⟨k, bound, here⟩ := List.mem_iff_getElem.mp (List.mem_of_find?_eq_some found)
  have place : sb.funct_vec[k]? = some F := by rw [List.getElem?_eq_getElem bound, here]
  have number : getFunctID sb fname = k + 1 := by
    rw [getFunctID, unreserved, ite_self, if_neg (Nat.lt_irrefl 0)]
    rw [functionOf] at found
    rw [found, Option.map_some, Option.getD_some]
    exact aligned.ids k F place
  rw [number]
  exact ⟨Nat.succ_pos k, bound, place⟩

theorem number_of_nothing {fname : Str} (unreserved : getBIFunctID fname = 0) (missing : functionOf sb.funct_vec fname = none) :
    getFunctID sb fname = 0 := by
  rw [functionOf] at missing
  rw [getFunctID, unreserved, ite_self, if_neg (Nat.lt_irrefl 0), missing]
  rfl

theorem runFunct_at {k : Nat} {F : SBFunction} (positive : 0 < k) (place : sb.funct_vec[k - 1]? = some F) (depth : Nat)
    (s : Story W H) : GuardianStoryRun.runFunct env sb (depth + 1) k s =
      runLines env (perform env (GuardianStoryRun.runFunct env sb depth)) F.comm_dq false s := by
  rw [GuardianStoryRun.runFunct, if_neg (Nat.ne_of_gt positive), place]

/-- An action does by its number what it does by its name, when the functions that it can call do. -/
theorem perform_by_name (aligned : Aligned sb) (nonempty : sb.funct_vec ≠ []) (few : sb.funct_vec.length ≤ sbBiFuncBase)
    {call : Nat → Story W H → Run W H} {callNamed : SBFunction → Story W H → Run W H}
    (calls : ∀ k F, 0 < k → sb.funct_vec[k - 1]? = some F → call k = callNamed F) {i : ComRec}
    (resolved : i.action_id = getFunctID sb i.action_name) (checked : Checked W H) :
    perform env call i checked = performNamed env sb.funct_vec callNamed i checked := by
  rw [perform, performNamed, resolved]
  by_cases reserved : getBIFunctID i.action_name = 0
  · rw [builtin_none reserved]
    cases found : functionOf sb.funct_vec i.action_name with
    | none =>
      rw [number_of_nothing reserved found, if_neg (Nat.not_lt_zero _), if_neg (Nat.lt_irrefl 0)]
    | some F =>
      obtain ⟨positive, bound, place⟩ := number_of_function aligned reserved found
      rw [if_neg (by omega), if_pos positive, calls _ F positive place]
  · obtain ⟨action, named, numbered⟩ := builtin_some reserved
    have number : getFunctID sb i.action_name = getBIFunctID i.action_name := by
      have some_ : sb.funct_vec.isEmpty = false := by simpa using nonempty
      rw [getFunctID, some_, if_neg Bool.false_ne_true, if_pos (Nat.pos_of_ne_zero reserved)]
    rw [number, if_pos (getBIFunctID_above (Nat.pos_of_ne_zero reserved)), named, performAction, resolved, number, numbered]

theorem runLines_congr {numbered named : ComRec → Checked W H → Run W H} {lines : List ComRec}
    (same : ∀ i ∈ lines, ∀ checked, numbered i checked = named i checked) (answer : Bool) (s : Story W H) :
    runLines env numbered lines answer s = runLines env named lines answer s := by
  induction lines generalizing answer s with
  | nil => rfl
  | cons i rest ih =>
    obtain ⟨first, others⟩ := List.forall_mem_cons.mp same
    rw [runLines, runLines]
    simp only [first, ih others]

/-- Every function of a table whose lines are resolved runs by numbers as it runs by names. -/
theorem runFunct_by_name (aligned : Aligned sb) (few : sb.funct_vec.length ≤ sbBiFuncBase)
    (resolved : ∀ f ∈ sb.funct_vec, ∀ line ∈ f.comm_dq, line.action_id = getFunctID sb line.action_name) (depth : Nat) :
    ∀ k F, 0 < k → sb.funct_vec[k - 1]? = some F →
      GuardianStoryRun.runFunct env sb depth k = runNamed env sb.funct_vec depth F := by
  induction depth with
  | zero => exact fun _ _ _ _ => rfl
  | succ depth ih =>
    intro k F positive place
    have member := List.mem_of_getElem? place
    funext s
    rw [runFunct_at env positive place, runNamed]
    apply runLines_congr
    intro i inFunction checked
    exact perform_by_name env aligned (List.ne_nil_of_mem member) few ih (resolved F member i inFunction) checked

/-- A storyboard that has been read runs each of its functions as the names in its files say. -/
theorem numbers_keep_names {fs : FileSystem} (outside : FilesIncludeBetween fs)
    {findListPtr : Str → Nat → Option ListInfo} {levels : Nat} {filename : Str}
    (read : readFile findListPtr fs levels .empty filename = some (true, sb)) (few : sb.funct_vec.length ≤ sbBiFuncBase)
    {fname : Str} (unreserved : getBIFunctID fname = 0) {F : SBFunction} (found : functionOf sb.funct_vec fname = some F)
    (index depth : Nat) (s : Story W H) :
    (setEntry sb index fname).1 = true ∧
      GuardianStoryRun.runFunct env sb depth ((setEntry sb index fname).2.entrys index) s =
        runNamed env sb.funct_vec depth F s := by
  unfold readFile at read
  split at read
  · rename_i first pass
    simp only [Option.some.injEq, Prod.mk.injEq, true_and] at read
    subst read
    have between := readFirstPass_between outside levels empty_between pass
    have aligned := secondPass_aligned findListPtr between.toAligned
    obtain ⟨positive, -, place⟩ := number_of_function aligned unreserved found
    have entry : (setEntry (secondPass findListPtr first) index fname).2.entrys index =
        getFunctID (secondPass findListPtr first) fname := if_pos rfl
    have accepted : (setEntry (secondPass findListPtr first) index fname).1 = true := by
      change decide ((setEntry (secondPass findListPtr first) index fname).2.entrys index > 0) = true
      rw [entry]
      exact decide_eq_true positive
    refine ⟨accepted, ?_⟩
    rw [entry]
    exact congrFun (runFunct_by_name env aligned few (fun f member line => secondPass_action findListPtr member) depth _ F
      positive place) s
  · rename_i failed
    exact absurd read (failed sb)

end Meaning

def calledLater : FileSystem := fun _ =>
  some (str "function(check)\nif(true) helper\nif(true) nosuch\nend()\nfunction(helper)\nif(true) setblock\nend()")

theorem called_later_by_name :
    ∃ sb F, readFile (fun _ _ => none) calledLater 2 .empty (str "main.story") = some (true, sb) ∧
      functionOf sb.funct_vec (str "check") = some F ∧ (setEntry sb 0 (str "check")).1 = true ∧
        GuardianStoryRun.runFunct sampleEnv sb 5 ((setEntry sb 0 (str "check")).2.entrys 0) sampleStory =
          runNamed sampleEnv sb.funct_vec 5 F sampleStory := by
  have outside : FilesIncludeBetween calledLater := by
    intro filename text here
    obtain rfl := Option.some.inj here
    decide +kernel
  have summary : (readFile (fun _ _ => none) calledLater 2 .empty (str "main.story")).map (fun answer =>
      (answer.1, answer.2.funct_vec.length, (functionOf answer.2.funct_vec (str "check")).isSome)) = some (true, 2, true) := by
    decide +kernel
  obtain ⟨⟨ok, sb⟩, read, result⟩ := Option.map_eq_some_iff.mp summary
  simp only [Prod.mk.injEq] at result
  obtain ⟨rfl, size, known⟩ := result
  obtain ⟨F, found⟩ := Option.isSome_iff_exists.mp known
  exact ⟨sb, F, read, found,
    numbers_keep_names sampleEnv outside read (by rw [size]; decide) (by decide +kernel) found 0 5 sampleStory⟩

end GuardianStoryNames
