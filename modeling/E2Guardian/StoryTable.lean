import Mathlib.Data.List.Basic
import E2Guardian.StoryBoard

/- The function table that reading storyboard files builds. Numbers are handed out when a
   function starts and it is stored when it ends, so the table is in step with the counter
   only between functions; that is where files can be included. -/
namespace GuardianStoryBoard
open GuardianString GuardianTime

/-- Functions carry their places, and only the first can have the name of a built-in action. -/
structure Aligned (sb : StoryBoard) : Prop where
  ids : ∀ i f, sb.funct_vec[i]? = some f → f.fn_id = i + 1
  names : ∀ i f, sb.funct_vec[i]? = some f → 0 < i → getBIFunctID f.name = 0

structure BetweenFunctions (sb : StoryBoard) : Prop extends Aligned sb where
  counted : sb.fnt_cnt = sb.funct_vec.length

/-- A function that is being read and will replace one of the table or extend it. -/
structure InFunction (r : Reading) (sb : StoryBoard) : Prop extends Aligned sb where
  replacing : r.overwrite = true → 0 < r.fnt_id ∧ r.fnt_id ≤ sb.funct_vec.length ∧
    r.curr_function.fn_id = r.fnt_id ∧ sb.fnt_cnt = sb.funct_vec.length
  extending : r.overwrite = false → sb.fnt_cnt = sb.funct_vec.length + 1 ∧
    r.curr_function.fn_id = sb.funct_vec.length + 1
  unreserved : sb.funct_vec ≠ [] → getBIFunctID r.curr_function.name = 0

def InStep (r : Reading) (sb : StoryBoard) : Prop :=
  if r.in_function then InFunction r sb else BetweenFunctions sb

/-- The number stands for the built-in action or for the function of the name. -/
def Names (sb : StoryBoard) (fname : Str) (id : Nat) : Prop :=
  (id = getBIFunctID fname ∧ sbBiFuncBase < id) ∨
    (0 < id ∧ id ≤ sb.funct_vec.length ∧ ∃ f, sb.funct_vec[id - 1]? = some f ∧ f.name = fname)

theorem getBIFunctID_above {fname : Str} (builtin : 0 < getBIFunctID fname) :
    sbBiFuncBase < getBIFunctID fname := by
  unfold getBIFunctID at builtin ⊢
  generalize biFunctMap.findIdx? (· == fname) = place at builtin ⊢
  cases place with
  | none => cases builtin
  | some i =>
    simp only [Option.map_some, Option.getD_some]
    omega

theorem getFunctID_names {sb : StoryBoard} (aligned : Aligned sb) {fname : Str}
    (found : 0 < getFunctID sb fname) : Names sb fname (getFunctID sb fname) := by
  unfold getFunctID at found ⊢
  generalize reserved : (if sb.funct_vec.isEmpty then 0 else getBIFunctID fname) = i at found ⊢
  by_cases builtin : i > 0
  · have same : i = getBIFunctID fname := by
      split at reserved
      · omega
      · exact reserved.symm
    simp only [builtin, ↓reduceIte]
    exact .inl ⟨same, same ▸ getBIFunctID_above (same ▸ builtin)⟩
  · simp only [builtin, ↓reduceIte] at found ⊢
    cases search : sb.funct_vec.find? (·.name == fname) with
    | none => simp [search] at found
    | some f =>
      have member := List.mem_of_find?_eq_some search
      have named : f.name = fname := by simpa using List.find?_some search
      obtain ⟨i, bound, here⟩ := List.mem_iff_getElem.mp member
      have place : sb.funct_vec[i]? = some f := by rw [List.getElem?_eq_getElem bound, here]
      have id := aligned.ids i f place
      simp only [Option.map_some, Option.getD_some, id]
      exact .inr ⟨by omega, by omega, f, place, named⟩

/-- A function of the table that is found by its name has no reserved one. -/
theorem getFunctID_unreserved {sb : StoryBoard} {fname : Str} (nonempty : sb.funct_vec ≠ [])
    (low : getFunctID sb fname ≤ sbBiFuncBase) : getBIFunctID fname = 0 := by
  by_contra reserved
  have high := getBIFunctID_above (Nat.pos_of_ne_zero reserved)
  have empty : sb.funct_vec.isEmpty = false := by simpa using nonempty
  unfold getFunctID at low
  simp only [empty, Bool.false_eq_true, ↓reduceIte, Nat.pos_of_ne_zero reserved] at low
  omega

theorem Aligned.replace {sb : StoryBoard} (aligned : Aligned sb) {k : Nat} {g : SBFunction}
    (id : g.fn_id = k + 1) (unreserved : getBIFunctID g.name = 0) :
    Aligned { sb with funct_vec := sb.funct_vec.set k g } := by
  constructor
  · intro i f place
    rw [List.getElem?_set] at place
    split at place
    · rename_i here
      split at place
      · obtain rfl := Option.some.inj place
        rw [id, here]
      · cases place
    · exact aligned.ids i f place
  · intro i f place later
    rw [List.getElem?_set] at place
    split at place
    · split at place
      · obtain rfl := Option.some.inj place
        exact unreserved
      · cases place
    · exact aligned.names i f place later

theorem Aligned.extend {sb : StoryBoard} (aligned : Aligned sb) {g : SBFunction}
    (id : g.fn_id = sb.funct_vec.length + 1)
    (unreserved : sb.funct_vec ≠ [] → getBIFunctID g.name = 0) :
    Aligned { sb with funct_vec := sb.funct_vec ++ [g] } := by
  have appended : ∀ i f, (sb.funct_vec ++ [g])[i]? = some f →
      sb.funct_vec[i]? = some f ∨ (i = sb.funct_vec.length ∧ g = f) := by
    intro i f place
    rw [List.getElem?_append] at place
    split at place
    · exact .inl place
    · rw [List.getElem?_singleton] at place
      split at place
      · exact .inr ⟨by omega, Option.some.inj place⟩
      · cases place
  constructor
  · intro i f place
    rcases appended i f place with old | ⟨rfl, rfl⟩
    · exact aligned.ids i f old
    · exact id
  · intro i f place later
    rcases appended i f place with old | ⟨rfl, rfl⟩
    · exact aligned.names i f old later
    · exact unreserved (List.ne_nil_of_length_pos later)

theorem closeFunction_between {r : Reading} {sb : StoryBoard} (reading : InFunction r sb) :
    ∃ sb', closeFunction r sb = some sb' ∧ BetweenFunctions sb' := by
  unfold closeFunction
  cases overwrite : r.overwrite with
  | true =>
    obtain ⟨positive, bound, id, counted⟩ := reading.replacing overwrite
    have nonempty : sb.funct_vec ≠ [] := List.ne_nil_of_length_pos (by omega)
    refine ⟨_, by rw [if_pos rfl, if_pos (by omega)], ?_, by simpa using counted⟩
    exact reading.toAligned.replace (by omega) (reading.unreserved nonempty)
  | false =>
    obtain ⟨counted, id⟩ := reading.extending overwrite
    refine ⟨_, if_neg (by decide), ?_, by simpa using counted⟩
    exact reading.toAligned.extend id reading.unreserved

theorem openFunction_in {filename params : Str} {line_no : Nat} {sb sb' : StoryBoard} {r : Reading}
    (between : BetweenFunctions sb)
    (opened : openFunction filename line_no params sb = some (r, sb')) :
    r.in_function = true ∧ InFunction r sb' := by
  unfold openFunction at opened
  by_cases old : getFunctID sb params > 0
  · by_cases reserved : getFunctID sb params > sbBiFuncBase
    · simp [old, reserved] at opened
    · simp only [old, reserved, ↓reduceIte, Option.some.injEq, Prod.mk.injEq] at opened
      obtain ⟨rfl, rfl⟩ := opened
      rcases getFunctID_names between.toAligned old with ⟨-, high⟩ | ⟨-, bound, -⟩
      · exact absurd high reserved
      · refine ⟨rfl, between.toAligned, ?_, ?_, ?_⟩
        · intro _
          exact ⟨old, bound, rfl, between.counted⟩
        · intro extending
          cases extending
        · intro nonempty
          exact getFunctID_unreserved nonempty (Nat.le_of_not_gt reserved)
  · simp only [old, ↓reduceIte, Option.some.injEq, Prod.mk.injEq] at opened
    obtain ⟨rfl, rfl⟩ := opened
    refine ⟨rfl, ⟨between.ids, between.names⟩, ?_, ?_, ?_⟩
    · intro replacing
      cases replacing
    · intro _
      have counted := between.counted
      exact ⟨by simp [counted], by simp [counted]⟩
    · intro nonempty
      have low : getFunctID sb params ≤ sbBiFuncBase := by omega
      exact getFunctID_unreserved (show sb.funct_vec ≠ [] from nonempty) low

def includesBetween (open_ : Bool) : List Str → Bool
  | [] => true
  | linebuffer :: rest =>
    match parseLine linebuffer with
    | .skip => includesBetween open_ rest
    | .include_ _ => !open_ && includesBetween open_ rest
    | .function _ => includesBetween true rest
    | .end_ => includesBetween false rest
    | .command _ _ _ => includesBetween open_ rest

theorem inStep_open {r : Reading} {sb : StoryBoard} (inFunction : r.in_function = true) :
    InStep r sb ↔ InFunction r sb := by
  rw [InStep, if_pos inFunction]

theorem inStep_between {r : Reading} {sb : StoryBoard} (outside : r.in_function = false) :
    InStep r sb ↔ BetweenFunctions sb := by
  simp [InStep, outside]

theorem InStep.addLine {r : Reading} {sb : StoryBoard} (inStep : InStep r sb) (line : ComRec) :
    InStep { r with curr_function := { r.curr_function with
      comm_dq := r.curr_function.comm_dq ++ [line] } } sb := by
  cases inFunction : r.in_function with
  | true =>
    have reading := (inStep_open inFunction).mp inStep
    exact (inStep_open rfl).mpr
      ⟨reading.toAligned, reading.replacing, reading.extending, reading.unreserved⟩
  | false =>
    have between := (inStep_between inFunction).mp inStep
    exact (inStep_between rfl).mpr between

theorem InStep.closed {r : Reading} {sb : StoryBoard} (inStep : InStep r sb) :
    ∃ sb', (if r.in_function then closeFunction r sb else some sb) = some sb' ∧
      BetweenFunctions sb' := by
  cases inFunction : r.in_function with
  | true =>
    rw [if_pos rfl]
    exact closeFunction_between ((inStep_open inFunction).mp inStep)
  | false =>
    rw [if_neg (by decide)]
    exact ⟨sb, rfl, (inStep_between inFunction).mp inStep⟩

theorem readLines_between {include_ : StoryBoard → Str → Option (Bool × StoryBoard)}
    (included : ∀ sb file sb', BetweenFunctions sb → include_ sb file = some (true, sb') →
      BetweenFunctions sb') {filename : Str} (lines : List Str) {line_no : Nat} {r : Reading}
    {sb sb' : StoryBoard} (inStep : InStep r sb) (outside : includesBetween r.in_function lines)
    (read : readLines include_ filename lines line_no r sb = some (true, sb')) :
    BetweenFunctions sb' := by
  induction lines generalizing line_no r sb with
  | nil =>
    obtain ⟨between, stored, isBetween⟩ := inStep.closed
    rw [readLines] at read
    split at read
    · rename_i inFunction
      rw [if_pos inFunction] at stored
      simp only [stored, Option.map_some, Option.some.injEq, Prod.mk.injEq, true_and] at read
      exact read ▸ isBetween
    · rename_i notInFunction
      rw [if_neg notInFunction] at stored
      simp only [Option.some.injEq, Prod.mk.injEq, true_and] at stored read
      exact read ▸ stored ▸ isBetween
  | cons linebuffer rest ih =>
    rw [readLines] at read
    rw [includesBetween] at outside
    cases parsed : parseLine linebuffer with
    | skip =>
      simp only [parsed] at read outside
      exact ih inStep outside read
    | include_ file =>
      simp only [parsed, Bool.and_eq_true, Bool.not_eq_true'] at read outside
      have between := (inStep_between outside.1).mp inStep
      split at read
      · rename_i answer
        exact ih ((inStep_between outside.1).mpr (included _ _ _ between answer)) outside.2 read
      · rename_i failed
        exact absurd read (failed sb')
    | function params =>
      simp only [parsed] at read outside
      obtain ⟨between, stored, isBetween⟩ := inStep.closed
      simp only [stored] at read
      split at read
      · cases read
      · rename_i answer
        obtain ⟨inFunction, reading⟩ := openFunction_in isBetween answer
        exact ih ((inStep_open inFunction).mpr reading) (by rw [inFunction]; exact outside) read
    | end_ =>
      simp only [parsed] at read outside
      cases inFunction : r.in_function with
      | true =>
        obtain ⟨closed, stored, between⟩ := closeFunction_between ((inStep_open inFunction).mp inStep)
        simp only [inFunction, stored, ↓reduceIte] at read
        exact ih (r := { r with
          in_function := false
          fnt_id := if r.overwrite then r.fnt_id - 1 else r.fnt_id }) between outside read
      | false =>
        simp only [inFunction, Bool.false_eq_true, ↓reduceIte] at read
        exact ih inStep (by rw [inFunction]; exact outside) read
    | command command params action =>
      simp only [parsed] at read outside
      split at read
      · cases read
      · rename_i line added
        exact ih (inStep.addLine line) outside read

/-- Every file of the set includes others only between functions. -/
def FilesIncludeBetween (fs : FileSystem) : Prop :=
  ∀ filename text, fs filename = some text → includesBetween false (text.splitOn (ch '\n'))

theorem readFirstPass_between {fs : FileSystem} (outside : FilesIncludeBetween fs) (depth : Nat)
    {sb sb' : StoryBoard} {filename : Str} (between : BetweenFunctions sb)
    (read : readFirstPass fs depth sb filename = some (true, sb')) : BetweenFunctions sb' := by
  induction depth generalizing sb sb' filename with
  | zero => cases read
  | succ depth ih =>
    rw [readFirstPass] at read
    split at read
    · cases read
    · split at read
      · cases read
      · rename_i text here
        have start : InStep .start sb := between
        exact readLines_between (fun _ _ _ => ih) _ start (outside filename text here) read

theorem empty_between : BetweenFunctions .empty := by
  refine ⟨⟨?_, ?_⟩, rfl⟩
  · intro i f place
    cases place
  · intro i f place
    cases place

/-- Neither a built-in action nor a function has the name. -/
def Undefined (sb : StoryBoard) (fname : Str) : Prop :=
  getBIFunctID fname = 0 ∧ ∀ f ∈ sb.funct_vec, f.name ≠ fname

structure TableSound (sb : StoryBoard) : Prop extends Aligned sb where
  actions : ∀ f ∈ sb.funct_vec, ∀ line ∈ f.comm_dq,
    (line.action_id = 0 ∧ Undefined sb line.action_name) ∨ Names sb line.action_name line.action_id
  entries : ∀ index fname, (setEntry sb index fname).1 = true →
    Names sb fname ((setEntry sb index fname).2.entrys index)
  calls : ∀ f ∈ sb.funct_vec, ∀ line ∈ f.comm_dq,
    (runAction sb line.action_id = .nothing ∧ Undefined sb line.action_name) ∨
    (runAction sb line.action_id = .builtin line.action_id ∧
      (line.action_id = getBIFunctID line.action_name ∨ sbBiFuncBase < sb.funct_vec.length)) ∨
    ∃ g, runAction sb line.action_id = .function (some g) ∧ g.name = line.action_name
  entryCalls : ∀ index fname, (setEntry sb index fname).1 = true → getBIFunctID fname = 0 →
    ∃ g, runFunctEntry (setEntry sb index fname).2 index = .function (some g) ∧ g.name = fname

theorem getFunctID_undefined {sb : StoryBoard} (aligned : Aligned sb) {fname : Str}
    (nonempty : sb.funct_vec ≠ []) (missing : getFunctID sb fname = 0) : Undefined sb fname := by
  have unreserved := getFunctID_unreserved nonempty (missing ▸ Nat.zero_le _)
  refine ⟨unreserved, ?_⟩
  intro f member named
  unfold getFunctID at missing
  simp only [unreserved, ite_self, gt_iff_lt, lt_irrefl, ↓reduceIte] at missing
  cases search : sb.funct_vec.find? (·.name == fname) with
  | none => simpa [named] using List.find?_eq_none.mp search f member
  | some g =>
    obtain ⟨i, bound, here⟩ := List.mem_iff_getElem.mp (List.mem_of_find?_eq_some search)
    have id := aligned.ids i g (by rw [List.getElem?_eq_getElem bound, here])
    simp [search, id] at missing

theorem runFunct_of_place {sb : StoryBoard} {id : Nat} {f : SBFunction} (positive : 0 < id)
    (place : sb.funct_vec[id - 1]? = some f) : runFunct sb id = .function (some f) := by
  have nonzero : ¬ id = 0 := by omega
  rw [runFunct, if_neg nonzero, place]

theorem runAction_of_names {sb : StoryBoard} {fname : Str} {id : Nat} (names : Names sb fname id) :
    (runAction sb id = .builtin id ∧
      (id = getBIFunctID fname ∨ sbBiFuncBase < sb.funct_vec.length)) ∨
    ∃ g, runAction sb id = .function (some g) ∧ g.name = fname := by
  rcases names with ⟨same, high⟩ | ⟨positive, bound, f, place, named⟩
  · exact .inl ⟨if_pos high, .inl same⟩
  · by_cases high : id > sbBiFuncBase
    · exact .inl ⟨if_pos high, .inr (by omega)⟩
    · refine .inr ⟨f, ?_, named⟩
      rw [runAction, if_neg high, if_pos positive]
      exact runFunct_of_place positive place

section SecondPass
variable (findListPtr : Str → Nat → Option ListInfo) {sb : StoryBoard}

theorem secondPass_place (i : Nat) : (secondPass findListPtr sb).funct_vec[i]? =
    sb.funct_vec[i]?.map fun f =>
      { f with comm_dq := f.comm_dq.map (secondPassLine findListPtr sb) } := by
  simp [secondPass]

theorem getFunctID_secondPass (fname : Str) :
    getFunctID (secondPass findListPtr sb) fname = getFunctID sb fname := by
  simp only [getFunctID, secondPass, List.isEmpty_map, List.find?_map, Option.map_map]
  rfl

theorem secondPass_aligned (aligned : Aligned sb) : Aligned (secondPass findListPtr sb) := by
  constructor
  · intro i f place
    rw [secondPass_place] at place
    obtain ⟨g, here, rfl⟩ := Option.map_eq_some_iff.mp place
    exact aligned.ids i g here
  · intro i f place later
    rw [secondPass_place] at place
    obtain ⟨g, here, rfl⟩ := Option.map_eq_some_iff.mp place
    exact aligned.names i g here later

theorem secondPass_action {f : SBFunction} (member : f ∈ (secondPass findListPtr sb).funct_vec)
    {line : ComRec} (inFunction : line ∈ f.comm_dq) :
    line.action_id = getFunctID (secondPass findListPtr sb) line.action_name := by
  obtain ⟨g, -, rfl⟩ := List.mem_map.mp member
  obtain ⟨j, -, rfl⟩ := List.mem_map.mp inFunction
  exact (getFunctID_secondPass findListPtr j.action_name).symm

end SecondPass

/-- If files are included only between functions, the table that readFile builds is sound. -/
theorem table_sound_of_includes_between {fs : FileSystem} (outside : FilesIncludeBetween fs)
    (findListPtr : Str → Nat → Option ListInfo) (depth : Nat) (filename : Str) (sb : StoryBoard)
    (read : readFile findListPtr fs depth .empty filename = some (true, sb)) : TableSound sb := by
  unfold readFile at read
  split at read
  · rename_i first pass
    simp only [Option.some.injEq, Prod.mk.injEq, true_and] at read
    subst read
    have between := readFirstPass_between outside depth empty_between pass
    have aligned := secondPass_aligned findListPtr between.toAligned
    have resolved : ∀ f ∈ (secondPass findListPtr first).funct_vec, ∀ line ∈ f.comm_dq,
        (line.action_id = 0 ∧ Undefined (secondPass findListPtr first) line.action_name) ∨
          Names (secondPass findListPtr first) line.action_name line.action_id := by
      intro f member line inFunction
      have action := secondPass_action findListPtr member inFunction
      by_cases missing : line.action_id = 0
      · refine .inl ⟨missing, getFunctID_undefined aligned (List.ne_nil_of_mem member) ?_⟩
        rw [← action, missing]
      · rw [action] at missing ⊢
        exact .inr (getFunctID_names aligned (Nat.pos_of_ne_zero missing))
    have entries : ∀ index fname, (setEntry (secondPass findListPtr first) index fname).1 = true →
        Names (secondPass findListPtr first) fname
          ((setEntry (secondPass findListPtr first) index fname).2.entrys index) := by
      intro index fname accepted
      simp only [setEntry, ↓reduceIte, decide_eq_true_eq] at accepted ⊢
      exact getFunctID_names aligned accepted
    refine ⟨aligned, resolved, entries, ?_, ?_⟩
    · intro f member line inFunction
      rcases resolved f member line inFunction with ⟨zero, undefined⟩ | names
      · refine .inl ⟨?_, undefined⟩
        rw [zero]
        rfl
      · exact .inr (runAction_of_names names)
    · intro index fname accepted unreserved
      rcases entries index fname accepted with ⟨same, high⟩ | ⟨positive, -, g, place, named⟩
      · rw [unreserved] at same
        omega
      · refine ⟨g, ?_, named⟩
        rw [runFunctEntry, if_pos positive]
        exact runFunct_of_place positive place
  · rename_i failed
    exact absurd read (failed sb)

-- A storyboard that includes another one and calls its function.
def mainStory : Str :=
  str ".Include<sub.story>\nfunction(main)\nif(urlin,banned) return setblock\nif(true) helper\nend()"

def storyFiles (filename : Str) : Option Str :=
  if filename = str "/e2/main.story" then some mainStory
  else if filename = str "/e2/sub.story" then some (str "function(helper)\nif(true) true")
  else none

theorem table_sound_of_story_files :
    ∃ sb, readFile (fun _ _ => none) storyFiles 3 .empty (str "/e2/main.story") = some (true, sb) ∧
      sb.funct_vec.map SBFunction.name = [str "helper", str "main"] ∧ TableSound sb := by
  have main : mainStory = _ := str_ofList _
  have outside : FilesIncludeBetween storyFiles := by
    intro filename text here
    unfold storyFiles at here
    split at here
    · obtain rfl := Option.some.inj here
      rw [main]
      decide
    · split at here
      · obtain rfl := Option.some.inj here
        decide +kernel
      · cases here
  have names : (readFile (fun _ _ => none) storyFiles 3 .empty (str "/e2/main.story")).map
      (fun answer => (answer.1, answer.2.funct_vec.map SBFunction.name)) =
        some (true, [str "helper", str "main"]) := by
    unfold storyFiles
    rw [main]
    decide +kernel
  obtain ⟨⟨ok, sb⟩, read, result⟩ := Option.map_eq_some_iff.mp names
  simp only [Prod.mk.injEq] at result
  obtain ⟨rfl, named⟩ := result
  exact ⟨sb, read, named, table_sound_of_includes_between outside _ 3 _ sb read⟩

theorem undefined_action_read :
    ¬ ∀ (fs : FileSystem) (findListPtr : Str → Nat → Option ListInfo) (depth : Nat) (filename : Str)
      (sb : StoryBoard), readFile findListPtr fs depth .empty filename = some (true, sb) →
        (∀ i f, sb.funct_vec[i]? = some f → f.fn_id = i + 1) ∧
        (∀ f ∈ sb.funct_vec, getBIFunctID f.name = 0) ∧
        ∀ f ∈ sb.funct_vec, ∀ line ∈ f.comm_dq, sbBiFuncBase < line.action_id ∨
          (1 ≤ line.action_id ∧ line.action_id ≤ sb.funct_vec.length) := by
  intro always
  have ids : (readFile (fun _ _ => none) (fun _ => some (str "function(main)\nif(true) nosuch")) 1
      .empty (str "/e2/main.story")).map (fun answer =>
        (answer.1, answer.2.funct_vec.map fun f => f.comm_dq.map ComRec.action_id)) =
        some (true, [[0]]) := by
    have text : str "function(main)\nif(true) nosuch" = _ := str_ofList _
    rw [text]
    decide +kernel
  obtain ⟨⟨ok, sb⟩, read, result⟩ := Option.map_eq_some_iff.mp ids
  simp only [Prod.mk.injEq] at result
  obtain ⟨rfl, actions⟩ := result
  obtain ⟨-, -, resolved⟩ := always _ _ _ _ sb read
  obtain ⟨f, table, vec, lines, -⟩ := List.map_eq_cons_iff.mp actions
  obtain ⟨line, more, dq, unset, -⟩ := List.map_eq_cons_iff.mp lines
  have action := resolved f (by simp [vec]) line (by simp [dq])
  rw [unset] at action
  omega

end GuardianStoryBoard
