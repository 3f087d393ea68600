import E2Guardian.TimeLimits

/- Reading of storyboard files: the two passes of StoryBoard::readFile with their includes,
   the lines of SBFunction, the numbering of functions and actions, and the dispatch by
   these numbers. An out of range vector access that throws and an include nesting deeper
   than the given depth both give none. The usage marks of lists and the messages about
   undefined names are left out. -/
namespace GuardianStoryBoard
open GuardianString GuardianTime

structure ListInfo where
  name : Str
  type : Nat
  list_ref : Nat
  deriving DecidableEq, Repr

structure ComRec where
  isif : Bool
  state : Nat
  list_id_dq : List ListInfo
  mess_no : Nat
  log_mess_no : Nat
  action_id : Nat
  return_after_action : Bool
  return_after_action_is_true : Bool
  optional : Bool
  file_lineno : Nat
  action_name : Str
  list_name : Str
  deriving DecidableEq, Repr

structure SBFunction where
  name : Str
  fn_id : Nat
  comm_dq : List ComRec
  file_name : Str
  file_lineno : Nat
  deriving DecidableEq, Repr

structure StoryBoard where
  funct_vec : List SBFunction
  fnt_cnt : Nat
  entrys : Nat → Nat

def StoryBoard.empty : StoryBoard := ⟨[], 0, fun _ => 0⟩

def sbBiFuncBase : Nat := 5000

def sbStateTopin : Nat := 16

def stateMap : List Str :=
  ["urlin", "sitein", "searchin", "embeddedin", "refererin", "headerin", "fullurlin", "extensionin",
    "mimein", "clientin", "useragentin", "timein", "userin", "listenportin", "responseheaderin",
    "connect", "post", "get", "siteisip", "tls", "exceptionset", "greyset", "blockset", "mitmset",
    "doneset", "returnset", "true", "hassniset", "redirectset", "viruscheckset", "bypassset",
    "bypassallowset", "infectionbypassallowset"].map str

def biFunctMap : List Str :=
  ["setexception", "setgrey", "setblock", "setmodurl", "setdone", "true", "false", "setgomitm",
    "setlogcategory", "setaddheader", "setredirect", "setnocheckcert", "setsearchterm",
    "setmodheader", "setgodirect", "setnolog", "unsetviruscheck", "unsetbypass", "setconnectsite",
    "unsetbypassallow", "unsetinfectionbypassallow", "setnomitm", "setautomitm", "unsetautomitm",
    "setgroup"].map str

def getStateID (state : Str) : Nat := ((stateMap.findIdx? (· == state)).map (· + 1)).getD 0

def getBIFunctID (action : Str) : Nat :=
  ((biFunctMap.findIdx? (· == action)).map (· + 1 + sbBiFuncBase)).getD 0

/-- The built-in actions are only looked at when there is a function to ask. -/
def getFunctID (sb : StoryBoard) (fname : Str) : Nat :=
  let i := if sb.funct_vec.isEmpty then 0 else getBIFunctID fname
  if i > 0 then i else ((sb.funct_vec.find? (·.name == fname)).map (·.fn_id)).getD 0

def nextParam (temp : Str) : Str × Str :=
  if contains temp (str ",") then (removeWhiteSpace (before temp (str ",")), after temp (str ","))
  else (removeWhiteSpace temp, [])

def addline (command params action : Str) (line_no : Nat) : Option ComRec :=
  if command ≠ str "if" ∧ command ≠ str "ifnot" then none
  else
    let (state, temp) := nextParam params
    if getStateID state = 0 then none
    else
      let (list_name, temp) := nextParam temp
      let (mess_no, temp) := nextParam temp
      let (log_mess_no, temp) := nextParam temp
      let (optional, _) := nextParam temp
      let isReturn := startsWith action (str "return ")
      let isReturnIf := !isReturn && startsWith action (str "returnif ")
      let action := if isReturn then after action (str "return ")
        else if isReturnIf then after action (str "returnif ") else action
      some {
        isif := command == str "if"
        state := getStateID state
        list_id_dq := []
        mess_no := toUnsigned mess_no
        log_mess_no := toUnsigned log_mess_no
        action_id := if command == str "if" then 3 else 4
        return_after_action := isReturn
        return_after_action_is_true := isReturnIf
        optional := optional == str "optional"
        file_lineno := line_no
        action_name := removeWhiteSpace action
        list_name := list_name }

inductive Line where
  | skip
  | include_ (file : Str)
  | function (params : Str)
  | end_
  | command (command params action : Str)
  deriving DecidableEq, Repr

def parseLine (linebuffer : Str) : Line :=
  if linebuffer.length = 0 then .skip
  else
    let line := removeWhiteSpace (cstr linebuffer)
    if startsWith line (str ".") then
      let temp := before (after line (str ".Include<")) (str ">")
      if temp.length > 0 then .include_ temp else .skip
    else if startsWith line (str "#") then .skip
    else
      let line := toLower line
      let command := removeWhiteSpace (before line (str "("))
      let params := removeWhiteSpace (after (before line (str ")")) (str "("))
      let action := after line (str ")")
      let action := if contains action (str "#") then before action (str "#") else action
      if command = str "function" then .function params
      else if command = str "end" then .end_
      else .command command params (removeWhiteSpace action)

def baseDir (filename : Str) : Str :=
  if filename.tail.contains (ch '/') then (filename.reverse.dropWhile (· != ch '/')).reverse
  else if filename.head? = some (ch '/') then filename -- a slash at the start only is not cut at
  else []

def fullPath (base_dir file : Str) : Str :=
  if startsWith file (str "/") then file else base_dir ++ file

structure Reading where
  curr_function : SBFunction
  fnt_id : Nat
  overwrite : Bool
  in_function : Bool
  deriving DecidableEq, Repr

def Reading.start : Reading := ⟨⟨[], 0, [], [], 0⟩, 0, false, false⟩

/-- The end of a function: it replaces the one with its number or is added to the table. -/
def closeFunction (r : Reading) (sb : StoryBoard) : Option StoryBoard :=
  if r.overwrite then
    if r.fnt_id - 1 < sb.funct_vec.length then
      some { sb with funct_vec := sb.funct_vec.set (r.fnt_id - 1) r.curr_function }
    else none -- at() throws
  else some { sb with funct_vec := sb.funct_vec ++ [r.curr_function] }

/-- The start of a function when none is open; a reserved word as its name is an error. -/
def openFunction (filename : Str) (line_no : Nat) (params : Str) (sb : StoryBoard) :
    Option (Reading × StoryBoard) :=
  let oldf := getFunctID sb params
  if oldf > 0 then
    if oldf > sbBiFuncBase then none
    else some (⟨⟨params, oldf, [], filename, line_no⟩, oldf, true, true⟩, sb)
  else
    let fnt_id := sb.fnt_cnt + 1
    some (⟨⟨params, fnt_id, [], filename, line_no⟩, fnt_id, false, true⟩,
      { sb with fnt_cnt := fnt_id })

section Reader
variable (include_ : StoryBoard → Str → Option (Bool × StoryBoard)) (filename : Str)

def readLines : List Str → Nat → Reading → StoryBoard → Option (Bool × StoryBoard)
  | [], _, r, sb =>
    if r.in_function then (closeFunction r sb).map (true, ·) else some (true, sb)
  | linebuffer :: rest, line_no, r, sb =>
    match parseLine linebuffer with
    | .skip => readLines rest (line_no + 1) r sb
    | .include_ file =>
      match include_ sb (fullPath (baseDir filename) file) with
      | some (true, sb) => readLines rest (line_no + 1) r sb
      | other => other
    | .function params =>
      match if r.in_function then closeFunction r sb else some sb with
      | none => none
      | some sb =>
        match openFunction filename (line_no + 1) params sb with
        | none => some (false, sb)
        | some (r, sb) => readLines rest (line_no + 1) r sb
    | .end_ =>
      if r.in_function then
        match closeFunction r sb with
        | none => none
        | some sb =>
          readLines rest (line_no + 1) { r with
            in_function := false
            fnt_id := if r.overwrite then r.fnt_id - 1 else r.fnt_id } sb
      else readLines rest (line_no + 1) r sb
    | .command command params action =>
      match addline command params action (line_no + 1) with
      | none => some (false, sb)
      | some rec =>
        readLines rest (line_no + 1) { r with
          curr_function := { r.curr_function with
            comm_dq := r.curr_function.comm_dq ++ [rec] } } sb

end Reader

abbrev FileSystem := Str → Option Str

def readFirstPass (fs : FileSystem) : Nat → StoryBoard → Str → Option (Bool × StoryBoard)
  | 0, _, _ => none
  | depth + 1, sb, filename =>
    if filename.length < 3 then some (false, sb)
    else
      match fs filename with
      | none => some (false, sb)
      | some text =>
        readLines (readFirstPass fs depth) filename (text.splitOn (ch '\n')) 0 .start sb

def listTypes : Nat → List Nat
  | 2 => [3, 2, 6]           -- sitein: IPSITE, SITE, REGEXP_BOOL
  | 1 => [3, 2, 4, 12, 6]    -- urlin: IPSITE, SITE, URL, FILE_EXT, REGEXP_BOOL
  | 3 => [5]                 -- searchin: SEARCH
  | 4 => [3, 2, 4, 6]        -- embeddedin
  | 5 => [3, 2, 4, 6]        -- refererin
  | 7 => [7]                 -- fullurlin: REGEXP_REP
  | 6 => [7, 6]              -- headerin
  | 15 => [7, 6]             -- responseheaderin
  | 10 => [1, 2, 15]         -- clientin: IP, SITE, IPMAP
  | 13 => [15, 14]           -- userin: IPMAP, MAP
  | 8 => [12]                -- extensionin: FILE_EXT
  | 9 => [11]                -- mimein: MIME
  | 11 => [6]                -- useragentin
  | 12 => [13]               -- timein: TIME
  | 14 => [14]               -- listenportin: MAP
  | _ => []

section SecondPass
variable (findListPtr : Str → Nat → Option ListInfo)

def secondPassLine (sb : StoryBoard) (j : ComRec) : ComRec :=
  { j with
    list_id_dq := if j.state < sbStateTopin then
        j.list_id_dq ++ (listTypes j.state).filterMap fun type =>
          (findListPtr j.list_name type).filter (fun listi => listi.name.length > 0)
      else j.list_id_dq
    action_id := getFunctID sb j.action_name }

def secondPass (sb : StoryBoard) : StoryBoard :=
  { sb with funct_vec := sb.funct_vec.map fun i =>
      { i with comm_dq := i.comm_dq.map (secondPassLine findListPtr sb) } }

def readFile (fs : FileSystem) (depth : Nat) (sb : StoryBoard) (filename : Str) :
    Option (Bool × StoryBoard) :=
  match readFirstPass fs depth sb filename with
  | some (true, sb) => some (true, secondPass findListPtr sb)
  | other => other

end SecondPass

def setEntry (sb : StoryBoard) (index : Nat) (fname : Str) : Bool × StoryBoard :=
  let sb := { sb with entrys := fun i => if i = index then getFunctID sb fname else sb.entrys i }
  (decide (sb.entrys index > 0), sb)

/-- What a number leads to: nothing, a built-in action, or the function that funct_vec holds
at its index; there is none if the index is out of bounds. -/
inductive Called where
  | nothing
  | builtin (id : Nat)
  | function (f : Option SBFunction)
  deriving DecidableEq, Repr

-- The number is unsigned, so that 0 wraps round before it is an index.
def runFunct (sb : StoryBoard) (fID : Nat) : Called :=
  .function sb.funct_vec[if fID = 0 then 2 ^ 32 - 1 else fID - 1]?

def runAction (sb : StoryBoard) (action_id : Nat) : Called :=
  if action_id > sbBiFuncBase then .builtin action_id
  else if action_id > 0 then runFunct sb action_id
  else .nothing

def runFunctEntry (sb : StoryBoard) (index : Nat) : Called :=
  if sb.entrys index > 0 then runFunct sb (sb.entrys index) else .nothing

end GuardianStoryBoard
