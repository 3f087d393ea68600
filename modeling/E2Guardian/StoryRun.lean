import E2Guardian.StoryBoard

/- Running a storyboard: StoryBoard::runFunct with its conditions, its list, header and
   multiple URL checks, the built-in actions and the calls of other functions. The lookups in
   lists and the reverse DNS lookups answer from a world that each of them may change, so
   that no two answers have to agree; the header objects are used through their methods.
   Tracing to the log is left out. A run also records every line that it executes. -/
namespace GuardianStoryRun
open GuardianString
open GuardianStoryBoard hiding runFunct

structure UrlRec where
  fullurl : Str
  urldomain : Str
  baseurl : Str
  is_siteonly : Bool
  site_is_ip : Bool
  deriving DecidableEq, Repr

structure ListResult where
  match_ : Str
  category : Str
  result : Str
  mess_no : Int
  log_mess_no : Int
  anon_log : Bool
  deriving DecidableEq, Repr

def ListResult.empty : ListResult := ⟨[], [], [], 0, 0, false⟩

/-- The methods of the header objects that storyboards use. setURL may change the text it is
given, getLogUrl caches. -/
structure HeaderMethods (H : Type) where
  lines : H → List Str
  setLines : List Str → H → H
  requestType : H → Str
  getReferer : H → Str
  userAgent : H → Str
  disposition : H → Str
  getContentType : H → Str
  setURL : Str → H → Str × H
  getLogUrl : Bool → H → Str × H
  decode : Str → H → Str
  addHeader : Str → H → H
  setRedirect : Str → H → H

structure Filter (H : Type) where
  isexception : Bool
  isGrey : Bool
  isBlocked : Bool
  gomitm : Bool
  nomitm : Bool
  automitm : Bool
  ismitmcandidate : Bool
  ismitm : Bool
  isReturn : Bool
  isdone : Bool
  isdirect : Bool
  nolog : Bool
  nocheckcert : Bool
  logcategory : Bool
  noviruscheck : Bool
  urlmodified : Bool
  headermodified : Bool
  headeradded : Bool
  urlredirect : Bool
  isbypass : Bool
  iscookiebypass : Bool
  isscanbypass : Bool
  isvirusbypass : Bool
  isbypassallowed : Bool
  isinfectionbypassallowed : Bool
  isconnect : Bool
  isiphost : Bool
  issiteonly : Bool
  isSearch : Bool
  hasSNI : Bool
  isTLS : Bool
  hasEmbededURL : Bool
  deep_urls_checked : Bool
  reverse_checked : Bool
  anon_user : Bool
  anon_url : Bool
  special_exception_ip : Bool
  special_banned_ip : Bool
  deepUrls : List UrlRec
  reversedURLs : List UrlRec
  listen_port : Int
  filtergroup : Int
  message_no : Int
  log_message_no : Int
  url : Str
  baseurl : Str
  logurl : Str
  urld : Str
  urldomain : Str
  connect_site : Str
  user : Str
  clientip : Str
  clienthost : Str
  search_words : Str
  search_terms : Str
  lastmatch : Str
  lastcategory : Str
  result : Str
  exceptioncat : Str
  whatIsNaughty : Str
  whatIsNaughtyLog : Str
  whatIsNaughtyCategories : Str
  group_source : Option Str -- of the authentication record, if there is one
  request_header : H
  response_header : H

/-- A filter as the constructor leaves it for a request, with the options that it reads. -/
def Filter.reset {H : Type} (anonymise_logs no_proxy : Bool) (request response : H) : Filter H where
  isexception := false
  isGrey := false
  isBlocked := false
  gomitm := false
  nomitm := false
  automitm := false
  ismitmcandidate := false
  ismitm := false
  isReturn := false
  isdone := false
  isdirect := no_proxy
  nolog := false
  nocheckcert := false
  logcategory := false
  noviruscheck := true
  urlmodified := false
  headermodified := false
  headeradded := false
  urlredirect := false
  isbypass := false
  iscookiebypass := false
  isscanbypass := false
  isvirusbypass := false
  isbypassallowed := false
  isinfectionbypassallowed := false
  isconnect := false
  isiphost := false
  issiteonly := false
  isSearch := false
  hasSNI := false
  isTLS := false
  hasEmbededURL := false
  deep_urls_checked := false
  reverse_checked := false
  anon_user := anonymise_logs
  anon_url := false
  special_exception_ip := false
  special_banned_ip := false
  deepUrls := []
  reversedURLs := []
  listen_port := 0
  filtergroup := 0
  message_no := 0
  log_message_no := 0
  url := []
  baseurl := []
  logurl := []
  urld := []
  urldomain := []
  connect_site := []
  user := []
  clientip := []
  clienthost := []
  search_words := []
  search_terms := []
  lastmatch := []
  lastcategory := []
  result := []
  exceptioncat := []
  whatIsNaughty := []
  whatIsNaughtyLog := []
  whatIsNaughtyCategories := []
  group_source := none
  request_header := request
  response_header := response

/-- The options that are read, with the names of the filter groups if lists are loaded; a
group may be missing. -/
structure Options where
  reverse_lookups : Bool
  search_sitelist_for_ip : Bool
  numfg : Int
  default_fg : Int
  groups : Option (List (Option Str))
  language_list : List (Nat × Str)

structure Env (W H : Type) where
  options : Options
  headers : HeaderMethods H
  inList : ListInfo → Str → ListResult → W → (Bool × ListResult) × W
  hostOf : Str → W → Option Str × W

structure Story (W H : Type) where
  cm : Filter H
  world : W

def swapChar (old new : UInt8) (s : Str) : Str := s.map fun b => if b = old then new else b

def anonimise (s : Str) : Str := s.map fun t => if isPunctuation t then t else ch 'x'

/-- `strcmp` on words without NUL bytes. -/
def wordLe : Str → Str → Bool
  | [], _ => true
  | _ :: _, [] => false
  | a :: s, b :: t => a < b || (a == b && wordLe s t)

def joinWords (words : List Str) : Str :=
  words.foldl (fun ret word => if ret.isEmpty then word else ret ++ ch '+' :: word) []

def sortedSearch (s : Str) : Str :=
  if s.length < 3 ∨ ch '+' ∉ cstr s then s
  else joinWords (((cstr s).splitOn (ch '+')).mergeSort wordLe)

def isIPHostnameStrip (url : Str) : Bool :=
  !(cstr (getHostname url)).any fun c => (ch 'a' ≤ c && c ≤ ch 'z') || c == ch '|' || (ch 'A' ≤ c && c ≤ ch 'Z')

def dropSlashes : Str → Str
  | [] => []
  | b :: t => if startsWith (b :: t) (str ":'") || startsWith (b :: t) (str "/") then dropSlashes t else b :: t

def deepUrlsLoop : Nat → Str → List UrlRec
  | 0, _ => []
  | fuel + 1, durl =>
    if contains durl (str ":") then
      let durl := after durl (str ":")
      if contains durl (str ".") then
        let durl := dropSlashes durl
        if durl.length > 5 then
          let baseurl := removePTP durl
          let urldomain := getHostname baseurl
          let rest := if startsWith durl (str "http:") || startsWith durl (str "https:") then
            after durl (str ":") else durl
          ⟨durl, urldomain, baseurl, baseurl == urldomain, isIPHostnameStrip urldomain⟩ ::
            deepUrlsLoop fuel rest
        else []
      else []
    else []

def deepUrls (urld : Str) : List UrlRec := deepUrlsLoop (urld.length + 1) urld

def isAlnum (b : UInt8) : Bool :=
  isDigit b || (ch 'a' ≤ b && b ≤ ch 'z') || (ch 'A' ≤ b && b ≤ ch 'Z')

def normaliseGroupLabel (value : Str) : Str := (value.filter isAlnum).map tolower

def firstDigits (s : Str) : Str := (s.dropWhile fun b => !isDigit b).takeWhile isDigit

def baseName (idx : Nat) (name : Str) : Str :=
  if name.isEmpty then str "group" ++ ofInt (idx + 1) else cstr name

def namesGroup (normalised : Str) (idx : Nat) (name : Str) : Bool :=
  let base_name := baseName idx name
  (!(normaliseGroupLabel base_name).isEmpty && normalised == normaliseGroupLabel base_name) ||
    (contains base_name (str " ") &&
      (let token := normaliseGroupLabel (before base_name (str " "))
       !token.isEmpty && normalised == token))

def findGroup (normalised : Str) : Nat → List (Option Str) → Int
  | _, [] => 0
  | idx, none :: rest => findGroup normalised (idx + 1) rest
  | idx, some name :: rest =>
    if namesGroup normalised idx name then idx + 1 else findGroup normalised (idx + 1) rest

def maxGroups (o : Options) : Int :=
  match o.groups with
  | some groups => max o.numfg groups.length
  | none => o.numfg

def resolveFilterGroupFromLabel (o : Options) (label : Str) : Int :=
  let trimmed := removeWhiteSpace label
  if label.length = 0 ∨ trimmed.length = 0 then 0
  else
    let numeric := toInteger trimmed
    if 1 ≤ numeric ∧ numeric ≤ maxGroups o then numeric
    else
      let lowered := toLower trimmed
      if lowered = str "default" ∨ lowered = str "defaultgroup" ∨ lowered = str "defaultfiltergroup" then
        if o.default_fg ≥ 0 ∧ o.default_fg + 1 ≤ maxGroups o then o.default_fg + 1 else 1
      else
        let normalised := normaliseGroupLabel lowered
        if normalised.isEmpty then 0
        else
          let numeric := toInteger normalised
          if 1 ≤ numeric ∧ numeric ≤ maxGroups o then numeric
          else
            let numeric := toInteger (firstDigits normalised)
            if 1 ≤ numeric ∧ numeric ≤ maxGroups o then numeric
            else
              match o.groups with
              | some groups => findGroup normalised 0 groups
              | none => 0

def getTranslation (o : Options) (index : Int) : Str :=
  let index := (index % 2 ^ 32).toNat
  match o.language_list.find? (·.1 == index) with
  | some (_, text) => text
  | none => str "TRANSLATION KEY " ++ ofInt index ++ str " MISSING "

inductive Condition where
  | urlin | sitein | searchin | embeddedin | refererin | headerin | fullurlin | extensionin
  | mimein | clientin | useragentin | timein | userin | listenportin | responseheaderin
  | connect | post | get | siteisip | tls | exceptionset | greyset | blockset | mitmset | doneset
  | returnset | true_ | hassniset | redirectset | viruscheckset | bypassset | bypassallowset
  | infectionbypassallowset
  deriving DecidableEq, Repr

def conditions : List Condition :=
  [.urlin, .sitein, .searchin, .embeddedin, .refererin, .headerin, .fullurlin, .extensionin,
    .mimein, .clientin, .useragentin, .timein, .userin, .listenportin, .responseheaderin,
    .connect, .post, .get, .siteisip, .tls, .exceptionset, .greyset, .blockset, .mitmset, .doneset,
    .returnset, .true_, .hassniset, .redirectset, .viruscheckset, .bypassset, .bypassallowset,
    .infectionbypassallowset]

def conditionOf (state : Nat) : Option Condition := if state = 0 then none else conditions[state - 1]?

inductive Action where
  | setexception | setgrey | setblock | setmodurl | setdone | true_ | false_ | setgomitm
  | setlogcategory | setaddheader | setredirect | setnocheckcert | setsearchterm | setmodheader
  | setgodirect | setnolog | unsetviruscheck | unsetbypass | setconnectsite | unsetbypassallow
  | unsetinfectionbypassallow | setnomitm | setautomitm | unsetautomitm | setgroup
  deriving DecidableEq, Repr

def actions : List Action :=
  [.setexception, .setgrey, .setblock, .setmodurl, .setdone, .true_, .false_, .setgomitm,
    .setlogcategory, .setaddheader, .setredirect, .setnocheckcert, .setsearchterm, .setmodheader,
    .setgodirect, .setnolog, .unsetviruscheck, .unsetbypass, .setconnectsite, .unsetbypassallow,
    .unsetinfectionbypassallow, .setnomitm, .setautomitm, .unsetautomitm, .setgroup]

def actionOf (action_id : Nat) : Option Action :=
  if action_id ≤ sbBiFuncBase then none else actions[action_id - sbBiFuncBase - 1]?

structure Check where
  isListCheck : Bool
  isMultiListCheck : Bool
  isHeaderCheck : Bool
  ofResponse : Bool -- which of the two headers a header check is about
  state_result : Bool
  target : Str
  target2 : Str
  targetful : Str
  targetdq : List UrlRec

section Lines
variable {W H : Type} (env : Env W H)

def reverseLookup (s : Story W H) : Story W H :=
  if s.cm.reverse_checked then s
  else
    let (name, world) := env.hostOf s.cm.urldomain s.world
    let urlp := after s.cm.urld (str "/")
    let found := match name with
      | none => []
      | some h_name =>
        let baseurl := h_name ++ str "/" ++ urlp
        [⟨str "http://" ++ baseurl, h_name, baseurl, false, false⟩]
    ⟨{ s.cm with reversedURLs := found, reverse_checked := true }, world⟩

def hasReverseHosts (s : Story W H) : Bool × List UrlRec × Story W H :=
  if s.cm.isiphost && env.options.reverse_lookups then
    let s := reverseLookup env s
    (s.cm.reversedURLs.length > 0, s.cm.reversedURLs, s)
  else (false, [], s)

def noCheck (state_result : Bool) : Check := ⟨false, false, false, false, state_result, [], [], [], []⟩

def listCheckOf (target target2 targetful : Str) : Check :=
  ⟨true, false, false, false, false, target, target2, targetful, []⟩

def urlCheck (target : Str) (s : Story W H) : Check × Story W H :=
  let (isMulti, targetdq, s') := hasReverseHosts env s
  (⟨true, isMulti, false, false, false, target, s.cm.urldomain, s.cm.url, targetdq⟩, s')

def headerCheckOf (ofResponse : Bool) : Check := ⟨false, false, true, ofResponse, false, [], [], [], []⟩

def noteDeepUrls (s : Story W H) : Story W H :=
  if s.cm.deep_urls_checked then s
  else
    let found := deepUrls s.cm.baseurl
    ⟨{ s.cm with deepUrls := found, hasEmbededURL := s.cm.hasEmbededURL || found.length > 0 }, s.world⟩

def examine : Condition → Story W H → Check × Story W H
  | .sitein, s => urlCheck env s.cm.urldomain s
  | .urlin, s => urlCheck env s.cm.baseurl s
  | .fullurlin, s => urlCheck env s.cm.baseurl s
  | .searchin, s => (if s.cm.isSearch then listCheckOf s.cm.search_words [] [] else noCheck false, s)
  | .embeddedin, s =>
    let s := noteDeepUrls s
    (if s.cm.hasEmbededURL then ⟨false, true, false, false, false, str "mutli", [], [], s.cm.deepUrls⟩
      else noCheck false, s)
  | .refererin, s =>
    let target := env.headers.getReferer s.cm.request_header
    (listCheckOf target (getHostname target) [], s)
  | .headerin, s => (headerCheckOf false, s)
  | .responseheaderin, s => (headerCheckOf true, s)
  | .clientin, s => (listCheckOf s.cm.clientip s.cm.clienthost [], s)
  | .userin, s =>
    let user := toLower s.cm.user
    (listCheckOf user s.cm.clienthost [], ⟨{ s.cm with user := user }, s.world⟩)
  | .listenportin, s => (listCheckOf (ofInt s.cm.listen_port) [] [], s)
  | .timein, s => (listCheckOf [] [] [], s)
  | .useragentin, s => (listCheckOf [] [] (env.headers.userAgent s.cm.request_header), s)
  | .extensionin, s =>
    let target := env.headers.disposition s.cm.response_header
    (if target.length > 4 then listCheckOf target [] [] else noCheck false, s)
  | .mimein, s =>
    let target := env.headers.getContentType s.cm.response_header
    (if target.length > 4 then listCheckOf target [] [] else noCheck false, s)
  | .connect, s => (noCheck s.cm.isconnect, s)
  | .get, s => (noCheck (env.headers.requestType s.cm.request_header == str "GET"), s)
  | .post, s => (noCheck (env.headers.requestType s.cm.request_header == str "POST"), s)
  | .exceptionset, s => (noCheck s.cm.isexception, s)
  | .greyset, s => (noCheck s.cm.isGrey, s)
  | .blockset, s => (noCheck s.cm.isBlocked, s)
  | .mitmset, s => (noCheck s.cm.ismitm, s)
  | .doneset, s => (noCheck s.cm.isdone, s)
  | .returnset, s => (noCheck s.cm.isReturn, s)
  | .redirectset, s => (noCheck s.cm.urlredirect, s)
  | .viruscheckset, s => (noCheck !s.cm.noviruscheck, s)
  | .bypassset, s => (noCheck s.cm.isbypass, s)
  | .bypassallowset, s => (noCheck s.cm.isbypassallowed, s)
  | .infectionbypassallowset, s => (noCheck s.cm.isinfectionbypassallowed, s)
  | .hassniset, s => (noCheck s.cm.hasSNI, s)
  | .tls, s => (noCheck s.cm.isTLS, s)
  | .siteisip, s => (noCheck s.cm.isiphost, s)
  | .true_, s => (noCheck true, s)

/-- Looks the texts of a list of lookups up until one is found, with the list it was found in. -/
def lookupFirst : List (ListInfo × Str) → ListResult → W → (Option ListInfo × ListResult) × W
  | [], res, world => ((none, res), world)
  | (j, t) :: rest, res, world =>
    match env.inList j t res world with
    | ((true, res), world) => ((some j, res), world)
    | ((false, res), world) => lookupFirst rest res world

/-- Which text of a target a list of the type is about: site lists, regular expressions, others. -/
def textFor (type : Nat) (target target2 targetful : Str) : Str :=
  if 2 ≤ type ∧ type < 4 then target2 else if type = 6 ∨ type = 7 then targetful else target

/-- The lookups of a list check; lists that do not suit a site or an IP are passed over. -/
def listLookups (cm : Filter H) (check : Check) (lists : List ListInfo) : List (ListInfo × Str) :=
  lists.filterMap fun j =>
    if cm.issiteonly ∧ (j.type = 4 ∨ j.type = 12) then none
    else if ¬ cm.isiphost ∧ j.type = 3 then none
    else if cm.isiphost ∧ j.type = 2 ∧ ¬ env.options.search_sitelist_for_ip then none
    else some (j, textFor j.type check.target check.target2 check.targetful)

def multiLookups (check : Check) (lists : List ListInfo) : List (ListInfo × Str) :=
  check.targetdq.flatMap fun u => lists.filterMap fun j =>
    if u.is_siteonly ∧ j.type = 4 then none
    else if ¬ u.site_is_ip ∧ j.type = 3 then none
    else if u.site_is_ip ∧ j.type = 2 ∧ ¬ env.options.search_sitelist_for_ip then none
    else some (j, textFor j.type u.baseurl u.urldomain u.fullurl)

def updateMessages (cm : Filter H) (res : ListResult) : Filter H :=
  { cm with
    lastcategory := res.category
    whatIsNaughtyCategories := res.category
    message_no := res.mess_no
    log_message_no := res.log_mess_no
    lastmatch := res.match_
    result := res.result
    anon_user := cm.anon_user || res.anon_log
    anon_url := cm.anon_url || res.anon_log }

/-- Looks every header line up; the line in which something is found is given back with what
stands before and after it. -/
def headerSearch (lists : List ListInfo) : List Str → List Str → ListResult → W →
    (Option (ListInfo × List Str × List Str) × ListResult) × W
  | _, [], res, world => ((none, res), world)
  | before_, line :: rest, res, world =>
    match lookupFirst env (lists.map fun j => (j, line)) res world with
    | ((some j, res), world) => ((some (j, before_, rest), res), world)
    | ((none, res), world) => headerSearch lists (before_ ++ [line]) rest res world

def noteHeader (check : Check) (cm : Filter H) (j : ListInfo) (before_ rest : List Str)
    (res : ListResult) : Filter H :=
  let cm := updateMessages cm res
  if j.type = 7 then
    let lines := before_ ++ res.result :: rest
    if check.ofResponse then
      { cm with response_header := env.headers.setLines lines cm.response_header }
    else { cm with request_header := env.headers.setLines lines cm.request_header }
  else cm

structure Checked (W H : Type) where
  made : Bool
  found : Bool
  res : ListResult
  story : Story W H

def runHeaderCheck (i : ComRec) (check : Check) (s : Story W H) : Checked W H :=
  let header := if check.ofResponse then s.cm.response_header else s.cm.request_header
  match headerSearch env i.list_id_dq [] (env.headers.lines header) .empty s.world with
  | ((some (j, before_, rest), res), world) =>
    ⟨true, true, res, ⟨if i.isif then noteHeader env check s.cm j before_ rest res else s.cm, world⟩⟩
  | ((none, res), world) => ⟨true, false, res, ⟨s.cm, world⟩⟩

def runListChecks (i : ComRec) (check : Check) (s : Story W H) : Checked W H :=
  let lookups := (if check.isListCheck then listLookups env s.cm check i.list_id_dq else []) ++
    (if check.isMultiListCheck then multiLookups env check i.list_id_dq else [])
  match lookupFirst env lookups .empty s.world with
  | ((some _, res), world) =>
    ⟨true, true, res, ⟨if i.isif then { s.cm with result := res.result } else s.cm, world⟩⟩
  | ((none, res), world) => ⟨true, false, res, ⟨s.cm, world⟩⟩

/-- The whole condition of a line, without the inversion of ifnot. -/
def checkLine (i : ComRec) (s : Story W H) : Checked W H :=
  match conditionOf i.state with
  | none => ⟨false, false, .empty, s⟩ -- unknown SB state number
  | some condition =>
    let (check, s) := examine env condition s
    if check.isHeaderCheck then runHeaderCheck env i check s
    else if check.isListCheck || check.isMultiListCheck then runListChecks env i check s
    else ⟨false, check.state_result, .empty, s⟩

def asInt (n : Nat) : Int := (n : Int).bmod (2 ^ 32)

def lineMessages (i : ComRec) (res : ListResult) (cm : Filter H) : Filter H :=
  let cm := updateMessages cm res
  { cm with
    message_no := if i.mess_no > 0 then asInt i.mess_no else cm.message_no
    log_message_no := if i.log_mess_no > 0 then asInt i.log_mess_no else cm.log_message_no }

def getLastmatch (cm : Filter H) : Str := if cm.anon_url then anonimise cm.lastmatch else cm.lastmatch

def specialException (cm : Filter H) : Bool :=
  cm.message_no == 600 || cm.message_no == 631 || cm.log_message_no == 600 || cm.log_message_no == 631

def noteException (i : ComRec) (res : ListResult) (cm : Filter H) : Filter H :=
  let cm := lineMessages i res { cm with isexception := true, isGrey := false, isBlocked := false }
  let whatIsNaughty := getTranslation env.options cm.message_no ++ cm.lastmatch
  { cm with
    whatIsNaughty := whatIsNaughty
    whatIsNaughtyLog := if cm.log_message_no = 0 then whatIsNaughty
      else getTranslation env.options cm.log_message_no ++ cm.lastmatch
    exceptioncat := cm.lastcategory }

def setexception (i : ComRec) (res : ListResult) (cm : Filter H) : Filter H :=
  let cm := noteException env i res cm
  if specialException cm then
    { cm with special_exception_ip := true, filtergroup := -1, nomitm := true, automitm := false }
  else cm

def noteBlock (i : ComRec) (res : ListResult) (cm : Filter H) : Filter H :=
  let cm := lineMessages i res { cm with isBlocked := true, isGrey := false, isexception := false }
  let text := getTranslation env.options cm.message_no
  { cm with
    whatIsNaughty := if cm.message_no = 503 then text else text ++ getLastmatch cm
    whatIsNaughtyLog := if cm.log_message_no = 0 then text ++ getLastmatch cm
      else getTranslation env.options cm.log_message_no ++ getLastmatch cm
    whatIsNaughtyCategories := cm.lastcategory }

def specialBan (cm : Filter H) : Bool :=
  cm.message_no == 100 || cm.log_message_no == 103 || cm.log_message_no == 104

def setblock (i : ComRec) (res : ListResult) (cm : Filter H) : Filter H :=
  let cm := noteBlock env i res cm
  if specialBan cm then { cm with special_banned_ip := true, filtergroup := -1 } else cm

def setlogcategory (i : ComRec) (res : ListResult) (cm : Filter H) : Filter H :=
  let cm := lineMessages i res { cm with logcategory := true }
  let whatIsNaughty := getTranslation env.options cm.message_no ++ cm.lastmatch
  { cm with
    whatIsNaughty := whatIsNaughty
    whatIsNaughtyLog := if cm.log_message_no = 0 then whatIsNaughty
      else getTranslation env.options cm.log_message_no ++ cm.lastmatch
    whatIsNaughtyCategories := cm.lastcategory }

def setmodurl (cm : Filter H) : Filter H :=
  let (url, header) := env.headers.setURL cm.result cm.request_header
  let (logurl, header) := env.headers.getLogUrl cm.ismitm header
  let urldomain := toLower (getHostname url)
  { cm with
    urlmodified := true
    result := url
    url := url
    baseurl := removePTP (toLower (removeWhiteSpace url))
    logurl := logurl
    urld := env.headers.decode url header
    urldomain := urldomain
    connect_site := urldomain
    request_header := header }

/-- The group is taken from the result of a lookup, but not from one of another line if this
one makes none. -/
def setgroup (i : ComRec) (made : Bool) (cm : Filter H) : Bool × Filter H :=
  if !made || cm.result.length == 0 then (false, cm)
  else
    let g := resolveFilterGroupFromLabel env.options cm.result
    if g > 0 ∧ g ≤ env.options.numfg then
      (true, { cm with filtergroup := g - 1, group_source := cm.group_source.map fun _ => i.list_name })
    else (false, cm)

def act (i : ComRec) (made : Bool) (res : ListResult) (cm : Filter H) : Action → Bool × Filter H
  | .setexception => (true, setexception env i res cm)
  | .setgrey => (true, { cm with isGrey := true, isexception := false, isBlocked := false })
  | .setblock => (true, setblock env i res cm)
  | .setmodurl => (true, setmodurl env cm)
  | .setconnectsite =>
    (true, { cm with urlmodified := true, logurl := cm.result, connect_site := getHostname cm.result })
  | .setlogcategory => (true, setlogcategory env i res cm)
  | .setredirect =>
    if cm.result.length > 0 then
      (true, { cm with
        request_header := env.headers.setRedirect cm.result cm.request_header
        urlredirect := true })
    else (false, cm)
  | .setgomitm =>
    if cm.ismitmcandidate && !cm.nomitm then (true, { cm with gomitm := true }) else (false, cm)
  | .setnomitm => (true, { cm with nomitm := true, gomitm := false, automitm := false })
  | .setautomitm => (true, if cm.nomitm then cm else { cm with automitm := true })
  | .unsetautomitm => (true, { cm with automitm := false })
  | .setaddheader =>
    (true, { cm with
      headeradded := true
      request_header := env.headers.addHeader cm.result cm.request_header })
  | .setmodheader => (true, { cm with headermodified := true })
  | .setnocheckcert => (true, { cm with nocheckcert := true })
  | .setsearchterm =>
    if cm.result.length > 0 then
      let result := toLower cm.result -- sortedSearch converts the text it is called on
      (true, { cm with
        isSearch := true
        result := result
        search_words := sortedSearch result
        search_terms := swapChar (ch '+') (ch ' ') result })
    else (true, cm)
  | .setgodirect => (true, { cm with isdirect := true })
  | .setdone => (true, { cm with isdone := true })
  | .setnolog => (true, { cm with nolog := true })
  | .setgroup => setgroup env i made cm
  | .unsetviruscheck => (true, { cm with noviruscheck := true })
  | .unsetbypass =>
    (true, { cm with
      isbypass := false, iscookiebypass := false, isscanbypass := false, isvirusbypass := false,
      isexception := false })
  | .unsetbypassallow =>
    if cm.isbypassallowed then (true, { cm with isbypassallowed := false }) else (false, cm)
  | .unsetinfectionbypassallow =>
    if cm.isinfectionbypassallowed then (true, { cm with isinfectionbypassallowed := false })
    else (false, cm)
  | .true_ => (true, cm)
  | .false_ => (false, cm)

structure Event (W H : Type) where
  line : ComRec
  before_ : Story W H
  after_ : Story W H

/-- How a run ends: with the answer of the function, at a number that no function has, or
because the calls nest deeper than the run was allowed to follow. -/
inductive Outcome where
  | returned (answer : Bool)
  | outside
  | deep
  deriving DecidableEq, Repr

structure Run (W H : Type) where
  outcome : Outcome
  story : Story W H
  events : List (Event W H)

def Story.setReturn (s : Story W H) (answer : Bool) : Story W H := ⟨{ s.cm with isReturn := answer }, s.world⟩

def leaves (i : ComRec) (action_return : Bool) : Bool :=
  i.return_after_action || (i.return_after_action_is_true && action_return)

def performAction (i : ComRec) (checked : Checked W H) : Bool × Story W H :=
  match actionOf i.action_id with
  | some action =>
    let (answer, cm) := act env i checked.made checked.res checked.story.cm action
    (answer, ⟨cm, checked.story.world⟩)
  | none => (true, checked.story)

def perform (call : Nat → Story W H → Run W H) (i : ComRec) (checked : Checked W H) : Run W H :=
  if i.action_id > sbBiFuncBase then
    let (answer, s) := performAction env i checked
    ⟨.returned answer, s, []⟩
  else if i.action_id > 0 then call i.action_id checked.story
  else ⟨.returned true, checked.story, []⟩

/-- The lines of a function, whatever it is that the actions do. -/
def runLines (perform : ComRec → Checked W H → Run W H) : List ComRec → Bool → Story W H → Run W H
  | [], action_return, s => ⟨.returned action_return, s, []⟩
  | i :: rest, _, s =>
    let checked := checkLine env i s
    if checked.found == i.isif then
      let performed := perform i checked
      match performed.outcome with
      | .returned action_return =>
        let done := performed.story.setReturn action_return
        let events := performed.events ++ [⟨i, s, done⟩]
        if leaves i action_return then ⟨.returned action_return, done, events⟩
        else
          let more := runLines perform rest action_return done
          { more with events := events ++ more.events }
      | _ => performed
    else
      let done := checked.story.setReturn false
      let more := runLines perform rest false done
      { more with events := ⟨i, s, done⟩ :: more.events }

/-- A function of the table by its number, with the depth to which calls may nest. -/
def runFunct (sb : StoryBoard) : Nat → Nat → Story W H → Run W H
  | 0, _, s => ⟨.deep, s, []⟩
  | depth + 1, fID, s =>
    match sb.funct_vec[if fID = 0 then 2 ^ 32 - 1 else fID - 1]? with
    | none => ⟨.outside, s, []⟩
    | some F => runLines env (perform env (runFunct sb depth)) F.comm_dq false s

end Lines

end GuardianStoryRun
