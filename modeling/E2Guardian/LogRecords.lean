import E2Guardian.Bypass
import E2Guardian.Urls

/- Records for the log: ConnectionHandler::doLog writes a line for each of 33 fields, and log_listener takes
   the fields from the lines by their number. -/
namespace GuardianLogRecords
open GuardianString GuardianUrls GuardianBypass

structure PostInfo where
  mimetype : Str
  filename : Str
  size : Nat
  blocked : Bool
  storedname : Str
  bodyoffset : Nat

/-- What doLog reads of the request and its answer. The user and the client's name are those behind the name
    lookups that the configuration may ask for. -/
structure Visit where
  who : Str
  from_ : Str
  logUrl : Str
  thread_id : Str
  whatIsNaughtyLog : Str
  requestType : Str
  whatIsNaughtyCategories : Str
  isItNaughty : Bool
  blocktype : Int
  naughtiness : Int
  isexception : Bool
  is_text : Bool
  nolog : Bool
  anon_user : Bool
  special_ip : Bool
  filtergroup : Int
  port : Nat
  wasscanned : Bool
  wasinfected : Bool
  contentmodified : Bool
  urlmodified : Bool
  headermodified : Bool
  headeradded : Bool
  docsize : Int
  returnCode : Int
  contentType : Str
  start_sec : Int
  start_usec : Int
  end_sec : Int
  end_usec : Int
  clienthost : Str
  userAgent : Option Str
  urlparams : Str
  postparts : List PostInfo
  message_no : Int
  flags : Str
  search_terms : Str
  ints_fit : ∀ n ∈ [blocktype, naughtiness, filtergroup, returnCode, message_no], -2 ^ 31 ≤ n ∧ n < 2 ^ 31
  longs_fit : ∀ n ∈ [start_sec, start_usec, end_sec, end_usec], -2 ^ 63 ≤ n ∧ n < 2 ^ 63
  port_fits : port < 2 ^ 32

structure Options where
  ll : Int
  log_ad_blocks : Bool
  log_exception_hits : Int
  log_requests : Bool
  log_user_agent : Bool
  max_logitem_length : Nat
  use_dash_for_blanks : Bool
  numfg : Int

def ofFlag (flag : Bool) : Str := if flag then str "1" else str "0"

structure LogRecord where
  isexception : Bool
  cat : Str
  isnaughty : Bool
  naughtytype : Int
  naughtiness : Int
  where_ : Str
  what : Str
  how : Str
  who : Str
  from_ : Str
  port : Nat
  wasscanned : Bool
  wasinfected : Bool
  contentmodified : Bool
  urlmodified : Bool
  headermodified : Bool
  size : Int
  filtergroup : Int
  code : Int
  cachehit : Bool
  mimetype : Str
  tv_sec : Int
  tv_usec : Int
  endtv_sec : Int
  endtv_usec : Int
  clienthost : Str
  useragent : Str
  params : Str
  postdata : Str
  message_no : Int
  headeradded : Bool
  flags : Str
  searchterms : Str

def underscored (filename : Str) : Str := filename.map fun b => if (str ",;\t ").contains b then ch '_' else b

def postColumn (p : PostInfo) : Str :=
  p.mimetype ++ str "," ++ underscored p.filename ++ str "," ++ ofInt p.size ++ str "," ++ ofFlag p.blocked ++ str "," ++
    p.storedname ++ str "," ++ ofInt p.bodyoffset ++ str ";"

def logged (o : Options) (v : Visit) : Bool :=
  !v.nolog && !(o.ll == 0 || (!o.log_ad_blocks && contains (cstr v.whatIsNaughtyCategories) (str "ADs")) ||
    (o.log_exception_hits == 0 && v.isexception)) &&
    ((v.isexception && o.log_exception_hits == 2) || v.isItNaughty || o.ll == 3 || (o.ll == 2 && v.is_text))

def recordOf (o : Options) (v : Visit) : LogRecord where
  isexception := v.isexception
  cat := v.whatIsNaughtyCategories.take o.max_logitem_length
  isnaughty := v.isItNaughty
  naughtytype := v.blocktype
  naughtiness := v.naughtiness
  where_ := v.logUrl.take o.max_logitem_length
  what := ((if o.log_requests then v.thread_id else []) ++ v.whatIsNaughtyLog).take o.max_logitem_length
  how := v.requestType
  who := if v.anon_user then [] else v.who
  from_ := if v.anon_user then str "0.0.0.0" else v.from_
  port := v.port
  wasscanned := v.wasscanned
  wasinfected := v.wasinfected
  contentmodified := v.contentmodified
  urlmodified := v.urlmodified
  headermodified := v.headermodified
  size := v.docsize
  filtergroup := if v.special_ip || v.filtergroup < 0 then -1 else v.filtergroup
  code := if v.isItNaughty then 403 else v.returnCode
  cachehit := false
  mimetype := v.contentType
  tv_sec := v.start_sec
  tv_usec := v.start_usec
  endtv_sec := v.end_sec
  endtv_usec := v.end_usec
  clienthost := if v.anon_user then [] else v.clienthost
  useragent := if o.log_user_agent then v.userAgent.getD [] else []
  params := v.urlparams
  postdata := cstr (v.postparts.flatMap postColumn)
  message_no := v.message_no
  headeradded := v.headeradded
  flags := v.flags
  searchterms := v.search_terms

def LogRecord.fields (r : LogRecord) : List Str :=
  [ofFlag r.isexception, r.cat, ofFlag r.isnaughty, ofInt r.naughtytype, ofInt r.naughtiness, r.where_, r.what, r.how,
    r.who, r.from_, ofInt r.port, ofFlag r.wasscanned, ofFlag r.wasinfected, ofFlag r.contentmodified,
    ofFlag r.urlmodified, ofFlag r.headermodified, ofInt r.size, ofInt r.filtergroup, ofInt r.code, ofFlag r.cachehit,
    r.mimetype, ofInt r.tv_sec, ofInt r.tv_usec, ofInt r.endtv_sec, ofInt r.endtv_usec, r.clienthost, r.useragent,
    r.params, r.postdata, ofInt r.message_no, ofFlag r.headeradded, r.flags, r.searchterms]

def LogRecord.data (r : LogRecord) : Str := r.fields.flatMap (· ++ [ch '\n'])

def doLog (o : Options) (v : Visit) : Option Str := if logged o v then some (recordOf o v).data else none

/- The listener. -/

def getlines (s : Str) : List Str :=
  let parts := s.splitOn (ch '\n')
  if parts.getLast? = some [] then parts.dropLast else parts

def dashed (o : Options) (logline : Str) : Str :=
  if o.use_dash_for_blanks ∧ logline = [] then str "-"
  else if ¬o.use_dash_for_blanks ∧ logline = str "-" then []
  else logline

structure LogItems where
  isexception : Int
  cat : Str
  isnaughty : Int
  naughtytype : Int
  sweight : Str
  where_ : Str
  what : Str
  how : Str
  who : Str
  from_ : Str
  port : Int
  wasscanned : Int
  wasinfected : Int
  contentmodified : Int
  urlmodified : Int
  headermodified : Int
  ssize : Str
  filtergroup : Int
  code : Int
  cachehit : Int
  mimetype : Str
  tv_sec : Int
  tv_usec : Int
  endtv_sec : Int
  endtv_usec : Int
  clienthost : Str
  useragent : Str
  params : Str
  postdata : Str
  message_no : Str
  headeradded : Int
  flags : Str
  searchterms : Str

def atoi (logline : Str) : Int := toInteger (cstr logline)

def atol (logline : Str) : Int := toLong (cstr logline)

def groupRead (o : Options) (logline : Str) : Int :=
  if atoi logline < -1 ∨ atoi logline ≥ o.numfg then 0 else atoi logline

/-- The switch on `itemcount`: the case of each number takes the line of that number, and without a line for the
    last one the record is passed by. -/
def readItems (o : Options) (loglines : Str) : Option LogItems :=
  let lines := getlines loglines
  let line (itemcount : Nat) : Str := lines.getD itemcount []
  if lines.length ≤ 32 then none
  else some
    { isexception := atoi (line 0)
      cat := dashed o (line 1)
      isnaughty := atoi (line 2)
      naughtytype := atoi (line 3)
      sweight := dashed o (line 4)
      where_ := dashed o (line 5)
      what := dashed o (line 6)
      how := dashed o (line 7)
      who := dashed o (line 8)
      from_ := dashed o (line 9)
      port := atoi (line 10)
      wasscanned := atoi (line 11)
      wasinfected := atoi (line 12)
      contentmodified := atoi (line 13)
      urlmodified := atoi (line 14)
      headermodified := atoi (line 15)
      ssize := dashed o (line 16)
      filtergroup := groupRead o (line 17)
      code := atoi (line 18)
      cachehit := atoi (line 19)
      mimetype := dashed o (line 20)
      tv_sec := atol (line 21)
      tv_usec := atol (line 22)
      endtv_sec := atol (line 23)
      endtv_usec := atol (line 24)
      clienthost := dashed o (line 25)
      useragent := dashed o (line 26)
      params := dashed o (line 27)
      postdata := dashed o (line 28)
      message_no := dashed o (line 29)
      headeradded := atoi (line 30)
      flags := dashed o (line 31)
      searchterms := dashed o (line 32) }

/- The fields that are recovered. -/

def flagValue (flag : Bool) : Int := if flag then 1 else 0

def LogRecord.items (o : Options) (r : LogRecord) : LogItems where
  isexception := flagValue r.isexception
  cat := dashed o r.cat
  isnaughty := flagValue r.isnaughty
  naughtytype := r.naughtytype
  sweight := ofInt r.naughtiness
  where_ := dashed o r.where_
  what := dashed o r.what
  how := dashed o r.how
  who := dashed o r.who
  from_ := dashed o r.from_
  port := r.port
  wasscanned := flagValue r.wasscanned
  wasinfected := flagValue r.wasinfected
  contentmodified := flagValue r.contentmodified
  urlmodified := flagValue r.urlmodified
  headermodified := flagValue r.headermodified
  ssize := ofInt r.size
  filtergroup := r.filtergroup
  code := r.code
  cachehit := flagValue r.cachehit
  mimetype := dashed o r.mimetype
  tv_sec := r.tv_sec
  tv_usec := r.tv_usec
  endtv_sec := r.endtv_sec
  endtv_usec := r.endtv_usec
  clienthost := dashed o r.clienthost
  useragent := dashed o r.useragent
  params := dashed o r.params
  postdata := dashed o r.postdata
  message_no := ofInt r.message_no
  headeradded := flagValue r.headeradded
  flags := dashed o r.flags
  searchterms := dashed o r.searchterms

def LogRecord.texts (r : LogRecord) : List Str :=
  [r.cat, r.where_, r.what, r.how, r.who, r.from_, r.mimetype, r.clienthost, r.useragent, r.params, r.postdata, r.flags,
    r.searchterms]

def LogItems.texts (p : LogItems) : List Str :=
  [p.cat, p.where_, p.what, p.how, p.who, p.from_, p.mimetype, p.clienthost, p.useragent, p.params, p.postdata, p.flags,
    p.searchterms]

theorem getlines_free (s : Str) : ∀ line ∈ getlines s, ch '\n' ∉ line := by
  intro line member
  unfold getlines at member
  simp only at member
  split at member
  · exact splitOn_free _ _ line (List.dropLast_subset _ member)
  · exact splitOn_free _ _ line member

theorem getD_free (s : Str) (k : Nat) : ch '\n' ∉ (getlines s).getD k [] := by
  rw [List.getD_eq_getElem?_getD]
  cases here : (getlines s)[k]? with
  | none => exact List.not_mem_nil
  | some line => exact getlines_free s line (List.mem_of_getElem? here)

theorem getlines_fields {fields : List Str} (free : ∀ f ∈ fields, ch '\n' ∉ f) :
    getlines (fields.flatMap (· ++ [ch '\n'])) = fields := by
  have split : (fields.flatMap (· ++ [ch '\n'])).splitOn (ch '\n') = fields ++ [[]] := by
    induction fields with
    | nil => rfl
    | cons f fields ih =>
      obtain ⟨first, later⟩ := List.forall_mem_cons.mp free
      rw [List.flatMap_cons, List.append_assoc, List.singleton_append, List.splitOn_append_cons_self_of_not_mem first,
        ih later, List.cons_append]
  rw [getlines, split, List.getLast?_concat, if_pos rfl, List.dropLast_concat]

theorem dashed_free (o : Options) {line : Str} : ch '\n' ∉ dashed o line ↔ ch '\n' ∉ line := by
  unfold dashed
  split
  · rename_i blank
    simp [blank.2, str, ch]
  · split
    · rename_i dash
      simp [dash.2, str, ch]
    · rfl

theorem dashed_ofInt (o : Options) (n : Int) : dashed o (ofInt n) = ofInt n := by
  have notDash : ofInt n ≠ str "-" := by
    intro dash
    have read := signedDecimal_ofInt n (r := []) (by simp)
    rw [List.append_nil, dash] at read
    have zero : n = 0 := read.symm.trans (by decide)
    rw [zero] at dash
    exact absurd dash (by decide)
  unfold dashed
  rw [if_neg fun blank => ofInt_ne_nil n blank.2, if_neg fun dash => notDash dash.2]

theorem atoi_ofInt {n : Int} (low : -2 ^ 31 ≤ n) (high : n < 2 ^ 31) : atoi (ofInt n) = n := by
  have read := toInteger_int low high (r := []) (by simp)
  rw [List.append_nil] at read
  rw [atoi, cstr_of_nul_free (ofInt_nul_free n), read]

theorem atoi_ofFlag (flag : Bool) : atoi (ofFlag flag) = flagValue flag := by
  cases flag <;> decide

theorem atol_ofInt {n : Int} (low : -2 ^ 63 ≤ n) (high : n < 2 ^ 63) : atol (ofInt n) = n := by
  have read := signedDecimal_ofInt n (r := []) (by simp)
  rw [List.append_nil] at read
  rw [atol, cstr_of_nul_free (ofInt_nul_free n), toLong, read]
  omega

section record
variable (o : Options) (v : Visit)

theorem ofInt_line (n : Int) : ch '\n' ∉ ofInt n := ofInt_plain n (by decide) (by decide)

theorem ofFlag_line (flag : Bool) : ch '\n' ∉ ofFlag flag := by
  cases flag <;> decide

/-- Fields without a line end are found one to a line. -/
theorem getlines_data {r : LogRecord} (free : ∀ t ∈ r.texts, ch '\n' ∉ t) : getlines r.data = r.fields := by
  refine getlines_fields ?_
  simp only [LogRecord.texts, List.forall_mem_cons] at free
  simp only [LogRecord.fields, List.forall_mem_cons, ofInt_line, ofFlag_line, free, not_false_eq_true, true_and]
  simp

theorem readItems_free {s : Str} {p : LogItems} (read : readItems o s = some p) : ∀ t ∈ p.texts, ch '\n' ∉ t := by
  unfold readItems at read
  simp only at read
  split at read
  · cases read
  · obtain rfl := Option.some.inj read
    simp only [LogItems.texts, List.forall_mem_cons, dashed_free, getD_free, not_false_eq_true, true_and]
    simp

theorem items_texts (r : LogRecord) : (r.items o).texts = r.texts.map (dashed o) := rfl

/-- What is read of the record when no text has a line end. -/
theorem readItems_data (free : ∀ t ∈ (recordOf o v).texts, ch '\n' ∉ t) : readItems o (recordOf o v).data =
    some { (recordOf o v).items o with
      port := atoi (ofInt v.port), filtergroup := groupRead o (ofInt (recordOf o v).filtergroup) } := by
  have ints := v.ints_fit
  have longs := v.longs_fit
  simp only [List.forall_mem_cons, List.not_mem_nil, false_imp_iff, forall_const, and_true] at ints longs
  have code : atoi (ofInt (recordOf o v).code) = (recordOf o v).code := by
    refine atoi_ofInt ?_ ?_ <;> simp only [recordOf] <;> split <;> omega
  have type_ : atoi (ofInt (recordOf o v).naughtytype) = (recordOf o v).naughtytype := atoi_ofInt ints.1.1 ints.1.2
  have sec : atol (ofInt (recordOf o v).tv_sec) = (recordOf o v).tv_sec := atol_ofInt longs.1.1 longs.1.2
  have usec : atol (ofInt (recordOf o v).tv_usec) = (recordOf o v).tv_usec := atol_ofInt longs.2.1.1 longs.2.1.2
  have endSec : atol (ofInt (recordOf o v).endtv_sec) = (recordOf o v).endtv_sec := atol_ofInt longs.2.2.1.1 longs.2.2.1.2
  have endUsec : atol (ofInt (recordOf o v).endtv_usec) = (recordOf o v).endtv_usec := atol_ofInt longs.2.2.2.1 longs.2.2.2.2
  have lines := getlines_data free
  unfold readItems
  rw [lines]
  simp only [LogRecord.fields, List.length_cons, List.length_nil, List.getD_cons_zero, List.getD_cons_succ, atoi_ofFlag,
    dashed_ofInt, code, type_, sec, usec, endSec, endUsec]
  rfl

theorem group_kept_iff : groupRead o (ofInt (recordOf o v).filtergroup) = (recordOf o v).filtergroup ↔
    (recordOf o v).filtergroup < o.numfg ∨ (recordOf o v).filtergroup = 0 := by
  have ints := v.ints_fit
  simp only [List.forall_mem_cons, List.not_mem_nil, false_imp_iff, forall_const, and_true] at ints
  have low : -1 ≤ (recordOf o v).filtergroup ∧ (recordOf o v).filtergroup < 2 ^ 31 := by
    simp only [recordOf]
    split
    · omega
    · rename_i other
      simp only [Bool.or_eq_true, decide_eq_true_eq, not_or] at other
      omega
  rw [groupRead, atoi_ofInt (by omega) low.2]
  split <;> omega

theorem port_kept_iff : atoi (ofInt v.port) = v.port ↔ v.port < 2 ^ 31 := by
  have fits := v.port_fits
  constructor
  · intro kept
    have read := signedDecimal_ofInt v.port (r := []) (by simp)
    rw [List.append_nil] at read
    rw [atoi, cstr_of_nul_free (ofInt_nul_free _), toInteger, read] at kept
    have below := Int.bmod_lt (x := max (-2 ^ 63) (min (2 ^ 63 - 1) (v.port : Int))) (m := 2 ^ 32) (by decide)
    rw [kept] at below
    omega
  · intro small
    exact atoi_ofInt (by omega) (by omega)

/-- Every field is recovered exactly if no text field has a line end in it, and the port and the group are numbers that
    the listener can take. -/
theorem fields_recovered_iff {data : Str} (written : doLog o v = some data) :
    readItems o data = some ((recordOf o v).items o) ↔ (∀ t ∈ (recordOf o v).texts, ch '\n' ∉ t) ∧ v.port < 2 ^ 31 ∧
      ((recordOf o v).filtergroup < o.numfg ∨ (recordOf o v).filtergroup = 0) := by
  have data_ : data = (recordOf o v).data := by
    unfold doLog at written
    split at written
    · exact (Option.some.inj written).symm
    · cases written
  rw [data_]
  constructor
  · intro read
    have free : ∀ t ∈ (recordOf o v).texts, ch '\n' ∉ t := by
      intro t member
      have texts := readItems_free o read
      rw [items_texts] at texts
      exact (dashed_free o).mp (texts _ (List.mem_map_of_mem member))
    rw [readItems_data o v free, Option.some.injEq] at read
    have port : atoi (ofInt v.port) = v.port := congrArg LogItems.port read
    have group : groupRead o (ofInt (recordOf o v).filtergroup) = (recordOf o v).filtergroup :=
      congrArg LogItems.filtergroup read
    exact ⟨free, (port_kept_iff v).mp port, (group_kept_iff o v).mp group⟩
  · rintro ⟨free, port, group⟩
    rw [readItems_data o v free, (port_kept_iff v).mpr port, (group_kept_iff o v).mpr group]
    rfl

end record

def plainOptions : Options := ⟨3, true, 2, false, false, 2000, true, 2⟩

def visitBy (who : Str) : Visit where
  who := who
  from_ := str "192.168.1.7"
  logUrl := str "http://a.org/"
  thread_id := []
  whatIsNaughtyLog := []
  requestType := str "GET"
  whatIsNaughtyCategories := []
  isItNaughty := false
  blocktype := 0
  naughtiness := 0
  isexception := false
  is_text := true
  nolog := false
  anon_user := false
  special_ip := false
  filtergroup := 1
  port := 80
  wasscanned := false
  wasinfected := false
  contentmodified := false
  urlmodified := false
  headermodified := false
  headeradded := false
  docsize := 5
  returnCode := 200
  contentType := str "text/html"
  start_sec := 1
  start_usec := 2
  end_sec := 3
  end_usec := 4
  clienthost := []
  userAgent := none
  urlparams := []
  postparts := []
  message_no := 0
  flags := str "8080:"
  search_terms := []
  ints_fit := by decide
  longs_fit := by decide
  port_fits := by decide

theorem plain_user_recovered : readItems plainOptions (recordOf plainOptions (visitBy (str "ann"))).data =
    some ((recordOf plainOptions (visitBy (str "ann"))).items plainOptions) :=
  (fields_recovered_iff plainOptions (visitBy (str "ann")) rfl).mpr (by decide)

/-- A user name of two lines moves the fields behind it: its second line is taken for the client's address. -/
theorem name_of_two_lines : ¬(∀ (o : Options) (v : Visit) (data : Str), doLog o v = some data →
      readItems o data = some ((recordOf o v).items o)) ∧
    (readItems plainOptions (recordOf plainOptions (visitBy (str "ann\n10.0.0.1"))).data).map LogItems.from_ =
      some (str "10.0.0.1") := by
  refine ⟨fun all => ?_, by decide⟩
  have read := all plainOptions (visitBy (str "ann\n10.0.0.1")) _ rfl
  have texts := readItems_free plainOptions read
  rw [items_texts] at texts
  exact absurd texts (by decide)

end GuardianLogRecords
