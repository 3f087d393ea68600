import E2Guardian.HostLines
import E2Guardian.BodyLength

/- What a header object derives from the lines it has read, line by line: which lines the getters read,
   and the values that checkheader gathers from them. -/
namespace GuardianHeaderFields
open GuardianString GuardianHttp GuardianHeaderPointers GuardianHeaderIndex GuardianLineWrites GuardianHostLines
    GuardianBodyLength

def chainNames : List String :=
  ["host:", "user-agent:", "accept-encoding:", "content-encoding:", "keep-alive:", "content-type:", "content-length:",
    "content-disposition:", "proxy-authorization:", "authorization:", "proxy-authenticate:", "proxy-connection:", "connection:",
    "x-forwarded-for:", "port:", "transfer-encoding:", "transfer-coding:", "expect: 100-continue"]

theorem chainNames_apart : ∀ a ∈ chainNames, ∀ b ∈ chainNames, a ≠ b → ¬ str a <+: str b ∧ ¬ str b <+: str a := by decide +kernel

/-- A line has at most one of the names, so that their order in the chain does not matter. -/
theorem named_sole (line : Str) : ∃ a ∈ "" :: chainNames, ∀ b ∈ chainNames, named line b = decide (b = a) := by
  by_cases some_ : ∃ a ∈ chainNames, named line a = true
  · obtain ⟨a, listed, here⟩ := some_
    refine ⟨a, List.mem_cons_of_mem _ listed, fun b listed' => ?_⟩
    by_cases same : b = a
    · rw [same, here, decide_eq_true rfl]
    · rw [named_other here (chainNames_apart a listed b listed' (Ne.symm same)), decide_eq_false same]
  · refine ⟨"", List.mem_cons_self, fun b listed => ?_⟩
    have other : b ≠ "" := by
      rintro rfl
      revert listed
      decide
    rw [decide_eq_false other, ← Bool.not_eq_true]
    exact fun here => some_ ⟨b, listed, here⟩

def owned (outgoing : Bool) (p : Pointer) (line : Str) : Bool :=
  match p with
  | .pcontenttype => named line "content-type:"
  | .pcontentdisposition => named line "content-disposition:"
  | .pcontentencoding => !outgoing && named line "content-encoding:"
  | .pproxyconnection => named line "proxy-connection:" || named line "connection:"
  | _ => false

def firstPointers : List Pointer := [.pcontenttype, .pcontentdisposition, .pcontentencoding, .pproxyconnection]

def lengthOf (line : Str) : Option Int := if named line "content-length:" then (headerVal line).map toOffset else none

structure Gathers (outgoing : Bool) (i : Line) (x y : Index) : Prop where
  first : ∀ p ∈ firstPointers, y.pointer p = if x.pointer p = none ∧ owned outgoing p i.text then some i.id else x.pointer p
  last : y.pointer .ptransferencoding = if named i.text "transfer-encoding:" then some i.id else x.pointer .ptransferencoding
  chunked : y.chunked = (x.chunked || (named i.text "transfer-encoding:" && saysChunked i.text))
  expects : y.expects_100 = (x.expects_100 || named i.text "expect: 100-continue")
  length : y.contentlength = if x.pointer .pcontentlength = none then (lengthOf i.text).getD x.contentlength else x.contentlength
  given : y.pointer .pcontentlength =
    if x.pointer .pcontentlength = none ∧ lengthOf i.text ≠ none then some i.id else x.pointer .pcontentlength
  sent : outgoing = false → ∀ p ∈ [Pointer.phost, .pport], y.pointer p = x.pointer p

theorem checkName_gathers (outgoing : Bool) (i : Line) (x : Index) : Gathers outgoing i x (checkName outgoing i x).2 := by
  obtain ⟨a, listed, all⟩ := named_sole i.text
  simp only [chainNames, List.mem_cons, List.not_mem_nil, or_false] at listed
  -- one case for each name; only the branch with that name is left of the chain
  rcases listed with rfl | rfl | rfl | rfl | rfl | rfl | rfl | rfl | rfl | rfl | rfl | rfl | rfl | rfl | rfl
      | rfl | rfl | rfl | rfl
  all_goals
    simp +decide only [chainNames, List.forall_mem_cons, decide_false, decide_true] at all
    obtain ⟨host, agent, accept, encoding, alive, type, length, disposition, proxyAuth, auth, authenticate, proxyConnection,
      connection, forwarded, port, transfer, coding, expect, -⟩ := all
    simp only [checkName, host, agent, accept, encoding, alive, type, length, disposition, proxyAuth, auth, authenticate,
      proxyConnection, connection, forwarded, port, transfer, coding, expect, Bool.and_false, Bool.and_true,
      Bool.false_eq_true, if_false, Bool.or_false, Bool.or_true, if_true]
    -- the names that nothing is gathered for
    clear host agent accept alive proxyAuth auth authenticate forwarded port coding
    repeat' split
  all_goals
    constructor <;> simp [owned, firstPointers, lengthOf, Index.point, *] <;> simp_all <;> grind

theorem checkLine_gathers (o : Options) (outgoing : Bool) (i : Line) (x : Index) :
    Gathers outgoing i x (checkLine o outgoing i x).2 := by
  obtain ⟨first, last, chunked, expects, length, given, sent⟩ := checkName_gathers outgoing i x
  have others : ∀ p ∈ firstPointers, p ≠ .pheaderident := by decide
  have others' : ∀ p ∈ [Pointer.phost, .pport], p ≠ .pheaderident := by decide
  unfold checkLine
  simp only
  generalize (if outgoing && named (checkName outgoing i x).1 "upgrade-insecure-requests:" then removedUpgrade
    else (checkName outgoing i x).1) = text
  split
  · exact ⟨fun p listed => (if_neg (others p listed)).trans (first p listed), last, chunked, expects, length, given,
      fun no p listed => (if_neg (others' p listed)).trans (sent no p listed)⟩
  · exact ⟨first, last, chunked, expects, length, given, sent⟩

structure Gathered (outgoing : Bool) (lines : List Line) (x y : Index) : Prop where
  first : ∀ p ∈ firstPointers, y.pointer p = (x.pointer p).or ((lines.find? fun l => owned outgoing p l.text).map (·.id))
  last : y.pointer .ptransferencoding =
    ((lines.reverse.find? fun l => named l.text "transfer-encoding:").map (·.id)).or (x.pointer .ptransferencoding)
  chunked : y.chunked = (x.chunked || lines.any fun l => named l.text "transfer-encoding:" && saysChunked l.text)
  expects : y.expects_100 = (x.expects_100 || lines.any fun l => named l.text "expect: 100-continue")
  length : y.contentlength =
    if x.pointer .pcontentlength = none then (lines.findSome? fun l => lengthOf l.text).getD x.contentlength else x.contentlength
  given : (y.pointer .pcontentlength).isNone =
    ((x.pointer .pcontentlength).isNone && (lines.findSome? fun l => lengthOf l.text).isNone)
  sent : outgoing = false → ∀ p ∈ [Pointer.phost, .pport], y.pointer p = x.pointer p

theorem checkLines_gathered (o : Options) (outgoing : Bool) (lines : List Line) : ∀ x : Index,
    Gathered outgoing lines x (checkLines o outgoing lines x).2 := by
  induction lines with
  | nil =>
    intro x
    refine ⟨fun p _ => ?_, ?_, ?_, ?_, ?_, ?_, fun _ _ _ => rfl⟩ <;> simp [checkLines]
  | cons i rest ih =>
    intro x
    obtain ⟨first, last, chunked, expects, length, given, sent⟩ := checkLine_gathers o outgoing i x
    obtain ⟨first', last', chunked', expects', length', given', sent'⟩ := ih (checkLine o outgoing i x).2
    refine ⟨fun p listed => ?_, ?_, ?_, ?_, ?_, ?_, fun no p listed => (sent' no p listed).trans (sent no p listed)⟩
    · refine (first' p listed).trans ?_
      rw [first p listed, List.find?_cons]
      cases free : x.pointer p with
      | none =>
        cases here : owned outgoing p i.text with
        | true => simp
        | false => simp
      | some j => simp
    · refine last'.trans ?_
      rw [last, List.reverse_cons, List.find?_append]
      cases here : named i.text "transfer-encoding:" with
      | true => simp [here]
      | false => simp [here]
    · refine chunked'.trans ?_
      rw [chunked, List.any_cons, Bool.or_assoc]
    · refine expects'.trans ?_
      rw [expects, List.any_cons, Bool.or_assoc]
    · refine length'.trans ?_
      rw [length, given, List.findSome?_cons]
      cases free : x.pointer .pcontentlength with
      | none => cases here : lengthOf i.text <;> simp
      | some j => simp
    · refine given'.trans ?_
      rw [given, List.findSome?_cons]
      cases free : x.pointer .pcontentlength with
      | none => cases here : lengthOf i.text <;> simp
      | some j => simp

/- What comes after the lines have been looked at. -/

structure Passed (h h' : HTTPHeader) : Prop where
  distinct : Distinct h → Distinct h'
  pointers : ∀ p, p ≠ .pproxyconnection → h'.pointer p = h.pointer p
  chunked : h'.chunked = h.chunked
  expects : h'.expects_100 = h.expects_100
  length : h'.contentlength = h.contentlength
  persistent : h'.ispersistent = h.ispersistent

theorem Passed.trans {h h' h'' : HTTPHeader} (first : Passed h h') (second : Passed h' h'') : Passed h h'' :=
  ⟨fun distinct => second.distinct (first.distinct distinct),
    fun p other => (second.pointers p other).trans (first.pointers p other), second.chunked.trans first.chunked,
    second.expects.trans first.expects, second.length.trans first.length, second.persistent.trans first.persistent⟩

theorem passed_of_index {h h' : HTTPHeader} (lines : ids h' = ids h) (next : h'.next = h.next) (index : h'.toIndex = h.toIndex)
    (persistent : h'.ispersistent = h.ispersistent) : Passed h h' :=
  ⟨fun distinct => ⟨lines ▸ distinct.once, fun i member => next ▸ distinct.older i (lines ▸ member)⟩,
    fun _ _ => congrFun (congrArg Index.pointer index) _, congrArg Index.chunked index, congrArg Index.expects_100 index,
    congrArg Index.contentlength index, persistent⟩

theorem assignAt_passed (p : Pointer) (line : Str) (h : HTTPHeader) : Passed h (h.assignAt p line) := by
  unfold HTTPHeader.assignAt
  split
  · exact passed_of_index rfl rfl rfl rfl
  · exact passed_of_index (ids_assign _ line h) rfl rfl rfl

theorem setFront_passed (line : Str) (h : HTTPHeader) : Passed h (h.setFront line) :=
  passed_of_index (ids_setFront line h) rfl rfl rfl

theorem setLines_passed (first host port : Str) (h : HTTPHeader) : Passed h (h.setLines first host port) := by
  refine (setFront_passed first h).trans ((assignAt_passed .phost host _).trans ((assignAt_passed .pport port _).trans ?_))
  exact passed_of_index rfl rfl rfl rfl

theorem setURL_passed (url : Str) (h : HTTPHeader) : Passed h (h.setURL url) := by
  unfold HTTPHeader.setURL
  split
  · exact passed_of_index rfl rfl rfl rfl
  · exact setLines_passed _ _ _ h

theorem getUrl_passed (h : HTTPHeader) : Passed h (h.getUrl true false).2 := by
  simp only [HTTPHeader.getUrl, Bool.not_true, Bool.false_eq_true, and_false, if_false, if_true]
  split
  · exact passed_of_index rfl rfl rfl rfl
  · unfold HTTPHeader.noteUrl
    split
    · exact passed_of_index rfl rfl rfl rfl
    · exact (setFront_passed _ h).trans (passed_of_index rfl rfl rfl rfl)

theorem checkConnection_passed (allowpersistent : Bool) (firstline : Str) (h : HTTPHeader) :
    Passed { h with ispersistent := h.persistency allowpersistent firstline } (h.checkConnection allowpersistent firstline) := by
  unfold HTTPHeader.checkConnection HTTPHeader.forceConnection
  simp only
  generalize (if h.persistency allowpersistent firstline then str "Connection: keep-alive\r"
      else str "Connection: close\r") = line
  split
  · exact passed_of_index rfl rfl rfl rfl
  · split
    · refine ⟨fun distinct => ?_, fun p other => if_neg other, rfl, rfl, rfl, rfl⟩
      have pushed := distinct_push (h := h) ⟨distinct.once, distinct.older⟩ line
      exact ⟨pushed.once, pushed.older⟩
    · rename_i id _
      exact passed_of_index (ids_assign id line h) rfl rfl rfl

def lookedAt (o : Options) (allowpersistent : Bool) (h : HTTPHeader) : HTTPHeader :=
  let h' := (h.indexLines o).checkFirst h.front
  { h' with ispersistent := h'.persistency allowpersistent h.front }

theorem lookedAt_index {h : HTTPHeader} (unchecked : Unchecked h) (o : Options) (allowpersistent : Bool) :
    (lookedAt o allowpersistent h).pointer = (h.indexLines o).pointer ∧ Distinct (lookedAt o allowpersistent h) := by
  have indexed := indexLines_distinct unchecked.distinct o
  unfold lookedAt HTTPHeader.checkFirst
  simp only
  split
  · exact ⟨rfl, indexed.once, indexed.older⟩
  · exact ⟨rfl, indexed.once, indexed.older⟩

theorem checkheader_passed {h : HTTPHeader} (some_ : h.header ≠ []) (o : Options) (allowpersistent : Bool) :
    Passed (lookedAt o allowpersistent h) (h.checkheader o allowpersistent) := by
  have connection := checkConnection_passed allowpersistent h.front ((h.indexLines o).checkFirst h.front)
  unfold HTTPHeader.checkheader
  rw [if_neg (by simp [some_])]
  simp only
  split
  · exact connection
  · exact connection.trans ((getUrl_passed _).trans (setURL_passed _ _))

/-- A line that a pointer refers to is read as it was sent, if it has a name of its own. -/
theorem checkheader_at {h : HTTPHeader} (unchecked : Unchecked h) (some_ : h.header ≠ []) (o : Options) (allowpersistent : Bool)
    {p : Pointer} (other : p ≠ .pproxyconnection) {name : String} (own : Own name) {found : Option Line}
    (refers : (h.indexLines o).pointer p = found.map (·.id)) (there : ∀ l ∈ found, l ∈ h.header.tail ∧ named l.text name = true) :
    (h.checkheader o allowpersistent).at_ p = found.map (·.text) := by
  have passed := checkheader_passed some_ o allowpersistent
  obtain ⟨pointers, distinct⟩ := lookedAt_index unchecked o allowpersistent
  have distinct' := passed.distinct distinct
  have pointer : (h.checkheader o allowpersistent).pointer p = found.map (·.id) := by
    rw [passed.pointers p other, pointers, refers]
  unfold HTTPHeader.at_
  rw [pointer]
  cases found with
  | none => rfl
  | some l =>
    obtain ⟨member, here⟩ := there l rfl
    have kept : l ∈ linesNamed name (h.checkheader o allowpersistent) := by
      rw [checkheader_named own unchecked.unset unchecked.distinct]
      exact List.mem_filter.mpr ⟨member, here⟩
    have text := text_of_mem distinct' (List.mem_of_mem_tail (List.mem_filter.mp kept).1)
    simp [text]

/- The values, from the texts of the lines. -/

def fields (h : HTTPHeader) : List Str := h.header.tail.map (·.text)

structure Unread (h : HTTPHeader) : Prop extends Unchecked h where
  some_ : h.header ≠ []
  chunked : h.chunked = false
  expects : h.expects_100 = false
  length : h.contentlength = -1
  url : h.cachedurl = []
  type : h.requesttype = []

section Values
variable {h : HTTPHeader}

theorem indexLines_gathered (o : Options) (h : HTTPHeader) :
    Gathered (!h.is_response) h.header.tail h.toIndex (h.indexLines o).toIndex := checkLines_gathered o _ _ _

theorem first_refers (unread : Unread h) (o : Options) {p : Pointer} (listed : p ∈ firstPointers) :
    (h.indexLines o).pointer p = (h.header.tail.find? fun l => owned (!h.is_response) p l.text).map (·.id) := by
  have others : ∀ p ∈ firstPointers, p ≠ .pheaderident := by decide
  rw [(indexLines_gathered o h).first p listed, unread.unset p (others p listed), Option.none_or]

theorem find_text (q : Str → Bool) (lines : List Line) :
    (lines.find? fun l => q l.text).map (·.text) = (lines.map (·.text)).find? q := by
  rw [List.find?_map]
  rfl

theorem at_first (unread : Unread h) (o : Options) (allowpersistent : Bool) {p : Pointer} (listed : p ∈ firstPointers)
    (other : p ≠ .pproxyconnection) {name : String} (own : Own name)
    (names : ∀ line, owned (!h.is_response) p line = true → named line name = true) :
    (h.checkheader o allowpersistent).at_ p = (fields h).find? (owned (!h.is_response) p) := by
  have there : ∀ l ∈ h.header.tail.find? fun l => owned (!h.is_response) p l.text,
      l ∈ h.header.tail ∧ named l.text name = true := by
    intro l found
    have here := List.find?_some found
    exact ⟨List.mem_of_find?_eq_some found, names l.text here⟩
  rw [checkheader_at unread.toUnchecked unread.some_ o allowpersistent other own (first_refers unread o listed) there]
  exact find_text _ _

theorem at_contenttype (unread : Unread h) (o : Options) (allowpersistent : Bool) :
    (h.checkheader o allowpersistent).at_ .pcontenttype = (fields h).find? fun line => named line "content-type:" :=
  at_first unread o allowpersistent (by decide) (by decide) ⟨by decide, by decide⟩ fun _ here => here

theorem at_contentdisposition (unread : Unread h) (o : Options) (allowpersistent : Bool) :
    (h.checkheader o allowpersistent).at_ .pcontentdisposition = (fields h).find? fun line => named line "content-disposition:" :=
  at_first unread o allowpersistent (by decide) (by decide) ⟨by decide, by decide⟩ fun _ here => here

theorem at_contentencoding (unread : Unread h) (o : Options) (allowpersistent : Bool) :
    (h.checkheader o allowpersistent).at_ .pcontentencoding =
      (fields h).find? fun line => h.is_response && named line "content-encoding:" := by
  have received : owned (!h.is_response) .pcontentencoding = fun line => h.is_response && named line "content-encoding:" := by
    funext line
    simp only [owned, Bool.not_not]
  rw [at_first unread o allowpersistent (by decide) (by decide) (⟨by decide, by decide⟩ : Own "content-encoding:"), received]
  intro line here
  exact (Bool.and_eq_true_iff.mp here).2

theorem at_transferencoding (unread : Unread h) (o : Options) (allowpersistent : Bool) :
    (h.checkheader o allowpersistent).at_ .ptransferencoding =
      (fields h).reverse.find? fun line => named line "transfer-encoding:" := by
  have own : Own "transfer-encoding:" := ⟨by decide, by decide⟩
  have refers : (h.indexLines o).pointer .ptransferencoding =
      (h.header.tail.reverse.find? fun l => named l.text "transfer-encoding:").map (·.id) := by
    rw [(indexLines_gathered o h).last, unread.unset .ptransferencoding (by decide), Option.or_none]
  have there : ∀ l ∈ h.header.tail.reverse.find? fun l => named l.text "transfer-encoding:",
      l ∈ h.header.tail ∧ named l.text "transfer-encoding:" = true := by
    intro l found
    have here := List.find?_some found
    exact ⟨List.mem_reverse.mp (List.mem_of_find?_eq_some found), here⟩
  rw [checkheader_at unread.toUnchecked unread.some_ o allowpersistent (by decide) own refers there]
  unfold fields
  rw [← List.map_reverse]
  exact find_text (fun line => named line "transfer-encoding:") _

theorem chunked_eq (unread : Unread h) (o : Options) (allowpersistent : Bool) :
    (h.checkheader o allowpersistent).chunked =
      (fields h).any fun line => named line "transfer-encoding:" && saysChunked line := by
  have looked : (lookedAt o allowpersistent h).chunked = (h.indexLines o).chunked := by
    unfold lookedAt HTTPHeader.checkFirst
    simp only
    split <;> rfl
  rw [(checkheader_passed unread.some_ o allowpersistent).chunked, looked, (indexLines_gathered o h).chunked, unread.chunked,
    Bool.false_or, fields, List.any_map]
  rfl

theorem expects_eq (unread : Unread h) (o : Options) (allowpersistent : Bool) :
    (h.checkheader o allowpersistent).expects_100 = (fields h).any fun line => named line "expect: 100-continue" := by
  have looked : (lookedAt o allowpersistent h).expects_100 = (h.indexLines o).expects_100 := by
    unfold lookedAt HTTPHeader.checkFirst
    simp only
    split <;> rfl
  rw [(checkheader_passed unread.some_ o allowpersistent).expects, looked, (indexLines_gathered o h).expects, unread.expects,
    Bool.false_or, fields, List.any_map]
  rfl

def bodiless (is_response : Bool) (firstline : Str) : Bool :=
  if is_response then
    let returncode := toInteger (removeWhiteSpace (before (after firstline (str " ")) (str " ")))
    returncode < 200 ∨ returncode = 204 ∨ returncode = 304
  else !startsWith (before firstline (str " ")) (str "P")

theorem length_eq (unread : Unread h) (o : Options) (allowpersistent : Bool) :
    (h.checkheader o allowpersistent).contentlength =
      if bodiless h.is_response h.front then 0 else ((fields h).findSome? lengthOf).getD (-1) := by
  have looked : (lookedAt o allowpersistent h).contentlength =
      if bodiless h.is_response h.front then 0 else (h.indexLines o).contentlength := by
    have kind : (h.indexLines o).is_response = h.is_response := rfl
    unfold lookedAt HTTPHeader.checkFirst bodiless
    rw [kind]
    cases h.is_response with
    | true => simp
    | false => cases found : startsWith (before h.front (str " ")) (str "P") <;> simp [found]
  rw [(checkheader_passed unread.some_ o allowpersistent).length, looked, (indexLines_gathered o h).length, unread.length,
    unread.unset .pcontentlength (by decide), if_pos rfl, fields, List.findSome?_map]
  rfl

def saysClose (icap : Bool) (line : Option Str) : Bool := !icap && (line.map fun line => contains line (str "lose")).getD true

/-- What keeps the connection from being kept, but for a Connection line. -/
def unkept (is_response : Bool) (firstline : Str) (length : Option Int) : Bool :=
  !startsWith (after firstline (str "HTTP/")) (str "1.1") &&
    if is_response then length.isNone else decide (firstline.head? = some (ch 'C'))

theorem at_proxyconnection (unread : Unread h) (o : Options) :
    (h.indexLines o).at_ .pproxyconnection = (fields h).find? (owned (!h.is_response) .pproxyconnection) := by
  have steady : ∀ name ∈ ["proxy-connection:", "connection:"], Steady name := by decide
  have distinct := indexLines_distinct unread.distinct o
  have shown_ := find_text (owned (!h.is_response) .pproxyconnection) h.header.tail
  rw [fields, ← shown_, HTTPHeader.at_, first_refers unread o (by decide)]
  cases found : h.header.tail.find? fun l => owned (!h.is_response) .pproxyconnection l.text with
  | none => rfl
  | some l =>
    have member := List.mem_of_find?_eq_some found
    have here := List.find?_some found
    obtain ⟨name, listed, name_⟩ : ∃ name ∈ ["proxy-connection:", "connection:"], named l.text name = true := by
      simpa [owned] using here
    have kept : l ∈ linesNamed name (h.indexLines o) := by
      rw [indexLines_named (steady name listed)]
      exact List.mem_filter.mpr ⟨member, name_⟩
    have text := text_of_mem distinct (List.mem_of_mem_tail (List.mem_filter.mp kept).1)
    simp [text]

theorem persistent_eq (unread : Unread h) (o : Options) (allowpersistent : Bool) :
    (h.checkheader o allowpersistent).ispersistent =
      (allowpersistent && !(saysClose h.icap ((fields h).find? (owned (!h.is_response) .pproxyconnection)) ||
        unkept h.is_response h.front ((fields h).findSome? lengthOf))) := by
  have given : ((h.indexLines o).pointer .pcontentlength).isNone = ((fields h).findSome? lengthOf).isNone := by
    rw [(indexLines_gathered o h).given, unread.unset .pcontentlength (by decide), Option.isNone_none, Bool.true_and, fields,
      List.findSome?_map]
    rfl
  have line := at_proxyconnection unread o
  rw [(checkheader_passed unread.some_ o allowpersistent).persistent]
  have kind : (h.indexLines o).is_response = h.is_response := rfl
  have icap : (h.indexLines o).icap = h.icap := rfl
  have same : ∀ first, (((h.indexLines o).checkFirst first).at_ .pproxyconnection = (h.indexLines o).at_ .pproxyconnection) ∧
      ((h.indexLines o).checkFirst first).icap = h.icap ∧ ((h.indexLines o).checkFirst first).is_response = h.is_response ∧
      ((h.indexLines o).checkFirst first).pointer = (h.indexLines o).pointer := by
    intro first
    unfold HTTPHeader.checkFirst
    split
    · exact ⟨rfl, rfl, rfl, rfl⟩
    · exact ⟨rfl, rfl, rfl, rfl⟩
  obtain ⟨line', icap', kind', pointers⟩ := same h.front
  unfold lookedAt HTTPHeader.persistency HTTPHeader.connectionclose saysClose unkept
  simp only [line', line, icap', kind', pointers, given]
  cases h.icap with
  | true => cases h.is_response <;> simp
  | false => cases (fields h).find? (owned (!h.is_response) .pproxyconnection) <;> cases h.is_response <;> simp

end Values

/- The URL. -/

structure Shown (h : HTTPHeader) (front type : Str) (host port : Option Str) : Prop where
  some_ : h.header ≠ []
  url : h.cachedurl = []
  front_ : h.front = front
  type_ : h.requesttype = type
  host_ : h.at_ .phost = host
  port_ : h.at_ .pport = port

theorem Shown.getUrl {h g : HTTPHeader} {front type : Str} {host port : Option Str} (first : Shown h front type host port)
    (second : Shown g front type host port) (withport : Bool) : (h.getUrl withport false).1 = (g.getUrl withport false).1 := by
  have same := urlOf_congr (first.front_.trans second.front_.symm) (first.type_.trans second.type_.symm)
    (first.host_.trans second.host_.symm) (first.port_.trans second.port_.symm) withport
  have some_ : h.header.length ≠ 0 := by simp [first.some_]
  have some' : g.header.length ≠ 0 := by simp [second.some_]
  simp [HTTPHeader.getUrl, first.url, second.url, some_, some', same]

def rewritten (type front : Str) (url : Str × Int × Option Str) : Str × Str × Str :=
  let https : Bool := before url.1 (str "://") = str "https" ∨ type = str "CONNECT"
  let (hostname, port, url') := HTTPHeader.urlParts https url.1
  (HTTPHeader.urlFirst https hostname port url' (url.2.2.getD front), HTTPHeader.hostLine https hostname port,
    HTTPHeader.portLine port)

theorem noteUrl_seen {h : HTTPHeader} {front : Str} {host port : Option Str} (seen : Seen h front host port) (n : Int)
    (firstline : Option Str) : Seen (h.noteUrl n firstline) (firstline.getD front) host port ∧
      (h.noteUrl n firstline).requesttype = h.requesttype := by
  obtain ⟨placed, sole, some_, front_, host_, port_⟩ := seen
  cases firstline with
  | none =>
    exact ⟨⟨⟨⟨placed.distinct.once, placed.distinct.older⟩, placed.inside, placed.apart⟩, sole, some_, front_, host_, port_⟩, rfl⟩
  | some line =>
    have placed' := placed.setFront line
    refine ⟨⟨⟨⟨placed'.distinct.once, placed'.distinct.older⟩, placed'.inside, placed'.apart⟩,
        sole.setFront line, ?_, ?_, ?_, ?_⟩, rfl⟩
    · exact header_ne_nil_of_ids (ids_setFront line h) some_
    · exact front_setFront some_ line
    · exact (at_setFront placed (by decide) line).trans host_
    · exact (at_setFront placed (by decide) line).trans port_

theorem setLines_shown {h : HTTPHeader} {front : Str} {host port : Option Str} (seen : Seen h front host port)
    {first hostLine portLine : Str} (isHost_ : named hostLine "host:" = true) (notHost : named portLine "host:" = false) :
    Shown (h.setLines first hostLine portLine) first h.requesttype (host.map fun _ => hostLine) (port.map fun _ => portLine) := by
  have written : Written h (h.setLines first hostLine portLine) first hostLine portLine :=
    setLines_written seen.placed seen.sole seen.some_ isHost_ notHost
  have lines : ids (h.setLines first hostLine portLine) = ids h := by
    have assigned : ∀ (p : Pointer) (line : Str) (g : HTTPHeader), ids (g.assignAt p line) = ids g := by
      intro p line g
      unfold HTTPHeader.assignAt
      split
      · rfl
      · exact ids_assign _ line g
    exact (assigned .pport portLine _).trans ((assigned .phost hostLine _).trans (ids_setFront first h))
  have type : (h.setLines first hostLine portLine).requesttype = h.requesttype := by
    unfold HTTPHeader.setLines HTTPHeader.assignAt
    split <;> split <;> rfl
  refine ⟨header_ne_nil_of_ids lines seen.some_, rfl, written.front, type, ?_, ?_⟩
  · rw [written.host_, seen.host_]
  · rw [written.port_, seen.port_]

theorem normalise_shown {h : HTTPHeader} {front : Str} {host port : Option Str} (seen : Seen h front host port) :
    Shown (normalise h) (rewritten h.requesttype front (h.urlOf true)).1 h.requesttype
      (host.map fun _ => (rewritten h.requesttype front (h.urlOf true)).2.1)
      (port.map fun _ => (rewritten h.requesttype front (h.urlOf true)).2.2) := by
  have some_ : h.header.length ≠ 0 := by simp [seen.some_]
  have steps : normalise h = (h.noteUrl (h.urlOf true).2.1 (h.urlOf true).2.2).setURL (h.urlOf true).1 := by
    simp [normalise, HTTPHeader.getUrl, some_]
  obtain ⟨noted, type⟩ := noteUrl_seen seen (h.urlOf true).2.1 (h.urlOf true).2.2
  rw [steps]
  generalize h.noteUrl (h.urlOf true).2.1 (h.urlOf true).2.2 = g at noted type ⊢
  have filled : g.header.length ≠ 0 := by simp [noted.some_]
  unfold HTTPHeader.setURL rewritten
  rw [if_neg filled, type, ← noted.front_]
  simp only
  generalize HTTPHeader.urlParts _ (h.urlOf true).1 = parts
  obtain ⟨hostname, n, url⟩ := parts
  rw [← type]
  exact setLines_shown noted (hostLine_named _ hostname n) (portLine_not_host n)

def isRelative (firstline : Str) : Bool :=
  startsWith (targetOf firstline) (str "/") && decide (before firstline (str " ") ≠ str "CONNECT")

def targetRead (firstline : Str) : Str :=
  if decide (before firstline (str " ") = str "CONNECT") && !startsWith (targetOf firstline) (str "https://") then
    str "https://" ++ targetOf firstline
  else targetOf firstline

def hostText (target : Str) : Str :=
  let answer := if contains (after target (str "://")) (str "/") then target else target ++ str "/"
  let rest := after answer (str "://")
  let hostname := before (if endsWith rest (str ".") then chop rest else rest) (str "/")
  if contains hostname (str "@") then after hostname (str "@") else hostname

def portRead (https : Bool) (line : Option Str) : Int :=
  (line.map fun line => validPort https (toInteger (after line (str " ")))).getD (defaultPort https)

/-- Two Port lines, or none, that do not matter or are read alike. -/
def PortsAlike (front : Str) (host port port' : Option Str) : Prop :=
  targetRead front = [] ∨ (isRelative front = true ∧ host = none) ∨
    (isRelative front = false ∧ contains (hostText (targetRead front)) (str ":") = true) ∨
    portRead (before front (str " ") = str "CONNECT") port = portRead (before front (str " ") = str "CONNECT") port'

theorem splitPort_own {hostname : Str} (own : contains hostname (str ":") = true) (https : Bool) (port port' : Int) :
    splitPort https port hostname = splitPort https port' hostname := by
  rw [splitPort, splitPort, if_pos own, if_pos own]

theorem absoluteUrl_own {target : Str} (own : contains (hostText target) (str ":") = true)
    (withport https : Bool) (port port' : Int) :
    absoluteUrl withport https port target = absoluteUrl withport https port' target := by
  unfold hostText at own
  unfold absoluteUrl
  simp only
  rw [splitPort_own own https port port']

section UrlOf
variable {h g : HTTPHeader} {front : Str} {host host' port port' : Option Str}

theorem isConnect_eq (type : h.requesttype = before front (str " ")) :
    h.isConnect = decide (before front (str " ") = str "CONNECT") := by
  rw [HTTPHeader.isConnect, type]

theorem urlTarget_eq (front_ : h.front = front) (type : h.requesttype = before front (str " ")) :
    h.urlTarget = targetRead front := by
  rw [HTTPHeader.urlTarget, isConnect_eq type, front_, targetRead]

theorem urlPort_read (type : h.requesttype = before front (str " ")) (port_ : h.at_ .pport = port) :
    h.urlPort = portRead (before front (str " ") = str "CONNECT") port := by
  rw [HTTPHeader.urlPort, isConnect_eq type, port_]
  cases port with
  | none => rfl
  | some line => rfl

theorem targetRead_relative : startsWith (targetRead front) (str "/") = isRelative front := by
  unfold targetRead isRelative
  by_cases connect : before front (str " ") = str "CONNECT"
  · have secure : ∀ rest, startsWith (str "https://" ++ rest) (str "/") = false := fun _ => rfl
    cases given : startsWith (targetOf front) (str "https://") with
    | true =>
      obtain ⟨rest, whole⟩ := List.isPrefixOf_iff_prefix.mp given
      rw [Bool.not_true, Bool.and_false, if_neg (by simp), ← whole, secure, Bool.false_and]
    | false =>
      rw [decide_eq_true connect, Bool.not_false, Bool.and_true, if_pos rfl, secure]
      simp [connect]
  · rw [decide_eq_false connect, Bool.false_and, if_neg (by simp)]
    simp [connect]

/-- The URL depends on the Host line only for a path, and on the Port line only where it has no port. -/
theorem urlOf_safe (seen : Seen h front host port) (seen' : Seen g front host' port')
    (type : h.requesttype = before front (str " "))
    (type' : g.requesttype = before front (str " ")) (hosts : host = host' ∨ isRelative front = false)
    (ports : PortsAlike front host port port') :
    (h.urlOf true).1 = (g.urlOf true).1 ∧ (h.urlOf true).2.2 = (g.urlOf true).2.2 := by
  have port_ := urlPort_read type seen.port_
  have port'_ := urlPort_read type' seen'.port_
  unfold HTTPHeader.urlOf
  rw [urlTarget_eq seen.front_ type, urlTarget_eq seen'.front_ type', isConnect_eq type, isConnect_eq type', targetRead_relative,
    seen.front_, seen'.front_, type, type', seen.host_, seen'.host_, port_, port'_]
  rcases ports with none_ | ⟨relative, none_⟩ | ⟨absolute, own⟩ | same
  · rw [none_]
    exact ⟨rfl, rfl⟩
  · have none' : host' = none := by
      rcases hosts with same | absolute
      · rw [← same, none_]
      · rw [relative] at absolute
        cases absolute
    rw [relative, none_, none']
    split
    · exact ⟨rfl, rfl⟩
    · exact ⟨rfl, rfl⟩
  · rw [absolute, absoluteUrl_own own true _ _ (portRead (before front (str " ") = str "CONNECT") port')]
    split
    · exact ⟨rfl, rfl⟩
    · exact ⟨rfl, rfl⟩
  · rw [same]
    rcases hosts with rfl | absolute
    · exact ⟨rfl, rfl⟩
    · rw [absolute]
      split
      · exact ⟨rfl, rfl⟩
      · exact ⟨rfl, rfl⟩

end UrlOf

section UrlsAgree
variable {h g : HTTPHeader}

theorem find_line (q : Str → Bool) (h : HTTPHeader) : (h.header.tail.find? fun l => q l.text).map (·.text) = (fields h).find? q :=
  find_text q h.header.tail

theorem map_const {a b : Option Str} (same : a.isSome = b.isSome) {c : Str} : a.map (fun _ => c) = b.map fun _ => c := by
  cases a <;> cases b <;> simp_all

theorem request_urls_agree (unread : Unread h) (unread' : Unread g) (request : h.is_response = false)
    (request' : g.is_response = false)
    (front : g.front = h.front)
    (ports : ((fields h).find? fun line => named line "port:").isSome = ((fields g).find? fun line => named line "port:").isSome)
    (hosts : ((fields h).find? fun line => named line "host:").isSome = ((fields g).find? fun line => named line "host:").isSome)
    (safe : (fields h).find? (fun line => named line "host:") = (fields g).find? (fun line => named line "host:") ∨
      isRelative h.front = false)
    (alike : PortsAlike h.front ((fields h).find? fun line => named line "host:")
        ((fields h).find? fun line => named line "port:")
      ((fields g).find? fun line => named line "port:")) (o : Options) (allowpersistent withport : Bool) :
    ((h.checkheader o allowpersistent).getUrl withport false).1 =
        ((g.checkheader o allowpersistent).getUrl withport false).1 := by
  obtain ⟨h', checked, type, seen⟩ := checkheader_seen unread.toUnchecked request unread.some_ o allowpersistent
  obtain ⟨g', checked', type', seen'⟩ := checkheader_seen unread'.toUnchecked request' unread'.some_ o allowpersistent
  have host := find_line (fun line => named line "host:") h
  have host' := find_line (fun line => named line "host:") g
  have port := find_line (fun line => named line "port:") h
  have port' := find_line (fun line => named line "port:") g
  unfold isHost isPort at seen seen'
  rw [host, port] at seen
  rw [host', port', front] at seen'
  rw [front] at type'
  obtain ⟨url, line⟩ := urlOf_safe seen seen' type type' safe alike
  have same : rewritten (before h.front (str " ")) h.front (h'.urlOf true) =
      rewritten (before h.front (str " ")) h.front (g'.urlOf true) := by
    unfold rewritten
    rw [url, line]
  rw [checked, checked']
  have shown_ := normalise_shown seen
  have shown' := normalise_shown seen'
  rw [type, same] at shown_
  rw [type'] at shown'
  refine Shown.getUrl shown_ ?_ withport
  rw [map_const hosts, map_const ports]
  exact shown'

/-- The first line is not where a Connection line is written or added. -/
theorem checkConnection_front (some_ : h.header ≠ []) (distinct : Distinct h)
    (inside : ∀ i, h.pointer .pproxyconnection = some i → i ∈ h.header.tail.map (·.id)) (allowpersistent : Bool)
    (firstline : Str) :
    (h.checkConnection allowpersistent firstline).front = h.front ∧ (h.checkConnection allowpersistent firstline).header ≠ [] ∧
      (h.checkConnection allowpersistent firstline).cachedurl = h.cachedurl ∧
      (h.checkConnection allowpersistent firstline).requesttype = h.requesttype := by
  unfold HTTPHeader.checkConnection HTTPHeader.forceConnection
  simp only
  generalize (if h.persistency allowpersistent firstline then str "Connection: keep-alive\r"
      else str "Connection: close\r") = line
  split
  · exact ⟨rfl, some_, rfl, rfl⟩
  · split
    · refine ⟨?_, by simp [HTTPHeader.point, HTTPHeader.push], rfl, rfl⟩
      cases lines : h.header with
      | nil => exact absurd lines some_
      | cons first rest => simp [HTTPHeader.front, HTTPHeader.point, HTTPHeader.push, lines]
    · rename_i id refers
      refine ⟨front_assign distinct line (inside id refers), ?_, rfl, rfl⟩
      exact header_ne_nil_of_ids (ids_assign id line h) some_

/-- A response has no pointers to Host and Port lines, and its first line stays. -/
theorem response_shown (unread : Unread h) (response : h.is_response = true) (o : Options) (allowpersistent : Bool) :
    Shown (h.checkheader o allowpersistent) h.front [] none none := by
  have indexed := indexLines_gathered o h
  rw [response, Bool.not_true] at indexed
  have unset : ∀ p ∈ [Pointer.phost, .pport], (h.checkheader o allowpersistent).at_ p = none := by
    intro p listed
    have others : ∀ p ∈ [Pointer.phost, .pport], p ≠ .pheaderident ∧ p ≠ .pproxyconnection := by decide
    have none_ : (h.checkheader o allowpersistent).pointer p = none := by
      rw [(checkheader_passed unread.some_ o allowpersistent).pointers p (others p listed).2,
        (lookedAt_index unread.toUnchecked o allowpersistent).1, indexed.sent rfl p listed, unread.unset p (others p listed).1]
    rw [HTTPHeader.at_, none_]
    rfl
  have inside : ∀ i, (h.indexLines o).pointer .pproxyconnection = some i → i ∈ (h.indexLines o).header.tail.map (·.id) := by
    intro i refers
    rw [first_refers unread o (by decide), Option.map_eq_some_iff] at refers
    obtain ⟨l, found, rfl⟩ := refers
    have there := List.mem_map_of_mem (f := Line.id) (List.mem_of_find?_eq_some found)
    have same := congrArg List.tail (ids_indexLines o h)
    rw [ids, ids, ← List.map_tail, ← List.map_tail] at same
    rw [same]
    exact there
  have distinct := indexLines_distinct unread.distinct o
  have kind : (h.indexLines o).is_response = true := response
  obtain ⟨code, length, first⟩ : ∃ code length, (h.indexLines o).checkFirst h.front =
      { h.indexLines o with returncode := code, contentlength := length } := by
    unfold HTTPHeader.checkFirst
    rw [if_pos kind]
    exact ⟨_, _, rfl⟩
  have filled : ((h.indexLines o).checkFirst h.front).header ≠ [] := by
    rw [first]
    exact header_ne_nil_of_ids (ids_indexLines o h) unread.some_
  have distinct' : Distinct ((h.indexLines o).checkFirst h.front) := by
    rw [first]
    exact ⟨distinct.once, distinct.older⟩
  have inside' : ∀ i, ((h.indexLines o).checkFirst h.front).pointer .pproxyconnection = some i →
      i ∈ ((h.indexLines o).checkFirst h.front).header.tail.map (·.id) := by
    rw [first]
    exact inside
  obtain ⟨front, some_, url, type⟩ := checkConnection_front filled distinct' inside' allowpersistent h.front
  have checked : h.checkheader o allowpersistent =
      ((h.indexLines o).checkFirst h.front).checkConnection allowpersistent h.front := by
    have kind' : (((h.indexLines o).checkFirst h.front).checkConnection allowpersistent h.front).is_response = true := by
      rw [(checkConnection_length allowpersistent h.front _).2.2.2, first]
      exact kind
    unfold HTTPHeader.checkheader
    rw [if_neg (by simp [unread.some_])]
    simp only [kind', if_true]
  refine ⟨checked ▸ some_, ?_, ?_, ?_, unset .phost (by decide), unset .pport (by decide)⟩
  · rw [checked, url, first]
    exact unread.url
  · rw [checked, front, first]
    exact front_indexLines o
  · rw [checked, type, first]
    exact unread.type

theorem response_urls_agree (unread : Unread h) (unread' : Unread g) (response : h.is_response = true)
    (response' : g.is_response = true) (front : g.front = h.front) (o : Options) (allowpersistent withport : Bool) :
    ((h.checkheader o allowpersistent).getUrl withport false).1 =
        ((g.checkheader o allowpersistent).getUrl withport false).1 := by
  have shown' := response_shown unread' response' o allowpersistent
  rw [front] at shown'
  exact Shown.getUrl (response_shown unread response o allowpersistent) shown' withport

end UrlsAgree

end GuardianHeaderFields
