import E2Guardian.HeaderIndex

/- The length of the body of a request: what the Content-Length lines that out sends announce, and how
   many bytes out then takes over from the client. -/
namespace GuardianBodyLength
open GuardianString GuardianSockets GuardianHttp GuardianHeaderPointers GuardianHeaderIndex

/-- The length that a line announces to a server: a number and nothing else. -/
def announced (line : Str) : Option Nat :=
  let value := removeWhiteSpace (after line (str ":"))
  if value ≠ [] ∧ value.all isDigit then some (decimal value) else none

def forwarded (h : HTTPHeader) : Int := h.bodyTunnel.getD 0

/-- The lines that are sent announce what is taken over; without one, that is nothing. -/
structure Agrees (h : HTTPHeader) : Prop where
  lines : ∀ line ∈ h.sentLines, named line "content-length:" = true → (announced line).map Int.ofNat = some (forwarded h)
  none_ : (∀ line ∈ h.sentLines, named line "content-length:" = false) → forwarded h = 0

/- Numbers. -/

theorem toOffset_digits {value : Str} (some_ : value ≠ []) (digits : value.all isDigit = true) :
    toOffset value = min (2 ^ 63 - 1) (decimal value) := by
  rw [List.all_eq_true] at digits
  have trimmed := removeWhiteSpace_of_none fun b member => digit_not_whiteSpace (digits b member)
  cases value with
  | nil => exact absurd rfl some_
  | cons b rest =>
    have first := digits b List.mem_cons_self
    have read : signedDecimal (b :: rest) = decimal (b :: rest) := by
      rw [signedDecimal, if_neg (digit_ne first (by decide)), if_neg (digit_ne first (by decide))]
    unfold toOffset
    rw [if_neg (by simp), trimmed, List.dropWhile_cons_of_neg (by simp [digit_not_space first]), read]
    omega

/- The pass over the lines. -/

theorem checkName_length_kept {outgoing : Bool} {i : Line} {x : Index}
    (kept : named i.text "content-length:" = false ∨ x.pointer .pcontentlength ≠ none) :
    (checkName outgoing i x).2.pointer .pcontentlength = x.pointer .pcontentlength ∧
      (checkName outgoing i x).2.contentlength = x.contentlength := by
  have checked := checkName_checked outgoing i x
  generalize checkName outgoing i x = result at checked ⊢
  cases checked with
  | noted p name names here =>
    have other : p ≠ .pcontentlength := by
      rintro rfl
      cases names
    exact ⟨if_neg (Ne.symm other), rfl⟩
  | agent y here same =>
    rcases same with same | same
    · rw [same]
      exact ⟨rfl, rfl⟩
    · rw [same]
      exact ⟨rfl, rfl⟩
  | length tp here value free =>
    rcases kept with no | set
    · rw [no] at here
      cases here
    · exact absurd free set
  | again sent here => exact ⟨rfl, rfl⟩
  | encoding sent here => exact ⟨rfl, rfl⟩
  | transfer here => exact ⟨rfl, rfl⟩
  | expect here => exact ⟨rfl, rfl⟩
  | other => exact ⟨rfl, rfl⟩

theorem checkName_length_set {outgoing : Bool} {i : Line} {x : Index} {tp : Str}
    (here : named i.text "content-length:" = true) (free : x.pointer .pcontentlength = none)
    (value : headerVal i.text = some tp) :
    checkName outgoing i x = (i.text, { x with contentlength := toOffset tp }.point .pcontentlength (some i.id)) := by
  have host : named i.text "host:" = false := named_other here (by decide)
  have agent : named i.text "user-agent:" = false := named_other here (by decide)
  have accept : named i.text "accept-encoding:" = false := named_other here (by decide)
  have encoding : named i.text "content-encoding:" = false := named_other here (by decide)
  have alive : named i.text "keep-alive:" = false := named_other here (by decide)
  have type : named i.text "content-type:" = false := named_other here (by decide)
  simp only [checkName, host, agent, accept, encoding, alive, type, here, free, value, Bool.and_false, Bool.and_true,
    Bool.false_eq_true, if_false, Option.isNone_none, if_true]

theorem checkLine_length (o : Options) (outgoing : Bool) (i : Line) (x : Index) :
    (checkLine o outgoing i x).2.pointer .pcontentlength = (checkName outgoing i x).2.pointer .pcontentlength ∧
      (checkLine o outgoing i x).2.contentlength = (checkName outgoing i x).2.contentlength := by
  unfold checkLine
  simp only
  generalize (if outgoing && named (checkName outgoing i x).1 "upgrade-insecure-requests:" then removedUpgrade
    else (checkName outgoing i x).1) = text
  split
  · exact ⟨rfl, rfl⟩
  · exact ⟨rfl, rfl⟩

theorem checkLines_length_kept (o : Options) (outgoing : Bool) (lines : List Line) : ∀ {x : Index},
    ((∀ l ∈ lines, named l.text "content-length:" = false) ∨ x.pointer .pcontentlength ≠ none) →
      (checkLines o outgoing lines x).2.pointer .pcontentlength = x.pointer .pcontentlength ∧
        (checkLines o outgoing lines x).2.contentlength = x.contentlength := by
  induction lines with
  | nil => exact fun _ => ⟨rfl, rfl⟩
  | cons i rest ih =>
    intro x kept
    have first : named i.text "content-length:" = false ∨ x.pointer .pcontentlength ≠ none :=
      kept.imp_left fun none_ => none_ i List.mem_cons_self
    obtain ⟨pointer, length⟩ := @checkName_length_kept outgoing _ _ first
    obtain ⟨pointer', length'⟩ := checkLine_length o outgoing i x
    have later : (∀ l ∈ rest, named l.text "content-length:" = false) ∨
        (checkLine o outgoing i x).2.pointer .pcontentlength ≠ none := by
      rw [pointer', pointer]
      exact kept.imp_left fun none_ l member => none_ l (List.mem_cons_of_mem _ member)
    obtain ⟨pointers, lengths⟩ := ih later
    simp only [checkLines]
    exact ⟨pointers.trans (pointer'.trans pointer), lengths.trans (length'.trans length)⟩

theorem headerVal_announced {line : Str} {n : Nat} (reads : announced line = some n) :
    ∃ tp, headerVal line = some tp ∧ toOffset tp = min (2 ^ 63 - 1) n := by
  unfold announced at reads
  simp only at reads
  split at reads
  · rename_i number
    have value := Option.some.inj reads
    refine ⟨_, if_pos (List.length_pos_iff.mpr number.1), ?_⟩
    rw [toOffset_digits number.1 number.2, value]
  · cases reads

theorem checkLines_length_set (o : Options) (outgoing : Bool) {n : Nat} (lines : List Line) : ∀ {x : Index},
    (∀ l ∈ lines, named l.text "content-length:" = true → announced l.text = some n) →
    (∃ l ∈ lines, named l.text "content-length:" = true) → x.pointer .pcontentlength = none →
      (checkLines o outgoing lines x).2.pointer .pcontentlength ≠ none ∧
        (checkLines o outgoing lines x).2.contentlength = min (2 ^ 63 - 1) n := by
  induction lines with
  | nil =>
    intro x _ found
    simp at found
  | cons i rest ih =>
    intro x reads found free
    obtain ⟨pointer', length'⟩ := checkLine_length o outgoing i x
    simp only [checkLines]
    cases here : named i.text "content-length:" with
    | true =>
      obtain ⟨tp, value, read⟩ := headerVal_announced (reads i List.mem_cons_self here)
      rw [checkName_length_set here free value] at pointer' length'
      have set : (checkLine o outgoing i x).2.pointer .pcontentlength ≠ none := by
        rw [pointer']
        simp [Index.point]
      obtain ⟨pointers, lengths⟩ := checkLines_length_kept o outgoing rest (.inr set)
      rw [pointers, lengths]
      exact ⟨set, length'.trans read⟩
    | false =>
      obtain ⟨pointer, _⟩ := @checkName_length_kept outgoing _ x (.inl here)
      have later : ∃ l ∈ rest, named l.text "content-length:" = true := by
        obtain ⟨l, member, this⟩ := found
        rcases List.mem_cons.mp member with rfl | member
        · rw [here] at this
          cases this
        · exact ⟨l, member, this⟩
      exact ih (fun l member => reads l (List.mem_cons_of_mem _ member)) later (pointer'.trans (pointer.trans free))

/- The header. -/

theorem checkConnection_length (allowpersistent : Bool) (firstline : Str) (h : HTTPHeader) :
    (h.checkConnection allowpersistent firstline).pointer .pcontentlength = h.pointer .pcontentlength ∧
      (h.checkConnection allowpersistent firstline).contentlength = h.contentlength ∧
      (h.checkConnection allowpersistent firstline).requesttype = h.requesttype ∧
      (h.checkConnection allowpersistent firstline).is_response = h.is_response := by
  unfold HTTPHeader.checkConnection HTTPHeader.forceConnection
  simp only
  split
  · exact ⟨rfl, rfl, rfl, rfl⟩
  · split
    · exact ⟨rfl, rfl, rfl, rfl⟩
    · exact ⟨rfl, rfl, rfl, rfl⟩

def method (h : HTTPHeader) : Str := before h.front (str " ")

/-- A body is only taken over for a method that starts with a P. -/
theorem checkheader_length {h : HTTPHeader} (request : h.is_response = false) (some_ : h.header ≠ []) (o : Options)
    (allowpersistent : Bool) :
    (h.checkheader o allowpersistent).pointer .pcontentlength = (h.indexLines o).pointer .pcontentlength ∧
      (h.checkheader o allowpersistent).contentlength =
        (if startsWith (method h) (str "P") then (h.indexLines o).contentlength else 0) ∧
      (h.checkheader o allowpersistent).requesttype = method h := by
  have indexed : (h.indexLines o).is_response = false := request
  obtain ⟨pointer, length, type, response⟩ :=
    checkConnection_length allowpersistent h.front ((h.indexLines o).checkFirst h.front)
  have outgoing : ((h.indexLines o).checkFirst h.front).is_response = false := by
    unfold HTTPHeader.checkFirst
    rw [if_neg (by simp [indexed])]
    exact indexed
  unfold HTTPHeader.checkheader
  rw [if_neg (by simp [some_])]
  simp only [response, outgoing, Bool.false_eq_true, if_false]
  rw [(setURL_index _ _).1, (setURL_index _ _).2, (getUrl_index _).1, (getUrl_index _).2, pointer, length, type]
  unfold HTTPHeader.checkFirst
  rw [if_neg (by simp [indexed])]
  exact ⟨rfl, rfl, rfl⟩

theorem mem_sentLines_iff {h : HTTPHeader} (unchecked : Unchecked h) (o : Options) (allowpersistent : Bool) (line : Str) :
    (line ∈ (h.checkheader o allowpersistent).sentLines ∧ named line "content-length:" = true) ↔
      ∃ l ∈ h.header.tail, l.text = line ∧ named l.text "content-length:" = true := by
  have own : Own "content-length:" := ⟨by decide, by decide⟩
  have same := checkheader_named own unchecked.unset unchecked.distinct o allowpersistent
  have sent : ∀ l : Line, named l.text "content-length:" = true → HTTPHeader.ignored l = false := by
    intro l here
    rw [← Bool.not_eq_true]
    intro begins
    have front : str "X-E2G-IgnoreMe" <+: l.text := List.isPrefixOf_iff_prefix.mp begins
    have other := @named_of_front _ _ "x-e2g-ignoreme" front (by decide)
    rw [named_other here (by decide)] at other
    cases other
  have moved : ∀ l : Line, (l ∈ (h.checkheader o allowpersistent).header.tail ∧ named l.text "content-length:" = true) ↔
      (l ∈ h.header.tail ∧ named l.text "content-length:" = true) := by
    intro l
    have members : l ∈ linesNamed "content-length:" (h.checkheader o allowpersistent) ↔ l ∈ linesNamed "content-length:" h := by
      rw [same]
    simpa only [linesNamed, List.mem_filter] using members
  unfold HTTPHeader.sentLines
  constructor
  · intro both
    obtain ⟨there, here⟩ := both
    obtain ⟨l, member, rfl⟩ := List.mem_map.mp there
    have read := (moved l).mp ⟨(List.mem_filter.mp member).1, here⟩
    exact ⟨l, read.1, rfl, here⟩
  · intro read
    obtain ⟨l, member, rfl, here⟩ := read
    have still := ((moved l).mpr ⟨member, here⟩).1
    exact ⟨List.mem_map_of_mem (List.mem_filter.mpr ⟨still, by simp [sent l here]⟩), here⟩

theorem forwarded_eq {h : HTTPHeader} (request : h.is_response = false) (some_ : h.header ≠ []) (unchecked : Unchecked h)
    {n : Nat} (reads : ∀ l ∈ h.header.tail, named l.text "content-length:" = true → announced l.text = some n)
    (o : Options) (allowpersistent : Bool) :
    forwarded (h.checkheader o allowpersistent) =
      if (∃ l ∈ h.header.tail, named l.text "content-length:" = true) ∧ startsWith (method h) (str "P") = true then
        ((min (2 ^ 63 - 1) n : Nat) : Int) else 0 := by
  obtain ⟨pointer, length, type⟩ := checkheader_length request some_ o allowpersistent
  have free := unchecked.unset .pcontentlength (by decide)
  unfold forwarded HTTPHeader.bodyTunnel HTTPHeader.contentLength
  rw [pointer, length, type]
  by_cases found : ∃ l ∈ h.header.tail, named l.text "content-length:" = true
  · obtain ⟨set, read⟩ := checkLines_length_set o (!h.is_response) h.header.tail reads found free
    have pointed : (h.indexLines o).pointer .pcontentlength ≠ none := set
    have value : (h.indexLines o).contentlength = ((min (2 ^ 63 - 1) n : Nat) : Int) := read
    by_cases post : startsWith (method h) (str "P") = true
    · have other : startsWith (method h) (str "HTTP") = false := by
        rw [← Bool.not_eq_true]
        intro http
        have first := List.isPrefixOf_iff_prefix.mp post
        have second := List.isPrefixOf_iff_prefix.mp http
        rcases List.prefix_or_prefix_of_prefix first second with no | no <;> revert no <;> decide
      rw [if_pos ⟨by simp [other], pointed⟩, if_pos post, if_pos ⟨found, post⟩, value]
      rfl
    · have not : ¬ ((∃ l ∈ h.header.tail, named l.text "content-length:" = true) ∧
          startsWith (method h) (str "P") = true) := fun both => post both.2
      rw [if_neg post, if_neg not]
      split
      · rfl
      · rfl
  · have none_ : ∀ l ∈ h.header.tail, named l.text "content-length:" = false := by
      intro l member
      rw [← Bool.not_eq_true]
      exact fun here => found ⟨l, member, here⟩
    obtain ⟨same, _⟩ := checkLines_length_kept o (!h.is_response) h.header.tail (x := h.toIndex) (.inl none_)
    have null : (h.indexLines o).pointer .pcontentlength = none := same.trans free
    rw [if_neg fun both => both.2 null, if_neg fun both => found both.1]
    rfl

/-- All the lines with a length announce one number that fits, and it is nothing unless the method
starts with a P. -/
def OneLength (h : HTTPHeader) : Prop :=
  ∃ n : Nat, n < 2 ^ 63 ∧ (∀ l ∈ h.header.tail, named l.text "content-length:" = true → announced l.text = some n) ∧
    (n = 0 ∨ startsWith (method h) (str "P") = true)

theorem agrees_iff_oneLength {h : HTTPHeader} (request : h.is_response = false) (some_ : h.header ≠ [])
    (unchecked : Unchecked h) (o : Options) (allowpersistent : Bool) :
    Agrees (h.checkheader o allowpersistent) ↔ OneLength h := by
  have sent := mem_sentLines_iff unchecked o allowpersistent
  constructor
  · intro agrees
    by_cases found : ∃ l ∈ h.header.tail, named l.text "content-length:" = true
    · obtain ⟨l, member, here⟩ := found
      have first : ∀ m ∈ h.header.tail, named m.text "content-length:" = true →
          (announced m.text).map Int.ofNat = some (forwarded (h.checkheader o allowpersistent)) := by
        intro m there name
        have out := (sent m.text).mpr ⟨m, there, rfl, name⟩
        exact agrees.lines m.text out.1 out.2
      obtain ⟨n, number, length⟩ := Option.map_eq_some_iff.mp (first l member here)
      have reads : ∀ m ∈ h.header.tail, named m.text "content-length:" = true → announced m.text = some n := by
        intro m there name
        obtain ⟨k, number', length'⟩ := Option.map_eq_some_iff.mp (first m there name)
        rw [number', Int.ofNat.inj (length'.trans length.symm)]
      have taken := forwarded_eq request some_ unchecked reads o allowpersistent
      rw [← length] at taken
      by_cases post : startsWith (method h) (str "P") = true
      · rw [if_pos ⟨⟨l, member, here⟩, post⟩] at taken
        have fits : n = min (2 ^ 63 - 1) n := Int.ofNat.inj taken
        exact ⟨n, by omega, reads, .inr post⟩
      · rw [if_neg fun both => post both.2] at taken
        have nothing : n = 0 := Int.ofNat.inj taken
        exact ⟨n, by omega, reads, .inl nothing⟩
    · exact ⟨0, by decide, fun m there name => absurd ⟨m, there, name⟩ found, .inl rfl⟩
  · intro one
    obtain ⟨n, fits, reads, allowed⟩ := one
    have taken := forwarded_eq request some_ unchecked reads o allowpersistent
    constructor
    · intro line there here
      obtain ⟨l, member, rfl, _⟩ := (sent line).mp ⟨there, here⟩
      rw [reads l member here, taken, Option.map_some]
      congr 1
      split
      · have whole : min (2 ^ 63 - 1) n = n := by omega
        rw [whole]
        rfl
      · rename_i no
        rcases allowed with rfl | post
        · rfl
        · exact absurd ⟨⟨l, member, here⟩, post⟩ no
    · intro none_
      rw [taken, if_neg]
      intro both
      obtain ⟨⟨l, member, here⟩, _⟩ := both
      have out := (sent l.text).mpr ⟨l, member, rfl, here⟩
      rw [none_ l.text out.1] at here
      cases here

/-- The Content-Length lines of a request that is accepted announce what out takes over from the client
exactly if they all announce one number of less than 64 bits and that is zero or the method starts
with a P. -/
theorem lengths_agree_iff_one_length {h : HTTPHeader} (ready : Ready h) (request : h.is_response = false) (o : Options)
    (allowpersistent : Bool) (sock : BaseSocket) (accepted : (h.in_ o allowpersistent sock).1 = true) :
    Agrees (h.in_ o allowpersistent sock).2.1 ↔ OneLength (linesRead o sock h) := by
  obtain ⟨checked, some_⟩ := in_accepted accepted
  rw [checked]
  exact agrees_iff_oneLength ((linesRead_response o sock h).trans request) some_ (linesRead_unchecked ready o sock) o
    allowpersistent

def plain : Options := ⟨8192, 200, [], false⟩

def arriving (request : String) : BaseSocket := ⟨[], [.bytes (str request)], false, false⟩

theorem arriving_ofList (l : List Char) : arriving (String.ofList l) = ⟨[], [.bytes (l.map ch)], false, false⟩ := by
  rw [arriving, str_ofList]

def postFive : BaseSocket := arriving "POST http://a/ HTTP/1.1\r\nHost: a\r\nContent-Length: 5\r\ncontent-length:5\r\n\r\nhello"

theorem post_five_agrees : Agrees (HTTPHeader.in_ plain true postFive (.made false none)).2.1 := by
  refine (lengths_agree_iff_one_length (.inr ⟨false, none, rfl⟩) rfl plain true postFive ?_).mpr ?_
  · rw [postFive, arriving_ofList]
    decide
  · rw [postFive, arriving_ofList]
    refine ⟨5, by decide, ?_, .inr (by decide)⟩
    decide

def getFive : BaseSocket := arriving "GET http://a/ HTTP/1.1\r\nHost: a\r\nContent-Length: 5\r\n\r\nhello"

def postTwoLengths : BaseSocket :=
  arriving "POST http://a/ HTTP/1.1\r\nHost: a\r\nContent-Length: 5\r\nContent-Length: 3\r\n\r\nhello"

theorem lengths_that_disagree :
    (HTTPHeader.in_ plain true getFive (.made false none)).1 = true ∧
      ¬ Agrees (HTTPHeader.in_ plain true getFive (.made false none)).2.1 ∧
      (HTTPHeader.in_ plain true postTwoLengths (.made false none)).1 = true ∧
      ¬ Agrees (HTTPHeader.in_ plain true postTwoLengths (.made false none)).2.1 := by
  rw [getFive, postTwoLengths, arriving_ofList, arriving_ofList]
  refine ⟨by decide, ?_, by decide, ?_⟩
  · intro agrees
    have line := agrees.lines (str "Content-Length: 5\r") (by decide) (by decide)
    revert line
    decide
  · intro agrees
    have line := agrees.lines (str "Content-Length: 3\r") (by decide) (by decide)
    revert line
    decide

end GuardianBodyLength
