import Mathlib.Algebra.Ring.Nat
import E2Guardian.IcapHeader
import E2Guardian.MachineInts
import E2Guardian.Urls

/- What respond writes about a request, and what is read of it: the line that carries the user and
   the filter group over to the response, and the line that says where the encapsulated parts start. -/
namespace GuardianIcapRespond
open GuardianString GuardianHttp GuardianHeaderPointers GuardianHeaderIndex GuardianIcap GuardianUrls GuardianChunks MachineInts

structure Responder extends ICAPHeader where
  out_req_header : Str
  out_res_header : Str
  size_req_body : Int
  size_res_body : Int
  ISTag : Str

def comLine (com : IcapCom) : Str :=
  str "X-ICAP-E2G:" ++ com.user ++ str "," ++ com.EBG ++ str "," ++ ofInt com.filtergroup ++ str "," ++
    ofInt com.mess_no ++ str "," ++ ofInt com.log_mess_no ++ str "," ++ com.mess_string

namespace Responder

/-- The request header that came is sent, where no other is set. -/
def echoRequest (h : Responder) : Responder :=
  if h.service_reqmod && !(h.out_res_hdr_flag || h.out_req_hdr_flag) then
    { h with
      out_req_header := h.HTTPrequest.stringHeader
      out_req_hdr_flag := true
      out_req_body_flag := h.req_body_flag
      size_req_body := if h.req_body > 0 then h.req_body else h.size_req_body }
  else h

def echoResponse (h : Responder) : Responder :=
  if h.service_resmod && !h.out_res_hdr_flag then
    { h with
      out_res_header := h.HTTPresponse.stringHeader
      out_res_hdr_flag := true
      out_res_body_flag := h.res_body_flag
      size_res_body := if h.res_body > 0 then h.res_body else h.size_res_body }
  else h

def echoed (echo : Bool) (h : Responder) : Responder := if echo then h.echoRequest.echoResponse else h

def encapLine (h : Responder) : Str :=
  let (l, sep, offset) := (str "Encapsulated:", str " ", (0 : Int))
  let (l, sep, offset) :=
    if h.out_req_hdr_flag && decide (h.out_req_header.length > 0) then
      (l ++ sep ++ str "req-hdr=" ++ ofInt offset, str ", ", int32 (offset + h.out_req_header.length))
    else (l, sep, offset)
  let (l, sep, offset) :=
    if h.out_res_hdr_flag && decide (h.out_res_header.length > 0) then
      (l ++ sep ++ str "res-hdr=" ++ ofInt offset, str ", ", int32 (offset + h.out_res_header.length))
    else (l, sep, offset)
  if h.out_req_body_flag then l ++ sep ++ str "req-body=" ++ ofInt offset
  else if h.out_res_body_flag then l ++ sep ++ str "res-body=" ++ ofInt offset
  else l ++ sep ++ str "null-body=" ++ ofInt offset

def encapsulated (h : Responder) : Str :=
  (if h.out_req_hdr_flag then cstr h.out_req_header else []) ++ if h.out_res_hdr_flag then cstr h.out_res_header else []

def respond (res_code : Str) (echo encap : Bool) (h : Responder) : Str × Responder :=
  let h := h.echoed echo
  let l := str "ICAP/1.0 " ++ res_code ++ crlf ++ str "ISTag:" ++ h.ISTag ++ crlf
  let l := if h.service_reqmod && decide (h.icap_com.filtergroup > -1) then l ++ comLine h.icap_com ++ crlf else l
  let l := if encap then l ++ h.encapLine ++ crlf else l
  let l := l ++ crlf
  (if encap then l ++ h.encapsulated else l, h)

end Responder

def firstEntry (t : Str) : Str :=
  let t1 := before t (str ",")
  if t1 = [] then t else t1

/-- The rounds of setEncapRecs: whether the line is well formed, and the records that are pushed. None if the rounds
run out. -/
def encapRounds : Nat → Str → Option (Bool × List EncapRec)
  | 0, _ => none
  | rounds + 1, t =>
    if t.length = 0 then some (true, [])
    else
      let name := before (firstEntry t) (str "=")
      let t2 := after (firstEntry t) (str "=")
      if name = [] ∨ t2 = [] then some (false, [])
      else (encapRounds rounds (after t (str ", "))).map fun r => (r.1, ⟨name, toInteger t2⟩ :: r.2)

def encapAnswer (pencapsulated : Str) : Option (Bool × List EncapRec) :=
  let t := after pencapsulated (str ": ")
  encapRounds (t.length + 1) t

/- The line about the request. -/

section Com
variable {com : IcapCom}

/-- Nothing cuts a text short: no comma before the numbers, and no end of a C string. -/
def Uncut (com : IcapCom) : Prop :=
  ch ',' ∉ com.user ∧ ch ',' ∉ com.EBG ∧ 0 ∉ com.user ∧ 0 ∉ com.EBG ∧ 0 ∉ com.mess_string

structure InRange (com : IcapCom) : Prop where
  filtergroup : -2 ^ 31 ≤ com.filtergroup ∧ com.filtergroup < 2 ^ 31
  mess_no : -2 ^ 31 ≤ com.mess_no ∧ com.mess_no < 2 ^ 31
  log_mess_no : -2 ^ 31 ≤ com.log_mess_no ∧ com.log_mess_no < 2 ^ 31

theorem comLine_nul_free (uncut : Uncut com) : 0 ∉ comLine com ++ str "\r" := by
  obtain ⟨-, -, user, ebg, mess⟩ := uncut
  have name : 0 ∉ str "X-ICAP-E2G:" := by decide
  have comma : 0 ∉ str "," := by decide
  have back : 0 ∉ str "\r" := by decide
  simp only [comLine, List.mem_append, not_or]
  exact ⟨⟨⟨⟨⟨⟨⟨⟨⟨⟨⟨⟨name, user⟩, comma⟩, ebg⟩, comma⟩, ofInt_nul_free _⟩, comma⟩, ofInt_nul_free _⟩, comma⟩,
    ofInt_nul_free _⟩, comma⟩, mess⟩, back⟩

theorem comma_at {a : Str} (absent : ch ',' ∉ a) (r : Str) : before (a ++ (str "," ++ r)) (str ",") = a ∧
    after (a ++ (str "," ++ r)) (str ",") = r := ⟨before_at rfl absent r, after_at rfl absent r⟩

theorem icapCom_comLine (uncut : Uncut com) (range : InRange com) : icapCom (comLine com ++ str "\r") = com := by
  obtain ⟨user, ebg, -⟩ := uncut
  have chopped : chop (comLine com ++ str "\r") = comLine com := List.dropLast_concat
  have text : comLine com = str "X-ICAP-E2G" ++ (str ":" ++ (com.user ++ (str "," ++ (com.EBG ++ (str "," ++
      (ofInt com.filtergroup ++ (str "," ++ (ofInt com.mess_no ++ (str "," ++ (ofInt com.log_mess_no ++ (str "," ++
        com.mess_string))))))))))) := by
    simp only [comLine, ← List.append_assoc]
    rfl
  have begins : after (comLine com) (str ":") = com.user ++ (str "," ++ (com.EBG ++ (str "," ++
      (ofInt com.filtergroup ++ (str "," ++ (ofInt com.mess_no ++ (str "," ++ (ofInt com.log_mess_no ++ (str "," ++
        com.mess_string))))))))) := by
    rw [text]
    exact @after_at (ch ':') (str ":") (str "X-ICAP-E2G") rfl (by decide) _
  have number : ∀ n : Int, ch ',' ∉ ofInt n := fun n => ofInt_plain n (by decide) (by decide)
  have read : ∀ n : Int, -2 ^ 31 ≤ n ∧ n < 2 ^ 31 → toInteger (ofInt n) = n := by
    intro n bounds
    have whole := @toInteger_int n bounds.1 bounds.2 [] (by simp)
    rwa [List.append_nil] at whole
  simp only [icapCom, chopped, begins, comma_at user, comma_at ebg, comma_at (number _), read _ range.filtergroup,
    read _ range.mess_no, read _ range.log_mess_no]

theorem mem_before {s bs : Str} {c : UInt8} (member : c ∈ before s bs) : c ∈ s := (before_isPrefix s bs).subset member

theorem mem_after {s bs : Str} {c : UInt8} (member : c ∈ after s bs) : c ∈ s := (after_suffix s bs).subset member

theorem comma_not_before (s : Str) : ch ',' ∉ before s (str ",") := by
  intro member
  have cut : before s (str ",") = if ch ',' ∈ s then s.takeWhile (· != ch ',') else [] := before_byte s (ch ',')
  rw [cut] at member
  split at member
  · simpa using List.mem_takeWhile_imp member
  · cases member

/-- What is read holds no more than the line, and commas in the last text only. -/
theorem icapCom_uncut (i : Str) (clean : 0 ∉ i) : Uncut (icapCom i) := by
  have line : ∀ c, c ∈ after (chop i) (str ":") → c ∈ i := fun c member =>
    (List.dropLast_prefix i).subset (mem_after member)
  refine ⟨comma_not_before _, comma_not_before _, fun member => ?_, fun member => ?_, fun member => ?_⟩
  · exact clean (line _ (mem_before member))
  · exact clean (line _ (mem_after (mem_before member)))
  · exact clean (line _ (mem_after (mem_after (mem_after (mem_after (mem_after member))))))

theorem icapCom_iff (range : InRange com) : icapCom (cstr (comLine com ++ str "\r")) = com ↔ Uncut com := by
  constructor
  · intro same
    rw [← same]
    exact icapCom_uncut _ (cstr_nul_free _)
  · intro uncut
    rw [cstr_of_nul_free (comLine_nul_free uncut)]
    exact icapCom_comLine uncut range

theorem checkLine_com (h : ICAPHeader) (i : Str) :
    (h.checkLine i).icap_com = if named i "x-icap-e2g:" then icapCom i else h.icap_com := by
  rw [checkLine_eq]
  split
  · rename_i here
    rw [kindOf_com here]
    rfl
  · rename_i other
    have kind : kindOf h.set h.ppreview i ≠ .com := by
      unfold kindOf
      repeat' split
      all_goals simp_all
    cases taken : kindOf h.set h.ppreview i with
    | com => exact absurd taken kind
    | pointed | allow | preview | encapsulated | clientip | clientuser | other => rfl

theorem checkLines_com {i : Str} (here : named i "x-icap-e2g:" = true) {rest : List Str}
    (last : ∀ l ∈ rest, named l "x-icap-e2g:" = false) :
    ∀ (front : List Str) (h : ICAPHeader), ((front ++ i :: rest).foldl (fun h i => h.checkLine i) h).icap_com = icapCom i := by
  have kept : ∀ (rest : List Str), (∀ l ∈ rest, named l "x-icap-e2g:" = false) → ∀ h : ICAPHeader,
      (rest.foldl (fun h i => h.checkLine i) h).icap_com = h.icap_com := by
    intro rest last
    induction rest with
    | nil => exact fun h => rfl
    | cons l rest ih =>
      intro h
      rw [List.foldl_cons, ih (fun l member => last l (List.mem_cons_of_mem _ member)), checkLine_com,
        if_neg (by simp [last l List.mem_cons_self])]
  intro front h
  rw [List.foldl_append, List.foldl_cons, kept rest last, checkLine_com, if_pos here]

def keptLine (com : IcapCom) : Str := cstr (comLine com ++ str "\r")

theorem keptLine_named (com : IcapCom) : named (keptLine com) "x-icap-e2g:" = true := by
  have begins : str "X-ICAP-E2G:" <+: keptLine com := by
    rw [keptLine, comLine]
    simp only [List.append_assoc]
    rw [cstr_append (by decide)]
    exact List.prefix_append _ _
  exact named_of_front begins (by decide)

theorem echoed_kept (echo : Bool) (h : Responder) : (h.echoed echo).service_reqmod = h.service_reqmod ∧
    (h.echoed echo).icap_com = h.icap_com ∧ (h.echoed echo).ISTag = h.ISTag := by
  have request : ∀ h : Responder, h.echoRequest.service_reqmod = h.service_reqmod ∧
      h.echoRequest.icap_com = h.icap_com ∧ h.echoRequest.ISTag = h.ISTag := by
    intro h
    unfold Responder.echoRequest
    split <;> exact ⟨rfl, rfl, rfl⟩
  have response : ∀ h : Responder, h.echoResponse.service_reqmod = h.service_reqmod ∧
      h.echoResponse.icap_com = h.icap_com ∧ h.echoResponse.ISTag = h.ISTag := by
    intro h
    unfold Responder.echoResponse
    split <;> exact ⟨rfl, rfl, rfl⟩
  unfold Responder.echoed
  split
  · obtain ⟨kind, com, tag⟩ := response h.echoRequest
    obtain ⟨kind', com', tag'⟩ := request h
    exact ⟨kind.trans kind', com.trans com', tag.trans tag'⟩
  · exact ⟨rfl, rfl, rfl⟩

/-- The line that carries the user and the filter group over gives both back if and only if there is no comma in the
first two texts and no NUL in any. -/
theorem com_read_back_iff (h : Responder) (service : h.service_reqmod = true) (decided : 0 ≤ h.icap_com.filtergroup)
    (range : InRange h.icap_com) (res_code : Str) (echo encap : Bool) :
    (∃ rest, (h.respond res_code echo encap).1 =
      str "ICAP/1.0 " ++ res_code ++ crlf ++ str "ISTag:" ++ h.ISTag ++ crlf ++ comLine h.icap_com ++ crlf ++ rest) ∧
    ∀ (g : ICAPHeader) (first : Str) (front rest : List Str), g.header = first :: (front ++ keptLine h.icap_com :: rest) →
      (∀ l ∈ rest, named l "x-icap-e2g:" = false) → (g.checkheader.icap_com = h.icap_com ↔ Uncut h.icap_com) := by
  constructor
  · obtain ⟨kind, com, tag⟩ := echoed_kept echo h
    have written : (h.service_reqmod && decide (h.icap_com.filtergroup > -1)) = true := by
      rw [service, Bool.true_and, decide_eq_true_iff]
      omega
    unfold Responder.respond
    simp only [kind, com, tag, written, if_true]
    split
    · refine ⟨(h.echoed echo).encapLine ++ (crlf ++ (crlf ++ (h.echoed echo).encapsulated)), ?_⟩
      simp only [List.append_assoc]
    · exact ⟨_, rfl⟩
  · intro g first front rest lines last
    rw [ICAPHeader.checkheader, lines, List.tail_cons, checkLines_com (keptLine_named _) last]
    exact icapCom_iff range

def deciding (com : IcapCom) : Responder where
  toICAPHeader := { ICAPHeader.made false with service_reqmod := true, icap_com := com }
  out_req_header := []
  out_res_header := []
  size_req_body := 0
  size_res_body := 0
  ISTag := str "\"1\""

def asking (com : IcapCom) : ICAPHeader :=
  { ICAPHeader.made false with header := [str "RESPMOD icap://a/response ICAP/1.0\r", keptLine com] }

def smith : IcapCom := ⟨str "smith", str "G", 2, 0, 0, str "a, b"⟩

theorem smith_read_back : (asking smith).checkheader.icap_com = smith := by
  have range : InRange smith := ⟨by decide, by decide, by decide⟩
  have both := com_read_back_iff (deciding smith) rfl (by decide) range (str "200 OK") false false
  exact (both.2 (asking smith) _ [] [] rfl nofun).mpr ⟨by decide, by decide, by decide, by decide, by decide⟩

def smithJohn : IcapCom := ⟨str "smith,john", str "G", 2, 0, 0, []⟩

theorem group_lost_to_comma : (asking smithJohn).checkheader.icap_com ≠ smithJohn ∧
    (asking smithJohn).checkheader.icap_com.filtergroup = 0 := by decide

end Com

/- Where the encapsulated parts start. -/

theorem encapRounds_succ (rounds : Nat) (t : Str) : encapRounds (rounds + 1) t =
    if t.length = 0 then some (true, [])
    else if before (firstEntry t) (str "=") = [] ∨ after (firstEntry t) (str "=") = [] then some (false, [])
    else (encapRounds rounds (after t (str ", "))).map fun r =>
      (r.1, ⟨before (firstEntry t) (str "="), toInteger (after (firstEntry t) (str "="))⟩ :: r.2) := rfl

theorem after_short (t : Str) : (after t (str ", ")).length ≤ t.length - 1 := by
  by_cases here : contains t (str ", ") = true
  · have cut := after_length_lt here (by decide)
    omega
  · rw [after_of_absent (mt (contains_iff_occurs t (str ", ")).mpr here)]
    exact Nat.zero_le _

theorem encapRounds_ends (rounds : Nat) : ∀ t : Str, t.length < rounds → ∃ answer, encapRounds rounds t = some answer := by
  induction rounds with
  | zero => exact fun t short => absurd short (Nat.not_lt_zero _)
  | succ rounds ih =>
    intro t short
    rw [encapRounds_succ]
    split
    · exact ⟨_, rfl⟩
    · rename_i some_
      split
      · exact ⟨_, rfl⟩
      · have cut := after_short t
        obtain ⟨answer, rest⟩ := ih (after t (str ", ")) (by omega)
        rw [rest]
        exact ⟨_, rfl⟩

theorem encapLoop_succ (rounds : Nat) (t : Str) : encapLoop (rounds + 1) t =
    if t.length = 0 then []
    else if before (firstEntry t) (str "=") = [] ∨ after (firstEntry t) (str "=") = [] then []
    else ⟨before (firstEntry t) (str "="), toInteger (after (firstEntry t) (str "="))⟩ ::
      encapLoop rounds (after t (str ", ")) := rfl

theorem encapLoop_of_rounds (rounds : Nat) : ∀ {t : Str} {answer : Bool × List EncapRec}, encapRounds rounds t = some answer →
    ∀ more, t.length ≤ more → encapLoop more t = answer.2 := by
  induction rounds with
  | zero => nofun
  | succ rounds ih =>
    intro t answer done more enough
    rw [encapRounds_succ] at done
    cases more with
    | zero =>
      rw [if_pos (Nat.le_zero.mp enough), Option.some.injEq] at done
      exact done ▸ rfl
    | succ more =>
      rw [encapLoop_succ]
      split at done
      · rename_i empty
        rw [if_pos empty, ← Option.some.inj done]
      · rename_i some_
        rw [if_neg some_]
        split at done
        · rename_i malformed
          rw [if_pos malformed, ← Option.some.inj done]
        · rename_i formed
          rw [if_neg formed]
          obtain ⟨answer', rest, rfl⟩ := Option.map_eq_some_iff.mp done
          have cut := after_short t
          rw [ih rest more (by omega)]

structure Entry where
  gap : Str
  name : Str
  digits : Str
  white : ∀ c ∈ gap, isWhiteSpace c = true
  some_ : name ≠ []
  plain : ∀ c ∈ name, isWhiteSpace c = false ∧ c ≠ ch '=' ∧ c ≠ ch ',' ∧ c ≠ ch ':'
  number : digits ≠ []
  digit : ∀ c ∈ digits, isDigit c = true

namespace Entry

def text (e : Entry) : Str := e.gap ++ (e.name ++ ch '=' :: e.digits)

def record (e : Entry) : EncapRec := ⟨e.name, decimal e.digits⟩

end Entry

def listed : List Entry → Str
  | [] => []
  | [e] => e.text
  | e :: e' :: rest => e.text ++ ch ',' :: listed (e' :: rest)

def EndOfLine (stop : Str) : Prop := stop = [] ∨ stop = str "\r"

section Reading
variable {bs a r : Str} {c : UInt8}

theorem after_next {b : UInt8} (apart : bs.isPrefixOf (b :: r) = false) : after (b :: r) bs = after r bs := by
  unfold after
  rw [find, apart]
  cases find bs r with
  | none => rfl
  | some i =>
    have lengths : i + 1 + bs.length = (i + bs.length) + 1 := by omega
    simp only [Bool.false_eq_true, if_false, Option.map_some, lengths, List.drop_succ_cons]

theorem Entry.free (e : Entry) {c : UInt8} (dark : isWhiteSpace c = false) (digitless : isDigit c = false)
    (other : c ≠ ch '=') (absent : c ∉ e.name) : c ∉ e.text := by
  simp only [Entry.text, List.mem_append, List.mem_cons, not_or]
  refine ⟨fun member => ?_, absent, other, fun member => ?_⟩
  · rw [e.white c member] at dark
    cases dark
  · rw [e.digit c member] at digitless
    cases digitless

theorem Entry.commaless (e : Entry) : ch ',' ∉ e.text :=
  e.free (by decide) (by decide) (by decide) fun member => (e.plain _ member).2.2.1 rfl

theorem Entry.colonless (e : Entry) : ch ':' ∉ e.text :=
  e.free (by decide) (by decide) (by decide) fun member => (e.plain _ member).2.2.2 rfl

theorem listed_colonless (es : List Entry) : ch ':' ∉ listed es := by
  induction es with
  | nil => nofun
  | cons e rest ih =>
    cases rest with
    | nil => exact e.colonless
    | cons e' rest =>
      rw [listed, List.mem_append, List.mem_cons]
      rintro (here | comma | there)
      · exact e.colonless here
      · exact absurd comma (by decide)
      · exact ih there

theorem listed_commas (es : List Entry) : (listed es).count (ch ',') = es.length - 1 := by
  induction es with
  | nil => rfl
  | cons e rest ih =>
    have none_ := List.count_eq_zero.mpr e.commaless
    cases rest with
    | nil => exact none_
    | cons e' rest =>
      rw [listed, List.count_append, none_, List.count_cons_self, ih]
      simp only [List.length_cons]
      omega

theorem after_commas {t : Str} (here : str ", " <:+: t) :
    (after t (str ", ")).count (ch ',') + 1 ≤ t.count (ch ',') := by
  obtain ⟨i, found⟩ := Option.isSome_iff_exists.mp ((contains_iff_occurs t (str ", ")).mpr here)
  obtain ⟨rest, cut⟩ := (find_some found).2
  have behind : after t (str ", ") = rest := by
    have dropped : t.drop (i + (str ", ").length) = rest := by
      rw [← List.drop_drop, ← cut, List.drop_left]
    rw [after, found]
    exact dropped
  have comma : (str ", ").count (ch ',') = 1 := by decide
  have whole := congrArg (List.count (ch ',')) (List.take_append_drop i t)
  rw [← cut, List.count_append, List.count_append, comma] at whole
  rw [behind]
  omega

theorem records_bound (rounds : Nat) : ∀ {t : Str} {answer : Bool × List EncapRec}, encapRounds rounds t = some answer →
    answer.2.length ≤ t.count (ch ',') + 1 ∧ (t = [] → answer.2 = []) := by
  induction rounds with
  | zero => nofun
  | succ rounds ih =>
    intro t answer done
    rw [encapRounds_succ] at done
    split at done
    · rw [← Option.some.inj done]
      exact ⟨Nat.zero_le _, fun _ => rfl⟩
    · rename_i some_
      have full : t ≠ [] := fun empty => some_ (by rw [empty]; rfl)
      split at done
      · rw [← Option.some.inj done]
        exact ⟨Nat.zero_le _, fun _ => rfl⟩
      · obtain ⟨answer', rest, rfl⟩ := Option.map_eq_some_iff.mp done
        obtain ⟨bound, empty⟩ := ih rest
        refine ⟨?_, fun none_ => absurd none_ full⟩
        by_cases here : str ", " <:+: t
        · have fewer := after_commas here
          simp only [List.length_cons]
          omega
        · rw [empty (after_of_absent here)]
          exact Nat.le_add_left 1 _

theorem Entry.text_ne_nil (e : Entry) : e.text ≠ [] := by
  simp [Entry.text]

theorem firstEntry_text (e : Entry) {rest : Str} (ends : EndOfLine rest ∨ rest.head? = some (ch ',')) :
    ∃ stop, EndOfLine stop ∧ firstEntry (e.text ++ rest) = e.text ++ stop := by
  rcases ends with stop | comma
  · refine ⟨rest, stop, ?_⟩
    have absent : ch ',' ∉ e.text ++ rest := by
      rw [List.mem_append, not_or]
      refine ⟨e.commaless, ?_⟩
      rcases stop with rfl | rfl <;> decide
    have none_ : before (e.text ++ rest) (str ",") = [] := (before_byte _ (ch ',')).trans (if_neg absent)
    rw [firstEntry, none_, if_pos rfl]
  · obtain ⟨r, rfl⟩ : ∃ r, rest = ch ',' :: r := List.head?_eq_some_iff.mp comma
    refine ⟨[], .inl rfl, ?_⟩
    have cut : before (e.text ++ ch ',' :: r) (str ",") = e.text := (comma_at e.commaless r).1
    rw [firstEntry, cut, if_neg e.text_ne_nil, List.append_nil]

theorem toInteger_stop (e : Entry) {stop : Str} (ends : EndOfLine stop) : toInteger (e.digits ++ stop) = toInteger e.digits := by
  have stops : ∀ b ∈ stop.head?, isDigit b = false := by
    rcases ends with rfl | rfl
    · nofun
    · intro b here
      rw [← Option.some.inj here]
      decide
  have plain := @signedDecimal_digits _ e.number e.digit [] nofun
  rw [List.append_nil] at plain
  rw [toInteger, toInteger, signedDecimal_digits e.number e.digit stops, plain]

theorem round_of_text (rounds : Nat) (e : Entry) {rest : Str} (ends : EndOfLine rest ∨ rest.head? = some (ch ',')) :
    encapRounds (rounds + 1) (e.text ++ rest) = (encapRounds rounds (after (e.text ++ rest) (str ", "))).map fun r =>
      (r.1, ⟨e.gap ++ e.name, toInteger e.digits⟩ :: r.2) := by
  obtain ⟨stop, stops, entry⟩ := firstEntry_text e ends
  have absent : ch '=' ∉ e.gap ++ e.name := by
    rw [List.mem_append, not_or]
    refine ⟨fun member => ?_, fun member => (e.plain _ member).2.1 rfl⟩
    exact absurd (e.white _ member) (by decide)
  have parts : e.text ++ stop = (e.gap ++ e.name) ++ (str "=" ++ (e.digits ++ stop)) := by
    simp only [Entry.text, List.append_assoc, List.cons_append]
    rfl
  have name : before (e.text ++ stop) (str "=") = e.gap ++ e.name := by
    rw [parts]
    exact before_at rfl absent _
  have number : after (e.text ++ stop) (str "=") = e.digits ++ stop := by
    rw [parts]
    exact after_at rfl absent _
  have some_ : ¬ (e.text ++ rest).length = 0 := by simp [e.text_ne_nil]
  have formed : ¬ (e.gap ++ e.name = [] ∨ e.digits ++ stop = []) := by simp [e.some_, e.number]
  rw [encapRounds_succ, if_neg some_, entry, name, number, if_neg formed, toInteger_stop e stops]

theorem after_listed {e e' : Entry} {es : List Entry} (stop : Str) : after (listed (e :: e' :: es) ++ stop) (str ", ") =
    after (ch ',' :: (listed (e' :: es) ++ stop)) (str ", ") := by
  have parts : listed (e :: e' :: es) ++ stop = e.text ++ ch ',' :: (listed (e' :: es) ++ stop) := by
    rw [listed, List.append_assoc, List.cons_append]
  rw [parts]
  exact after_behind rfl e.commaless _

theorem value_iff (e : Entry) : toInteger e.digits = decimal e.digits ↔ decimal e.digits < 2 ^ 31 := by
  have plain := @signedDecimal_digits _ e.number e.digit [] nofun
  rw [List.append_nil] at plain
  rw [toInteger, plain, Int.bmod_def]
  omega

def Entry.closer (e : Entry) {gap : Str} (less : ∀ c ∈ gap, c ∈ e.gap) : Entry :=
  { e with gap := gap, white := fun c member => e.white c (less c member) }

/-- One blank behind the comma or the colon, and a number that is an `int`. -/
def Read (e : Entry) : Prop := e.gap = str " " ∧ decimal e.digits < 2 ^ 31

theorem listed_closer (e : Entry) {b : UInt8} {gap : Str} (cut : e.gap = b :: gap) (es : List Entry) (stop : Str) :
    ∃ less : ∀ c ∈ gap, c ∈ e.gap, listed (e :: es) ++ stop = b :: (listed (e.closer less :: es) ++ stop) := by
  have less : ∀ c ∈ gap, c ∈ e.gap := fun c member => cut ▸ List.mem_cons_of_mem b member
  have text : e.text = b :: (e.closer less).text := congrArg (· ++ (e.name ++ ch '=' :: e.digits)) cut
  refine ⟨less, ?_⟩
  cases es with
  | nil => rw [listed, listed, text, List.cons_append]
  | cons e' es => rw [listed, listed, text, List.cons_append, List.cons_append]

theorem listed_rest (e : Entry) (es : List Entry) {stop : Str} (stops : EndOfLine stop) :
    ∃ rest, listed (e :: es) ++ stop = e.text ++ rest ∧ (EndOfLine rest ∨ rest.head? = some (ch ',')) := by
  cases es with
  | nil => exact ⟨stop, rfl, .inl stops⟩
  | cons e' es => exact ⟨ch ',' :: (listed (e' :: es) ++ stop), by rw [listed, List.append_assoc]; rfl, .inr rfl⟩

theorem stop_commas {stop : Str} (stops : EndOfLine stop) : stop.count (ch ',') = 0 := by
  rcases stops with rfl | rfl <;> decide

/-- The first entry is read as it is without white space; the rest is up to what is left. -/
theorem first_read_iff {stop : Str} (stops : EndOfLine stop) (e : Entry) (es : List Entry) (rounds : Nat) :
    encapRounds (rounds + 1) (listed (e :: es) ++ stop) = some (true, (e :: es).map Entry.record) ↔
      e.gap = [] ∧ decimal e.digits < 2 ^ 31 ∧
        encapRounds rounds (after (listed (e :: es) ++ stop) (str ", ")) = some (true, es.map Entry.record) := by
  obtain ⟨rest, text, ends⟩ := listed_rest e es stops
  rw [text, round_of_text rounds e ends, ← value_iff, Option.map_eq_some_iff]
  constructor
  · rintro ⟨⟨ok, recs⟩, more, same⟩
    simp only [List.map_cons, Prod.mk.injEq, List.cons.injEq, Entry.record, EncapRec.mk.injEq] at same
    obtain ⟨rfl, ⟨name, value⟩, rfl⟩ := same
    exact ⟨List.append_left_eq_self.mp name, value, more⟩
  · rintro ⟨near, value, more⟩
    refine ⟨_, more, ?_⟩
    rw [List.map_cons, Entry.record, value, near, List.nil_append]

theorem gap_head (e : Entry) (es : List Entry) (stop : Str) (pre : str " " <+: listed (e :: es) ++ stop) :
    e.gap.head? = some (ch ' ') := by
  have front : ∃ rest, listed (e :: es) ++ stop = e.gap ++ (e.name ++ rest) := by
    cases es with
    | nil => exact ⟨ch '=' :: e.digits ++ stop, by simp [listed, Entry.text]⟩
    | cons e' es => exact ⟨ch '=' :: e.digits ++ ch ',' :: (listed (e' :: es) ++ stop), by simp [listed, Entry.text]⟩
  obtain ⟨rest, text⟩ := front
  obtain ⟨behind, pre⟩ := pre
  rw [text] at pre
  cases gap : e.gap with
  | cons b gap =>
    rw [gap] at pre
    exact congrArg some (List.cons.inj pre).1.symm
  | nil =>
    cases name : e.name with
    | nil => exact absurd name e.some_
    | cons b name' =>
      rw [gap, name] at pre
      have first := (e.plain b (name ▸ List.mem_cons_self)).1
      rw [← (List.cons.inj pre).1] at first
      exact absurd first (by decide)

/-- With a blank behind the comma the next entry is cut there; without it, too much is cut off. -/
theorem entries_read_iff {stop : Str} (stops : EndOfLine stop) (es : List Entry) : ∀ (e : Entry) (rounds : Nat),
    (listed (e :: es) ++ stop).length < rounds →
    (encapRounds rounds (listed (e :: es) ++ stop) = some (true, (e :: es).map Entry.record) ↔
      e.gap = [] ∧ decimal e.digits < 2 ^ 31 ∧ ∀ e' ∈ es, Read e') := by
  induction es with
  | nil =>
    intro e rounds enough
    obtain ⟨rounds, rfl⟩ : ∃ k, rounds = k + 1 := ⟨rounds - 1, by omega⟩
    have some_ := List.length_pos_iff.mpr e.text_ne_nil
    have left : after (listed [e] ++ stop) (str ", ") = [] := by
      apply after_of_absent
      intro here
      have fewer := after_commas here
      rw [List.count_append, listed_commas, stop_commas stops] at fewer
      exact absurd fewer (Nat.not_succ_le_zero _)
    obtain ⟨rounds, rfl⟩ : ∃ k, rounds = k + 1 := by
      refine ⟨rounds - 1, ?_⟩
      rw [listed, List.length_append] at enough
      omega
    rw [first_read_iff stops, left]
    exact and_congr_right fun _ => and_congr_right fun _ => ⟨fun _ => nofun, fun _ => rfl⟩
  | cons e' es ih =>
    intro e rounds enough
    obtain ⟨rounds, rfl⟩ : ∃ k, rounds = k + 1 := ⟨rounds - 1, by omega⟩
    rw [first_read_iff stops, after_listed, List.forall_mem_cons]
    refine and_congr_right fun _ => and_congr_right fun _ => ?_
    by_cases blank : e'.gap.head? = some (ch ' ')
    · obtain ⟨gap, cut⟩ := List.head?_eq_some_iff.mp blank
      obtain ⟨less, text⟩ := listed_closer e' cut es stop
      have onward : after (ch ',' :: (listed (e' :: es) ++ stop)) (str ", ") = listed (e'.closer less :: es) ++ stop := by
        rw [text]
        exact @after_at (ch ',') (str ", ") [] rfl nofun _
      have short : (listed (e'.closer less :: es) ++ stop).length < rounds := by
        rw [listed, List.append_assoc, List.length_append, List.cons_append, text] at enough
        simp only [List.length_cons] at enough
        omega
      rw [onward]
      refine (ih (e'.closer less) rounds short).trans ?_
      have near : e'.gap = str " " ↔ gap = [] := by
        rw [cut]
        exact ⟨fun same => (List.cons.inj same).2, fun empty => empty ▸ rfl⟩
      rw [Read, near, and_assoc]
      rfl
    · -- one comma more is passed over than there are records left
      have apart : (str ", ").isPrefixOf (ch ',' :: (listed (e' :: es) ++ stop)) = false := by
        rw [← Bool.not_eq_true, List.isPrefixOf_iff_prefix]
        intro pre
        exact blank (gap_head e' es stop (List.cons_prefix_cons.mp pre).2)
      rw [after_next apart]
      refine iff_of_false (fun done => ?_) fun read => blank (by rw [read.1.1]; rfl)
      obtain ⟨bound, empty⟩ := records_bound rounds done
      by_cases here : str ", " <:+: listed (e' :: es) ++ stop
      · have fewer := after_commas here
        rw [List.count_append, listed_commas, stop_commas stops] at fewer
        simp only [List.length_map, List.length_cons] at bound fewer
        omega
      · exact absurd (empty (after_of_absent here)) (by simp)

theorem line_read_iff {front : Str} (single : ch ':' ∉ front) {stop : Str} (stops : EndOfLine stop) (es : List Entry) :
    encapAnswer (front ++ ch ':' :: (listed es ++ stop)) = some (true, es.map Entry.record) ↔ ∀ e ∈ es, Read e := by
  have cut : after (front ++ ch ':' :: (listed es ++ stop)) (str ": ") = after (ch ':' :: (listed es ++ stop)) (str ": ") :=
    after_behind rfl single _
  unfold encapAnswer
  rw [cut]
  cases es with
  | nil =>
    refine iff_of_true ?_ nofun
    rcases stops with rfl | rfl <;> decide
  | cons e es =>
    by_cases blank : e.gap.head? = some (ch ' ')
    · obtain ⟨gap, white⟩ := List.head?_eq_some_iff.mp blank
      obtain ⟨less, text⟩ := listed_closer e white es stop
      have onward : after (ch ':' :: (listed (e :: es) ++ stop)) (str ": ") = listed (e.closer less :: es) ++ stop := by
        rw [text]
        exact @after_at (ch ':') (str ": ") [] rfl nofun _
      have near : e.gap = str " " ↔ gap = [] := by
        rw [white]
        exact ⟨fun same => (List.cons.inj same).2, fun empty => empty ▸ rfl⟩
      rw [onward, List.forall_mem_cons, Read, near, and_assoc]
      exact entries_read_iff stops es (e.closer less) _ (Nat.lt_succ_self _)
    · have apart : (str ": ").isPrefixOf (ch ':' :: (listed (e :: es) ++ stop)) = false := by
        rw [← Bool.not_eq_true, List.isPrefixOf_iff_prefix]
        intro pre
        exact blank (gap_head e es stop (List.cons_prefix_cons.mp pre).2)
      have absent : ch ':' ∉ listed (e :: es) ++ stop := by
        rw [List.mem_append, not_or]
        refine ⟨listed_colonless _, ?_⟩
        rcases stops with rfl | rfl <;> decide
      have left : after (ch ':' :: (listed (e :: es) ++ stop)) (str ": ") = [] := by
        rw [after_next apart]
        exact after_of_absent fun here => absent (here.subset (List.mem_cons_self))
      rw [left]
      refine iff_of_false (fun done => ?_) fun read => blank (by rw [(read e List.mem_cons_self).1]; rfl)
      cases done

end Reading

/- What is announced. -/

def headers (h : Responder) : List (Str × Str) :=
  (if h.out_req_hdr_flag && decide (h.out_req_header.length > 0) then [(str "req-hdr", h.out_req_header)] else []) ++
  if h.out_res_hdr_flag && decide (h.out_res_header.length > 0) then [(str "res-hdr", h.out_res_header)] else []

def bodyName (h : Responder) : Str :=
  if h.out_req_body_flag then str "req-body" else if h.out_res_body_flag then str "res-body" else str "null-body"

def parts (h : Responder) : List (Str × Str) := headers h ++ [(bodyName h, [])]

def offsets : Int → List (Str × Str) → List EncapRec
  | _, [] => []
  | offset, (name, text) :: rest => ⟨name, offset⟩ :: offsets (int32 (offset + text.length)) rest

def starts : Nat → List (Str × Str) → List EncapRec
  | _, [] => []
  | n, (name, text) :: rest => ⟨name, n⟩ :: starts (n + text.length) rest

def noted : Str → List EncapRec → Str
  | _, [] => []
  | sep, r :: rest => sep ++ r.name ++ str "=" ++ ofInt r.value ++ noted (str ", ") rest

theorem encapLine_eq (h : Responder) : h.encapLine = str "Encapsulated:" ++ noted (str " ") (offsets 0 (parts h)) := by
  have names : str "req-hdr=" = str "req-hdr" ++ str "=" ∧ str "res-hdr=" = str "res-hdr" ++ str "=" ∧
      str "req-body=" = str "req-body" ++ str "=" ∧ str "res-body=" = str "res-body" ++ str "=" ∧
      str "null-body=" = str "null-body" ++ str "=" := by decide
  obtain ⟨reqHdr, resHdr, reqBody, resBody, nullBody⟩ := names
  unfold Responder.encapLine parts headers bodyName
  rw [reqHdr, resHdr, reqBody, resBody, nullBody]
  generalize (h.out_req_hdr_flag && decide (h.out_req_header.length > 0)) = req
  generalize (h.out_res_hdr_flag && decide (h.out_res_header.length > 0)) = res
  cases req <;> cases res <;> cases h.out_req_body_flag <;> cases h.out_res_body_flag <;>
    simp only [offsets, noted, Bool.false_eq_true, if_true, if_false, List.append_assoc, List.nil_append, List.append_nil,
      List.cons_append]

def size (ps : List (Str × Str)) : Nat := (ps.map fun p => p.2.length).sum

/-- The offsets are right if the last of them is an `int`. -/
theorem offsets_eq_iff (body : Str) (ps : List (Str × Str)) : ∀ n : Nat, n < 2 ^ 31 →
    (offsets n (ps ++ [(body, [])]) = starts n (ps ++ [(body, [])]) ↔ n + size ps < 2 ^ 31) := by
  induction ps with
  | nil => exact fun n low => iff_of_true rfl low
  | cons p ps ih =>
    intro n low
    have sum : n + size (p :: ps) = n + p.2.length + size ps := by
      simp only [size, List.map_cons, List.sum_cons]
      omega
    have moved : (n : Int) + p.2.length = ((n + p.2.length : Nat) : Int) := rfl
    rw [List.cons_append, offsets, starts, List.cons.injEq, moved, sum]
    by_cases fits : n + p.2.length < 2 ^ 31
    · rw [(int32_natCast_iff _).mpr fits]
      exact and_iff_right rfl |>.trans (ih _ fits)
    · refine iff_of_false (fun both => fits ((int32_natCast_iff _).mp ?_)) (by omega)
      cases ps with
      | nil =>
        have next := both.2
        rw [List.nil_append, offsets, starts, List.cons.injEq, EncapRec.mk.injEq] at next
        exact next.1.2
      | cons q ps =>
        have next := both.2
        rw [List.cons_append, offsets, starts, List.cons.injEq, EncapRec.mk.injEq] at next
        exact next.1.2

def partNames : List Str := [str "req-hdr", str "res-hdr", str "req-body", str "res-body", str "null-body"]

theorem parts_named (h : Responder) : ∀ p ∈ parts h, p.1 ∈ partNames := by
  unfold parts headers
  intro p member
  simp only [List.mem_append, List.mem_singleton] at member
  rcases member with (req | res) | body
  · split at req
    · rw [List.mem_singleton.mp req]
      exact (by decide : str "req-hdr" ∈ partNames)
    · cases req
  · split at res
    · rw [List.mem_singleton.mp res]
      exact (by decide : str "res-hdr" ∈ partNames)
    · cases res
  · rw [body]
    show bodyName h ∈ partNames
    unfold bodyName
    split
    · decide
    · split <;> decide

theorem partNames_plain : ∀ name ∈ partNames, name ≠ [] ∧
    ∀ c ∈ name, isWhiteSpace c = false ∧ c ≠ ch '=' ∧ c ≠ ch ',' ∧ c ≠ ch ':' := by
  decide +kernel

def announcement {name : Str} (known : name ∈ partNames) (n : Nat) : Entry where
  gap := str " "
  name := name
  digits := ofInt n
  white := by decide +kernel
  some_ := (partNames_plain name known).1
  plain := (partNames_plain name known).2
  number := ofInt_ne_nil n
  digit := fun _ => isDigit_of_ofInt (Int.natCast_nonneg n)

theorem announcement_read {name : Str} (known : name ∈ partNames) {n : Nat} (low : n < 2 ^ 31) :
    Read (announcement known n) ∧ (announcement known n).record = ⟨name, n⟩ := by
  have value : decimal (ofInt n) = n := by
    have digits := decimal_digits n (r := []) nofun
    rw [List.append_nil] at digits
    rwa [ofInt_natural (Int.natCast_nonneg n)]
  refine ⟨⟨rfl, ?_⟩, ?_⟩
  · show decimal (ofInt n) < 2 ^ 31
    rw [value]
    exact low
  · show EncapRec.mk name (decimal (ofInt n)) = ⟨name, n⟩
    rw [value]

theorem noted_listed (ps : List (Str × Str)) : ∀ n : Nat, (∀ p ∈ ps, p.1 ∈ partNames) → n + size ps < 2 ^ 31 →
    ∃ es : List Entry, noted (str " ") (starts n ps) = listed es ∧ (∀ e ∈ es, Read e) ∧ es.map Entry.record = starts n ps := by
  induction ps with
  | nil => exact fun n _ _ => ⟨[], rfl, nofun, rfl⟩
  | cons p ps ih =>
    intro n named_ low
    have sum : n + size (p :: ps) = n + p.2.length + size ps := by
      simp only [size, List.map_cons, List.sum_cons]
      omega
    rw [sum] at low
    obtain ⟨es, text, read, recs⟩ := ih (n + p.2.length) (fun q member => named_ q (List.mem_cons_of_mem _ member)) low
    have known := named_ p List.mem_cons_self
    obtain ⟨near, value⟩ := announcement_read known (n := n) (by omega)
    refine ⟨announcement known n :: es, ?_, ?_, ?_⟩
    · have first : noted (str " ") (starts n (p :: ps)) =
          (announcement known n).text ++ noted (str ", ") (starts (n + p.2.length) ps) := by
        simp only [starts, noted, Entry.text, announcement, List.append_assoc, List.cons_append]
        rfl
      rw [first]
      cases es with
      | nil =>
        rw [← recs]
        exact List.append_nil _
      | cons e es =>
        rw [listed, ← text, ← recs]
        rfl
    · exact List.forall_mem_cons.mpr ⟨near, read⟩
    · rw [List.map_cons, value, recs]
      rfl

theorem encapsulated_eq (h : Responder) : h.encapsulated = ((parts h).map fun p => cstr p.2).flatten := by
  have part : ∀ (flag : Bool) (name text : Str), (if flag then cstr text else []) =
      ((if flag && decide (text.length > 0) then [(name, text)] else []).map fun p : Str × Str => cstr p.2).flatten := by
    intro flag name text
    cases flag <;> cases text <;> simp [cstr]
  rw [Responder.encapsulated, part h.out_req_hdr_flag (str "req-hdr"), part h.out_res_hdr_flag (str "res-hdr"), parts, headers]
  simp [cstr]

/-- The parts are sent one behind the other, each is announced where it starts, and the announced list is read back. -/
structure Announced (h : Responder) : Prop where
  sent : h.encapsulated = ((parts h).map Prod.snd).flatten
  places : offsets 0 (parts h) = starts 0 (parts h)
  read : encapAnswer (h.encapLine ++ str "\r") = some (true, offsets 0 (parts h))

/-- No header that is sent holds a NUL, and their length is an `int`. -/
structure Fitting (h : Responder) : Prop where
  request : h.out_req_hdr_flag = true → 0 ∉ h.out_req_header
  response : h.out_res_hdr_flag = true → 0 ∉ h.out_res_header
  length : size (headers h) < 2 ^ 31

theorem mem_headers {h : Responder} {text : Str} (some_ : 0 ∈ text) :
    (h.out_req_hdr_flag = true → text = h.out_req_header → text ∈ (parts h).map Prod.snd) ∧
      (h.out_res_hdr_flag = true → text = h.out_res_header → text ∈ (parts h).map Prod.snd) := by
  have positive : text.length > 0 := List.length_pos_of_mem some_
  unfold parts headers
  refine ⟨fun flag same => ?_, fun flag same => ?_⟩
  all_goals
    subst same
    simp [flag, positive]

theorem announced_iff (h : Responder) : Announced h ↔ Fitting h := by
  have places : offsets 0 (parts h) = starts 0 (parts h) ↔ 0 + size (headers h) < 2 ^ 31 :=
    offsets_eq_iff (bodyName h) (headers h) 0 (by decide)
  rw [Nat.zero_add] at places
  constructor
  · intro announced
    have clean : 0 ∉ ((parts h).map Prod.snd).flatten := by
      rw [← announced.sent, encapsulated_eq]
      intro member
      obtain ⟨text, listed_, inside⟩ := List.mem_flatten.mp member
      obtain ⟨p, -, rfl⟩ := List.mem_map.mp listed_
      exact cstr_nul_free p.2 inside
    refine ⟨fun flag some_ => ?_, fun flag some_ => ?_, places.mp announced.places⟩
    · exact clean (List.mem_flatten.mpr ⟨_, (mem_headers some_).1 flag rfl, some_⟩)
    · exact clean (List.mem_flatten.mpr ⟨_, (mem_headers some_).2 flag rfl, some_⟩)
  · intro fitting
    have clean : ∀ p ∈ parts h, cstr p.2 = p.2 := by
      intro p member
      apply cstr_of_nul_free
      unfold parts headers at member
      simp only [List.mem_append, List.mem_singleton] at member
      rcases member with (req | res) | rfl
      · split at req
        · rename_i here
          rw [List.mem_singleton.mp req]
          exact fitting.request (Bool.and_eq_true_iff.mp here).1
        · cases req
      · split at res
        · rename_i here
          rw [List.mem_singleton.mp res]
          exact fitting.response (Bool.and_eq_true_iff.mp here).1
        · cases res
      · exact List.not_mem_nil
    have low : 0 + size (parts h) < 2 ^ 31 := by
      have sum : size (parts h) = size (headers h) := by simp [size, parts]
      rw [sum, Nat.zero_add]
      exact fitting.length
    have right := places.mpr fitting.length
    obtain ⟨es, text, read, recs⟩ := noted_listed (parts h) 0 (parts_named h) low
    refine ⟨?_, right, ?_⟩
    · rw [encapsulated_eq, List.map_congr_left clean]
    · have name : str "Encapsulated:" = str "Encapsulated" ++ [ch ':'] := by decide
      have line : h.encapLine ++ str "\r" = str "Encapsulated" ++ ch ':' :: (listed es ++ str "\r") := by
        rw [encapLine_eq, right, text, name, List.append_assoc, List.append_assoc]
        rfl
      rw [line, right, ← recs]
      exact (line_read_iff (by decide) (.inr rfl) es).mpr read

/-- A list of entries is read as it is if and only if there is one blank behind the colon and behind each comma, and each
offset is an `int`; reading ends on every line; and what respond announces is right and is read back if and only if no
header that it sends holds a NUL, and their length is an `int`. -/
theorem encapsulated_parts_iff (front stop : Str) (es : List Entry) (line : Str) (h : Responder) (res_code : Str)
    (echo : Bool) :
    (ch ':' ∉ front → EndOfLine stop →
      (encapAnswer (front ++ ch ':' :: (listed es ++ stop)) = some (true, es.map Entry.record) ↔ ∀ e ∈ es, Read e)) ∧
    (∃ answer, encapAnswer line = some answer ∧ setEncapRecs line = answer.2) ∧
    (∃ head, (h.respond res_code echo true).1 =
      head ++ (h.echoed echo).encapLine ++ crlf ++ crlf ++ (h.echoed echo).encapsulated) ∧
    (Announced (h.echoed echo) ↔ Fitting (h.echoed echo)) := by
  refine ⟨fun single stops => line_read_iff single stops es, ?_, ⟨_, rfl⟩, announced_iff _⟩
  · obtain ⟨answer, done⟩ := encapRounds_ends _ (after line (str ": ")) (Nat.lt_succ_self _)
    exact ⟨answer, done, encapLoop_of_rounds _ done _ (Nat.le_refl _)⟩

def forwarding : Responder :=
  { deciding smith with out_req_hdr_flag := true, out_req_header := str "GET http://b/ HTTP/1.1\r\nHost: b\r\n\r\n" }

theorem forwarding_announced : Announced (forwarding.echoed false) := by
  have header : forwarding.out_req_header = _ := str_ofList _
  refine (encapsulated_parts_iff [] [] [] [] forwarding (str "200 OK") false).2.2.2.mpr ⟨fun _ => ?_, nofun, ?_⟩
  · show 0 ∉ forwarding.out_req_header
    rw [header]
    decide
  · show size (headers forwarding) < 2 ^ 31
    decide

/-- The second entry, without a blank behind the comma, is lost. -/
def crowded : List Entry :=
  [@announcement (str "req-hdr") (by decide) 0, @Entry.closer (@announcement (str "null-body") (by decide) 26) [] nofun]

theorem entry_lost_without_blank :
    ¬ (∀ (front stop : Str) (es : List Entry), ch ':' ∉ front → EndOfLine stop →
        encapAnswer (front ++ ch ':' :: (listed es ++ stop)) = some (true, es.map Entry.record)) ∧
      encapAnswer (str "Encapsulated: req-hdr=0,null-body=26\r") = some (true, [⟨str "req-hdr", 0⟩]) := by
  constructor
  · intro always
    have two := always (str "Encapsulated") (str "\r") crowded (by decide) (.inr rfl)
    revert two
    decide
  · decide

end GuardianIcapRespond
