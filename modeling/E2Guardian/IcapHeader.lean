import E2Guardian.HeaderLines
import E2Guardian.HeaderIndex

/- ICAPHeader: the header of an ICAP request, what checkheader collects from its lines, and the two
   HTTP headers in it. One object reads all the requests of a connection; reset clears it in between. -/
namespace GuardianIcap
open GuardianString GuardianSockets GuardianHttp GuardianHeaderPointers GuardianHeaderLines GuardianHeaderIndex

structure IcapOptions extends Options where
  icap_reqmod_url : Str
  icap_resmod_url : Str

structure EncapRec where
  name : Str
  value : Int
  deriving DecidableEq, Repr

structure IcapCom where
  user : Str
  EBG : Str
  filtergroup : Int
  mess_no : Int
  log_mess_no : Int
  mess_string : Str
  deriving DecidableEq, Repr

inductive IcapPointer where
  | pencapsulated | pauthorization | pallow | pfrom | phost | pkeepalive | pclientip | pclientuser
  deriving DecidableEq, Repr

structure Collected where
  header : List Str
  encap_recs : List EncapRec
  waspersistent : Bool
  ispersistent : Bool
  set : IcapPointer → Bool
  allow_204 : Bool
  username : Str
  req_hdr_flag : Bool
  res_hdr_flag : Bool
  out_req_hdr_flag : Bool
  out_res_body_flag : Bool
  out_req_body_flag : Bool
  out_res_hdr_flag : Bool
  req_body_flag : Bool
  res_body_flag : Bool
  opt_body_flag : Bool
  null_body_flag : Bool
  service_reqmod : Bool
  service_resmod : Bool
  service_options : Bool
  icap_reqmod_service : Bool
  icap_resmod_service : Bool

def Collected.none : Collected where
  header := []
  encap_recs := []
  waspersistent := false
  ispersistent := false
  set _ := false
  allow_204 := false
  username := []
  req_hdr_flag := false
  res_hdr_flag := false
  out_req_hdr_flag := false
  out_res_body_flag := false
  out_req_body_flag := false
  out_res_hdr_flag := false
  req_body_flag := false
  res_body_flag := false
  opt_body_flag := false
  null_body_flag := false
  service_reqmod := false
  service_resmod := false
  service_options := false
  icap_reqmod_service := false
  icap_resmod_service := false

structure ICAPHeader extends Collected where
  allow_206 : Bool
  icap_error : Str
  icap_com : IcapCom
  ppreview : Bool
  clientip : Str
  method : Str
  req_hdr : Int
  res_hdr : Int
  req_body : Int
  res_body : Int
  opt_body : Int
  null_body : Int
  HTTPrequest : HTTPHeader
  HTTPresponse : HTTPHeader
  is_response : Bool
  dirty : Bool

namespace ICAPHeader

/-- The first three assignments are made whether the object is dirty or not. -/
def reset (h : ICAPHeader) : ICAPHeader :=
  let h := { h with
    HTTPresponse := { h.HTTPresponse with is_response := true, icap := true }
    HTTPrequest := { h.HTTPrequest with icap := true } }
  if h.dirty then
    { h with
      toCollected := .none
      icap_com := { h.icap_com with filtergroup := -1 }
      dirty := false }
  else h

/-- The members as they are initialised, for the constructor to reset; ppreview is taken to be null. -/
def initial (is_response : Bool) : ICAPHeader where
  toCollected := .none
  allow_206 := false
  icap_error := []
  icap_com := ⟨[], [], 0, 0, 0, []⟩
  ppreview := false
  clientip := []
  method := []
  req_hdr := 0
  res_hdr := 0
  req_body := 0
  res_body := 0
  opt_body := 0
  null_body := 0
  HTTPrequest := .made false none
  HTTPresponse := .made false none
  is_response := is_response
  dirty := true

def made (is_response : Bool) : ICAPHeader := (initial is_response).reset

def setIcapCom (com : IcapCom) (h : ICAPHeader) : ICAPHeader := { h with icap_com := com }

end ICAPHeader

/-- The records of an Encapsulated line, up to one that is malformed. Each round cuts something off. -/
def encapLoop : Nat → Str → List EncapRec
  | 0, _ => []
  | rounds + 1, t =>
    if t.length = 0 then []
    else
      let t1 := before t (str ",")
      let t1 := if t1 = [] then t else t1
      let name := before t1 (str "=")
      let t2 := after t1 (str "=")
      if name = [] ∨ t2 = [] then [] else ⟨name, toInteger t2⟩ :: encapLoop rounds (after t (str ", "))

def setEncapRecs (pencapsulated : Str) : List EncapRec :=
  let t := after pencapsulated (str ": ")
  encapLoop t.length t

def icapCom (i : Str) : IcapCom :=
  let t := after (chop i) (str ":")
  let user := before t (str ",")
  let t := after t (str ",")
  let EBG := before t (str ",")
  let t := after t (str ",")
  let filtergroup := toInteger (before t (str ","))
  let t := after t (str ",")
  let mess_no := toInteger (before t (str ","))
  let t := after t (str ",")
  ⟨user, EBG, filtergroup, mess_no, toInteger (before t (str ",")), after t (str ",")⟩

namespace ICAPHeader

def point (p : IcapPointer) (h : ICAPHeader) : ICAPHeader := { h with set := fun q => if q = p then true else h.set q }

def checkLine (i : Str) (h : ICAPHeader) : ICAPHeader :=
  if !h.set .phost && named i "host:" then h.point .phost
  else if !h.set .pauthorization && named i "authorization:" then h.point .pauthorization
  else if !h.set .pallow && named i "allow:" then
    { h.point .pallow with allow_204 := contains i (str "204"), allow_206 := contains i (str "206") }
  else if !h.set .pfrom && named i "from:" then h.point .pfrom
  else if !h.set .phost && named i "host:" then h.point .phost
  else if !h.ppreview && named i "preview:" then { h with ppreview := true, allow_204 := true }
  else if !h.set .pkeepalive && named i "keep-alive:" then h.point .pkeepalive
  else if named i "encapsulated:" then
    { h.point .pencapsulated with encap_recs := h.encap_recs ++ setEncapRecs i }
  else if named i "x-client-ip:" then { h.point .pclientip with clientip := chop (after i (str ": ")) }
  else if named i "x-client-username:" then { h.point .pclientuser with username := chop (after i (str ": ")) }
  else if named i "x-icap-e2g:" then { h with icap_com := icapCom i }
  else h

def checkheader (h : ICAPHeader) : ICAPHeader := h.header.tail.foldl (fun h i => h.checkLine i) h

def isStatusLine (line : Str) : Bool :=
  line.length > 11 && startsWith line (str "ICAP/") && toInteger (before (after line (str " ")) (str " ")) > 99

def takeService (o : IcapOptions) (t : Str) (h : ICAPHeader) : ICAPHeader :=
  if t = o.icap_reqmod_url then { h with icap_reqmod_service := true }
  else if t = o.icap_resmod_url then { h with icap_resmod_service := true }
  else { h with icap_error := str "404 ICAP Service not found" }

def takeMethod (h : ICAPHeader) : ICAPHeader :=
  if h.method = str "OPTIONS" then { h with service_options := true }
  else if h.icap_reqmod_service ∧ h.method = str "REQMOD" then { h with service_reqmod := true }
  else if h.icap_resmod_service ∧ h.method = str "RESPMOD" then { h with service_resmod := true }
  else { h with icap_error := str "405 Method not allowed for service" }

def takeFirst (o : IcapOptions) (line : Str) (h : ICAPHeader) : Bool × ICAPHeader :=
  if h.is_response then (isStatusLine line, h)
  else
    let h := { h with method := before line (str " ") }
    let t := before (after line (str " ")) (str " ")
    if startsWith t (str "icap://") then (true, (h.takeService o (after (after t (str "//")) (str "/"))).takeMethod)
    else (false, { h with icap_error := str "400 Bad Request" })

def inLoop (o : IcapOptions) : Nat → Bool → ICAPHeader → BaseSocket → Bool × ICAPHeader × BaseSocket
  | 0, _, h, sock => (false, h, sock)
  | rounds + 1, firsttime, h, sock =>
    match sock.getLine o.max_header_line_length with
    | (none, sock) => (false, { h with ispersistent := false }, sock)
    | (some (buff, whole), sock) =>
      if buff = [] then (false, h, sock)
      else if !whole then (false, { h with ispersistent := false }, sock) -- truncated
      else if h.header.length > o.max_header_lines then (false, { h with ispersistent := false }, sock)
      else
        let line := cstr buff
        let (taken, h) := if firsttime then h.takeFirst o line else (true, h)
        if !taken then (false, h, sock)
        else if firsttime && line.length ≤ 3 then inLoop o rounds false h sock
        else if line.length > 3 then inLoop o rounds false { h with header := h.header ++ [line] } sock
        else (true, { h with header := h.header ++ [line] }, sock)

def takeParts (o : IcapOptions) : List EncapRec → ICAPHeader → BaseSocket → Bool × ICAPHeader × BaseSocket
  | [], h, sock => (true, h, sock)
  | i :: rest, h, sock =>
    if i.name = str "req-hdr" then
      match h.HTTPrequest.in_ o.toOptions false sock with
      | (false, request, sock) => (false, { h with HTTPrequest := request, req_hdr_flag := false }, sock)
      | (true, request, sock) => takeParts o rest { h with HTTPrequest := request, req_hdr_flag := true, req_hdr := i.value } sock
    else if i.name = str "res-hdr" then
      match h.HTTPresponse.in_ o.toOptions false sock with
      | (false, response, sock) => (false, { h with HTTPresponse := response, res_hdr_flag := false }, sock)
      | (true, response, sock) =>
        takeParts o rest { h with HTTPresponse := response, res_hdr_flag := true, res_hdr := i.value } sock
    else if i.name = str "req-body" then takeParts o rest { h with req_body_flag := true, req_body := i.value } sock
    else if i.name = str "res-body" then takeParts o rest { h with res_body_flag := true, res_body := i.value } sock
    else if i.name = str "null-body" then takeParts o rest { h with null_body_flag := true, null_body := i.value } sock
    else if i.name = str "opt-body" then takeParts o rest { h with opt_body_flag := true, opt_body := i.value } sock
    else takeParts o rest h sock

def begun (h : ICAPHeader) : ICAPHeader := { (if h.dirty then h.reset else h) with dirty := true }

/-- The header without its blank line, and the HTTP headers cleared for what it announces. -/
def checked (h : ICAPHeader) : ICAPHeader :=
  let h := { h with header := h.header.dropLast }.checkheader
  { h with HTTPrequest := h.HTTPrequest.reset, HTTPresponse := h.HTTPresponse.reset }

def in_ (o : IcapOptions) (sock : BaseSocket) (h : ICAPHeader) : Bool × ICAPHeader × BaseSocket :=
  match h.begun.inLoop o (sock.pending.length + 1) true sock with
  | (false, h, sock) => (false, h, sock)
  | (true, h, sock) =>
    if h.header.length = 0 then (false, h, sock)
    else h.checked.takeParts o h.checked.encap_recs sock

end ICAPHeader

/- One line. -/

inductive Kind where
  | pointed (p : IcapPointer) | allow | preview | encapsulated | clientip | clientuser | com | other
  deriving DecidableEq

def kindOf (set : IcapPointer → Bool) (ppreview : Bool) (i : Str) : Kind :=
  if !set .phost && named i "host:" then .pointed .phost
  else if !set .pauthorization && named i "authorization:" then .pointed .pauthorization
  else if !set .pallow && named i "allow:" then .allow
  else if !set .pfrom && named i "from:" then .pointed .pfrom
  else if !set .phost && named i "host:" then .pointed .phost
  else if !ppreview && named i "preview:" then .preview
  else if !set .pkeepalive && named i "keep-alive:" then .pointed .pkeepalive
  else if named i "encapsulated:" then .encapsulated
  else if named i "x-client-ip:" then .clientip
  else if named i "x-client-username:" then .clientuser
  else if named i "x-icap-e2g:" then .com
  else .other

def act (i : Str) (h : ICAPHeader) : Kind → ICAPHeader
  | .pointed p => h.point p
  | .allow => { h.point .pallow with allow_204 := contains i (str "204"), allow_206 := contains i (str "206") }
  | .preview => { h with ppreview := true, allow_204 := true }
  | .encapsulated => { h.point .pencapsulated with encap_recs := h.encap_recs ++ setEncapRecs i }
  | .clientip => { h.point .pclientip with clientip := chop (after i (str ": ")) }
  | .clientuser => { h.point .pclientuser with username := chop (after i (str ": ")) }
  | .com => { h with icap_com := icapCom i }
  | .other => h

theorem checkLine_eq (i : Str) (h : ICAPHeader) : h.checkLine i = act i h (kindOf h.set h.ppreview i) := by
  simp only [kindOf, apply_ite (act i h)]
  rfl

/-- Without the name, it does not matter whether there has been a Preview line. -/
theorem kindOf_preview {set : IcapPointer → Bool} {i : Str} (other : named i "preview:" = false) (p q : Bool) :
    kindOf set p i = kindOf set q i := by
  simp only [kindOf, other, Bool.and_false]

theorem kindOf_allow {set : IcapPointer → Bool} {i : Str} (free : set .pallow = false) (here : named i "allow:" = true)
    (ppreview : Bool) : kindOf set ppreview i = .allow := by
  have host : named i "host:" = false := named_other here (by decide)
  have auth : named i "authorization:" = false := named_other here (by decide)
  simp [kindOf, free, here, host, auth]

theorem kindOf_com {set : IcapPointer → Bool} {i : Str} (here : named i "x-icap-e2g:" = true) (ppreview : Bool) :
    kindOf set ppreview i = .com := by
  have others : ∀ other ∈ ["host:", "authorization:", "allow:", "from:", "preview:", "keep-alive:", "encapsulated:",
      "x-client-ip:", "x-client-username:"], named i other = false := by
    intro other listed
    refine named_other here ?_
    revert listed other
    decide
  simp only [List.forall_mem_cons] at others
  obtain ⟨host, auth, allow, from_, preview, alive, encapsulated, ip, user, _⟩ := others
  simp [kindOf, here, host, auth, allow, from_, preview, alive, encapsulated, ip, user]

theorem kindOf_pointed (set : IcapPointer → Bool) (ppreview : Bool) (i : Str) : kindOf set ppreview i ≠ .pointed .pallow := by
  unfold kindOf
  repeat' split
  all_goals nofun

/- Two objects that read the same. -/

structure Twin (h g : ICAPHeader) : Prop where
  collected : h.toCollected = g.toCollected
  response : h.is_response = g.is_response

structure Untouched (h h' : ICAPHeader) : Prop where
  error : h'.icap_error = h.icap_error
  request : h'.HTTPrequest = h.HTTPrequest
  response : h'.HTTPresponse = h.HTTPresponse
  kind : h'.is_response = h.is_response
  dirty : h'.dirty = h.dirty

theorem Untouched.trans {h h' h'' : ICAPHeader} (first : Untouched h h') (second : Untouched h' h'') : Untouched h h'' :=
  ⟨second.error.trans first.error, second.request.trans first.request, second.response.trans first.response,
    second.kind.trans first.kind, second.dirty.trans first.dirty⟩

theorem act_twin {h g : ICAPHeader} (twin : Twin h g) (i : Str) (kind : Kind) :
    Twin (act i h kind) (act i g kind) ∧ Untouched h (act i h kind) ∧ Untouched g (act i g kind) := by
  obtain ⟨c, _, _, _, _, _, _, _, _, _, _, _, _, _, _, r, _⟩ := h
  obtain ⟨c', _, _, _, _, _, _, _, _, _, _, _, _, _, _, r', _⟩ := g
  obtain ⟨collected, response⟩ := twin
  simp only at collected response
  subst collected response
  cases kind <;> exact ⟨⟨rfl, rfl⟩, ⟨rfl, rfl, rfl, rfl, rfl⟩, ⟨rfl, rfl, rfl, rfl, rfl⟩⟩

structure Covers (lines : List Str) (h g : ICAPHeader) : Prop where
  preview : h.ppreview = g.ppreview ∨ ∀ l ∈ lines, named l "preview:" = false
  allow : h.allow_206 = g.allow_206 ∨ (h.set .pallow = false ∧ ∃ l ∈ lines, named l "allow:" = true)
  com : h.icap_com = g.icap_com ∨ ∃ l ∈ lines, named l "x-icap-e2g:" = true

theorem checkLine_covers {i : Str} {lines : List Str} {h g : ICAPHeader} (twin : Twin h g) (covers : Covers (i :: lines) h g) :
    Twin (h.checkLine i) (g.checkLine i) ∧ Untouched h (h.checkLine i) ∧ Untouched g (g.checkLine i) ∧
      Covers lines (h.checkLine i) (g.checkLine i) := by
  have sets : g.set = h.set := by rw [twin.collected]
  have same : kindOf g.set g.ppreview i = kindOf h.set h.ppreview i := by
    rw [sets]
    rcases covers.preview with equal | none_
    · rw [equal]
    · exact kindOf_preview (none_ i List.mem_cons_self) _ _
  rw [checkLine_eq, checkLine_eq, same]
  obtain ⟨next, mine, yours⟩ := act_twin twin i (kindOf h.set h.ppreview i)
  have notPointed := kindOf_pointed h.set h.ppreview i
  have allow := covers.allow
  have com := covers.com
  refine ⟨next, mine, yours, ?_, ?_, ?_⟩
  · refine covers.preview.imp (fun equal => ?_) fun none_ l member => none_ l (List.mem_cons_of_mem _ member)
    cases kindOf h.set h.ppreview i <;> first | exact equal | rfl
  · cases kind : kindOf h.set h.ppreview i with
    | allow => exact .inl rfl
    | pointed p =>
      rw [kind] at notPointed
      refine allow.imp id fun coming => ?_
      obtain ⟨free, l, member, name⟩ := coming
      refine ⟨(if_neg fun same => notPointed (congrArg Kind.pointed same.symm)).trans free, l, ?_, name⟩
      refine (List.mem_cons.mp member).resolve_left ?_
      rintro rfl
      rw [kindOf_allow free name] at kind
      cases kind
    | preview | encapsulated | clientip | clientuser | com | other =>
      refine allow.imp id fun coming => ?_
      obtain ⟨free, l, member, name⟩ := coming
      refine ⟨free, l, ?_, name⟩
      refine (List.mem_cons.mp member).resolve_left ?_
      rintro rfl
      rw [kindOf_allow free name] at kind
      cases kind
  · cases kind : kindOf h.set h.ppreview i with
    | com => exact .inl rfl
    | pointed | allow | preview | encapsulated | clientip | clientuser | other =>
      refine com.imp id fun coming => ?_
      obtain ⟨l, member, name⟩ := coming
      refine ⟨l, ?_, name⟩
      refine (List.mem_cons.mp member).resolve_left ?_
      rintro rfl
      rw [kindOf_com name] at kind
      cases kind

theorem checkLines_covers (lines : List Str) : ∀ {h g : ICAPHeader}, Twin h g → Covers lines h g →
    Twin (lines.foldl (fun h i => h.checkLine i) h) (lines.foldl (fun h i => h.checkLine i) g) ∧
      Untouched h (lines.foldl (fun h i => h.checkLine i) h) ∧ Untouched g (lines.foldl (fun h i => h.checkLine i) g) ∧
      Covers [] (lines.foldl (fun h i => h.checkLine i) h) (lines.foldl (fun h i => h.checkLine i) g) := by
  induction lines with
  | nil => exact fun twin covers => ⟨twin, ⟨rfl, rfl, rfl, rfl, rfl⟩, ⟨rfl, rfl, rfl, rfl, rfl⟩, covers⟩
  | cons i rest ih =>
    intro h g twin covers
    obtain ⟨next, mine, yours, later⟩ := checkLine_covers twin covers
    obtain ⟨last, mine', yours', done⟩ := ih next later
    exact ⟨last, mine.trans mine', yours.trans yours', done⟩

/- The lines. -/

def refused (o : IcapOptions) (line : Str) : Bool :=
  let method := before line (str " ")
  let t := before (after line (str " ")) (str " ")
  let service := after (after t (str "//")) (str "/")
  let reqmod : Bool := service = o.icap_reqmod_url
  let resmod : Bool := !reqmod && decide (service = o.icap_resmod_url)
  !startsWith t (str "icap://") || !(reqmod || resmod) ||
    !(decide (method = str "OPTIONS") || reqmod && decide (method = str "REQMOD") || resmod && decide (method = str "RESPMOD"))

structure Left (h h' : ICAPHeader) : Prop where
  allow : h'.allow_206 = h.allow_206
  com : h'.icap_com = h.icap_com
  preview : h'.ppreview = h.ppreview
  request : h'.HTTPrequest = h.HTTPrequest
  response : h'.HTTPresponse = h.HTTPresponse
  kind : h'.is_response = h.is_response
  dirty : h'.dirty = h.dirty
  set : h'.set = h.set
  recs : h'.encap_recs = h.encap_recs

theorem Left.refl (h : ICAPHeader) : Left h h := ⟨rfl, rfl, rfl, rfl, rfl, rfl, rfl, rfl, rfl⟩

theorem Left.trans {h h' h'' : ICAPHeader} (first : Left h h') (second : Left h' h'') : Left h h'' :=
  ⟨second.allow.trans first.allow, second.com.trans first.com, second.preview.trans first.preview,
    second.request.trans first.request, second.response.trans first.response, second.kind.trans first.kind,
    second.dirty.trans first.dirty, second.set.trans first.set, second.recs.trans first.recs⟩

theorem takeFirst_left (o : IcapOptions) (line : Str) (h : ICAPHeader) : Left h (h.takeFirst o line).2 := by
  have service : ∀ t (h : ICAPHeader), Left h (h.takeService o t) := by
    intro t h
    unfold ICAPHeader.takeService
    repeat' split
    all_goals exact ⟨rfl, rfl, rfl, rfl, rfl, rfl, rfl, rfl, rfl⟩
  have method : ∀ h : ICAPHeader, Left h h.takeMethod := by
    intro h
    unfold ICAPHeader.takeMethod
    repeat' split
    all_goals exact ⟨rfl, rfl, rfl, rfl, rfl, rfl, rfl, rfl, rfl⟩
  unfold ICAPHeader.takeFirst
  split
  · exact .refl h
  · simp only
    split
    · refine Left.trans ?_ ((service _ _).trans (method _))
      exact ⟨rfl, rfl, rfl, rfl, rfl, rfl, rfl, rfl, rfl⟩
    · exact ⟨rfl, rfl, rfl, rfl, rfl, rfl, rfl, rfl, rfl⟩

theorem takeService_twin (o : IcapOptions) (t : Str) {h g : ICAPHeader} (twin : Twin h g) :
    Twin (h.takeService o t) (g.takeService o t) ∧ (h.takeService o t).method = h.method ∧
      (h.icap_error = g.icap_error ∨ ¬ (t = o.icap_reqmod_url ∨ t = o.icap_resmod_url) →
        (h.takeService o t).icap_error = (g.takeService o t).icap_error) := by
  obtain ⟨collected, response⟩ := twin
  unfold ICAPHeader.takeService
  split
  · rename_i reqmod
    exact ⟨⟨by rw [collected], response⟩, rfl, fun equal => equal.resolve_right fun no => no (.inl reqmod)⟩
  · split
    · rename_i resmod
      exact ⟨⟨by rw [collected], response⟩, rfl, fun equal => equal.resolve_right fun no => no (.inr resmod)⟩
    · exact ⟨⟨collected, response⟩, rfl, fun _ => rfl⟩

def Fits (h : ICAPHeader) : Prop :=
  h.method = str "OPTIONS" ∨ (h.icap_reqmod_service = true ∧ h.method = str "REQMOD") ∨
    (h.icap_resmod_service = true ∧ h.method = str "RESPMOD")

theorem takeMethod_twin {h g : ICAPHeader} (twin : Twin h g) (method : h.method = g.method) :
    Twin h.takeMethod g.takeMethod ∧ (h.icap_error = g.icap_error ∨ ¬ Fits h →
        h.takeMethod.icap_error = g.takeMethod.icap_error) := by
  obtain ⟨collected, response⟩ := twin
  have reqmod : g.icap_reqmod_service = h.icap_reqmod_service := by rw [collected]
  have resmod : g.icap_resmod_service = h.icap_resmod_service := by rw [collected]
  unfold ICAPHeader.takeMethod
  rw [← method, reqmod, resmod]
  split
  · rename_i options
    exact ⟨⟨by rw [collected], response⟩, fun equal => equal.resolve_right fun no => no (.inl options)⟩
  · split
    · rename_i request
      exact ⟨⟨by rw [collected], response⟩, fun equal => equal.resolve_right fun no => no (.inr (.inl request))⟩
    · split
      · rename_i answer
        exact ⟨⟨by rw [collected], response⟩, fun equal => equal.resolve_right fun no => no (.inr (.inr answer))⟩
      · exact ⟨⟨collected, response⟩, fun _ => rfl⟩

theorem takeService_flags (o : IcapOptions) (t : Str) {h : ICAPHeader} (plain : h.toCollected = .none) :
    (h.takeService o t).icap_reqmod_service = decide (t = o.icap_reqmod_url) ∧
      (h.takeService o t).icap_resmod_service = (!decide (t = o.icap_reqmod_url) && decide (t = o.icap_resmod_url)) := by
  unfold ICAPHeader.takeService
  by_cases reqmod : t = o.icap_reqmod_url
  · simp [reqmod, plain, Collected.none]
  · by_cases resmod : t = o.icap_resmod_url
    · rw [if_neg reqmod, if_pos resmod, decide_eq_false reqmod, decide_eq_true resmod]
      simp [plain, Collected.none]
    · rw [if_neg reqmod, if_neg resmod, decide_eq_false reqmod, decide_eq_false resmod]
      simp [plain, Collected.none]

theorem not_refused {o : IcapOptions} {line t : Str}
    (icap : startsWith (before (after line (str " ")) (str " ")) (str "icap://") = true)
    (service : after (after (before (after line (str " ")) (str " ")) (str "//")) (str "/") = t)
    (known : t = o.icap_reqmod_url ∨ t = o.icap_resmod_url)
    (fits : before line (str " ") = str "OPTIONS" ∨ (decide (t = o.icap_reqmod_url) = true ∧
        before line (str " ") = str "REQMOD") ∨
      ((!decide (t = o.icap_reqmod_url) && decide (t = o.icap_resmod_url)) = true ∧ before line (str " ") = str "RESPMOD")) :
    refused o line = false := by
  have some_ : (decide (t = o.icap_reqmod_url) ||
      (!decide (t = o.icap_reqmod_url) && decide (t = o.icap_resmod_url))) = true := by
    by_cases reqmod : t = o.icap_reqmod_url
    · simp [reqmod]
    · simp [known.resolve_left reqmod]
  simp only [refused, icap, service, some_]
  generalize (!decide (t = o.icap_reqmod_url) && decide (t = o.icap_resmod_url)) = resmod at fits
  generalize decide (t = o.icap_reqmod_url) = reqmod at fits
  rcases fits with options | ⟨request, name⟩ | ⟨answer, name⟩
  · simp [options]
  · simp [request, name]
  · simp [answer, name]

/-- The first line says the same to both, and an error that is left stays unless there is another. -/
theorem takeFirst_twin (o : IcapOptions) (line : Str) {h g : ICAPHeader} (twin : Twin h g) (plain : h.toCollected = .none) :
    (h.takeFirst o line).1 = (g.takeFirst o line).1 ∧ Twin (h.takeFirst o line).2 (g.takeFirst o line).2 ∧
      (h.icap_error = g.icap_error ∨ (h.is_response = false ∧ refused o line = true) →
        (h.takeFirst o line).2.icap_error = (g.takeFirst o line).2.icap_error) := by
  obtain ⟨collected, response⟩ := twin
  cases kind : h.is_response with
  | true =>
    have kind' : g.is_response = true := response.symm.trans kind
    unfold ICAPHeader.takeFirst
    rw [if_pos kind, if_pos kind']
    exact ⟨rfl, ⟨collected, response⟩, fun equal => equal.resolve_right (by simp)⟩
  | false =>
    have mine : ¬ h.is_response = true := by simp [kind]
    have yours : ¬ g.is_response = true := response ▸ mine
    unfold ICAPHeader.takeFirst
    rw [if_neg mine, if_neg yours]
    simp only
    have start : Twin { h with method := before line (str " ") } { g with method := before line (str " ") } :=
      ⟨collected, response⟩
    by_cases icap : startsWith (before (after line (str " ")) (str " ")) (str "icap://") = true
    · rw [if_pos icap, if_pos icap]
      generalize service : after (after (before (after line (str " ")) (str " ")) (str "//")) (str "/") = t
      obtain ⟨served, method, error⟩ := takeService_twin o t start
      have method' := (takeService_twin o t (h := { g with method := before line (str " ") }) ⟨rfl, rfl⟩).2.1
      obtain ⟨last, error'⟩ := takeMethod_twin served (method.trans method'.symm)
      refine ⟨rfl, last, fun equal => error' ?_⟩
      rcases equal with equal | ⟨_, wrong⟩
      · exact .inl (error (.inl equal))
      · obtain ⟨reqmod, resmod⟩ := takeService_flags o t (h := { h with method := before line (str " ") }) plain
        by_cases known : t = o.icap_reqmod_url ∨ t = o.icap_resmod_url
        · refine .inr fun fits => ?_
          have right : refused o line = false := by
            unfold Fits at fits
            rw [method, reqmod, resmod] at fits
            exact not_refused icap service known fits
          rw [right] at wrong
          cases wrong
        · exact .inl (error (.inr known))
    · rw [if_neg icap, if_neg icap]
      exact ⟨rfl, ⟨collected, response⟩, fun _ => rfl⟩

structure Reads (h g : ICAPHeader) (r r' : Bool × ICAPHeader × BaseSocket) : Prop where
  answer : r.1 = r'.1
  sock : r.2.2 = r'.2.2
  twin : Twin r.2.1 r'.2.1
  mine : Left h r.2.1
  yours : Left g r'.2.1

theorem Twin.stopped {h g : ICAPHeader} (twin : Twin h g) :
    Twin { h with ispersistent := false } { g with ispersistent := false } :=
  ⟨by rw [twin.collected], twin.response⟩

theorem Twin.pushed {h g : ICAPHeader} (twin : Twin h g) (line : Str) :
    Twin { h with header := h.header ++ [line] } { g with header := g.header ++ [line] } :=
  ⟨by rw [twin.collected], twin.response⟩

theorem Left.stopped (h : ICAPHeader) : Left h { h with ispersistent := false } := ⟨rfl, rfl, rfl, rfl, rfl, rfl, rfl, rfl, rfl⟩

theorem Left.pushed (h : ICAPHeader) (line : Str) :
    Left h { h with header := h.header ++ [line] } := ⟨rfl, rfl, rfl, rfl, rfl, rfl, rfl, rfl, rfl⟩

theorem inLoop_later (o : IcapOptions) (rounds : Nat) : ∀ {h g : ICAPHeader}, Twin h g → ∀ sock : BaseSocket,
    Reads h g (h.inLoop o rounds false sock) (g.inLoop o rounds false sock) ∧
      (h.inLoop o rounds false sock).2.1.icap_error = h.icap_error ∧
      (g.inLoop o rounds false sock).2.1.icap_error = g.icap_error := by
  induction rounds with
  | zero => exact fun {h g} twin _ => ⟨⟨rfl, rfl, twin, .refl h, .refl g⟩, rfl, rfl⟩
  | succ rounds ih =>
    intro h g twin sock
    have lines : g.header.length = h.header.length := by rw [twin.collected]
    rw [ICAPHeader.inLoop, ICAPHeader.inLoop, lines]
    split
    · exact ⟨⟨rfl, rfl, twin.stopped, .stopped h, .stopped g⟩, rfl, rfl⟩
    · split
      · exact ⟨⟨rfl, rfl, twin, .refl h, .refl g⟩, rfl, rfl⟩
      · split
        · exact ⟨⟨rfl, rfl, twin.stopped, .stopped h, .stopped g⟩, rfl, rfl⟩
        · split
          · exact ⟨⟨rfl, rfl, twin.stopped, .stopped h, .stopped g⟩, rfl, rfl⟩
          · rename_i buff whole rest _ _ _ _
            simp only [Bool.false_eq_true, if_false, Bool.not_true, Bool.false_and]
            split
            · obtain ⟨reads, error, error'⟩ := ih (twin.pushed (cstr buff)) rest
              exact ⟨⟨reads.answer, reads.sock, reads.twin, (Left.pushed h _).trans reads.mine,
                (Left.pushed g _).trans reads.yours⟩, error, error'⟩
            · exact ⟨⟨rfl, rfl, twin.pushed _, .pushed h _, .pushed g _⟩, rfl, rfl⟩

def firstRead (o : IcapOptions) (sock : BaseSocket) : Option Str :=
  match sock.getLine o.max_header_line_length with
  | (some (buff, true), _) => if buff = [] then none else some (cstr buff)
  | _ => none

/-- An error that is left is replaced by that of the first line. -/
def Errors (o : IcapOptions) (sock : BaseSocket) (h g : ICAPHeader) : Prop :=
  h.icap_error = g.icap_error ∨ (h.is_response = false ∧ ∃ line ∈ firstRead o sock, refused o line = true)

theorem inLoop_first (o : IcapOptions) (rounds : Nat) {h g : ICAPHeader} (twin : Twin h g) (fresh : h.toCollected = .none)
    (sock : BaseSocket) :
    Reads h g (h.inLoop o (rounds + 1) true sock) (g.inLoop o (rounds + 1) true sock) ∧
      (Errors o sock h g → (h.inLoop o (rounds + 1) true sock).2.1.icap_error =
          (g.inLoop o (rounds + 1) true sock).2.1.icap_error) := by
  have lines : g.header.length = h.header.length := by rw [twin.collected]
  have empty : h.header.length = 0 := by rw [fresh]; rfl
  rw [ICAPHeader.inLoop, ICAPHeader.inLoop, lines, Errors, firstRead]
  split
  · rename_i rest read
    rw [read]
    exact ⟨⟨rfl, rfl, twin.stopped, .stopped h, .stopped g⟩, fun equal => equal.resolve_right (by simp)⟩
  · rename_i buff whole rest read
    rw [read]
    split
    · rename_i none_
      refine ⟨⟨rfl, rfl, twin, .refl h, .refl g⟩, fun equal => equal.resolve_right ?_⟩
      cases whole <;> simp [none_]
    · rename_i some_
      split
      · rename_i truncated
        refine ⟨⟨rfl, rfl, twin.stopped, .stopped h, .stopped g⟩, fun equal => equal.resolve_right ?_⟩
        cases whole with
        | true => cases truncated
        | false => simp
      · rename_i ended
        have whole_ : whole = true := by simpa using ended
        have few : ¬ h.header.length > o.max_header_lines := by omega
        rw [if_neg few, if_neg few]
        simp only [whole_, if_neg some_, if_true]
        obtain ⟨taken, next, error⟩ := takeFirst_twin o (cstr buff) twin fresh
        have mine := takeFirst_left o (cstr buff) h
        have yours := takeFirst_left o (cstr buff) g
        have errors : h.icap_error = g.icap_error ∨ (h.is_response = false ∧ ∃ line ∈ some (cstr buff), refused o line = true) →
            (h.takeFirst o (cstr buff)).2.icap_error = (g.takeFirst o (cstr buff)).2.icap_error := by
          refine fun equal => error (equal.imp_right fun both => ⟨both.1, ?_⟩)
          obtain ⟨line, same, wrong⟩ := both.2
          rw [Option.some.inj same]
          exact wrong
        rw [taken]
        split
        · exact ⟨⟨rfl, rfl, next, mine, yours⟩, errors⟩
        · split
          · obtain ⟨reads, kept, kept'⟩ := inLoop_later o rounds next rest
            refine ⟨⟨reads.answer, reads.sock, reads.twin, mine.trans reads.mine, yours.trans reads.yours⟩, fun equal => ?_⟩
            exact kept.trans ((errors equal).trans kept'.symm)
          · split
            · obtain ⟨reads, kept, kept'⟩ := inLoop_later o rounds (next.pushed (cstr buff)) rest
              refine ⟨⟨reads.answer, reads.sock, reads.twin, (mine.trans (.pushed _ _)).trans reads.mine,
                (yours.trans (.pushed _ _)).trans reads.yours⟩, fun equal => ?_⟩
              exact kept.trans ((errors equal).trans kept'.symm)
            · exact ⟨⟨rfl, rfl, next.pushed _, mine.trans (.pushed _ _), yours.trans (.pushed _ _)⟩, errors⟩

/- The HTTP headers. -/

structure Idle (h : HTTPHeader) : Prop where
  lines : h.header = []
  pointers : ∀ p, p ≠ .pheaderident → h.pointer p = none
  type : h.requesttype = []
  url : h.cachedurl = []

theorem reset_idle {h : HTTPHeader} (idle : h.dirty = false → Idle h) : Idle h.reset := by
  unfold HTTPHeader.reset
  split
  · exact ⟨rfl, fun p other => if_neg other, rfl, rfl⟩
  · rename_i clean
    exact idle (by simpa using clean)

def texts (h : HTTPHeader) : List Str := h.header.map (·.text)

structure Paired (h fresh : HTTPHeader) : Prop where
  alike : ∃ k, Alike false k fresh h
  dirty : h.dirty = fresh.dirty

theorem Paired.texts {h g : HTTPHeader} (paired : Paired h g) : texts h = texts g := by
  obtain ⟨k, alike⟩ := paired.alike
  unfold GuardianIcap.texts
  rw [alike.lines, List.map_map]
  rfl

theorem paired_of_idle {h g : HTTPHeader} (idle : Idle h) (idle' : Idle g) (first : g.next = 0)
    (response : h.is_response = g.is_response) (icap : h.icap = g.icap) (dirty : h.dirty = g.dirty) : Paired h g := by
  refine ⟨⟨h.next, ?_, ?_, fun p known => ?_, ?_, ?_, response, icap⟩, dirty⟩
  · rw [idle.lines, idle'.lines]
    rfl
  · rw [first, Nat.zero_add]
  · have other : p ≠ .pheaderident := fun ident => nomatch known ident
    rw [idle.pointers p other, idle'.pointers p other]
    rfl
  · rw [idle.type, idle'.type]
  · rw [idle.url, idle'.url]

theorem Paired.begun {h g : HTTPHeader} (paired : Paired h g) :
    ∃ k, Alike false k { g.reset with dirty := true } { h.reset with dirty := true } := by
  obtain ⟨⟨k, alike⟩, dirty⟩ := paired
  refine ⟨k, ?_⟩
  unfold HTTPHeader.reset
  rw [dirty]
  split
  · refine ⟨rfl, alike.next, fun p known => ?_, rfl, rfl, alike.response, rfl⟩
    have other : p ≠ .pheaderident := fun ident => nomatch known ident
    simp only [HTTPHeader.clearPointers, if_neg other, Option.map_none]
  · exact ⟨alike.lines, alike.next, alike.pointers, alike.type, alike.url, alike.response, alike.icap⟩

theorem Paired.in_ {h g : HTTPHeader} (paired : Paired h g) (o : Options) (allowpersistent : Bool) (sock : BaseSocket) :
    (h.in_ o allowpersistent sock).1 = (g.in_ o allowpersistent sock).1 ∧
      (h.in_ o allowpersistent sock).2.2 = (g.in_ o allowpersistent sock).2.2 ∧
      Paired (h.in_ o allowpersistent sock).2.1 (g.in_ o allowpersistent sock).2.1 := by
  obtain ⟨k, start⟩ := paired.begun
  obtain ⟨answer, left, next⟩ := start.in_ o allowpersistent sock
  exact ⟨answer, left, ⟨k, next⟩, (in_flags o allowpersistent sock h).2.trans (in_flags o allowpersistent sock g).2.symm⟩

/- The parts. -/

/-- The members that are compared, but for the HTTP headers. -/
structure SameFields (h g : ICAPHeader) : Prop where
  collected : h.toCollected = g.toCollected
  allow : h.allow_206 = g.allow_206
  error : h.icap_error = g.icap_error
  com : h.icap_com = g.icap_com

structure Same (h g : ICAPHeader) : Prop extends SameFields h g where
  request : texts h.HTTPrequest = texts g.HTTPrequest
  response : texts h.HTTPresponse = texts g.HTTPresponse

/-- An HTTP header that reads what a fresh one reads, or is not read. -/
def Parted (name : String) (recs : List EncapRec) (h g : HTTPHeader) : Prop :=
  Paired h g ∨ (texts h = texts g ∧ ∀ i ∈ recs, i.name ≠ str name)

theorem Parted.texts {name : String} {recs : List EncapRec} {h g : HTTPHeader} (parted : Parted name recs h g) :
    texts h = texts g := parted.elim Paired.texts And.left

theorem Parted.rest {name : String} {i : EncapRec} {recs : List EncapRec} {h g : HTTPHeader}
    (parted : Parted name (i :: recs) h g) : Parted name recs h g :=
  parted.imp_right fun both => ⟨both.1, fun j member => both.2 j (List.mem_cons_of_mem i member)⟩

theorem Parted.here {name : String} {i : EncapRec} {recs : List EncapRec} {h g : HTTPHeader}
    (parted : Parted name (i :: recs) h g) (here : i.name = str name) : Paired h g :=
  parted.resolve_right fun both => both.2 i List.mem_cons_self here

theorem takeParts_same (o : IcapOptions) (recs : List EncapRec) : ∀ {h g : ICAPHeader}, SameFields h g →
    Parted "req-hdr" recs h.HTTPrequest g.HTTPrequest → Parted "res-hdr" recs h.HTTPresponse g.HTTPresponse →
    ∀ sock : BaseSocket, (h.takeParts o recs sock).1 = (g.takeParts o recs sock).1 ∧
      (h.takeParts o recs sock).2.2 = (g.takeParts o recs sock).2.2 ∧
      Same (h.takeParts o recs sock).2.1 (g.takeParts o recs sock).2.1 := by
  induction recs with
  | nil => exact fun fields request response _ => ⟨rfl, rfl, fields, request.texts, response.texts⟩
  | cons i rest ih =>
    intro h g fields request response sock
    obtain ⟨collected, allow, error, com⟩ := fields
    unfold ICAPHeader.takeParts
    split
    · rename_i here
      obtain ⟨answer, left, next⟩ := (request.here here).in_ o.toOptions false sock
      generalize h.HTTPrequest.in_ o.toOptions false sock = result at answer left next ⊢
      generalize g.HTTPrequest.in_ o.toOptions false sock = result' at answer left next ⊢
      obtain ⟨ok, h₁, s₁⟩ := result
      obtain ⟨ok', h₂, s₂⟩ := result'
      simp only at answer left next
      subst answer left
      cases ok with
      | false => exact ⟨rfl, rfl, ⟨by rw [collected], allow, error, com⟩, next.texts, response.texts⟩
      | true =>
        refine ih ?_ ?_ ?_ _
        · exact ⟨by rw [collected], allow, error, com⟩
        · exact .inl next
        · exact response.rest
    · split
      · rename_i here
        obtain ⟨answer, left, next⟩ := (response.here here).in_ o.toOptions false sock
        generalize h.HTTPresponse.in_ o.toOptions false sock = result at answer left next ⊢
        generalize g.HTTPresponse.in_ o.toOptions false sock = result' at answer left next ⊢
        obtain ⟨ok, h₁, s₁⟩ := result
        obtain ⟨ok', h₂, s₂⟩ := result'
        simp only at answer left next
        subst answer left
        cases ok with
        | false => exact ⟨rfl, rfl, ⟨by rw [collected], allow, error, com⟩, request.texts, next.texts⟩
        | true =>
          refine ih ?_ ?_ ?_ _
          · exact ⟨by rw [collected], allow, error, com⟩
          · exact request.rest
          · exact .inl next
      · repeat' split
        all_goals
          refine ih ?_ ?_ ?_ _
          · exact ⟨by rw [collected], allow, error, com⟩
          · exact request.rest
          · exact response.rest

/- One request. -/

def records (lines : List Str) : List EncapRec := lines.flatMap fun i => if named i "encapsulated:" then setEncapRecs i else []

theorem kindOf_encapsulated (set : IcapPointer → Bool) (ppreview : Bool) (i : Str) :
    kindOf set ppreview i = .encapsulated ↔ named i "encapsulated:" = true := by
  constructor
  · unfold kindOf
    repeat' split
    all_goals simp_all
  · intro here
    have others : ∀ other ∈ ["host:", "authorization:", "allow:", "from:", "preview:", "keep-alive:"], named i other = false := by
      intro other listed
      refine named_other here ?_
      revert listed other
      decide
    simp only [List.forall_mem_cons] at others
    obtain ⟨host, auth, allow, from_, preview, alive, _⟩ := others
    simp [kindOf, here, host, auth, allow, from_, preview, alive]

theorem checkLines_records (lines : List Str) : ∀ h : ICAPHeader,
    (lines.foldl (fun h i => h.checkLine i) h).encap_recs = h.encap_recs ++ records lines := by
  induction lines with
  | nil => exact fun h => (List.append_nil _).symm
  | cons i rest ih =>
    intro h
    have step : (h.checkLine i).encap_recs = h.encap_recs ++ if named i "encapsulated:" then setEncapRecs i else [] := by
      have iff := kindOf_encapsulated h.set h.ppreview i
      rw [checkLine_eq]
      cases kind : kindOf h.set h.ppreview i with
      | encapsulated =>
        rw [if_pos (iff.mp kind)]
        rfl
      | pointed | allow | preview | clientip | clientuser | com | other =>
        rw [kind] at iff
        rw [if_neg fun here => nomatch iff.mpr here]
        exact (List.append_nil _).symm
    simp only [List.foldl_cons, ih, step, records, List.flatMap_cons, List.append_assoc]

def linesIn (o : IcapOptions) (is_response : Bool) (sock : BaseSocket) : Bool × ICAPHeader × BaseSocket :=
  (ICAPHeader.made is_response).begun.inLoop o (sock.pending.length + 1) true sock

def whole (o : IcapOptions) (is_response : Bool) (sock : BaseSocket) : Bool :=
  (linesIn o is_response sock).1 && decide ((linesIn o is_response sock).2.1.header.length > 0)

def fieldLines (o : IcapOptions) (is_response : Bool) (sock : BaseSocket) : List Str :=
  if whole o is_response sock then (linesIn o is_response sock).2.1.header.dropLast.tail else []

/-- An HTTP header that has been read is not read again, and is cleared or has no lines. -/
def Renewed (o : IcapOptions) (is_response : Bool) (sock : BaseSocket) (name : String) (h : HTTPHeader) : Prop :=
  if whole o is_response sock then h.dirty = false ∨ ∀ i ∈ records (fieldLines o is_response sock), i.name ≠ str name
  else h.header = []

/-- Whatever reset leaves of an earlier request is empty or replaced by the next one. -/
structure Covered (o : IcapOptions) (sock : BaseSocket) (h : ICAPHeader) : Prop where
  allow : h.allow_206 = false ∨ ∃ l ∈ fieldLines o h.is_response sock, named l "allow:" = true
  error : h.icap_error = [] ∨ (h.is_response = false ∧ ∃ line ∈ firstRead o sock, refused o line = true)
  com : h.icap_com = ⟨[], [], -1, 0, 0, []⟩ ∨ ∃ l ∈ fieldLines o h.is_response sock, named l "x-icap-e2g:" = true
  preview : h.ppreview = false ∨ ∀ l ∈ fieldLines o h.is_response sock, named l "preview:" = false
  request : Renewed o h.is_response sock "req-hdr" h.HTTPrequest
  response : Renewed o h.is_response sock "res-hdr" h.HTTPresponse

structure Held (is_response : Bool) (h : HTTPHeader) : Prop where
  kind : h.is_response = is_response
  icap : h.icap = true
  idle : h.dirty = false → Idle h

structure Started (h : ICAPHeader) : Prop where
  none_ : h.toCollected = .none
  request : Held false h.HTTPrequest
  response : Held true h.HTTPresponse

theorem in_eq (o : IcapOptions) (sock : BaseSocket) (h : ICAPHeader) {r : Bool × ICAPHeader × BaseSocket}
    (read : h.begun.inLoop o (sock.pending.length + 1) true sock = r) :
    h.in_ o sock = if (r.1 && decide (r.2.1.header.length > 0)) = true then
      r.2.1.checked.takeParts o r.2.1.checked.encap_recs r.2.2 else (false, r.2.1, r.2.2) := by
  obtain ⟨ok, h₁, s₁⟩ := r
  unfold ICAPHeader.in_
  rw [read]
  cases ok with
  | false => rfl
  | true =>
    by_cases empty : h₁.header.length = 0
    · simp [empty]
    · have some_ : h₁.header.length > 0 := by omega
      simp [empty, some_]

theorem reset_kind (h : ICAPHeader) : h.reset.is_response = h.is_response := by
  unfold ICAPHeader.reset
  simp only
  split <;> rfl

theorem begun_kind (h : ICAPHeader) : h.begun.is_response = h.is_response := by
  unfold ICAPHeader.begun
  split
  · exact reset_kind h
  · rfl

theorem checked_same {h g : ICAPHeader} (twin : Twin h g) (covers : Covers h.header.dropLast.tail h g)
    (error : h.icap_error = g.icap_error) : SameFields h.checked g.checked ∧ Untouched { h with
      HTTPrequest := h.HTTPrequest.reset, HTTPresponse := h.HTTPresponse.reset } h.checked ∧ Untouched { g with
      HTTPrequest := g.HTTPrequest.reset, HTTPresponse := g.HTTPresponse.reset } g.checked := by
  have lines : g.header = h.header := by rw [twin.collected]
  have start : Twin { h with header := h.header.dropLast } { g with header := g.header.dropLast } :=
    ⟨by rw [twin.collected], twin.response⟩
  obtain ⟨done, mine, yours, over_⟩ := checkLines_covers h.header.dropLast.tail start ⟨covers.preview, covers.allow, covers.com⟩
  have allow := over_.allow.resolve_right (by simp)
  have com := over_.com.resolve_right (by simp)
  unfold ICAPHeader.checked ICAPHeader.checkheader
  simp only
  rw [lines] at yours done allow com ⊢
  refine ⟨⟨by rw [done.collected], allow, mine.error.trans (error.trans yours.error.symm), com⟩, ?_, ?_⟩
  · exact ⟨mine.error, congrArg HTTPHeader.reset mine.request, congrArg HTTPHeader.reset mine.response, mine.kind, mine.dirty⟩
  · exact ⟨yours.error, congrArg HTTPHeader.reset yours.request, congrArg HTTPHeader.reset yours.response,
        yours.kind, yours.dirty⟩

structure Fresh (is_response : Bool) (h : HTTPHeader) : Prop extends Held is_response h where
  clean : h.dirty = false
  first : h.next = 0

theorem made_fresh (is_response : Bool) :
    Fresh false (ICAPHeader.made is_response).begun.HTTPrequest ∧ Fresh true (ICAPHeader.made is_response).begun.HTTPresponse :=
  ⟨⟨⟨rfl, rfl, fun _ => ⟨rfl, fun _ other => if_neg other, rfl, rfl⟩⟩, rfl, rfl⟩,
    ⟨⟨rfl, rfl, fun _ => ⟨rfl, fun _ other => if_neg other, rfl, rfl⟩⟩, rfl, rfl⟩⟩

theorem Renewed.parted {o : IcapOptions} {is_response : Bool} {sock : BaseSocket} {name : String} {kind : Bool} {h g : HTTPHeader}
    (renewed : Renewed o is_response sock name h) (held : Held kind h) (fresh : Fresh kind g)
    (read : whole o is_response sock = true) : Parted name (records (fieldLines o is_response sock)) h.reset g.reset := by
  unfold Renewed at renewed
  rw [if_pos read] at renewed
  have cleared : g.reset = g := by simp [HTTPHeader.reset, fresh.clean]
  rw [cleared]
  have idle := fresh.idle fresh.clean
  rcases renewed with clean | unread
  · have same : h.reset = h := by simp [HTTPHeader.reset, clean]
    rw [same]
    exact .inl (paired_of_idle (held.idle clean) idle fresh.first (held.kind.trans fresh.kind.symm)
      (held.icap.trans fresh.icap.symm) (clean.trans fresh.clean.symm))
  · refine .inr ⟨?_, unread⟩
    unfold texts
    rw [(reset_idle held.idle).lines, idle.lines]

theorem Renewed.left {o : IcapOptions} {is_response : Bool} {sock : BaseSocket} {name : String} {kind : Bool} {h g : HTTPHeader}
    (renewed : Renewed o is_response sock name h) (fresh : Fresh kind g) (read : ¬ whole o is_response sock = true) :
    texts h = texts g := by
  unfold Renewed at renewed
  rw [if_neg read] at renewed
  unfold texts
  rw [renewed, (fresh.idle fresh.clean).lines]

theorem in_same {o : IcapOptions} {sock : BaseSocket} {h : ICAPHeader} (started : Started h.begun)
    (covered : Covered o sock h.begun) : Same (h.in_ o sock).2.1 ((ICAPHeader.made h.is_response).in_ o sock).2.1 := by
  have twin : Twin h.begun (ICAPHeader.made h.is_response).begun := ⟨started.none_, begun_kind h⟩
  obtain ⟨reads, error⟩ := inLoop_first o sock.pending.length twin started.none_ sock
  obtain ⟨request, response⟩ := made_fresh h.is_response
  obtain ⟨allow, refusal, com, preview, req, res⟩ := covered
  rw [begun_kind] at allow com preview req res
  have errors := error (refusal.imp_left id)
  have read' : linesIn o h.is_response sock =
      (ICAPHeader.made h.is_response).begun.inLoop o (sock.pending.length + 1) true sock := rfl
  rw [in_eq o sock h rfl, in_eq o sock (.made h.is_response) read'.symm]
  rw [← read'] at reads errors
  generalize h.begun.inLoop o (sock.pending.length + 1) true sock = r at reads errors ⊢
  have lines : r.2.1.header = (linesIn o h.is_response sock).2.1.header := by rw [reads.twin.collected]
  have same : (r.1 && decide (r.2.1.header.length > 0)) = whole o h.is_response sock := by
    unfold whole
    rw [reads.answer, lines]
  have same' : ((linesIn o h.is_response sock).1 && decide ((linesIn o h.is_response sock).2.1.header.length > 0)) =
    whole o h.is_response sock := rfl
  rw [same, same']
  by_cases read : whole o h.is_response sock = true
  · rw [if_pos read, if_pos read]
    have fields : r.2.1.header.dropLast.tail = fieldLines o h.is_response sock := by
      unfold fieldLines
      rw [if_pos read, lines]
    have free : r.2.1.set .pallow = false := by
      rw [reads.mine.set, started.none_]
      rfl
    have covers : Covers r.2.1.header.dropLast.tail r.2.1 (linesIn o h.is_response sock).2.1 := by
      rw [fields]
      refine ⟨preview.imp_left fun none_ => ?_, allow.imp (fun none_ => ?_) fun here => ⟨free, here⟩,
          com.imp_left fun none_ => ?_⟩
      · exact reads.mine.preview.trans (none_.trans reads.yours.preview.symm)
      · exact reads.mine.allow.trans (none_.trans reads.yours.allow.symm)
      · exact reads.mine.com.trans (none_.trans reads.yours.com.symm)
    obtain ⟨checked, mine, yours⟩ := checked_same reads.twin covers errors
    have recs : r.2.1.checked.encap_recs = records (fieldLines o h.is_response sock) := by
      refine (checkLines_records _ _).trans ?_
      rw [fields]
      have none_ : r.2.1.encap_recs = [] := by
        rw [reads.mine.recs, started.none_]
        rfl
      exact congrArg (· ++ _) none_
    have recs' : (linesIn o h.is_response sock).2.1.checked.encap_recs = records (fieldLines o h.is_response sock) := by
      rw [← recs, checked.collected]
    rw [recs, recs', reads.sock]
    refine (takeParts_same o _ checked ?_ ?_ _).2.2
    · rw [mine.request, yours.request, reads.mine.request, reads.yours.request]
      exact req.parted started.request request read
    · rw [mine.response, yours.response, reads.mine.response, reads.yours.response]
      exact res.parted started.response response read
  · rw [if_neg read, if_neg read]
    have none_ : fieldLines o h.is_response sock = [] := if_neg read
    rw [none_] at allow com
    refine ⟨⟨reads.twin.collected, ?_, errors, ?_⟩, ?_, ?_⟩
    · exact reads.mine.allow.trans ((allow.resolve_right (by simp)).trans reads.yours.allow.symm)
    · exact reads.mine.com.trans ((com.resolve_right (by simp)).trans reads.yours.com.symm)
    · rw [reads.mine.request, reads.yours.request]
      exact req.left request read
    · rw [reads.mine.response, reads.yours.response]
      exact res.left response read

/- Runs. -/

inductive Op where
  | reset
  | in_ (sock : BaseSocket)
  | setIcapCom (com : IcapCom)

def Op.run (o : IcapOptions) (h : ICAPHeader) : Op → ICAPHeader
  | .reset => h.reset
  | .in_ sock => (h.in_ o sock).2.1
  | .setIcapCom com => h.setIcapCom com

def runOps (o : IcapOptions) (ops : List Op) (h : ICAPHeader) : ICAPHeader := ops.foldl (fun h op => op.run o h) h

def CoveredRun (o : IcapOptions) : ICAPHeader → List Op → Prop
  | _, [] => True
  | h, op :: ops => (∀ sock, op = .in_ sock → Covered o sock h.begun) ∧ CoveredRun o (op.run o h) ops

structure Kept (is_response : Bool) (h : HTTPHeader) : Prop where
  kind : h.is_response = is_response
  idle : h.dirty = false → Idle h

theorem Kept.reset {is_response : Bool} {h : HTTPHeader} (kept : Kept is_response h) : Kept is_response h.reset := by
  refine ⟨?_, fun _ => reset_idle kept.idle⟩
  unfold HTTPHeader.reset
  split
  · exact kept.kind
  · exact kept.kind

theorem Kept.in_ {is_response : Bool} {h : HTTPHeader} (kept : Kept is_response h) (o : Options) (allowpersistent : Bool)
    (sock : BaseSocket) : Kept is_response (h.in_ o allowpersistent sock).2.1 := by
  obtain ⟨response, dirty⟩ := in_flags o allowpersistent sock h
  refine ⟨response.trans kept.kind, fun clean => ?_⟩
  rw [dirty] at clean
  cases clean

structure Kinds (is_response : Bool) (h : ICAPHeader) : Prop where
  kind : h.is_response = is_response
  request : Kept false h.HTTPrequest
  response : Kept true h.HTTPresponse

theorem takeParts_kinds {is_response : Bool} (o : IcapOptions) (recs : List EncapRec) : ∀ {h : ICAPHeader}, Kinds is_response h →
    ∀ sock : BaseSocket, Kinds is_response (h.takeParts o recs sock).2.1 ∧ (h.takeParts o recs sock).2.1.dirty = h.dirty := by
  induction recs with
  | nil => exact fun kinds _ => ⟨kinds, rfl⟩
  | cons i rest ih =>
    intro h kinds sock
    obtain ⟨kind, request, response⟩ := kinds
    unfold ICAPHeader.takeParts
    split
    · have next := request.in_ o.toOptions false sock
      split
      · rename_i result
        rw [result] at next
        exact ⟨⟨kind, next, response⟩, rfl⟩
      · rename_i result
        rw [result] at next
        refine ih ?_ _
        exact ⟨kind, next, response⟩
    · split
      · have next := response.in_ o.toOptions false sock
        split
        · rename_i result
          rw [result] at next
          exact ⟨⟨kind, request, next⟩, rfl⟩
        · rename_i result
          rw [result] at next
          refine ih ?_ _
          exact ⟨kind, request, next⟩
      · repeat' split
        all_goals
          refine ih ?_ _
          exact ⟨kind, request, response⟩

structure Sound (is_response : Bool) (h : ICAPHeader) : Prop extends Kinds is_response h where
  clean : h.dirty = false → h.toCollected = .none ∧ h.HTTPrequest.icap = true ∧ h.HTTPresponse.icap = true

section Sounds
variable {is_response : Bool} {h : ICAPHeader}

theorem Sound.reset (sound : Sound is_response h) : Sound is_response h.reset := by
  obtain ⟨⟨kind, request, response⟩, clean⟩ := sound
  have request' : Kept false { h.HTTPrequest with icap := true } := ⟨request.kind, fun no => ⟨(request.idle no).lines,
    (request.idle no).pointers, (request.idle no).type, (request.idle no).url⟩⟩
  have response' : Kept true { h.HTTPresponse with is_response := true, icap := true } :=
    ⟨rfl, fun no => ⟨(response.idle no).lines,
    (response.idle no).pointers, (response.idle no).type, (response.idle no).url⟩⟩
  unfold ICAPHeader.reset
  simp only
  split
  · exact ⟨⟨kind, request', response'⟩, fun _ => ⟨rfl, rfl, rfl⟩⟩
  · rename_i never
    exact ⟨⟨kind, request', response'⟩, fun no => ⟨(clean no).1, rfl, rfl⟩⟩

theorem reset_clean (h : ICAPHeader) : h.reset.dirty = false := by
  unfold ICAPHeader.reset
  simp only
  split
  · rfl
  · rename_i clean
    exact Bool.eq_false_iff.mpr clean

theorem Sound.begun (sound : Sound is_response h) : Kinds is_response h.begun ∧ Started h.begun := by
  have cleared : ∀ g : ICAPHeader, Sound is_response g → g.dirty = false →
      Kinds is_response { g with dirty := true } ∧ Started { g with dirty := true } := by
    intro g sound clean
    obtain ⟨none_, request, response⟩ := sound.clean clean
    exact ⟨⟨sound.kind, sound.request, sound.response⟩, none_, ⟨sound.request.kind, request, sound.request.idle⟩,
      ⟨sound.response.kind, response, sound.response.idle⟩⟩
  unfold ICAPHeader.begun
  split
  · exact cleared _ sound.reset (reset_clean h)
  · rename_i clean
    exact cleared h sound (Bool.eq_false_iff.mpr clean)

theorem Sound.in_ (sound : Sound is_response h) (o : IcapOptions) (sock : BaseSocket) : Sound is_response (h.in_ o sock).2.1 := by
  obtain ⟨⟨kind, request, response⟩, started⟩ := sound.begun
  have read := (inLoop_first o sock.pending.length (h := h.begun) ⟨rfl, rfl⟩ started.none_ sock).1.mine
  have dirty : h.begun.dirty = true := rfl
  rw [in_eq o sock h rfl]
  generalize h.begun.inLoop o (sock.pending.length + 1) true sock = r at read ⊢
  have kinds : Kinds is_response r.2.1 := by
    refine ⟨read.kind.trans kind, ?_, ?_⟩
    · rw [read.request]
      exact request
    · rw [read.response]
      exact response
  have dirty' : r.2.1.dirty = true := read.dirty.trans dirty
  split
  · obtain ⟨_, checked, _⟩ := checked_same (h := r.2.1) ⟨rfl, rfl⟩ ⟨.inl rfl, .inl rfl, .inl rfl⟩ rfl
    have kinds' : Kinds is_response r.2.1.checked := by
      refine ⟨checked.kind.trans kinds.kind, ?_, ?_⟩
      · rw [checked.request]
        exact kinds.request.reset
      · rw [checked.response]
        exact kinds.response.reset
    obtain ⟨last, dirty⟩ := takeParts_kinds o r.2.1.checked.encap_recs kinds' r.2.2
    refine ⟨last, fun clean => ?_⟩
    rw [dirty, checked.dirty, dirty'] at clean
    cases clean
  · refine ⟨kinds, fun clean => ?_⟩
    rw [dirty'] at clean
    cases clean

theorem Op.run_sound (sound : Sound is_response h) (o : IcapOptions) (op : Op) : Sound is_response (op.run o h) := by
  cases op with
  | reset => exact sound.reset
  | in_ sock => exact sound.in_ o sock
  | setIcapCom com => exact ⟨⟨sound.kind, sound.request, sound.response⟩, sound.clean⟩

end Sounds

theorem made_sound (is_response : Bool) : Sound is_response (.made is_response) :=
  ⟨⟨rfl, ⟨rfl, fun _ => ⟨rfl, fun _ other => if_neg other, rfl, rfl⟩⟩,
      ⟨rfl, fun _ => ⟨rfl, fun _ other => if_neg other, rfl, rfl⟩⟩⟩,
    fun _ => ⟨rfl, rfl, rfl⟩⟩

theorem covered_run_same (o : IcapOptions) {is_response : Bool} (earlier : List Op) : ∀ {h : ICAPHeader}, Sound is_response h →
    ∀ {sock : BaseSocket} {later : List Op}, CoveredRun o h (earlier ++ .in_ sock :: later) →
    Same (runOps o (earlier ++ [.in_ sock]) h) ((ICAPHeader.made is_response).in_ o sock).2.1 := by
  induction earlier with
  | nil =>
    intro h sound sock later covered
    have same := in_same sound.begun.2 (covered.1 sock rfl)
    rw [sound.kind] at same
    exact same
  | cons op rest ih =>
    intro h sound sock later covered
    exact ih (Op.run_sound sound o op) covered.2

/-- In a run whose requests replace what reset leaves, nothing of an earlier request shows in a later one. -/
theorem no_trace_in_covered_runs (o : IcapOptions) (is_response : Bool) (ops : List Op)
    (covered : CoveredRun o (.made is_response) ops) : ∀ earlier sock later, ops = earlier ++ .in_ sock :: later →
    Same (runOps o (earlier ++ [.in_ sock]) (.made is_response)) ((ICAPHeader.made is_response).in_ o sock).2.1 := by
  intro earlier sock later here
  rw [here] at covered
  exact covered_run_same o earlier (made_sound is_response) covered

/-- As after requests that set none of what reset leaves. -/
def NothingLeft (h : ICAPHeader) : Prop :=
  h.allow_206 = false ∧ h.icap_error = [] ∧ h.icap_com = ⟨[], [], -1, 0, 0, []⟩ ∧ h.ppreview = false ∧
    (h.HTTPrequest.dirty = false ∧ h.HTTPrequest.header = []) ∧ h.HTTPresponse.dirty = false ∧ h.HTTPresponse.header = []
  deriving Decidable

theorem NothingLeft.covered {h : ICAPHeader} (left : NothingLeft h) (o : IcapOptions) (sock : BaseSocket) : Covered o sock h := by
  obtain ⟨allow, error, com, preview, request, response⟩ := left
  have renewed : ∀ name (g : HTTPHeader), g.dirty = false ∧ g.header = [] → Renewed o h.is_response sock name g := by
    intro name g unread
    unfold Renewed
    split
    · exact .inl unread.1
    · exact unread.2
  exact ⟨.inl allow, .inl error, .inl com, .inl preview, renewed _ _ request, renewed _ _ response⟩

def services : IcapOptions := ⟨⟨8192, 200, [], false⟩, str "request", str "response"⟩

def arriving (request : String) : BaseSocket := ⟨[], [.bytes (str request)], false, false⟩

theorem arriving_ofList (l : List Char) : arriving (String.ofList l) = ⟨[], [.bytes (l.map ch)], false, false⟩ := by
  rw [arriving, str_ofList]

theorem arriving_append (k l : List Char) :
    arriving (String.ofList k ++ String.ofList l) = ⟨[], [.bytes (k.map ch ++ l.map ch)], false, false⟩ := by
  rw [arriving, str_append, str_ofList, str_ofList]

def options : BaseSocket := arriving "OPTIONS icap://a/request ICAP/1.0\r\nHost: a\r\n\r\n"

def reqmod : BaseSocket := arriving ("REQMOD icap://a/request ICAP/1.0\r\nAllow: 204, 206\r\n" ++
  "Encapsulated: req-hdr=0, null-body=26\r\n\r\nGET http://b/ HTTP/1.1\r\nHost: b\r\n\r\n")

theorem options_then_reqmod : CoveredRun services (.made false) [.in_ options, .reset, .in_ reqmod] ∧
    Same (runOps services [.in_ options, .reset, .in_ reqmod] (.made false))
        ((ICAPHeader.made false).in_ services reqmod).2.1 := by
  have first : NothingLeft (ICAPHeader.made false).begun := by decide +kernel
  have second : NothingLeft ((ICAPHeader.made false).in_ services options).2.1.reset.begun := by
    rw [options, arriving_ofList]
    decide +kernel
  have covered : CoveredRun services (.made false) [.in_ options, .reset, .in_ reqmod] := by
    refine ⟨fun sock here => ?_, nofun, fun sock here => ?_, trivial⟩
    · cases here
      exact first.covered services options
    · cases here
      exact second.covered services reqmod
  exact ⟨covered, no_trace_in_covered_runs services false _ covered [.in_ options, .reset] reqmod [] rfl⟩

def reqmodPlain : BaseSocket := arriving ("REQMOD icap://a/request ICAP/1.0\r\nHost: a\r\n" ++
  "Encapsulated: req-hdr=0, null-body=26\r\n\r\nGET http://b/ HTTP/1.1\r\nHost: b\r\n\r\n")

def unknownService : BaseSocket := arriving "OPTIONS icap://a/other ICAP/1.0\r\nX-ICAP-E2G:fred,E,2,3,4,text\r\n\r\n"

/-- What the second request did not send: that 206 is allowed, a Connection line, an error and a user. -/
theorem requests_that_leave_traces :
    ¬ Same (runOps services [.in_ reqmod, .reset, .in_ reqmodPlain] (.made false))
        ((ICAPHeader.made false).in_ services reqmodPlain).2.1 ∧
      (runOps services [.in_ reqmod, .reset, .in_ reqmodPlain] (.made false)).allow_206 = true ∧
      texts (runOps services [.in_ reqmod, .reset, .in_ reqmodPlain] (.made false)).HTTPrequest =
        [str "GET http://b/ HTTP/1.1\r", str "Host: b\r", str "Connection: close\r"] ∧
      texts ((ICAPHeader.made false).in_ services reqmodPlain).2.1.HTTPrequest =
          [str "GET http://b/ HTTP/1.1\r", str "Host: b\r"] ∧
      (runOps services [.in_ unknownService, .reset, .in_ options] (.made false)).icap_error = str "404 ICAP Service not found" ∧
      (runOps services [.in_ unknownService, .reset, .in_ options] (.made false)).icap_com =
          ⟨str "fred", str "E", -1, 3, 4, str "text"⟩ := by
  have facts : ((ICAPHeader.made false).in_ services reqmodPlain).2.1.allow_206 = false ∧
      (runOps services [.in_ reqmod, .reset, .in_ reqmodPlain] (.made false)).allow_206 = true ∧
      texts (runOps services [.in_ reqmod, .reset, .in_ reqmodPlain] (.made false)).HTTPrequest =
        [str "GET http://b/ HTTP/1.1\r", str "Host: b\r", str "Connection: close\r"] ∧
      texts ((ICAPHeader.made false).in_ services reqmodPlain).2.1.HTTPrequest =
          [str "GET http://b/ HTTP/1.1\r", str "Host: b\r"] ∧
      (runOps services [.in_ unknownService, .reset, .in_ options] (.made false)).icap_error = str "404 ICAP Service not found" ∧
      (runOps services [.in_ unknownService, .reset, .in_ options] (.made false)).icap_com =
          ⟨str "fred", str "E", -1, 3, 4, str "text"⟩ := by
    rw [reqmod, reqmodPlain, unknownService, options, arriving_append, arriving_append, arriving_ofList, arriving_ofList]
    decide +kernel
  obtain ⟨plain, allowed, rest⟩ := facts
  refine ⟨fun same => ?_, allowed, rest⟩
  have allow := same.allow
  rw [allowed, plain] at allow
  cases allow

end GuardianIcap
