import E2Guardian.LineWrites
import E2Guardian.Urls

/- The Host line of a request: checkheader leaves one, and writes it and the first line from one URL. -/
namespace GuardianHostLines
open GuardianString GuardianHttp GuardianHeaderPointers GuardianHeaderIndex GuardianLineWrites GuardianUrls

/- The first line. -/

def requestLine (method target version : Str) : Str := method ++ str " " ++ target ++ str " HTTP/" ++ version

section First
variable {method target version : Str}

theorem requestLine_parts (method target version : Str) :
    requestLine method target version = method ++ (str " " ++ (target ++ (str " " ++ (str "HTTP/" ++ version)))) := by
  have protocol : str " HTTP/" = str " " ++ str "HTTP/" := rfl
  rw [requestLine, protocol]
  simp only [List.append_assoc]

theorem before_requestLine (word : ch ' ' ∉ method) : before (requestLine method target version) (str " ") = method := by
  rw [requestLine_parts]
  exact before_at rfl word _

theorem after_requestLine (word : ch ' ' ∉ method) :
    after (requestLine method target version) (str " ") = target ++ (str " " ++ (str "HTTP/" ++ version)) := by
  rw [requestLine_parts]
  exact after_at rfl word _

theorem requestLine_inj {url : Str} (first : ch ' ' ∉ target) (second : ch ' ' ∉ url) :
    requestLine method target version = requestLine method url version ↔ target = url := by
  constructor
  · intro same
    rw [requestLine_parts, requestLine_parts] at same
    have rest := List.append_cancel_left (List.append_cancel_left same)
    exact ((cut_unique first second).mp rest).1
  · rintro rfl
    rfl

/-- The word that setURL looks for at the start of the first line is in the method. -/
theorem startsWith_requestLine :
    startsWith (requestLine method target version) (str "CONNECT") = startsWith method (str "CONNECT") := by
  have blank : ch ' ' ∉ str "CONNECT" := by decide
  rw [requestLine_parts, Bool.eq_iff_iff, startsWith, startsWith, List.isPrefixOf_iff_prefix, List.isPrefixOf_iff_prefix]
  constructor
  · intro front
    rcases List.prefix_or_prefix_of_prefix front (List.prefix_append _ _) with inside | ⟨rest, whole⟩
    · exact inside
    · rw [← whole, List.prefix_append_right_inj] at front
      cases rest with
      | nil =>
        rw [← whole, List.append_nil]
      | cons b rest =>
        have sign : b = ch ' ' := (List.cons_prefix_cons.mp front).1
        rw [← whole, sign] at blank
        exact absurd (List.mem_append_right _ List.mem_cons_self) blank
  · exact fun front => front.trans (List.prefix_append _ _)

theorem urlFirst_requestLine (word : ch ' ' ∉ method) (plain : ch ' ' ∉ target) (https : Bool) (hostname : Str) (port : Int)
    (url : Str) : HTTPHeader.urlFirst https hostname port url (requestLine method target version) =
      if https && startsWith method (str "CONNECT") then requestLine method (hostname ++ str ":" ++ ofInt port) version
      else requestLine method url version := by
  have behind : after (target ++ (str " " ++ (str "HTTP/" ++ version))) (str " ") = str "HTTP/" ++ version :=
    after_at rfl plain _
  have protocol : str " HTTP/" = str " " ++ str "HTTP/" := rfl
  unfold HTTPHeader.urlFirst
  simp only [startsWith_requestLine, before_requestLine word, after_requestLine word, behind]
  split
  · simp only [requestLine, protocol, List.append_assoc]
  · simp only [requestLine, protocol, List.append_assoc]

end First

/- getUrl and then setURL. -/

def normalise (h : HTTPHeader) : HTTPHeader :=
  let (newurl, h) := h.getUrl true false
  h.setURL newurl

def isHttps (url : Str) : Bool := before url (str "://") = str "https"

theorem hostLine_named (https : Bool) (hostname : Str) (port : Int) :
    named (HTTPHeader.hostLine https hostname port) "host:" = true := by
  refine @named_of_front _ (str "Host: ") _ ?_ (by decide)
  unfold HTTPHeader.hostLine
  simp only [List.append_assoc]
  exact List.prefix_append _ _

theorem portLine_named (port : Int) : named (HTTPHeader.portLine port) "port:" = true := by
  refine @named_of_front _ (str "Port: ") _ ?_ (by decide)
  rw [HTTPHeader.portLine, List.append_assoc]
  exact List.prefix_append _ _

theorem portLine_not_host (port : Int) : named (HTTPHeader.portLine port) "host:" = false :=
  named_other (portLine_named port) (by decide)

section Passes
variable {h : HTTPHeader}

theorem setURL_eq (some_ : h.header ≠ []) (other : h.requesttype ≠ str "CONNECT") (url : Str) :
    h.setURL url = h.setLines
      (HTTPHeader.urlFirst (isHttps url) (HTTPHeader.urlParts (isHttps url) url).1 (HTTPHeader.urlParts (isHttps url) url).2.1
        (HTTPHeader.urlParts (isHttps url) url).2.2 h.front)
      (HTTPHeader.hostLine (isHttps url) (HTTPHeader.urlParts (isHttps url) url).1 (HTTPHeader.urlParts (isHttps url) url).2.1)
      (HTTPHeader.portLine (HTTPHeader.urlParts (isHttps url) url).2.1) := by
  unfold HTTPHeader.setURL
  rw [if_neg (by simp [some_])]
  simp only [other, or_false]
  rfl

theorem normalise_absolute (some_ : h.header ≠ []) (other : h.requesttype ≠ str "CONNECT")
    (target : targetOf h.front ≠ []) (relative : (targetOf h.front).head? ≠ some (ch '/')) :
    ∃ port, normalise h = { h with port := port }.setURL (absoluteUrl true false h.urlPort (targetOf h.front)).1 := by
  have connect : h.isConnect = false := by simp [HTTPHeader.isConnect, other]
  have urlTarget : h.urlTarget = targetOf h.front := by simp [HTTPHeader.urlTarget, connect]
  have slash : startsWith (targetOf h.front) (str "/") = false := by
    rw [← Bool.not_eq_true, startsWith, List.isPrefixOf_iff_prefix]
    intro front
    obtain ⟨rest, whole⟩ := front
    rw [← whole] at relative
    exact relative rfl
  refine ⟨(absoluteUrl true false h.urlPort (targetOf h.front)).2.toNat, ?_⟩
  simp only [normalise, HTTPHeader.getUrl, Bool.not_true, Bool.false_eq_true, and_false, if_false, if_true,
    List.length_eq_zero_iff, some_, HTTPHeader.urlOf, urlTarget, target, slash, connect, HTTPHeader.noteUrl]

theorem normalise_relative (some_ : h.header ≠ []) (other : h.requesttype ≠ str "CONNECT") {path line : Str}
    (target : targetOf h.front = ch '/' :: path) (host : h.at_ .phost = some line) :
    ∃ port, normalise h = { h.setFront (h.requesttype ++ str " " ++ ((hostUrl true false h.urlPort line).1 ++ ch '/' :: path) ++
        str " HTTP/" ++ after h.front (str " HTTP/")) with port := port }.setURL
          ((hostUrl true false h.urlPort line).1 ++ ch '/' :: path) := by
  have connect : h.isConnect = false := by simp [HTTPHeader.isConnect, other]
  have urlTarget : h.urlTarget = ch '/' :: path := by simp [HTTPHeader.urlTarget, connect, target]
  have slash : startsWith (ch '/' :: path) (str "/") = true := by simp [startsWith, str]
  refine ⟨(hostUrl true false h.urlPort line).2.toNat, ?_⟩
  simp only [normalise, HTTPHeader.getUrl, Bool.not_true, Bool.false_eq_true, and_false, if_false, if_true,
    List.length_eq_zero_iff, some_, HTTPHeader.urlOf, urlTarget, slash, connect, HTTPHeader.noteUrl, host, reduceCtorEq]

/-- The port of a Port line; without one it is that of http. -/
def portGiven (line : Option Str) : Int :=
  match line with
  | none => 80
  | some line => validPort false (toInteger (after line (str " ")))

theorem portGiven_valid (line : Option Str) : 0 < portGiven line ∧ portGiven line ≤ 65535 := by
  cases line with
  | none => decide
  | some line => exact validPort_valid _ _

theorem urlPort_eq (other : h.requesttype ≠ str "CONNECT") : h.urlPort = portGiven (h.at_ .pport) := by
  have connect : h.isConnect = false := by simp [HTTPHeader.isConnect, other]
  unfold HTTPHeader.urlPort portGiven
  rw [connect]
  cases h.at_ .pport <;> rfl

theorem portGiven_portLine {port : Int} (range : 0 < port ∧ port ≤ 65535) :
    portGiven (some (HTTPHeader.portLine port)) = port := by
  have parts : HTTPHeader.portLine port = str "Port:" ++ (str " " ++ (ofInt port ++ str "\r")) := by
    have name : str "Port: " = str "Port:" ++ str " " := rfl
    rw [HTTPHeader.portLine, name]
    simp only [List.append_assoc]
  have behind : after (HTTPHeader.portLine port) (str " ") = ofInt port ++ str "\r" := by
    rw [parts]
    exact after_at rfl (by decide) _
  rw [portGiven, behind, toInteger_ofInt (by omega) range.2 (by decide +kernel), validPort_of_valid range]

/-- The host and the port of a URL, as the lists of sites know it; a port that goes without saying is
left out. -/
def hostValue (url : Str) : Str :=
  let site := getHostname url
  if contains site (str ":") ∧ toInteger (after site (str ":")) = defaultPort (isHttps url) then before site (str ":") else site

theorem isHttps_urlText {scheme authority : Str} (plain : ch ':' ∉ scheme) (path : Str) :
    isHttps (urlText scheme authority path) = decide (scheme = str "https") := by
  rw [isHttps, before_urlText path plain]

theorem getHostname_urlText {scheme authority : Str} (plain : ch ':' ∉ scheme) (slashless : ch '/' ∉ authority) (path : Str) :
    getHostname (urlText scheme authority path) = behindUser authority := by
  have parts : urlText scheme authority path = scheme ++ (str "://" ++ (authority ++ (str "/" ++ path))) := by simp [urlText]
  have absolute : contains (urlText scheme authority path) (str "://") = true := by
    rw [parts]
    exact contains_at rfl plain _
  have slash : contains (authority ++ (str "/" ++ path)) (str "/") = true := contains_at rfl slashless path
  have front : before (authority ++ (str "/" ++ path)) (str "/") = authority := before_at rfl slashless path
  simp only [getHostname, absolute, if_true, after_urlText path plain, slash, front]
  rfl

theorem hostLine_hostValue {scheme authority host : Str} {port : Option Int} (plain : ch ':' ∉ scheme)
    (slashless : ch '/' ∉ authority) (path : Str) (shaped : Shaped authority host port) {https : Bool}
    (scheme_ : isHttps (urlText scheme authority path) = https) :
    HTTPHeader.hostLine https host (port.getD (defaultPort https)) =
      str "Host: " ++ hostValue (urlText scheme authority path) ++ str "\r" := by
  have value : hostValue (urlText scheme authority path) =
      host ++ (if port.getD (defaultPort https) ≠ defaultPort https
        then str ":" ++ ofInt (port.getD (defaultPort https)) else []) := by
    simp only [hostValue, getHostname_urlText plain slashless path, shaped.site_, contains_site shaped.plain, scheme_]
    cases hport : port with
    | none => simp [site]
    | some n =>
      have range := shaped.valid n hport
      rw [(cut_site shaped.plain).1, (cut_site shaped.plain).2, toInteger_port range]
      by_cases default : n = defaultPort https
      · simp [default]
      · simp [default, site]
  rw [value, HTTPHeader.hostLine]
  simp only [List.append_assoc]

/-- A request whose URL is one with the parts given, and whose lines are written for it. -/
structure Settled (h : HTTPHeader) (method version scheme authority path host : Str) (port : Option Int) : Prop where
  placed : Placed h
  sole : Sole h
  some_ : h.header ≠ []
  type : h.requesttype ≠ str "CONNECT"
  word : ch ' ' ∉ method
  single : ch ' ' ∉ version
  blankless : ch ' ' ∉ urlText scheme authority path
  plain : ch ':' ∉ scheme
  absolute : ch '/' ∉ scheme
  slashless : ch '/' ∉ authority
  shaped : Shaped authority host port
  line : h.front = requestLine method (urlText scheme authority path) version
  connect : (isHttps (urlText scheme authority path) && startsWith method (str "CONNECT")) = false
  host_ : h.at_ .phost = some (HTTPHeader.hostLine (isHttps (urlText scheme authority path)) host
    (port.getD (defaultPort (isHttps (urlText scheme authority path)))))
  port_ : ∀ t ∈ h.at_ .pport, t = HTTPHeader.portLine (port.getD (defaultPort (isHttps (urlText scheme authority path))))

theorem urlText_ne_nil (scheme authority path : Str) : urlText scheme authority path ≠ [] := by simp [urlText, str]

theorem urlText_head {scheme : Str} (absolute : ch '/' ∉ scheme) (authority path : Str) :
    (urlText scheme authority path).head? ≠ some (ch '/') := by
  cases scheme with
  | nil => simp [urlText, str, ch]
  | cons b scheme =>
    intro head
    exact absolute (Option.some.inj head ▸ List.mem_cons_self)

/-- The port that getUrl reads next is that of the URL, or that of http where the URL shows none. -/
theorem Settled.given_iff {method version scheme authority path host : Str} {port : Option Int}
    (settled : Settled h method version scheme authority path host port) :
    (port = none → portGiven (h.at_ .pport) = 80) ↔ (port = none → scheme = str "https" → h.at_ .pport = none) := by
  refine imp_congr_right fun none_ => ?_
  have scheme_ := @isHttps_urlText scheme authority settled.plain path
  cases there : h.at_ .pport with
  | none => simp [portGiven]
  | some t =>
    have text := settled.port_ t there
    rw [none_, Option.getD_none] at text
    rw [text, portGiven_portLine (defaultPort_valid _), scheme_]
    by_cases https : scheme = str "https"
    · simp [https, defaultPort]
    · simp [https, defaultPort]

theorem isHttps_absoluteUrl {scheme authority : Str} (plain : ch ':' ∉ scheme) (slashless : ch '/' ∉ authority) (given : Int)
    (path : Str) : isHttps (absoluteUrl true false given (urlText scheme authority path)).1 = decide (scheme = str "https") := by
  rw [absoluteUrl_urlText path plain slashless, isHttps]
  simp only [List.append_assoc]
  rw [before_at rfl plain]

/-- Once more changes nothing exactly if the authority and the path come out as they are. -/
theorem Settled.again_iff {method version scheme authority path host : Str} {port : Option Int}
    (settled : Settled h method version scheme authority path host port) :
    (normalise h).header = h.header ↔
      authority.head? ≠ some (ch '@') ∧ chopDots host = host ∧
        (port = none → scheme = str "https" → h.at_ .pport = none) ∧ removeWhiteSpace path = path := by
  have same := settled.given_iff
  obtain ⟨placed, sole, some_, type, word, single, blankless, plain, absolute, slashless, shaped, line, connect,
      host_, port_⟩ := settled
  have range := portGiven_valid (h.at_ .pport)
  have target : targetOf h.front = urlText scheme authority path := by
    rw [line]
    exact targetOf_line word blankless (urlText_ne_nil _ _ _) single
  obtain ⟨p, next⟩ := normalise_absolute some_ type (target ▸ urlText_ne_nil _ _ _) (target ▸ urlText_head absolute _ _)
  rw [target, urlPort_eq type] at next
  generalize portGiven (h.at_ .pport) = given at next range same
  have slashless' := not_mem_rewritten range (by decide) (by decide) (by decide) slashless
  have blankless' : ch ' ' ∉ urlText scheme (rewritten given authority).1 (removeWhiteSpace path) := by
    simp only [urlText, List.mem_append, not_or] at blankless ⊢
    obtain ⟨⟨⟨⟨scheme_, sign⟩, authority_⟩, slash⟩, path_⟩ := blankless
    refine ⟨⟨⟨⟨scheme_, sign⟩, ?_⟩, slash⟩, fun member => path_ (removeWhiteSpace_subset path member)⟩
    exact not_mem_rewritten range (by decide) (by decide) (by decide) authority_
  have https := (isHttps_absoluteUrl plain slashless given path).trans (@isHttps_urlText scheme authority plain path).symm
  have parts := (urlParts_absoluteUrl plain slashless range path (isHttps (urlText scheme authority path))).trans
    (urlParts_urlText _ plain slashless' _)
  have placed' : Placed { h with port := p } := ⟨⟨placed.distinct.once, placed.distinct.older⟩, placed.inside, placed.apart⟩
  have front : HTTPHeader.front { h with port := p } = requestLine method (urlText scheme authority path) version := line
  rw [next, setURL_eq (h := { h with port := p }) some_ type, https, parts]
  refine (setLines_same_iff placed' sole some_ (hostLine_named _ _ _) (portLine_not_host _)).trans ?_
  simp only [front]
  rw [urlFirst_requestLine word blankless, connect]
  simp only [Bool.false_eq_true, if_false]
  rw [requestLine_inj blankless blankless', urlText_inj slashless slashless']
  have rewritten_ := rewritten_eq_iff shaped range
  constructor
  · intro lines
    obtain ⟨⟨authority_, path_⟩, _⟩ := lines
    obtain ⟨sign, dots, given_⟩ := rewritten_.mp authority_.symm
    exact ⟨sign, dots, same.mp given_, path_.symm⟩
  · intro conditions
    obtain ⟨sign, dots, given_, path_⟩ := conditions
    have authority_ := rewritten_.mpr ⟨sign, dots, same.mpr given_⟩
    rw [authority_, path_, shaped.site_, hostPort_site shaped.plain shaped.valid]
    refine ⟨⟨rfl, rfl⟩, fun t member => ?_, port_⟩
    exact Option.some.inj (member.symm.trans host_)

end Passes

theorem checkheader_seen {h : HTTPHeader} (unchecked : Unchecked h) (request : h.is_response = false)
    (some_ : h.header ≠ []) (o : Options)
    (allowpersistent : Bool) :
    ∃ g, h.checkheader o allowpersistent = normalise g ∧ g.requesttype = before h.front (str " ") ∧
      Seen g h.front ((h.header.tail.find? isHost).map (·.text)) ((h.header.tail.find? isPort).map (·.text)) := by
  have indexed : (h.indexLines o).is_response = false := request
  obtain ⟨host_, port_⟩ := indexLines_at unchecked request o
  have placed := indexLines_placed unchecked request o
  have seen : Seen ((h.indexLines o).checkFirst h.front) h.front ((h.header.tail.find? isHost).map (·.text))
      ((h.header.tail.find? isPort).map (·.text)) := by
    unfold HTTPHeader.checkFirst
    rw [if_neg (by simp [indexed])]
    exact ⟨⟨⟨placed.distinct.once, placed.distinct.older⟩, placed.inside, placed.apart⟩, indexLines_sole unchecked request o,
      header_ne_nil_of_ids (ids_indexLines o h) some_, front_indexLines o, host_, port_⟩
  have first : ((h.indexLines o).checkFirst h.front).is_response = false ∧
      ((h.indexLines o).checkFirst h.front).requesttype = before h.front (str " ") := by
    unfold HTTPHeader.checkFirst
    rw [if_neg (by simp [indexed])]
    exact ⟨indexed, rfl⟩
  have same : ∀ g : HTTPHeader, (g.checkConnection allowpersistent h.front).is_response = g.is_response ∧
      (g.checkConnection allowpersistent h.front).requesttype = g.requesttype := by
    intro g
    unfold HTTPHeader.checkConnection HTTPHeader.forceConnection
    simp only
    split
    · exact ⟨rfl, rfl⟩
    · split
      · exact ⟨rfl, rfl⟩
      · exact ⟨rfl, rfl⟩
  refine ⟨_, ?_, (same _).2.trans first.2, checkConnection_seen seen allowpersistent h.front⟩
  unfold HTTPHeader.checkheader
  rw [if_neg (by simp [some_])]
  simp only [(same _).1, first.1, Bool.false_eq_true, if_false]
  rfl

/- The result. -/

/-- The first line has a URL, the one Host line that is sent has its host and port, and the
normalisation changes no line any more. -/
structure Normalised (method version : Str) (h : HTTPHeader) : Prop where
  agrees : ∃ url, ch ' ' ∉ url ∧ h.front = requestLine method url version ∧
    (h.sentLines.filter fun line => named line "host:") = [str "Host: " ++ hostValue url ++ str "\r"]
  again : (normalise h).header = h.header

theorem host_sent {h : HTTPHeader} (placed : Placed h) (sole : Sole h) {line : Str} (host_ : h.at_ .phost = some line)
    (name : named line "host:" = true) : (h.sentLines.filter fun line => named line "host:") = [line] := by
  obtain ⟨i, refers, text⟩ := Option.map_eq_some_iff.mp host_
  obtain ⟨l, member, rfl⟩ := List.mem_map.mp (placed.inside .phost (by decide) i refers)
  have value : l.text = line := (text_of_mem placed.distinct (List.mem_of_mem_tail member)).symm.trans text
  have once := tail_ids_nodup placed.distinct
  have shown_ : HTTPHeader.ignored l = false := by
    rw [← Bool.not_eq_true]
    intro begins
    have front : str "X-E2G-IgnoreMe" <+: l.text := List.isPrefixOf_iff_prefix.mp begins
    have other := @named_of_front _ _ "x-e2g-ignoreme" front (by decide)
    rw [value, named_other name (by decide)] at other
    cases other
  have only : ∀ m ∈ h.header.tail, (!HTTPHeader.ignored m && isHost m) = decide (m = l) := by
    intro m there
    have same := sole m there
    rw [refers] at same
    by_cases here : m = l
    · subst here
      simp [shown_, same.mpr rfl]
    · have other : isHost m = false := by
        rw [← Bool.not_eq_true, same]
        exact fun ids => here (line_of_id once there member (Option.some.inj ids).symm)
      simp [other, here]
  have filtered : (h.header.tail.filter fun m => !HTTPHeader.ignored m && isHost m) = [l] := by
    rw [List.filter_congr only, ← List.replicate_one (a := l)]
    have count : h.header.tail.count l = 1 := List.count_eq_one_of_mem (List.Nodup.of_map _ once) member
    rw [← count]
    exact List.filter_eq l
  rw [HTTPHeader.sentLines, List.filter_map, List.filter_filter]
  have both : (h.header.tail.filter fun m => ((fun line => named line "host:") ∘ fun x => x.text) m &&
      !HTTPHeader.ignored m) = [l] := by
    rw [← filtered]
    exact List.filter_congr fun m _ => Bool.and_comm ..
  rw [both]
  simp [value]

theorem Settled.normalised_iff {h : HTTPHeader} {method version scheme authority path host : Str} {port : Option Int}
    (settled : Settled h method version scheme authority path host port) :
    Normalised method version h ↔
      authority.head? ≠ some (ch '@') ∧ chopDots host = host ∧
        (port = none → scheme = str "https" → h.at_ .pport = none) ∧ removeWhiteSpace path = path := by
  rw [← settled.again_iff]
  constructor
  · exact fun normalised => normalised.again
  · intro same
    refine ⟨⟨_, settled.blankless, settled.line, ?_⟩, same⟩
    rw [host_sent settled.placed settled.sole settled.host_ (hostLine_named _ _ _),
      hostLine_hostValue settled.plain settled.slashless path settled.shaped rfl]

theorem setURL_written {h : HTTPHeader} (placed : Placed h) (sole : Sole h) (some_ : h.header ≠ [])
    (type : h.requesttype ≠ str "CONNECT") (url : Str) :
    Written h (h.setURL url)
      (HTTPHeader.urlFirst (isHttps url) (HTTPHeader.urlParts (isHttps url) url).1 (HTTPHeader.urlParts (isHttps url) url).2.1
        (HTTPHeader.urlParts (isHttps url) url).2.2 h.front)
      (HTTPHeader.hostLine (isHttps url) (HTTPHeader.urlParts (isHttps url) url).1 (HTTPHeader.urlParts (isHttps url) url).2.1)
      (HTTPHeader.portLine (HTTPHeader.urlParts (isHttps url) url).2.1) := by
  rw [setURL_eq some_ type]
  exact setLines_written placed sole some_ (hostLine_named _ _ _) (portLine_not_host _)

/- Targets. -/

inductive Target where
  | absolute (scheme authority : Str) (path : Option Str)
  | relative (path : Str)

def Target.text : Target → Str
  | .absolute scheme authority none => scheme ++ str "://" ++ authority
  | .absolute scheme authority (some path) => urlText scheme authority path
  | .relative path => ch '/' :: path

def Target.WellFormed : Target → Prop
  | .absolute scheme authority _ => ch ':' ∉ scheme ∧ ch '/' ∉ scheme ∧ ch '/' ∉ authority
  | .relative _ => True

def nameIn (line : Str) : Str := hostName (removeWhiteSpace (after line (str " ")))

def Settles (method host : Str) (port : Option Str) : Target → Prop
  | .absolute scheme authority _ =>
    ¬ str "@@" <+: authority ∧
      (scheme = str "https" → startsWith method (str "CONNECT") = false ∧
        (port ≠ none → hostsPort (portGiven port) (behindUser authority) ≠ 80))
  | .relative path =>
    ch ' ' ∉ nameIn host ∧ (nameIn host).head? ≠ some (ch '@') ∧
      (ch '/' ∈ nameIn host → (before (nameIn host) (str "/")).getLast? ≠ some (ch '.')) ∧
      removeWhiteSpace (after (nameIn host ++ ch '/' :: path) (str "/")) = after (nameIn host ++ ch '/' :: path) (str "/")

structure Request (h : HTTPHeader) (method version host : Str) (port : Option Str) (target : Target) : Prop where
  seen : Seen h (requestLine method target.text version) (some host) port
  type : h.requesttype = method
  other : method ≠ str "CONNECT"
  word : ch ' ' ∉ method
  single : ch ' ' ∉ version
  blankless : ch ' ' ∉ target.text
  formed : target.WellFormed

theorem normalise_type (h : HTTPHeader) : (normalise h).requesttype = h.requesttype :=
  (setURL_index _ _).2.trans (getUrl_index h).2

theorem normalise_some {h : HTTPHeader} (some_ : h.header ≠ []) : (normalise h).header ≠ [] := by
  have keeps : Keeps h (normalise h) := (getUrl_keeps true false h).trans (setURL_keeps _ _)
  cases lines : h.header with
  | nil => exact absurd lines some_
  | cons first rest =>
    intro none_
    have there := keeps.lines first.id (by simp [ids, lines])
    rw [ids, none_] at there
    cases there

section Requests
variable {h : HTTPHeader} {method version host scheme authority : Str} {port : Option Str} {path : Option Str}

/-- The absolute targets are those of URLs with a path, which may be empty. -/
theorem absoluteUrl_text (formed : (Target.absolute scheme authority path).WellFormed) (given : Int) :
    absoluteUrl true false given (Target.absolute scheme authority path).text =
      absoluteUrl true false given (urlText scheme authority (path.getD [])) := by
  cases path with
  | none => exact absoluteUrl_bare formed.1 formed.2.2 given
  | some path => rfl

theorem text_parts (scheme authority : Str) (path : Option Str) :
    ∃ rest, (Target.absolute scheme authority path).text = scheme ++ str "://" ++ (authority ++ rest) ∧
      (path.getD []) ⊆ rest := by
  cases path with
  | none => exact ⟨[], by simp [Target.text], by simp⟩
  | some path => exact ⟨str "/" ++ path, by simp [Target.text, urlText], List.subset_append_right _ _⟩

theorem text_head (formed : (Target.absolute scheme authority path).WellFormed) :
    (Target.absolute scheme authority path).text ≠ [] ∧
      (Target.absolute scheme authority path).text.head? ≠ some (ch '/') := by
  obtain ⟨rest, parts, _⟩ := text_parts scheme authority path
  rw [parts]
  cases scheme with
  | nil => simp [str, ch]
  | cons b scheme =>
    refine ⟨by simp, fun first => formed.2.1 ?_⟩
    exact Option.some.inj first ▸ List.mem_cons_self

def urlWritten (port : Option Str) (scheme authority : Str) (path : Option Str) : Str :=
  urlText scheme (rewritten (portGiven port) authority).1 (removeWhiteSpace (path.getD []))

theorem urlWritten_blankless (blankless : ch ' ' ∉ (Target.absolute scheme authority path).text) :
    ch ' ' ∉ urlWritten port scheme authority path := by
  obtain ⟨rest, parts, inside⟩ := text_parts scheme authority path
  rw [parts] at blankless
  simp only [List.mem_append, not_or] at blankless
  obtain ⟨⟨scheme_, sign⟩, authority_, rest_⟩ := blankless
  simp only [urlWritten, urlText, List.mem_append, not_or]
  refine ⟨⟨⟨⟨scheme_, sign⟩, ?_⟩, by decide⟩, fun member => rest_ (inside (removeWhiteSpace_subset _ member))⟩
  exact not_mem_rewritten (portGiven_valid port) (by decide) (by decide) (by decide) authority_

theorem absolute_written (request : Request h method version host port (.absolute scheme authority path)) {name : Str}
    {q : Option Int} (shaped : Shaped (rewritten (portGiven port) authority).1 name q) :
    Written h (normalise h)
      (if isHttps (urlWritten port scheme authority path) && startsWith method (str "CONNECT") then
        requestLine method
          (name ++ str ":" ++ ofInt (q.getD (defaultPort (isHttps (urlWritten port scheme authority path))))) version
        else requestLine method (urlWritten port scheme authority path) version)
      (HTTPHeader.hostLine (isHttps (urlWritten port scheme authority path)) name
        (q.getD (defaultPort (isHttps (urlWritten port scheme authority path)))))
      (HTTPHeader.portLine (q.getD (defaultPort (isHttps (urlWritten port scheme authority path))))) := by
  obtain ⟨⟨placed, sole, some_, front_, host_, port_⟩, type, other, word, single, blankless, formed⟩ := request
  have notConnect : h.requesttype ≠ str "CONNECT" := type ▸ other
  have range := portGiven_valid port
  have target : targetOf h.front = (Target.absolute scheme authority path).text := by
    rw [front_]
    exact targetOf_line word blankless (text_head formed).1 single
  obtain ⟨p, next⟩ := normalise_absolute some_ notConnect (target ▸ (text_head formed).1) (target ▸ (text_head formed).2)
  rw [target, urlPort_eq notConnect, port_, absoluteUrl_text formed] at next
  have slashless' := not_mem_rewritten range (by decide) (by decide) (by decide) formed.2.2
  have https : isHttps (absoluteUrl true false (portGiven port) (urlText scheme authority (path.getD []))).1 =
      isHttps (urlWritten port scheme authority path) :=
    (isHttps_absoluteUrl formed.1 formed.2.2 _ _).trans (isHttps_urlText formed.1 _).symm
  have parts := (urlParts_absoluteUrl formed.1 formed.2.2 range (path.getD [])
      (isHttps (urlWritten port scheme authority path))).trans
    (urlParts_urlText _ formed.1 slashless' _)
  rw [shaped.site_, hostPort_site shaped.plain shaped.valid] at parts
  have placed' : Placed { h with port := p } := ⟨⟨placed.distinct.once, placed.distinct.older⟩, placed.inside, placed.apart⟩
  have written := setURL_written (h := { h with port := p }) placed' sole some_ notConnect
    (absoluteUrl true false (portGiven port) (urlText scheme authority (path.getD []))).1
  have front : HTTPHeader.front { h with port := p } =
      requestLine method (Target.absolute scheme authority path).text version := front_
  rw [https, parts, front, urlFirst_requestLine word blankless] at written
  rw [next]
  exact ⟨written.placed, written.sole, written.front, written.host_, written.port_⟩

/-- A target without a slash is no URL, and does not stay. -/
theorem slashless_changed {g : HTTPHeader} (placed : Placed g) (sole : Sole g) (some_ : g.header ≠ [])
    (other : g.requesttype ≠ str "CONNECT") (word : ch ' ' ∉ method) (single : ch ' ' ∉ version) {target : Str}
    (blankless : ch ' ' ∉ target) (slashless : ch '/' ∉ target) (filled : target ≠ [])
    (front : g.front = requestLine method target version) : (normalise g).header ≠ g.header := by
  have target_ : targetOf g.front = target := by
    rw [front]
    exact targetOf_line word blankless filled single
  obtain ⟨p, next⟩ := normalise_absolute some_ other (target_ ▸ filled)
    (by rw [target_]; exact fun first => slashless (List.mem_of_head? first))
  rw [target_] at next
  have absent : ∀ s : Str, s.count (ch '/') ≤ 1 → ¬ str "://" <:+: s := by
    intro s few inside
    have more := inside.sublist.count_le (ch '/')
    have two : (str "://").count (ch '/') = 2 := by decide
    omega
  have none_ : target.count (ch '/') = 0 := List.count_eq_zero.mpr slashless
  have one : (target ++ str "/").count (ch '/') = 1 := by
    rw [List.count_append, none_]
    decide
  have url : (absoluteUrl true false g.urlPort target).1 = [] ++ str "://" ++ site [] (shown g.urlPort) := by
    have before_ : before (target ++ str "/") (str "://") = [] := by
      have missing := mt (contains_iff_occurs (target ++ str "/") (str "://")).mp (absent _ (by omega))
      rw [contains, Bool.not_eq_true, Option.isSome_eq_false_iff, Option.isNone_iff_eq_none] at missing
      rw [before, missing]
    have behind : after target (str "://") = [] := after_of_absent (absent _ (by omega))
    have behind' : after (target ++ str "/") (str "://") = [] := after_of_absent (absent _ (by omega))
    have empty : contains [] (str "/") = false ∧ endsWith [] (str ".") = false ∧ before [] (str "/") = [] ∧
        removeWhiteSpace (after [] (str "/")) = [] ∧ contains [] (str "@") = false := by decide
    obtain ⟨slash, dot, front_, path_, user⟩ := empty
    simp only [absoluteUrl, behind, behind', before_, slash, dot, front_, path_, user, Bool.false_eq_true, if_false, splitPort_eq,
      withPort_eq, List.length_nil, gt_iff_lt, Nat.lt_irrefl, List.append_nil]
    rfl
  have range := portGiven_valid (g.at_ .pport)
  rw [← urlPort_eq other] at range
  have free : ch '/' ∉ site [] (shown g.urlPort) := by
    rw [mem_site (shown_valid range) (by decide) (by decide)]
    simp
  have https : isHttps ([] ++ str "://" ++ site [] (shown g.urlPort)) = false := by
    rw [isHttps, List.append_assoc, before_at (c := ch ':') rfl (by simp)]
    decide
  have parts := (@urlParts_bare [] _ (by simp) free false).trans (urlParts_urlText [] (by simp) free false)
  intro same
  have placed' : Placed { g with port := p } := ⟨⟨placed.distinct.once, placed.distinct.older⟩, placed.inside, placed.apart⟩
  have written := setURL_written (h := { g with port := p }) placed' sole some_ other (absoluteUrl true false g.urlPort target).1
  have line : HTTPHeader.front { g with port := p } = requestLine method target version := front
  have first := written.front
  rw [← next, HTTPHeader.front, same, url, https, parts, line, urlFirst_requestLine word blankless] at first
  simp only [Bool.false_and, Bool.false_eq_true, if_false] at first
  have texts : requestLine method target version = requestLine method (urlText [] (site [] (shown g.urlPort)) []) version :=
    front.symm.trans first
  have blankless' : ch ' ' ∉ urlText [] (site [] (shown g.urlPort)) [] := by
    simp only [urlText, List.mem_append, not_or]
    refine ⟨⟨⟨⟨by simp, by decide⟩, ?_⟩, by decide⟩, by simp⟩
    rw [mem_site (shown_valid range) (by decide) (by decide)]
    simp
  have urls := (requestLine_inj blankless blankless').mp texts
  rw [urls] at slashless
  exact slashless (by simp [urlText, str])

theorem rewritten_port (given : Int) (authority : Str) :
    (rewritten given authority).2 = hostsPort given (behindUser authority) := by
  simp only [rewritten, splitPort_eq]

theorem shown_none (n : Int) : shown n = none ↔ n = 80 := by
  unfold shown
  split <;> simp_all

theorem absolute_normalised_iff (request : Request h method version host port (.absolute scheme authority path)) :
    Normalised method version (normalise h) ↔ Settles method host port (.absolute scheme authority path) := by
  obtain ⟨name, shaped, dots, head⟩ := rewritten_shaped (portGiven_valid port) authority
  have written := absolute_written request shaped
  have https : isHttps (urlWritten port scheme authority path) = decide (scheme = str "https") :=
    isHttps_urlText request.formed.1 _
  have type : (normalise h).requesttype ≠ str "CONNECT" := by
    rw [normalise_type, request.type]
    exact request.other
  have blankless : ch ' ' ∉ urlWritten port scheme authority path := urlWritten_blankless request.blankless
  have slashless := not_mem_rewritten (portGiven_valid port) (by decide) (by decide) (by decide) request.formed.2.2
  by_cases connect : (isHttps (urlWritten port scheme authority path) && startsWith method (str "CONNECT")) = true
  · -- setURL takes the request for a CONNECT, and leaves no URL
    rw [if_pos connect] at written
    rw [Bool.and_eq_true, https, decide_eq_true_eq] at connect
    have range := getD_valid shaped.valid (defaultPort_valid (isHttps (urlWritten port scheme authority path)))
    generalize shown (rewritten (portGiven port) authority).2 = q at shaped written range
    generalize q.getD (defaultPort (isHttps (urlWritten port scheme authority path))) = n at written range
    have inside : ∀ c : UInt8, isDigit c = false → c ≠ ch ':' → c ∉ urlWritten port scheme authority path ∨
        c ∉ (rewritten (portGiven port) authority).1 → c ∉ name ++ str ":" ++ ofInt n := by
      intro c digit colon absent member
      rcases List.mem_append.mp member with front | number
      · rcases List.mem_append.mp front with word | sign
        · have there : c ∈ (rewritten (portGiven port) authority).1 := by
            refine (behindUser_suffix _).subset ?_
            rw [shaped.site_]
            exact (mem_site shaped.valid digit colon).mpr word
          rcases absent with no | no
          · refine no ?_
            simp only [urlWritten, urlText, List.mem_append]
            exact .inl (.inl (.inr there))
          · exact no there
        · exact colon (List.mem_singleton.mp sign)
      · exact colon_not_digit (by omega) digit number
    refine iff_of_false ?_ ?_
    · intro normalised
      exact slashless_changed written.placed written.sole (normalise_some request.seen.some_) type request.word request.single
        (inside _ (by decide) (by decide) (.inl blankless)) (inside _ (by decide) (by decide) (.inr slashless))
        (by simp [str]) written.front normalised.again
    · intro settles
      have no := (settles.2 connect.1).1
      rw [connect.2] at no
      cases no
  · rw [Bool.not_eq_true] at connect
    rw [connect] at written
    have settled : Settled (normalise h) method version scheme (rewritten (portGiven port) authority).1
        (removeWhiteSpace (path.getD [])) name (shown (rewritten (portGiven port) authority).2) := by
      refine ⟨written.placed, written.sole, normalise_some request.seen.some_, type, request.word, request.single, blankless,
        request.formed.1, request.formed.2.1, slashless, shaped, written.front, connect, ?_, ?_⟩
      · rw [written.host_, request.seen.host_]
        rfl
      · intro t member
        rw [written.port_] at member
        obtain ⟨_, _, same⟩ := Option.map_eq_some_iff.mp member
        exact same.symm
    have port_ : (normalise h).at_ .pport = none ↔ port = none := by
      rw [written.port_, request.seen.port_, Option.map_eq_none_iff]
    rw [settled.normalised_iff, ne_eq, head, shown_none, rewritten_port, port_]
    rw [https, Bool.and_eq_false_iff, decide_eq_false_iff_not] at connect
    constructor
    · intro conditions
      obtain ⟨sign, _, given, _⟩ := conditions
      refine ⟨sign, fun same => ⟨connect.resolve_left fun no => no same, fun there default => there (given default same)⟩⟩
    · intro settles
      obtain ⟨sign, given⟩ := settles
      refine ⟨sign, dots, fun default same => ?_, removeWhiteSpace_trimmed _⟩
      by_contra there
      exact (given same).2 there default

/- A relative target. -/

theorem after_protocol (word : ch ' ' ∉ method) {rest : Str} (blankless : ch ' ' ∉ ch '/' :: rest) :
    after (requestLine method (ch '/' :: rest) version) (str " HTTP/") = version := by
  have parts : requestLine method (ch '/' :: rest) version =
      (method ++ str " ") ++ (ch '/' :: rest ++ (str " HTTP/" ++ version)) := by
    simp only [requestLine, List.append_assoc]
  have inside : find (str " HTTP/") (ch '/' :: rest ++ (str " HTTP/" ++ version)) = some (ch '/' :: rest).length :=
    find_at rfl blankless version
  have found : find (str " HTTP/") ((method ++ str " ") ++ (ch '/' :: rest ++ (str " HTTP/" ++ version))) =
      some ((method ++ str " ") ++ ch '/' :: rest).length := by
    rw [List.append_assoc, find_behind rfl word]
    have next : find (str " HTTP/") (str " " ++ (ch '/' :: rest ++ (str " HTTP/" ++ version))) =
        (find (str " HTTP/") (ch '/' :: rest ++ (str " HTTP/" ++ version))).map (· + 1) :=
      if_neg (by simp [str, ch, List.isPrefixOf])
    rw [next, inside]
    simp only [Option.map_some, List.length_append, List.length_cons]
    congr 1
    have one : (str " ").length = 1 := by decide
    omega
  rw [parts, after, found]
  simp only
  rw [← List.append_assoc, ← List.append_assoc, ← List.length_append]
  exact List.drop_left

theorem hostUrl_eq (given : Int) (line : Str) :
    (hostUrl true false given line).1 =
      str "http://" ++ site (chopDots (nameIn line)) (shown (hostsPort given (removeWhiteSpace (after line (str " "))))) := by
  simp only [hostUrl, splitPort_eq, withPort_eq, nameIn]

theorem count_requestLine {url : Str} (word : ch ' ' ∉ method) (single : ch ' ' ∉ version) (blankless : ch ' ' ∉ url) :
    (requestLine method url version).count (ch ' ') = 2 := by
  have first : (str " ").count (ch ' ') = 1 := by decide
  have second : (str " HTTP/").count (ch ' ') = 1 := by decide
  simp only [requestLine, List.count_append, first, second, List.count_eq_zero.mpr word, List.count_eq_zero.mpr single,
    List.count_eq_zero.mpr blankless]

theorem relative_normalised_iff {rest : Str} (request : Request h method version host port (.relative rest)) :
    Normalised method version (normalise h) ↔ Settles method host port (.relative rest) := by
  obtain ⟨⟨placed, sole, some_, front_, host_, port_⟩, type, other, word, single, blankless, -⟩ := request
  have notConnect : h.requesttype ≠ str "CONNECT" := type ▸ other
  have range := hostsPort_valid (portGiven_valid port) (removeWhiteSpace (after host (str " ")))
  have target : targetOf h.front = ch '/' :: rest := by
    rw [front_]
    exact targetOf_line word blankless (by simp [Target.text]) single
  have behind : after h.front (str " HTTP/") = version := by
    rw [front_]
    exact after_protocol word blankless
  obtain ⟨p, passed⟩ := normalise_relative some_ notConnect target host_
  obtain ⟨authority, path', name, q, whole, slashless, shaped, sign, dots, trimmed⟩ :=
    relative_shaped (nameIn host) rest (hostName_plain _) range
  rw [type, behind, urlPort_eq notConnect, port_, hostUrl_eq, whole] at passed
  have next : normalise h = HTTPHeader.setURL (urlText (str "http") authority path')
      { h.setFront (requestLine method (urlText (str "http") authority path') version) with port := p } := passed
  have scheme : ch ':' ∉ str "http" := by decide
  have https : isHttps (urlText (str "http") authority path') = false := by
    rw [isHttps_urlText scheme]
    decide
  have parts := urlParts_urlText path' scheme slashless false
  rw [shaped.site_, hostPort_site shaped.plain shaped.valid] at parts
  have placed' := placed.setFront (requestLine method (urlText (str "http") authority path') version)
  have written := setURL_written
    (h := { h.setFront (requestLine method (urlText (str "http") authority path') version) with port := p })
    ⟨⟨placed'.distinct.once, placed'.distinct.older⟩, placed'.inside, placed'.apart⟩ (sole.setFront _)
    (header_ne_nil_of_ids (ids_setFront _ h) some_) notConnect (urlText (str "http") authority path')
  have line : HTTPHeader.front { h.setFront (requestLine method (urlText (str "http") authority path') version) with port := p } =
      requestLine method (urlText (str "http") authority path') version := front_setFront some_ _
  rw [https, parts, line] at written
  have blanks : ch ' ' ∈ urlText (str "http") authority path' ↔ ch ' ' ∈ nameIn host := by
    have none_ : ch ' ' ∉ ch '/' :: rest := blankless
    have front : ch ' ' ∉ str "http://" := by decide
    rw [← whole, List.mem_append, List.mem_append, mem_site (shown_valid range) (by decide) (by decide), mem_chopDots (by decide)]
    simp only [none_, front, false_or, or_false]
  by_cases blank : ch ' ' ∈ nameIn host
  · -- the rest of the URL is taken for the version
    refine iff_of_false ?_ fun settles => settles.1 blank
    intro normalised
    obtain ⟨url, plain, first, _⟩ := normalised.agrees
    have two := count_requestLine word single plain
    have more := congrArg (List.count (ch ' ')) written.front
    rw [← next, first, two] at more
    have sign_ : (str " ").count (ch ' ') = 1 := by decide
    have inside : 1 ≤ (urlText (str "http") authority path').count (ch ' ') := List.one_le_count_iff.mpr (blanks.mpr blank)
    simp only [HTTPHeader.urlFirst, Bool.false_and, Bool.false_eq_true, if_false, List.count_append, sign_] at more
    omega
  · have plain : ch ' ' ∉ urlText (str "http") authority path' := fun member => blank (blanks.mp member)
    rw [urlFirst_requestLine word plain] at written
    simp only [Bool.false_and, Bool.false_eq_true, if_false] at written
    rw [← next] at written
    have settled : Settled (normalise h) method version (str "http") authority path' name q := by
      refine ⟨written.placed, written.sole, normalise_some some_, ?_, word, single, plain, scheme, by decide, slashless, shaped,
        written.front, by rw [https]; rfl, ?_, ?_⟩
      · rw [normalise_type]
        exact notConnect
      · rw [https, written.host_]
        have kept := at_setFront placed (p := .phost) (by decide)
            (requestLine method (urlText (str "http") authority path') version)
        exact (congrArg (Option.map _) (kept.trans host_))
      · intro t member
        rw [https]
        rw [written.port_] at member
        obtain ⟨_, _, same⟩ := Option.map_eq_some_iff.mp member
        exact same.symm
    have plainScheme : str "http" ≠ str "https" := by decide
    rw [settled.normalised_iff, ne_eq, sign, dots, trimmed]
    constructor
    · intro conditions
      exact ⟨blank, conditions.1, conditions.2.1, conditions.2.2.2⟩
    · intro settles
      exact ⟨settles.2.1, settles.2.2.1, fun _ same => absurd same plainScheme, settles.2.2.2⟩

end Requests

/-- A request that is no CONNECT is left by checkheader with one Host line for the URL of its first line,
and the normalisation changes no line any more, exactly if its target and its Host line settle at once. -/
theorem host_normalised_iff_settles {h : HTTPHeader} (unchecked : Unchecked h) (request : h.is_response = false)
    {method version host : Str} {target : Target} (line : h.front = requestLine method target.text version)
    (other : method ≠ str "CONNECT") (word : ch ' ' ∉ method) (single : ch ' ' ∉ version) (blankless : ch ' ' ∉ target.text)
    (formed : target.WellFormed) (hosts : (h.header.tail.find? isHost).map (·.text) = some host) (o : Options)
    (allowpersistent : Bool) :
    Normalised method version (h.checkheader o allowpersistent) ↔
      Settles method host ((h.header.tail.find? isPort).map (·.text)) target := by
  have some_ : h.header ≠ [] := by
    intro none_
    rw [none_] at hosts
    cases hosts
  obtain ⟨g, checked, type, seen⟩ := checkheader_seen unchecked request some_ o allowpersistent
  rw [line, before_requestLine word] at type
  rw [line, hosts] at seen
  have request_ : Request g method version host ((h.header.tail.find? isPort).map (·.text)) target :=
    ⟨seen, type, other, word, single, blankless, formed⟩
  rw [checked]
  cases target with
  | absolute scheme authority path => exact absolute_normalised_iff request_
  | relative rest => exact relative_normalised_iff request_

def withLines (lines : List String) : HTTPHeader :=
  lines.foldl (fun h line => h.push (str line)) (HTTPHeader.made false none)

def loose : Options := ⟨8192, 200, [], false⟩

def relativeRequest : HTTPHeader := withLines ["GET /a HTTP/1.1\r", "host:  example.org.:8080\r", "Host: other\r"]

theorem relative_request_settles : Normalised (str "GET") (str "1.1\r") (relativeRequest.checkheader loose true) := by
  have unchecked : Unchecked relativeRequest := by
    refine ⟨⟨by decide, by decide⟩, fun p ident => if_neg ident⟩
  refine (@host_normalised_iff_settles _ unchecked rfl _ _ (str "host:  example.org.:8080\r") (.relative (str "a"))
    (by decide) (by decide) (by decide) (by decide) (by decide) trivial (by decide) loose true).mpr ?_
  exact ⟨by decide, by decide, by decide, by decide⟩

/-- A Port line and the scheme https, a blank in the Host line, and white space at the end of the path. -/
def securePort : HTTPHeader := withLines ["GET https://h/ HTTP/1.1\r", "Host: h\r", "Port: 80\r"]

def blankHost : HTTPHeader := withLines ["GET /x HTTP/1.1\r", "Host: a b\r"]

def tabbedPath : HTTPHeader := withLines ["GET /a\t HTTP/1.1\r", "Host: a\r"]

theorem requests_that_do_not_settle :
    ¬ Normalised (str "GET") (str "1.1\r") (securePort.checkheader loose true) ∧
      (normalise (securePort.checkheader loose true)).front = str "GET https://h:443/ HTTP/1.1\r" ∧
      ¬ Normalised (str "GET") (str "1.1\r") (blankHost.checkheader loose true) ∧
      (blankHost.checkheader loose true).front = str "GET http://a b/x b/x HTTP/1.1\r" ∧
      ¬ Normalised (str "GET") (str "1.1\r") (tabbedPath.checkheader loose true) := by
  refine ⟨fun normalised => ?_, by decide, fun normalised => ?_, by decide, fun normalised => ?_⟩
  · have same := normalised.again
    revert same
    decide
  · have same := normalised.again
    revert same
    decide
  · have same := normalised.again
    revert same
    decide

end GuardianHostLines
