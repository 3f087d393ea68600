import E2Guardian.GatewaySpecs
import E2Guardian.UrlHosts

/- Which gateway a request leaves by: LOptionContainer::matchGatewayRule. -/
namespace GuardianGatewayRules
open GuardianString GuardianUrls GuardianUrlHosts GuardianAddresses GuardianGatewaySpecs

inductive SrcType where
  | any
  | ip
  | user
  deriving DecidableEq

inductive DstType where
  | any
  | domain
  | url
  | ip
  deriving DecidableEq

/-- loadGatewayRules stores no empty URL pattern. -/
structure GatewayRule where
  src_type : SrcType
  dst_type : DstType
  src : IpSpec
  src_users : List Str
  dst_domains_exact : List Str
  dst_domains_wild : List Str
  dst_urls : List Str
  dst : IpSpec
  gateway : Str
  urls_nonempty : ∀ u ∈ dst_urls, u ≠ []

def urlPatterns (utoks : List Str) : List Str :=
  let chopSlashes := fun lu : Str => (lu.reverse.dropWhile (· == ch '/')).reverse
  (utoks.map fun u =>
    let lu := toLower u
    chopSlashes (if contains lu (str "://") then after lu (str "://") else lu)).filter fun lu => !lu.isEmpty

theorem urlPatterns_nonempty (utoks : List Str) : ∀ u ∈ urlPatterns utoks, u ≠ [] := by
  intro u member
  simpa using (List.mem_filter.mp member).2

structure Request where
  client_ip : Str
  client_user : Str
  domain : Str
  url : Url
  bare : Bool
  dest_ip : Str

def urlText (url : Url) (bare : Bool) : Str := if bare then url.authority ++ url.tail else url.text

def behindLast (c : UInt8) (s : Str) : Str := (s.reverse.takeWhile (· != c)).reverse

def shortUser (norm_user : Str) : Str := (behindLast (ch '/') (behindLast (ch '\\') norm_user)).takeWhile (· != ch '@')

def normDomain (domain : Str) : Str := (toLower (cstr domain)).takeWhile (· != ch ':')

def normUrl (url : Str) : Str :=
  let norm_url := toLower (cstr url)
  if contains norm_url (str "://") then after norm_url (str "://") else norm_url

section Matching
variable (inet_aton : Str → Option UInt32)

def srcOk (rule : GatewayRule) (req : Request) : Bool :=
  let norm_user := toLower (trim req.client_user)
  match rule.src_type with
  | .any => true
  | .ip => matchIpSpec inet_aton req.client_ip rule.src
  | .user => !norm_user.isEmpty && norm_user != str "-" &&
      rule.src_users.any fun ru => ru == norm_user || ru == shortUser norm_user

def wildMatch (norm_domain wd : Str) : Bool :=
  norm_domain == wd || (decide (wd.length + 1 < norm_domain.length) &&
    norm_domain[norm_domain.length - wd.length - 1]? == some (ch '.') &&
    norm_domain.drop (norm_domain.length - wd.length) == wd)

def endsAt (s : Str) (i : Nat) : Bool :=
  s.length == i || s[i]? == some (ch '/') || s[i]? == some (ch '?') || s[i]? == some (ch '&') || s[i]? == some (ch ':')

def urlTest (norm_url u : Str) : Bool :=
  (startsWith norm_url u && endsAt norm_url u.length) ||
    match find u norm_url with
    | some pos => (pos == 0 || norm_url[pos - 1]? == some (ch '.')) && endsAt norm_url (pos + u.length)
    | none => false

def dstOk (judge : Str → Bool) (rule : GatewayRule) (req : Request) : Bool :=
  let norm_domain := normDomain req.domain
  match rule.dst_type with
  | .any => true
  | .domain => !norm_domain.isEmpty &&
      (rule.dst_domains_exact.any (norm_domain == ·) || rule.dst_domains_wild.any (wildMatch norm_domain))
  | .url => rule.dst_urls.any judge
  | .ip => matchIpSpec inet_aton req.dest_ip rule.dst ||
      (!norm_domain.isEmpty && norm_domain != req.dest_ip && matchIpSpec inet_aton norm_domain rule.dst)

/-- The gateway of the first rule with a matching source and destination. -/
def firstRule (judge : Str → Bool) (req : Request) : List GatewayRule → Str
  | [] => []
  | rule :: rules =>
    if srcOk inet_aton rule req && dstOk inet_aton judge rule req then rule.gateway else firstRule judge req rules

def matchGatewayRule (rules : List GatewayRule) (req : Request) : Str :=
  let norm_url := normUrl (urlText req.url req.bare)
  firstRule inet_aton (fun u => !norm_url.isEmpty && urlTest norm_url u) req rules

end Matching

/- What a pattern is meant to match. -/

def patternHost (u : Str) : Str := u.takeWhile (· != ch '/')

def patternPath (u : Str) : Str := u.dropWhile (· != ch '/')

def hostMatches (url : Url) (u : Str) : Bool :=
  toLower url.host == patternHost u || endsWith (toLower url.host) (ch '.' :: patternHost u)

def pathMatches (url : Url) (u : Str) : Bool :=
  let rest := (toLower url.tail).drop (patternPath u).length
  startsWith (toLower url.tail) (patternPath u) && (rest.isEmpty || rest.head? == some (ch '/') || rest.head? == some (ch '?') ||
    rest.head? == some (ch '&'))

def patternMatches (url : Url) (u : Str) : Bool := hostMatches url u && pathMatches url u

def expectedGateway (inet_aton : Str → Option UInt32) (rules : List GatewayRule) (req : Request) : Str :=
  firstRule inet_aton (patternMatches req.url) req rules

/-- The first place of a pattern in a URL text is at the start or behind a dot, and ends at the end or at one of
    `/`, `?`, `&` and `:`. -/
structure InPlace (s u : Str) (p : Nat) : Prop where
  occurs : u <+: s.drop p
  first : ∀ q < p, ¬ u <+: s.drop q
  left : p = 0 ∨ s[p - 1]? = some (ch '.')
  right : endsAt s (p + u.length) = true

/-- The first place of the pattern tells the truth about it. -/
def Telling (url : Url) (bare : Bool) (u : Str) : Prop :=
  (∃ p, InPlace (normUrl (urlText url bare)) u p) ↔ patternMatches url u = true

/- The parts of the text. -/

def userPart (url : Url) : Str := match url.userinfo with
  | none => []
  | some user => toLower user ++ [ch '@']

def portPart (url : Url) : Str := match url.port with
  | none => []
  | some port => ch ':' :: toLower port

def hostEnd (url : Url) : Nat := (userPart url).length + (toLower url.host).length

/-- All of the URL behind its scheme is searched: no byte ends the text, and what is given without a scheme has no other
    `://`. -/
def Readable (url : Url) (bare : Bool) : Prop :=
  0 ∉ urlText url bare ∧ (bare = true → contains (toLower (url.authority ++ url.tail)) (str "://") = false)

structure OnHost (url : Url) (bare : Bool) (u : Str) (p : Nat) : Prop where
  readable : Readable url bare
  inside : (userPart url).length ≤ p
  ends : p + (patternHost u).length = hostEnd url

/-- Behind as much of the URL's path as the pattern's has, the path is at a `/`, `?`, `&` or its end. -/
def Closed (url : Url) (u : Str) : Prop :=
  let rest := (toLower url.tail).drop (patternPath u).length
  rest = [] ∨ rest.head? = some (ch '/') ∨ rest.head? = some (ch '?') ∨ rest.head? = some (ch '&')

/-- The mistakes that can be made about a pattern. The first is to take something else for the host: a user, a port, a path
    or a query, or the middle of the host. -/
inductive Misled (url : Url) (bare : Bool) (u : Str) : Prop where
  | elsewhere (p : Nat) (place : InPlace (normUrl (urlText url bare)) u p) (other : ¬ OnHost url bare u p)
      (unmeant : patternMatches url u = false)
  -- a colon behind the path, or a fragment behind the port
  | goesOn (p : Nat) (place : InPlace (normUrl (urlText url bare)) u p) (here : OnHost url bare u p) (more : ¬ Closed url u)
  | hidden (meant : patternMatches url u = true) (p : Nat) (early : p + (patternHost u).length < hostEnd url)
      (occurs : u <+: (normUrl (urlText url bare)).drop p) (first : ∀ q < p, ¬ u <+: (normUrl (urlText url bare)).drop q)
      (outside : ¬ InPlace (normUrl (urlText url bare)) u p)
  | portBetween (meant : patternMatches url u = true) (port : url.port ≠ none) (path : patternPath u ≠ [])
      (none_ : ∀ p, ¬ InPlace (normUrl (urlText url bare)) u p)
  | userInFront (meant : patternMatches url u = true) (user : url.userinfo ≠ none) (whole : patternHost u = toLower url.host)
      (none_ : ∀ p, ¬ InPlace (normUrl (urlText url bare)) u p)
  | unread (meant : patternMatches url u = true) (cut : ¬ Readable url bare)
      (none_ : ∀ p, ¬ InPlace (normUrl (urlText url bare)) u p)

theorem find_missing {u s : Str} (missing : find u s = none) (p : Nat) : ¬ u <+: s.drop p := by
  intro occurs
  have infix_ : u <:+: s := occurs.isInfix.trans (List.drop_suffix p s).isInfix
  have some_ := (contains_iff_occurs s u).mpr infix_
  rw [contains, missing] at some_
  cases some_

/-- Looking in front first makes no difference: a pattern in front is found there. -/
theorem urlTest_iff (s u : Str) : urlTest s u = true ↔ ∃ p, InPlace s u p := by
  have front : (startsWith s u && endsAt s u.length) = true → ∃ p, InPlace s u p := by
    intro both
    obtain ⟨starts, ends⟩ := Bool.and_eq_true_iff.mp both
    exact ⟨0, List.isPrefixOf_iff_prefix.mp starts, fun q early => absurd early (Nat.not_lt_zero q), .inl rfl,
      by rw [Nat.zero_add]; exact ends⟩
  rw [urlTest, Bool.or_eq_true]
  constructor
  · rintro (inFront | found)
    · exact front inFront
    · cases place : find u s with
      | none =>
        rw [place] at found
        cases found
      | some p =>
        rw [place] at found
        simp only [Bool.and_eq_true, Bool.or_eq_true, beq_iff_eq] at found
        exact ⟨p, (find_some place).2, find_first place, found.1, found.2⟩
  · rintro ⟨p, occurs, first, left, right⟩
    refine .inr ?_
    cases place : find u s with
    | none => exact absurd occurs (find_missing place p)
    | some q =>
      have same : q = p := by
        rcases Nat.lt_trichotomy q p with early | same | late
        · exact absurd (find_some place).2 (first q early)
        · exact same
        · exact absurd occurs (find_first place p late)
      simp only [Bool.and_eq_true, Bool.or_eq_true, beq_iff_eq]
      rw [same]
      exact ⟨left, right⟩

section Judges
variable (inet_aton : Str → Option UInt32) {judge judge' : Str → Bool}

theorem dstOk_congr {rule : GatewayRule} (same : ∀ u ∈ rule.dst_urls, judge u = judge' u) (req : Request) :
    dstOk inet_aton judge rule req = dstOk inet_aton judge' rule req := by
  unfold dstOk
  have any_ : rule.dst_urls.any judge = rule.dst_urls.any judge' := by
    rw [Bool.eq_iff_iff, List.any_eq_true, List.any_eq_true]
    exact exists_congr fun u => and_congr_right fun member => by rw [same u member]
  simp only [any_]

theorem firstRule_congr (req : Request) {rules : List GatewayRule}
    (same : ∀ rule ∈ rules, ∀ u ∈ rule.dst_urls, judge u = judge' u) :
    firstRule inet_aton judge req rules = firstRule inet_aton judge' req rules := by
  induction rules with
  | nil => rfl
  | cons rule rules ih =>
    rw [firstRule, firstRule, dstOk_congr inet_aton (same rule List.mem_cons_self),
      ih fun r member => same r (List.mem_cons_of_mem _ member)]

end Judges

theorem judged_iff (url : Url) (bare : Bool) {u : Str} (some_ : u ≠ []) :
    (!(normUrl (urlText url bare)).isEmpty && urlTest (normUrl (urlText url bare)) u) = patternMatches url u ↔
      Telling url bare u := by
  have given : (!(normUrl (urlText url bare)).isEmpty && urlTest (normUrl (urlText url bare)) u) =
      urlTest (normUrl (urlText url bare)) u := by
    cases text : normUrl (urlText url bare) with
    | cons b t => rfl
    | nil =>
      symm
      rw [List.isEmpty_nil, Bool.not_true, Bool.false_and, ← Bool.not_eq_true, urlTest_iff]
      rintro ⟨p, occurs, -, -, -⟩
      exact some_ (by simpa using occurs)
  rw [given, Telling, ← urlTest_iff, Bool.eq_iff_iff]

/- The text, part by part. -/

theorem tolower_nul : ∀ c, tolower c = 0 ↔ c = 0 := byte_cases (by decide +kernel)

theorem tolower_sign : ∀ c, tolower c = ch ':' ↔ c = ch ':' := byte_cases (by decide +kernel)

def behindScheme (url : Url) : Str := userPart url ++ (toLower url.host ++ (portPart url ++ toLower url.tail))

theorem behindScheme_eq (url : Url) : toLower (url.authority ++ url.tail) = behindScheme url := by
  unfold behindScheme userPart portPart Url.authority Url.hostPort toLower
  have sign : tolower (ch '@') = ch '@' := by decide
  have sign' : tolower (ch ':') = ch ':' := by decide
  cases url.userinfo <;> cases url.port <;> simp [sign, sign']

theorem normUrl_readable {url : Url} {bare : Bool} (readable : Readable url bare) :
    normUrl (urlText url bare) = behindScheme url := by
  obtain ⟨nulFree, whole⟩ := readable
  rw [← behindScheme_eq, normUrl, cstr_of_nul_free nulFree]
  unfold urlText
  cases bare with
  | true =>
    rw [if_pos rfl, whole rfl]
    rfl
  | false =>
    have plain : ch ':' ∉ toLower url.scheme := by
      intro member
      obtain ⟨c, inside, lower⟩ := List.mem_map.mp member
      exact url.scheme_plain ((tolower_sign c).mp lower ▸ inside)
    have parts : toLower url.text = toLower url.scheme ++ (str "://" ++ toLower (url.authority ++ url.tail)) := by
      unfold Url.text toLower
      rw [List.map_append, List.map_append]
      rfl
    have inside : contains (toLower url.text) (str "://") = true := by
      rw [parts]
      exact contains_at rfl plain _
    simp only [Bool.false_eq_true, if_false]
    rw [if_pos inside, parts, after_at rfl plain]

theorem pattern_parts (u : Str) : patternHost u ++ patternPath u = u := List.takeWhile_append_dropWhile

theorem patternPath_head {u : Str} {b : UInt8} (first : (patternPath u).head? = some b) : b = ch '/' := by
  have not_ := List.head?_dropWhile_not (· != ch '/') u
  unfold patternPath at first
  rw [first] at not_
  simpa using not_

theorem hostMatches_iff (url : Url) (u : Str) : hostMatches url u = true ↔
    ∃ sub, toLower url.host = sub ++ patternHost u ∧ (sub = [] ∨ sub.getLast? = some (ch '.')) := by
  rw [hostMatches, Bool.or_eq_true, beq_iff_eq, endsWith, List.isSuffixOf_iff_suffix]
  constructor
  · rintro (same | ⟨sub, whole⟩)
    · exact ⟨[], same, .inl rfl⟩
    · exact ⟨sub ++ [ch '.'], by rw [← whole]; simp, .inr (by simp)⟩
  · rintro ⟨sub, whole, rfl | dot⟩
    · exact .inl whole
    · obtain ⟨front, rfl⟩ := List.getLast?_eq_some_iff.mp dot
      exact .inr ⟨front, by rw [whole]; simp⟩

theorem pathMatches_iff (url : Url) (u : Str) : pathMatches url u = true ↔ patternPath u <+: toLower url.tail ∧ Closed url u := by
  rw [pathMatches, Bool.and_eq_true, startsWith, List.isPrefixOf_iff_prefix, Closed]
  simp [or_assoc]

theorem endsAt_append (a b : Str) : endsAt (a ++ b) a.length = true ↔
    b = [] ∨ b.head? = some (ch '/') ∨ b.head? = some (ch '?') ∨ b.head? = some (ch '&') ∨ b.head? = some (ch ':') := by
  have ends : ((a ++ b).length == a.length) = true ↔ b = [] := by
    rw [beq_iff_eq, List.length_append, ← List.length_eq_zero_iff]
    omega
  simp only [endsAt, Bool.or_eq_true, beq_iff_eq, List.getElem?_append_right (Nat.le_refl _), Nat.sub_self,
    ← List.head?_eq_getElem?, or_assoc]
  rw [← ends, beq_iff_eq]

theorem dot_append (a b : Str) : (a.length = 0 ∨ (a ++ b)[a.length - 1]? = some (ch '.')) ↔
    a = [] ∨ a.getLast? = some (ch '.') := by
  rcases List.eq_nil_or_concat a with rfl | ⟨front, c, rfl⟩
  · simp
  · simp

/-- A pattern in place at the end of the host is meant, if it ends where the path does. -/
theorem meant_of_place {url : Url} {bare : Bool} {u : Str} {p : Nat} (place : InPlace (normUrl (urlText url bare)) u p)
    (here : OnHost url bare u p) (closed : Closed url u) : patternMatches url u = true := by
  obtain ⟨readable, inside, ends⟩ := here
  obtain ⟨occurs, -, left, -⟩ := place
  rw [normUrl_readable readable] at occurs left
  unfold hostEnd at ends
  -- the host up to the place, and from there on
  have cut := List.take_append_drop (p - (userPart url).length) (toLower url.host)
  have long : (userPart url ++ (toLower url.host).take (p - (userPart url).length)).length = p := by
    rw [List.length_append, List.length_take]
    omega
  generalize (toLower url.host).take (p - (userPart url).length) = sub at cut long
  have short : ((toLower url.host).drop (p - (userPart url).length)).length = (patternHost u).length := by
    rw [List.length_drop]
    omega
  generalize (toLower url.host).drop (p - (userPart url).length) = host at cut short
  have text : behindScheme url = (userPart url ++ sub) ++ (host ++ (portPart url ++ toLower url.tail)) := by
    rw [behindScheme, ← cut]
    simp
  rw [text, ← long, List.drop_left] at occurs
  rw [text, ← long, dot_append] at left
  obtain ⟨more, whole⟩ := occurs
  rw [← pattern_parts u, List.append_assoc] at whole
  obtain ⟨same, rest⟩ := List.append_inj whole short.symm
  rw [patternMatches, Bool.and_eq_true, hostMatches_iff, pathMatches_iff]
  refine ⟨⟨sub, by rw [same, cut], ?_⟩, ?_, closed⟩
  · rcases List.eq_nil_or_concat sub with rfl | ⟨front, c, rfl⟩
    · exact .inl rfl
    · rcases left with none_ | last
      · simp at none_
      · exact .inr (by simpa [List.getLast?_append] using last)
  · cases path : patternPath u with
    | nil => exact List.nil_prefix
    | cons b path' =>
      have slash : b = ch '/' := patternPath_head (by rw [path]; rfl)
      have portless : portPart url = [] := by
        unfold portPart at rest ⊢
        cases port : url.port with
        | none => rfl
        | some n =>
          rw [port, path, slash] at rest
          exact absurd (List.cons.inj rest).1 (by decide)
      rw [portless, path] at rest
      exact ⟨more, rest⟩

/-- A pattern that is meant is in place at the end of the host, but for a port in front of its path and a user in front of
    its host; there may be an earlier place. -/
theorem place_of_meant {url : Url} {bare : Bool} {u : Str} (meant : patternMatches url u = true) (readable : Readable url bare)
    (portless : url.port = none ∨ patternPath u = []) (userless : url.userinfo = none ∨ patternHost u ≠ toLower url.host) :
    ∃ p, p + (patternHost u).length = hostEnd url ∧ u <+: (normUrl (urlText url bare)).drop p ∧
      (p = 0 ∨ (normUrl (urlText url bare))[p - 1]? = some (ch '.')) ∧
          endsAt (normUrl (urlText url bare)) (p + u.length) = true := by
  rw [patternMatches, Bool.and_eq_true, hostMatches_iff, pathMatches_iff] at meant
  obtain ⟨⟨sub, host, dot⟩, ⟨rest, path⟩, closed⟩ := meant
  rw [normUrl_readable readable]
  have behind : ∃ more, behindScheme url = (userPart url ++ sub) ++ (u ++ more) ∧ (more = [] ∨ more.head? = some (ch '/') ∨
      more.head? = some (ch '?') ∨ more.head? = some (ch '&') ∨ more.head? = some (ch ':')) := by
    unfold Closed at closed
    simp only [← path, List.drop_left] at closed
    cases port : url.port with
    | none =>
      refine ⟨rest, ?_, ?_⟩
      · rw [behindScheme, host, ← path, portPart, port]
        conv_rhs => rw [← pattern_parts u]
        simp
      · rcases closed with none_ | slash | mark | sign
        · exact .inl none_
        · exact .inr (.inl slash)
        · exact .inr (.inr (.inl mark))
        · exact .inr (.inr (.inr (.inl sign)))
    | some n =>
      have none_ : patternPath u = [] := portless.resolve_left (by simp [port])
      have whole : patternHost u = u := by
        have parts := pattern_parts u
        rw [none_, List.append_nil] at parts
        exact parts
      refine ⟨portPart url ++ toLower url.tail, ?_, ?_⟩
      · rw [behindScheme, host, whole]
        simp
      · rw [portPart, port]
        exact .inr (.inr (.inr (.inr rfl)))
  obtain ⟨more, text, closed'⟩ := behind
  refine ⟨(userPart url ++ sub).length, ?_, ?_, ?_, ?_⟩
  · rw [hostEnd, host]
    simp [Nat.add_assoc]
  · rw [text, List.drop_left]
    exact ⟨more, rfl⟩
  · rw [text, dot_append]
    rcases dot with rfl | last
    · left
      have none_ := userless.resolve_right fun other => other (by rw [host]; rfl)
      rw [userPart, none_]
      rfl
    · right
      rw [List.getLast?_append, last]
      rfl
  · rw [text, ← List.append_assoc, ← List.length_append, endsAt_append]
    exact closed'

theorem inPlace_unique {s u : Str} {p q : Nat} (place : InPlace s u p) (occurs : u <+: s.drop q)
    (first : ∀ i < q, ¬ u <+: s.drop i) : q = p := by
  rcases Nat.lt_trichotomy q p with early | same | late
  · exact absurd occurs (place.first q early)
  · exact same
  · exact absurd place.occurs (first p late)

/-- The first place tells the truth exactly when none of the mistakes is made. -/
theorem telling_iff (url : Url) (bare : Bool) (u : Str) : Telling url bare u ↔ ¬ Misled url bare u := by
  constructor
  · intro telling misled
    cases misled with
    | elsewhere p place other unmeant =>
      rw [telling.mp ⟨p, place⟩] at unmeant
      cases unmeant
    | goesOn p place here more =>
      have meant := telling.mp ⟨p, place⟩
      rw [patternMatches, Bool.and_eq_true, pathMatches_iff] at meant
      exact more meant.2.2
    | hidden meant p early occurs first outside =>
      obtain ⟨q, place⟩ := telling.mpr meant
      exact outside (inPlace_unique place occurs first ▸ place)
    | portBetween meant port path none_ =>
      obtain ⟨q, place⟩ := telling.mpr meant
      exact none_ q place
    | userInFront meant user whole none_ =>
      obtain ⟨q, place⟩ := telling.mpr meant
      exact none_ q place
    | unread meant cut none_ =>
      obtain ⟨q, place⟩ := telling.mpr meant
      exact none_ q place
  · intro right
    constructor
    · rintro ⟨p, place⟩
      rw [← Bool.not_eq_false]
      intro unmeant
      by_cases here : OnHost url bare u p
      · by_cases closed : Closed url u
        · rw [meant_of_place place here closed] at unmeant
          cases unmeant
        · exact right (.goesOn p place here closed)
      · exact right (.elsewhere p place here unmeant)
    · intro meant
      by_contra none_
      rw [not_exists] at none_
      by_cases readable : Readable url bare
      · have portless : url.port = none ∨ patternPath u = [] := by
          by_contra both
          rw [not_or] at both
          exact right (.portBetween meant both.1 both.2 none_)
        have userless : url.userinfo = none ∨ patternHost u ≠ toLower url.host := by
          by_contra both
          rw [not_or, not_not] at both
          exact right (.userInFront meant both.1 both.2 none_)
        obtain ⟨r, ends, occurs, left, right_⟩ := place_of_meant meant readable portless userless
        cases found : find u (normUrl (urlText url bare)) with
        | none => exact find_missing found r occurs
        | some p =>
          have occurs' := (find_some found).2
          have first := find_first found
          rcases Nat.lt_trichotomy p r with early | same | late
          · exact right (.hidden meant p (by omega) occurs' first (none_ p))
          · rw [same] at first
            exact none_ r ⟨occurs, first, left, right_⟩
          · exact first r late occurs
      · exact right (.unread meant readable none_)

def urlRule (u : Str) (some_ : u ≠ []) (gateway : Str) : GatewayRule where
  src_type := .any
  dst_type := .url
  src := ⟨[], [], []⟩
  src_users := []
  dst_domains_exact := []
  dst_domains_wild := []
  dst_urls := [u]
  dst := ⟨[], [], []⟩
  gateway := gateway
  urls_nonempty := by
    intro v member
    rw [List.mem_singleton.mp member]
    exact some_

theorem firstRule_single (inet_aton : Str → Option UInt32) (judge : Str → Bool) (req : Request) (u : Str) (some_ : u ≠ [])
    (gateway : Str) : firstRule inet_aton judge req [urlRule u some_ gateway] = if judge u then gateway else [] := by
  cases verdict : judge u <;> simp [firstRule, srcOk, dstOk, urlRule, verdict]

theorem http_plain : ch ':' ∉ str "http" := by decide

theorem no_user : ∀ u ∈ (none : Option Str), ∀ c ∈ delimiters, c ∉ u := by
  intro u given
  cases given

theorem no_port : ∀ p ∈ (none : Option Str), ∀ b ∈ p, isDigit b = true := by
  intro p given
  cases given

theorem slash_starts (path : Str) : ∀ b ∈ (ch '/' :: path).head?, b = ch '/' ∨ b = ch '?' ∨ b = ch '#' := by
  intro b first
  exact Or.inl (Option.some.inj first).symm

def hostUrl (host path : Str) (plain : ∀ c ∈ delimiters, c ∉ host) : Url where
  scheme := str "http"
  userinfo := none
  host := host
  port := none
  tail := ch '/' :: path
  scheme_plain := http_plain
  user_plain := no_user
  host_plain := plain
  port_digits := no_port
  tail_starts := slash_starts path

theorem evil_plain : ∀ c ∈ delimiters, c ∉ str "evil.com" := by decide +kernel

def lookAlike : Url := hostUrl (str "evil.com") (str "x.bank.com/") evil_plain

theorem mybank_plain : ∀ c ∈ delimiters, c ∉ str "mybank.com.bank.com" := by decide +kernel

def hiddenHost : Url := hostUrl (str "mybank.com.bank.com") [] mybank_plain

def bankRule : GatewayRule := urlRule (str "bank.com") (by decide) (str "wan2")

end GuardianGatewayRules
