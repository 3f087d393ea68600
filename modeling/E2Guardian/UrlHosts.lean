import E2Guardian.Urls

/- The host of a URL: what getHostname returns for the lists, and what malformedURL lets pass as a
   host. Both look for the end of the authority at a slash only. -/
namespace GuardianUrlHosts
open GuardianString GuardianUrls

def delimiters : List UInt8 := [ch '/', ch '?', ch '#', ch '@']

structure Url where
  scheme : Str
  userinfo : Option Str
  host : Str
  port : Option Str
  tail : Str
  scheme_plain : ch ':' ∉ scheme
  user_plain : ∀ u ∈ userinfo, ∀ c ∈ delimiters, c ∉ u
  host_plain : ∀ c ∈ delimiters, c ∉ host
  port_digits : ∀ p ∈ port, ∀ b ∈ p, isDigit b = true
  tail_starts : ∀ b ∈ tail.head?, b = ch '/' ∨ b = ch '?' ∨ b = ch '#'

namespace Url
variable (u : Url)

def hostPort : Str := u.host ++ match u.port with
  | none => []
  | some p => ch ':' :: p

def authority : Str := match u.userinfo with
  | none => u.hostPort
  | some user => user ++ ch '@' :: u.hostPort

def text : Str := u.scheme ++ (str "://" ++ (u.authority ++ u.tail))

def query : Str := u.tail.takeWhile (· != ch '/')

theorem hostPort_plain : ∀ c ∈ delimiters, c ∉ u.hostPort := by
  intro c delimiter member
  rw [hostPort, List.mem_append] at member
  rcases member with inside | inside
  · exact u.host_plain c delimiter inside
  · have port := u.port_digits
    cases given : u.port with
    | none => simp [given] at inside
    | some p =>
      rw [given] at inside
      simp only [List.mem_cons] at inside
      rcases inside with colon | digit
      · rw [colon] at delimiter
        exact absurd delimiter (by decide)
      · have isOne := port p given c digit
        simp only [delimiters, List.mem_cons, List.not_mem_nil, or_false] at delimiter
        rcases delimiter with rfl | rfl | rfl | rfl <;> exact absurd isOne (by decide)

theorem authority_slashless : ch '/' ∉ u.authority := by
  intro member
  have site := u.hostPort_plain (ch '/') (by decide)
  rw [authority] at member
  cases given : u.userinfo with
  | none =>
    rw [given] at member
    exact site member
  | some user =>
    rw [given] at member
    simp only [List.mem_append, List.mem_cons] at member
    rcases member with inside | mark | inside
    · exact u.user_plain user given (ch '/') (by decide) inside
    · exact absurd mark (by decide)
    · exact site inside

theorem query_nil_iff : u.query = [] ↔ u.tail = [] ∨ u.tail.head? = some (ch '/') := by
  rw [query]
  cases u.tail with
  | nil => simp
  | cons b t =>
    by_cases slash : b = ch '/'
    · simp [slash]
    · rw [List.takeWhile_cons_of_pos (by simpa using slash)]
      simp [slash]

theorem query_head (some_ : u.query ≠ []) : ∃ b rest, u.query = b :: rest ∧ (b = ch '?' ∨ b = ch '#') := by
  have starts := u.tail_starts
  unfold query at *
  cases tail : u.tail with
  | nil => simp [tail] at some_
  | cons b t =>
    rw [tail] at starts some_
    have slash : b ≠ ch '/' := by
      intro same
      simp [same] at some_
    refine ⟨b, t.takeWhile (· != ch '/'), List.takeWhile_cons_of_pos (by simpa using slash), ?_⟩
    exact (starts b rfl).resolve_left slash

end Url

theorem upTo_byte (s : Str) (c : UInt8) : (if contains s [c] then before s [c] else s) = s.takeWhile (· != c) := by
  by_cases inside : c ∈ s
  · rw [if_pos ((contains_byte_iff s c).mpr inside), before_byte, if_pos inside]
  · rw [if_neg (by rw [contains_byte_iff]; exact inside), List.takeWhile_eq_self_iff.mpr]
    intro b member
    simp only [bne_iff_ne, ne_eq]
    exact fun same => inside (same ▸ member)

theorem takeWhile_front {s t : Str} {c : UInt8} (absent : c ∉ s) :
    (s ++ t).takeWhile (· != c) = s ++ t.takeWhile (· != c) := by
  apply List.takeWhile_append_of_pos
  intro b member
  simp only [bne_iff_ne, ne_eq]
  exact fun same => absent (same ▸ member)

/- getHostname. -/

def urldomain (url : Str) : Str := toLower (getHostname url)

theorem authority_cut (u : Url) :
    (let hostname := after u.text (str "://")
     if contains hostname (str "/") then before hostname (str "/") else hostname) = u.authority ++ u.query := by
  have rest : after u.text (str "://") = u.authority ++ u.tail := after_at rfl u.scheme_plain _
  show (if contains (after u.text (str "://")) [ch '/'] then before (after u.text (str "://")) [ch '/']
    else after u.text (str "://")) = _
  rw [rest, upTo_byte, takeWhile_front u.authority_slashless]
  rfl

theorem getHostname_text (u : Url) : getHostname u.text = behindUser (u.authority ++ u.query) := by
  have scheme : contains u.text (str "://") = true := contains_at rfl u.scheme_plain _
  unfold getHostname
  rw [if_pos scheme]
  exact congrArg behindUser (authority_cut u)

/-- The tail is no part of the authority for the code, or repeats the host behind a user. -/
def KeepsHost (u : Url) : Prop :=
  u.tail = [] ∨ u.tail.head? = some (ch '/') ∨
    (u.userinfo = none ∧ ∃ front, ch '@' ∉ front ∧ u.query = front ++ ch '@' :: u.hostPort)

/-- The host is found exactly when the tail starts with a slash, but for tails that repeat the host. -/
theorem hostname_exact_iff (u : Url) :
    (getHostname u.text = u.hostPort ∧ urldomain u.text = toLower u.hostPort) ↔ KeepsHost u := by
  have domain : getHostname u.text = u.hostPort → urldomain u.text = toLower u.hostPort := congrArg toLower
  rw [and_iff_left_of_imp domain, getHostname_text, KeepsHost, ← or_assoc, ← u.query_nil_iff, Url.authority]
  have plain := u.hostPort_plain (ch '@') (by decide)
  cases given : u.userinfo with
  | some user =>
    simp only [List.append_assoc, List.cons_append]
    rw [behindUser_at (u.user_plain user given (ch '@') (by decide))]
    simp
  | none =>
    by_cases at_ : ch '@' ∈ u.query
    · obtain ⟨front, rest, parts, absent⟩ := List.eq_append_cons_of_mem at_
      have all : u.hostPort ++ u.query = (u.hostPort ++ front) ++ ch '@' :: rest := by simp [parts]
      simp only
      rw [all, behindUser_at (by simp [plain, absent]), parts]
      constructor
      · intro same
        exact .inr ⟨trivial, front, absent, by rw [same]⟩
      · intro kept
        rcases kept with none_ | ⟨-, other, absent', same⟩
        · simp at none_
        · exact ((cut_unique absent absent').mp same).2
    · simp only
      rw [behindUser_none (by simp [plain, at_])]
      constructor
      · intro same
        exact .inl (List.append_right_eq_self.mp same)
      · intro kept
        rcases kept with none_ | ⟨-, front, -, same⟩
        · rw [none_, List.append_nil]
        · exact absurd (same ▸ by simp) at_

def disguised : Url where
  scheme := str "http"
  userinfo := none
  host := str "evil.com"
  port := none
  tail := str "?@good.com/"
  scheme_plain := by decide
  user_plain := by simp
  host_plain := by decide +kernel
  port_digits := by simp
  tail_starts := by simp [str]

theorem disguised_host : ¬ (getHostname disguised.text = disguised.hostPort ∧
    urldomain disguised.text = toLower disguised.hostPort) := by
  decide

/- malformedURL. -/

def isLetter (c : UInt8) : Bool := (ch 'a' ≤ c && c ≤ ch 'z') || (ch 'A' ≤ c && c ≤ ch 'Z')

def hostByte (c : UInt8) : Bool := isLetter c || isDigit c || c == ch '.' || c == ch '-' || c == ch '_'

def numericByte (c : UInt8) : Bool :=
  isDigit c || c == ch '.' || c == ch 'x' || c == ch 'X' || (ch 'a' ≤ c && c ≤ ch 'f') || (ch 'A' ≤ c && c ≤ ch 'F')

def letterFirst (hostpart : Str) : Bool := hostpart.head?.any isLetter

def obfuscated (hostpart : Str) : Bool :=
  (hostpart.head? == some (ch '0') && decide (1 < hostpart.length)) ||
    decide (toInteger hostpart < 0) || decide (255 < toInteger hostpart)

def hostPart (host : Str) : Str := if contains host (str ".") then before host (str ".") else host

def partLoop (host : Str) (obfuscation : Bool) : Bool :=
  if letterFirst (hostPart host) then false
  else if contains host (str ".") then partLoop (after host (str ".")) (obfuscation || obfuscated (hostPart host))
  else obfuscation || obfuscated (hostPart host)
termination_by host.length
decreasing_by
  rename_i dotted
  exact after_length_lt dotted (by decide)

def malformedHost (host : Str) : Bool :=
  if contains host (str "..") then true
  else if host.any (fun c => !hostByte c) then true
  else if host.any (fun c => !numericByte c) then false -- no IP obfuscation going on
  else partLoop (if endsWith host (str ".") then chop host else host) false

def malformedURL (url : Str) : Bool :=
  let host := after url (str "://")
  let host := if contains host (str "/") then before host (str "/") else host
  if host.length < 2 then true
  else malformedHost (if contains host (str ":") then before host (str ":") else host)

def labels (host : Str) : List Str := (if endsWith host (str ".") then chop host else host).splitOn (ch '.')

def canonicalLabel (label : Str) : Bool :=
  !label.isEmpty && label.all isDigit && decide (decimal label ≤ 255) &&
    (decide (label.length = 1) || label.head? != some (ch '0'))

/-- A dotted quad: four decimal labels of value 0 to 255 without leading zeros. -/
def canonicalQuad (host : Str) : Bool := decide ((labels host).length = 4) && (labels host).all canonicalLabel

/-- The name is refused for its bytes, or as an address with an odd part. -/
def RefusedName (name : Str) : Prop :=
  contains name (str "..") = true ∨ (∃ c ∈ name, hostByte c = false) ∨
    ((∀ c ∈ name, numericByte c = true) ∧ (∀ part ∈ labels name, letterFirst part = false) ∧
      ∃ part ∈ labels name, obfuscated part = true)

/-- Without a user, the host is refused for a part that is odd, or for what is taken for a part of it. With one, the
    name in front of a password is looked at and the host is not. -/
def Refused (u : Url) : Prop := match u.userinfo with
  | none => (u.hostPort ++ u.query).length < 2 ∨ contains u.host (str "..") = true ∨ (u.port = none ∧ u.query ≠ []) ∨
      ∃ part ∈ labels u.host, obfuscated part = true
  | some user => ch ':' ∉ user ∨ RefusedName (user.takeWhile (· != ch ':'))

theorem splitOn_cut {s : Str} {c : UInt8} (inside : c ∈ s) :
    s.splitOn c = before s [c] :: (after s [c]).splitOn c := by
  obtain ⟨front, rest, parts, absent⟩ := List.eq_append_cons_of_mem inside
  have first : before s [c] = front := by rw [parts]; exact before_at rfl absent rest
  have second : after s [c] = rest := by rw [parts]; exact after_at rfl absent rest
  rw [first, second, parts, List.splitOn_append_cons_self_of_not_mem absent]

theorem firstPart (host : Str) : hostPart host ∈ host.splitOn (ch '.') ∧
    (contains host (str ".") = true → host.splitOn (ch '.') = hostPart host :: (after host (str ".")).splitOn (ch '.')) ∧
    (¬ contains host (str ".") = true → host.splitOn (ch '.') = [hostPart host]) := by
  unfold hostPart
  by_cases inside : ch '.' ∈ host
  · have dotted : contains host (str ".") = true := (contains_byte_iff host (ch '.')).mpr inside
    have parts : host.splitOn (ch '.') = before host (str ".") :: (after host (str ".")).splitOn (ch '.') :=
      splitOn_cut inside
    rw [if_pos dotted, parts]
    exact ⟨List.mem_cons_self, fun _ => rfl, fun dotless => absurd dotted dotless⟩
  · have dotless : ¬ contains host (str ".") = true := fun dotted => inside ((contains_byte_iff host (ch '.')).mp dotted)
    rw [if_neg dotless, List.splitOn_eq_singleton inside]
    exact ⟨List.mem_singleton_self _, fun dotted => absurd dotted dotless, fun _ => rfl⟩

/-- Nothing is found out before the loop has seen that no part starts with a letter. -/
theorem partLoop_iff (host : Str) (obfuscation : Bool) : partLoop host obfuscation = true ↔
    (∀ part ∈ host.splitOn (ch '.'), letterFirst part = false) ∧
      (obfuscation = true ∨ ∃ part ∈ host.splitOn (ch '.'), obfuscated part = true) := by
  induction host, obfuscation using partLoop.induct with
  | case1 host obfuscation letter =>
    rw [partLoop, if_pos letter]
    refine iff_of_false Bool.false_ne_true fun all => ?_
    rw [all.1 (hostPart host) (firstPart host).1] at letter
    cases letter
  | case2 host obfuscation letter dotted ih =>
    have parts := (firstPart host).2.1 dotted
    have plain : letterFirst (hostPart host) = false := by simpa using letter
    rw [partLoop, if_neg letter, if_pos dotted, ih, parts, List.forall_mem_cons, List.exists_mem_cons_iff,
      and_iff_right plain, Bool.or_eq_true, or_assoc]
  | case3 host obfuscation letter dotless =>
    have parts := (firstPart host).2.2 dotless
    have plain : letterFirst (hostPart host) = false := by simpa using letter
    rw [partLoop, if_neg letter, if_neg dotless, parts, List.forall_mem_singleton, List.exists_mem_cons_iff,
      and_iff_right plain, Bool.or_eq_true]
    simp

theorem malformedHost_iff (name : Str) : malformedHost name = true ↔ RefusedName name := by
  unfold malformedHost RefusedName
  by_cases dots : contains name (str "..") = true
  · simp [dots]
  rw [if_neg dots]
  by_cases bytes : name.any (fun c => !hostByte c) = true
  · rw [if_pos bytes]
    simp only [List.any_eq_true, Bool.not_eq_true'] at bytes
    exact iff_of_true rfl (.inr (.inl bytes))
  rw [if_neg bytes]
  have allowed : ¬ ∃ c ∈ name, hostByte c = false := by simpa using bytes
  by_cases letters : name.any (fun c => !numericByte c) = true
  · rw [if_pos letters]
    refine iff_of_false Bool.false_ne_true fun refused => ?_
    rcases refused with other | other | ⟨numeric, -⟩
    · exact dots other
    · exact allowed other
    · obtain ⟨c, member, odd⟩ := List.any_eq_true.mp letters
      rw [numeric c member] at odd
      cases odd
  · have numeric : ∀ c ∈ name, numericByte c = true := by simpa using letters
    rw [if_neg letters, partLoop_iff]
    constructor
    · rintro ⟨plain, first | odd⟩
      · cases first
      · exact .inr (.inr ⟨numeric, plain, odd⟩)
    · rintro (other | other | ⟨-, plain, odd⟩)
      · exact absurd other dots
      · exact absurd other allowed
      · exact ⟨plain, .inr odd⟩

theorem numeric_hostByte {c : UInt8} (numeric : numericByte c = true) : hostByte c = true := by
  simp only [numericByte, hostByte, isLetter, isDigit, Bool.or_eq_true, Bool.and_eq_true, decide_eq_true_eq, beq_iff_eq] at *
  have up : c ≤ ch 'f' → c ≤ ch 'z' := fun below => UInt8.le_trans below (by decide)
  have capital : c ≤ ch 'F' → c ≤ ch 'Z' := fun below => UInt8.le_trans below (by decide)
  rcases numeric with ((((digit | dot) | x) | x) | low) | high
  · exact .inl (.inl (.inl (.inr digit)))
  · exact .inl (.inl (.inr dot))
  · rw [x]
    decide
  · rw [x]
    decide
  · exact .inl (.inl (.inl (.inl (.inl ⟨low.1, up low.2⟩))))
  · exact .inl (.inl (.inl (.inl (.inr ⟨high.1, capital high.2⟩))))

theorem malformedURL_text (u : Url) : malformedURL u.text = true ↔
    (u.authority ++ u.query).length < 2 ∨ RefusedName ((u.authority ++ u.query).takeWhile (· != ch ':')) := by
  have cut := authority_cut u
  simp only at cut
  unfold malformedURL
  simp only
  rw [cut]
  have colon : (if contains (u.authority ++ u.query) (str ":") = true then before (u.authority ++ u.query) (str ":")
      else u.authority ++ u.query) = (u.authority ++ u.query).takeWhile (· != ch ':') := upTo_byte _ _
  by_cases short : (u.authority ++ u.query).length < 2
  · rw [if_pos short]
    exact iff_of_true rfl (.inl short)
  · rw [if_neg short, colon, malformedHost_iff, or_iff_right short]

theorem malformedURL_iff (u : Url) (spelled : ∀ c ∈ u.host, numericByte c = true)
    (noName : ∀ part ∈ labels u.host, letterFirst part = false) : malformedURL u.text = true ↔ Refused u := by
  rw [malformedURL_text, Refused, Url.authority]
  have colonless : ch ':' ∉ u.host := fun member => absurd (spelled _ member) (by decide)
  cases given : u.userinfo with
  | none =>
    simp only
    refine or_congr_right ?_
    have host : RefusedName u.host ↔ contains u.host (str "..") = true ∨ ∃ part ∈ labels u.host, obfuscated part = true := by
      have allowed : ¬ ∃ c ∈ u.host, hostByte c = false := by
        rintro ⟨c, member, bad⟩
        rw [numeric_hostByte (spelled c member)] at bad
        cases bad
      rw [RefusedName, or_iff_right (a := ∃ c ∈ u.host, hostByte c = false) allowed, and_iff_right spelled, and_iff_right noName]
    cases port : u.port with
    | some p =>
      have seen : (u.hostPort ++ u.query).takeWhile (· != ch ':') = u.host := by
        rw [Url.hostPort, port, List.append_assoc, takeWhile_front colonless]
        simp
      rw [seen, host]
      simp
    | none =>
      have seen : (u.hostPort ++ u.query).takeWhile (· != ch ':') = u.host ++ u.query.takeWhile (· != ch ':') := by
        rw [Url.hostPort, port]
        simp only [List.append_nil]
        exact takeWhile_front colonless
      rw [seen]
      by_cases none_ : u.query = []
      · rw [none_, List.takeWhile_nil, List.append_nil, host]
        simp
      · obtain ⟨b, rest, query, bad⟩ := u.query_head none_
        have mark : b ≠ ch ':' ∧ hostByte b = false := by
          rcases bad with rfl | rfl <;> decide
        rw [query, List.takeWhile_cons_of_pos (by simpa using mark.1)]
        exact iff_of_true (.inr (.inl ⟨b, by simp, mark.2⟩)) (.inr (.inl ⟨rfl, List.cons_ne_nil _ _⟩))
  | some user =>
    simp only [List.append_assoc, List.cons_append]
    by_cases colon : ch ':' ∈ user
    · obtain ⟨name, password, parts, absent⟩ := List.eq_append_cons_of_mem colon
      have long : ¬ (user ++ ch '@' :: (u.hostPort ++ u.query)).length < 2 := by
        rw [parts]
        simp only [List.length_append, List.length_cons]
        omega
      have whole : user.takeWhile (· != ch ':') = name := by
        rw [parts, takeWhile_front absent]
        simp
      have seen : (user ++ ch '@' :: (u.hostPort ++ u.query)).takeWhile (· != ch ':') = name := by
        rw [parts, List.append_assoc, takeWhile_front absent]
        simp
      rw [or_iff_right long, or_iff_right (not_not_intro colon), whole, seen]
    · refine iff_of_true (.inr (.inr (.inl ⟨ch '@', ?_, by decide⟩))) (.inl colon)
      rw [takeWhile_front colon, List.takeWhile_cons_of_pos (by decide)]
      simp

/-- Exactly the refused spellings are no way round: a host that is not a dotted quad passes unless one of its labels
    starts with zero or is read as a number out of range, modulo 2^32. -/
theorem quad_only_iff (u : Url) (spelled : ∀ c ∈ u.host, numericByte c = true)
    (noName : ∀ part ∈ labels u.host, letterFirst part = false) :
    (malformedURL u.text = false → canonicalQuad u.host = true) ↔ canonicalQuad u.host = true ∨ Refused u := by
  rw [← malformedURL_iff u spelled noName]
  cases malformedURL u.text <;> simp

def twoParts : Url where
  scheme := str "http"
  userinfo := none
  host := str "127.1"
  port := none
  tail := str "/"
  scheme_plain := by decide
  user_plain := by simp
  host_plain := by decide +kernel
  port_digits := by simp
  tail_starts := by simp [str]

theorem two_parts_refused_iff : (malformedURL twoParts.text = false → canonicalQuad twoParts.host = true) ↔
    canonicalQuad twoParts.host = true ∨ Refused twoParts :=
  quad_only_iff twoParts (by decide +kernel) (by decide +kernel)

theorem two_parts_pass : ¬ ((∀ c ∈ twoParts.host, numericByte c = true) →
    (∀ part ∈ labels twoParts.host, letterFirst part = false) → malformedURL twoParts.text = false →
    canonicalQuad twoParts.host = true) := by
  intro quad
  have spelled : ∀ c ∈ twoParts.host, numericByte c = true := by decide +kernel
  have noName : ∀ part ∈ labels twoParts.host, letterFirst part = false := by decide
  have passed : malformedURL twoParts.text = false := by
    rw [← Bool.not_eq_true, malformedURL_iff twoParts spelled noName]
    rintro (short | dots | ⟨-, query⟩ | odd)
    · exact absurd short (by decide)
    · exact absurd dots (by decide)
    · exact query rfl
    · exact absurd odd (by decide)
  exact absurd (quad spelled noName passed) (by decide)

end GuardianUrlHosts
