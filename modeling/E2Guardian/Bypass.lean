import Mathlib.Logic.Equiv.Basic
import E2Guardian.Strings

/- Temporary bypass tokens: the hash that ConnectionHandler puts into the link of the banned
   page and into the cookie that follows, and the checks that accept them. The digest is a
   function of the text it is taken of; the clock is given in seconds. -/
namespace GuardianBypass
open GuardianString

structure FilterGroup where
  bypass_mode : Int
  infection_bypass_mode : Int
  magic : Str
  imagic : Str
  cookie_magic : Str
  cgi_magic : Str
  bypass_v2 : Bool
  cgi_bypass_v2 : Bool

def toLong (s : Str) : Int := max (-2 ^ 63) (min (2 ^ 63 - 1) (signedDecimal (s.dropWhile isSpace)))

def marker (infectionbypass : Bool) : Str := str (if infectionbypass then "GIBYPASS=" else "GBYPASS=")

section Tokens
variable (md5 : Str → Str)

def salted (text salt : Str) : Str := md5 (text ++ cstr salt)

def withSlash (url : Str) : Str :=
  if contains (after url (str "://")) (str "/") then url else url ++ str "/"

def keyOf (fg : FilterGroup) (infectionbypass : Bool) : Str :=
  cstr (if infectionbypass then fg.imagic else fg.magic)

def timecodeOf (fg : FilterGroup) (now : Int) (infectionbypass : Bool) : Str :=
  ofInt (now + if infectionbypass then fg.infection_bypass_mode else fg.bypass_mode)

def urlHash (fg : FilterGroup) (now : Int) (url clientip : Str) (infectionbypass : Bool) (user : Str) : Str :=
  salted md5 (withSlash url)
    (keyOf fg infectionbypass ++ cstr clientip ++ (if fg.bypass_v2 then cstr user else []) ++
      timecodeOf fg now infectionbypass)

def hashedURL (fg : FilterGroup) (now : Int) (url clientip : Str) (infectionbypass : Bool) (user : Str) : Str :=
  marker infectionbypass ++ urlHash md5 fg now url clientip infectionbypass user ++
    timecodeOf fg now infectionbypass

def cookieHash (url magic clientip clientuser : Str) (bypasstimestamp : Int) : Str :=
  salted md5 url (cstr magic ++ cstr clientip ++ clientuser ++ ofInt bypasstimestamp)

def hashedCookie (url magic clientip clientuser : Str) (bypasstimestamp : Int) : Str :=
  cookieHash md5 url magic clientip clientuser bypasstimestamp ++ ofInt bypasstimestamp

structure Presented where
  url_left : Str
  url_hash : Str
  url_time : Str
  deriving DecidableEq, Repr

/-- The sign before the token goes as well; too short URLs and those without a token give none. -/
def present (infectionbypass : Bool) (url : Str) : Option Presented :=
  if url.length ≤ 45 then none
  else if contains url (marker infectionbypass) then
    let url_right := after url (marker infectionbypass)
    let url_hash := url_right.take 32
    some ⟨chop (before url (marker infectionbypass)), url_hash, after url_right (cstr url_hash)⟩
  else none

def approved (fg : FilterGroup) (hash : Str) : Str :=
  if fg.cgi_bypass_v2 then salted md5 hash fg.cgi_magic else hash

/-- The time until which the URL may be used, 1 if that is over, 0 if there is no valid token. -/
def isBypassURL (fg : FilterGroup) (now : Int) (url magic clientip : Str) (infectionbypass : Bool) (user : Str) :
    Int :=
  match present infectionbypass url with
  | none => 0
  | some ⟨url_left, url_hash, url_time⟩ =>
    let mymagic := cstr magic ++ cstr clientip ++ (if fg.bypass_v2 then user else []) ++ url_time
    if approved md5 fg (salted md5 url_left mymagic) ≠ url_hash then 0
    else
      let timeu := toLong url_time
      if timeu < 1 then 1 -- bad time value
      else if timeu < now then 1 -- expired
      else timeu.bmod (2 ^ 32)

def startsWithLower (s bs : Str) : Bool := startsWith (toLower s) bs

/-- The value of a cookie as the last cookie header gives it; a header without the cookie
gives all of its text. -/
def getCookie (header : List Str) (cookie : Str) : Str :=
  let line := header.foldl (fun line i =>
    if startsWithLower i (str "cookie:") then
      let text := after i (str ": ")
      if contains text cookie then
        let value := (after text cookie).tail -- without the equals sign
        if contains value (str ";") then before value (str ";") else value
      else text
    else line) []
  removeWhiteSpace line

def domainsLoop : Nat → Str → List Str
  | 0, _ => []
  | fuel + 1, url => if contains url (str ".") then url :: domainsLoop fuel (after url (str ".")) else []

def domains (url : Str) : List Str := domainsLoop (url.length + 1) url

def cookieHashFor (cookie domain magic clientip user : Str) : Str :=
  salted md5 domain (cstr magic ++ cstr clientip ++ cstr user ++ after cookie (cstr (cookie.take 32)))

def isBypassCookie (header : List Str) (now : Int) (url magic clientip user : Str) : Bool :=
  let cookie := getCookie header (str "GBYPASS")
  if cookie.length = 0 then false
  else if (domains url).any fun domain => cookieHashFor md5 cookie domain magic clientip user == cookie.take 32 then
    toLong (after cookie (cstr (cookie.take 32))) ≥ now
  else false

end Tokens

/- What a token is bound to. -/
section Binding

structure Fields where
  url : Str
  ip : Str
  user : Str
  time : Str
  deriving DecidableEq, Repr

def hashedText (magic : Str) (f : Fields) : Str := f.url ++ cstr (magic ++ f.ip ++ f.user ++ f.time)

def Fields.cutUser (f : Fields) : Fields := { f with user := cstr f.user }

structure SameCut (f g : Fields) : Prop where
  url : f.url.length = g.url.length
  ip : f.ip.length = g.ip.length
  user : f.user.length = g.user.length
  time : f.time.length = g.time.length
  user_left : 0 ∉ f.user
  user_right : 0 ∉ g.user
  time_right : 0 ∉ g.time

theorem hashedText_clean {magic : Str} {f : Fields} (key : 0 ∉ magic) (ip : 0 ∉ f.ip) (user : 0 ∉ f.user)
    (time : 0 ∉ f.time) : hashedText magic f = f.url ++ (magic ++ (f.ip ++ (f.user ++ f.time))) := by
  rw [hashedText, cstr_of_nul_free (by simp [key, ip, user, time]), List.append_assoc, List.append_assoc]

theorem fields_eq_of_cut {magic : Str} {f g : Fields} (key : 0 ∉ magic) (ipf : 0 ∉ f.ip) (ipg : 0 ∉ g.ip)
    (time : 0 ∉ f.time) (cut : SameCut f g) (same : hashedText magic f = hashedText magic g) : f = g := by
  rw [hashedText_clean key ipf cut.user_left time, hashedText_clean key ipg cut.user_right cut.time_right] at same
  obtain ⟨url, rest⟩ := List.append_inj same cut.url
  obtain ⟨ip, rest⟩ := List.append_inj (List.append_cancel_left rest) cut.ip
  obtain ⟨user, time⟩ := List.append_inj rest cut.user
  cases f
  cases g
  simp_all

theorem cstr_append_nul {a b : Str} (nul : 0 ∈ a) : cstr (a ++ b) = cstr a := by
  induction a with
  | nil => simp at nul
  | cons x a ih =>
    by_cases zero : x = 0
    · simp [cstr, zero]
    · have inside : 0 ∈ a := (List.mem_cons.mp nul).resolve_left fun same => zero same.symm
      simp only [cstr, List.cons_append, List.takeWhile_cons, bne_iff_ne, ne_eq, zero, not_false_eq_true,
        ↓reduceIte]
      exact congrArg (x :: ·) (ih inside)

/-- With a time behind it, a user name is hashed as a C string only if it is one. -/
theorem user_clean {magic : Str} {f : Fields} (key : 0 ∉ magic) (ip : 0 ∉ f.ip) (time : 0 ∉ f.time)
    (some_ : f.time ≠ []) (same : hashedText magic f.cutUser = hashedText magic f) : 0 ∉ f.user := by
  intro nul
  have whole : hashedText magic f.cutUser = f.url ++ (magic ++ (f.ip ++ (cstr f.user ++ f.time))) :=
    hashedText_clean (f := f.cutUser) key ip (cstr_nul_free _) time
  rw [whole, hashedText, List.append_assoc, List.append_assoc, cstr_append key, cstr_append ip,
    cstr_append_nul nul] at same
  have rest : cstr f.user ++ f.time = cstr f.user :=
    List.append_cancel_left (List.append_cancel_left (List.append_cancel_left same))
  exact some_ (List.append_right_eq_self.mp rest)

theorem cut_of_clean {f : Fields} (user : 0 ∉ f.user) (time : 0 ∉ f.time) : SameCut f f :=
  ⟨rfl, rfl, rfl, rfl, user, user, time⟩

section Links
variable (md5 : Str → Str) (fg : FilterGroup) (infectionbypass : Bool)

def issuedFields (issue : Int) (url clientip user : Str) : Fields :=
  ⟨withSlash url, cstr clientip, if fg.bypass_v2 then user else [], timecodeOf fg issue infectionbypass⟩

def presentedFields (p : Presented) (clientip user : Str) : Fields :=
  ⟨p.url_left, cstr clientip, if fg.bypass_v2 then user else [], p.url_time⟩

def Unexpired (now : Int) (time : Str) : Prop :=
  1 ≤ toLong time ∧ now ≤ toLong time ∧ 1 < (toLong time).bmod (2 ^ 32)

theorem urlHash_eq (issue : Int) (url clientip user : Str) :
    urlHash md5 fg issue url clientip infectionbypass user =
      md5 (hashedText (keyOf fg infectionbypass)
        (issuedFields fg infectionbypass issue url clientip user).cutUser) := by
  unfold urlHash salted hashedText issuedFields Fields.cutUser
  cases fg.bypass_v2 <;> rfl

theorem keyOf_nul_free : 0 ∉ keyOf fg infectionbypass := cstr_nul_free _

theorem isBypassURL_accepts_iff (now : Int) {url : Str} (clientip user : Str) {p : Presented}
    (shown : present infectionbypass url = some p) :
    1 < isBypassURL md5 fg now url (if infectionbypass then fg.imagic else fg.magic) clientip infectionbypass user ↔
      approved md5 fg (md5 (hashedText (keyOf fg infectionbypass) (presentedFields fg p clientip user))) =
        p.url_hash ∧ Unexpired now p.url_time := by
  have salt : salted md5 p.url_left (cstr (if infectionbypass then fg.imagic else fg.magic) ++ cstr clientip ++
      (if fg.bypass_v2 then user else []) ++ p.url_time) =
        md5 (hashedText (keyOf fg infectionbypass) (presentedFields fg p clientip user)) := rfl
  simp only [isBypassURL, shown, salt, Unexpired]
  split
  · rename_i other
    simp [other]
  · rename_i same
    have hash := of_not_not same
    simp only [hash, true_and]
    split
    · omega
    · split
      · omega
      · omega

/-- The digest of the link's text is that of the request's, if the link is what is presented. -/
theorem approved_injective (injective : Function.Injective md5) {a b : Str}
    (same : approved md5 fg (md5 a) = approved md5 fg (md5 b)) : a = b := by
  unfold approved at same
  split at same
  · exact injective (List.append_cancel_right (injective same))
  · exact injective same

/-- A link that is accepted was issued for the URL, the address, the user and the time of the
request. -/
def UrlBound (issue : Int) (url clientip user : Str) (now : Int) (url' clientip' user' : Str) : Prop :=
  ∀ p, present infectionbypass url' = some p →
    p.url_hash = approved md5 fg (urlHash md5 fg issue url clientip infectionbypass user) →
    1 < isBypassURL md5 fg now url' (if infectionbypass then fg.imagic else fg.magic) clientip' infectionbypass
      user' →
    issuedFields fg infectionbypass issue url clientip user = presentedFields fg p clientip' user'

/-- The fields of the request are those of the token with nothing moved from one to another. -/
def UrlNotRecut (issue : Int) (url clientip user : Str) (now : Int) (url' clientip' user' : Str) : Prop :=
  ∀ p, present infectionbypass url' = some p →
    p.url_hash = approved md5 fg (urlHash md5 fg issue url clientip infectionbypass user) →
    Unexpired now p.url_time →
    hashedText (keyOf fg infectionbypass) (issuedFields fg infectionbypass issue url clientip user).cutUser =
      hashedText (keyOf fg infectionbypass) (presentedFields fg p clientip' user') →
    SameCut (issuedFields fg infectionbypass issue url clientip user) (presentedFields fg p clientip' user')

theorem cutUser_of_clean {f : Fields} (user : 0 ∉ f.user) : f.cutUser = f := by
  rw [Fields.cutUser, cstr_of_nul_free user]

theorem urlBound_iff (injective : Function.Injective md5) (issue : Int) (url clientip user : Str) (now : Int)
    (url' clientip' user' : Str) :
    UrlBound md5 fg infectionbypass issue url clientip user now url' clientip' user' ↔
      UrlNotRecut md5 fg infectionbypass issue url clientip user now url' clientip' user' := by
  have key := keyOf_nul_free fg infectionbypass
  have time : 0 ∉ (issuedFields fg infectionbypass issue url clientip user).time := ofInt_nul_free _
  constructor
  · intro bound p shown carried valid same
    have hash : approved md5 fg (md5 (hashedText (keyOf fg infectionbypass) (presentedFields fg p clientip' user'))) =
        p.url_hash := by rw [carried, urlHash_eq, same]
    have equal := bound p shown carried
      ((isBypassURL_accepts_iff md5 fg infectionbypass now clientip' user' shown).mpr ⟨hash, valid⟩)
    rw [← equal] at same ⊢
    exact cut_of_clean (user_clean key (cstr_nul_free _) time (ofInt_ne_nil _) same) time
  · intro fixed p shown carried accepted
    obtain ⟨hash, valid⟩ :=
      (isBypassURL_accepts_iff md5 fg infectionbypass now clientip' user' shown).mp accepted
    rw [carried, urlHash_eq] at hash
    have same := approved_injective md5 fg injective hash
    have cut := fixed p shown carried valid same.symm
    rw [cutUser_of_clean cut.user_left] at same
    exact fields_eq_of_cut key (cstr_nul_free _) (cstr_nul_free _) time cut same.symm

end Links

section Cookies
variable (md5 : Str → Str) (magic : Str)

def cookieFields (url clientip clientuser : Str) (bypasstimestamp : Int) : Fields :=
  ⟨url, cstr clientip, clientuser, ofInt bypasstimestamp⟩

def cookieTime (cookie : Str) : Str := after cookie (cstr (cookie.take 32))

def domainFields (cookie domain clientip user : Str) : Fields := ⟨domain, cstr clientip, user, cookieTime cookie⟩

theorem cookieHash_eq (url clientip clientuser : Str) (bypasstimestamp : Int) :
    cookieHash md5 url magic clientip clientuser bypasstimestamp =
      md5 (hashedText (cstr magic) (cookieFields url clientip clientuser bypasstimestamp)) := rfl

theorem cookieHashFor_eq (cookie domain clientip user : Str) :
    cookieHashFor md5 cookie domain magic clientip user =
      md5 (hashedText (cstr magic) (domainFields cookie domain clientip user).cutUser) := rfl

/-- A cookie that is accepted was made for the address, the user and the time of the request,
and for each domain of the request for which its hash is accepted. -/
def CookieBound (url clientip clientuser : Str) (bypasstimestamp : Int) (header : List Str) (now : Int)
    (url' clientip' user' : Str) : Prop :=
  (getCookie header (str "GBYPASS")).take 32 = cookieHash md5 url magic clientip clientuser bypasstimestamp →
    isBypassCookie md5 header now url' magic clientip' user' = true →
    ∀ domain ∈ domains url',
      cookieHashFor md5 (getCookie header (str "GBYPASS")) domain magic clientip' user' =
        (getCookie header (str "GBYPASS")).take 32 →
      cookieFields url clientip clientuser bypasstimestamp =
        domainFields (getCookie header (str "GBYPASS")) domain clientip' user'

def CookieNotRecut (url clientip clientuser : Str) (bypasstimestamp : Int) (header : List Str) (now : Int)
    (url' clientip' user' : Str) : Prop :=
  (getCookie header (str "GBYPASS")).take 32 = cookieHash md5 url magic clientip clientuser bypasstimestamp →
    getCookie header (str "GBYPASS") ≠ [] → now ≤ toLong (cookieTime (getCookie header (str "GBYPASS"))) →
    ∀ domain ∈ domains url',
      hashedText (cstr magic) (cookieFields url clientip clientuser bypasstimestamp) =
        hashedText (cstr magic) (domainFields (getCookie header (str "GBYPASS")) domain clientip' user').cutUser →
      SameCut (cookieFields url clientip clientuser bypasstimestamp)
        (domainFields (getCookie header (str "GBYPASS")) domain clientip' user')

theorem isBypassCookie_iff (header : List Str) (now : Int) (url clientip user : Str) :
    isBypassCookie md5 header now url magic clientip user = true ↔
      getCookie header (str "GBYPASS") ≠ [] ∧
        (∃ domain ∈ domains url, cookieHashFor md5 (getCookie header (str "GBYPASS")) domain magic clientip user =
          (getCookie header (str "GBYPASS")).take 32) ∧
        now ≤ toLong (cookieTime (getCookie header (str "GBYPASS"))) := by
  simp only [isBypassCookie, cookieTime]
  split
  · rename_i empty
    simp [List.length_eq_zero_iff.mp empty]
  · rename_i given
    have some_ : getCookie header (str "GBYPASS") ≠ [] := fun empty => given (by simp [empty])
    split
    · rename_i found
      simp only [List.any_eq_true, beq_iff_eq] at found
      simp [some_, found]
    · rename_i missed
      simp only [List.any_eq_true, beq_iff_eq] at missed
      simp [missed]

theorem cookieBound_iff (injective : Function.Injective md5) (url clientip clientuser : Str) (bypasstimestamp : Int)
    (header : List Str) (now : Int) (url' clientip' user' : Str) :
    CookieBound md5 magic url clientip clientuser bypasstimestamp header now url' clientip' user' ↔
      CookieNotRecut md5 magic url clientip clientuser bypasstimestamp header now url' clientip' user' := by
  have time : 0 ∉ (cookieFields url clientip clientuser bypasstimestamp).time := ofInt_nul_free _
  constructor
  · intro bound carried given valid domain looked same
    have hash : cookieHashFor md5 (getCookie header (str "GBYPASS")) domain magic clientip' user' =
        (getCookie header (str "GBYPASS")).take 32 := by
      rw [carried, cookieHash_eq, cookieHashFor_eq, same]
    have accepted := (isBypassCookie_iff md5 magic header now url' clientip' user').mpr
      ⟨given, ⟨domain, looked, hash⟩, valid⟩
    have equal := bound carried accepted domain looked hash
    rw [← equal] at same ⊢
    exact cut_of_clean (user_clean (cstr_nul_free _) (cstr_nul_free _) time (ofInt_ne_nil _) same.symm) time
  · intro fixed carried accepted domain looked hash
    obtain ⟨given, -, valid⟩ := (isBypassCookie_iff md5 magic header now url' clientip' user').mp accepted
    rw [carried, cookieHash_eq, cookieHashFor_eq] at hash
    have same := injective hash
    have cut := fixed carried given valid domain looked same.symm
    rw [cutUser_of_clean cut.user_right] at same
    exact fields_eq_of_cut (cstr_nul_free _) (cstr_nul_free _) (cstr_nul_free _) time cut same.symm

end Cookies

/-- Links and cookies are bound to what they were made for, exactly if no request has the same
bytes as the token cut into fields at other places. -/
theorem tokens_bound_iff_not_recut (md5 : Str → Str) (injective : Function.Injective md5) :
    (∀ fg infectionbypass issue url clientip user now url' clientip' user',
      UrlBound md5 fg infectionbypass issue url clientip user now url' clientip' user' ↔
        UrlNotRecut md5 fg infectionbypass issue url clientip user now url' clientip' user') ∧
      ∀ magic url clientip clientuser bypasstimestamp header now url' clientip' user',
        CookieBound md5 magic url clientip clientuser bypasstimestamp header now url' clientip' user' ↔
          CookieNotRecut md5 magic url clientip clientuser bypasstimestamp header now url' clientip' user' :=
  ⟨fun fg infectionbypass => urlBound_iff md5 fg infectionbypass injective,
    fun magic => cookieBound_iff md5 magic injective⟩

def linkText : Str := str "http://a.com/ABCDEFGHIJKLMNOP10.0.0.121700000000"

def cookieText : Str := str "a.comQRSTUVWXYZABCDEF10.0.0.12bob1700000000"

def linkDigest : Str := str "9296889B7CDA42F433B0EF11026A015E"

def cookieDigest : Str := str "AC82D60A0E8FF9D72E26C2F9158838E4"

/-- A digest without collisions that is that of the two texts. -/
def sampleDigest : Equiv.Perm Str := (Equiv.swap linkText linkDigest).trans (Equiv.swap cookieText cookieDigest)

def sampleGroup : FilterGroup :=
  ⟨900, 900, str "ABCDEFGHIJKLMNOP", str "ABCDEFGHIJKLMNOP", str "QRSTUVWXYZABCDEF", [], false, false⟩

theorem link_bound_to_its_client :
    Function.Injective sampleDigest ∧
      UrlBound sampleDigest sampleGroup false 1699999100 (str "http://a.com") (str "10.0.0.12") [] 1699999200
        (str "http://a.com/?GBYPASS=" ++ linkDigest ++ str "1700000000") (str "10.0.0.12") [] := by
  refine ⟨sampleDigest.injective, ((tokens_bound_iff_not_recut sampleDigest sampleDigest.injective).1 _ _ _ _ _ _
    _ _ _ _).mpr ?_⟩
  intro p shown _ _ _
  have parts : present false (str "http://a.com/?GBYPASS=" ++ linkDigest ++ str "1700000000") =
      some ⟨str "http://a.com/", linkDigest, str "1700000000"⟩ := by decide
  rw [parts, Option.some.injEq] at shown
  subst shown
  exact ⟨by decide, by decide, by decide, by decide, by decide,
    by decide, by decide⟩

/-- The last digit of the address moves to the time, which so is far in the future, or to the
user: the tokens of 10.0.0.12 are accepted from 10.0.0.1. -/
theorem token_accepted_from_other_address :
    Function.Injective sampleDigest ∧
      ¬ UrlBound sampleDigest sampleGroup false 1699999100 (str "http://a.com") (str "10.0.0.12") [] 1699999200
        (str "http://a.com/?GBYPASS=" ++ linkDigest ++ str "21700000000") (str "10.0.0.1") [] ∧
      ¬ CookieBound sampleDigest sampleGroup.cookie_magic (str "a.com") (str "10.0.0.12") (str "bob") 1700000000
        [str "Cookie: GBYPASS=" ++ cookieDigest ++ str "1700000000"] 1699999200
        (str "a.com") (str "10.0.0.1") (str "2bob") := by
  refine ⟨sampleDigest.injective, ?_, ?_⟩
  · intro bound
    have same := bound ⟨str "http://a.com/", linkDigest, str "21700000000"⟩ (by decide) (by decide)
      (by decide)
    exact absurd same (by decide)
  · intro bound
    have same := bound (by decide) (by decide) (str "a.com") (by decide) (by decide)
    exact absurd same (by decide)

end Binding

end GuardianBypass
