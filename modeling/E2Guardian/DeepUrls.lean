import E2Guardian.StoryRun
import E2Guardian.Urls

/- The URLs that stand in a URL. The scan goes from colon to colon and makes a record of what stands
   behind each; the colon of a record that begins with a scheme is passed over. It gives up at the
   first rest that is short or has no dot. -/
namespace GuardianDeepUrls
open GuardianString GuardianUrls GuardianStoryRun

/- The scan ends. -/
theorem dropSlashes_suffix (s : Str) : dropSlashes s <:+ s := by
  induction s with
  | nil => exact List.suffix_rfl
  | cons b t ih =>
    rw [dropSlashes]
    split
    · exact ih.trans (List.suffix_cons b t)
    · exact List.suffix_rfl

def isSchemed (durl : Str) : Bool := startsWith durl (str "http:") || startsWith durl (str "https:")

def scanRest (durl : Str) : Str := if isSchemed durl then after durl (str ":") else durl

theorem scanRest_suffix (durl : Str) : scanRest durl <:+ durl := by
  unfold scanRest
  split
  · exact after_suffix _ _
  · exact List.suffix_rfl

def recordOf (durl : Str) : UrlRec :=
  ⟨durl, getHostname (removePTP durl), removePTP durl, removePTP durl == getHostname (removePTP durl),
    isIPHostnameStrip (getHostname (removePTP durl))⟩

theorem deepUrlsLoop_succ (fuel : Nat) (durl : Str) :
    deepUrlsLoop (fuel + 1) durl =
      if contains durl (str ":") ∧ contains (after durl (str ":")) (str ".") ∧
          5 < (dropSlashes (after durl (str ":"))).length then
        recordOf (dropSlashes (after durl (str ":"))) ::
          deepUrlsLoop fuel (scanRest (dropSlashes (after durl (str ":"))))
      else [] := by
  rw [deepUrlsLoop]
  by_cases colon : contains durl (str ":") = true
  · by_cases dot : contains (after durl (str ":")) (str ".") = true
    · by_cases long : 5 < (dropSlashes (after durl (str ":"))).length
      · simp only [colon, dot, long, and_self, if_true]
        rfl
      · simp only [colon, dot, long, and_false, if_true, if_false]
    · simp only [colon, dot, false_and, and_false, if_true, if_false, Bool.false_eq_true]
  · simp only [colon, false_and, if_false, Bool.false_eq_true]

theorem scan_shorter {durl : Str} (colon : contains durl (str ":") = true) :
    (scanRest (dropSlashes (after durl (str ":")))).length < durl.length :=
  ((scanRest_suffix _).trans (dropSlashes_suffix _)).length_le.trans_lt (after_length_lt colon (by decide))

theorem deepUrlsLoop_enough (fuel fuel' : Nat) (durl : Str) (enough : durl.length < fuel) (enough' : durl.length < fuel') :
    deepUrlsLoop fuel durl = deepUrlsLoop fuel' durl := by
  induction fuel generalizing fuel' durl with
  | zero => omega
  | succ fuel ih =>
    obtain ⟨fuel', rfl⟩ : ∃ n, fuel' = n + 1 := ⟨fuel' - 1, by omega⟩
    rw [deepUrlsLoop_succ, deepUrlsLoop_succ]
    split
    · rename_i goes
      have shorter := scan_shorter goes.1
      rw [ih fuel' _ (by omega) (by omega)]
    · rfl

/- What the name of a host is cut out of. -/

/-- The host is what stands in front of the first slash, behind a user if there is one. -/
def Site (text host : Str) : Prop :=
  let authority := text.takeWhile (· != ch '/')
  (authority = host ∧ ch '@' ∉ host) ∨ ∃ user, ch '@' ∉ user ∧ authority = user ++ ch '@' :: host

theorem front_of_slash (text : Str) :
    (if contains text (str "/") then before text (str "/") else text) = text.takeWhile (· != ch '/') := by
  rw [show str "/" = [ch '/'] from rfl, before_byte]
  simp only [contains_byte_iff]
  split
  · rfl
  · rename_i slashless
    refine (List.takeWhile_eq_self_iff.mpr fun b member => ?_).symm
    simp only [bne_iff_ne, ne_eq]
    exact fun same => slashless (same ▸ member)

theorem behindUser_eq_iff (authority host : Str) :
    behindUser authority = host ↔
      (authority = host ∧ ch '@' ∉ host) ∨ ∃ user, ch '@' ∉ user ∧ authority = user ++ ch '@' :: host := by
  unfold behindUser
  rw [show str "@" = [ch '@'] from rfl]
  simp only [contains_byte_iff]
  split
  · rename_i signed
    obtain ⟨user, rest, rfl, plain⟩ := List.eq_append_cons_of_mem signed
    have behind : after (user ++ ([ch '@'] ++ rest)) [ch '@'] = rest := after_at rfl plain rest
    rw [show user ++ ch '@' :: rest = user ++ ([ch '@'] ++ rest) from rfl, behind]
    constructor
    · rintro rfl
      exact .inr ⟨user, plain, rfl⟩
    · rintro (⟨rfl, absent⟩ | ⟨user', plain', same⟩)
      · exact absurd (List.mem_append_right _ List.mem_cons_self) absent
      · exact ((cut_unique plain plain').mp same).2
  · rename_i plain
    constructor
    · rintro rfl
      exact .inl ⟨rfl, plain⟩
    · rintro (⟨same, -⟩ | ⟨user, -, rfl⟩)
      · exact same
      · exact absurd (List.mem_append_right _ List.mem_cons_self) plain

theorem getHostname_eq_iff (s host : Str) :
    getHostname s = host ↔ Site (if contains s (str "://") then after s (str "://") else s) host := by
  show behindUser (if contains (if contains s (str "://") then after s (str "://") else s) (str "/") then
    before (if contains s (str "://") then after s (str "://") else s) (str "/") else
      if contains s (str "://") then after s (str "://") else s) = host ↔ _
  rw [front_of_slash, behindUser_eq_iff]
  rfl

/- What a text in front does to the scan of what follows it. -/
theorem startsWith_append {bs d t : Str} {c : UInt8} (front : d ≠ []) (head : t.head? = some c) (other : c ∉ bs.tail) :
    startsWith (d ++ t) bs = startsWith d bs := by
  rw [startsWith, startsWith, Bool.eq_iff_iff, List.isPrefixOf_iff_prefix, List.isPrefixOf_iff_prefix]
  refine ⟨?_, fun begins => begins.trans (List.prefix_append d t)⟩
  rintro ⟨r, same⟩
  rcases List.append_eq_append_iff.mp same with ⟨a, whole, -⟩ | ⟨a, whole, rest⟩
  · exact ⟨a, whole.symm⟩
  · cases a with
    | nil =>
      rw [whole, List.append_nil]
    | cons b a =>
      rw [rest] at head
      obtain rfl : b = c := Option.some.inj head
      obtain ⟨x, d, rfl⟩ := List.exists_cons_of_ne_nil front
      exact absurd (by rw [whole]; simp) other

theorem startsWith_byte (b c : UInt8) (t : Str) : startsWith (b :: t) [c] = (c == b) := by
  simp [startsWith, List.isPrefixOf]

theorem dropSlashes_append (b : Str) {t : Str} (head : t.head? = some (ch 'h')) : dropSlashes (b ++ t) = dropSlashes b ++ t := by
  induction b with
  | nil =>
    obtain ⟨r, rfl⟩ := List.head?_eq_some_iff.mp head
    rfl
  | cons x b ih =>
    have quote : startsWith (x :: b ++ t) (str ":'") = startsWith (x :: b) (str ":'") :=
      startsWith_append (List.cons_ne_nil _ _) head (by decide)
    have slash : startsWith (x :: b ++ t) (str "/") = startsWith (x :: b) (str "/") :=
      startsWith_append (List.cons_ne_nil _ _) head (by decide)
    rw [List.cons_append] at quote slash ⊢
    rw [dropSlashes, dropSlashes, quote, slash, ih]
    split
    · rfl
    · rfl

theorem after_append {d : Str} {c : UInt8} (member : c ∈ d) (t : Str) : after (d ++ t) [c] = after d [c] ++ t := by
  obtain ⟨a, b, rfl, first⟩ := List.eq_append_cons_of_mem member
  have whole : after (a ++ ([c] ++ (b ++ t))) [c] = b ++ t := after_at rfl first _
  have part : after (a ++ ([c] ++ b)) [c] = b := after_at rfl first _
  rw [show a ++ c :: b = a ++ ([c] ++ b) from rfl, part, ← whole]
  simp

theorem scanRest_append {d t : Str} (front : d ≠ []) (head : t.head? = some (ch 'h')) : scanRest (d ++ t) = scanRest d ++ t := by
  have same : isSchemed (d ++ t) = isSchemed d := by
    rw [isSchemed, isSchemed, startsWith_append front head (by decide), startsWith_append front head (by decide)]
  unfold scanRest
  rw [same]
  split
  · rename_i schemed
    have colon : ch ':' ∈ d := by
      rcases Bool.or_eq_true_iff.mp schemed with http | https
      · exact (List.isPrefixOf_iff_prefix.mp http).subset (by decide)
      · exact (List.isPrefixOf_iff_prefix.mp https).subset (by decide)
    exact after_append colon t
  · rfl

theorem dropSlashes_cons (x : UInt8) (b : Str) :
    dropSlashes (x :: b) =
      if (x = ch ':' ∧ b.head? = some 39) ∨ x = ch '/' then dropSlashes b else x :: b := by
  have quote : startsWith (x :: b) (str ":'") = true ↔ x = ch ':' ∧ b.head? = some 39 := by
    rw [startsWith, show str ":'" = [ch ':', 39] from rfl]
    cases b with
    | nil => simp [List.isPrefixOf]
    | cons y b =>
      simp only [List.isPrefixOf, Bool.and_true, Bool.and_eq_true, beq_iff_eq, List.head?_cons, Option.some.injEq]
      exact and_congr eq_comm eq_comm
  have slash : startsWith (x :: b) (str "/") = true ↔ x = ch '/' := by
    rw [show str "/" = [ch '/'] from rfl, startsWith_byte, beq_iff_eq, eq_comm]
  rw [dropSlashes]
  simp only [Bool.or_eq_true, quote, slash]

theorem mem_dropSlashes_iff {c : UInt8} (noSlash : c ≠ ch '/') (noColon : c ≠ ch ':') (b : Str) :
    c ∈ dropSlashes b ↔ c ∈ b := by
  induction b with
  | nil => rfl
  | cons x b ih =>
    rw [dropSlashes_cons]
    split
    · rename_i dropped
      have other : c ≠ x := by
        rintro rfl
        rcases dropped with ⟨colon, -⟩ | slash
        · exact noColon colon
        · exact noSlash slash
      rw [ih, List.mem_cons, or_iff_right other]
    · rfl

theorem dropSlashes_eq_nil_iff (b : Str) : dropSlashes b = [] ↔ ∀ c ∈ b, c = ch '/' := by
  induction b with
  | nil => simp [dropSlashes]
  | cons x b ih =>
    rw [dropSlashes_cons, List.forall_mem_cons]
    by_cases slash : x = ch '/'
    · simp [slash, ih]
    · rw [iff_false_right fun all => slash all.1]
      split
      · rename_i dropped
        obtain ⟨-, quote⟩ := dropped.resolve_right slash
        obtain ⟨r, rfl⟩ := List.head?_eq_some_iff.mp quote
        rw [dropSlashes_cons, if_neg]
        · exact List.cons_ne_nil _ _
        · rintro (⟨colon, -⟩ | same)
          · cases colon
          · cases same
      · exact List.cons_ne_nil _ _

structure Embedded (url : Str) where
  front : Str
  scheme : Str
  host : Str
  rest : Str
  parts : url = front ++ (scheme ++ (str "://" ++ (host ++ rest)))
  later : front ≠ []
  known : scheme = str "http" ∨ scheme = str "https"
  named : host ≠ []
  plain : ∀ c ∈ host, c ∉ [ch '/', ch '?', ch '&', ch ':', ch '@']
  ends : ∀ c ∈ rest.head?, c ∈ [ch '/', ch '?', ch '&']

/-- The scan of the text makes a record of what stands right behind it: it ends with a colon and slashes, and that
    colon is none that is passed over. -/
inductive Opened : Str → Prop
  | here (a b : Str) : ch ':' ∉ a → (∀ c ∈ b, c = ch '/') → Opened (a ++ ch ':' :: b)
  | later (a b : Str) : ch ':' ∉ a → dropSlashes b ≠ [] → Opened (scanRest (dropSlashes b)) → Opened (a ++ ch ':' :: b)

namespace Embedded
variable {url : Str} (e : Embedded url)

def hostOn : Str := e.host ++ e.rest

def schemeOn : Str := e.scheme ++ (str "://" ++ e.hostOn)

def Recorded : Prop :=
  ∃ r ∈ deepUrls url, (r.fullurl = e.hostOn ∨ r.fullurl = e.schemeOn) ∧ r.urldomain = e.host

structure Clear : Prop where
  dotted : ch '.' ∈ e.hostOn
  long : 5 < e.hostOn.length ∨ Opened e.front
  last : ¬ str "://" <:+: e.rest → Site e.hostOn e.host
  next : str "://" <:+: e.rest → Site (after e.rest (str "://")) e.host

theorem host_byte {c : UInt8} (member : c ∈ e.host) :
    c ≠ ch '/' ∧ c ≠ ch '?' ∧ c ≠ ch '&' ∧ c ≠ ch ':' ∧ c ≠ ch '@' := by
  have plain := e.plain c member
  simpa only [List.mem_cons, not_or, List.not_mem_nil, or_false, ne_eq] using plain

theorem scheme_plain : ch ':' ∉ e.scheme ∧ ch '.' ∉ e.scheme := by
  rcases e.known with http | https
  · rw [http]
    decide
  · rw [https]
    decide

theorem rest_head {c : UInt8} {t : Str} (rest_ : e.rest = c :: t) : c = ch '/' ∨ c = ch '?' ∨ c = ch '&' := by
  have ends := e.ends c (by rw [rest_]; rfl)
  simpa only [List.mem_cons, List.not_mem_nil, or_false] using ends

theorem not_schemed {w : Str} (plain : ∀ c ∈ w, c ≠ ch '/' ∧ c ≠ ch '?' ∧ c ≠ ch '&') (u : Str) :
    startsWith e.hostOn (w ++ ch ':' :: u) = false := by
  rw [startsWith, ← Bool.not_eq_true, List.isPrefixOf_iff_prefix]
  rintro ⟨t, same⟩
  have noColon : ∀ r : Str, e.rest ≠ ch ':' :: r := fun r rest_ => absurd (e.rest_head rest_) (by decide)
  rw [hostOn, List.append_assoc, List.cons_append] at same
  rcases List.append_eq_append_iff.mp same with ⟨a, host_, colon⟩ | ⟨a, word, rest_⟩
  · cases a with
    | nil => exact noColon _ colon.symm
    | cons c a =>
      have inHost : ch ':' ∈ e.host := by
        rw [host_, (List.cons.inj colon).1]
        simp
      exact (e.host_byte inHost).2.2.2.1 rfl
  · cases a with
    | nil => exact noColon _ rest_
    | cons c a =>
      have inWord := plain c (by rw [word]; simp)
      rcases e.rest_head rest_ with slash | query | next
      · exact inWord.1 slash
      · exact inWord.2.1 query
      · exact inWord.2.2 next

theorem removePTP_hostOn : removePTP e.hostOn = e.hostOn := by
  have words : ∀ w ∈ [str "http", str "https", str "ftp"], ∀ c ∈ w, c ≠ ch '/' ∧ c ≠ ch '?' ∧ c ≠ ch '&' := by
    decide +kernel
  have http : startsWith e.hostOn (str "http://") = false := e.not_schemed (words (str "http") (by simp)) _
  have https : startsWith e.hostOn (str "https://") = false := e.not_schemed (words (str "https") (by simp)) _
  have ftp : startsWith e.hostOn (str "ftp://") = false := e.not_schemed (words (str "ftp") (by simp)) _
  rw [removePTP, http, https, ftp]
  rfl

theorem removePTP_schemeOn : removePTP e.schemeOn = e.hostOn := by
  have absolute : (startsWith e.schemeOn (str "http://") || startsWith e.schemeOn (str "https://") ||
      startsWith e.schemeOn (str "ftp://")) = true := by
    simp only [startsWith, Bool.or_eq_true, List.isPrefixOf_iff_prefix, schemeOn, ← List.append_assoc]
    rcases e.known with http | https
    · rw [http]
      exact .inl (.inl (List.prefix_append _ _))
    · rw [https]
      exact .inl (.inr (List.prefix_append _ _))
  rw [removePTP, if_pos absolute]
  exact after_at rfl e.scheme_plain.1 _

theorem getHostname_hostOn : getHostname e.hostOn = e.host ↔
    (¬ str "://" <:+: e.rest → Site e.hostOn e.host) ∧
      (str "://" <:+: e.rest → Site (after e.rest (str "://")) e.host) := by
  have colon : ch ':' ∉ e.host := fun member => (e.host_byte member).2.2.2.1 rfl
  have begins : (str "://").head? = some (ch ':') := rfl
  have place := find_behind begins colon e.rest
  have same : contains e.hostOn (str "://") = contains e.rest (str "://") := by
    rw [contains, hostOn, place, Option.isSome_map]
    rfl
  rw [getHostname_eq_iff, same]
  by_cases more : str "://" <:+: e.rest
  · have found := (contains_iff_occurs e.rest (str "://")).mpr more
    have behind : after e.hostOn (str "://") = after e.rest (str "://") := by
      obtain ⟨i, at_⟩ := Option.isSome_iff_exists.mp found
      rw [after, after, hostOn, place, at_]
      simp only [Option.map_some]
      rw [List.drop_append, List.drop_eq_nil_of_le (by omega), List.nil_append]
      congr 1
      omega
    simp [found, more, behind]
  · have missing : contains e.rest (str "://") = false := by
      rw [← Bool.not_eq_true, contains_iff_occurs]
      exact more
    simp [missing, more]

/-- Without a user behind it the host is cut out if it ends at a slash or at the end. -/
theorem site_hostOn_iff (noUser : ch '@' ∉ e.rest) : Site e.hostOn e.host ↔ e.rest = [] ∨ e.rest.head? = some (ch '/') := by
  have slashless : ∀ c ∈ e.host, (c != ch '/') = true := fun c member => by simpa using (e.host_byte member).1
  have noSign : ch '@' ∉ e.host := fun member => (e.host_byte member).2.2.2.2 rfl
  have front : e.hostOn.takeWhile (· != ch '/') = e.host ++ e.rest.takeWhile (· != ch '/') :=
    List.takeWhile_append_of_pos slashless
  unfold Site
  rw [front, or_iff_left, and_iff_left noSign, List.append_right_eq_self]
  · cases e.rest with
    | nil => simp
    | cons c t => simp [List.takeWhile_cons]
  · rintro ⟨user, -, same⟩
    have member : ch '@' ∈ e.host ++ e.rest.takeWhile (· != ch '/') := by
      rw [same]
      simp
    rcases List.mem_append.mp member with inHost | inRest
    · exact noSign inHost
    · exact noUser ((List.takeWhile_prefix _).subset inRest)

theorem hostOn_head : ∃ c t, e.hostOn = c :: t ∧ c ≠ ch '/' ∧ c ≠ ch ':' := by
  obtain ⟨c, t, host_⟩ := List.exists_cons_of_ne_nil e.named
  have byte := e.host_byte (c := c) (by simp [host_])
  exact ⟨c, t ++ e.rest, by rw [hostOn, host_, List.cons_append], byte.1, byte.2.2.2.1⟩

theorem dropSlashes_hostOn : dropSlashes (str "//" ++ e.hostOn) = e.hostOn := by
  obtain ⟨c, t, host_, slash, colon⟩ := e.hostOn_head
  have slashes : dropSlashes (ch '/' :: ch '/' :: e.hostOn) = dropSlashes e.hostOn := by
    rw [dropSlashes_cons, if_pos (.inr rfl), dropSlashes_cons, if_pos (.inr rfl)]
  rw [show str "//" ++ e.hostOn = ch '/' :: ch '/' :: e.hostOn from rfl, slashes, host_, dropSlashes_cons, if_neg]
  rintro (⟨same, -⟩ | same)
  · exact colon same
  · exact slash same

theorem schemeOn_head : e.schemeOn.head? = some (ch 'h') := by
  rcases e.known with http | https
  · rw [schemeOn, http]
    rfl
  · rw [schemeOn, https]
    rfl

theorem schemeOn_long : e.hostOn.length + 7 ≤ e.schemeOn.length := by
  have size : 4 ≤ e.scheme.length := by
    rcases e.known with http | https
    · rw [http]
      decide
    · rw [https]
      decide
  have slashes : (str "://").length = 3 := rfl
  rw [schemeOn, List.length_append, List.length_append, slashes]
  omega

theorem dot_schemeOn : ch '.' ∈ e.schemeOn ↔ ch '.' ∈ e.hostOn := by
  have slashes : ch '.' ∉ str "://" := by decide
  rw [schemeOn, List.mem_append, List.mem_append, or_iff_right e.scheme_plain.2, or_iff_right slashes]

end Embedded

theorem Opened.colon {front : Str} (opened : Opened front) : ch ':' ∈ front := by
  cases opened with
  | here a b => simp
  | later a b => simp

theorem opened_iff {a : Str} (first : ch ':' ∉ a) (b : Str) :
    Opened (a ++ ch ':' :: b) ↔ dropSlashes b = [] ∨ (dropSlashes b ≠ [] ∧ Opened (scanRest (dropSlashes b))) := by
  constructor
  · intro opened
    generalize whole : a ++ ch ':' :: b = front at opened
    cases opened with
    | here a' b' first' slashes =>
      obtain ⟨-, rfl⟩ := (cut_unique first first').mp whole
      exact .inl ((dropSlashes_eq_nil_iff b).mpr slashes)
    | later a' b' first' some_ behind =>
      obtain ⟨-, rfl⟩ := (cut_unique first first').mp whole
      exact .inr ⟨some_, behind⟩
  · rintro (slashes | ⟨some_, behind⟩)
    · exact .here a b first ((dropSlashes_eq_nil_iff b).mp slashes)
    · exact .later a b first some_ behind

/-- Whether the scan makes a record of an embedded URL: each colon in front of it leads to one with the same rest. -/
theorem scan_iff {url : Str} (e : Embedded url) (fuel : Nat) (front : Str) (enough : (front ++ e.schemeOn).length < fuel) :
    (∃ r ∈ deepUrlsLoop fuel (front ++ e.schemeOn), r.fullurl = e.hostOn ∨ r.fullurl = e.schemeOn) ↔
      ch '.' ∈ e.hostOn ∧ (5 < e.hostOn.length ∨ Opened front) := by
  induction fuel generalizing front with
  | zero => omega
  | succ fuel ih =>
    have dotted : ∀ t : Str, contains t (str ".") = true ↔ ch '.' ∈ t := fun t => contains_byte_iff t (ch '.')
    have size := e.schemeOn_long
    rw [deepUrlsLoop_succ]
    by_cases colon : ch ':' ∈ front
    · obtain ⟨a, b, rfl, first⟩ := List.eq_append_cons_of_mem colon
      have parts : a ++ ch ':' :: b ++ e.schemeOn = a ++ ([ch ':'] ++ (b ++ e.schemeOn)) := by simp
      have behind : after (a ++ ch ':' :: b ++ e.schemeOn) (str ":") = b ++ e.schemeOn := by
        rw [parts]
        exact after_at rfl first _
      have here : contains (a ++ ch ':' :: b ++ e.schemeOn) (str ":") = true := by
        rw [parts]
        exact contains_at rfl first _
      have dot : contains (b ++ e.schemeOn) (str ".") = true ↔ ch '.' ∈ dropSlashes b ∨ ch '.' ∈ e.hostOn := by
        rw [dotted, List.mem_append, e.dot_schemeOn, mem_dropSlashes_iff (by decide) (by decide)]
      have shorter := scan_shorter here
      rw [opened_iff first, behind, dropSlashes_append b e.schemeOn_head]
      rw [behind, dropSlashes_append b e.schemeOn_head] at shorter
      by_cases found : ch '.' ∈ dropSlashes b ∨ ch '.' ∈ e.hostOn
      · rw [if_pos ⟨here, dot.mpr found, by rw [List.length_append]; omega⟩]
        by_cases opened : dropSlashes b = []
        · rw [opened] at found ⊢
          have inHost := found.resolve_left List.not_mem_nil
          exact iff_of_true ⟨_, List.mem_cons_self, .inr rfl⟩ ⟨inHost, .inr (.inl rfl)⟩
        · rw [scanRest_append opened e.schemeOn_head] at shorter ⊢
          have later := ih (scanRest (dropSlashes b)) (by omega)
          rw [or_iff_right opened, and_iff_right opened, ← later]
          constructor
          · rintro ⟨r, member, full⟩
            rcases List.mem_cons.mp member with rfl | member
            · have some_ := List.length_pos_iff.mpr opened
              have whole : (recordOf (dropSlashes b ++ e.schemeOn)).fullurl.length =
                  (dropSlashes b).length + e.schemeOn.length := List.length_append
              rcases full with host_ | scheme_
              · rw [host_] at whole
                omega
              · rw [scheme_] at whole
                omega
            · exact ⟨r, member, full⟩
          · rintro ⟨r, member, full⟩
            exact ⟨r, List.mem_cons_of_mem _ member, full⟩
      · rw [if_neg fun all => found (dot.mp all.2.1)]
        exact iff_of_false (by rintro ⟨r, member, -⟩; cases member) fun clear => found (.inr clear.1)
    · have notOpened : ¬ Opened front := fun opened => colon opened.colon
      have first : ch ':' ∉ front ++ e.scheme := by
        rw [List.mem_append, not_or]
        exact ⟨colon, e.scheme_plain.1⟩
      have parts : front ++ e.schemeOn = (front ++ e.scheme) ++ ([ch ':'] ++ (str "//" ++ e.hostOn)) := by
        rw [Embedded.schemeOn, List.append_assoc]
        rfl
      have behind : after (front ++ e.schemeOn) (str ":") = str "//" ++ e.hostOn := by
        rw [parts]
        exact after_at rfl first _
      have here : contains (front ++ e.schemeOn) (str ":") = true := by
        rw [parts]
        exact contains_at rfl first _
      have dot : contains (str "//" ++ e.hostOn) (str ".") = true ↔ ch '.' ∈ e.hostOn := by
        have slashes : ch '.' ∉ str "//" := by decide
        rw [dotted, List.mem_append, or_iff_right slashes]
      rw [behind, e.dropSlashes_hostOn]
      by_cases clear : ch '.' ∈ e.hostOn ∧ 5 < e.hostOn.length
      · rw [if_pos ⟨here, dot.mpr clear.1, clear.2⟩]
        exact iff_of_true ⟨_, List.mem_cons_self, .inl rfl⟩ ⟨clear.1, .inl clear.2⟩
      · rw [if_neg fun all => clear ⟨dot.mp all.2.1, all.2.2⟩]
        refine iff_of_false (by rintro ⟨r, member, -⟩; cases member) fun scanned => ?_
        exact clear ⟨scanned.1, scanned.2.resolve_right notOpened⟩

theorem records_of_text (fuel : Nat) (durl : Str) : ∀ r ∈ deepUrlsLoop fuel durl, r = recordOf r.fullurl := by
  induction fuel generalizing durl with
  | zero =>
    intro r member
    cases member
  | succ fuel ih =>
    intro r member
    rw [deepUrlsLoop_succ] at member
    split at member
    · rcases List.mem_cons.mp member with rfl | later
      · rfl
      · exact ih _ r later
    · cases member

theorem recorded_iff {url : Str} (e : Embedded url) : e.Recorded ↔ e.Clear := by
  have scanned := scan_iff e ((e.front ++ e.schemeOn).length + 1) e.front (Nat.lt_succ_self _)
  have text : url = e.front ++ e.schemeOn := e.parts
  have all : deepUrls url = deepUrlsLoop ((e.front ++ e.schemeOn).length + 1) (e.front ++ e.schemeOn) := by
    rw [deepUrls, ← text]
  rw [← all] at scanned
  have domain : ∀ r ∈ deepUrls url, r.fullurl = e.hostOn ∨ r.fullurl = e.schemeOn → r.urldomain = getHostname e.hostOn := by
    intro r member full
    have made := congrArg UrlRec.urldomain (records_of_text _ _ r member)
    rw [made]
    show getHostname (removePTP r.fullurl) = _
    rcases full with host_ | scheme_
    · rw [host_, e.removePTP_hostOn]
    · rw [scheme_, e.removePTP_schemeOn]
  constructor
  · rintro ⟨r, member, full, found⟩
    obtain ⟨dotted, long⟩ := scanned.mp ⟨r, member, full⟩
    obtain ⟨last, next⟩ := e.getHostname_hostOn.mp ((domain r member full).symm.trans found)
    exact ⟨dotted, long, last, next⟩
  · intro clear
    obtain ⟨r, member, full⟩ := scanned.mpr ⟨clear.dotted, clear.long⟩
    exact ⟨r, member, full, (domain r member full).trans (e.getHostname_hostOn.mpr ⟨clear.last, clear.next⟩)⟩

/-- The embedded URLs are recorded with their hosts if and only if each holds a dot, is long or directly opened, and is
    followed by a slash, the end or a URL of the same host; and the scan ends. -/
theorem deep_urls_recorded_iff (url : Str) :
    ((∀ e : Embedded url, e.Recorded) ↔ ∀ e : Embedded url, e.Clear) ∧
      ∀ fuel, url.length < fuel → deepUrlsLoop fuel url = deepUrls url :=
  ⟨forall_congr' recorded_iff, fun fuel enough => deepUrlsLoop_enough fuel _ url enough (Nat.lt_succ_self _)⟩

-- A picture search: the page is named in front of further parameters.
def searchUrl : Str := str "images.example/imgres?imgurl=http://bad.com&w=10"

-- A short one.
def shortUrl : Str := str "a.example/?u=http://b.cc"

def shortHost : Embedded shortUrl where
  front := str "a.example/?u="
  scheme := str "http"
  host := str "b.cc"
  rest := []
  parts := rfl
  later := by decide
  known := .inl rfl
  named := by decide
  plain := by decide +kernel
  ends := by decide +kernel

/-- Neither is found. -/
theorem embedded_urls_missed :
    (deepUrls searchUrl).map UrlRec.urldomain = [str "bad.com&w=10"] ∧ deepUrls shortUrl = [] ∧
      ¬ ∀ (url : Str) (e : Embedded url), ∃ r ∈ deepUrls url, r.urldomain = e.host := by
  have domains : (deepUrls searchUrl).map UrlRec.urldomain = [str "bad.com&w=10"] ∧ deepUrls shortUrl = [] := by
    decide
  refine ⟨domains.1, domains.2, fun always => ?_⟩
  obtain ⟨r, member, -⟩ := always shortUrl shortHost
  rw [domains.2] at member
  cases member

end GuardianDeepUrls
