import E2Guardian.HttpHeader

/- How getUrl and setURL take a URL apart and put it together again: each cuts it at the same signs, with
   its own rules for the port, the user, dots and a missing path. -/
namespace GuardianUrls
open GuardianString GuardianHttp

/- Cutting a text. -/

section Cuts
variable {c : UInt8} {bs a : Str}

theorem find_behind (begins : bs.head? = some c) (absent : c ∉ a) (r : Str) :
    find bs (a ++ r) = (find bs r).map (· + a.length) := by
  induction a with
  | nil => simp
  | cons b a ih =>
    obtain ⟨rest, rfl⟩ : ∃ rest, bs = c :: rest := List.head?_eq_some_iff.mp begins
    have other : c ≠ b := fun same => absent (same ▸ List.mem_cons_self)
    have later := ih fun member => absent (List.mem_cons_of_mem _ member)
    rw [List.cons_append, find, if_neg (by simp [List.isPrefixOf, other]), later, Option.map_map]
    rfl

theorem after_behind (begins : bs.head? = some c) (absent : c ∉ a) (r : Str) : after (a ++ r) bs = after r bs := by
  unfold after
  rw [find_behind begins absent]
  cases find bs r with
  | none => rfl
  | some i =>
    have lengths : i + a.length + bs.length = a.length + (i + bs.length) := by omega
    simp only [Option.map_some, lengths, List.drop_length_add_append]

theorem find_front (some_ : bs ≠ []) (r : Str) : find bs (bs ++ r) = some 0 := by
  cases bs with
  | nil => exact absurd rfl some_
  | cons b rest => rw [List.cons_append, find, if_pos (by simp)]

theorem find_at (begins : bs.head? = some c) (absent : c ∉ a) (r : Str) : find bs (a ++ (bs ++ r)) = some a.length := by
  have some_ : bs ≠ [] := by
    rintro rfl
    cases begins
  rw [find_behind begins absent, find_front some_]
  simp

theorem before_at (begins : bs.head? = some c) (absent : c ∉ a) (r : Str) : before (a ++ (bs ++ r)) bs = a := by
  rw [before, find_at begins absent]
  exact List.take_left

theorem after_at (begins : bs.head? = some c) (absent : c ∉ a) (r : Str) : after (a ++ (bs ++ r)) bs = r := by
  rw [after, find_at begins absent]
  simp only
  rw [← List.append_assoc, ← List.length_append]
  exact List.drop_left

theorem contains_at (begins : bs.head? = some c) (absent : c ∉ a) (r : Str) : contains (a ++ (bs ++ r)) bs = true := by
  rw [contains, find_at begins absent]
  rfl

theorem not_contains {s : Str} (absent : c ∉ s) : contains s [c] = false := by
  rw [← Bool.not_eq_true, contains_byte_iff]
  exact absent

end Cuts

theorem cut_unique {c : UInt8} {a b r t : Str} (first : c ∉ a) (second : c ∉ b) :
    a ++ c :: r = b ++ c :: t ↔ a = b ∧ r = t := by
  constructor
  · intro same
    have left : before (a ++ ([c] ++ r)) [c] = a := before_at rfl first r
    have right : before (b ++ ([c] ++ t)) [c] = b := before_at rfl second t
    have texts : a ++ ([c] ++ r) = b ++ ([c] ++ t) := same
    have fronts : a = b := by rw [← left, texts, right]
    subst fronts
    exact ⟨rfl, (List.cons.inj (List.append_cancel_left same)).2⟩
  · rintro ⟨rfl, rfl⟩
    rfl

/- Blanks. -/

theorem removeMultiCharLoop_absent {c : UInt8} {a : Str} (absent : c ∉ a) (repeated : Bool) (r : Str) (some_ : a ≠ []) :
    removeMultiCharLoop c repeated (a ++ r) = a ++ removeMultiCharLoop c false r := by
  induction a generalizing repeated with
  | nil => exact absurd rfl some_
  | cons b a ih =>
    have other : b ≠ c := fun same => absent (same ▸ List.mem_cons_self)
    rw [List.cons_append, removeMultiCharLoop, if_pos other, List.cons_append]
    congr 1
    by_cases last : a = []
    · simp [last]
    · exact ih (fun member => absent (List.mem_cons_of_mem _ member)) false last

theorem removeMultiChar_one {c : UInt8} {a b : Str} (first : c ∉ a) (second : c ∉ b) (some_ : a ≠ []) (rest : b ≠ []) :
    removeMultiChar (a ++ c :: b) c = a ++ c :: b := by
  have whole := removeMultiCharLoop_absent second true [] rest
  rw [List.append_nil] at whole
  rw [removeMultiChar, removeMultiCharLoop_absent first false _ some_, removeMultiCharLoop, if_neg (by simp),
    if_neg (by simp), whole]
  simp [removeMultiCharLoop]

theorem targetOf_line {method target version : Str} (word : ch ' ' ∉ method) (plain : ch ' ' ∉ target) (some_ : target ≠ [])
    (single : ch ' ' ∉ version) :
    targetOf (method ++ str " " ++ target ++ str " HTTP/" ++ version) = target := by
  have line : method ++ str " " ++ target ++ str " HTTP/" ++ version =
      method ++ (str " " ++ (target ++ (str " HTTP/" ++ version))) := by simp
  have behind : after (method ++ str " " ++ target ++ str " HTTP/" ++ version) (str " ") =
      target ++ (str " HTTP/" ++ version) := by
    rw [line]
    exact after_at rfl word _
  have protocol : ch ' ' ∉ str "HTTP/" ++ version := by
    rw [List.mem_append]
    rintro (no | no)
    · exact absurd no (by decide)
    · exact single no
  have squeezed : removeMultiChar (target ++ (str " HTTP/" ++ version)) (ch ' ') = target ++ (str " HTTP/" ++ version) :=
    removeMultiChar_one plain protocol some_ (by simp)
  have next : after (target ++ (str " HTTP/" ++ version)) (str " ") = str "HTTP/" ++ version :=
    @after_at (ch ' ') (str " ") target rfl plain (str "HTTP/" ++ version)
  unfold targetOf
  simp only
  rw [behind, squeezed, next, if_pos (by simp [startsWith])]
  exact before_at rfl plain version

/- Numbers. -/

theorem toDigits_bounds {n : Nat} {c : Char} (inside : c ∈ Nat.toDigits 10 n) :
    48 ≤ c.toNat ∧ c.toNat ≤ 57 ∧ (ch c).toNat = c.toNat := by
  have digit := Nat.isDigit_of_mem_toDigits (by decide) (by decide) inside
  simp only [Char.isDigit, Bool.and_eq_true, decide_eq_true_eq] at digit
  have low : 48 ≤ c.toNat := digit.1
  have high : c.toNat ≤ 57 := digit.2
  refine ⟨low, high, ?_⟩
  simp only [ch, UInt8.toNat_ofNat']
  omega

theorem isDigit_of_digits {n : Nat} {b : UInt8} (member : b ∈ (Nat.toDigits 10 n).map ch) : isDigit b = true := by
  obtain ⟨c, inside, rfl⟩ := List.mem_map.mp member
  obtain ⟨low, high, value⟩ := toDigits_bounds inside
  simp only [isDigit, Bool.and_eq_true, decide_eq_true_eq, UInt8.le_iff_toNat_le, value]
  exact ⟨low, high⟩

theorem decimal_digits (n : Nat) {r : Str} (stops : ∀ b ∈ r.head?, isDigit b = false) :
    decimal ((Nat.toDigits 10 n).map ch ++ r) = n := by
  have behind : r.takeWhile isDigit = [] := by
    cases r with
    | nil => rfl
    | cons b r => exact List.takeWhile_cons_of_neg (by simp [stops b rfl])
  rw [decimal, List.takeWhile_append_of_pos fun _ => isDigit_of_digits, behind, List.append_nil, List.foldl_map]
  have read := @Nat.ofDigitChars_ten_toDigits n
  rw [Nat.ofDigitChars_eq_foldl] at read
  refine Eq.trans (List.foldl_ext _ _ _ fun acc c inside => ?_) read
  obtain ⟨low, _, value⟩ := toDigits_bounds inside
  have zero : ch '0' ≤ ch c := by
    rw [UInt8.le_iff_toNat_le, value]
    exact low
  rw [UInt8.toNat_sub_of_le _ _ zero, value]
  rfl

theorem ofInt_natural {n : Int} (natural : 0 ≤ n) : ofInt n = (Nat.toDigits 10 n.toNat).map ch := by
  rw [ofInt_eq, if_neg (by omega), List.nil_append]
  congr 2
  omega

theorem isDigit_of_ofInt {n : Int} (natural : 0 ≤ n) {b : UInt8} (member : b ∈ ofInt n) : isDigit b = true := by
  rw [ofInt_natural natural] at member
  exact isDigit_of_digits member

theorem ofInt_plain (n : Int) {c : UInt8} (low : c.toNat < 48) (other : c ≠ ch '-') : c ∉ ofInt n := by
  rw [ofInt_eq, List.mem_append]
  rintro (sign | digit)
  · split at sign
    · exact other (List.mem_singleton.mp sign)
    · cases sign
  · exact digit_ne (isDigit_of_digits digit) low rfl

theorem signedDecimal_digits {d : Str} (some_ : d ≠ []) (digits : ∀ b ∈ d, isDigit b = true) {r : Str}
    (stops : ∀ b ∈ r.head?, isDigit b = false) : signedDecimal ((d ++ r).dropWhile isSpace) = decimal d := by
  have behind : r.takeWhile isDigit = [] := by
    cases r with
    | nil => rfl
    | cons b r => exact List.takeWhile_cons_of_neg (by simp [stops b rfl])
  have read : decimal (d ++ r) = decimal d := by
    have whole : d.takeWhile isDigit = d := List.takeWhile_eq_self_iff.mpr digits
    rw [decimal, decimal, List.takeWhile_append_of_pos digits, behind, List.append_nil, whole]
  cases d with
  | nil => exact absurd rfl some_
  | cons b rest =>
    have first := digits b List.mem_cons_self
    rw [List.cons_append, List.dropWhile_cons_of_neg (by simp [digit_not_space first]), signedDecimal,
      if_neg (digit_ne first (by decide)), if_neg (digit_ne first (by decide)), ← List.cons_append, read]

theorem signedDecimal_ofInt (n : Int) {r : Str} (stops : ∀ b ∈ r.head?, isDigit b = false) :
    signedDecimal ((ofInt n ++ r).dropWhile isSpace) = n := by
  by_cases natural : 0 ≤ n
  · rw [signedDecimal_digits (ofInt_ne_nil n) (fun b => isDigit_of_ofInt natural) stops, ofInt_natural natural]
    have read := decimal_digits n.toNat (r := []) (by simp)
    rw [List.append_nil] at read
    omega
  · have negative : n < 0 := by omega
    have sign : isSpace (ch '-') = false := by decide
    rw [ofInt_eq, if_pos negative, List.append_assoc, List.singleton_append, List.dropWhile_cons_of_neg (by simp [sign]),
      signedDecimal, if_pos rfl, decimal_digits n.natAbs stops]
    omega

theorem toInteger_int {n : Int} (low : -2 ^ 31 ≤ n) (high : n < 2 ^ 31) {r : Str} (stops : ∀ b ∈ r.head?, isDigit b = false) :
    toInteger (ofInt n ++ r) = n := by
  rw [toInteger, signedDecimal_ofInt n stops, Int.bmod_def]
  omega

theorem toInteger_ofInt {n : Int} (natural : 0 ≤ n) (high : n ≤ 65535) {r : Str} (stops : ∀ b ∈ r.head?, isDigit b = false) :
    toInteger (ofInt n ++ r) = n := toInteger_int (by omega) (by omega) stops

/- Dots and white space at the ends. -/

theorem chopDots_isPrefix (s : Str) : chopDots s <+: s := by
  unfold chopDots
  rw [← List.reverse_suffix, List.reverse_reverse]
  exact List.dropWhile_suffix _

theorem chopDots_eq_iff (s : Str) : chopDots s = s ↔ s.getLast? ≠ some (ch '.') := by
  unfold chopDots
  rw [← List.head?_reverse, List.reverse_eq_iff]
  cases s.reverse with
  | nil => simp
  | cons b r =>
    constructor
    · intro same last
      simp only [List.head?_cons, Option.some.injEq] at last
      rw [List.dropWhile_cons_of_pos (by simp [last])] at same
      have shorter := (List.dropWhile_suffix (l := r) (· == ch '.')).length_le
      have lengths := congrArg List.length same
      simp only [List.length_cons] at lengths
      omega
    · intro other
      rw [List.dropWhile_cons_of_neg]
      simpa using other

theorem chopDots_chopped (s : Str) : chopDots (chopDots s) = chopDots s := by
  rw [chopDots_eq_iff, chopDots, List.getLast?_reverse]
  intro last
  have not := List.head?_dropWhile_not (· == ch '.') s.reverse
  rw [last] at not
  simp at not

theorem chopDots_of_suffix {s t : Str} (chopped : chopDots s = s) (suffix : t <:+ s) : chopDots t = t := by
  rw [chopDots_eq_iff] at chopped ⊢
  obtain ⟨r, rfl⟩ := suffix
  intro last
  refine chopped ?_
  rw [List.getLast?_append, last]
  rfl

theorem mem_chopDots {s : Str} {c : UInt8} (other : c ≠ ch '.') : c ∈ chopDots s ↔ c ∈ s := by
  constructor
  · exact fun member => (chopDots_isPrefix s).subset member
  · intro member
    have whole := List.takeWhile_append_dropWhile (p := (· == ch '.')) (l := s.reverse)
    rw [← List.mem_reverse, ← whole, List.mem_append] at member
    rw [chopDots, List.mem_reverse]
    refine member.resolve_left fun dots => other ?_
    simpa using List.mem_takeWhile_imp dots

theorem removeWhiteSpace_of_plain_ends {s : Str} (first : ∀ b ∈ s.head?, isWhiteSpace b = false)
    (last : ∀ b ∈ s.getLast?, isWhiteSpace b = false) : removeWhiteSpace s = s := by
  have front : ∀ {t : Str}, (∀ b ∈ t.head?, isWhiteSpace b = false) → t.dropWhile isWhiteSpace = t := by
    intro t plain
    cases t with
    | nil => rfl
    | cons b t => rw [List.dropWhile_cons_of_neg (by simp [plain b rfl])]
  unfold removeWhiteSpace
  split
  · rfl
  · rw [← List.head?_reverse] at last
    rw [front first, front last, List.reverse_reverse]

theorem removeWhiteSpace_ends {s : Str} (some_ : ¬ s.all isWhiteSpace = true) :
    (∀ b ∈ (removeWhiteSpace s).head?, isWhiteSpace b = false) ∧ ∀ b ∈ (removeWhiteSpace s).getLast?, isWhiteSpace b = false := by
  have cut : removeWhiteSpace s = ((s.dropWhile isWhiteSpace).reverse.dropWhile isWhiteSpace).reverse := if_neg some_
  have stops : ∀ (t : Str), ∀ b ∈ (t.dropWhile isWhiteSpace).head?, isWhiteSpace b = false := by
    intro t b head
    have not := List.head?_dropWhile_not isWhiteSpace t
    rw [head] at not
    simpa using not
  constructor
  · intro b head
    have shorter : removeWhiteSpace s <+: s.dropWhile isWhiteSpace := by
      rw [cut, ← List.reverse_suffix, List.reverse_reverse]
      exact List.dropWhile_suffix _
    obtain ⟨r, whole⟩ := shorter
    refine stops s b ?_
    rw [← whole, List.head?_append, head]
    rfl
  · intro b last
    rw [cut, List.getLast?_reverse] at last
    exact stops _ b last

/-- Trimming leaves a text with something in it as it is exactly if it starts and ends with that. -/
theorem removeWhiteSpace_eq_iff {s : Str} (some_ : ¬ s.all isWhiteSpace = true) :
    removeWhiteSpace s = s ↔ (∀ b ∈ s.head?, isWhiteSpace b = false) ∧ ∀ b ∈ s.getLast?, isWhiteSpace b = false := by
  constructor
  · intro trimmed
    have ends := removeWhiteSpace_ends some_
    rwa [trimmed] at ends
  · intro ends
    exact removeWhiteSpace_of_plain_ends ends.1 ends.2

theorem removeWhiteSpace_subset (s : Str) : removeWhiteSpace s ⊆ s := by
  intro b member
  unfold removeWhiteSpace at member
  split at member
  · exact member
  · rw [List.mem_reverse] at member
    have inside := (List.dropWhile_suffix _).subset member
    rw [List.mem_reverse] at inside
    exact (List.dropWhile_suffix _).subset inside

theorem removeWhiteSpace_between (s : Str) : ∃ p q, s = p ++ (removeWhiteSpace s ++ q) ∧
    (∀ b ∈ p, isWhiteSpace b = true) ∧ ∀ b ∈ q, isWhiteSpace b = true := by
  by_cases all : s.all isWhiteSpace = true
  · have same : removeWhiteSpace s = s := if_pos all
    exact ⟨[], [], by rw [same, List.append_nil, List.nil_append], by simp, by simp⟩
  · have cut : removeWhiteSpace s = ((s.dropWhile isWhiteSpace).reverse.dropWhile isWhiteSpace).reverse := if_neg all
    refine ⟨s.takeWhile isWhiteSpace, ((s.dropWhile isWhiteSpace).reverse.takeWhile isWhiteSpace).reverse, ?_, ?_, ?_⟩
    · rw [cut, ← List.reverse_append, List.takeWhile_append_dropWhile, List.reverse_reverse, List.takeWhile_append_dropWhile]
    · intro b member
      exact List.mem_takeWhile_imp member
    · intro b member
      exact List.mem_takeWhile_imp (List.mem_reverse.mp member)

theorem removeWhiteSpace_ne_nil {s : Str} (some_ : ¬ s.all isWhiteSpace = true) : removeWhiteSpace s ≠ [] := by
  unfold removeWhiteSpace
  rw [if_neg some_]
  intro none_
  rw [List.reverse_eq_nil_iff, List.dropWhile_eq_nil_iff] at none_
  cases kept : s.dropWhile isWhiteSpace with
  | nil =>
    rw [List.dropWhile_eq_nil_iff] at kept
    exact some_ (List.all_eq_true.mpr kept)
  | cons c rest =>
    have plain := List.head?_dropWhile_not isWhiteSpace s
    rw [kept] at plain none_
    have white := none_ c (List.mem_reverse.mpr List.mem_cons_self)
    simp [white] at plain

theorem removeWhiteSpace_nil {s : Str} : removeWhiteSpace s = [] ↔ s = [] := by
  by_cases white : s.all isWhiteSpace = true
  · rw [removeWhiteSpace, if_pos white]
  · refine iff_of_false (removeWhiteSpace_ne_nil white) ?_
    rintro rfl
    exact white rfl

theorem removeWhiteSpace_trimmed (s : Str) : removeWhiteSpace (removeWhiteSpace s) = removeWhiteSpace s := by
  by_cases all : s.all isWhiteSpace = true
  · have same : removeWhiteSpace s = s := if_pos all
    rw [same, same]
  · have ends := removeWhiteSpace_ends all
    exact removeWhiteSpace_of_plain_ends ends.1 ends.2

/- A URL and its parts. -/

def urlText (scheme authority path : Str) : Str := scheme ++ str "://" ++ authority ++ str "/" ++ path

def behindUser (authority : Str) : Str := if contains authority (str "@") then after authority (str "@") else authority

def userOf (authority : Str) : Str :=
  let userpassword := if contains authority (str "@") then before authority (str "@") else []
  if userpassword.length > 0 then userpassword ++ str "@" else []

def site (host : Str) : Option Int → Str
  | none => host
  | some port => host ++ str ":" ++ ofInt port

section Parts
variable {scheme authority : Str} (path : Str)

theorem before_urlText (plain : ch ':' ∉ scheme) : before (urlText scheme authority path) (str "://") = scheme := by
  have parts : urlText scheme authority path = scheme ++ (str "://" ++ (authority ++ (str "/" ++ path))) := by simp [urlText]
  rw [parts]
  exact before_at rfl plain _

theorem after_urlText (plain : ch ':' ∉ scheme) :
    after (urlText scheme authority path) (str "://") = authority ++ (str "/" ++ path) := by
  have parts : urlText scheme authority path = scheme ++ (str "://" ++ (authority ++ (str "/" ++ path))) := by simp [urlText]
  rw [parts]
  exact after_at rfl plain _

def hostPort (https : Bool) (hostname : Str) : Str × Int :=
  if contains hostname (str ":") then
    let n := toInteger (after hostname (str ":"))
    (before hostname (str ":"), if n = 0 ∨ n > 65535 then defaultPort https else n)
  else (hostname, defaultPort https)

theorem urlParts_urlText (plain : ch ':' ∉ scheme) (slashless : ch '/' ∉ authority) (https : Bool) :
    HTTPHeader.urlParts https (urlText scheme authority path) =
      ((hostPort https (behindUser authority)).1, (hostPort https (behindUser authority)).2, urlText scheme authority path) := by
  have slash : contains (authority ++ (str "/" ++ path)) (str "/") = true := contains_at rfl slashless path
  have front : before (authority ++ (str "/" ++ path)) (str "/") = authority := before_at rfl slashless path
  simp only [HTTPHeader.urlParts, after_urlText path plain, slash, if_true, front]
  unfold hostPort behindUser
  split
  · split
    · rfl
    · rfl
  · split
    · rfl
    · rfl

theorem bare_text (plain : ch ':' ∉ scheme) (slashless : ch '/' ∉ authority) :
    after (scheme ++ str "://" ++ authority) (str "://") = authority ∧ contains authority (str "/") = false ∧
      contains (authority ++ (str "/" ++ [])) (str "/") = true ∧
        scheme ++ str "://" ++ authority ++ str "/" = urlText scheme authority [] := by
  have parts : scheme ++ str "://" ++ authority = scheme ++ (str "://" ++ authority) := by simp
  refine ⟨?_, not_contains slashless, contains_at rfl slashless [], by simp [urlText]⟩
  rw [parts]
  exact after_at rfl plain authority

/-- A URL without a slash behind its authority gets one. -/
theorem urlParts_bare (plain : ch ':' ∉ scheme) (slashless : ch '/' ∉ authority) (https : Bool) :
    HTTPHeader.urlParts https (scheme ++ str "://" ++ authority) = HTTPHeader.urlParts https (urlText scheme authority []) := by
  obtain ⟨behind, none_, slash, whole⟩ := bare_text plain slashless
  simp only [HTTPHeader.urlParts, behind, none_, after_urlText [] plain, slash, if_true, Bool.false_eq_true, if_false, whole]

/-- The authority that getUrl puts into the URL of a request that is no CONNECT, and the port. -/
def rewritten (port : Int) (authority : Str) : Str × Int :=
  let (hostname, port) := splitPort false port (behindUser authority)
  (userOf authority ++ withPort true false port hostname, port)

theorem before_slash_chopped (slashless : ch '/' ∉ authority) :
    before (if endsWith (authority ++ (str "/" ++ path)) (str ".") then chop (authority ++ (str "/" ++ path))
      else authority ++ (str "/" ++ path)) (str "/") = authority := by
  split
  · rename_i dot
    cases path with
    | nil =>
      -- the slash is behind the authority, so no dot is chopped off it
      have ends : str "." <:+ authority ++ [ch '/'] := List.isSuffixOf_iff_suffix.mp dot
      have last : (authority ++ [ch '/']).getLast? = some (ch '.') := by
        obtain ⟨r, whole⟩ := ends
        rw [← whole]
        exact List.getLast?_concat ..
      rw [List.getLast?_concat] at last
      exact absurd last (by decide)
    | cons b path =>
      have shorter : chop (authority ++ (str "/" ++ (b :: path))) = authority ++ (str "/" ++ (b :: path).dropLast) := by
        rw [chop, List.dropLast_append_of_ne_nil (by simp), List.dropLast_append_of_ne_nil (by simp)]
      rw [shorter]
      exact before_at rfl slashless _
  · exact before_at rfl slashless _

theorem absoluteUrl_urlText (plain : ch ':' ∉ scheme) (slashless : ch '/' ∉ authority) (port : Int) :
    absoluteUrl true false port (urlText scheme authority path) =
      (scheme ++ str "://" ++ (rewritten port authority).1 ++
        (if (removeWhiteSpace path).length > 0 then str "/" ++ removeWhiteSpace path else removeWhiteSpace path),
        (rewritten port authority).2) := by
  have slash : contains (authority ++ (str "/" ++ path)) (str "/") = true := contains_at rfl slashless path
  have behind : after (authority ++ (str "/" ++ path)) (str "/") = path := after_at rfl slashless path
  simp only [absoluteUrl, after_urlText path plain, before_urlText path plain, slash, if_true, behind,
    before_slash_chopped path slashless]
  unfold rewritten behindUser userOf
  by_cases user : contains authority (str "@") = true
  · simp only [user, if_true]
    split
    · simp
    · simp
  · simp [user]

theorem absoluteUrl_bare (plain : ch ':' ∉ scheme) (slashless : ch '/' ∉ authority) (port : Int) :
    absoluteUrl true false port (scheme ++ str "://" ++ authority) =
        absoluteUrl true false port (urlText scheme authority []) := by
  obtain ⟨behind, none_, slash, whole⟩ := bare_text plain slashless
  simp only [absoluteUrl, behind, none_, after_urlText [] plain, slash, if_true, Bool.false_eq_true, if_false, whole]

end Parts

/- Hosts and ports. -/

theorem defaultPort_valid (https : Bool) : 0 < defaultPort https ∧ defaultPort https ≤ 65535 := by
  cases https <;> decide

theorem validPort_valid (https : Bool) (n : Int) : 0 < validPort https n ∧ validPort https n ≤ 65535 := by
  have default := defaultPort_valid https
  unfold validPort
  split
  · exact default
  · omega

theorem validPort_of_valid {n : Int} (valid : 0 < n ∧ n ≤ 65535) (https : Bool) : validPort https n = n := by
  rw [validPort, if_neg (by omega)]

def shown (port : Int) : Option Int := if port = 80 then none else some port

theorem withPort_eq (port : Int) (host : Str) : withPort true false port host = site host (shown port) := by
  unfold withPort shown site
  by_cases default : port = 80
  · simp [default, defaultPort]
  · simp [default, defaultPort]

section Sites
variable {host : Str} {port : Option Int}

theorem colon_not_digit {n : Int} (natural : 0 ≤ n) {c : UInt8} (other : isDigit c = false) : c ∉ ofInt n := by
  intro member
  rw [isDigit_of_ofInt natural member] at other
  cases other

theorem contains_site (plain : ch ':' ∉ host) : contains (site host port) (str ":") = port.isSome := by
  cases port with
  | none => exact not_contains plain
  | some n =>
    have parts : site host (some n) = host ++ (str ":" ++ ofInt n) := by simp [site]
    rw [parts]
    exact contains_at rfl plain _

theorem cut_site {n : Int} (plain : ch ':' ∉ host) :
    before (site host (some n)) (str ":") = host ∧ after (site host (some n)) (str ":") = ofInt n := by
  have parts : site host (some n) = host ++ (str ":" ++ ofInt n) := by simp [site]
  rw [parts]
  exact ⟨before_at rfl plain _, after_at rfl plain _⟩

theorem toInteger_port {n : Int} (valid : 0 < n ∧ n ≤ 65535) : toInteger (ofInt n) = n := by
  have read := @toInteger_ofInt n (by omega) valid.2 [] (by simp)
  rwa [List.append_nil] at read

theorem hostPort_site (plain : ch ':' ∉ host) (valid : ∀ n ∈ port, 0 < n ∧ n ≤ 65535) (https : Bool) :
    hostPort https (site host port) = (host, port.getD (defaultPort https)) := by
  cases port with
  | none =>
    unfold hostPort
    rw [contains_site plain]
    rfl
  | some n =>
    have range := valid n rfl
    unfold hostPort
    rw [contains_site plain, (cut_site plain).1, (cut_site plain).2, toInteger_port range]
    have inside : ¬ (n = 0 ∨ n > 65535) := by omega
    simp [inside]

theorem splitPort_site (plain : ch ':' ∉ host) (valid : ∀ n ∈ port, 0 < n ∧ n ≤ 65535) (given : Int) :
    splitPort false given (site host port) = (chopDots host, port.getD given) := by
  cases port with
  | none =>
    unfold splitPort
    rw [contains_site plain]
    rfl
  | some n =>
    have range := valid n rfl
    unfold splitPort
    rw [contains_site plain, (cut_site plain).1, (cut_site plain).2, toInteger_port range, validPort_of_valid range]
    rfl

end Sites

theorem site_inj {host host' : Str} {port port' : Option Int} (plain : ch ':' ∉ host) (plain' : ch ':' ∉ host')
    (valid : ∀ n ∈ port, 0 < n ∧ n ≤ 65535) (valid' : ∀ n ∈ port', 0 < n ∧ n ≤ 65535) :
    site host port = site host' port' ↔ host = host' ∧ port = port' := by
  constructor
  · intro same
    have parts := hostPort_site plain valid false
    rw [same, hostPort_site plain' valid' false] at parts
    have present := @contains_site host port plain
    rw [same, contains_site plain'] at present
    obtain ⟨hosts, ports⟩ := Prod.mk.inj parts
    refine ⟨hosts.symm, ?_⟩
    cases port with
    | none => exact (Option.isNone_iff_eq_none.mp (by simpa using present)).symm
    | some n =>
      obtain ⟨m, rfl⟩ := Option.isSome_iff_exists.mp present
      exact congrArg some ports.symm
  · rintro ⟨rfl, rfl⟩
    rfl

theorem shown_valid {port : Int} (valid : 0 < port ∧ port ≤ 65535) : ∀ n ∈ shown port, 0 < n ∧ n ≤ 65535 := by
  intro n member
  unfold shown at member
  split at member
  · cases member
  · exact Option.some.inj member ▸ valid

theorem shown_ne (port : Int) : shown port ≠ some 80 := by
  unfold shown
  split
  · simp
  · rename_i other
    simpa using other

/-- An authority with a host and a port that are put together as getUrl does it. -/
structure Shaped (authority host : Str) (port : Option Int) : Prop where
  site_ : behindUser authority = site host port
  plain : ch ':' ∉ host
  valid : ∀ n ∈ port, 0 < n ∧ n ≤ 65535
  shown_ : port ≠ some 80

theorem Shaped.rewritten {authority host : Str} {port : Option Int} (shaped : Shaped authority host port) (given : Int) :
    rewritten given authority = (userOf authority ++ site (chopDots host) (shown (port.getD given)), port.getD given) := by
  simp only [GuardianUrls.rewritten, shaped.site_, splitPort_site shaped.plain shaped.valid, withPort_eq]

theorem getD_valid {port : Option Int} (valid : ∀ n ∈ port, 0 < n ∧ n ≤ 65535) {given : Int}
    (range : 0 < given ∧ given ≤ 65535) : 0 < port.getD given ∧ port.getD given ≤ 65535 := by
  cases port with
  | none => exact range
  | some n => exact valid n rfl

theorem shown_getD {port : Option Int} (other : port ≠ some 80) (given : Int) :
    shown (port.getD given) = port ↔ (port = none → given = 80) := by
  cases port with
  | none =>
    simp only [Option.getD_none, shown]
    split <;> simp_all
  | some n =>
    have different : n ≠ 80 := fun same => other (congrArg some same)
    simp [shown, different]

theorem user_cases (authority : Str) :
    (ch '@' ∉ authority ∧ behindUser authority = authority ∧ userOf authority = []) ∨
      ∃ user, ch '@' ∉ user ∧ authority = user ++ ch '@' :: behindUser authority ∧
        userOf authority = if user.length > 0 then user ++ str "@" else [] := by
  by_cases here : ch '@' ∈ authority
  · obtain ⟨user, rest, whole, plain⟩ := List.eq_append_cons_of_mem here
    have parts : authority = user ++ (str "@" ++ rest) := whole
    have contained : contains authority (str "@") = true := parts ▸ contains_at rfl plain rest
    have front : before authority (str "@") = user := parts ▸ before_at rfl plain rest
    have behind : after authority (str "@") = rest := parts ▸ after_at rfl plain rest
    refine .inr ⟨user, plain, ?_, ?_⟩
    · rw [behindUser, if_pos contained, behind]
      exact whole
    · simp only [userOf, contained, if_true, front]
  · have absent : contains authority (str "@") = false := not_contains here
    refine .inl ⟨here, ?_, ?_⟩
    · rw [behindUser, absent]
      rfl
    · simp only [userOf, absent]
      rfl

theorem rewritten_eq_iff {authority host : Str} {port : Option Int} (shaped : Shaped authority host port) {given : Int}
    (range : 0 < given ∧ given ≤ 65535) :
    (rewritten given authority).1 = authority ↔
      authority.head? ≠ some (ch '@') ∧ chopDots host = host ∧ (port = none → given = 80) := by
  have chopped : ch ':' ∉ chopDots host := fun member => shaped.plain ((chopDots_isPrefix host).subset member)
  have final := shown_valid (getD_valid shaped.valid range)
  have same : site (chopDots host) (shown (port.getD given)) = site host port ↔
      chopDots host = host ∧ (port = none → given = 80) := by
    rw [site_inj chopped shaped.plain final shaped.valid, shown_getD shaped.shown_]
  rw [shaped.rewritten]
  simp only
  rcases user_cases authority with ⟨absent, whole, none_⟩ | ⟨user, plain, whole, kept⟩
  · have first : authority.head? ≠ some (ch '@') := fun head => absent (List.mem_of_head? head)
    rw [none_, List.nil_append]
    have text : authority = site host port := whole ▸ shaped.site_
    constructor
    · intro equal
      exact ⟨first, same.mp (equal.trans text)⟩
    · intro conditions
      exact (same.mpr conditions.2).trans text.symm
  · rw [shaped.site_] at whole
    cases user with
    | nil =>
      -- a sign without a user is dropped, and the authority gets shorter
      have front : authority = site (ch '@' :: host) port := by
        rw [whole]
        cases port <;> rfl
      have plain' : ch ':' ∉ ch '@' :: host := by
        rw [List.mem_cons]
        rintro (no | no)
        · exact absurd no (by decide)
        · exact shaped.plain no
      constructor
      · intro equal
        rw [kept, front] at equal
        have hosts := ((site_inj chopped plain' final shaped.valid).mp equal).1
        have shorter := (chopDots_isPrefix host).length_le
        rw [hosts, List.length_cons] at shorter
        omega
      · intro conditions
        refine absurd ?_ conditions.1
        rw [whole]
        rfl
    | cons b user =>
      have first : authority.head? ≠ some (ch '@') := by
        rw [whole]
        intro head
        exact plain (Option.some.inj head ▸ List.mem_cons_self)
      have front : userOf authority = (b :: user) ++ str "@" := kept
      have text : authority = (b :: user) ++ str "@" ++ site host port := by
        rw [whole, List.append_assoc]
        rfl
      constructor
      · intro equal
        rw [front] at equal
        exact ⟨first, same.mp (List.append_cancel_left (equal.trans text))⟩
      · intro conditions
        rw [front, same.mpr conditions.2, ← text]

/- The first pass. -/

theorem head_of_front {s t : Str} (front : s <+: t) {c : UInt8} (member : c ∈ s) : s.head? = t.head? := by
  obtain ⟨r, rfl⟩ := front
  cases s with
  | nil => cases member
  | cons b s => rfl

theorem chopDots_head {s : Str} {c : UInt8} (other : c ≠ ch '.') : (chopDots s).head? = some c ↔ s.head? = some c := by
  constructor
  · intro head
    rw [← head_of_front (chopDots_isPrefix s) (List.mem_of_head? head)]
    exact head
  · intro head
    have member := (mem_chopDots other).mpr (List.mem_of_head? head)
    rw [head_of_front (chopDots_isPrefix s) member]
    exact head

theorem chopDots_append {a k : Str} {c : UInt8} (other : c ≠ ch '.') : chopDots (a ++ c :: k) = a ++ c :: chopDots k := by
  have parts : (a ++ c :: k).reverse = k.reverse ++ (a ++ [c]).reverse := by simp
  unfold chopDots
  rw [parts]
  by_cases all : ∀ b ∈ k.reverse, (b == ch '.') = true
  · rw [List.dropWhile_append_of_pos all, List.dropWhile_eq_nil_iff.mpr all]
    simp [other]
  · rw [List.dropWhile_append]
    have some_ : (k.reverse.dropWhile (· == ch '.')).isEmpty = false := by
      rw [← Bool.not_eq_true, List.isEmpty_iff, List.dropWhile_eq_nil_iff]
      exact all
    rw [some_]
    simp

def hostName (hostname : Str) : Str := if contains hostname (str ":") then before hostname (str ":") else hostname

def hostsPort (given : Int) (hostname : Str) : Int :=
  if contains hostname (str ":") then validPort false (toInteger (after hostname (str ":"))) else given

theorem splitPort_eq (given : Int) (hostname : Str) :
    splitPort false given hostname = (chopDots (hostName hostname), hostsPort given hostname) := by
  unfold splitPort hostName hostsPort
  split
  · rfl
  · rfl

theorem hostsPort_valid {given : Int} (range : 0 < given ∧ given ≤ 65535) (hostname : Str) :
    0 < hostsPort given hostname ∧ hostsPort given hostname ≤ 65535 := by
  unfold hostsPort
  split
  · exact validPort_valid _ _
  · exact range

theorem hostName_plain (hostname : Str) : ch ':' ∉ hostName hostname := by
  unfold hostName
  by_cases here : ch ':' ∈ hostname
  · obtain ⟨front, rest, whole, plain⟩ := List.eq_append_cons_of_mem here
    have parts : hostname = front ++ (str ":" ++ rest) := whole
    have contained : contains hostname (str ":") = true := parts ▸ contains_at rfl plain rest
    have cut : before hostname (str ":") = front := parts ▸ before_at rfl plain rest
    rw [if_pos contained, cut]
    exact plain
  · have absent : contains hostname (str ":") = false := not_contains here
    rw [absent]
    exact here

theorem hostName_isPrefix (hostname : Str) : hostName hostname <+: hostname := by
  unfold hostName
  split
  · exact before_isPrefix _ _
  · exact List.prefix_rfl

theorem hostName_head {hostname : Str} {c : UInt8} (other : c ≠ ch ':') :
    (hostName hostname).head? = some c ↔ hostname.head? = some c := by
  constructor
  · intro head
    rw [← head_of_front (hostName_isPrefix hostname) (List.mem_of_head? head)]
    exact head
  · intro head
    unfold hostName
    split
    · rename_i contained
      obtain ⟨front, rest, whole, plain⟩ := List.eq_append_cons_of_mem ((contains_byte_iff _ _).mp contained)
      have parts : hostname = front ++ (str ":" ++ rest) := whole
      have cut : before hostname (str ":") = front := parts ▸ before_at rfl plain rest
      rw [cut]
      cases front with
      | nil =>
        rw [whole] at head
        exact absurd (Option.some.inj head).symm other
      | cons b front =>
        rw [whole] at head
        exact head
    · exact head

theorem mem_site {host : Str} {port : Option Int} (valid : ∀ n ∈ port, 0 < n ∧ n ≤ 65535) {c : UInt8} (other : isDigit c = false)
    (colon : c ≠ ch ':') : c ∈ site host port ↔ c ∈ host := by
  cases port with
  | none => rfl
  | some n =>
    have range := valid n rfl
    have digits : c ∉ ofInt n := colon_not_digit (by omega) other
    have sign : c ∉ str ":" := by
      intro member
      exact colon (List.mem_singleton.mp member)
    simp only [site, List.mem_append, digits, sign, or_false]

theorem site_head {host : Str} {port : Option Int} {c : UInt8} (colon : c ≠ ch ':') :
    (site host port).head? = some c ↔ host.head? = some c := by
  cases port with
  | none => rfl
  | some n =>
    cases host with
    | nil =>
      constructor
      · intro head
        exact absurd (Option.some.inj head).symm colon
      · intro head
        cases head
    | cons b host => rfl

theorem behindUser_suffix (authority : Str) : behindUser authority <:+ authority := by
  unfold behindUser
  split
  · exact after_suffix _ _
  · exact List.suffix_rfl

theorem behindUser_at {user : Str} (plain : ch '@' ∉ user) (rest : Str) : behindUser (user ++ ch '@' :: rest) = rest := by
  have contained : contains (user ++ ([ch '@'] ++ rest)) (str "@") = true := contains_at rfl plain rest
  have behind : after (user ++ ([ch '@'] ++ rest)) (str "@") = rest := after_at rfl plain rest
  exact (if_pos contained).trans behind

theorem behindUser_none {authority : Str} (absent : ch '@' ∉ authority) : behindUser authority = authority := by
  have none_ : contains authority (str "@") = false := not_contains absent
  rw [behindUser, none_]
  rfl

theorem behindUser_site {host : Str} {port : Option Int} (valid : ∀ n ∈ port, 0 < n ∧ n ≤ 65535) :
    behindUser (site host port) = site (behindUser host) port := by
  by_cases here : ch '@' ∈ host
  · obtain ⟨user, rest, rfl, plain⟩ := List.eq_append_cons_of_mem here
    have parts : site (user ++ ch '@' :: rest) port = user ++ ch '@' :: site rest port := by
      cases port <;> simp [site]
    rw [parts, behindUser_at plain, behindUser_at plain]
  · have absent : ch '@' ∉ site host port := fun member => here ((mem_site valid (by decide) (by decide)).mp member)
    rw [behindUser_none absent, behindUser_none here]

theorem site_shaped {host : Str} (plain : ch ':' ∉ host) {port : Int} (range : 0 < port ∧ port ≤ 65535) :
    Shaped (site host (shown port)) (behindUser host) (shown port) := by
  refine ⟨behindUser_site (shown_valid range), fun member => plain ?_, shown_valid range, shown_ne port⟩
  exact (behindUser_suffix host).subset member

/-- What getUrl makes of an authority has the shape that it leaves as it is, but for two signs of a
user at its start. -/
theorem rewritten_shaped {given : Int} (range : 0 < given ∧ given ≤ 65535) (authority : Str) :
    ∃ host, Shaped (rewritten given authority).1 host (shown (rewritten given authority).2) ∧ chopDots host = host ∧
      ((rewritten given authority).1.head? = some (ch '@') ↔ str "@@" <+: authority) := by
  have final := hostsPort_valid range (behindUser authority)
  have chopped : ch ':' ∉ chopDots (hostName (behindUser authority)) := fun member =>
    hostName_plain _ ((chopDots_isPrefix _).subset member)
  have dots := chopDots_chopped (hostName (behindUser authority))
  have parts : rewritten given authority =
      (userOf authority ++ site (chopDots (hostName (behindUser authority))) (shown (hostsPort given (behindUser authority))),
        hostsPort given (behindUser authority)) := by
    simp only [rewritten, splitPort_eq, withPort_eq]
  have head : (site (chopDots (hostName (behindUser authority))) (shown (hostsPort given (behindUser authority)))).head? =
      some (ch '@') ↔ (behindUser authority).head? = some (ch '@') := by
    rw [site_head (by decide), chopDots_head (by decide), hostName_head (by decide)]
  rw [parts]
  simp only
  rcases user_cases authority with ⟨absent, whole, none_⟩ | ⟨user, plain, whole, kept⟩
  · rw [none_, List.nil_append]
    refine ⟨_, site_shaped chopped final, chopDots_of_suffix dots (behindUser_suffix _), ?_⟩
    rw [head, whole]
    constructor
    · exact fun first => absurd (List.mem_of_head? first) absent
    · exact fun front => absurd (front.subset List.mem_cons_self) absent
  · cases user with
    | nil =>
      have empty : userOf authority = [] := kept
      rw [empty, List.nil_append]
      refine ⟨_, site_shaped chopped final, chopDots_of_suffix dots (behindUser_suffix _), ?_⟩
      rw [head]
      have text : authority = ch '@' :: behindUser authority := whole
      generalize behindUser authority = rest at text ⊢
      rw [text]
      cases rest with
      | nil => decide
      | cons b rest => simp [str, eq_comm]
    | cons b user =>
      have first : b ≠ ch '@' := fun same => plain (same ▸ List.mem_cons_self)
      have front : userOf authority = (b :: user) ++ str "@" := kept
      rw [front, List.append_assoc]
      refine ⟨_, ⟨behindUser_at plain _, chopped, shown_valid final, shown_ne _⟩, dots, ?_⟩
      rw [whole]
      constructor
      · exact fun same => absurd (Option.some.inj same) first
      · exact fun start => absurd (List.cons_prefix_cons.mp start).1.symm first

theorem not_mem_rewritten {given : Int} (range : 0 < given ∧ given ≤ 65535) {authority : Str} {c : UInt8}
    (other : isDigit c = false) (colon : c ≠ ch ':') (sign : c ≠ ch '@') (absent : c ∉ authority) :
    c ∉ (rewritten given authority).1 := by
  have host : c ∉ site (chopDots (hostName (behindUser authority))) (shown (hostsPort given (behindUser authority))) := by
    rw [mem_site (shown_valid (hostsPort_valid range _)) other colon]
    intro member
    have inside := (hostName_isPrefix _).subset ((chopDots_isPrefix _).subset member)
    exact absent ((behindUser_suffix _).subset inside)
  simp only [rewritten, splitPort_eq, withPort_eq, List.mem_append]
  rintro (user | no)
  · rcases user_cases authority with ⟨_, _, none_⟩ | ⟨name, _, whole, kept⟩
    · rw [none_] at user
      cases user
    · rw [kept] at user
      split at user
      · rcases List.mem_append.mp user with inside | at_
        · rw [whole] at absent
          exact absent (List.mem_append_left _ inside)
        · exact sign (List.mem_singleton.mp at_)
      · cases user
  · exact host no

theorem urlParts_absoluteUrl {scheme authority : Str} (plain : ch ':' ∉ scheme) (slashless : ch '/' ∉ authority) {given : Int}
    (range : 0 < given ∧ given ≤ 65535) (path : Str) (https : Bool) :
    HTTPHeader.urlParts https (absoluteUrl true false given (urlText scheme authority path)).1 =
      HTTPHeader.urlParts https (urlText scheme (rewritten given authority).1 (removeWhiteSpace path)) := by
  have free := not_mem_rewritten range (by decide) (by decide) (by decide) slashless
  rw [absoluteUrl_urlText path plain slashless]
  split
  · have whole : scheme ++ str "://" ++ (rewritten given authority).1 ++ (str "/" ++ removeWhiteSpace path) =
        urlText scheme (rewritten given authority).1 (removeWhiteSpace path) := by simp [urlText]
    rw [whole]
  · rename_i empty
    have none_ : removeWhiteSpace path = [] := List.length_eq_zero_iff.mp (by omega)
    rw [none_, List.append_nil]
    exact urlParts_bare plain free https

theorem urlText_inj {scheme a b p q : Str} (first : ch '/' ∉ a) (second : ch '/' ∉ b) :
    urlText scheme a p = urlText scheme b q ↔ a = b ∧ p = q := by
  have parts : ∀ a p : Str, urlText scheme a p = scheme ++ str "://" ++ (a ++ ch '/' :: p) := by
    intro a p
    simp [urlText, str]
  rw [parts, parts, List.append_cancel_left_eq]
  exact cut_unique first second

/- A relative target. -/

theorem chopDots_behindUser (authority : Str) :
    chopDots (behindUser authority) = behindUser authority ↔ chopDots authority = authority := by
  rcases user_cases authority with ⟨_, whole, _⟩ | ⟨user, _, whole, _⟩
  · rw [whole]
  · constructor
    · intro chopped
      rw [whole, chopDots_append (by decide), chopped]
    · intro chopped
      exact chopDots_of_suffix chopped (behindUser_suffix _)

theorem trimmed_behind {k middle path : Str} (plain : ∀ b ∈ middle.head?, isWhiteSpace b = false) :
    removeWhiteSpace (chopDots k ++ middle ++ ch '/' :: path) = chopDots k ++ middle ++ ch '/' :: path ↔
      removeWhiteSpace (k ++ ch '/' :: path) = k ++ ch '/' :: path := by
  have slash : isWhiteSpace (ch '/') = false := by decide
  have dot : isWhiteSpace (ch '.') = false := by decide
  have last : ∀ front : Str, (front ++ ch '/' :: path).getLast? = (ch '/' :: path).getLast? := by
    intro front
    rw [List.getLast?_append, List.getLast?_cons]
    rfl
  have head : (∀ b ∈ (chopDots k ++ middle ++ ch '/' :: path).head?, isWhiteSpace b = false) ↔
      ∀ b ∈ (k ++ ch '/' :: path).head?, isWhiteSpace b = false := by
    cases chopped : chopDots k with
    | nil =>
      have left : ∀ b ∈ ([] ++ middle ++ ch '/' :: path).head?, isWhiteSpace b = false := by
        cases middle with
        | nil => simp [slash]
        | cons b middle => exact plain
      have right : ∀ b ∈ (k ++ ch '/' :: path).head?, isWhiteSpace b = false := by
        cases k with
        | nil => simp [slash]
        | cons b k =>
          intro c first
          have same : b = c := Option.some.inj first
          by_cases dots : c = ch '.'
          · rw [dots]
            exact dot
          · have member := (mem_chopDots dots).mpr (List.mem_of_head? (same ▸ rfl : (b :: k).head? = some c))
            rw [chopped] at member
            cases member
      exact ⟨fun _ => right, fun _ => left⟩
    | cons b rest =>
      have front := head_of_front (chopDots_isPrefix k) (chopped ▸ List.mem_cons_self : b ∈ chopDots k)
      rw [chopped] at front
      rw [List.head?_append (l := k), ← front]
      rfl
  rw [removeWhiteSpace_eq_iff (by simp [slash]), removeWhiteSpace_eq_iff (by simp [slash]), last, last, head]

theorem relative_shaped (name path : Str) (plain : ch ':' ∉ name) {port : Int} (range : 0 < port ∧ port ≤ 65535) :
    ∃ authority rest host shown_, str "http://" ++ site (chopDots name) (shown port) ++ ch '/' :: path =
        urlText (str "http") authority rest ∧ ch '/' ∉ authority ∧ Shaped authority host shown_ ∧
      (authority.head? = some (ch '@') ↔ name.head? = some (ch '@')) ∧
      (chopDots host = host ↔ (ch '/' ∈ name → (before name (str "/")).getLast? ≠ some (ch '.'))) ∧
      (removeWhiteSpace rest = rest ↔
        removeWhiteSpace (after (name ++ ch '/' :: path) (str "/")) = after (name ++ ch '/' :: path) (str "/")) := by
  have valid := shown_valid range
  by_cases slash : ch '/' ∈ name
  · obtain ⟨front, k, rfl, free⟩ := List.eq_append_cons_of_mem slash
    have split : before (front ++ ch '/' :: k) (str "/") = front := @before_at (ch '/') (str "/") _ rfl free k
    have behind : after (front ++ ch '/' :: k ++ ch '/' :: path) (str "/") = k ++ ch '/' :: path := by
      rw [List.append_assoc]
      exact @after_at (ch '/') (str "/") _ rfl free (k ++ ch '/' :: path)
    have colonless : ch ':' ∉ front := fun member => plain (List.mem_append_left _ member)
    have parts : site (front ++ ch '/' :: chopDots k) (shown port) = front ++ ch '/' :: (chopDots k ++ site [] (shown port)) := by
      cases shown port <;> simp [site]
    have sign : ∀ b ∈ (site [] (shown port)).head?, isWhiteSpace b = false := by
      cases shown port with
      | none => simp [site]
      | some n =>
        intro b head
        rw [← Option.some.inj (head : some (ch ':') = some b)]
        decide
    rw [chopDots_append (by decide), split, behind, parts]
    refine ⟨front, chopDots k ++ site [] (shown port) ++ ch '/' :: path, behindUser front, none, ?_, free, ?_, ?_, ?_,
      trimmed_behind sign⟩
    · simp [urlText, str]
    · refine ⟨rfl, fun member => colonless ((behindUser_suffix front).subset member), by simp, by simp⟩
    · cases front with
      | nil => exact iff_of_false (by simp) (by simp [ch])
      | cons b front => rfl
    · rw [chopDots_behindUser, chopDots_eq_iff]
      exact ⟨fun last _ => last, fun last => last slash⟩
  · have free : ch '/' ∉ site (chopDots name) (shown port) := by
      rw [mem_site valid (by decide) (by decide), mem_chopDots (by decide)]
      exact slash
    have behind : after (name ++ ch '/' :: path) (str "/") = path := @after_at (ch '/') (str "/") _ rfl slash path
    have chopped : ch ':' ∉ chopDots name := fun member => plain ((chopDots_isPrefix name).subset member)
    refine ⟨_, path, _, _, ?_, free, site_shaped chopped range, ?_, ?_, ?_⟩
    · simp [urlText, str]
    · rw [site_head (by decide), chopDots_head (by decide)]
    · exact iff_of_true (chopDots_of_suffix (chopDots_chopped name) (behindUser_suffix _)) fun there => absurd there slash
    · rw [behind]

end GuardianUrls
