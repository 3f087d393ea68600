import Mathlib.Algebra.Group.Nat.Defs
import Mathlib.Algebra.Ring.Int.Defs
import Mathlib.Data.List.Basic
import Mathlib.Data.List.Infix
import Mathlib.Data.List.TakeWhile

/- The String class: byte strings with the operations the list readers, the filters and
   the storyboard use. A String may hold NUL bytes; what it hands out as a C string ends at
   the first of them. Plain `char` is signed on the supported platforms, and `tolower` is
   that of the C locale and of UTF-8 locales, which only changes 'A'..'Z'. -/
namespace GuardianString

abbrev Str := List UInt8

def ch (c : Char) : UInt8 := c.toNat.toUInt8

def str (s : String) : Str := s.toList.map ch

theorem str_append (s t : String) : str (s ++ t) = str s ++ str t := by
  rw [str, str, str, String.toList_append, List.map_append]

theorem str_ofList (l : List Char) : str (String.ofList l) = l.map ch := by
  rw [str, String.toList_ofList]

def charKey (b : UInt8) : Int := if b.toNat < 128 then b.toNat else b.toNat - 256

theorem charKey_injective : Function.Injective charKey := by
  intro a b same
  have ha := a.toNat_lt
  have hb := b.toNat_lt
  apply UInt8.toNat_inj.mp
  unfold charKey at same
  split at same <;> split at same <;> omega

theorem byte_cases {P : UInt8 → Prop} (all : ∀ n < 256, P (UInt8.ofNat n)) (c : UInt8) : P c := by
  have this := all c.toNat c.toNat_lt
  rwa [UInt8.ofNat_toNat] at this

def cstr (s : Str) : Str := s.takeWhile (· != 0)

def find (bs : Str) : Str → Option Nat
  | [] => if bs.isEmpty then some 0 else none
  | c :: s => if bs.isPrefixOf (c :: s) then some 0 else (find bs s).map (· + 1)

def contains (s bs : Str) : Bool := (find bs s).isSome

def after (s bs : Str) : Str :=
  match find bs s with
  | some i => s.drop (i + bs.length)
  | none => []

def before (s bs : Str) : Str :=
  match find bs s with
  | some i => s.take i
  | none => []

def startsWith (s bs : Str) : Bool := bs.isPrefixOf s

def endsWith (s bs : Str) : Bool := bs.isSuffixOf s

def chop (s : Str) : Str := s.dropLast

def isWhiteSpace (b : UInt8) : Bool :=
  b == ch ' ' || b == ch '\t' || b == ch '\r' || b == ch '\n'

/-- A string of white space only is left as it is: both searches fail and the whole string
    is its own trimmed part. -/
def removeWhiteSpace (s : Str) : Str :=
  if s.all isWhiteSpace then s
  else ((s.dropWhile isWhiteSpace).reverse.dropWhile isWhiteSpace).reverse

def tolower (b : UInt8) : UInt8 := if ch 'A' ≤ b ∧ b ≤ ch 'Z' then b + 32 else b

def toLower (s : Str) : Str := s.map tolower

def isHex (b : UInt8) : Bool :=
  (ch '0' ≤ b && b ≤ ch '9') || (ch 'a' ≤ b && b ≤ ch 'f') || (ch 'A' ≤ b && b ≤ ch 'F')

def hexValue (b : UInt8) : UInt8 :=
  if b ≤ ch '9' then b - ch '0' else if b ≤ ch 'F' then b - ch 'A' + 10 else b - ch 'a' + 10

def hexDecode : Str → Str
  | c1 :: c2 :: c3 :: t =>
    if c1 = ch '%' ∧ isHex c2 ∧ isHex c3 then (hexValue c2 * 16 + hexValue c3) :: hexDecode t
    else c1 :: hexDecode (c2 :: c3 :: t)
  | t => t -- the last two bytes are copied

/-- Unwinding of the output buffer for a parent reference, last byte first: one byte, then
    back over the previous separator. -/
def climb : Str → Str
  | [] => []
  | _ :: out => (out.dropWhile fun b => b != ch '/' && b != ch '\\').drop 1

def realPathLoop : Str → Str → Str
  | [], out => out
  | b :: t, out =>
    let c := t.headD 0
    let d := (t.drop 1).headD 0
    if b = ch '/' ∧ c = ch '/' then realPathLoop t out
    else if b = ch '.' ∧ (c = 0 ∨ c = ch '/') then realPathLoop t out
    else if b = ch '.' ∧ c = ch '.' ∧ (d = 0 ∨ d = ch '/' ∨ d = ch '\\') then
      match t with
      | [] => climb out
      | _ :: t' => realPathLoop t' (climb out)
    else realPathLoop t (b :: out)

def realPath (s : Str) : Str :=
  if s.length < 3 then s else cstr (realPathLoop s []).reverse

def isPunctuation (t : UInt8) : Bool :=
  t < ch '/' || t == ch ':' || t == ch ';' || t == ch '=' || t == ch '?' || t == ch '@' ||
    (90 < t && t < 97)

def removePunctuationLoop : Bool → Str → Str
  | _, [] => []
  | lastspace, t :: s =>
    if isPunctuation t || t == 32 then
      if lastspace then removePunctuationLoop true s else 32 :: removePunctuationLoop true s
    else t :: removePunctuationLoop false s

def removePunctuation (s : Str) : Str := removePunctuationLoop false s

def isSpace (b : UInt8) : Bool := b == 32 || (9 ≤ b && b ≤ 13)

def isDigit (b : UInt8) : Bool := ch '0' ≤ b && b ≤ ch '9'

def decimal (s : Str) : Nat :=
  (s.takeWhile isDigit).foldl (fun n b => 10 * n + (b - ch '0').toNat) 0

def signedDecimal : Str → Int
  | [] => 0
  | b :: t =>
    if b = ch '-' then -(decimal t : Int)
    else if b = ch '+' then decimal t
    else decimal (b :: t)

/-- `atoi`: `strtol` with its saturation to 64 bits, cast to a 32-bit `int`. -/
def toInteger (s : Str) : Int :=
  (max (-2 ^ 63) (min (2 ^ 63 - 1) (signedDecimal (s.dropWhile isSpace)))).bmod (2 ^ 32)

theorem hexValue_lt (b : UInt8) : isHex b = true → (hexValue b).toNat < 16 := by
  revert b
  exact byte_cases (by decide +kernel)

theorem find_some {bs s : Str} {i : Nat} (h : find bs s = some i) :
    i + bs.length ≤ s.length ∧ bs <+: s.drop i := by
  induction s generalizing i with
  | nil =>
    simp only [find, List.isEmpty_iff] at h
    split at h
    · rename_i empty
      simp only [Option.some.injEq] at h
      subst h
      simp [empty]
    · simp at h
  | cons c s ih =>
    simp only [find] at h
    split at h
    · rename_i here
      simp only [Option.some.injEq] at h
      subst h
      have pre := List.isPrefixOf_iff_prefix.mp here
      exact ⟨by simpa using pre.length_le, by simpa using pre⟩
    · obtain ⟨j, hj, rfl⟩ := Option.map_eq_some_iff.mp h
      obtain ⟨bound, pre⟩ := ih hj
      exact ⟨by simp only [List.length_cons]; omega, by simpa using pre⟩

theorem find_first {u s : Str} {p : Nat} (found : find u s = some p) : ∀ q < p, ¬ u <+: s.drop q := by
  induction s generalizing p with
  | nil =>
    simp only [find] at found
    split at found
    · cases found
      intro q early
      omega
    · cases found
  | cons c s ih =>
    simp only [find] at found
    split at found
    · cases found
      intro q early
      omega
    · rename_i here
      obtain ⟨j, later, rfl⟩ := Option.map_eq_some_iff.mp found
      intro q early occurs
      cases q with
      | zero => exact here (List.isPrefixOf_iff_prefix.mpr occurs)
      | succ q => exact ih later q (by omega) occurs

theorem contains_iff_occurs (s bs : Str) : contains s bs = true ↔ bs <:+: s := by
  induction s with
  | nil =>
    simp only [contains, find, List.infix_nil, List.isEmpty_iff]
    split <;> simp_all
  | cons c s ih =>
    simp only [contains, find] at ih ⊢
    split
    · rename_i here
      have pre := List.isPrefixOf_iff_prefix.mp here
      simp [pre.isInfix]
    · rename_i here
      rw [Option.isSome_map, ih, List.infix_cons_iff]
      simp only [List.isPrefixOf_iff_prefix] at here
      simp [here]

theorem find_place {front u more : Str} (first : ∀ i < front.length, ¬ u <+: (front ++ (u ++ more)).drop i) :
    find u (front ++ (u ++ more)) = some front.length := by
  have occurs : u <+: (front ++ (u ++ more)).drop front.length := by
    rw [List.drop_left]
    exact List.prefix_append u more
  cases found : find u (front ++ (u ++ more)) with
  | none =>
    have inside : u <:+: front ++ (u ++ more) := (List.prefix_append u more).isInfix.trans (List.suffix_append _ _).isInfix
    have some_ := (contains_iff_occurs _ _).mpr inside
    rw [contains, found] at some_
    cases some_
  | some p =>
    rcases Nat.lt_trichotomy p front.length with early | same | late
    · exact absurd (find_some found).2 (first p early)
    · rw [same]
    · exact absurd occurs (find_first found _ late)

theorem after_of_absent {s bs : Str} (absent : ¬ bs <:+: s) : after s bs = [] := by
  have none := mt (contains_iff_occurs s bs).mp absent
  rw [contains, Bool.not_eq_true, Option.isSome_eq_false_iff, Option.isNone_iff_eq_none] at none
  rw [after, none]

theorem contains_byte_iff (s : Str) (c : UInt8) : contains s [c] = true ↔ c ∈ s := by
  rw [contains_iff_occurs, List.singleton_infix_iff]

theorem find_byte (s : Str) (c : UInt8) :
    find [c] s = if c ∈ s then some (s.takeWhile (· != c)).length else none := by
  induction s with
  | nil => simp [find]
  | cons b s ih =>
    by_cases same : b = c
    · simp [find, same]
    · have flip : ¬ c = b := fun h => same h.symm
      simp only [find, List.isPrefixOf, ih, List.mem_cons, flip, false_or]
      by_cases member : c ∈ s <;> simp [member, same, flip]

theorem after_byte (s : Str) (c : UInt8) :
    after s [c] = (s.dropWhile (· != c)).drop 1 := by
  have cut : (s.takeWhile (· != c) ++ s.dropWhile (· != c)).drop (s.takeWhile (· != c)).length =
      s.dropWhile (· != c) := List.drop_left
  rw [List.takeWhile_append_dropWhile] at cut
  unfold after
  rw [find_byte]
  split
  · rename_i i found
    split at found
    · simp only [Option.some.injEq] at found
      subst found
      rw [← cut, List.drop_drop]
      rfl
    · simp at found
  · rename_i missing
    split at missing
    · simp at missing
    · rename_i absent
      have : s.dropWhile (· != c) = [] := by
        apply List.dropWhile_eq_nil_iff.mpr
        intro b member
        simp only [bne_iff_ne, ne_eq]
        exact fun same => absent (same ▸ member)
      simp [this]

theorem before_byte (s : Str) (c : UInt8) :
    before s [c] = if c ∈ s then s.takeWhile (· != c) else [] := by
  unfold before
  rw [find_byte]
  split
  · rename_i i found
    split at found
    · rename_i member
      simp only [Option.some.injEq] at found
      rw [if_pos member, ← found]
      exact (List.prefix_iff_eq_take.mp (List.takeWhile_prefix _)).symm
    · simp at found
  · rename_i missing
    split at missing
    · simp at missing
    · rename_i absent
      rw [if_neg absent]

theorem before_isPrefix (s bs : Str) : before s bs <+: s := by
  unfold before
  split
  · exact List.take_prefix _ _
  · exact List.nil_prefix

/-- Cutting at a text that occurs leaves less, unless the text is empty. -/
theorem after_length_lt {s bs : Str} (h : contains s bs = true) (nonempty : bs ≠ []) :
    (after s bs).length < s.length := by
  obtain ⟨i, hi⟩ := Option.isSome_iff_exists.mp h
  have bound := (find_some hi).1
  have positive := List.length_pos_iff.mpr nonempty
  simp only [after, hi, List.length_drop]
  omega

theorem after_suffix (s bs : Str) : after s bs <:+ s := by
  unfold after
  split
  · exact List.drop_suffix _ _
  · exact List.nil_suffix

/-- A byte that only ends a text is not followed by anything in it. -/
theorem last_not_followed {w : Str} {c : UInt8} (only : c ∉ w) (x : UInt8) : ¬ [c, x] <:+: w ++ [c] := by
  rintro ⟨u, v, split⟩
  rw [List.append_assoc, List.cons_append, List.cons_append, List.nil_append] at split
  rcases List.append_eq_append_iff.mp split with ⟨a, inner, rest⟩ | ⟨a, inner, rest⟩
  · cases a with
    | nil => simp at rest
    | cons y a =>
      obtain ⟨rfl, -⟩ := List.cons.inj rest
      exact only (by simp [inner])
  · have := congrArg List.length rest
    simp only [List.length_append, List.length_cons, List.length_nil] at this
    omega

theorem removeWhiteSpace_of_ends {x y : UInt8} (m : Str) (first : isWhiteSpace x = false)
    (last : isWhiteSpace y = false) : removeWhiteSpace (x :: (m ++ [y])) = x :: (m ++ [y]) := by
  unfold removeWhiteSpace
  rw [if_neg (by simp [first]), List.dropWhile_cons_of_neg (by simp [first])]
  have reversed : (x :: (m ++ [y])).reverse = y :: (x :: m).reverse := by simp
  rw [reversed, List.dropWhile_cons_of_neg (by simp [last]), ← reversed, List.reverse_reverse]

theorem digit_bounds {b : UInt8} (digit : isDigit b = true) : 48 ≤ b.toNat ∧ b.toNat ≤ 57 := by
  simp only [isDigit, Bool.and_eq_true, decide_eq_true_eq, UInt8.le_iff_toNat_le] at digit
  exact digit

theorem digit_ne {b c : UInt8} (digit : isDigit b = true) (low : c.toNat < 48) : b ≠ c := by
  rintro rfl
  have bounds := digit_bounds digit
  omega

theorem digit_not_space {b : UInt8} (digit : isDigit b = true) : isSpace b = false := by
  have bounds := digit_bounds digit
  have high : ¬ b ≤ 13 := by
    rw [UInt8.le_iff_toNat_le]
    have value : (13 : UInt8).toNat = 13 := by decide
    omega
  simp [isSpace, digit_ne digit (by decide : (32 : UInt8).toNat < 48), high]

theorem digit_not_whiteSpace {b : UInt8} (digit : isDigit b = true) : isWhiteSpace b = false := by
  have blank := digit_ne digit (by decide : (ch ' ').toNat < 48)
  have tab := digit_ne digit (by decide : (ch '\t').toNat < 48)
  have back := digit_ne digit (by decide : (ch '\r').toNat < 48)
  have line := digit_ne digit (by decide : (ch '\n').toNat < 48)
  simp [isWhiteSpace, blank, tab, back, line]

theorem removeWhiteSpace_of_none {s : Str} (none_ : ∀ b ∈ s, isWhiteSpace b = false) : removeWhiteSpace s = s := by
  have front : ∀ {t : Str}, (∀ b ∈ t, isWhiteSpace b = false) → t.dropWhile isWhiteSpace = t := by
    intro t plain
    cases t with
    | nil => rfl
    | cons b t => rw [List.dropWhile_cons_of_neg (by simp [plain b List.mem_cons_self])]
  unfold removeWhiteSpace
  split
  · rfl
  · rw [front none_, front (fun b member => none_ b (List.mem_reverse.mp member)), List.reverse_reverse]

theorem cstr_isPrefix (s : Str) : cstr s <+: s := List.takeWhile_prefix _

theorem cstr_nul_free (s : Str) : 0 ∉ cstr s := by
  intro member
  simpa using List.mem_takeWhile_imp member

theorem cstr_append {a : Str} (h : 0 ∉ a) (b : Str) : cstr (a ++ b) = a ++ cstr b := by
  apply List.takeWhile_append_of_pos
  intro x member
  simp only [bne_iff_ne, ne_eq]
  exact fun zero => h (zero ▸ member)

theorem cstr_of_nul_free {s : Str} (h : 0 ∉ s) : cstr s = s := by
  apply List.takeWhile_eq_self_iff.mpr
  intro b member
  simp only [bne_iff_ne, ne_eq]
  exact fun zero => h (zero ▸ member)

def removePTP (s : Str) : Str :=
  if startsWith s (str "http://") || startsWith s (str "https://") || startsWith s (str "ftp://") then
    after s (str "://")
  else s

def getHostname (s : Str) : Str :=
  let hostname := if contains s (str "://") then after s (str "://") else s
  let hostname := if contains hostname (str "/") then before hostname (str "/") else hostname
  if contains hostname (str "@") then after hostname (str "@") else hostname

def ofInt (n : Int) : Str := str (toString n)

theorem ofInt_eq (n : Int) :
    ofInt n = (if n < 0 then [ch '-'] else []) ++ (Nat.toDigits 10 n.natAbs).map ch := by
  cases n with
  | ofNat m =>
    show (Nat.repr m).toList.map ch = _
    rw [Nat.toList_repr, if_neg (by simp)]
    rfl
  | negSucc m =>
    show ("-" ++ Nat.repr (m + 1)).toList.map ch = _
    rw [String.toList_append, Nat.toList_repr, if_pos (Int.negSucc_lt_zero m)]
    rfl

theorem digits_nul_free (m : Nat) : 0 ∉ (Nat.toDigits 10 m).map ch := by
  intro member
  obtain ⟨c, inside, zero⟩ := List.mem_map.mp member
  have digit := Nat.isDigit_of_mem_toDigits (by decide) (by decide) inside
  simp only [Char.isDigit, Bool.and_eq_true, decide_eq_true_eq] at digit
  have low : 48 ≤ c.toNat := digit.1
  have high : c.toNat ≤ 57 := digit.2
  have value : (ch c).toNat = c.toNat := by
    simp only [ch, UInt8.toNat_ofNat']
    omega
  rw [zero, UInt8.toNat_zero] at value
  omega

theorem ofInt_nul_free (n : Int) : 0 ∉ ofInt n := by
  rw [ofInt_eq, List.mem_append]
  rintro (sign | digits)
  · split at sign
    · exact absurd sign (by decide)
    · simp at sign
  · exact digits_nul_free _ digits

theorem ofInt_ne_nil (n : Int) : ofInt n ≠ [] := by
  rw [ofInt_eq]
  simp

theorem splitOn_free (c : UInt8) (s : Str) : ∀ g ∈ s.splitOn c, c ∉ g := by
  induction s with
  | nil =>
    intro g member
    rw [List.splitOn_nil, List.mem_singleton] at member
    rw [member]
    exact List.not_mem_nil
  | cons b s ih =>
    intro g member
    rw [List.splitOn_cons_eq_if_modifyHead] at member
    split at member
    · rcases List.mem_cons.mp member with rfl | later
      · exact List.not_mem_nil
      · exact ih g later
    · rename_i other
      obtain ⟨first, rest, parts⟩ := List.exists_cons_of_ne_nil (List.splitOn_ne_nil c s)
      rw [parts] at member ih
      rw [List.modifyHead_cons] at member
      rcases List.mem_cons.mp member with rfl | later
      · intro inside
        rcases List.mem_cons.mp inside with same | inside
        · exact other (by simp [same])
        · exact ih first List.mem_cons_self inside
      · exact ih g (List.mem_cons_of_mem _ later)

end GuardianString
