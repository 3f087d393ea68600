import E2Guardian.RegMatch

/- URLs in the redirection to the access denied page: miniURLEncode, and HTTPHeader::decode over the matches
   of urldecode_re. The matches are those of RegExp::match; the meaning beside them is one pass over the text. -/
namespace GuardianUrlEncoding
open GuardianString GuardianRegReplace GuardianRegMatch

def isLetterOrDigit (c : UInt8) : Bool :=
  (ch 'A' ≤ c && c ≤ ch 'Z') || (ch 'a' ≤ c && c ≤ ch 'z') || (ch '0' ≤ c && c ≤ ch '9')

def lowerDigit (d : UInt8) : UInt8 := if d < 10 then ch '0' + d else ch 'a' + (d - 10)

def twoDigits (c : UInt8) : Str := [lowerDigit (c / 16), lowerDigit (c % 16)]

def encodeByte (c : UInt8) : Str := if isLetterOrDigit c then [c] else ch '%' :: twoDigits c

def miniURLEncode (s : Str) : Str := (cstr s).flatMap encodeByte

def digitOf (a : UInt8) : Option UInt8 :=
  if ch 'a' ≤ a ∧ a ≤ ch 'f' then some (a - 87)
  else if ch 'A' ≤ a ∧ a ≤ ch 'F' then some (a - 55)
  else if ch '0' ≤ a ∧ a ≤ ch '9' then some (a - 48)
  else none

def hexToChar (n : Str) (all : Bool) : Str :=
  match n with
  | x :: y :: _ =>
    match digitOf x, digitOf y with
    | some a, some b =>
      let c := a * 16 + b
      if all || isLetterOrDigit c || c == ch '-' then cstr [c] else ch '%' :: n
    | _, _ => ch '%' :: n
  | _ => n

def decodeLoop (s : Str) (decodeAll : Bool) : List Record → Nat → Str
  | [], pos => s.drop pos
  | r :: rest, pos =>
    (if pos < r.offset then (s.drop pos).take (r.offset - pos) else []) ++ hexToChar (r.result.drop 1) decodeAll ++
      decodeLoop s decodeAll rest (r.offset + 3)

def decode (urldecode_re : RegExp) (s : Str) (decodeAll : Bool) : Str :=
  if s.length < 3 then s
  else
    match urldecode_re.match_ (cstr s) with
    | none => s
    | some records => decodeLoop s decodeAll records 0

/- What the expression finds. -/

def startsTriple : Str → Bool
  | p :: x :: y :: _ => p == ch '%' && isHex x && isHex y
  | _ => false

def firstTriple : Str → Option Nat
  | [] => none
  | c :: t => if startsTriple (c :: t) then some 0 else (firstTriple t).map (· + 1)

/-- `%[0-9a-fA-F][0-9a-fA-F]`, wherever the search starts. -/
def FindsTriples (urldecode_re : RegExp) : Prop :=
  ∀ text notbol, match firstTriple text with
    | none => urldecode_re text notbol = none
    | some i => ∃ found, urldecode_re text notbol = some found ∧ found.groups = [] ∧
        found.whole.rm_so = i ∧ found.whole.rm_eo = i + 3

def turnedBack (all : Bool) : Str → Str
  | [] => []
  | c :: t => if startsTriple (c :: t) then hexToChar (t.take 2) all ++ turnedBack all (t.drop 2) else c :: turnedBack all t
termination_by s => s.length
decreasing_by
  all_goals
    simp only [List.length_drop, List.length_cons]
    omega

theorem firstTriple_fits {s : Str} {i : Nat} (found : firstTriple s = some i) : startsTriple (s.drop i) = true := by
  induction s generalizing i with
  | nil => cases found
  | cons c t ih =>
    rw [firstTriple] at found
    split at found
    · rename_i here
      obtain rfl := Option.some.inj found
      exact here
    · obtain ⟨j, later, rfl⟩ := Option.map_eq_some_iff.mp found
      exact ih later

theorem triple_length {s : Str} (triple : startsTriple s = true) : 3 ≤ s.length := by
  rcases s with _ | ⟨p, _ | ⟨x, _ | ⟨y, t⟩⟩⟩
  · cases triple
  · cases triple
  · cases triple
  · simp

theorem firstTriple_inside {s : Str} {i : Nat} (found : firstTriple s = some i) : i + 3 ≤ s.length := by
  have long := triple_length (firstTriple_fits found)
  rw [List.length_drop] at long
  omega

theorem turnedBack_none {s : Str} (all : Bool) (none_ : firstTriple s = none) : turnedBack all s = s := by
  induction s with
  | nil => rw [turnedBack]
  | cons c t ih =>
    rw [firstTriple] at none_
    rw [turnedBack]
    split at none_
    · cases none_
    · rename_i other
      rw [if_neg other, ih (Option.map_eq_none_iff.mp none_)]

theorem turnedBack_first {s : Str} {i : Nat} (all : Bool) (found : firstTriple s = some i) :
    turnedBack all s = s.take i ++ hexToChar (((s.drop i).take 3).drop 1) all ++ turnedBack all (s.drop (i + 3)) := by
  induction s generalizing i with
  | nil => cases found
  | cons c t ih =>
    rw [firstTriple] at found
    rw [turnedBack]
    split at found
    · rename_i here
      obtain rfl := Option.some.inj found
      rw [if_pos here]
      rfl
    · rename_i other
      obtain ⟨j, later, rfl⟩ := Option.map_eq_some_iff.mp found
      rw [if_neg other, ih later, Nat.add_right_comm]
      rfl

section Matches
variable {urldecode_re : RegExp} (finds : FindsTriples urldecode_re)
include finds

theorem rounds_none {pos : Str} (none_ : firstTriple pos = none) (base : Nat) (notbol : Bool) :
    rounds urldecode_re pos base notbol = [] := by
  have search := finds pos notbol
  rw [none_] at search
  rw [rounds, search]

theorem rounds_first {pos : Str} {i : Nat} (found : firstTriple pos = some i) (base : Nat) (notbol : Bool) :
    rounds urldecode_re pos base notbol = ⟨i + base, 3, cstr ((pos.drop i).take 3)⟩ ::
      rounds urldecode_re (pos.drop (i + 3)) (base + (i + 3)) true := by
  have search := finds pos notbol
  rw [found] at search
  obtain ⟨span, search, groups, start, stop⟩ := search
  have pmatch : span.pmatch = [some span.whole] := by
    rw [Found.pmatch, groups]
    rfl
  have largest : largestoffset span.pmatch = i + 3 := by
    rw [largestoffset, largestoffset_max, pmatch]
    simp [stop]
  have three : i + 3 - i = 3 := by omega
  rw [rounds, search]
  dsimp only
  rw [largest, if_pos (by omega), pmatch]
  simp [entry, part, start, stop]

theorem decodeLoop_rounds {s : Str} (nulFree : 0 ∉ s) (all : Bool) (n : Nat) : ∀ (base : Nat) (notbol : Bool),
    (s.drop base).length ≤ n →
      decodeLoop s all (rounds urldecode_re (s.drop base) base notbol) base = turnedBack all (s.drop base) := by
  induction n using Nat.strong_induction_on with
  | _ n ih =>
    intro base notbol short
    cases found : firstTriple (s.drop base) with
    | none => rw [rounds_none finds found, decodeLoop, turnedBack_none all found]
    | some i =>
      have triple := firstTriple_inside found
      rw [List.length_drop] at triple short
      have clean : 0 ∉ ((s.drop base).drop i).take 3 := fun inside =>
        nulFree (List.mem_of_mem_drop (List.mem_of_mem_drop (List.mem_of_mem_take inside)))
      have behind := ih (n - (i + 3)) (by omega) (base + (i + 3)) true (by
        rw [List.length_drop]
        omega)
      have front : (if base < i + base then (s.drop base).take (i + base - base) else []) = (s.drop base).take i := by
        split
        · rw [Nat.add_sub_cancel]
        · rename_i notBehind
          obtain rfl : i = 0 := by omega
          rfl
      have next : i + base + 3 = base + (i + 3) := by omega
      rw [← List.drop_drop] at behind
      rw [rounds_first finds found, decodeLoop, turnedBack_first all found, cstr_of_nul_free clean, front, next, behind]

theorem decode_eq {s : Str} (nulFree : 0 ∉ s) (all : Bool) : decode urldecode_re s all = turnedBack all s := by
  rw [decode, cstr_of_nul_free nulFree]
  cases found : firstTriple s with
  | none =>
    have search := finds s false
    rw [found] at search
    have missed : urldecode_re.match_ s = none := by simp [RegExp.match_, search]
    rw [turnedBack_none all found, missed]
    split <;> rfl
  | some i =>
    have triple := firstTriple_inside found
    have some_ : s ≠ [] := List.ne_nil_of_length_pos (by omega)
    have search := finds s false
    rw [found] at search
    obtain ⟨span, search, -⟩ := search
    have whole := decodeLoop_rounds finds nulFree all s.length 0 false (by simp)
    rw [List.drop_zero] at whole
    rw [if_neg (by omega), RegExp.match_, if_neg some_, search]
    exact whole

end Matches

/- The encoding. -/

theorem byte_encoded : ∀ c, (c ≠ 0 → hexToChar (twoDigits c) true = [c]) ∧ (twoDigits c).all isHex = true ∧
    (isLetterOrDigit c = true → c ≠ ch '%') ∧ (isHex c = true → isLetterOrDigit c = true) := byte_cases (by decide +kernel)

inductive Plain : Str → Prop
  | nil : Plain []
  | letterOrDigit {c : UInt8} {t : Str} (plain : isLetterOrDigit c = true) (rest : Plain t) : Plain (c :: t)
  | triple {x y : UInt8} {t : Str} (first : isHex x = true) (second : isHex y = true) (rest : Plain t) :
      Plain (ch '%' :: x :: y :: t)

theorem encodeByte_plain (c : UInt8) {t : Str} (rest : Plain t) : Plain (encodeByte c ++ t) := by
  rw [encodeByte]
  split
  · rename_i plain
    exact .letterOrDigit plain rest
  · have digits := (byte_encoded c).2.1
    simp only [twoDigits, List.all_cons, List.all_nil, Bool.and_true, Bool.and_eq_true] at digits
    exact .triple digits.1 digits.2 rest

theorem plain_encoding (s : Str) : Plain (s.flatMap encodeByte) := by
  induction s with
  | nil => exact .nil
  | cons c s ih => exact encodeByte_plain c ih

theorem Plain.nul_free {s : Str} (plain : Plain s) : 0 ∉ s := by
  have apart : ∀ c, isLetterOrDigit c = true → 0 ≠ c := by
    rintro c letter rfl
    exact absurd letter (by decide)
  induction plain with
  | nil => exact List.not_mem_nil
  | letterOrDigit letter _ ih =>
    intro inside
    rcases List.mem_cons.mp inside with first | later
    · exact apart _ letter first
    · exact ih later
  | triple first second _ ih =>
    have letters := fun c hex => (byte_encoded c).2.2.2 hex
    intro inside
    simp only [List.mem_cons] at inside
    rcases inside with percent | here | here | later
    · exact absurd percent (by decide)
    · exact apart _ (letters _ first) here
    · exact apart _ (letters _ second) here
    · exact ih later

theorem turnedBack_encodeByte {c : UInt8} (some_ : c ≠ 0) (t : Str) :
    turnedBack true (encodeByte c ++ t) = c :: turnedBack true t := by
  obtain ⟨back, digits, notPercent, -⟩ := byte_encoded c
  rw [encodeByte]
  split
  · rename_i letter
    have other : startsTriple (c :: t) = false := by
      rcases t with _ | ⟨x, _ | ⟨y, t⟩⟩
      · rfl
      · rfl
      · simp [startsTriple, notPercent letter]
    rw [List.singleton_append, turnedBack, if_neg (by rw [other]; exact Bool.false_ne_true)]
  · simp only [twoDigits, List.all_cons, List.all_nil, Bool.and_true, Bool.and_eq_true] at digits
    have triple : startsTriple (ch '%' :: lowerDigit (c / 16) :: lowerDigit (c % 16) :: t) = true := by
      simp [startsTriple, digits]
    rw [twoDigits, List.cons_append, List.cons_append, List.cons_append, List.nil_append, turnedBack, if_pos triple]
    exact congrArg (· ++ _) (back some_)

theorem turnedBack_encoding {s : Str} (nulFree : 0 ∉ s) : turnedBack true (s.flatMap encodeByte) = s := by
  induction s with
  | nil => rw [List.flatMap_nil, turnedBack]
  | cons c s ih =>
    rw [List.mem_cons, not_or] at nulFree
    obtain ⟨some_, rest⟩ := nulFree
    rw [List.flatMap_cons, turnedBack_encodeByte (Ne.symm some_), ih rest]

theorem decode_miniURLEncode {urldecode_re : RegExp} (finds : FindsTriples urldecode_re) {s : Str} (nulFree : 0 ∉ s) :
    decode urldecode_re (miniURLEncode s) true = s ∧ Plain (miniURLEncode s) := by
  have plain : Plain (miniURLEncode s) := plain_encoding (cstr s)
  refine ⟨?_, plain⟩
  rw [decode_eq finds plain.nul_free, miniURLEncode, cstr_of_nul_free nulFree, turnedBack_encoding nulFree]

theorem triple_order (i : Nat) : i ≤ i + 3 := Nat.le_add_right i 3

def tripleMatch : RegExp := fun text _ =>
  match found : firstTriple text with
  | none => none
  | some i => some ⟨⟨i, i + 3, triple_order i, firstTriple_inside found⟩, []⟩

theorem tripleMatch_finds : FindsTriples tripleMatch := by
  intro text notbol
  unfold tripleMatch
  split <;> rename_i found
  · split
    · rfl
    · rename_i other
      rw [found] at other
      cases other
  · split
    · rename_i other
      rw [found] at other
      cases other
    · rename_i found'
      rw [found] at found'
      obtain rfl := Option.some.inj found'
      exact ⟨_, rfl, rfl, rfl, rfl⟩

theorem query_round_trip : decode tripleMatch (miniURLEncode (str "a b?c=100%25&d")) true = str "a b?c=100%25&d" ∧
    Plain (miniURLEncode (str "a b?c=100%25&d")) :=
  decode_miniURLEncode tripleMatch_finds (by decide)

end GuardianUrlEncoding
