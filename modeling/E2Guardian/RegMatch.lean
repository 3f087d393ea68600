import E2Guardian.RegReplace
import E2Guardian.Urls
import Mathlib.Tactic.IntervalCases

/- Search and replace in a line: RegExp::match, which puts the matches of all rounds and their groups
   into one list, and ListMeta::regExp over it. `regexec` is a parameter that reports spans of the text
   it is given. Its meaning beside it: each successive non-empty match gives way to the replacement, with
   the groups of that match under their own numbers. -/
namespace GuardianRegMatch
open GuardianString GuardianUrls GuardianRegReplace MachineInts

structure Span (n : Nat) where
  rm_so : Nat
  rm_eo : Nat
  ordered : rm_so ≤ rm_eo
  inside : rm_eo ≤ n

/-- What `regexec` reports: the match and its groups, without a span for −1. -/
structure Found (n : Nat) where
  whole : Span n
  groups : List (Option (Span n))

abbrev RegExp := (text : Str) → Bool → Option (Found text.length)

def maxSubExpressions : Nat := 1024

def Found.pmatch {n : Nat} (found : Found n) : List (Option (Span n)) :=
  (some found.whole :: found.groups).take (maxSubExpressions + 1)

def part {pos : Str} (m : Span pos.length) : Str := (pos.drop m.rm_so).take (m.rm_eo - m.rm_so)

def entry {pos : Str} (base : Nat) (m : Span pos.length) : Record := ⟨m.rm_so + base, m.rm_eo - m.rm_so, cstr (part m)⟩

def largestoffset {n : Nat} (pmatch : List (Option (Span n))) : Nat :=
  (pmatch.filterMap id).foldl (fun largest m =>
    let matchlen := m.rm_eo - m.rm_so
    if m.rm_so + matchlen > largest then m.rm_so + matchlen else largest) 0

theorem largestoffset_max {n : Nat} (spans : List (Span n)) (largest : Nat) :
    spans.foldl (fun largest m =>
      let matchlen := m.rm_eo - m.rm_so
      if m.rm_so + matchlen > largest then m.rm_so + matchlen else largest) largest =
    (spans.map (·.rm_eo)).foldl max largest := by
  induction spans generalizing largest with
  | nil => rfl
  | cons m spans ih =>
    have ordered := m.ordered
    have step : (if m.rm_so + (m.rm_eo - m.rm_so) > largest then m.rm_so + (m.rm_eo - m.rm_so) else largest) =
        max largest m.rm_eo := by
      split <;> omega
    rw [List.map_cons, List.foldl_cons, List.foldl_cons, ← ih, step]

theorem foldl_max_le_iff {bound start : Nat} {ns : List Nat} :
    ns.foldl max start ≤ bound ↔ start ≤ bound ∧ ∀ n ∈ ns, n ≤ bound := by
  induction ns generalizing start with
  | nil => simp
  | cons n ns ih => rw [List.foldl_cons, ih, max_le_iff, List.forall_mem_cons, and_assoc]

theorem largestoffset_inside {n : Nat} (pmatch : List (Option (Span n))) : largestoffset pmatch ≤ n := by
  rw [largestoffset, largestoffset_max]
  refine foldl_max_le_iff.mpr ⟨Nat.zero_le n, fun m member => ?_⟩
  obtain ⟨span, _, rfl⟩ := List.mem_map.mp member
  exact span.inside

def rounds (reg : RegExp) (pos : Str) (base : Nat) (notbol : Bool) : List Record :=
  match reg pos notbol with
  | none => []
  | some found =>
    found.pmatch.filterMap (Option.map (entry base)) ++
      if 0 < largestoffset found.pmatch then
        rounds reg (pos.drop (largestoffset found.pmatch)) (base + largestoffset found.pmatch) true
      else []
termination_by pos.length
decreasing_by
  have inside := largestoffset_inside found.pmatch
  rw [List.length_drop]
  omega

def RegExp.match_ (reg : RegExp) (text : Str) : Option (List Record) :=
  if text = [] then none
  else if (reg text false).isNone then none
  else some (rounds reg text 0 false)

def regExp (line : Str) (regexp_list : List RegExp) (replacement_list : List Str) : Bool × Str :=
  if line.length < 3 then (false, line)
  else (regexp_list.zip replacement_list).foldl (fun (linemodified, line) (re, repstr) =>
    match re.match_ (cstr line) with
    | some records => (true, newLine line repstr records 0)
    | none => (linemodified, line)) (false, line)

inductive Piece where
  | byte (c : UInt8)
  | group (k : Nat)

def pieces : Str → List Piece
  | [] => []
  | [c] => [.byte c]
  | c :: d :: rest =>
    if (c = ch '\\' ∨ c = ch '$') ∧ ch '1' ≤ d ∧ d ≤ ch '9' then .group (d - ch '0').toNat :: pieces rest
    else if c = ch '\\' ∧ (d = ch '\\' ∨ d = ch '$') then .byte d :: pieces rest
    else .byte c :: pieces (d :: rest)

def Piece.number : Piece → Option Nat
  | .byte _ => none
  | .group k => some k

def named (repstr : Str) : List Nat := (pieces repstr).filterMap Piece.number

def filled (group : Nat → Str) (ps : List Piece) : Str :=
  ps.flatMap fun p => match p with
    | .byte c => [c]
    | .group k => group k

def Found.empty {n : Nat} (found : Found n) : Bool := found.whole.rm_so == found.whole.rm_eo

/-- The text with each successive non-empty match replaced, `lookup` giving the texts of the groups.
    Behind an empty match the search goes on a byte further. -/
def replacedWith (lookup : (text : Str) → Found text.length → Nat → Str) (reg : RegExp) (repstr : Str) (text : Str)
    (notbol : Bool) : Str :=
  match reg text notbol with
  | none => text
  | some found =>
    if found.empty then
      if found.whole.rm_eo < text.length then
        text.take (found.whole.rm_eo + 1) ++ replacedWith lookup reg repstr (text.drop (found.whole.rm_eo + 1)) true
      else text
    else
      text.take found.whole.rm_so ++ filled (lookup text found) (pieces repstr) ++
        replacedWith lookup reg repstr (text.drop found.whole.rm_eo) true
termination_by text.length
decreasing_by
  · rw [List.length_drop]
    omega
  · rename_i filled_
    have ordered := found.whole.ordered
    have inside := found.whole.inside
    rw [Found.empty, beq_iff_eq] at filled_
    rw [List.length_drop]
    omega

def groupText (text : Str) (found : Found text.length) (k : Nat) : Str :=
  match found.groups[k - 1]? with
  | some (some m) => part m
  | _ => []

def replaced (reg : RegExp) (repstr line : Str) : Str :=
  replacedWith groupText reg repstr (cstr line) false ++ line.drop (cstr line).length

def Found.present {n : Nat} (found : Found n) : List (Span n) := (found.groups.take maxSubExpressions).filterMap id

def presentText (text : Str) (found : Found text.length) (k : Nat) : Str := ((found.present.map part)[k - 1]?).getD []

/-- None of these groups is found at another number. -/
def InPlace (numbers : List Nat) (text : Str) (found : Found text.length) : Prop :=
  ∀ k ∈ numbers, presentText text found k = groupText text found k

def barren (reg : RegExp) (text : Str) (notbol : Bool) : Bool :=
  match reg text notbol with
  | none => true
  | some found =>
    found.empty && if found.whole.rm_eo < text.length then barren reg (text.drop (found.whole.rm_eo + 1)) true else true
termination_by text.length
decreasing_by
  rw [List.length_drop]
  omega

/-- No group ends behind its match, the only empty match is the one that ends the search behind another, and of the groups
that count none is found at another number. -/
def Regular (numbers : List Nat) (reg : RegExp) (text : Str) (notbol behind : Bool) : Prop :=
  match reg text notbol with
  | none => True
  | some found =>
    (∀ m ∈ found.present, m.rm_eo ≤ found.whole.rm_eo) ∧
      if found.empty then behind = true ∧ found.whole.rm_eo = 0 ∧ barren reg (text.drop 1) true = true
      else InPlace numbers text found ∧ Regular numbers reg (text.drop found.whole.rm_eo) true true
termination_by text.length
decreasing_by
  rename_i filled_
  have ordered := found.whole.ordered
  have inside := found.whole.inside
  rw [Found.empty, beq_iff_eq] at filled_
  rw [List.length_drop]
  omega

/-- In no round of `RegExp::match` a group ends behind its match. -/
def Inside (reg : RegExp) (text : Str) (notbol : Bool) : Prop :=
  match reg text notbol with
  | none => True
  | some found =>
    (∀ m ∈ found.present, m.rm_eo ≤ found.whole.rm_eo) ∧
      if 0 < found.whole.rm_eo then Inside reg (text.drop found.whole.rm_eo) true else True
termination_by text.length
decreasing_by
  have inside := found.whole.inside
  rw [List.length_drop]
  omega

/-- What becomes of a text whose groups end in their matches: an empty match behind another is passed, any other is replaced. -/
def coded (reg : RegExp) (repstr : Str) (text : Str) (notbol behind : Bool) : Str :=
  match reg text notbol with
  | none => text
  | some found =>
    if behind ∧ found.whole.rm_eo = 0 then text
    else
      text.take found.whole.rm_so ++ filled (presentText text found) (pieces repstr) ++
        if 0 < found.whole.rm_eo then coded reg repstr (text.drop found.whole.rm_eo) true true else text
termination_by text.length
decreasing_by
  have inside := found.whole.inside
  rw [List.length_drop]
  omega

section found
variable {text : Str} (found : Found text.length)

theorem pmatch_present : found.pmatch.filterMap id = found.whole :: found.present := by
  rw [Found.pmatch, List.take_succ_cons]
  rfl

theorem pmatch_entries (base : Nat) :
    found.pmatch.filterMap (Option.map (entry base)) = entry base found.whole :: found.present.map (entry base) := by
  rw [← List.map_cons, ← pmatch_present, List.map_filterMap]
  rfl

theorem largestoffset_whole (inside : ∀ m ∈ found.present, m.rm_eo ≤ found.whole.rm_eo) :
    largestoffset found.pmatch = found.whole.rm_eo := by
  rw [largestoffset, largestoffset_max, pmatch_present, List.map_cons, List.foldl_cons, Nat.zero_max]
  apply Nat.le_antisymm
  · refine foldl_max_le_iff.mpr ⟨Nat.le_refl _, fun n member => ?_⟩
    obtain ⟨m, present, rfl⟩ := List.mem_map.mp member
    exact inside m present
  · exact (foldl_max_le_iff.mp (Nat.le_refl _)).1

theorem entry_stop (base : Nat) (m : Span text.length) : (entry base m).stop = m.rm_eo + base := by
  have ordered := m.ordered
  show m.rm_so + base + (m.rm_eo - m.rm_so) = m.rm_eo + base
  omega

theorem cstr_part (nulFree : (0 : UInt8) ∉ text) (m : Span text.length) : cstr (part m) = part m :=
  cstr_of_nul_free fun inside => nulFree (List.mem_of_mem_drop (List.mem_of_mem_take inside))

end found

/-- Each record lies in the text behind the base and has no more text than its length. -/
theorem rounds_place (reg : RegExp) (pos : Str) (base : Nat) (notbol : Bool) :
    ∀ r ∈ rounds reg pos base notbol, base ≤ r.offset ∧ r.stop ≤ base + pos.length ∧ r.result.length ≤ r.length := by
  fun_induction rounds reg pos base notbol with
  | case1 => simp
  | case2 pos base notbol found reported ih =>
    intro r member
    rcases List.mem_append.mp member with here | later
    · obtain ⟨span, _, given⟩ := List.mem_filterMap.mp here
      obtain ⟨m, rfl, rfl⟩ := Option.map_eq_some_iff.mp given
      refine ⟨Nat.le_add_left base m.rm_so, ?_, (List.takeWhile_prefix _).length_le.trans ?_⟩
      · have ends := m.inside
        rw [entry_stop]
        omega
      · exact List.length_take_le _ _
    · split at later
      · rename_i larger
        obtain ⟨start, stop, short⟩ := ih larger r later
        have ends := largestoffset_inside found.pmatch
        rw [List.length_drop] at stop
        exact ⟨by omega, by omega, short⟩
      · exact absurd later List.not_mem_nil

section filled
variable (repstr : Str)

theorem fill_filled (groups : List Str) : fill groups repstr =
    filled (fun k => if k ≤ groups.length then cstr (groups.getD (k - 1) []) else []) (pieces repstr) := by
  fun_induction pieces repstr with
  | case1 => rfl
  | case2 c => rfl
  | case3 c d rest back ih => rw [fill, if_pos back, ih]; rfl
  | case4 c d rest plain escape ih => rw [fill, if_neg plain, if_pos escape, ih]; rfl
  | case5 c d rest plain other ih => rw [fill, if_neg plain, if_neg other, ih]; rfl

theorem back_number {d : UInt8} (low : ch '1' ≤ d) (high : d ≤ ch '9') : (d - ch '0').toNat < 10 ∧ 1 ≤ (d - ch '0').toNat := by
  have one : 49 ≤ d.toNat := low
  have nine : d.toNat ≤ 57 := high
  have zero : ch '0' ≤ d := show 48 ≤ d.toNat by omega
  rw [UInt8.toNat_sub_of_le _ _ zero, show (ch '0').toNat = 48 from rfl]
  omega

theorem named_bounds : ∀ k ∈ named repstr, k < 10 ∧ 1 ≤ k := by
  unfold named
  fun_induction pieces repstr with
  | case1 => simp
  | case2 c => simp [Piece.number]
  | case3 c d rest back ih => exact List.forall_mem_cons.mpr ⟨back_number back.2.1 back.2.2, ih⟩
  | case4 c d rest plain escape ih => exact ih
  | case5 c d rest plain other ih => exact ih

theorem filled_congr {one two : Nat → Str} (same : ∀ k ∈ named repstr, one k = two k) :
    filled one (pieces repstr) = filled two (pieces repstr) := by
  unfold named at same
  unfold filled
  generalize pieces repstr = ps at same ⊢
  induction ps with
  | nil => rfl
  | cons p ps ih =>
    cases p with
    | byte c => exact congrArg (c :: ·) (ih same)
    | group k =>
      obtain ⟨here, others⟩ := List.forall_mem_cons.mp (show ∀ j ∈ k :: ps.filterMap Piece.number, one j = two j from same)
      exact congrArg₂ (· ++ ·) here (ih others)

end filled

/-- Behind the groups of a match the walk may count records of the next round, which are empty. -/
theorem fill_present {pos : Str} (nulFree : (0 : UInt8) ∉ pos) (found : Found pos.length) (base : Nat) (repstr : Str)
    {counted : List Record} (empty : ∀ r ∈ counted, r.result = []) :
    fill (texts (found.present.map (entry base) ++ counted)) repstr = filled (presentText pos found) (pieces repstr) := by
  have shown : texts (found.present.map (entry base) ++ counted) = found.present.map part ++ texts counted := by
    rw [texts, texts, List.map_append, List.map_map]
    congr 1
    exact List.map_congr_left fun m _ => cstr_part nulFree m
  rw [fill_filled, shown]
  have value (k : Nat) : (found.present.map part ++ texts counted).getD (k - 1) [] = presentText pos found k := by
    rw [List.getD_eq_getElem?_getD, List.getElem?_append, presentText]
    split
    · rfl
    · rename_i beyond
      rw [List.getElem?_eq_none (Nat.le_of_not_lt beyond), Option.getD_none]
      cases at_ : (texts counted)[k - 1 - (found.present.map part).length]? with
      | none => rfl
      | some t =>
        obtain ⟨r, member, rfl⟩ := List.mem_map.mp (List.mem_of_getElem? at_)
        exact empty r member
  have plain (k : Nat) : cstr (presentText pos found k) = presentText pos found k := by
    rw [presentText]
    cases at_ : (found.present.map part)[k - 1]? with
    | none => rfl
    | some t =>
      obtain ⟨m, _, rfl⟩ := List.mem_map.mp (List.mem_of_getElem? at_)
      exact cstr_part nulFree m
  refine filled_congr repstr fun k number => ?_
  have positive := (named_bounds repstr k number).2
  rw [value, plain]
  split
  · rfl
  · rename_i beyond
    rw [← value, List.getD_eq_getElem?_getD, List.getElem?_eq_none (by omega), Option.getD_none]

theorem barren_replaced {reg : RegExp} {text : Str} {notbol : Bool} (lookup : (text : Str) → Found text.length → Nat → Str)
    (repstr : Str) (left : barren reg text notbol = true) : replacedWith lookup reg repstr text notbol = text := by
  fun_induction replacedWith lookup reg repstr text notbol with
  | case1 => rfl
  | case2 text notbol found reported empty more ih =>
    rw [barren, reported] at left
    simp only [empty, Bool.true_and, if_pos more] at left
    rw [ih left, List.take_append_drop]
  | case3 => rfl
  | case4 text notbol found reported filled_ =>
    rw [barren, reported] at left
    simp [filled_] at left

theorem submatches_first {limit : Nat} {r : Record} {rest : List Record} (longer : limit < r.stop) (small : r.stop < 2 ^ 32) :
    submatches limit (r :: rest) = [] :=
  List.takeWhile_cons_of_neg (by simpa [uint32_of_lt small] using longer)

theorem ends_counted {text : Str} {spans : List (Span text.length)} {stop : Nat} (inside : ∀ m ∈ spans, m.rm_eo ≤ stop)
    (base : Nat) (later : List Record) :
    submatches (base + stop) (spans.map (entry base) ++ later) = spans.map (entry base) ++ submatches (base + stop) later := by
  refine List.takeWhile_append_of_pos fun r member => decide_eq_true ?_
  obtain ⟨m, group, rfl⟩ := List.mem_map.mp member
  have ends := inside m group
  have cut := uint32_le (entry base m).stop
  rw [entry_stop] at cut ⊢
  omega

/-- What a later round adds to the groups of a match has no text. -/
theorem counted_empty (reg : RegExp) (text : Str) (base : Nat) (notbol : Bool) (small : base + text.length < 2 ^ 32) :
    ∀ r ∈ submatches base (rounds reg text base notbol), r.result = [] := by
  intro r member
  obtain ⟨start, stop, short⟩ := rounds_place reg text base notbol r ((List.takeWhile_prefix _).subset member)
  have limit : uint32 r.stop ≤ base := by simpa using List.mem_takeWhile_imp member
  rw [uint32_of_lt (by omega), Record.stop] at limit
  exact List.length_eq_zero_iff.mp (by omega)

section walk
variable (reg : RegExp) (repstr line tail : Str) (low : line.length < 2 ^ 32)
include low

/-- A search that starts where the last match ended: the records of its round that still count for that match are passed. -/
theorem newLine_coded (n : Nat) : ∀ (text : Str) (base : Nat) (notbol behind : Bool), text.length = n →
    Inside reg text notbol → line.drop base = text ++ tail → base + text.length ≤ line.length → (0 : UInt8) ∉ text →
    newLine line repstr
        ((rounds reg text base notbol).drop (if behind then (submatches base (rounds reg text base notbol)).length else 0)) base =
      coded reg repstr text notbol behind ++ tail := by
  induction n using Nat.strongRecOn with
  | ind n ih =>
    intro text base notbol behind size regular place fits nulFree
    unfold Inside at regular
    unfold coded rounds
    cases reported : reg text notbol with
    | none => simp [submatches, newLine_end low, place]
    | some found =>
      simp only [reported] at regular
      obtain ⟨inside, regular⟩ := regular
      have ordered := found.whole.ordered
      have ends := found.whole.inside
      simp only [pmatch_entries, largestoffset_whole found inside]
      by_cases passed : behind = true ∧ found.whole.rm_eo = 0
      · rw [if_pos passed, passed.2, if_neg (Nat.lt_irrefl 0), List.append_nil, passed.1, if_pos rfl]
        have early : ∀ m ∈ found.whole :: found.present, m.rm_eo ≤ 0 :=
          List.forall_mem_cons.mpr ⟨Nat.le_of_eq passed.2, passed.2 ▸ inside⟩
        have all := ends_counted early base []
        rw [List.append_nil, List.map_cons, Nat.add_zero] at all
        rw [all, submatches, List.takeWhile_nil, List.append_nil, List.drop_length, newLine_end low, place]
      · rw [if_neg passed]
        let rest := text.drop found.whole.rm_eo
        let later := if 0 < found.whole.rm_eo then rounds reg rest (base + found.whole.rm_eo) true else []
        have stop : (entry base found.whole).stop = base + found.whole.rm_eo := by
          rw [entry_stop, Nat.add_comm]
        have skipped : (if behind then (submatches base (entry base found.whole ::
            found.present.map (entry base) ++ later)).length
            else 0) = 0 := by
          cases behind with
          | false => rfl
          | true =>
            have positive : found.whole.rm_eo ≠ 0 := fun zero => passed ⟨rfl, zero⟩
            rw [if_pos rfl, List.cons_append, submatches_first (by rw [stop]; omega) (by rw [stop]; omega), List.length_nil]
        have counted := ends_counted inside base later
        have chunk : (line.drop base).take ((entry base found.whole).offset - base) = text.take found.whole.rm_so := by
          rw [place, entry, Nat.add_sub_cancel, List.take_append_of_le_length (by omega)]
        have onward : line.drop (base + found.whole.rm_eo) = rest ++ tail := by
          rw [← List.drop_drop, place, List.drop_append_of_le_length ends]
        have shorter : rest.length = text.length - found.whole.rm_eo := List.length_drop
        have behind_ : (∀ r ∈ submatches (base + found.whole.rm_eo) later, r.result = []) ∧
            newLine line repstr (later.drop (submatches (base + found.whole.rm_eo) later).length) (base + found.whole.rm_eo) =
              (if 0 < found.whole.rm_eo then coded reg repstr rest true true else text) ++ tail := by
          by_cases goes : 0 < found.whole.rm_eo
          · have next := ih rest.length (by omega) rest (base + found.whole.rm_eo) true true rfl
              (by rwa [if_pos goes] at regular) onward (by omega) fun inside_ => nulFree (List.mem_of_mem_drop inside_)
            rw [if_pos rfl] at next
            simp only [later, if_pos goes]
            exact ⟨counted_empty reg rest (base + found.whole.rm_eo) true (by omega), next⟩
          · have zero : found.whole.rm_eo = 0 := by omega
            simp only [later, if_neg goes, submatches, List.takeWhile_nil, List.length_nil, List.drop_zero, newLine_end low]
            rw [zero, Nat.add_zero, place]
            exact ⟨fun _ absent => absurd absent List.not_mem_nil, rfl⟩
        change newLine line repstr ((entry base found.whole :: found.present.map (entry base) ++ later).drop _) base = _
        rw [skipped, List.drop_zero, List.cons_append, newLine_next (Nat.le_add_left base _) (by rw [stop]; omega), chunk, stop,
          counted, fill_present nulFree found base repstr behind_.1, List.length_append, List.drop_length_add_append, behind_.2]
        simp only [List.append_assoc, rest]

end walk

theorem pieces_letters (n : Nat) : pieces (List.replicate n (ch 'x')) = List.replicate n (.byte (ch 'x')) := by
  induction n with
  | zero => rfl
  | succ n ih =>
    cases n with
    | zero => rfl
    | succ n =>
      rw [List.replicate_succ, List.replicate_succ, pieces, if_neg (by decide), if_neg (by decide), ← List.replicate_succ, ih]
      rfl

theorem named_letters (n : Nat) : named (List.replicate n (ch 'x')) = [] := by
  rw [named, pieces_letters]
  exact List.filterMap_eq_nil_iff.mpr fun p member => by rw [List.eq_of_mem_replicate member]; rfl

theorem barren_iff_untouched (reg : RegExp) (text : Str) (notbol : Bool) : barren reg text notbol = true ↔
    ∀ repstr, named repstr = [] → replacedWith groupText reg repstr text notbol = text := by
  constructor
  · exact fun left repstr _ => barren_replaced _ repstr left
  · intro untouched
    by_contra matched
    have long (n : Nat) : n ≤ (replacedWith groupText reg (List.replicate n (ch 'x')) text notbol).length := by
      clear untouched
      fun_induction barren reg text notbol with
      | case1 => exact absurd rfl matched
      | case2 text notbol found reported ih =>
        unfold replacedWith
        simp only [reported]
        split
        · rename_i empty
          split
          · rename_i more
            rw [empty, Bool.true_and, if_pos more] at matched
            exact (ih more matched).trans (by simp)
          · rename_i last
            rw [empty, Bool.true_and, if_neg last] at matched
            exact absurd rfl matched
        · rw [pieces_letters]
          simp [filled]
          omega
    have tooLong := long (text.length + 1)
    rw [untouched _ (named_letters _)] at tooLong
    omega

theorem filled_match {n : Nat} {found : Found n} (filled_ : ¬found.empty = true) : found.whole.rm_so < found.whole.rm_eo := by
  have ordered := found.whole.ordered
  rw [Found.empty, beq_iff_eq] at filled_
  omega

section numbering
variable {reg : RegExp}

theorem regular_inside {numbers : List Nat} {text : Str} {notbol behind : Bool}
    (regular : Regular numbers reg text notbol behind) : Inside reg text notbol := by
  fun_induction Regular numbers reg text notbol behind with
  | case1 text notbol behind reported =>
    unfold Inside
    rw [reported]
    trivial
  | case2 text notbol behind found reported ih =>
    obtain ⟨inside, regular⟩ := regular
    unfold Inside
    rw [reported]
    refine ⟨inside, ?_⟩
    by_cases empty : found.empty = true
    · rw [if_pos empty] at regular
      rw [regular.2.1, if_neg (Nat.lt_irrefl 0)]
      trivial
    · rw [if_neg empty] at regular
      split
      · exact ih empty regular.2
      · trivial

/-- Where every group that counts keeps its number, the groups that took part are as good as all of them. -/
theorem regular_coded (repstr : Str) {text : Str} {notbol behind : Bool}
    (regular : Regular (named repstr) reg text notbol behind) :
    coded reg repstr text notbol behind = replacedWith groupText reg repstr text notbol := by
  fun_induction Regular (named repstr) reg text notbol behind with
  | case1 text notbol behind reported =>
    unfold replacedWith coded
    rw [reported]
  | case2 text notbol behind found reported ih =>
    have regular := regular.2
    unfold replacedWith coded
    by_cases empty : found.empty = true
    · rw [if_pos empty] at regular
      obtain ⟨after_, start, left⟩ := regular
      simp only [reported, if_pos empty, start, after_, and_self, if_true, Nat.zero_add, barren_replaced _ _ left,
        List.take_append_drop, ite_self]
    · rw [if_neg empty] at regular
      obtain ⟨placed, later⟩ := regular
      have longer := filled_match empty
      have further : ¬(behind = true ∧ found.whole.rm_eo = 0) := by omega
      simp only [reported, if_neg empty, if_neg further, if_pos (show 0 < found.whole.rm_eo by omega), ih empty later,
        filled_congr repstr placed]

def marker (k : Nat) : Str := [0, ch '\\', ch '0' + k.toUInt8, 0]

theorem pieces_marker {k : Nat} (small : k < 10) (positive : 1 ≤ k) : pieces (marker k) = [.byte 0, .group k, .byte 0] := by
  interval_cases k <;> rfl

theorem part_nulFree {text : Str} (nulFree : (0 : UInt8) ∉ text) (m : Span text.length) : (0 : UInt8) ∉ part m :=
  fun inside => nulFree (List.mem_of_mem_drop (List.mem_of_mem_take inside))

theorem groupText_nulFree {text : Str} (nulFree : (0 : UInt8) ∉ text) (found : Found text.length) (k : Nat) :
    (0 : UInt8) ∉ groupText text found k := by
  unfold groupText
  split
  · exact part_nulFree nulFree _
  · exact List.not_mem_nil

theorem presentText_nulFree {text : Str} (nulFree : (0 : UInt8) ∉ text) (found : Found text.length) (k : Nat) :
    (0 : UInt8) ∉ presentText text found k := by
  rw [presentText]
  cases at_ : (found.present.map part)[k - 1]? with
  | none => exact List.not_mem_nil
  | some t =>
    obtain ⟨m, _, rfl⟩ := List.mem_map.mp (List.mem_of_getElem? at_)
    exact part_nulFree nulFree m

theorem named_marker {k : Nat} (small : k < 10) (positive : 1 ≤ k) : named (marker k) = [k] := by
  rw [named, pieces_marker small positive]
  rfl

theorem barren_nil (reg : RegExp) (notbol : Bool) : barren reg [] notbol = true := by
  unfold barren
  cases reg [] notbol with
  | none => rfl
  | some found =>
    have ordered := found.whole.ordered
    have ends := found.whole.inside
    have none_ : found.whole.rm_eo ≤ 0 := ends
    have empty : found.empty = true := beq_iff_eq.mpr (by omega)
    simp [empty]

/-- A NUL goes in where an empty match is replaced. -/
theorem empty_replaced {text : Str} {notbol behind : Bool} {found : Found text.length} (reported : reg text notbol = some found)
    (nulFree : (0 : UInt8) ∉ text) (empty : found.empty = true) (replaced_ : ¬(behind = true ∧ found.whole.rm_eo = 0)) :
    coded reg [0] text notbol behind ≠ replacedWith groupText reg [0] text notbol := by
  have ends := found.whole.inside
  have start : found.whole.rm_so = found.whole.rm_eo := beq_iff_eq.mp empty
  have nul : filled (presentText text found) (pieces [0]) = [0] := rfl
  unfold coded replacedWith
  simp only [reported, if_neg replaced_, if_pos empty, start, nul, List.append_assoc]
  generalize (if 0 < found.whole.rm_eo then coded reg [0] (text.drop found.whole.rm_eo) true true else text) = later
  intro same
  have at_ := congrArg (·[found.whole.rm_eo]?) same
  have length : (text.take found.whole.rm_eo).length = found.whole.rm_eo := List.length_take_of_le ends
  simp only [List.getElem?_append_right (Nat.le_of_eq length), length, Nat.sub_self, List.cons_append, List.nil_append,
    List.getElem?_cons_zero] at at_
  split at at_
  · rename_i more
    rw [List.getElem?_append_left (by rw [List.length_take]; omega), List.getElem?_take_of_lt (Nat.lt_succ_self _)] at at_
    exact nulFree (List.mem_of_getElem? at_.symm)
  · rename_i last
    rw [List.getElem?_eq_none (Nat.le_of_not_lt last)] at at_
    cases at_

/-- The markers tell the texts of the groups apart, and a NUL or a long replacement what is replaced. -/
theorem markers_regular {numbers : List Nat} (bounds : ∀ k ∈ numbers, k < 10 ∧ 1 ≤ k) {text : Str} {notbol behind : Bool}
    (inside : Inside reg text notbol) (nulFree : (0 : UInt8) ∉ text)
    (same : ∀ repstr, named repstr ⊆ numbers →
      coded reg repstr text notbol behind = replacedWith groupText reg repstr text notbol) :
    Regular numbers reg text notbol behind := by
  fun_induction Regular numbers reg text notbol behind with
  | case1 text notbol behind reported => trivial
  | case2 text notbol behind found reported ih =>
    unfold Inside at inside
    simp only [reported] at inside
    obtain ⟨inside, later⟩ := inside
    refine ⟨inside, ?_⟩
    by_cases empty : found.empty = true
    · rw [if_pos empty]
      have passed : behind = true ∧ found.whole.rm_eo = 0 := by
        by_contra replaced_
        exact empty_replaced reported nulFree empty replaced_ (same [0] (List.nil_subset _))
      refine ⟨passed.1, passed.2, ?_⟩
      cases text with
      | nil => exact barren_nil reg true
      | cons c text =>
        refine (barren_iff_untouched reg _ true).mpr fun repstr unnamed => ?_
        have kept := same repstr (unnamed ▸ List.nil_subset _)
        unfold coded replacedWith at kept
        simp only [reported, if_pos empty, passed.1, passed.2, and_self, if_true] at kept
        rw [if_pos (show 0 < (c :: text).length from Nat.succ_pos _)] at kept
        exact (List.append_cancel_left ((List.take_append_drop 1 (c :: text)).trans kept)).symm
    · rw [if_neg empty]
      have longer := filled_match empty
      have further : ¬(behind = true ∧ found.whole.rm_eo = 0) := by omega
      rw [if_pos (by omega)] at later
      have each (repstr : Str) (only : named repstr ⊆ numbers) :
          filled (presentText text found) (pieces repstr) ++ coded reg repstr (text.drop found.whole.rm_eo) true true =
            filled (groupText text found) (pieces repstr) ++
              replacedWith groupText reg repstr (text.drop found.whole.rm_eo) true := by
        have texts_ := same repstr only
        unfold coded replacedWith at texts_
        simpa only [reported, if_neg empty, if_neg further, if_pos (show 0 < found.whole.rm_eo by omega), List.append_assoc,
          List.append_cancel_left_eq] using texts_
      have placed : InPlace numbers text found := by
        intro k number
        obtain ⟨small, positive⟩ := bounds k number
        have marked := each (marker k) (by rw [named_marker small positive]; exact List.cons_subset.mpr ⟨number,
            List.nil_subset _⟩)
        rw [pieces_marker small positive] at marked
        exact ((cut_unique (presentText_nulFree nulFree found k) (groupText_nulFree nulFree found k)).mp
          (by simpa [filled] using marked)).1
      refine ⟨placed, ih empty later (fun member => nulFree (List.mem_of_mem_drop member)) fun repstr only => ?_⟩
      have texts_ := each repstr only
      rw [filled_congr repstr fun k number => placed k (only number)] at texts_
      exact List.append_cancel_left texts_

theorem all_inPlace {numbers : List Nat} (bounds : ∀ k ∈ numbers, k < 10 ∧ 1 ≤ k) {text : Str} {found : Found text.length}
    (all : ∀ g ∈ found.groups, g.isSome = true) : InPlace numbers text found := by
  intro k number
  have small := (bounds k number).1
  obtain ⟨spans, groups⟩ : ∃ spans : List (Span text.length), found.groups = spans.map some := by
    refine ⟨found.groups.filterMap id, ?_⟩
    rw [List.map_filterMap_some_eq_filter_map_isSome, List.map_id, List.filter_eq_self.mpr all]
  have present : found.present = spans.take maxSubExpressions := by
    rw [Found.present, groups, ← List.map_take, List.filterMap_map]
    exact List.filterMap_some
  have low : k - 1 < maxSubExpressions := by
    rw [maxSubExpressions]
    omega
  rw [presentText, groupText, present, groups, List.getElem?_map, List.getElem?_map, List.getElem?_take_of_lt low]
  cases spans[k - 1]? <;> rfl

end numbering

section line
variable (reg : RegExp) (line : Str)

/-- Lines that are left as they are: those of two bytes, and an empty C string. -/
def Short : Prop := line.length < 3 ∨ cstr line = []

instance : Decidable (Short line) := inferInstanceAs (Decidable (_ ∨ _))

/-- No match is missed in a short line. In a longer one of less than 2^32 bytes no group ends behind its match, no empty match
is met but the one that ends the search, and no group that the replacement names is found under another number. -/
def Settled (repstr : Str) : Prop :=
  if Short line then barren reg (cstr line) false = true
  else reg (cstr line) false = none ∨ (line.length < 2 ^ 32 ∧ Regular (named repstr) reg (cstr line) false false)

/-- The groups end in their matches, as those of a POSIX expression do. -/
def Tame : Prop := Short line ∨ reg (cstr line) false = none ∨ (line.length < 2 ^ 32 ∧ Inside reg (cstr line) false)

theorem cstr_rest : cstr line ++ line.drop (cstr line).length = line :=
  (List.prefix_iff_eq_append.mp (cstr_isPrefix line))

theorem short_regExp (short : Short line) (repstr : Str) : (regExp line [reg] [repstr]).2 = line := by
  unfold regExp
  split
  · rfl
  · rename_i long
    have ended := short.resolve_left long
    simp [RegExp.match_, ended]

theorem regExp_rounds (long : ¬Short line) (low : line.length < 2 ^ 32) (repstr : Str) :
    (regExp line [reg] [repstr]).2 = newLine line repstr (rounds reg (cstr line) 0 false) 0 := by
  obtain ⟨size, started⟩ := not_or.mp long
  rw [regExp, if_neg size]
  cases reported : reg (cstr line) false with
  | none =>
    have ended : rounds reg (cstr line) 0 false = [] := by rw [rounds, reported]
    simp [RegExp.match_, started, reported, ended, newLine_end low]
  | some found => simp [RegExp.match_, started, reported]

theorem regExp_none (reported : reg (cstr line) false = none) (repstr : Str) :
    (regExp line [reg] [repstr]).2 = line ∧ replaced reg repstr line = line := by
  constructor
  · unfold regExp
    split
    · rfl
    · simp [RegExp.match_, reported]
  · unfold replaced replacedWith
    rw [reported]
    exact cstr_rest line

theorem regExp_coded (long : ¬Short line) (low : line.length < 2 ^ 32) (inside : Inside reg (cstr line) false) (repstr : Str) :
    (regExp line [reg] [repstr]).2 = coded reg repstr (cstr line) false false ++ line.drop (cstr line).length := by
  have fits : 0 + (cstr line).length ≤ line.length := by
    rw [Nat.zero_add]
    exact (cstr_isPrefix line).length_le
  have walked := newLine_coded reg repstr line _ low _ (cstr line) 0 false false rfl inside (cstr_rest line).symm fits
    (cstr_nul_free line)
  rw [if_neg Bool.false_ne_true, List.drop_zero] at walked
  rw [regExp_rounds reg line long low, walked]

end line

def optionalA : RegExp := fun text _ =>
  let i := text.findIdx (· == ch 'b')
  if found : i < text.length then
    if before_ : 0 < i ∧ text[i - 1]? = some (ch 'a') then
      some ⟨⟨i - 1, i + 1, by omega, found⟩, [some ⟨i - 1, i, by omega, by omega⟩, some ⟨i, i + 1, by omega, found⟩]⟩
    else some ⟨⟨i, i + 1, by omega, found⟩, [none, some ⟨i, i + 1, by omega, found⟩]⟩
  else none

theorem both_settled : Settled optionalA (str "xaby") (str "[\\2]") := by
  have first : optionalA (str "xaby") false = some ⟨⟨1, 3, by decide, by decide⟩,
      [some ⟨1, 2, by decide, by decide⟩, some ⟨2, 3, by decide, by decide⟩]⟩ := rfl
  have second : optionalA ((str "xaby").drop 3) true = none := rfl
  have text : cstr (str "xaby") = str "xaby" := by decide
  rw [Settled, if_neg (by decide), text]
  refine .inr ⟨by decide, ?_⟩
  unfold Regular
  rw [first]
  refine ⟨by decide, ?_⟩
  rw [if_neg (by decide)]
  refine ⟨all_inPlace (named_bounds _) (by decide), ?_⟩
  unfold Regular
  rw [second]
  trivial

/-- In `xby` only the second did, but none is named. -/
theorem none_settled : Settled optionalA (str "xby") (str "<b>") := by
  have first : optionalA (str "xby") false = some ⟨⟨1, 2, by decide, by decide⟩, [none, some ⟨1, 2, by decide, by decide⟩]⟩ := rfl
  have second : optionalA ((str "xby").drop 2) true = none := rfl
  have text : cstr (str "xby") = str "xby" := by decide
  have unnamed : named (str "<b>") = [] := by decide
  rw [Settled, if_neg (by decide), text, unnamed]
  refine .inr ⟨by decide, ?_⟩
  unfold Regular
  rw [first]
  refine ⟨by decide, ?_⟩
  rw [if_neg (by decide)]
  refine ⟨fun _ absent => absurd absent List.not_mem_nil, ?_⟩
  unfold Regular
  rw [second]
  trivial

end GuardianRegMatch
