import E2Guardian.MachineInts
import E2Guardian.Strings
import Mathlib.Algebra.BigOperators.Group.List.Basic
import Mathlib.Algebra.Order.Ring.Int

/- Search and replace with the records that RegExp::match leaves: the replacement with its
   `\1`..`\9` and `$1`..`$9`, the one pass of ListMeta::regExp over a line, and a round of
   DataBuffer::contentRegExp, which sizes the new block in a first pass and copies in a second.
   Offsets and lengths are `unsigned int`s, of which sums wrap, and so does the `int sizediff`. -/
namespace GuardianRegReplace
open GuardianString MachineInts

structure Record where
  offset : Nat
  length : Nat
  result : Str

def Record.stop (r : Record) : Nat := r.offset + r.length

def fill (submatches : List Str) : Str → Str
  | [] => []
  | [c] => [c]
  | c :: d :: rest =>
    if (c = ch '\\' ∨ c = ch '$') ∧ ch '1' ≤ d ∧ d ≤ ch '9' then
      let submatch := (d - ch '0').toNat
      (if submatch ≤ submatches.length then cstr (submatches.getD (submatch - 1) []) else []) ++ fill submatches rest
    else if c = ch '\\' ∧ (d = ch '\\' ∨ d = ch '$') then d :: fill submatches rest
    else c :: fill submatches (d :: rest)

def submatches (limit : Nat) (rest : List Record) : List Record := rest.takeWhile (fun r => decide (uint32 r.stop ≤ limit))

def texts (records : List Record) : List Str := records.map (·.result)

def newLine (line repstr : Str) : List Record → Nat → Str
  | [], srcoff => (line.drop srcoff).take (uint32 line.length - srcoff)
  | r :: rest, srcoff =>
    let chunk := if r.offset > srcoff then (line.drop srcoff).take (r.offset - srcoff) else []
    let start := if r.offset > srcoff then r.offset else srcoff
    let limit := uint32 (start + r.length)
    let subs := submatches limit rest
    chunk ++ fill (texts subs) repstr ++ newLine line repstr (rest.drop subs.length) limit
termination_by records => records.length
decreasing_by
  rw [List.length_drop, List.length_cons]
  omega

structure newreplacement where
  «match» : Record
  replacement : Str

def matchqueue (replacement : Str) : List Record → List newreplacement
  | [] => []
  | r :: rest =>
    let subs := submatches (uint32 r.stop) rest
    ⟨r, fill (texts subs) replacement⟩ :: matchqueue replacement (rest.drop subs.length)
termination_by records => records.length
decreasing_by
  rw [List.length_drop, List.length_cons]
  omega

def sizediff (queue : List newreplacement) : Int :=
  queue.foldl (fun diff newrep => int32 (int32 (diff - newrep.match.length) + newrep.replacement.length)) 0

def copies (data : Str) : List newreplacement → Nat → Str
  | [], srcoff => data.drop srcoff
  | newrep :: queue, srcoff =>
    let nextoffset := newrep.match.offset
    let chunk := if nextoffset > srcoff then (data.drop srcoff).take (nextoffset - srcoff) else []
    let start := if nextoffset > srcoff then nextoffset else srcoff
    let replen := uint32 newrep.replacement.length
    chunk ++ newrep.replacement.take replen ++ copies data queue (uint32 (start + newrep.match.length))

structure Round where
  buffer_length : Int
  written : Str

def contentRound (data replacement : Str) (records : List Record) : Round :=
  let queue := matchqueue replacement records
  ⟨data.length + sizediff queue, copies data queue 0⟩

def within (limit : Nat) (rest : List Record) : List Record := rest.takeWhile (fun r => decide (r.stop ≤ limit))

/-- The matches that do not end inside another, with the texts of their submatches. -/
def topLevel : List Record → List (Record × List Str)
  | [] => []
  | r :: rest => (r, texts (within r.stop rest)) :: topLevel (rest.drop (within r.stop rest).length)
termination_by records => records.length
decreasing_by
  rw [List.length_drop, List.length_cons]
  omega

def Apart (len : Nat) : List (Record × List Str) → Nat → Prop
  | [], start => start ≤ len
  | m :: rest, start => start ≤ m.1.offset ∧ Apart len rest m.1.stop

instance decidableApart (len : Nat) : ∀ matches_ start, Decidable (Apart len matches_ start)
  | [], start => inferInstanceAs (Decidable (start ≤ len))
  | m :: rest, start =>
    haveI := decidableApart len rest m.1.stop
    inferInstanceAs (Decidable (start ≤ m.1.offset ∧ Apart len rest m.1.stop))

theorem apart_le {len : Nat} {matches_ : List (Record × List Str)} {start : Nat} (apart : Apart len matches_ start) :
    start ≤ len := by
  induction matches_ generalizing start with
  | nil => exact apart
  | cons m rest ih =>
    have inside := ih apart.2
    rw [Record.stop] at inside
    exact apart.1.trans (by omega)

def growth (replacement : Str) (records : List Record) : Int :=
  ((topLevel records).map fun m => ((fill m.2 replacement).length : Int) - m.1.length).sum

/-- No match ends where an offset wraps. -/
def Below (records : List Record) : Prop := ∀ m ∈ topLevel records, m.1.stop < 2 ^ 32

section below
variable {r : Record} {rest : List Record}

theorem Below.first (below : Below (r :: rest)) : r.stop < 2 ^ 32 :=
  below (r, texts (within r.stop rest)) (by rw [topLevel]; exact List.mem_cons_self)

theorem Below.later (below : Below (r :: rest)) : Below (rest.drop (within r.stop rest).length) :=
  fun m member => below m (by rw [topLevel]; exact List.mem_cons_of_mem _ member)

theorem Below.submatches (below : Below (r :: rest)) : submatches r.stop rest = within r.stop rest := by
  have next := below.later
  have limit := below.first
  clear below
  generalize r.stop = stop at next limit
  induction rest with
  | nil => rfl
  | cons q rest ih =>
    rw [GuardianRegReplace.submatches, within] at *
    by_cases inside : q.stop ≤ stop
    · rw [List.takeWhile_cons_of_pos (by simpa using inside), List.length_cons, List.drop_succ_cons] at next
      have same := uint32_of_lt (Nat.lt_of_le_of_lt inside limit)
      rw [List.takeWhile_cons_of_pos (by simpa [same] using inside), List.takeWhile_cons_of_pos (by simpa using inside), ih next]
    · rw [List.takeWhile_cons_of_neg (by simpa using inside), List.length_nil, List.drop_zero] at next
      have same := uint32_of_lt next.first
      rw [List.takeWhile_cons_of_neg (by simpa [same] using inside), List.takeWhile_cons_of_neg (by simpa using inside)]

end below

theorem apart_below {len start : Nat} {records : List Record} (apart : Apart len (topLevel records) start)
    (small : len < 2 ^ 32) : Below records := by
  unfold Below
  generalize topLevel records = matches_ at apart
  induction matches_ generalizing start with
  | nil => exact fun _ absent => absurd absent List.not_mem_nil
  | cons m rest ih =>
    exact List.forall_mem_cons.mpr ⟨Nat.lt_of_le_of_lt (apart_le apart.2) small, ih apart.2⟩

theorem matchqueue_topLevel (replacement : Str) {records : List Record} (below : Below records) :
    matchqueue replacement records = (topLevel records).map fun m => ⟨m.1, fill m.2 replacement⟩ := by
  fun_induction topLevel records with
  | case1 => simp [matchqueue]
  | case2 r rest ih => rw [matchqueue, List.map_cons, uint32_of_lt below.first, below.submatches, ih below.later]

theorem sizediff_from (queue : List newreplacement) (diff : Int) :
    queue.foldl (fun diff newrep => int32 (int32 (diff - newrep.match.length) + newrep.replacement.length)) (int32 diff) =
      int32 (diff + (queue.map fun newrep => (newrep.replacement.length : Int) - newrep.match.length).sum) := by
  induction queue generalizing diff with
  | nil => simp
  | cons newrep queue ih =>
    have step : int32 (int32 (int32 diff - newrep.match.length) + newrep.replacement.length) =
        int32 (diff + (newrep.replacement.length - newrep.match.length)) := by
      unfold int32
      rw [Int.bmod_sub_bmod, Int.bmod_add_bmod]
      congr 1
      omega
    rw [List.foldl_cons, step, ih, List.map_cons, List.sum_cons, Int.add_assoc]

theorem sizediff_growth (replacement : Str) {records : List Record} (below : Below records) :
    sizediff (matchqueue replacement records) = int32 (growth replacement records) := by
  have passed := sizediff_from (matchqueue replacement records) 0
  rw [Int.zero_add] at passed
  rw [sizediff, growth, ← int32_zero, passed, matchqueue_topLevel replacement below, List.map_map]
  rfl

section walk
variable {text replacement : Str} {r : Record} {rest : List Record} {srcoff : Nat}

theorem walk_chunk (before_ : srcoff ≤ r.offset) :
    (if r.offset > srcoff then r.offset else srcoff) = r.offset ∧
      (if r.offset > srcoff then (text.drop srcoff).take (r.offset - srcoff) else []) =
        (text.drop srcoff).take (r.offset - srcoff) := by
  split
  · exact ⟨rfl, rfl⟩
  · rw [show r.offset - srcoff = 0 by omega, List.take_zero]
    exact ⟨by omega, rfl⟩

theorem newLine_next (before_ : srcoff ≤ r.offset) (small : r.stop < 2 ^ 32) :
    newLine text replacement (r :: rest) srcoff =
      (text.drop srcoff).take (r.offset - srcoff) ++ fill (texts (submatches r.stop rest)) replacement ++
        newLine text replacement (rest.drop (submatches r.stop rest).length) r.stop := by
  obtain ⟨start, chunk⟩ := @walk_chunk text r srcoff before_
  have limit : uint32 (r.offset + r.length) = r.stop := uint32_of_lt small
  rw [newLine]
  simp only [start, chunk, limit]

theorem newLine_step (before_ : srcoff ≤ r.offset) (below : Below (r :: rest)) :
    newLine text replacement (r :: rest) srcoff =
      (text.drop srcoff).take (r.offset - srcoff) ++ fill (texts (within r.stop rest)) replacement ++
        newLine text replacement (rest.drop (within r.stop rest).length) r.stop := by
  rw [newLine_next before_ below.first, below.submatches]

theorem newLine_end (small : text.length < 2 ^ 32) : newLine text replacement [] srcoff = text.drop srcoff := by
  rw [newLine, uint32_of_lt small, ← List.length_drop, List.take_length]

theorem copies_step (filled : Str) (queue : List newreplacement) (before_ : srcoff ≤ r.offset) (small : r.stop < 2 ^ 32) :
    copies text (⟨r, filled⟩ :: queue) srcoff =
      (text.drop srcoff).take (r.offset - srcoff) ++ filled.take (uint32 filled.length) ++ copies text queue r.stop := by
  obtain ⟨start, chunk⟩ := @walk_chunk text r srcoff before_
  have limit : uint32 (r.offset + r.length) = r.stop := uint32_of_lt small
  rw [copies]
  simp only [start, chunk, limit]

end walk

section round
variable (text replacement : Str) (records : List Record)

theorem newLine_length (small : text.length < 2 ^ 32) {srcoff : Nat} (apart : Apart text.length (topLevel records) srcoff) :
    ((newLine text replacement records srcoff).length : Int) = text.length - srcoff + growth replacement records := by
  have below := apart_below apart small
  fun_induction topLevel records generalizing srcoff with
  | case1 =>
    have inside := apart_le apart
    simp only [newLine, growth, topLevel, List.map_nil, List.sum_nil, List.length_take, List.length_drop, uint32_of_lt small]
    omega
  | case2 r rest ih =>
    have first : srcoff ≤ r.offset := apart.1
    have inside : r.stop ≤ text.length := apart_le apart.2
    have ends : r.stop = r.offset + r.length := rfl
    have grown : growth replacement (r :: rest) =
        ((fill (texts (within r.stop rest)) replacement).length - r.length) +
            growth replacement (rest.drop (within r.stop rest).length) := by
      rw [growth, topLevel, List.map_cons, List.sum_cons]
      rfl
    have behind : Apart text.length (topLevel (rest.drop (within r.stop rest).length)) r.stop := apart.2
    have later := ih behind below.later
    rw [newLine_step first below, List.length_append, List.length_append, List.length_take, List.length_drop, Nat.cast_add,
      later, grown]
    omega

/-- The copying passes by no replacement of four gigabytes, and only then. -/
theorem copies_shorter (small : text.length < 2 ^ 32) {srcoff : Nat} (apart : Apart text.length (topLevel records) srcoff) :
    (copies text (matchqueue replacement records) srcoff).length ≤ (newLine text replacement records srcoff).length ∧
      ((copies text (matchqueue replacement records) srcoff).length = (newLine text replacement records srcoff).length →
        ∀ m ∈ topLevel records, (fill m.2 replacement).length < 2 ^ 32) := by
  have below := apart_below apart small
  rw [matchqueue_topLevel replacement below]
  fun_induction topLevel records generalizing srcoff with
  | case1 =>
    refine ⟨?_, fun _ m absent => absurd absent List.not_mem_nil⟩
    simp [newLine, copies, uint32_of_lt small]
  | case2 r rest ih =>
    have behind : Apart text.length (topLevel (rest.drop (within r.stop rest).length)) r.stop := apart.2
    obtain ⟨le, short⟩ := ih behind below.later
    have cut := uint32_le (fill (texts (within r.stop rest)) replacement).length
    rw [List.map_cons, copies_step _ _ apart.1 below.first, newLine_step apart.1 below]
    simp only [List.length_append, List.length_take, Nat.min_eq_left cut]
    refine ⟨by omega, fun same m member => ?_⟩
    rcases List.mem_cons.mp member with rfl | later
    · have whole : uint32 (fill (texts (within r.stop rest)) replacement).length =
          (fill (texts (within r.stop rest)) replacement).length := by omega
      exact (uint32_eq_self_iff _).mp whole
    · exact short (by omega) m later

theorem copies_newLine {srcoff : Nat} (start : srcoff < 2 ^ 32) (apart : Apart text.length (topLevel records) srcoff)
    (below : Below records) (short : ∀ m ∈ topLevel records, (fill m.2 replacement).length < 2 ^ 32) :
    ∃ front last, last < 2 ^ 32 ∧ last ≤ text.length ∧
      copies text (matchqueue replacement records) srcoff = front ++ text.drop last ∧
      newLine text replacement records srcoff = front ++ (text.drop last).take (uint32 text.length - last) := by
  rw [matchqueue_topLevel replacement below]
  fun_induction topLevel records generalizing srcoff with
  | case1 => exact ⟨[], srcoff, start, apart_le apart, by simp [copies], by simp [newLine]⟩
  | case2 r rest ih =>
    have fits : (fill (texts (within r.stop rest)) replacement).length < 2 ^ 32 :=
      short (r, texts (within r.stop rest)) List.mem_cons_self
    have behind : Apart text.length (topLevel (rest.drop (within r.stop rest).length)) r.stop := apart.2
    obtain ⟨front, last, small, inside, copied, walked⟩ :=
      ih below.first behind below.later fun m member => short m (List.mem_cons_of_mem _ member)
    refine ⟨(text.drop srcoff).take (r.offset - srcoff) ++ fill (texts (within r.stop rest)) replacement ++ front, last, small,
      inside, ?_, ?_⟩
    · rw [List.map_cons, copies_step _ _ apart.1 below.first, uint32_of_lt fits, List.take_length, copied,
        List.append_assoc _ front]
    · rw [newLine_step apart.1 below, walked, List.append_assoc _ front]

end round

/-- A round writes as much as the new block has room for, and what `ListMeta::regExp` makes of the text. -/
def Agrees (data replacement : Str) (records : List Record) : Prop :=
  ((contentRound data replacement records).written.length : Int) = (contentRound data replacement records).buffer_length ∧
    (contentRound data replacement records).written = newLine data replacement records 0

structure Fine (data replacement : Str) (records : List Record) : Prop where
  text : data.length < 2 ^ 32
  grown : FitsInt (growth replacement records)
  short : ∀ m ∈ topLevel records, (fill m.2 replacement).length < 2 ^ 32

/-- A text of four gigabytes with a match that ends behind them, or a replacement as long. -/
def Beyond (data replacement : Str) (records : List Record) : Prop :=
  2 ^ 32 ≤ data.length ∧ ∃ m ∈ topLevel records, 2 ^ 32 ≤ m.1.stop ∨ 2 ^ 32 ≤ (fill m.2 replacement).length

section agrees
variable {data replacement : Str} {records : List Record}

theorem contentRound_room (below : Below records) :
    (contentRound data replacement records).buffer_length = data.length + int32 (growth replacement records) := by
  rw [← sizediff_growth replacement below]
  rfl

variable (apart : Apart data.length (topLevel records) 0)
include apart

/-- The block of a round that agrees has not been sized by a wrapped number. -/
theorem agrees_growth (small : data.length < 2 ^ 32) (agrees : Agrees data replacement records) :
    FitsInt (growth replacement records) := by
  obtain ⟨full, same⟩ := agrees
  have size := newLine_length data replacement records small apart
  rw [same, size, contentRound_room (apart_below apart small)] at full
  exact (int32_eq_self_iff _).mp (by omega)

theorem agrees_of_fine (fine : Fine data replacement records) : Agrees data replacement records := by
  obtain ⟨small, grown, short⟩ := fine
  have below := apart_below apart small
  obtain ⟨front, last, -, inside, copied, walked⟩ := copies_newLine data replacement records (by decide) apart below short
  have same : (contentRound data replacement records).written = newLine data replacement records 0 := by
    change copies data (matchqueue replacement records) 0 = _
    rw [copied, walked, uint32_of_lt small, ← List.length_drop, List.take_length]
  have size := newLine_length data replacement records small apart
  refine ⟨?_, same⟩
  rw [same, size, contentRound_room below, int32_of_fits grown]
  omega

/-- The tail of a longer text is cut in the one pass, and not in the other. -/
theorem agrees_below (agrees : Agrees data replacement records) (below : Below records)
    (short : ∀ m ∈ topLevel records, (fill m.2 replacement).length < 2 ^ 32) : data.length < 2 ^ 32 := by
  obtain ⟨front, last, small, inside, copied, walked⟩ := copies_newLine data replacement records (by decide) apart below short
  have same : copies data (matchqueue replacement records) 0 = newLine data replacement records 0 := agrees.2
  rw [copied, walked] at same
  have length := congrArg List.length (List.append_cancel_left same)
  rw [List.length_take, List.length_drop] at length
  by_contra large
  have wrapped := uint32_lt data.length
  omega

end agrees

def lettersFrom (start : Nat) : Nat → List Record
  | 0 => []
  | n + 1 => ⟨start, 1, str "a"⟩ :: lettersFrom (start + 1) n

theorem topLevel_letters (start n : Nat) : topLevel (lettersFrom start n) = (lettersFrom start n).map (·, []) := by
  induction n generalizing start with
  | zero => rw [lettersFrom, topLevel, List.map_nil]
  | succ n ih =>
    have alone : within (start + 1) (lettersFrom (start + 1) n) = [] := by
      cases n with
      | zero => rfl
      | succ n =>
        rw [within, lettersFrom, List.takeWhile_cons_of_neg]
        simp [Record.stop]
    have first : within (Record.stop ⟨start, 1, str "a"⟩) (lettersFrom (start + 1) n) = [] := alone
    rw [lettersFrom, topLevel, first, List.length_nil, List.drop_zero, ih, List.map_cons]
    rfl

theorem letters_apart {len start n : Nat} (inside : start + n ≤ len) : Apart len (topLevel (lettersFrom start n)) start := by
  rw [topLevel_letters]
  induction n generalizing start with
  | zero => exact inside
  | succ n ih =>
    have next : start + 1 + n ≤ len := by omega
    exact ⟨Nat.le_refl start, ih next⟩

theorem letters_growth (replacement : Str) (start n : Nat) :
    growth replacement (lettersFrom start n) = n * ((fill [] replacement).length - 1 : Int) := by
  rw [growth, topLevel_letters]
  induction n generalizing start with
  | zero => simp [lettersFrom]
  | succ n ih =>
    have later := ih (start + 1)
    rw [lettersFrom, List.map_cons, List.map_cons, List.sum_cons, later]
    push_cast
    rw [Int.add_mul, Int.one_mul, Int.add_comm]

theorem fill_letters (groups : List Str) (n : Nat) : fill groups (List.replicate n (ch 'x')) = List.replicate n (ch 'x') := by
  induction n with
  | zero => rw [List.replicate_zero, fill]
  | succ n ih =>
    cases n with
    | zero => rw [List.replicate_succ, List.replicate_zero, fill]
    | succ n =>
      rw [List.replicate_succ, List.replicate_succ, fill, if_neg (by decide), if_neg (by decide), ← List.replicate_succ, ih]

end GuardianRegReplace
