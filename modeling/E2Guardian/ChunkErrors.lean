import E2Guardian.Chunks

/- What readChunk answers on streams that are not well-formed. Of a size line it sees at most 37
   bytes, and of its number at most nine digits, of which the ninth is one too many for an int. -/
namespace GuardianChunkErrors
open GuardianString GuardianChunks CutStream MachineInts

/-- A size line without its newline: hexadecimal digits, and behind them the carriage return or a
semicolon with any extension. -/
def sizeValue (line : Str) : Option Nat :=
  let behind := line.dropWhile isHex
  if line.takeWhile isHex ≠ [] ∧ (behind = [cr] ∨ (behind.head? = some (ch ';') ∧ behind.getLast? = some cr)) then
    some (hexNumber (line.takeWhile isHex))
  else none

def NoDigit (line : Str) : Prop := ∀ b ∈ line.takeWhile (· != ch ';'), isHex b = false

def nextSize (stream : Str) : Option Nat := if lf ∈ stream then sizeValue (upToNewline stream) else none

/-- Streams whose next chunk has to be refused: they end before the newline of the size line or
right behind it, or the size has no digit or does not fit. -/
inductive Bad (stream : Str) : Prop where
  | noLine (absent : lf ∉ stream)
  | noDigit (there : lf ∈ stream) (none_ : NoDigit (upToNewline stream))
  | large (v : Nat) (size : nextSize stream = some v) (large : 2 ^ 31 ≤ v)
  | ended (v : Nat) (size : nextSize stream = some v) (positive : 0 < v)
      (end_ : stream.length = (upToNewline stream).length + 1)

def Refused (maxlen : Nat) (s : Socket) : Prop :=
  (readChunk maxlen s).1 = -1 ∧ (readChunk maxlen s).2.2.chunkError = true

structure Strict (maxlen : Nat) (s : Socket) : Prop where
  zero : (readChunk maxlen s).1 = 0 → s.chunk_to_read = 0 ∧ nextSize s.reader.pending = some 0
  bad : s.chunk_to_read = 0 → Bad s.reader.pending → Refused maxlen s
  inside : 0 < s.chunk_to_read → s.reader.pending = [] → Refused maxlen s
  decoded : s.chunk_to_read = 0 → ∀ v, nextSize s.reader.pending = some v → v < 2 ^ 31 →
    (readChunk maxlen s).2.2.chunk_to_read + (readChunk maxlen s).2.1.length = v

/- The window on the size line. -/

def window (stream : Str) : Str := upToNewline (stream.take 37)

def sizeText (size : Str) : Str :=
  let l := chop (cstr size)
  let t := before l (str ";")
  if t.length > 0 then t else l

def numberSeen (text : Str) : Int :=
  let digits := (text.take 9).takeWhile isHex
  int32 (if digits.length < 9 then hexNumber digits else (hexValue (digits.headD 0)).toNat ||| hexNumber (digits.drop 1))

/-- All of a chunk of this size can be read at once, and its end is not there. -/
def TailMissing (maxlen : Nat) (size : Int) (r : Reader UInt8) : Prop :=
  ((readFromSocketn (min size maxlen).toNat r).1.length : Int) = size ∧
    (readFromSocketn 2 (readFromSocketn (min size maxlen).toNat r).2).1 ≠ crlf

/-- The number that a size line stands for, or an error that does not depend on the number. -/
inductive Size (maxlen : Nat) (stream : Str) (size : Int) (r : Reader UInt8) : Prop where
  | zero (none_ : size = 0) (given : nextSize stream = some 0)
  | negative (low : size < 0) (missing : (readFromSocketn 2 r).1 ≠ crlf)
  | positive (high : 0 < size) (more : r.pending ≠ []) (refused : Bad stream → TailMissing maxlen size r)
      (digits : ∀ v, nextSize stream = some v → v < 2 ^ 31 → ((upToNewline stream).takeWhile isHex).length ≤ 9)

/-- When a call answers as it should. Inside a chunk something has to come. A size line has to be
too short, or what is converted of it has to be its number. -/
def Understood (maxlen : Nat) (s : Socket) : Prop :=
  if s.chunk_to_read = 0 then
    (window s.reader.pending).length < 2 ∨
      Size maxlen s.reader.pending (numberSeen (sizeText (window s.reader.pending))) (getLine 38 s.reader).2
  else if 0 < s.chunk_to_read then s.reader.pending ≠ []
  else (readFromSocketn 2 s.reader).1 ≠ crlf

theorem upToNewline_take_append {n : Nat} {a : Str} (absent : lf ∉ a.take n) (b : Str) :
    upToNewline ((a ++ b).take n) = a.take n ++ upToNewline (b.take (n - a.length)) := by
  have all : ∀ c ∈ a.take n, (c != lf) = true := by
    intro c member
    rw [bne_iff_ne]
    exact fun same => absent (same ▸ member)
  rw [List.take_append, upToNewline, List.takeWhile_append_of_pos all]
  rfl

theorem upToNewline_take_found {n : Nat} {a : Str} (found : lf ∈ a.take n) (b : Str) :
    upToNewline ((a ++ b).take n) = upToNewline (a.take n) := by
  obtain ⟨front, back, split_⟩ := List.append_of_mem found
  rw [List.take_append]
  unfold upToNewline
  rw [List.takeWhile_append, if_neg]
  intro whole
  have all := List.takeWhile_eq_self_iff.mp (List.IsPrefix.eq_of_length (List.takeWhile_prefix _) whole) lf found
  simp at all

theorem getLineLoop_text {size : Nat} (rounds : Nat) {line : Str} {r : Reader UInt8} (whole : Whole r.incoming)
    (enough : size - 1 - line.length ≤ rounds) :
    (getLineLoop size rounds line r).1 = line ++ upToNewline (r.incoming.flatten.take (size - 1 - line.length)) ∧
      Whole (getLineLoop size rounds line r).2.incoming := by
  induction rounds generalizing line r with
  | zero =>
    have none_ : size - 1 - line.length = 0 := by omega
    rw [none_]
    exact ⟨by simp [getLineLoop, upToNewline], whole⟩
  | succ rounds ih =>
    rw [getLineLoop]
    have split_ := recv_pending whole blockSize
    have wholeRest : Whole (recv blockSize r.incoming).2 := recv_left whole blockSize ▸ discard_whole whole _
    split
    · rename_i room
      simp only
      split
      · rename_i none_
        rw [List.isEmpty_iff] at none_
        have ended : r.incoming.flatten = [] := by
          by_contra more
          have some_ := recv_some (by decide : 0 < blockSize) whole (by simpa using more)
          rw [none_] at some_
          exact absurd some_ (by decide)
        exact ⟨by simp [ended, upToNewline], wholeRest⟩
      · rename_i given
        rw [List.isEmpty_iff, ← ne_eq, ← List.length_pos_iff] at given
        rw [← split_]
        split
        · rename_i found
          rw [List.elem_eq_mem, decide_eq_true_eq] at found
          exact ⟨by rw [upToNewline_take_found found], wholeRest⟩
        · rename_i absent
          rw [List.elem_eq_mem, decide_eq_true_eq] at absent
          have next := @ih (line ++ (recv blockSize r.incoming).1.take (size - 1 - line.length))
            ⟨(recv blockSize r.incoming).1, (recv blockSize r.incoming).2⟩ wholeRest
            (by rw [List.length_append, List.length_take]; omega)
          refine ⟨?_, next.2⟩
          rw [next.1, upToNewline_take_append absent, List.append_assoc]
          congr 4
          rw [List.length_append, List.length_take]
          omega
    · rename_i full
      have none_ : size - 1 - line.length = 0 := by omega
      rw [none_]
      exact ⟨by simp [upToNewline], whole⟩

theorem getLine_text {size : Nat} {r : Reader UInt8} (whole : Whole r.incoming) :
    (getLine size r).1 = upToNewline (r.pending.take (size - 1)) ∧ Whole (getLine size r).2.incoming := by
  unfold getLine
  simp only
  split
  · rename_i found
    rw [List.elem_eq_mem, decide_eq_true_eq] at found
    exact ⟨by rw [Reader.pending, upToNewline_take_found found], whole⟩
  · rename_i absent
    rw [List.elem_eq_mem, decide_eq_true_eq] at absent
    obtain ⟨text, wholeLeft⟩ := @getLineLoop_text size size (r.buffer.take (size - 1))
      ⟨r.buffer.drop (size - 1), r.incoming⟩ whole (by omega)
    refine ⟨?_, wholeLeft⟩
    rw [text, Reader.pending, upToNewline_take_append absent]
    congr 3
    rw [List.length_take]
    omega

theorem upToNewline_take (s : Str) (n : Nat) : upToNewline (s.take n) = (upToNewline s).take n := by
  induction s generalizing n with
  | nil => simp [upToNewline]
  | cons b s ih =>
    cases n with
    | zero => simp [upToNewline]
    | succ n =>
      unfold upToNewline at ih ⊢
      by_cases here : b = lf
      · simp [here]
      · simp [here, ih]

/- The number of a size line. -/

/-- The first nine digits: all of the number, or not more than a sixteenth of it. -/
theorem nine_digits (digits : Str) :
    (digits.length ≤ 9 → hexNumber (digits.take 9) = hexNumber digits) ∧
      (9 < digits.length → hexNumber (digits.take 9) * 16 ≤ hexNumber digits) := by
  constructor
  · intro short
    rw [List.take_of_length_le short]
  · intro long
    have joined := hexNumber_append (digits.take 9) (digits.drop 9)
    rw [List.take_append_drop] at joined
    have power : 16 ^ 1 ≤ 16 ^ (digits.drop 9).length := by
      refine Nat.pow_le_pow_right (by decide) ?_
      rw [List.length_drop]
      omega
    calc hexNumber (digits.take 9) * 16 ≤ hexNumber (digits.take 9) * 16 ^ (digits.drop 9).length :=
          Nat.mul_le_mul_left _ power
      _ ≤ hexNumber digits := by omega

structure SizeLine (line digits behind : Str) : Prop where
  split : line = digits ++ behind
  some_ : digits ≠ []
  hex : ∀ b ∈ digits, isHex b = true
  marked : behind = [cr] ∨ (behind.head? = some (ch ';') ∧ behind.getLast? = some cr)

theorem sizeLine_of_value {line : Str} {v : Nat} (size : sizeValue line = some v) :
    SizeLine line (line.takeWhile isHex) (line.dropWhile isHex) ∧ v = hexNumber (line.takeWhile isHex) := by
  unfold sizeValue at size
  simp only at size
  split at size
  · rename_i good
    cases size
    refine ⟨⟨?_, good.1, ?_, good.2⟩, rfl⟩
    · exact List.takeWhile_append_dropWhile.symm
    · intro b member
      exact List.mem_takeWhile_imp member
  · cases size

theorem isHex_ne {b c : UInt8} (digit : isHex b = true) (none_ : isHex c = false) : b ≠ c := by
  intro same
  rw [same, none_] at digit
  cases digit

theorem SizeLine.length {line digits behind : Str} (sized : SizeLine line digits behind) : 2 ≤ line.length := by
  have first := List.length_pos_iff.mpr sized.some_
  have last : 0 < behind.length := by
    rcases sized.marked with alone | marked
    · simp [alone]
    · rw [List.length_pos_iff]
      intro none_
      simp [none_] at marked
  rw [sized.split, List.length_append]
  omega

theorem SizeLine.digit {line digits behind : Str} (sized : SizeLine line digits behind) : ¬ NoDigit line := by
  intro none_
  cases front : digits with
  | nil => exact sized.some_ front
  | cons b more =>
    have digit := sized.hex b (by simp [front])
    have inside : b ∈ line.takeWhile (· != ch ';') := by
      have other : b ≠ ch ';' := isHex_ne digit (by decide)
      rw [sized.split, front]
      simp [other]
    rw [none_ b inside] at digit
    cases digit

/-- Of a line with a size, the digits are converted, as far as they can be seen. -/
theorem SizeLine.text {line digits behind : Str} (sized : SizeLine line digits behind) :
    sizeText (line.take 37) = digits.take 36 := by
  have noNul : 0 ∉ digits := by
    intro member
    exact absurd (sized.hex 0 member) (by decide)
  have noMark : ∀ n, ch ';' ∉ digits.take n := by
    intro n member
    exact absurd (sized.hex _ (List.mem_of_mem_take member)) (by decide)
  have none_ : ∀ n, before (digits.take n) (str ";") = [] := by
    intro n
    rw [show str ";" = [ch ';'] from rfl, before_byte, if_neg (noMark n)]
  unfold sizeText chop
  by_cases long : 37 ≤ digits.length
  · have seen : line.take 37 = digits.take 37 := by rw [sized.split, List.take_append_of_le_length long]
    have clean : 0 ∉ digits.take 37 := fun member => noNul (List.mem_of_mem_take member)
    rw [seen, cstr_of_nul_free clean, List.dropLast_eq_take, List.length_take, Nat.min_eq_left long, List.take_take]
    simp [none_]
  · have all : digits.take 36 = digits := List.take_of_length_le (by omega)
    have seen : line.take 37 = digits ++ behind.take (37 - digits.length) := by
      rw [sized.split, List.take_append, List.take_of_length_le (by omega)]
    obtain ⟨room, shown⟩ : ∃ room, 37 - digits.length = room + 1 := ⟨36 - digits.length, by omega⟩
    rw [seen, cstr_append noNul, all, shown]
    have bare : before digits (str ";") = [] := by
      rw [← all]
      exact none_ 36
    rcases sized.marked with alone | marked
    · rw [alone]
      simp [cstr, cr, bare]
    · obtain ⟨more, rfl⟩ : ∃ more, behind = ch ';' :: more := by
        cases behind with
        | nil => simp at marked
        | cons b more =>
          rw [List.head?_cons, Option.some.injEq] at marked
          exact ⟨more, by rw [marked.1]⟩
      have kept : cstr ((ch ';' :: more).take (room + 1)) = ch ';' :: cstr (more.take room) := by
        rw [List.take_succ_cons, cstr, List.takeWhile_cons_of_pos (by decide)]
        rfl
      rw [kept]
      cases cstr (more.take room) with
      | nil => simp [bare]
      | cons b text =>
        have cut : before (digits ++ ch ';' :: (b :: text).dropLast) (str ";") = digits := by
          have all : ∀ c ∈ digits, (c != ch ';') = true := by
            intro c member
            rw [bne_iff_ne]
            exact isHex_ne (sized.hex c member) (by decide)
          rw [show str ";" = [ch ';'] from rfl, before_byte, if_pos (by simp), List.takeWhile_append_of_pos all,
            List.takeWhile_cons_of_neg (by simp), List.append_nil]
        have chopped : (digits ++ ch ';' :: b :: text).dropLast = digits ++ ch ';' :: (b :: text).dropLast := by
          rw [List.dropLast_append_of_ne_nil (by simp), List.dropLast_cons_of_ne_nil (by simp)]
        have first := List.length_pos_iff.mpr sized.some_
        simp only [chopped, cut, first, if_true]

theorem hexToInteger_seen (text : Str) : hexToInteger text = numberSeen text := by
  have hex : ∀ b ∈ (text.take 9).takeWhile isHex, isHex b = true := fun b member => List.mem_takeWhile_imp member
  have few : ((text.take 9).takeWhile isHex).length ≤ 9 :=
    (List.takeWhile_prefix _).length_le.trans (List.length_take_le _ _)
  unfold hexToInteger numberSeen
  generalize (text.take 9).takeWhile isHex = digits at hex few
  dsimp only
  split
  · rw [orDigits_short hex (by omega)]
  · rename_i long
    cases digits with
    | nil => exact absurd (Nat.zero_lt_succ 8) long
    | cons digit digits =>
      rw [List.length_cons] at few long
      rw [orDigits_nine (List.forall_mem_cons.mp hex).2 (by omega)]
      rfl

/-- Where the number fits an int, the first of nine digits is zero. -/
theorem SizeLine.converted {line digits behind : Str} (sized : SizeLine line digits behind)
    (fits : hexNumber (digits.take 9) < 2 ^ 31) : numberSeen (sizeText (line.take 37)) = hexNumber (digits.take 9) := by
  have all : ∀ b ∈ digits.take 9, isHex b = true := fun b member => sized.hex b (List.mem_of_mem_take member)
  have few := List.length_take_le 9 digits
  unfold numberSeen
  rw [sized.text, List.take_take, Nat.min_eq_left (by decide), List.takeWhile_eq_self_iff.mpr all]
  generalize digits.take 9 = seen at all few fits
  cases seen with
  | nil => rfl
  | cons digit seen =>
    rw [List.length_cons] at few
    dsimp only
    split
    · exact int32_natCast fits
    · rename_i nine
      have eight : seen.length = 8 := by
        rw [List.length_cons] at nine
        omega
      have number := hexNumber_cons digit seen
      rw [eight] at number
      have none_ : (hexValue digit).toNat = 0 := by omega
      rw [none_, Nat.zero_mul, Nat.zero_add] at number
      rw [List.headD_cons, none_, List.drop_one, List.tail_cons, Nat.zero_or, number]
      exact int32_natCast (number ▸ fits)

/-- A number that fits is decoded if it has not more than nine digits, or is zero. -/
theorem size_decoded {stream : Str} {v : Nat} (size : nextSize stream = some v) (low : v < 2 ^ 31) :
    ∃ d : Nat, numberSeen (sizeText (window stream)) = d ∧
      (((upToNewline stream).takeWhile isHex).length ≤ 9 → d = v) ∧
      (9 < ((upToNewline stream).takeWhile isHex).length → d * 16 ≤ v) := by
  unfold nextSize at size
  split at size
  · obtain ⟨sized, value⟩ := sizeLine_of_value size
    obtain ⟨short, long⟩ := nine_digits ((upToNewline stream).takeWhile isHex)
    have fits : hexNumber (((upToNewline stream).takeWhile isHex).take 9) < 2 ^ 31 := by
      by_cases few : ((upToNewline stream).takeWhile isHex).length ≤ 9
      · have := short few
        omega
      · have := long (by omega)
        omega
    refine ⟨_, ?_, fun few => (short few).trans value.symm, fun many => value ▸ long many⟩
    rw [window, upToNewline_take, sized.converted fits]
  · cases size

/- The call behind the size line. -/

def readData (maxlen : Nat) (s : Socket) : Int × Str × Socket :=
  let clen := min s.chunk_to_read maxlen
  if clen = 0 then
    let (chunked_trailer, reader) := readTrailer (s.reader.pending.length + 1) [] s.reader
    (0, [], { s with reader := reader, chunked_trailer := chunked_trailer })
  else
    let (buffin, reader) := if clen > 0 then readFromSocketn clen.toNat s.reader else ([], s.reader)
    let rc : Int := buffin.length
    let s := { s with reader := reader, chunk_to_read := s.chunk_to_read - rc }
    if s.chunk_to_read > 0 then (rc, buffin, s)
    else
      let (answer, s) := readTail rc s
      (answer, buffin, s)

theorem readChunk_of_size {maxlen : Nat} {s t : Socket} (sized : readSize s = some t) :
    readChunk maxlen s = readData maxlen t := by
  unfold readChunk
  rw [sized]
  rfl

theorem readChunk_short {maxlen : Nat} {s : Socket} (start : s.chunk_to_read = 0) (whole : Whole s.reader.incoming)
    (short : (window s.reader.pending).length < 2) : Refused maxlen s := by
  have size : (getLine 38 s.reader).1.length < 2 := by
    rw [(getLine_text whole).1]
    exact short
  have none_ : readSize s = none := by simp only [readSize, start, size, if_true]
  unfold Refused readChunk
  rw [none_]
  exact ⟨rfl, rfl⟩

theorem readChunk_sized {maxlen : Nat} {s : Socket} (start : s.chunk_to_read = 0) (whole : Whole s.reader.incoming)
    (long : ¬ (window s.reader.pending).length < 2) :
    ∃ t, readChunk maxlen s = readData maxlen t ∧ t.reader = (getLine 38 s.reader).2 ∧
      t.chunk_to_read = numberSeen (sizeText (window s.reader.pending)) := by
  have text : (getLine 38 s.reader).1 = window s.reader.pending := (getLine_text whole).1
  rw [← text] at long ⊢
  generalize read : getLine 38 s.reader = line at long ⊢
  by_cases cut : (before (chop (cstr line.1)) (str ";")).length > 0
  · refine ⟨{ s with
      reader := line.2
      ieof := endsWith (chop (cstr line.1)) (str "; ieof")
      chunk_to_read := numberSeen (sizeText line.1) }, readChunk_of_size ?_, rfl, by dsimp only⟩
    simp only [readSize, start, read, long, cut, sizeText, hexToInteger_seen, if_true, if_false]
  · refine ⟨{ s with
      reader := line.2
      ieof := false
      chunk_to_read := numberSeen (sizeText line.1) }, readChunk_of_size ?_, rfl, by dsimp only⟩
    simp only [readSize, start, read, long, cut, sizeText, hexToInteger_seen, if_true, if_false]

theorem readData_zero {maxlen : Nat} {s : Socket} (zero : s.chunk_to_read = 0) :
    (readData maxlen s).1 = 0 ∧ (readData maxlen s).2.1 = [] ∧ (readData maxlen s).2.2.chunk_to_read = 0 := by
  have none_ : min s.chunk_to_read (maxlen : Int) = 0 := by omega
  simp only [readData, none_, if_true, true_and]
  exact zero

/-- Without a number only the end of the chunk is read, and the answer counts nothing. -/
theorem readData_negative {maxlen : Nat} {s : Socket} (low : s.chunk_to_read < 0) :
    (readData maxlen s).2.1 = [] ∧ (readData maxlen s).2.2.chunk_to_read = s.chunk_to_read ∧
      ((readFromSocketn 2 s.reader).1 = crlf → (readData maxlen s).1 = 0) ∧
      ((readFromSocketn 2 s.reader).1 ≠ crlf →
        (readData maxlen s).1 = -1 ∧ (readData maxlen s).2.2.chunkError = true) := by
  have some_ : ¬ min s.chunk_to_read (maxlen : Int) = 0 := by omega
  have nothing : ¬ min s.chunk_to_read (maxlen : Int) > 0 := by omega
  have last : ¬ s.chunk_to_read - ((([] : Str).length : Nat) : Int) > 0 := by
    rw [List.length_nil]
    omega
  simp only [readData, some_, nothing, last, if_false, readTail]
  split
  · rename_i good
    simp [good]
  · rename_i missing
    simp [missing]

theorem readFromSocketn_length {len : Nat} (positive : 0 < len) {r : Reader UInt8} (whole : Whole r.incoming) :
    (readFromSocketn len r).1.length ≤ len ∧ ((readFromSocketn len r).1 = [] ↔ r.pending = []) := by
  unfold readFromSocketn
  by_cases more : r.pending = []
  · obtain ⟨buffered, none_⟩ : r.buffer = [] ∧ r.incoming.flatten = [] := List.append_eq_nil_iff.mp more
    have far : ¬ len ≤ r.buffer.length := by
      rw [buffered, List.length_nil]
      omega
    have given : (recv (len - r.buffer.length) r.incoming).1 = [] := by
      rw [recv_given, none_]
      simp
    have read : (readFromSocket len r).1 = [] := by
      simp only [readFromSocket, far, if_false]
      rw [given, buffered]
      rfl
    rw [read]
    exact ⟨by simp, by simp [more]⟩
  · obtain ⟨n, some_, most, there, read⟩ := readFromSocket_eq positive whole more
    have length : (r.pending.take n).length = n := by
      rw [List.length_take]
      omega
    rw [read, ← List.length_eq_zero_iff, length]
    refine ⟨most, ?_⟩
    simp only [more, iff_false]
    omega

/-- With a number the bytes that were read are taken off it. A chunk whose end is missing is
refused; if nothing came the answer is 0. -/
theorem readData_positive {maxlen : Nat} (room : 0 < maxlen) {s : Socket} (high : 0 < s.chunk_to_read)
    (whole : Whole s.reader.incoming) :
    (readData maxlen s).2.2.chunk_to_read + (readData maxlen s).2.1.length = s.chunk_to_read ∧
      ((readData maxlen s).1 = 0 ↔ s.reader.pending = []) ∧
      ((readData maxlen s).1 = -1 → (readData maxlen s).2.2.chunkError = true) ∧
      ((readData maxlen s).1 = -1 ↔ TailMissing maxlen s.chunk_to_read s.reader) := by
  have some_ : ¬ min s.chunk_to_read (maxlen : Int) = 0 := by omega
  have wanted : min s.chunk_to_read (maxlen : Int) > 0 := by omega
  obtain ⟨most, ended⟩ := @readFromSocketn_length (min s.chunk_to_read (maxlen : Int)).toNat (by omega) _ whole
  have nothing : ((readFromSocketn (min s.chunk_to_read (maxlen : Int)).toNat s.reader).1.length : Int) = 0 ↔
      s.reader.pending = [] := by
    rw [← ended, ← List.length_eq_zero_iff]
    omega
  simp only [readData, some_, wanted, if_true, if_false, TailMissing]
  generalize readFromSocketn (min s.chunk_to_read (maxlen : Int)).toNat s.reader = read at most nothing ⊢
  by_cases further : s.chunk_to_read - (read.1.length : Int) > 0
  · simp only [further, if_true]
    refine ⟨by omega, nothing, ?_, ?_⟩
    · intro refused
      omega
    · constructor
      · intro refused
        omega
      · intro missing
        omega
  · have all : (read.1.length : Int) = s.chunk_to_read := by omega
    simp only [further, if_false, readTail]
    split
    · rename_i good
      simp only [good, ne_eq, not_true_eq_false, and_false, iff_false]
      refine ⟨by omega, nothing, ?_, by omega⟩
      intro refused
      omega
    · rename_i missing
      simp only [all, missing, ne_eq, not_false_eq_true, and_self]
      refine ⟨by omega, ?_, fun _ => trivial, trivial⟩
      rw [← nothing]
      omega

/- The whole call. -/

theorem not_bad_of_zero {stream : Str} (zero : nextSize stream = some 0) : ¬ Bad stream := by
  have there : lf ∈ stream := by
    by_contra absent
    simp [nextSize, absent] at zero
  have size : sizeValue (upToNewline stream) = some 0 := by simpa [nextSize, there] using zero
  intro bad
  cases bad with
  | noLine absent => exact absent there
  | noDigit there none_ => exact (sizeLine_of_value size).1.digit none_
  | large v other large =>
    rw [zero, Option.some.injEq] at other
    omega
  | ended v other positive end_ =>
    rw [zero, Option.some.injEq] at other
    omega

section Calls
variable {maxlen : Nat} {s : Socket}

theorem strict_of_short (start : s.chunk_to_read = 0) (whole : Whole s.reader.incoming)
    (short : (window s.reader.pending).length < 2) : Strict maxlen s := by
  have refused : Refused maxlen s := readChunk_short start whole short
  refine ⟨?_, fun _ _ => refused, fun _ _ => refused, ?_⟩
  · intro zero
    rw [refused.1] at zero
    cases zero
  · -- a line with a size has at least two bytes
    intro _ v size _
    unfold nextSize at size
    split at size
    · have long := (sizeLine_of_value size).1.length
      rw [window, upToNewline_take, List.length_take] at short
      omega
    · cases size

theorem strict_iff_zero {t : Socket} (start : s.chunk_to_read = 0) (call : readChunk maxlen s = readData maxlen t)
    (zero : t.chunk_to_read = 0) : Strict maxlen s ↔ nextSize s.reader.pending = some 0 := by
  obtain ⟨answer, data, left⟩ := @readData_zero maxlen _ zero
  rw [← call] at answer data left
  constructor
  · exact fun strict => (strict.zero answer).2
  · intro size
    refine ⟨fun _ => ⟨start, size⟩, fun _ bad => absurd bad (not_bad_of_zero size), ?_, ?_⟩
    · intro inside
      omega
    · intro _ v other _
      rw [size, Option.some.injEq] at other
      rw [data, left, ← other]
      rfl

theorem zero_converted {stream : Str} (size : nextSize stream = some 0) :
    numberSeen (sizeText (window stream)) = 0 := by
  obtain ⟨d, converted, short, long⟩ := size_decoded size (by decide)
  rw [converted]
  by_cases few : ((upToNewline stream).takeWhile isHex).length ≤ 9
  · rw [short few]
    rfl
  · have := long (by omega)
    omega

theorem strict_iff_negative {t : Socket} (call : readChunk maxlen s = readData maxlen t)
    (converted : t.chunk_to_read = numberSeen (sizeText (window s.reader.pending))) (low : t.chunk_to_read < 0) :
    Strict maxlen s ↔ (readFromSocketn 2 t.reader).1 ≠ crlf := by
  obtain ⟨data, left, good, missing⟩ := @readData_negative maxlen _ low
  rw [← call] at data left good missing
  constructor
  · intro strict tail
    have size := zero_converted (strict.zero (good tail)).2
    omega
  · intro tail
    have refused : Refused maxlen s := missing tail
    refine ⟨?_, fun _ _ => refused, fun _ _ => refused, ?_⟩
    · intro zero
      rw [refused.1] at zero
      cases zero
    · intro _ v size fits
      obtain ⟨d, value, -, -⟩ := size_decoded size fits
      omega

theorem strict_iff_positive {t : Socket} (room : 0 < maxlen) (start : s.chunk_to_read = 0)
    (call : readChunk maxlen s = readData maxlen t)
    (converted : t.chunk_to_read = numberSeen (sizeText (window s.reader.pending))) (high : 0 < t.chunk_to_read)
    (whole : Whole t.reader.incoming) :
    Strict maxlen s ↔ t.reader.pending ≠ [] ∧ (Bad s.reader.pending → TailMissing maxlen t.chunk_to_read t.reader) ∧
      ∀ v, nextSize s.reader.pending = some v → v < 2 ^ 31 →
        ((upToNewline s.reader.pending).takeWhile isHex).length ≤ 9 := by
  obtain ⟨sum, zero, marked, missing⟩ := readData_positive room high whole
  rw [← call] at sum zero marked missing
  constructor
  · intro strict
    refine ⟨?_, ?_, ?_⟩
    · intro none_
      have size := zero_converted (strict.zero (zero.mpr none_)).2
      omega
    · intro bad
      exact missing.mp (strict.bad start bad).1
    · intro v size fits
      have value := strict.decoded start v size fits
      obtain ⟨d, decoded, -, long⟩ := size_decoded size fits
      by_contra many
      have := long (by omega)
      omega
  · intro condition
    obtain ⟨more, refused, digits⟩ := condition
    refine ⟨fun answer => absurd (zero.mp answer) more, ?_, fun inside => by omega, ?_⟩
    · intro _ bad
      have answer := missing.mpr (refused bad)
      exact ⟨answer, marked answer⟩
    · intro _ v size fits
      obtain ⟨d, decoded, short, -⟩ := size_decoded size fits
      have value := short (digits v size fits)
      omega

theorem strict_iff_inside (room : 0 < maxlen) (inside : 0 < s.chunk_to_read) (whole : Whole s.reader.incoming) :
    Strict maxlen s ↔ s.reader.pending ≠ [] := by
  have sized : readSize s = some s := by
    have other : s.chunk_to_read ≠ 0 := by omega
    simp only [readSize, other, if_false]
  obtain ⟨-, zero, -, -⟩ := readData_positive room inside whole
  rw [← readChunk_of_size sized] at zero
  constructor
  · intro strict none_
    have start := (strict.zero (zero.mpr none_)).1
    omega
  · intro more
    refine ⟨fun answer => absurd (zero.mp answer) more, ?_, fun _ none_ => absurd none_ more, ?_⟩
    · intro start
      omega
    · intro start
      omega

theorem strict_iff_below (below : s.chunk_to_read < 0) :
    Strict maxlen s ↔ (readFromSocketn 2 s.reader).1 ≠ crlf := by
  have sized : readSize s = some s := by
    have other : s.chunk_to_read ≠ 0 := by omega
    simp only [readSize, other, if_false]
  obtain ⟨-, -, good, missing⟩ := @readData_negative maxlen _ below
  rw [← readChunk_of_size sized] at good missing
  constructor
  · intro strict tail
    have start := (strict.zero (good tail)).1
    omega
  · intro tail
    have refused : Refused maxlen s := missing tail
    refine ⟨?_, fun _ _ => refused, fun _ _ => refused, ?_⟩
    · intro zero
      rw [refused.1] at zero
      cases zero
    · intro start
      omega

end Calls

/-- A call of readChunk answers as it should if and only if what it converts is what the stream
says. -/
theorem readChunk_strict_iff_understood {maxlen : Nat} (room : 0 < maxlen) {s : Socket}
    (whole : Whole s.reader.incoming) : Strict maxlen s ↔ Understood maxlen s := by
  unfold Understood
  split
  · rename_i start
    by_cases short : (window s.reader.pending).length < 2
    · simp only [short, true_or, iff_true]
      exact strict_of_short start whole short
    · obtain ⟨t, call, behind, converted⟩ := @readChunk_sized maxlen _ start whole short
      have wholeLeft := (@getLine_text 38 _ whole).2
      simp only [short, false_or]
      rw [← behind, ← converted]
      rw [← behind] at wholeLeft
      rcases Int.lt_trichotomy t.chunk_to_read 0 with low | zero | high
      · rw [strict_iff_negative call converted low]
        constructor
        · exact fun tail => .negative low tail
        · intro size
          cases size with
          | zero none_ given => omega
          | negative low tail => exact tail
          | positive high more refused digits => omega
      · rw [strict_iff_zero start call zero]
        constructor
        · exact fun given => .zero zero given
        · intro size
          cases size with
          | zero none_ given => exact given
          | negative low tail => omega
          | positive high more refused digits => omega
      · rw [strict_iff_positive room start call converted high wholeLeft]
        constructor
        · exact fun condition => .positive high condition.1 condition.2.1 condition.2.2
        · intro size
          cases size with
          | zero none_ given => omega
          | negative low tail => omega
          | positive high more refused digits => exact ⟨more, refused, digits⟩
  · split
    · rename_i inside
      exact strict_iff_inside room inside whole
    · rename_i other below
      exact strict_iff_below (by omega)

def extended : Socket := .fresh [str "5;a=b\r\nhel", str "lo\r\n"]

theorem extended_strict : 0 < 32000 ∧ Whole extended.reader.incoming ∧ Strict 32000 extended := by
  have whole : Whole extended.reader.incoming := by
    unfold Whole
    decide
  have five : nextSize extended.reader.pending = some 5 := by decide
  refine ⟨by decide, whole, (readChunk_strict_iff_understood (by decide) whole).mpr (.inr ?_)⟩
  refine .positive (by decide) (by decide) ?_ fun _ _ _ => by decide
  intro bad
  exfalso
  cases bad with
  | noLine absent => exact absent (by decide)
  | noDigit there none_ => exact absurd (none_ (ch '5') (by decide)) (by decide)
  | large v size large =>
    rw [five, Option.some.injEq] at size
    omega
  | ended v size positive end_ => exact absurd end_ (by decide)

def noNumber : Socket := .fresh [str "zz\r\n\r\n"]

def cutOff : Socket := (readChunk 32000 (.fresh [str "5\r\nab"])).2.2

def tenDigits : Socket := .fresh [str "0000000005\r\nhello\r\n"]

theorem ends_that_are_none :
    ¬ Strict 32000 noNumber ∧ ¬ Strict 32000 cutOff ∧ ¬ Strict 32000 tenDigits := by
  refine ⟨?_, ?_, ?_⟩
  · intro strict
    exact absurd (strict.zero (by decide)).2 (by decide)
  · intro strict
    exact absurd (strict.zero (by decide)).1 (by decide)
  · intro strict
    exact absurd (strict.zero (by decide)).2 (by decide)

end GuardianChunkErrors
