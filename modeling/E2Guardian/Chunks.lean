import E2Guardian.CutStream
import E2Guardian.MachineInts
import E2Guardian.Strings

/- Chunked bodies on a socket: Socket::writeChunk and writeChunkTrailer on one side, readChunk
   with getLine and readFromSocket on the other. The transport cuts the bytes into the results
   of recv; where there are no more, recv gives nothing. -/
namespace GuardianChunks
open GuardianString CutStream MachineInts

def cr : UInt8 := 13

def lf : UInt8 := 10

def crlf : Str := [cr, lf]

def hex (len : Nat) : Str := (Nat.toDigits 16 len).map ch

def writeChunk (buffout : Str) : Str := hex buffout.length ++ crlf ++ buffout ++ crlf

def writeChunkTrailer (trailer : Str) : Str := str "0" ++ crlf ++ trailer ++ crlf

def wire (blocks : List Str) (trailer : Str) : Str := blocks.flatMap writeChunk ++ writeChunkTrailer trailer

def blockSize : Nat := 1024

def upToNewline (s : Str) : Str := s.takeWhile (· != lf)

/-- The loop of getLine that fills the buffer. The buffer keeps all of a block without a
newline, as if nothing of it had been read; the next block takes its place. -/
def getLineLoop (size : Nat) : Nat → Str → Reader UInt8 → Str × Reader UInt8
  | 0, line, r => (line, r)
  | rounds + 1, line, r =>
    if line.length < size - 1 then
      let (given, incoming) := recv blockSize r.incoming
      if given.isEmpty then (line, ⟨[], incoming⟩)
      else
        let part := given.take (size - 1 - line.length)
        if part.elem lf then
          (line ++ upToNewline part, ⟨given.drop ((upToNewline part).length + 1), incoming⟩)
        else getLineLoop size rounds (line ++ part) ⟨given, incoming⟩
    else (line, r)

/-- A line without its newline, of at most size - 1 bytes with it. -/
def getLine (size : Nat) (r : Reader UInt8) : Str × Reader UInt8 :=
  let part := r.buffer.take (size - 1)
  if part.elem lf then (upToNewline part, ⟨r.buffer.drop ((upToNewline part).length + 1), r.incoming⟩)
  else getLineLoop size size part ⟨r.buffer.drop (size - 1), r.incoming⟩

/-- What is in the buffer and, if that is not enough, the result of one recv. -/
def readFromSocket (len : Nat) (r : Reader UInt8) : Str × Reader UInt8 :=
  if len ≤ r.buffer.length then (r.buffer.take len, ⟨r.buffer.drop len, r.incoming⟩)
  else
    let (given, incoming) := recv (len - r.buffer.length) r.incoming
    (r.buffer ++ given, ⟨[], incoming⟩)

def readFromSocketn (len : Nat) (r : Reader UInt8) : Str × Reader UInt8 := readFromSocket len r

def hexNumber (digits : Str) : Nat := digits.foldl (fun n b => 16 * n + (hexValue b).toNat) 0

def orDigits : Str → Nat
  | [] => 0
  | digit :: digits => (hexValue digit).toNat <<< (4 * digits.length % 32) ||| orDigits digits

def hexToInteger (s : Str) : Int := int32 (orDigits ((s.take 9).takeWhile isHex))

structure Socket where
  reader : Reader UInt8
  chunk_to_read : Int
  chunked_trailer : Str
  ieof : Bool
  chunkError : Bool

def Socket.fresh (incoming : List Str) : Socket := ⟨⟨[], incoming⟩, 0, [], false, false⟩

/-- The size line of a chunk, if one has to be read; a line that is too short is an error. -/
def readSize (s : Socket) : Option Socket :=
  if s.chunk_to_read = 0 then
    let (size, reader) := getLine 38 s.reader
    if size.length < 2 then none
    else
      let l := chop (cstr size)
      let t := before l (str ";")
      if t.length > 0 then
        some { s with
          reader := reader
          ieof := endsWith l (str "; ieof")
          chunk_to_read := hexToInteger t }
      else some { s with reader := reader, ieof := false, chunk_to_read := hexToInteger l }
  else some s

def readTrailer : Nat → Str → Reader UInt8 → Str × Reader UInt8
  | 0, chunked_trailer, r => (chunked_trailer, r)
  | rounds + 1, chunked_trailer, r =>
    let (line, r) := getLine 31900 r
    if line.length > 2 then readTrailer rounds (chunked_trailer ++ cstr line ++ [lf]) r else (chunked_trailer, r)

def readTail (rc : Int) (s : Socket) : Int × Socket :=
  let (ts, reader) := readFromSocketn 2 s.reader
  if ts = crlf then (rc, { s with reader := reader }) else (-1, { s with reader := reader, chunkError := true })

/-- The answer, the bytes that were read and the socket. Each line of a trailer takes a byte,
so that a round for each pending byte is enough. -/
def readChunk (maxlen : Nat) (s : Socket) : Int × Str × Socket :=
  match readSize s with
  | none => (-1, [], { s with chunkError := true, ieof := false, reader := (getLine 38 s.reader).2 })
  | some s =>
    let clen := min s.chunk_to_read maxlen
    if clen = 0 then
      let (chunked_trailer, reader) := readTrailer (s.reader.pending.length + 1) [] s.reader
      (0, [], { s with reader := reader, chunked_trailer := chunked_trailer })
    else
      let (buffin, reader) := if clen > 0 then readFromSocketn clen.toNat s.reader else ([], s.reader)
      let rc : Int := buffin.length
      let s := { s with reader := reader, chunk_to_read := s.chunk_to_read - rc }
      if s.chunk_to_read > 0 then (rc, buffin, s)
      else
        let (answer, s) := readTail rc s
        (answer, buffin, s)

/-- Calls readChunk until it answers 0 or an error: what was read, the last answer and the socket. -/
def readAll (maxlen : Nat) : Nat → Socket → Option (Str × Int × Socket)
  | 0, _ => none
  | calls + 1, s =>
    match readChunk maxlen s with
    | (answer, data, s) =>
      if answer ≤ 0 then some ([], answer, s)
      else (readAll maxlen calls s).map fun (rest, last, s) => (data ++ rest, last, s)

/- The numbers of the size lines. -/

theorem hexDigit_value {d : Nat} (digit : d < 16) :
    isHex (ch d.digitChar) = true ∧ (hexValue (ch d.digitChar)).toNat = d := by
  revert d
  decide

theorem hex_cases (n : Nat) : hex n =
    if n < 16 then [ch n.digitChar] else hex (n / 16) ++ [ch (n % 16).digitChar] := by
  unfold hex
  rw [Nat.toDigits_eq_if (by decide)]
  split
  · rfl
  · rw [List.map_append]
    rfl

theorem hex_isHex (n : Nat) : ∀ b ∈ hex n, isHex b = true := by
  induction n using Nat.strongRecOn with
  | ind n ih =>
    rw [hex_cases]
    split
    · rename_i small
      intro b member
      rw [List.mem_singleton.mp member]
      exact (hexDigit_value small).1
    · intro b member
      rcases List.mem_append.mp member with front | last
      · exact ih (n / 16) (by omega) b front
      · rw [List.mem_singleton.mp last]
        exact (hexDigit_value (Nat.mod_lt n (by decide))).1

theorem hexNumber_hex (n : Nat) : hexNumber (hex n) = n := by
  induction n using Nat.strongRecOn with
  | ind n ih =>
    rw [hex_cases]
    split
    · rename_i small
      simp only [hexNumber, List.foldl_cons, List.foldl_nil, (hexDigit_value small).2]
      omega
    · have front : hexNumber (hex (n / 16)) = n / 16 := ih (n / 16) (by omega)
      have last := (hexDigit_value (Nat.mod_lt n (by decide : 16 > 0))).2
      unfold hexNumber at front ⊢
      rw [List.foldl_append, front, List.foldl_cons, List.foldl_nil, last]
      omega

theorem hex_length {n : Nat} (low : n < 2 ^ 31) : 0 < (hex n).length ∧ (hex n).length ≤ 8 := by
  unfold hex
  rw [List.length_map]
  refine ⟨Nat.length_toDigits_pos, (Nat.length_toDigits_le_iff (by decide) (by decide)).mpr ?_⟩
  omega

theorem hexNumber_append (a b : Str) : hexNumber (a ++ b) = hexNumber a * 16 ^ b.length + hexNumber b := by
  induction b using List.reverseRecOn with
  | nil => simp [hexNumber]
  | append_singleton b c ih =>
    unfold hexNumber at ih ⊢
    rw [← List.append_assoc, List.foldl_append, ih, List.foldl_append, List.length_append, List.length_singleton,
      List.foldl_cons, List.foldl_nil, List.foldl_cons, List.foldl_nil, Nat.pow_succ, Nat.mul_add, Nat.mul_left_comm,
      Nat.mul_comm 16 (16 ^ b.length), Nat.add_assoc]

theorem hexNumber_cons (digit : UInt8) (digits : Str) :
    hexNumber (digit :: digits) = (hexValue digit).toNat * 16 ^ digits.length + hexNumber digits := by
  rw [← List.singleton_append, hexNumber_append]
  simp [hexNumber]

theorem hexNumber_lt {digits : Str} (hex : ∀ b ∈ digits, isHex b = true) : hexNumber digits < 16 ^ digits.length := by
  induction digits with
  | nil => exact Nat.one_pos
  | cons digit digits ih =>
    obtain ⟨first, others⟩ := List.forall_mem_cons.mp hex
    have value := hexValue_lt digit first
    have rest := ih others
    rw [hexNumber_cons, List.length_cons, Nat.pow_succ]
    calc (hexValue digit).toNat * 16 ^ digits.length + hexNumber digits
        < (hexValue digit).toNat * 16 ^ digits.length + 16 ^ digits.length := by omega
      _ = ((hexValue digit).toNat + 1) * 16 ^ digits.length := by rw [Nat.add_mul, Nat.one_mul]
      _ ≤ 16 * 16 ^ digits.length := Nat.mul_le_mul_right _ value
      _ = 16 ^ digits.length * 16 := Nat.mul_comm _ _

/-- As long as no shift reaches 32, the digits do not meet. -/
theorem orDigits_short {digits : Str} (hex : ∀ b ∈ digits, isHex b = true) (short : digits.length ≤ 8) :
    orDigits digits = hexNumber digits := by
  induction digits with
  | nil => rfl
  | cons digit digits ih =>
    obtain ⟨-, others⟩ := List.forall_mem_cons.mp hex
    rw [List.length_cons] at short
    have room : hexNumber digits < 2 ^ (4 * digits.length) := by
      rw [Nat.pow_mul]
      exact hexNumber_lt others
    rw [orDigits, ih others (by omega), hexNumber_cons, Nat.mod_eq_of_lt (by omega), ← Nat.shiftLeft_add_eq_or_of_lt room,
      Nat.shiftLeft_eq, Nat.pow_mul]

theorem orDigits_nine {digit : UInt8} {digits : Str} (hex : ∀ b ∈ digits, isHex b = true) (eight : digits.length = 8) :
    orDigits (digit :: digits) = (hexValue digit).toNat ||| hexNumber digits := by
  rw [orDigits, orDigits_short hex (by omega), eight]
  rfl

theorem hexToInteger_hex {n : Nat} (low : n < 2 ^ 31) : hexToInteger (hex n) = n := by
  have short := (hex_length low).2
  unfold hexToInteger
  rw [List.take_of_length_le (by omega), List.takeWhile_eq_self_iff.mpr (hex_isHex n), orDigits_short (hex_isHex n) short,
    hexNumber_hex]
  exact int32_natCast low

/- What the reads of a socket give and leave. -/

theorem upToNewline_append {line : Str} (noNewline : lf ∉ line) (rest : Str) :
    upToNewline (line ++ lf :: rest) = line := by
  have all : ∀ b ∈ line, (b != lf) = true := by
    intro b member
    rw [bne_iff_ne]
    exact fun same => noNewline (same ▸ member)
  rw [upToNewline, List.takeWhile_append_of_pos all, List.takeWhile_cons_of_neg (by simp), List.append_nil]

/-- Where a text starts that is known to begin with a line: inside the line or behind it. -/
theorem prefix_of_line {line rest given : Str} {tail : Str} (whole : given ++ tail = line ++ lf :: rest) :
    (given.length ≤ line.length ∧ given = line.take given.length ∧ tail = line.drop given.length ++ lf :: rest) ∨
      ∃ more, given = line ++ lf :: more := by
  rcases List.append_eq_append_iff.mp whole with ⟨middle, inside, below⟩ | ⟨middle, beyond, rest_⟩
  · refine .inl ⟨by simp [inside], by simp [inside], ?_⟩
    rw [below, inside]
    simp
  · cases middle with
    | nil =>
      refine .inl ⟨by simp [beyond], by simp [beyond], ?_⟩
      simpa [beyond] using rest_.symm
    | cons b more =>
      simp only [List.cons_append, List.cons.injEq] at rest_
      exact .inr ⟨more, by rw [beyond, rest_.1]⟩

theorem getLineLoop_eq {size : Nat} (rounds fuel : Nat) {line more rest : Str} {r : Reader UInt8}
    (whole : Whole r.incoming) (pending : r.incoming.flatten = more ++ lf :: rest) (noNewline : lf ∉ more)
    (fits : line.length + more.length + 1 ≤ size - 1) (enough : more.length < rounds) (enough' : more.length < fuel) :
    getLineLoop size rounds line r = (line ++ more, fillPast blockSize fuel (more.length + 1) r.incoming) := by
  induction rounds generalizing fuel line more r with
  | zero => omega
  | succ rounds ih =>
    obtain ⟨fuel, rfl⟩ : ∃ f, fuel = f + 1 := ⟨fuel - 1, by omega⟩
    have split_ := recv_pending whole blockSize
    rw [pending] at split_
    have some_ := recv_some (n := blockSize) (by decide) whole (by simp [pending])
    have given : (recv blockSize r.incoming).1.isEmpty = false := by
      rw [List.isEmpty_eq_false_iff]
      exact List.length_pos_iff.mp some_
    have room : line.length < size - 1 := by omega
    simp only [getLineLoop, room, ↓reduceIte, given, Bool.false_eq_true, fillPast]
    rcases prefix_of_line split_ with ⟨short, part, tail⟩ | ⟨more', part⟩
    · -- the block ends before the newline
      have all : (recv blockSize r.incoming).1.take (size - 1 - line.length) = (recv blockSize r.incoming).1 :=
        List.take_of_length_le (by omega)
      have none_ : (recv blockSize r.incoming).1.elem lf = false := by
        rw [← Bool.not_eq_true, List.elem_eq_mem, decide_eq_true_eq]
        intro member
        rw [part] at member
        exact noNewline (List.mem_of_mem_take member)
      have further : ¬ more.length + 1 ≤ (recv blockSize r.incoming).1.length := by omega
      have rest_ : Whole (recv blockSize r.incoming).2 := recv_left whole blockSize ▸ discard_whole whole _
      have lines : getLineLoop size rounds (line ++ (recv blockSize r.incoming).1)
          ⟨(recv blockSize r.incoming).1, (recv blockSize r.incoming).2⟩ =
            (line ++ (recv blockSize r.incoming).1 ++ more.drop (recv blockSize r.incoming).1.length,
              fillPast blockSize fuel ((more.drop (recv blockSize r.incoming).1.length).length + 1)
                (recv blockSize r.incoming).2) := ih fuel rest_ tail
        (fun member => noNewline (List.mem_of_mem_drop member))
        (by simp only [List.length_append, List.length_drop]; omega) (by rw [List.length_drop]; omega)
        (by rw [List.length_drop]; omega)
      simp only [all, none_, further, Bool.false_eq_true, ↓reduceIte, lines]
      refine Prod.ext ?_ ?_
      · have both := List.take_append_drop (recv blockSize r.incoming).1.length more
        rw [← part] at both
        rw [List.append_assoc, both]
      · have left : more.length - (recv blockSize r.incoming).1.length + 1 =
            more.length + 1 - (recv blockSize r.incoming).1.length := by omega
        rw [List.length_drop, left]
    · have inside : more.length + 1 ≤ (recv blockSize r.incoming).1.length := by simp [part]
      have cut : (recv blockSize r.incoming).1.take (size - 1 - line.length) =
          more ++ lf :: more'.take (size - 1 - line.length - more.length - 1) := by
        rw [part, List.take_append, List.take_of_length_le (by omega)]
        obtain ⟨k, room'⟩ : ∃ k, size - 1 - line.length - more.length = k + 1 :=
          ⟨size - 1 - line.length - more.length - 1, by omega⟩
        rw [room', List.take_succ_cons, Nat.add_sub_cancel]
      have hit : (more ++ lf :: more'.take (size - 1 - line.length - more.length - 1)).elem lf = true := by simp
      simp only [cut, hit, ↓reduceIte, upToNewline_append noNewline, inside]

theorem getLine_eq {size : Nat} {line rest : Str} {r : Reader UInt8} (whole : Whole r.incoming)
    (pending : r.pending = line ++ lf :: rest) (noNewline : lf ∉ line) (fits : line.length + 1 ≤ size - 1) :
    getLine size r = (line, r.through blockSize (line.length + 1)) := by
  unfold getLine Reader.through
  rcases prefix_of_line (show r.buffer ++ r.incoming.flatten = line ++ lf :: rest from pending) with
    ⟨short, part, tail⟩ | ⟨more, part⟩
  · have all : r.buffer.take (size - 1) = r.buffer := List.take_of_length_le (by omega)
    have none_ : r.buffer.elem lf = false := by
      rw [← Bool.not_eq_true, List.elem_eq_mem, decide_eq_true_eq]
      intro member
      rw [part] at member
      exact noNewline (List.mem_of_mem_take member)
    have further : ¬ line.length + 1 ≤ r.buffer.length := by omega
    have both := List.take_append_drop r.buffer.length line
    rw [← part] at both
    have lines : getLineLoop size size r.buffer ⟨r.buffer.drop (size - 1), r.incoming⟩ =
        (r.buffer ++ line.drop r.buffer.length, fillPast blockSize (line.length + 1 - r.buffer.length)
          ((line.drop r.buffer.length).length + 1) r.incoming) := getLineLoop_eq size _ whole tail
      (fun member => noNewline (List.mem_of_mem_drop member)) (by rw [List.length_drop]; omega)
      (by rw [List.length_drop]; omega) (by rw [List.length_drop]; omega)
    simp only [all, none_, further, Bool.false_eq_true, ↓reduceIte, lines, both, List.length_drop]
    congr 2
    omega
  · have inside : line.length + 1 ≤ r.buffer.length := by simp [part]
    have cut : r.buffer.take (size - 1) = line ++ lf :: more.take (size - 1 - line.length - 1) := by
      rw [part, List.take_append, List.take_of_length_le (by omega)]
      obtain ⟨k, room⟩ : ∃ k, size - 1 - line.length = k + 1 := ⟨size - 1 - line.length - 1, by omega⟩
      rw [room, List.take_succ_cons, Nat.add_sub_cancel]
    have hit : (line ++ lf :: more.take (size - 1 - line.length - 1)).elem lf = true := by simp
    simp only [cut, hit, ↓reduceIte, upToNewline_append noNewline, inside]

theorem readFromSocket_eq {len : Nat} (positive : 0 < len) {r : Reader UInt8} (whole : Whole r.incoming)
    (more : r.pending ≠ []) :
    ∃ n, 0 < n ∧ n ≤ len ∧ n ≤ r.pending.length ∧ readFromSocket len r = (r.pending.take n, r.skip n) := by
  unfold readFromSocket
  split
  · rename_i inside
    refine ⟨len, positive, Nat.le_refl _, ?_, ?_⟩
    · rw [Reader.pending, List.length_append]
      omega
    · have none_ : len - r.buffer.length = 0 := by omega
      rw [Reader.pending, List.take_append_of_le_length inside, Reader.skip, none_, discard_zero whole]
  · rename_i further
    have short := recv_short (len - r.buffer.length) r.incoming
    have split_ := recv_pending whole (len - r.buffer.length)
    have lengths := congrArg List.length split_
    rw [List.length_append] at lengths
    have some_ : r.buffer ≠ [] ∨ 0 < (recv (len - r.buffer.length) r.incoming).1.length := by
      by_cases empty : r.buffer = []
      · refine .inr (recv_some (by omega) whole ?_)
        simpa [Reader.pending, empty] using more
      · exact .inl empty
    refine ⟨r.buffer.length + (recv (len - r.buffer.length) r.incoming).1.length, ?_, by omega, ?_, ?_⟩
    · rcases some_ with buffered | given
      · have positive' := List.length_pos_iff.mpr buffered
        omega
      · omega
    · rw [Reader.pending, List.length_append]
      omega
    · refine Prod.ext ?_ ?_
      · rw [Reader.pending, List.take_append, List.take_of_length_le (by omega), Nat.add_sub_cancel_left, ← recv_given]
      · have gone : r.buffer.drop (r.buffer.length + (recv (len - r.buffer.length) r.incoming).1.length) = [] :=
          List.drop_eq_nil_of_le (by omega)
        rw [Reader.skip, gone, Nat.add_sub_cancel_left, ← recv_left whole]

/- One chunk. -/

/-- The carriage return behind a chunk comes alone, and not through the buffer. -/
def TailSplit (r : Reader UInt8) : Prop := r.buffer = [] ∧ r.incoming.head? = some [cr]

instance (r : Reader UInt8) : Decidable (TailSplit r) := inferInstanceAs (Decidable (_ ∧ _))

theorem readFromSocket_split {r : Reader UInt8} (split_ : TailSplit r) : (readFromSocket 2 r).1 = [cr] := by
  obtain ⟨empty, alone⟩ := split_
  obtain ⟨rest, pieces⟩ : ∃ rest, r.incoming = [cr] :: rest := by
    cases pieces : r.incoming with
    | nil => simp [pieces] at alone
    | cons piece rest =>
      rw [pieces, List.head?_cons, Option.some.injEq] at alone
      exact ⟨rest, by rw [alone]⟩
  simp [readFromSocket, empty, pieces, recv]

theorem readFromSocket_unsplit {r : Reader UInt8} {rest : Str} (whole : Whole r.incoming)
    (pending : r.pending = cr :: lf :: rest) (unsplit : ¬ TailSplit r) :
    readFromSocket 2 r = (crlf, r.skip 2) := by
  have both : (readFromSocket 2 r).1.length = 2 := by
    unfold readFromSocket
    split
    · rename_i inside
      rw [List.length_take]
      omega
    · rename_i further
      have short := recv_short (2 - r.buffer.length) r.incoming
      by_cases empty : r.buffer = []
      · -- the first piece starts with the carriage return and has more
        rw [Reader.pending, empty, List.nil_append] at pending
        cases pieces : r.incoming with
        | nil => simp [pieces] at pending
        | cons piece others =>
          have given : piece ≠ [] := fun none_ => whole (by simp [pieces, none_])
          obtain ⟨b, tail, rfl⟩ := List.exists_cons_of_ne_nil given
          simp only [pieces, List.flatten_cons, List.cons_append, List.cons.injEq] at pending
          obtain ⟨rfl, -⟩ := pending
          have longer : tail ≠ [] := by
            intro alone
            exact unsplit ⟨empty, by simp [pieces, alone]⟩
          have some_ := List.length_pos_iff.mpr longer
          simp only [empty, recv, List.nil_append, List.length_nil, Nat.sub_zero, List.length_take, List.length_cons]
          omega
      · have some_ := List.length_pos_iff.mpr empty
        have one : r.buffer.length = 1 := by omega
        have left : r.incoming.flatten ≠ [] := by
          intro none_
          have lengths := congrArg List.length pending
          simp [Reader.pending, none_, one] at lengths
        have given := recv_some (n := 2 - r.buffer.length) (by omega) whole left
        rw [List.length_append]
        omega
  obtain ⟨n, -, -, bound, read⟩ := readFromSocket_eq (by decide : 0 < 2) whole (by simp [pending])
  rw [read, List.length_take, Nat.min_eq_left bound] at both
  rw [read, both, pending]
  rfl

theorem readTail_split {r : Reader UInt8} (split_ : TailSplit r) (rc : Int) (s : Socket) (here : s.reader = r) :
    (readTail rc s).1 = -1 := by
  have one : (readFromSocketn 2 s.reader).1 = [cr] := by
    rw [here]
    exact readFromSocket_split split_
  have other : ¬ [cr] = crlf := by decide
  simp only [readTail, one, other, ↓reduceIte]

theorem readTail_unsplit {s : Socket} {rest : Str} (whole : Whole s.reader.incoming)
    (pending : s.reader.pending = cr :: lf :: rest) (unsplit : ¬ TailSplit s.reader) (rc : Int) :
    readTail rc s = (rc, { s with reader := s.reader.skip 2 }) := by
  have both : readFromSocketn 2 s.reader = (crlf, s.reader.skip 2) := readFromSocket_unsplit whole pending unsplit
  simp only [readTail, both, ↓reduceIte]

/-- A call inside a chunk reads a part of it, or all that is left of it and then its end. -/
theorem readChunk_inside {maxlen : Nat} (positive : 0 < maxlen) {s : Socket} {data rest : Str} (some_ : data ≠ [])
    (size : s.chunk_to_read = data.length) (whole : Whole s.reader.incoming)
    (pending : s.reader.pending = data ++ cr :: lf :: rest) :
    ∃ n, 0 < n ∧ (n < data.length ∧ readChunk maxlen s =
        ((n : Int), data.take n, { s with reader := s.reader.skip n, chunk_to_read := (data.drop n).length }) ∨
      n = data.length ∧ readChunk maxlen s =
        ((readTail n { s with reader := s.reader.skip n, chunk_to_read := 0 }).1, data,
          (readTail n { s with reader := s.reader.skip n, chunk_to_read := 0 }).2)) := by
  have some' := List.length_pos_iff.mpr some_
  have started : readSize s = some s := by
    rw [readSize, if_neg (by omega)]
  have positive' : min s.chunk_to_read (maxlen : Int) > 0 := by omega
  obtain ⟨n, least, most, bound, read⟩ := readFromSocket_eq
    (show 0 < (min s.chunk_to_read (maxlen : Int)).toNat by omega) whole (by simp [pending])
  have few : n ≤ data.length := by omega
  have part : s.reader.pending.take n = data.take n := by
    rw [pending, List.take_append_of_le_length few]
  have count : (data.take n).length = n := by
    rw [List.length_take]
    omega
  rw [part] at read
  have read' : readFromSocketn (min s.chunk_to_read (maxlen : Int)).toNat s.reader = (data.take n, s.reader.skip n) := read
  refine ⟨n, least, ?_⟩
  have notZero : ¬ min s.chunk_to_read (maxlen : Int) = 0 := by omega
  simp only [readChunk, started, notZero, positive', ↓reduceIte, read', count]
  rcases Nat.lt_or_eq_of_le few with less | all
  · refine .inl ⟨less, ?_⟩
    have left : s.chunk_to_read - (n : Int) = ((data.drop n).length : Int) := by
      rw [size, List.length_drop]
      omega
    have further : ((data.drop n).length : Int) > 0 := by
      rw [List.length_drop]
      omega
    simp only [left, further, ↓reduceIte]
  · refine .inr ⟨all, ?_⟩
    have left : s.chunk_to_read - (n : Int) = 0 := by omega
    have none_ : ¬ (0 : Int) > 0 := by omega
    have whole_ : data.take n = data := List.take_of_length_le (by omega)
    simp only [left, none_, ↓reduceIte, whole_]

/- The calls for a whole body. -/

theorem readAll_stop {maxlen : Nat} {s s' : Socket} {answer : Int} {data : Str}
    (call : readChunk maxlen s = (answer, data, s')) (stop : answer ≤ 0) (calls : Nat) :
    readAll maxlen (calls + 1) s = some ([], answer, s') := by
  simp only [readAll, call, stop, ↓reduceIte]

theorem readAll_next {maxlen : Nat} {s s' : Socket} {answer : Int} {data : Str}
    (call : readChunk maxlen s = (answer, data, s')) (more : 0 < answer) (calls : Nat) :
    readAll maxlen (calls + 1) s =
      (readAll maxlen calls s').map fun (rest, last, s) => (data ++ rest, last, s) := by
  have goes : ¬ answer ≤ 0 := by omega
  simp only [readAll, call, goes, ↓reduceIte]

theorem readAll_more {maxlen : Nat} (calls more : Nat) {s : Socket} {x : Str × Int × Socket}
    (read : readAll maxlen calls s = some x) : readAll maxlen (calls + more) s = some x := by
  induction calls generalizing s x with
  | zero => simp [readAll] at read
  | succ calls ih =>
    rw [Nat.add_right_comm]
    rcases call : readChunk maxlen s with ⟨answer, data, s'⟩
    by_cases goes : 0 < answer
    · rw [readAll_next call goes] at read ⊢
      obtain ⟨y, rest, rfl⟩ := Option.map_eq_some_iff.mp read
      rw [ih rest]
      rfl
    · rw [readAll_stop call (by omega)] at read ⊢
      exact read

theorem readAll_unique {maxlen calls calls' : Nat} {s : Socket} {x y : Str × Int × Socket}
    (one : readAll maxlen calls s = some x) (other : readAll maxlen calls' s = some y) : x = y := by
  have long := readAll_more calls calls' one
  have long' := readAll_more calls' calls other
  rw [Nat.add_comm, long, Option.some.injEq] at long'
  exact long'

/-- What the rest of a chunk gives: its bytes, or an error if its end is split. -/
theorem readAll_inside {maxlen : Nat} (positive : 0 < maxlen) (count : Nat) {s : Socket} {data rest : Str}
    (bytes : data.length = count) (some_ : data ≠ []) (size : s.chunk_to_read = data.length)
    (whole : Whole s.reader.incoming) (pending : s.reader.pending = data ++ cr :: lf :: rest) :
    (¬ TailSplit (s.reader.skip data.length) → ∀ calls tail last s',
      readAll maxlen calls { s with reader := s.reader.skip (data.length + 2), chunk_to_read := 0 } =
        some (tail, last, s') → ∃ calls', readAll maxlen calls' s = some (data ++ tail, last, s')) ∧
      (TailSplit (s.reader.skip data.length) →
        ∃ calls read s', readAll maxlen calls s = some (read, -1, s')) := by
  induction count using Nat.strongRecOn generalizing s data with
  | ind count ih =>
    obtain ⟨n, least, ⟨less, call⟩ | ⟨all, call⟩⟩ := readChunk_inside positive some_ size whole pending
    · -- the call ends inside the chunk, the rest of the data goes by the induction hypothesis
      let s₁ : Socket := { s with reader := s.reader.skip n, chunk_to_read := (data.drop n).length }
      have left : data.drop n ≠ [] := by
        rw [← List.length_pos_iff, List.length_drop]
        omega
      have pending₁ : s₁.reader.pending = data.drop n ++ cr :: lf :: rest := by
        show (s.reader.skip n).pending = _
        rw [skip_pending, pending, List.drop_append_of_le_length (by omega)]
      have there : n + (data.drop n).length = data.length := by
        rw [List.length_drop]
        omega
      obtain ⟨good, bad⟩ := ih (data.drop n).length (by omega) rfl left rfl (skip_whole whole n) pending₁
      have end₁ : s₁.reader.skip (data.drop n).length = s.reader.skip data.length := by
        show (s.reader.skip n).skip _ = _
        rw [skip_skip, there]
      have end₂ : s₁.reader.skip ((data.drop n).length + 2) = s.reader.skip (data.length + 2) := by
        show (s.reader.skip n).skip _ = _
        rw [skip_skip, ← Nat.add_assoc, there]
      rw [end₁, end₂] at good
      rw [end₁] at bad
      have answer : (0 : Int) < n := by omega
      constructor
      · intro unsplit calls tail last s' following
        obtain ⟨calls', read⟩ := good unsplit calls tail last s' following
        refine ⟨calls' + 1, ?_⟩
        have joined : data.take n ++ (data.drop n ++ tail) = data ++ tail := by
          rw [← List.append_assoc, List.take_append_drop]
        rw [readAll_next call answer]
        show (readAll maxlen calls' s₁).map _ = _
        rw [read, Option.map_some]
        simp only [joined]
      · intro split_
        obtain ⟨calls, read, s', failed⟩ := bad split_
        refine ⟨calls + 1, data.take n ++ read, s', ?_⟩
        rw [readAll_next call answer]
        show (readAll maxlen calls s₁).map _ = _
        rw [failed]
        rfl
    · subst all
      have pending₁ : (s.reader.skip data.length).pending = cr :: lf :: rest := by
        rw [skip_pending, pending, List.drop_left]
      constructor
      · intro unsplit calls tail last s' following
        have ended := readTail_unsplit (s := { s with reader := s.reader.skip data.length, chunk_to_read := 0 })
          (skip_whole whole _) pending₁ unsplit data.length
        rw [ended] at call
        refine ⟨calls + 1, ?_⟩
        rw [readAll_next call (by omega)]
        simp only [skip_skip]
        rw [following]
        rfl
      · intro split_
        have failed := readTail_split split_ data.length
          { s with reader := s.reader.skip data.length, chunk_to_read := 0 } rfl
        rw [failed] at call
        exact ⟨1, [], _, readAll_stop call (by omega) 0⟩

def afterSize (len : Nat) (r : Reader UInt8) : Reader UInt8 := r.through blockSize ((hex len).length + 2)

theorem hex_clean (n : Nat) {b : UInt8} (other : isHex b = false) : b ∉ hex n := by
  intro member
  rw [hex_isHex n b member] at other
  cases other

theorem before_none {s bs : Str} (none_ : find bs s = none) : before s bs = [] := by
  simp [before, none_]

theorem find_semicolon {s : Str} (absent : ch ';' ∉ s) : find (str ";") s = none := by
  cases found : find (str ";") s with
  | none => rfl
  | some i =>
    obtain ⟨-, here⟩ := find_some found
    have member : ch ';' ∈ s.drop i := here.subset (by decide)
    exact absurd (List.mem_of_mem_drop member) absent

theorem readSize_eq {s : Socket} {len : Nat} {rest : Str} (start : s.chunk_to_read = 0) (low : len < 2 ^ 31)
    (whole : Whole s.reader.incoming) (pending : s.reader.pending = hex len ++ crlf ++ rest) :
    readSize s = some { s with reader := afterSize len s.reader, ieof := false, chunk_to_read := len } := by
  obtain ⟨some_, short⟩ := hex_length low
  have line : s.reader.pending = (hex len ++ [cr]) ++ lf :: rest := by
    rw [pending]
    simp [crlf]
  have noNewline : lf ∉ hex len ++ [cr] := by
    have digits := hex_clean len (by decide : isHex lf = false)
    simp [digits]
    decide
  have read : getLine 38 s.reader = (hex len ++ [cr], afterSize len s.reader) := by
    rw [getLine_eq whole line noNewline (by simp; omega)]
    simp [afterSize]
  have noNul : 0 ∉ hex len ++ [cr] := by
    have digits := hex_clean len (by decide : isHex 0 = false)
    simp [digits]
    decide
  have size : chop (cstr (hex len ++ [cr])) = hex len := by
    rw [cstr_of_nul_free noNul, chop, List.dropLast_concat]
  have plain : before (hex len) (str ";") = [] :=
    before_none (find_semicolon (hex_clean len (by decide)))
  have enough : ¬ (hex len ++ [cr]).length < 2 := by
    rw [List.length_append, List.length_singleton]
    omega
  simp only [readSize, start, ↓reduceIte, read, enough, size, plain, List.length_nil, gt_iff_lt, Nat.lt_irrefl,
    hexToInteger_hex low]

theorem readChunk_start {s : Socket} {len : Nat} {rest : Str} (start : s.chunk_to_read = 0) (some_ : 0 < len)
    (low : len < 2 ^ 31) (whole : Whole s.reader.incoming) (pending : s.reader.pending = hex len ++ crlf ++ rest)
    (maxlen : Nat) :
    readChunk maxlen s =
      readChunk maxlen { s with reader := afterSize len s.reader, ieof := false, chunk_to_read := len } := by
  have started : readSize { s with reader := afterSize len s.reader, ieof := false, chunk_to_read := len } =
      some { s with reader := afterSize len s.reader, ieof := false, chunk_to_read := len } := by
    rw [readSize, if_neg]
    show ¬ ((len : Nat) : Int) = 0
    omega
  unfold readChunk
  rw [readSize_eq start low whole pending, started]

theorem readAll_start {s s' : Socket} {maxlen : Nat} (same : readChunk maxlen s = readChunk maxlen s') (calls : Nat) :
    readAll maxlen calls s = readAll maxlen calls s' := by
  cases calls with
  | zero => rfl
  | succ calls =>
    unfold readAll
    rw [same]

/-- No chunk has its end split in a way that readChunk does not join: the carriage return and
the newline come in one result of recv, or the block that brought the end of the size line
reaches over the carriage return. -/
def Unsplit : List Str → Reader UInt8 → Prop
  | [], _ => True
  | block :: blocks, r =>
    ¬ TailSplit ((afterSize block.length r).skip block.length) ∧
      Unsplit blocks ((afterSize block.length r).skip (block.length + 2))

instance unsplitDecidable : (blocks : List Str) → (r : Reader UInt8) → Decidable (Unsplit blocks r)
  | [], _ => inferInstanceAs (Decidable True)
  | block :: blocks, r =>
    have := unsplitDecidable blocks ((afterSize block.length r).skip (block.length + 2))
    inferInstanceAs (Decidable (_ ∧ _))

/- The trailer. -/

def unlines (lines : List Str) : Str := lines.flatMap (· ++ [lf])

def keptLines (lines : List Str) : Str := (lines.takeWhile (·.length > 2)).flatMap fun line => cstr line ++ [lf]

def LineFits (line : Str) : Prop := lf ∉ line ∧ line.length + 1 ≤ 31899

theorem getLine_end {size : Nat} {r : Reader UInt8} (positive : 1 < size) (over_ : r.pending = []) :
    (getLine size r).1 = [] := by
  obtain ⟨buffer, incoming⟩ := List.append_eq_nil_iff.mp over_
  have given : (recv blockSize r.incoming).1 = [] := by
    rw [recv_given, incoming, List.take_nil]
  obtain ⟨k, rfl⟩ : ∃ k, size = k + 1 := ⟨size - 1, by omega⟩
  have room : 0 < k := by omega
  simp [getLine, buffer, getLineLoop, given, room]

theorem readTrailer_eq (rounds : Nat) {lines : List Str} (fit : ∀ line ∈ lines, LineFits line) (acc : Str)
    {r : Reader UInt8} (whole : Whole r.incoming) (pending : r.pending = unlines lines)
    (enough : lines.length < rounds) : (readTrailer rounds acc r).1 = acc ++ keptLines lines := by
  induction rounds generalizing lines acc r with
  | zero => omega
  | succ rounds ih =>
    cases lines with
    | nil =>
      have none_ := getLine_end (by decide : 1 < 31900) (show r.pending = [] from pending)
      simp [readTrailer, none_, keptLines]
    | cons line lines =>
      obtain ⟨noNewline, short⟩ := fit line List.mem_cons_self
      have pending' : r.pending = line ++ lf :: unlines lines := by
        rw [pending]
        simp [unlines]
      have there : line.length + 1 ≤ r.pending.length := by
        rw [pending', List.length_append, List.length_cons]
        omega
      obtain ⟨left, wholeLeft⟩ := through_pending (by decide : 0 < blockSize) whole there
      have dropped : (line ++ lf :: unlines lines).drop (line.length + 1) = unlines lines := by
        rw [List.drop_append, List.drop_eq_nil_of_le (by omega), List.nil_append, Nat.add_sub_cancel_left]
        rfl
      rw [pending', dropped] at left
      have read : getLine 31900 r = (line, r.through blockSize (line.length + 1)) :=
        getLine_eq whole pending' noNewline short
      simp only [readTrailer, read]
      by_cases long : line.length > 2
      · rw [if_pos long, ih (fun other member => fit other (List.mem_cons_of_mem _ member)) _ wholeLeft left
          (by simp only [List.length_cons] at enough; omega)]
        simp [keptLines, long]
      · rw [if_neg long]
        simp [keptLines, long]

/-- The trailer is empty or consists of lines that are longer than two bytes and fit. -/
def TrailerLines (trailer : Str) : Prop :=
  ∃ lines, trailer = unlines lines ∧ ∀ line ∈ lines, LineFits line ∧ 2 < line.length ∧ 0 ∉ line

/-- Every line of the trailer fits, the last of them with the end of line that is added. -/
def TrailerFits (trailer : Str) : Prop :=
  ∃ lines last, trailer = unlines lines ++ last ∧ (∀ line ∈ lines, LineFits line) ∧ LineFits (last ++ [cr])

theorem unlines_append (lines more : List Str) : unlines (lines ++ more) = unlines lines ++ unlines more :=
  List.flatMap_append

theorem trailer_text (lines : List Str) (last : Str) :
    unlines lines ++ last ++ crlf = unlines (lines ++ [last ++ [cr]]) := by
  rw [unlines_append]
  simp [unlines, crlf]

theorem keptLines_long {line : Str} (long : 2 < line.length) (lines : List Str) :
    keptLines (line :: lines) = cstr line ++ [lf] ++ keptLines lines := by
  simp [keptLines, long]

theorem keptLines_short {line : Str} (short : ¬ 2 < line.length) (lines : List Str) :
    keptLines (line :: lines) = [] := by
  simp [keptLines, short]

theorem keptLines_of_lines {lines : List Str} (good : ∀ line ∈ lines, LineFits line ∧ 2 < line.length ∧ 0 ∉ line) :
    keptLines (lines ++ [[cr]]) = unlines lines := by
  induction lines with
  | nil => rfl
  | cons line lines ih =>
    obtain ⟨-, long, noNul⟩ := good line List.mem_cons_self
    have rest := ih fun other member => good other (List.mem_cons_of_mem _ member)
    rw [List.cons_append, keptLines_long long, rest, cstr_of_nul_free noNul]
    rfl

/-- A line that is kept as it is, before whatever follows, has no NUL byte. -/
theorem kept_line_whole {line rest rest' : Str} (noNewline : lf ∉ line)
    (same : cstr line ++ [lf] ++ rest = line ++ [lf] ++ rest') : 0 ∉ line ∧ rest = rest' := by
  have cut : cstr line <+: line := List.takeWhile_prefix _
  obtain ⟨more, rejoined⟩ := cut
  cases more with
  | nil =>
    rw [List.append_nil] at rejoined
    have clean := cstr_nul_free line
    rw [rejoined] at clean same
    exact ⟨clean, List.append_cancel_left same⟩
  | cons b more =>
    have whole : line ++ [lf] ++ rest' = cstr line ++ b :: (more ++ [lf] ++ rest') := by
      nth_rewrite 1 [← rejoined]
      simp
    rw [whole, List.append_assoc] at same
    have heads := List.append_cancel_left same
    simp only [List.cons_append, List.nil_append, List.cons.injEq] at heads
    rw [← rejoined] at noNewline
    exact absurd (by simp [heads.1]) noNewline

theorem lines_of_keptLines {lines : List Str} {last : Str} (fit : ∀ line ∈ lines, LineFits line)
    (fitLast : LineFits (last ++ [cr])) (same : keptLines (lines ++ [last ++ [cr]]) = unlines lines ++ last) :
    last = [] ∧ ∀ line ∈ lines, LineFits line ∧ 2 < line.length ∧ 0 ∉ line := by
  induction lines with
  | nil =>
    refine ⟨?_, by simp⟩
    rw [List.nil_append, show unlines [] ++ last = last from rfl] at same
    by_cases long : 2 < (last ++ [cr]).length
    · -- the line is kept with its end, which the trailer has not
      rw [keptLines_long long] at same
      have newline : lf ∈ last := by
        rw [← same]
        simp
      exact absurd (List.mem_append_left _ newline) fitLast.1
    · rw [keptLines_short long] at same
      exact same.symm
  | cons line lines ih =>
    have joined : unlines (line :: lines) ++ last = line ++ [lf] ++ (unlines lines ++ last) := by simp [unlines]
    rw [List.cons_append, joined] at same
    by_cases long : 2 < line.length
    · rw [keptLines_long long] at same
      obtain ⟨noNul, rest⟩ := kept_line_whole (fit line List.mem_cons_self).1 same
      obtain ⟨ended, good⟩ := ih (fun other member => fit other (List.mem_cons_of_mem _ member)) rest
      refine ⟨ended, ?_⟩
      intro other member
      rcases List.mem_cons.mp member with rfl | later
      · exact ⟨fit _ List.mem_cons_self, long, noNul⟩
      · exact good other later
    · rw [keptLines_short long] at same
      simp at same

/- The whole body. -/

def recoveredTrailer (r : Reader UInt8) : Str := (readTrailer (r.pending.length + 1) [] r).1

theorem unlines_length (lines : List Str) : lines.length ≤ (unlines lines).length := by
  induction lines with
  | nil => exact Nat.le_refl _
  | cons line lines ih =>
    simp only [unlines, List.flatMap_cons, List.length_append, List.length_cons, List.length_nil] at ih ⊢
    omega

theorem recoveredTrailer_eq {lines : List Str} (fit : ∀ line ∈ lines, LineFits line) {r : Reader UInt8}
    (whole : Whole r.incoming) (pending : r.pending = unlines lines) : recoveredTrailer r = keptLines lines := by
  have many := unlines_length lines
  unfold recoveredTrailer
  rw [readTrailer_eq _ fit [] whole pending (by rw [pending]; omega), List.nil_append]

/-- The last call reads the empty chunk and the trailer. -/
theorem readChunk_end {s : Socket} {trailer : Str} (start : s.chunk_to_read = 0) (whole : Whole s.reader.incoming)
    (pending : s.reader.pending = writeChunkTrailer trailer) (maxlen : Nat) :
    ∃ s' r, readChunk maxlen s = (0, [], s') ∧ Whole r.incoming ∧ r.pending = trailer ++ crlf ∧
      s'.chunked_trailer = recoveredTrailer r := by
  have zero : hex 0 = str "0" := by decide
  have pending' : s.reader.pending = hex 0 ++ crlf ++ (trailer ++ crlf) := by
    rw [pending, writeChunkTrailer, zero]
    simp
  have there : (hex 0).length + 2 ≤ s.reader.pending.length := by
    rw [pending']
    simp [crlf]
  obtain ⟨left, wholeLeft⟩ := through_pending (by decide : 0 < blockSize) whole there
  have dropped : (hex 0 ++ crlf ++ (trailer ++ crlf)).drop ((hex 0).length + 2) = trailer ++ crlf := by
    rw [show (hex 0).length + 2 = (hex 0 ++ crlf).length by simp [crlf], List.drop_left]
  rw [pending', dropped] at left
  have none_ : min ((0 : Nat) : Int) (maxlen : Int) = 0 := by omega
  refine ⟨{ s with
    reader := (readTrailer ((afterSize 0 s.reader).pending.length + 1) [] (afterSize 0 s.reader)).2
    ieof := false
    chunk_to_read := (0 : Nat)
    chunked_trailer := recoveredTrailer (afterSize 0 s.reader) }, afterSize 0 s.reader, ?_, wholeLeft, left, rfl⟩
  simp only [readChunk, readSize_eq start (by decide) whole pending', none_, ↓reduceIte]
  rfl

/-- A run over the chunks of a body: all of it is read and the trailer stands before the
reader, or the run ends with an error. -/
theorem readAll_body {maxlen : Nat} (positive : 0 < maxlen) {blocks : List Str} {trailer : Str}
    (some_ : ∀ block ∈ blocks, block ≠ [] ∧ block.length < 2 ^ 31) {s : Socket} (start : s.chunk_to_read = 0)
    (whole : Whole s.reader.incoming) (pending : s.reader.pending = wire blocks trailer) :
    (Unsplit blocks s.reader → ∃ calls s' r, readAll maxlen calls s = some (blocks.flatten, 0, s') ∧
        Whole r.incoming ∧ r.pending = trailer ++ crlf ∧ s'.chunked_trailer = recoveredTrailer r) ∧
      (¬ Unsplit blocks s.reader → ∃ calls read s', readAll maxlen calls s = some (read, -1, s')) := by
  induction blocks generalizing s with
  | nil =>
    refine ⟨fun _ => ?_, fun split_ => absurd trivial split_⟩
    obtain ⟨s', r, call, wholeLeft, left, kept⟩ := readChunk_end start whole pending maxlen
    exact ⟨1, s', r, readAll_stop call (Int.le_refl 0) 0, wholeLeft, left, kept⟩
  | cons block blocks ih =>
    obtain ⟨given, low⟩ := some_ block List.mem_cons_self
    have given' := List.length_pos_iff.mpr given
    have pending' : s.reader.pending =
        hex block.length ++ crlf ++ (block ++ cr :: lf :: wire blocks trailer) := by
      rw [pending]
      simp [wire, writeChunk, crlf]
    have there : (hex block.length).length + 2 ≤ s.reader.pending.length := by
      rw [pending']
      simp [crlf]
    obtain ⟨left, wholeLeft⟩ := through_pending (by decide : 0 < blockSize) whole there
    have dropped : (hex block.length ++ crlf ++ (block ++ cr :: lf :: wire blocks trailer)).drop
        ((hex block.length).length + 2) = block ++ cr :: lf :: wire blocks trailer := by
      rw [show (hex block.length).length + 2 = (hex block.length ++ crlf).length by simp [crlf], List.drop_left]
    rw [pending', dropped] at left
    -- the state behind the size line, and that behind the chunk
    let s₁ : Socket := { s with reader := afterSize block.length s.reader, ieof := false, chunk_to_read := block.length }
    let s₂ : Socket := { s₁ with reader := s₁.reader.skip (block.length + 2), chunk_to_read := 0 }
    have begin_ := readAll_start (readChunk_start start given' low whole pending' maxlen)
    obtain ⟨good, bad⟩ := readAll_inside positive block.length (s := s₁) rfl given rfl wholeLeft left
    have pending₂ : s₂.reader.pending = wire blocks trailer := by
      show (s₁.reader.skip (block.length + 2)).pending = _
      rw [skip_pending, show s₁.reader.pending = _ from left, List.drop_append, List.drop_eq_nil_of_le (by omega),
        Nat.add_sub_cancel_left, List.nil_append]
      rfl
    obtain ⟨goodRest, badRest⟩ := ih (fun other member => some_ other (List.mem_cons_of_mem _ member)) (s := s₂) rfl
      (skip_whole wholeLeft _) pending₂
    constructor
    · intro unsplit
      obtain ⟨calls, s', r, read, wholeEnd, end_, kept⟩ := goodRest unsplit.2
      obtain ⟨calls', read'⟩ := good unsplit.1 calls _ _ _ read
      exact ⟨calls', s', r, (begin_ calls').trans read', wholeEnd, end_, kept⟩
    · intro split_
      by_cases here : TailSplit (s₁.reader.skip block.length)
      · obtain ⟨calls, read, s', failed⟩ := bad here
        exact ⟨calls, read, s', (begin_ calls).trans failed⟩
      · obtain ⟨calls, read, s', failed⟩ := badRest fun rest => split_ ⟨here, rest⟩
        obtain ⟨calls', failed'⟩ := good here calls _ _ _ failed
        exact ⟨calls', block ++ read, s', (begin_ calls').trans failed'⟩

/-- The calls of readChunk give all blocks, then 0, and the trailer. -/
def ReadsBack (maxlen : Nat) (pieces : List Str) (blocks : List Str) (trailer : Str) : Prop :=
  ∃ calls s, readAll maxlen calls (.fresh pieces) = some (blocks.flatten, 0, s) ∧ s.chunked_trailer = trailer

/-- What is written in chunks is read back, in whatever pieces it arrives, if no end of a
chunk is split where readChunk does not join it and the trailer consists of lines; if the lines
of the trailer fit, only then. -/
theorem chunks_read_back_iff_unsplit {maxlen : Nat} (positive : 0 < maxlen) {blocks : List Str} {trailer : Str}
    (some_ : ∀ block ∈ blocks, block ≠ [] ∧ block.length < 2 ^ 31) {pieces : List Str} (whole : [] ∉ pieces)
    (sent : pieces.flatten = wire blocks trailer) :
    (Unsplit blocks ⟨[], pieces⟩ ∧ TrailerLines trailer → ReadsBack maxlen pieces blocks trailer) ∧
      (TrailerFits trailer → ReadsBack maxlen pieces blocks trailer →
        Unsplit blocks ⟨[], pieces⟩ ∧ TrailerLines trailer) := by
  obtain ⟨good, bad⟩ := readAll_body positive some_ (s := .fresh pieces) rfl whole sent
  constructor
  · intro ⟨unsplit, lines, text, kept⟩
    obtain ⟨calls, s, r, read, wholeLeft, left, trailer_⟩ := good unsplit
    refine ⟨calls, s, read, ?_⟩
    have ended : trailer ++ crlf = unlines (lines ++ [[] ++ [cr]]) := by
      rw [← trailer_text, text, List.append_nil]
    have fit : ∀ line ∈ lines ++ [[] ++ [cr]], LineFits line := by
      intro line member
      rcases List.mem_append.mp member with inside | last
      · exact (kept line inside).1
      · rw [List.mem_singleton.mp last]
        exact ⟨by decide, by decide⟩
    rw [trailer_, recoveredTrailer_eq fit wholeLeft (left.trans ended), text]
    exact keptLines_of_lines kept
  · intro ⟨lines, last, text, fit, fitLast⟩ ⟨calls, s, read, trailer_⟩
    have unsplit : Unsplit blocks ⟨[], pieces⟩ := by
      by_contra split_
      obtain ⟨calls', read', s', failed⟩ := bad split_
      have same := readAll_unique read failed
      simp at same
    obtain ⟨calls', s', r, read', wholeLeft, left, kept⟩ := good unsplit
    have same := readAll_unique read read'
    simp only [Prod.mk.injEq, true_and] at same
    have all : ∀ line ∈ lines ++ [last ++ [cr]], LineFits line := by
      intro line member
      rcases List.mem_append.mp member with inside | last_
      · exact fit line inside
      · rw [List.mem_singleton.mp last_]
        exact fitLast
    rw [text, trailer_text] at left
    rw [← same, trailer_, recoveredTrailer_eq all wholeLeft left, text] at kept
    obtain ⟨rfl, good'⟩ := lines_of_keptLines fit fitLast kept.symm
    exact ⟨unsplit, lines, by rw [text, List.append_nil], good'⟩

def greeting : List Str := [str "hello", str "you"]

def dated : Str := str "Date: today\r\n"

/-- The first end arrives in one piece, the second is split but its start is in the buffer. -/
def greetingPieces : List Str :=
  [str "5\r\nhel", str "lo\r\n3\r\nyou\r", str "\n0\r\nDate: today\r\n\r\n"]

theorem greeting_read_back :
    [] ∉ greetingPieces ∧ greetingPieces.flatten = wire greeting dated ∧ ReadsBack 2 greetingPieces greeting dated := by
  refine ⟨by decide, by decide, ?_⟩
  refine (chunks_read_back_iff_unsplit (by decide) ?_ (by decide) (by decide)).1 ⟨by decide, ?_⟩
  · decide
  · exact ⟨[str "Date: today\r"], by decide, by
      intro line member
      rw [List.mem_singleton.mp member]
      exact ⟨⟨by decide, by decide⟩, by decide, by decide⟩⟩

def singleBytes (blocks : List Str) (trailer : Str) : List Str := (wire blocks trailer).map fun b => [b]

/-- The carriage return behind the first block comes alone. -/
theorem single_bytes_not_read_back :
    [] ∉ singleBytes greeting [] ∧ (singleBytes greeting []).flatten = wire greeting [] ∧
      ¬ ReadsBack 32000 (singleBytes greeting []) greeting [] := by
  refine ⟨by decide, by decide, ?_⟩
  intro ⟨calls, s, read, _⟩
  have failed : (readAll 32000 10 (.fresh (singleBytes greeting []))).map (fun x => x.2.1) = some (-1) := by
    decide
  obtain ⟨x, read', answer⟩ := Option.map_eq_some_iff.mp failed
  rw [← readAll_unique read read'] at answer
  simp at answer

end GuardianChunks
