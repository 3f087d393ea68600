import E2Guardian.Sockets
import E2Guardian.ChunkErrors

/- FDTunnel::tunnel in one direction, with a length and in chunks. The source is a socket with its
   buffer; of the destination the model keeps what has reached it and how its next writes and polls
   will end. -/
namespace GuardianTunnel
open GuardianString GuardianChunks GuardianSockets

structure Round where
  writable : Bool
  talks : Bool -- it has sent something itself
  deriving DecidableEq, Repr

def quietRound : Round := ⟨true, false⟩

structure Destination where
  written : Str
  outcomes : List (Option Nat) -- of the next writes; a number of bytes for one that fails
  rounds : List Round
  deriving DecidableEq, Repr

def writeToSocket (buff : Str) (d : Destination) : Bool × Destination :=
  if buff = [] then (true, d)
  else
    match d.outcomes.headD none with
    | none => (true, { d with written := d.written ++ buff, outcomes := d.outcomes.tail })
    | some sent =>
      (false, { d with written := d.written ++ buff.take (min sent (buff.length - 1)), outcomes := d.outcomes.tail })

/-- The source can be read; a closed connection and an error of recv count as input. -/
def pollIn : List Arrival → Bool × List Arrival
  | [] => (false, [])
  | .silence :: rest => (false, rest)
  | .pollError :: rest => (false, rest)
  | arrivals => (true, arrivals)

structure FDTunnel where
  throughput : Int
  deriving DecidableEq, Repr

def FDTunnel.fresh : FDTunnel := ⟨0⟩

def readlen (targetthroughput throughput : Int) : Nat :=
  if targetthroughput > -1 then (min 32768 (max (targetthroughput - throughput) 0)).toNat else 32768

/-- The rounds of the tunnel. Data from the destination ends it, unless it is ignored. -/
def tunnelLoop (ignore : Bool) (targetthroughput : Int) :
    Nat → Int → BaseSocket → Destination → Int × BaseSocket × Destination
  | 0, throughput, sockfrom, sockto => (throughput, sockfrom, sockto)
  | rounds + 1, throughput, sockfrom, sockto =>
    if targetthroughput > -1 → throughput < targetthroughput then
      let round := sockto.rounds.headD quietRound
      let sockto := { sockto with rounds := sockto.rounds.tail }
      match pollIn sockfrom.incoming with
      | (false, incoming) => (throughput, { sockfrom with incoming := incoming }, sockto)
      | (true, _) =>
        match sockfrom.readFromSocket (readlen targetthroughput throughput) false with
        | (none, sockfrom) => (throughput, sockfrom, sockto)
        | (some given, sockfrom) =>
          if given = [] then (throughput, sockfrom, sockto)
          else if !round.writable then (throughput + given.length, sockfrom, sockto)
          else
            match writeToSocket given sockto with
            | (false, sockto) => (throughput + given.length, sockfrom, sockto)
            | (true, sockto) =>
              if round.talks && !ignore then (throughput + given.length, sockfrom, sockto)
              else tunnelLoop ignore targetthroughput rounds (throughput + given.length) sockfrom sockto
    else (throughput, sockfrom, sockto)

/-- What the buffer of the source holds is sent first. Each round after that takes a byte, so that
a round for each pending byte is enough. -/
def tunnel (ignore : Bool) (targetthroughput : Int) (t : FDTunnel) (sockfrom : BaseSocket) (sockto : Destination) :
    Bool × FDTunnel × BaseSocket × Destination :=
  if targetthroughput = 0 then (true, t, sockfrom, sockto)
  else
    match writeToSocket sockfrom.buffer sockto with
    | (false, sockto) => (false, t, sockfrom, sockto)
    | (true, sockto) =>
      let (throughput, sockfrom, sockto) := tunnelLoop ignore targetthroughput (sockfrom.pending.length + 1)
        (t.throughput + sockfrom.buffer.length) { sockfrom with buffer := [] } sockto
      (if targetthroughput > -1 then decide (throughput ≥ targetthroughput) else true, ⟨throughput⟩, sockfrom, sockto)

/- A tunnel with a length. -/

/-- A destination that takes what it is given and does not end the tunnel itself. -/
structure Willing (ignore : Bool) (d : Destination) : Prop where
  takes : ∀ outcome ∈ d.outcomes, outcome = none
  polled : ∀ round ∈ d.rounds, round.writable = true ∧ (round.talks && !ignore) = false

theorem Willing.round {ignore : Bool} {d : Destination} (willing : Willing ignore d) :
    (d.rounds.headD quietRound).writable = true ∧ ((d.rounds.headD quietRound).talks && !ignore) = false := by
  cases rounds : d.rounds with
  | nil => exact ⟨rfl, rfl⟩
  | cons round rest => exact willing.polled round (by simp [rounds])

theorem Willing.next {ignore : Bool} {d : Destination} (willing : Willing ignore d) :
    Willing ignore { d with rounds := d.rounds.tail } :=
  ⟨willing.takes, fun round member => willing.polled round (List.mem_of_mem_tail member)⟩

theorem Willing.write {ignore : Bool} {d : Destination} (willing : Willing ignore d) (buff : Str) :
    ∃ d', writeToSocket buff d = (true, d') ∧ d'.written = d.written ++ buff ∧ Willing ignore d' := by
  by_cases empty : buff = []
  · exact ⟨d, by simp [writeToSocket, empty], by simp [empty], willing⟩
  · have first : d.outcomes.headD none = none := by
      cases outcomes : d.outcomes with
      | nil => rfl
      | cons outcome rest => exact willing.takes outcome (by simp [outcomes])
    refine ⟨{ d with written := d.written ++ buff, outcomes := d.outcomes.tail }, ?_, rfl, ?_⟩
    · simp only [writeToSocket, empty, if_false, first]
    · exact ⟨fun outcome member => willing.takes outcome (List.mem_of_mem_tail member), willing.polled⟩

/-- What one round of the tunnel can come to, as far as the source is concerned. -/
inductive Step (s : BaseSocket) (n : Nat) : Prop where
  | quiet (rest : List Arrival) (polled : pollIn s.incoming = (false, rest)) (none_ : s.flow.1 = [])
      (kept : flat rest = flat s.incoming)
  | refused (t : BaseSocket) (polled : pollIn s.incoming = (true, s.incoming))
      (read : s.readFromSocket n false = (none, t)) (none_ : s.flow.1 = []) (kept : t.pending = flat s.incoming)
  | closed (t : BaseSocket) (polled : pollIn s.incoming = (true, s.incoming))
      (read : s.readFromSocket n false = (some [], t)) (none_ : s.flow.1 = []) (kept : t.pending = flat s.incoming)
  | given (t : BaseSocket) (given : Str) (polled : pollIn s.incoming = (true, s.incoming))
      (read : s.readFromSocket n false = (some given, t)) (some_ : given ≠ []) (most : given.length ≤ n)
      (empty : t.buffer = []) (further : s.flow.1 = given ++ t.flow.1) (kept : given ++ t.pending = flat s.incoming)

theorem step {s : BaseSocket} {n : Nat} (positive : 0 < n) (empty : s.buffer = []) : Step s n := by
  have direct : s.readFromSocket n false = s.recvAfter [] n := by
    have same : { s with buffer := [] } = s := by rw [← empty]
    simp [BaseSocket.readFromSocket, empty, same]
  cases arrivals : s.incoming with
  | nil => exact .quiet [] (by simp [arrivals, pollIn]) (by simp [BaseSocket.flow, arrivals, flow]) (by simp [arrivals])
  | cons a rest =>
    cases a with
    | silence | pollError =>
      refine .quiet rest (by simp [arrivals, pollIn]) (by simp [BaseSocket.flow, arrivals, flow]) ?_
      rw [arrivals]
      rfl
    | recvError =>
      have polled : pollIn s.incoming = (true, s.incoming) := by simp [arrivals, pollIn]
      have none_ : s.flow.1 = [] := by
        rw [BaseSocket.flow, arrivals]
        split <;> rfl
      by_cases marked : s.sockerr
      · exact .refused s polled (by simp [direct, BaseSocket.recvAfter, marked]) none_ (by simp [BaseSocket.pending, empty])
      · refine .refused { s with incoming := rest } polled ?_ none_ ?_
        · simp [direct, BaseSocket.recvAfter, marked, arrivals, recv]
        · rw [BaseSocket.pending, empty, arrivals]
          rfl
    | bytes block =>
      have polled : pollIn s.incoming = (true, s.incoming) := by simp [arrivals, pollIn]
      by_cases marked : s.sockerr
      · refine .refused s polled (by simp [direct, BaseSocket.recvAfter, marked]) ?_ (by simp [BaseSocket.pending, empty])
        simp [BaseSocket.flow, marked]
      · have calm : s.sockerr = false := by simpa using marked
        by_cases none_ : block = []
        · refine .closed { s with incoming := rest } polled ?_ ?_ ?_
          · simp [direct, BaseSocket.recvAfter, calm, arrivals, recv, none_]
          · simp [BaseSocket.flow, calm, arrivals, flow, none_]
          · rw [BaseSocket.pending, empty, arrivals, none_]
            rfl
        · have long : 0 < block.length := List.length_pos_iff.mpr none_
          let left := if block.length ≤ n then rest else .bytes (block.drop n) :: rest
          refine .given { s with incoming := left } (block.take n) polled ?_ ?_ (List.length_take_le n block) empty ?_ ?_
          · simp only [direct, BaseSocket.recvAfter, calm, arrivals, recv, Bool.false_eq_true, if_false, List.nil_append]
            rfl
          · rw [← List.length_pos_iff, List.length_take]
            omega
          · simp only [BaseSocket.flow, calm, arrivals, flow, none_, Bool.false_eq_true, if_false, left]
            split
            · rename_i all
              simp [List.take_of_length_le all]
            · rename_i part
              have more : block.drop n ≠ [] := by
                rw [← List.length_pos_iff, List.length_drop]
                omega
              simp [flow, more, ← List.append_assoc]
          · simp only [BaseSocket.pending, empty, left, arrivals, List.nil_append]
            split
            · rename_i all
              simp [flat, List.take_of_length_le all]
            · simp [flat, ← List.append_assoc]

theorem tunnelLoop_exact {ignore : Bool} {T : Nat} (rounds : Nat) : ∀ {throughput : Nat} {sockfrom : BaseSocket}
    {sockto : Destination}, sockfrom.buffer = [] → Willing ignore sockto → (flat sockfrom.incoming).length < rounds →
    ∃ throughput' sockfrom' sockto', tunnelLoop ignore T rounds throughput sockfrom sockto =
        (throughput', sockfrom', sockto') ∧
      sockto'.written = sockto.written ++ sockfrom.flow.1.take (T - throughput) ∧
      flat sockfrom.incoming = sockfrom.flow.1.take (T - throughput) ++ sockfrom'.pending := by
  induction rounds with
  | zero =>
    intro throughput sockfrom sockto _ _ enough
    omega
  | succ rounds ih =>
    intro throughput sockfrom sockto empty willing enough
    have limited : (T : Int) > -1 := by omega
    by_cases further : throughput < T
    · have further' : (throughput : Int) < T := by omega
      have wanted : readlen T throughput = min 32768 (T - throughput) := by
        simp only [readlen, limited, if_true]
        omega
      simp only [tunnelLoop, further', implies_true, if_true, wanted]
      obtain ⟨writable, silent⟩ := willing.round
      cases @step sockfrom (min 32768 (T - throughput)) (by omega) empty with
      | quiet rest polled none_ kept => simp [polled, none_, BaseSocket.pending, empty, kept]
      | refused t polled read none_ kept => simp [polled, read, none_, kept]
      | closed t polled read none_ kept => simp [polled, read, none_, kept]
      | given t given polled read some_ most emptied more kept =>
        obtain ⟨sockto', write, written, willing'⟩ := willing.next.write given
        simp only [polled, read, some_, if_false, writable, Bool.not_true, Bool.false_eq_true, write, silent]
        have filled : 0 < given.length := List.length_pos_iff.mpr some_
        have pending : t.pending = flat t.incoming := by rw [BaseSocket.pending, emptied, List.nil_append]
        have lengths := congrArg List.length kept
        rw [List.length_append, pending] at lengths
        obtain ⟨throughput', sockfrom', sockto'', loop, sent, left⟩ :=
          @ih (throughput + given.length) t sockto' emptied willing' (by omega)
        have cut : sockfrom.flow.1.take (T - throughput) = given ++ t.flow.1.take (T - (throughput + given.length)) := by
          have whole : given.take (T - throughput) = given := List.take_of_length_le (by omega)
          rw [more, List.take_append, whole, Nat.sub_sub]
        refine ⟨throughput', sockfrom', sockto'', by exact_mod_cast loop, ?_, ?_⟩
        · rw [sent, written, cut, List.append_assoc]
        · rw [← kept, cut, pending, left, List.append_assoc]
    · have none_ : T - throughput = 0 := by omega
      have done : ¬ (throughput : Int) < T := by omega
      refine ⟨throughput, sockfrom, sockto, ?_, by simp [none_], ?_⟩
      · simp only [tunnelLoop, limited, done, forall_const, if_false]
      · rw [none_, BaseSocket.pending, empty]
        rfl

def available (s : BaseSocket) : Str := s.buffer ++ s.flow.1

/-- Exactly the first T bytes are sent, or all there are; the others are still to come. -/
def PassesOn (ignore : Bool) (T : Nat) (sockfrom : BaseSocket) (sockto : Destination) : Prop :=
  let result := tunnel ignore T .fresh sockfrom sockto
  result.2.2.2.written = sockto.written ++ (available sockfrom).take T ∧
    sockfrom.pending = (available sockfrom).take T ++ result.2.2.1.pending

theorem tunnel_exact_iff_buffer_inside {ignore : Bool} {T : Nat} (positive : 0 < T) (sockfrom : BaseSocket)
    {sockto : Destination} (willing : Willing ignore sockto) :
    PassesOn ignore T sockfrom sockto ↔ sockfrom.buffer.length ≤ T := by
  have some_ : ¬ (T : Int) = 0 := by omega
  obtain ⟨sockto', write, written, willing'⟩ := willing.write sockfrom.buffer
  have enough : (flat sockfrom.incoming).length < sockfrom.pending.length + 1 := by
    rw [BaseSocket.pending, List.length_append]
    omega
  obtain ⟨throughput, sockfrom', sockto'', loop, sent, left⟩ := @tunnelLoop_exact ignore T
    (sockfrom.pending.length + 1) sockfrom.buffer.length { sockfrom with buffer := [] } sockto' rfl willing' enough
  have start : FDTunnel.fresh.throughput + (sockfrom.buffer.length : Int) = (sockfrom.buffer.length : Int) := by
    simp [FDTunnel.fresh]
  have flows : { sockfrom with buffer := [] }.flow = sockfrom.flow := rfl
  simp only [PassesOn, tunnel, some_, if_false, write, start, loop, available]
  rw [flows] at sent left
  rw [sent, written, List.append_assoc, List.append_cancel_left_eq]
  constructor
  · -- all of the buffer was sent, so it is not longer than what should have been sent
    intro both
    have lengths := congrArg List.length both.1
    simp only [List.length_append, List.length_take] at lengths
    omega
  · intro inside
    rw [List.take_append, List.take_of_length_le inside]
    refine ⟨rfl, ?_⟩
    rw [BaseSocket.pending, List.append_assoc]
    exact congrArg _ left

def takesAll : Destination := ⟨[], [], []⟩

def bodyBegun : BaseSocket := ⟨str "ab", [.bytes (str "cGET")], false, false⟩

theorem body_begun_passed : 0 < 3 ∧ Willing true takesAll ∧ PassesOn true 3 bodyBegun takesAll := by
  have willing : Willing true takesAll := ⟨by simp [takesAll], by simp [takesAll]⟩
  exact ⟨by decide, willing, (tunnel_exact_iff_buffer_inside (by decide) bodyBegun willing).mpr (by decide)⟩

def pipelined : BaseSocket := ⟨str "abcGET", [], false, false⟩

theorem pipelined_request_passed_on :
    ¬ PassesOn true 3 pipelined takesAll ∧ (tunnel true 3 .fresh pipelined takesAll).2.2.2.written = str "abcGET" := by
  refine ⟨?_, by decide⟩
  unfold PassesOn
  decide

/- A tunnel in chunks. -/

def writeAll : List Str → Destination → Bool × Destination
  | [], d => (true, d)
  | part :: parts, d =>
    match writeToSocket part d with
    | (false, d) => (false, d)
    | (true, d) => writeAll parts d

namespace Destination

def writeChunk (buffout : Str) (d : Destination) : Bool × Destination :=
  writeAll [hex buffout.length ++ crlf, buffout, crlf] d

def writeChunkTrailer (trailer : Str) (d : Destination) : Bool × Destination :=
  writeAll [str "0" ++ crlf, trailer, crlf] d

end Destination

def maxlen : Nat := 32000

/-- Chunks are read and written until there is none; the result of a write is not looked at. The
last answer, the number of bytes read and both sides. -/
def tunnelChunks : Nat → Int → Socket → Destination → Int × Int × Socket × Destination
  | 0, total_rd, sockfrom, sockto => (1, total_rd, sockfrom, sockto)
  | calls + 1, total_rd, sockfrom, sockto =>
    match readChunk maxlen sockfrom with
    | (rd, buff, sockfrom) =>
      if rd > 0 then tunnelChunks calls ((total_rd + rd).bmod (2 ^ 32)) sockfrom (sockto.writeChunk buff).2
      else (rd, total_rd, sockfrom, sockto)

def weight (r : CutStream.Reader UInt8) : Nat := r.buffer.length + 2 * r.incoming.flatten.length

def tunnelChunked (sockfrom : Socket) (sockto : Destination) : Bool × FDTunnel × Socket × Destination :=
  let (_, total_rd, sockfrom, sockto) := tunnelChunks (weight sockfrom.reader + 1) 0 sockfrom sockto
  (true, ⟨total_rd⟩, sockfrom, (sockto.writeChunkTrailer sockfrom.chunked_trailer).2)

/- The loop comes to its end. -/

theorem recv_lengths (n : Nat) (pieces : List Str) :
    (CutStream.recv n pieces).1.length + (CutStream.recv n pieces).2.flatten.length = pieces.flatten.length := by
  cases pieces with
  | nil => rfl
  | cons piece rest =>
    simp only [CutStream.recv, List.length_take]
    split
    · rw [List.flatten_cons, List.length_append]
      omega
    · rw [List.flatten_cons, List.flatten_cons, List.length_append, List.length_append, List.length_drop]
      omega

theorem getLineLoop_weight (size rounds : Nat) : ∀ (line : Str) (r : CutStream.Reader UInt8),
    weight (getLineLoop size rounds line r).2 ≤ weight r := by
  induction rounds with
  | zero => exact fun _ _ => Nat.le_refl _
  | succ rounds ih =>
    intro line r
    have lengths := recv_lengths blockSize r.incoming
    rw [getLineLoop]
    split
    · simp only
      split
      · simp only [weight, List.length_nil]
        omega
      · split
        · simp only [weight, List.length_drop]
          omega
        · refine Nat.le_trans (ih _ _) ?_
          simp only [weight]
          omega
    · exact Nat.le_refl _

theorem getLine_weight (size : Nat) (r : CutStream.Reader UInt8) : weight (getLine size r).2 ≤ weight r := by
  unfold getLine
  simp only
  split
  · simp only [weight, List.length_drop]
    omega
  · refine Nat.le_trans (getLineLoop_weight size size _ _) ?_
    simp only [weight, List.length_drop]
    omega

theorem readFromSocketn_weight (len : Nat) (r : CutStream.Reader UInt8) :
    (readFromSocketn len r).1.length + weight (readFromSocketn len r).2 ≤ weight r := by
  unfold readFromSocketn readFromSocket
  split
  · simp only [weight, List.length_take, List.length_drop]
    omega
  · have lengths := recv_lengths (len - r.buffer.length) r.incoming
    simp only [weight, List.length_append, List.length_nil]
    omega

theorem readSize_weight {s t : Socket} (sized : readSize s = some t) : weight t.reader ≤ weight s.reader := by
  have line := getLine_weight 38 s.reader
  unfold readSize at sized
  simp only at sized
  split at sized
  · split at sized
    · cases sized
    · split at sized
      · cases sized
        exact line
      · cases sized
        exact line
  · cases sized
    exact Nat.le_refl _

theorem readTail_weight (rc : Int) (s : Socket) :
    weight (readTail rc s).2.reader ≤ weight s.reader ∧ ((readTail rc s).1 = rc ∨ (readTail rc s).1 = -1) := by
  have tail := readFromSocketn_weight 2 s.reader
  unfold readTail
  simp only
  split
  · exact ⟨by simp only; omega, .inl rfl⟩
  · exact ⟨by simp only; omega, .inr rfl⟩

theorem readData_given {maxlen : Nat} {s : Socket} (given : 0 < (GuardianChunkErrors.readData maxlen s).1) :
    (GuardianChunkErrors.readData maxlen s).2.1 ≠ [] ∧
      weight (GuardianChunkErrors.readData maxlen s).2.2.reader < weight s.reader := by
  rcases Int.lt_trichotomy s.chunk_to_read 0 with low | zero | high
  · obtain ⟨-, -, good, missing⟩ := @GuardianChunkErrors.readData_negative maxlen s low
    by_cases tail : (readFromSocketn 2 s.reader).1 = crlf
    · have none_ := good tail
      omega
    · have refused := (missing tail).1
      omega
  · have none_ := (@GuardianChunkErrors.readData_zero maxlen s zero).1
    omega
  · have read := readFromSocketn_weight (min s.chunk_to_read (maxlen : Int)).toNat s.reader
    unfold GuardianChunkErrors.readData at given ⊢
    simp only at given ⊢
    split at given
    · exact absurd given (Int.lt_irrefl 0)
    · rename_i some_
      have wanted : min s.chunk_to_read (maxlen : Int) > 0 := by omega
      simp only [some_, wanted, if_true, if_false] at given ⊢
      generalize readFromSocketn (min s.chunk_to_read (maxlen : Int)).toNat s.reader = data at given read ⊢
      split at given
      · rename_i further
        simp only [further, if_true]
        have filled : 0 < data.1.length := by omega
        exact ⟨List.length_pos_iff.mp filled, by omega⟩
      · rename_i last
        simp only [last, if_false]
        obtain ⟨less, answer⟩ := readTail_weight data.1.length
          { s with reader := data.2, chunk_to_read := s.chunk_to_read - data.1.length }
        have filled : 0 < data.1.length := by
          rcases answer with same | refused
          · omega
          · omega
        refine ⟨List.length_pos_iff.mp filled, ?_⟩
        simp only at less
        omega

theorem readChunk_given {maxlen : Nat} {s : Socket} (given : 0 < (readChunk maxlen s).1) :
    (readChunk maxlen s).2.1 ≠ [] ∧ weight (readChunk maxlen s).2.2.reader < weight s.reader := by
  cases sized : readSize s with
  | none => simp [readChunk, sized] at given
  | some t =>
    rw [GuardianChunkErrors.readChunk_of_size sized] at given ⊢
    obtain ⟨some_, less⟩ := readData_given given
    exact ⟨some_, Nat.lt_of_lt_of_le less (readSize_weight sized)⟩

theorem tunnelChunks_ends (calls : Nat) : ∀ (total_rd : Int) (s : Socket) (d : Destination),
    weight s.reader < calls → (tunnelChunks calls total_rd s d).1 ≤ 0 := by
  induction calls with
  | zero =>
    intro _ _ _ enough
    omega
  | succ calls ih =>
    intro total_rd s d enough
    simp only [tunnelChunks]
    split
    · rename_i given
      have less := (readChunk_given given).2
      exact ih _ _ _ (Nat.lt_of_lt_of_le less (Nat.lt_succ_iff.mp enough))
    · rename_i ended
      exact Int.not_lt.mp ended

/- What the source gives and what is written of it. -/

def drain : Nat → Socket → List Str × Socket
  | 0, s => ([], s)
  | calls + 1, s =>
    if (readChunk maxlen s).1 > 0 then
      ((readChunk maxlen s).2.1 :: (drain calls (readChunk maxlen s).2.2).1, (drain calls (readChunk maxlen s).2.2).2)
    else ([], s)

def sourceBlocks (s : Socket) : List Str := (drain (weight s.reader + 1) s).1

/-- The call that gives no block reads a zero chunk of the source. -/
def SourceEnded (s : Socket) : Prop :=
  let last := (drain (weight s.reader + 1) s).2
  last.chunk_to_read = 0 ∧ GuardianChunkErrors.nextSize last.reader.pending = some 0

def behindBlocks (s : Socket) (d : Destination) : Destination :=
  (tunnelChunks (weight s.reader + 1) 0 s d).2.2.2

def BlocksWritten (s : Socket) (d : Destination) : Prop :=
  (behindBlocks s d).written = d.written ++ (sourceBlocks s).flatMap writeChunk

/-- A zero chunk is only written behind a body that is complete; otherwise the call fails. -/
structure Honest (s : Socket) (d : Destination) : Prop where
  ends : (tunnelChunks (weight s.reader + 1) 0 s d).1 ≤ 0
  terminated : (tunnelChunked s d).2.2.2.written ≠ (behindBlocks s d).written → SourceEnded s ∧ BlocksWritten s d
  failed : ¬ (SourceEnded s ∧ BlocksWritten s d) →
    (tunnelChunked s d).1 = false ∧ (tunnelChunked s d).2.2.2.written = (behindBlocks s d).written

theorem writeToSocket_taken {buff : Str} (some_ : buff ≠ []) {d : Destination} (free : ∀ o ∈ d.outcomes.take 1, o = none) :
    writeToSocket buff d = (true, { d with written := d.written ++ buff, outcomes := d.outcomes.drop 1 }) := by
  have first : d.outcomes.headD none = none := by
    cases outcomes : d.outcomes with
    | nil => rfl
    | cons outcome rest => exact free outcome (by simp [outcomes])
  simp only [writeToSocket, some_, if_false, first, List.drop_one]

theorem writeToSocket_refused {buff : Str} (some_ : buff ≠ []) {d : Destination}
    (refused : ¬ ∀ o ∈ d.outcomes.take 1, o = none) :
    (writeToSocket buff d).1 = false ∧ (writeToSocket buff d).2.written.length < d.written.length + buff.length := by
  obtain ⟨sent, rest, outcomes⟩ : ∃ sent rest, d.outcomes = some sent :: rest := by
    cases outcomes : d.outcomes with
    | nil => simp [outcomes] at refused
    | cons outcome rest =>
      cases outcome with
      | none => simp [outcomes] at refused
      | some sent => exact ⟨sent, rest, rfl⟩
  have filled : 0 < buff.length := List.length_pos_iff.mpr some_
  simp only [writeToSocket, some_, if_false, outcomes, List.headD_cons, List.length_append, List.length_take]
  exact ⟨trivial, by omega⟩

theorem writeAll_taken {parts : List Str} (some_ : ∀ part ∈ parts, part ≠ []) : ∀ {d : Destination},
    (∀ o ∈ d.outcomes.take parts.length, o = none) →
    writeAll parts d =
      (true, { d with written := d.written ++ parts.flatten, outcomes := d.outcomes.drop parts.length }) := by
  induction parts with
  | nil => simp [writeAll]
  | cons part parts ih =>
    intro d free
    have here : ∀ o ∈ d.outcomes.take 1, o = none := fun o member =>
      free o ((List.take_prefix_take_left (by simp)).subset member)
    have later : ∀ o ∈ (d.outcomes.drop 1).take parts.length, o = none := by
      intro o member
      refine free o ?_
      rw [List.length_cons, Nat.add_comm, List.take_add]
      exact List.mem_append_right _ member
    rw [writeAll, writeToSocket_taken (some_ part List.mem_cons_self) here]
    simp only
    rw [ih (fun other member => some_ other (List.mem_cons_of_mem _ member)) later]
    simp

theorem writeAll_refused {parts : List Str} (some_ : ∀ part ∈ parts, part ≠ []) : ∀ {d : Destination},
    (¬ ∀ o ∈ d.outcomes.take parts.length, o = none) →
    (writeAll parts d).2.written.length < d.written.length + parts.flatten.length := by
  induction parts with
  | nil =>
    intro d refused
    simp at refused
  | cons part parts ih =>
    intro d refused
    rw [writeAll, List.flatten_cons, List.length_append]
    by_cases here : ∀ o ∈ d.outcomes.take 1, o = none
    · rw [writeToSocket_taken (some_ part List.mem_cons_self) here]
      have later : ¬ ∀ o ∈ (d.outcomes.drop 1).take parts.length, o = none := by
        intro free
        refine refused fun o member => ?_
        rw [List.length_cons, Nat.add_comm, List.take_add] at member
        rcases List.mem_append.mp member with first | rest
        · exact here o first
        · exact free o rest
      have next := @ih (fun other member => some_ other (List.mem_cons_of_mem _ member))
        { d with written := d.written ++ part, outcomes := d.outcomes.drop 1 } later
      rw [List.length_append] at next
      simp only
      omega
    · obtain ⟨failed, less⟩ := writeToSocket_refused (some_ part List.mem_cons_self) here
      split
      · rename_i d' write
        rw [write] at less
        simp only at less ⊢
        omega
      · rename_i d' write
        rw [write] at failed
        cases failed

/-- The next writes are not refused. -/
def Free (n : Nat) (d : Destination) : Prop := ∀ outcome ∈ d.outcomes.take n, outcome = none

theorem free_add (m n : Nat) (d : Destination) :
    Free (m + n) d ↔ Free m d ∧ ∀ outcome ∈ (d.outcomes.drop m).take n, outcome = none := by
  unfold Free
  rw [List.take_add]
  simp only [List.mem_append]
  exact ⟨fun all => ⟨fun o member => all o (.inl member), fun o member => all o (.inr member)⟩,
    fun parts o member => member.elim (parts.1 o) (parts.2 o)⟩

section Chunks
variable {block : Str} {d : Destination}

theorem chunk_parts (some_ : block ≠ []) : ∀ part ∈ [hex block.length ++ crlf, block, crlf], part ≠ [] := by
  intro part member
  simp only [List.mem_cons, List.not_mem_nil, or_false] at member
  rcases member with rfl | rfl | rfl
  · simp [crlf]
  · exact some_
  · decide

theorem chunk_text (block : Str) : [hex block.length ++ crlf, block, crlf].flatten = writeChunk block := by
  simp [writeChunk]

theorem writeChunk_taken (some_ : block ≠ []) (free : Free 3 d) : (d.writeChunk block).2 =
    { d with written := d.written ++ writeChunk block, outcomes := d.outcomes.drop 3 } := by
  rw [Destination.writeChunk, writeAll_taken (chunk_parts some_) free, chunk_text]
  rfl

theorem writeChunk_refused (some_ : block ≠ []) (refused : ¬ Free 3 d) :
    (d.writeChunk block).2.written.length < d.written.length + (writeChunk block).length := by
  rw [← chunk_text]
  exact writeAll_refused (chunk_parts some_) refused

end Chunks

/-- All of every block arrives if no write is refused, and less if one is. -/
theorem tunnelChunks_written (calls : Nat) : ∀ (total_rd : Int) (s : Socket) (d : Destination),
    (Free (3 * (drain calls s).1.length) d →
      (tunnelChunks calls total_rd s d).2.2.2.written = d.written ++ (drain calls s).1.flatMap writeChunk) ∧
    (¬ Free (3 * (drain calls s).1.length) d → (tunnelChunks calls total_rd s d).2.2.2.written.length <
      d.written.length + ((drain calls s).1.flatMap writeChunk).length) := by
  induction calls with
  | zero =>
    intro total_rd s d
    simp [tunnelChunks, drain, Free]
  | succ calls ih =>
    intro total_rd s d
    obtain ⟨rd, buff, t, call⟩ : ∃ rd buff t, readChunk maxlen s = (rd, buff, t) := ⟨_, _, _, rfl⟩
    simp only [tunnelChunks, drain, call]
    split
    · rename_i given
      have some_ : buff ≠ [] := by
        have read := (@readChunk_given maxlen s (by rw [call]; exact given)).1
        rwa [call] at read
      have count : 3 * (buff :: (drain calls t).1).length = 3 + 3 * (drain calls t).1.length := by
        rw [List.length_cons]
        omega
      simp only [count, free_add, List.flatMap_cons, List.length_append]
      obtain ⟨all, less⟩ := ih ((total_rd + rd).bmod (2 ^ 32)) t (d.writeChunk buff).2
      by_cases here : Free 3 d
      · rw [writeChunk_taken some_ here] at all less ⊢
        rw [List.length_append] at less
        constructor
        · intro free
          rw [all free.2, List.append_assoc]
        · intro refused
          have rest := less fun later => refused ⟨here, later⟩
          omega
      · refine ⟨fun free => absurd free.1 here, fun _ => ?_⟩
        have first := writeChunk_refused some_ here
        by_cases later : Free (3 * (drain calls t).1.length) (d.writeChunk buff).2
        · rw [all later, List.length_append]
          omega
        · have rest := less later
          omega
    · simp [Free]

theorem blocks_written_iff_free (s : Socket) (d : Destination) :
    BlocksWritten s d ↔ Free (3 * (sourceBlocks s).length) d := by
  obtain ⟨all, less⟩ := tunnelChunks_written (weight s.reader + 1) 0 s d
  constructor
  · intro written
    by_contra refused
    have lengths := congrArg List.length written
    have short := less refused
    rw [List.length_append] at lengths
    unfold behindBlocks sourceBlocks at lengths
    omega
  · exact all

/-- A tunnel in chunks ends a body as it should if and only if the source ends with a zero chunk and
no write of a block is refused. -/
theorem chunked_tunnel_honest_iff_whole (s : Socket) (d : Destination) :
    Honest s d ↔ SourceEnded s ∧ Free (3 * (sourceBlocks s).length) d := by
  rw [← blocks_written_iff_free]
  constructor
  · intro honest
    by_contra broken
    have answer := (honest.failed broken).1
    simp [tunnelChunked] at answer
  · intro whole
    exact ⟨tunnelChunks_ends _ _ _ _ (Nat.lt_succ_self _), fun _ => whole, fun broken => absurd whole broken⟩

def cutBody : Socket := .fresh [str "5\r\nab"]

/-- The body is whole, but the destination does not take its first block. -/
def wholeBody : Socket := .fresh [str "2\r\nab\r\n0\r\n\r\n"]

def refusing : Destination := ⟨[], [none, some 0], []⟩

theorem broken_bodies_terminated :
    ¬ Honest cutBody takesAll ∧ ¬ Honest wholeBody refusing ∧
      (tunnelChunked cutBody takesAll).2.2.2.written = str "2\r\nab\r\n0\r\n\r\n" ∧
      (tunnelChunked wholeBody refusing).2.2.2.written = str "2\r\n0\r\n\r\n" := by
  refine ⟨?_, ?_, by decide, by decide⟩
  · intro honest
    have broken : ¬ SourceEnded cutBody := by
      unfold SourceEnded
      decide
    have answer := (honest.failed fun whole => broken whole.1).1
    exact absurd answer (by decide)
  · intro honest
    have broken : ¬ BlocksWritten wholeBody refusing := by
      unfold BlocksWritten
      decide
    have answer := (honest.failed fun whole => broken whole.2).1
    exact absurd answer (by decide)

end GuardianTunnel
