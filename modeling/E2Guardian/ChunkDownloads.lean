import E2Guardian.DataBuffers
import E2Guardian.Downloads

/- A chunked body that is downloaded with dminstance::in and sent with DataBuffer::out. Whether the
   zero chunk is sent hangs on got_all, which the loop sets on every answer that is not positive. -/
namespace GuardianChunkDownloads
open GuardianString GuardianChunks GuardianChunkErrors GuardianTunnel GuardianDownloads GuardianDataBuffers MachineInts

/-- The socket, and what the polls before the next calls say where its buffer is empty. -/
structure Polled where
  sock : Socket
  polls : List Bool

def Polled.bcheckForInput (p : Polled) : Bool × Polled :=
  if p.sock.reader.buffer ≠ [] then (true, p) else (p.polls.headD true, { p with polls := p.polls.tail })

/-- A size that is not positive: zero is taken for the last chunk, and below it nothing is read of a
chunk. -/
def readChunk (maxlen : Int) (s : Socket) : Int × Str × Socket :=
  if 0 ≤ maxlen then GuardianChunks.readChunk maxlen.toNat s
  else
    match readSize s with
    | none => (-1, [], { s with chunkError := true, ieof := false, reader := (getLine 38 s.reader).2 })
    | some s =>
      if s.chunk_to_read > 0 then (0, [], s)
      else
        let (answer, s) := readTail 0 s
        (answer, [], s)

theorem readTail_most (s : Socket) : (readTail 0 s).1 ≤ 0 := by
  unfold readTail
  simp only
  split
  · exact Int.le_refl 0
  · exact Int.negSucc_le_zero 0

theorem readChunk_given {maxlen : Int} {s : Socket} (given : 0 < (readChunk maxlen s).1) :
    weight (readChunk maxlen s).2.2.reader < weight s.reader := by
  unfold readChunk at given ⊢
  split
  · rename_i positive
    rw [if_pos positive] at given
    exact (GuardianTunnel.readChunk_given given).2
  · rename_i negative
    rw [if_neg negative] at given
    split at given
    · cases given
    · rename_i t sized
      split at given
      · cases given
      · exact absurd (readTail_most t) (Int.not_le.mpr given)

def chunkedSource : Source Polled where
  bcheckForInput := Polled.bcheckForInput
  read := fun n p => ((readChunk n p.sock).1, (readChunk n p.sock).2.1, { p with sock := (readChunk n p.sock).2.2 })
  left := fun p => weight p.sock.reader
  checked := fun p => by
    unfold Polled.bcheckForInput
    split <;> exact Nat.le_refl _
  given := fun _ _ given => readChunk_given given

def inChunks {σ : Type} (d : Download σ) : DataBuffer := ⟨d.data, d.tempfile, 0, true, d.got_all, false⟩

/- How a download ends. -/

section Ending
variable {σ : Type} (source : Source σ) (c : Call)

def roundSock (d : Download σ) : Option σ :=
  if 0 < d.bytesremaining ∨ c.geteverything then
    match withinLimits c d with
    | none => none
    | some d =>
      match source.bcheckForInput d.sock with
      | (false, _) => none
      | (true, sock) => some sock
  else none

/-- The socket before the read that ends a download; none if a poll or a limit ends it. -/
def lastSock : Nat → Download σ → Option σ
  | 0, _ => none
  | rounds + 1, d =>
    match inRound source c d with
    | (true, d) => lastSock rounds d
    | (false, _) => roundSock source c d

variable {source c} {d e : Download σ}

theorem within_same (within : withinLimits c d = some e) :
    e.sock = d.sock ∧ e.bytesremaining = d.bytesremaining ∧ e.got_all = d.got_all := by
  rcases within_cases within with ⟨rfl, -⟩ | ⟨-, -, -, -, rfl⟩ <;> exact ⟨rfl, rfl, rfl⟩

theorem store_got (block : Str) : (store block d).got_all = d.got_all := by
  unfold store
  cases d.tempfile <;> rfl

theorem round_further (next : inRound source c d = (true, e)) :
    e.got_all = d.got_all ∧ source.left e.sock < source.left d.sock := by
  unfold inRound at next
  split at next
  · cases within : withinLimits c d with
    | none => simp [within] at next
    | some f =>
      obtain ⟨sock, -, got⟩ := within_same within
      simp only [within] at next
      have checked := source.checked f.sock
      cases poll : source.bcheckForInput f.sock with
      | mk ready t =>
        rw [poll] at checked
        cases ready with
        | false => simp [poll] at next
        | true =>
          simp only [poll] at next
          have less := source.given (int32 (newsize c f)) t
          cases read : source.read (int32 (newsize c f)) t with
          | mk rc rest =>
            obtain ⟨block, u⟩ := rest
            simp only [read] at next less
            split at next
            · cases next
            · rename_i positive
              cases next
              rw [(store_same _ _).1, store_got]
              exact ⟨got, Nat.lt_of_lt_of_le (less (by omega)) (sock ▸ checked)⟩
  · cases next

theorem round_ends (chunked : c.chunked = true) (last : inRound source c d = (false, e)) (small : e.toobig = false) :
    e.got_all = (d.got_all || (roundSock source c d).isSome) := by
  have everything : 0 < d.bytesremaining ∨ c.geteverything = true := .inr (by simp [Call.geteverything, chunked])
  unfold inRound at last
  unfold roundSock
  rw [if_pos everything] at last ⊢
  cases within : withinLimits c d with
  | none =>
    simp only [within] at last
    cases last
    cases small
  | some f =>
    obtain ⟨-, -, got⟩ := within_same within
    simp only [within] at last ⊢
    cases poll : source.bcheckForInput f.sock with
    | mk ready t =>
      cases ready with
      | false =>
        simp only [poll] at last ⊢
        cases last
        simp [got]
      | true =>
        simp only [poll] at last ⊢
        split at last
        · cases last
          simp [got, chunked]
        · cases last

theorem inLoop_got (chunked : c.chunked = true) (rounds : Nat) : ∀ {d : Download σ}, source.left d.sock < rounds →
    (inLoop source c rounds d).toobig = false →
    (inLoop source c rounds d).got_all = (d.got_all || (lastSock source c rounds d).isSome) := by
  induction rounds with
  | zero =>
    intro d enough
    exact absurd enough (Nat.not_lt_zero _)
  | succ rounds ih =>
    intro d enough small
    cases round : inRound source c d with
    | mk goes e =>
      cases goes with
      | true =>
        obtain ⟨got, less⟩ := round_further round
        rw [inLoop_next round] at small ⊢
        simp only [lastSock, round]
        rw [ih (by omega) small, got]
      | false =>
        rw [inLoop_last round] at small ⊢
        simp only [lastSock, round]
        exact round_ends chunked round small

end Ending

/- What is sent. -/

def blocks (block_len : Nat) : Nat → Str → List Str
  | 0, _ => []
  | rounds + 1, rest => if rest = [] then [] else rest.take block_len :: blocks block_len rounds (rest.drop block_len)

theorem write_sent {buff : Str} {d : Destination} (taken : (writeToSocket buff d).1 = true) :
    (writeToSocket buff d).2.written = d.written ++ buff := by
  unfold writeToSocket at taken ⊢
  split
  · rename_i empty
    rw [empty, List.append_nil]
  · rename_i some_
    rw [if_neg some_] at taken
    split at taken
    · rfl
    · cases taken

theorem writeAll_sent (parts : List Str) : ∀ {d : Destination}, (writeAll parts d).1 = true →
    (writeAll parts d).2.written = d.written ++ parts.flatten := by
  induction parts with
  | nil =>
    intro d _
    simp [writeAll]
  | cons part parts ih =>
    intro d taken
    have first := @write_sent part d
    rw [writeAll] at taken ⊢
    cases write : writeToSocket part d with
    | mk ok d' =>
      rw [write] at first
      cases ok with
      | false => simp [write] at taken
      | true =>
        simp only [write] at taken ⊢
        rw [ih taken, first rfl, List.flatten_cons, List.append_assoc]

theorem writeChunk_sent {block : Str} {d : Destination} (taken : (d.writeChunk block).1 = true) :
    (d.writeChunk block).2.written = d.written ++ writeChunk block := by
  rw [← chunk_text]
  exact writeAll_sent _ taken

theorem writeChunkTrailer_sent {d : Destination} (taken : (d.writeChunkTrailer []).1 = true) :
    (d.writeChunkTrailer []).2.written = d.written ++ writeChunkTrailer [] := by
  have text := writeAll_sent _ taken
  simpa [writeChunkTrailer, Destination.writeChunkTrailer] using text

theorem sendLoop_sent {block_len : Nat} (rounds : Nat) : ∀ {rest : Str} {d : Destination},
    (sendLoop true block_len rounds rest d).1 = true → (sendLoop true block_len rounds rest d).2.written =
      d.written ++ (blocks block_len rounds rest).flatMap writeChunk := by
  induction rounds with
  | zero =>
    intro rest d _
    simp [sendLoop, blocks]
  | succ rounds ih =>
    intro rest d taken
    rw [sendLoop] at taken ⊢
    rw [blocks]
    split
    · simp
    · rename_i some_
      rw [if_neg some_] at taken
      have first := @writeChunk_sent (rest.take block_len) d
      cases write : d.writeChunk (rest.take block_len) with
      | mk ok d' =>
        rw [write] at first
        cases ok with
        | false => simp [sendPart, write] at taken
        | true =>
          simp only [sendPart, if_true, write] at taken ⊢
          rw [ih taken, first rfl, List.flatMap_cons, List.append_assoc]

theorem sendBody_sent {got_all : Bool} {block_len : Nat} {body : Str} {d : Destination}
    (sent : (sendBody true got_all block_len body d).1 = true) : (sendBody true got_all block_len body d).2.written =
      d.written ++ (blocks block_len body.length body).flatMap writeChunk ++
        if got_all then writeChunkTrailer [] else [] := by
  have front := @sendLoop_sent block_len body.length body d
  unfold sendBody at sent ⊢
  cases run : sendLoop true block_len body.length body d with
  | mk ok d' =>
    rw [run] at front
    cases ok with
    | false => simp [run] at sent
    | true =>
      simp only [run, Bool.true_and] at sent ⊢
      split
      · rename_i all
        rw [if_pos all] at sent
        rw [writeChunkTrailer_sent sent, front rfl]
      · rw [front rfl, List.append_nil]

theorem out_sent {σ : Type} {b : Download σ} (some_ : b.tempfile ≠ some []) {d d' : Destination}
    (sent : out (inChunks b) d = some (true, d')) : d'.written =
      d.written ++ (blocks 4048 b.body.length b.body).flatMap writeChunk ++
        if b.got_all ∨ b.body = [] then writeChunkTrailer [] else [] := by
  have empty : writeChunk [] = writeChunkTrailer [] := by decide
  cases writable : (d.rounds.headD quietRound).writable with
  | false =>
    rw [out_refused rfl writable] at sent
    cases sent
  | true =>
    by_cases filled : (inChunks b).tempfile ≠ none ∨ (inChunks b).data ≠ []
    · have body : b.body ≠ [] := by
        intro none_
        unfold Download.body at none_
        cases place : b.tempfile with
        | some file =>
          rw [place, Option.getD_some] at none_
          exact some_ (none_ ▸ place)
        | none =>
          rw [place, Option.getD_none] at none_
          exact filled.elim (fun file => file place) (fun data => data none_)
      rw [out_chunks rfl writable rfl (Nat.zero_le _) filled] at sent
      have chunks := @sendBody_sent b.got_all 4048 b.body { d with rounds := d.rounds.tail }
      change some (sendBody true b.got_all 4048 (b.body.drop 0) _) = _ at sent
      rw [List.drop_zero, Option.some.injEq] at sent
      rw [sent] at chunks
      rw [chunks rfl]
      simp only [body, or_false]
    · rw [not_or, not_not, not_not] at filled
      have body : b.body = [] := by
        rw [Download.body, show b.tempfile = none from filled.1, Option.getD_none]
        exact filled.2
      rw [out_empty rfl writable filled.1 filled.2, Option.some.injEq] at sent
      have chunk := @writeChunk_sent [] { d with rounds := d.rounds.tail }
      change Destination.writeChunk [] _ = _ at sent
      rw [sent] at chunk
      rw [chunk rfl, empty, body]
      simp [blocks]

/- A download and what is sent of it. -/

section Whole
variable (c : Call) (p : Polled)

def received : Download Polled := inLoop chunkedSource c (weight p.sock.reader + 1) (start c p)

/-- The socket before the last call of readChunk; none if a poll gave up before it, or a limit was passed. -/
def lastCall : Option Polled := lastSock chunkedSource c (weight p.sock.reader + 1) (start c p)

/-- The last call starts at a zero chunk of the origin. -/
def TerminatorRead : Prop :=
  ∃ q, lastCall c p = some q ∧ q.sock.chunk_to_read = 0 ∧ nextSize q.sock.reader.pending = some 0

/-- The client has the body and a zero chunk behind it. -/
def TerminatorSent (d d' : Destination) : Prop :=
  d'.written = d.written ++
    wire (blocks 4048 (download chunkedSource c p).body.length (download chunkedSource c p).body) []

/-- A poll gave up between two chunks, and there is something to send. -/
def GaveUp : Prop := lastCall c p = none ∧ (download chunkedSource c p).body ≠ []

end Whole

theorem inflated_same {σ : Type} (c : Call) (d : Download σ) : (inflated c d).toobig = d.toobig ∧
    (inflated c d).got_all = d.got_all ∧ (inflated c d).tempfile = d.tempfile := by
  unfold inflated
  split <;> exact ⟨rfl, rfl, rfl⟩

theorem terminator_sent_iff {c : Call} {p : Polled} {d d' : Destination} (chunked : c.chunked = true)
    (open_ : (download chunkedSource c p).toobig = false) (some_ : (received c p).body ≠ [])
    (sent : out (inChunks (download chunkedSource c p)) d = some (true, d')) :
    TerminatorSent c p d d' ↔ ¬ GaveUp c p := by
  obtain ⟨toobig, got, tempfile⟩ := inflated_same c (received c p)
  have all : (download chunkedSource c p).got_all = (lastCall c p).isSome := by
    rw [← Bool.false_or (lastCall c p).isSome]
    exact got.trans (inLoop_got chunked _ (Nat.lt_succ_self _) (toobig.symm.trans open_))
  have filled : (download chunkedSource c p).tempfile ≠ some [] := by
    intro onDisk
    have here : (received c p).tempfile = some [] := tempfile.symm.trans onDisk
    exact some_ (by rw [Download.body, here]; rfl)
  unfold TerminatorSent GaveUp
  rw [out_sent filled sent, wire, List.append_assoc, List.append_cancel_left_eq, List.append_cancel_left_eq, all]
  cases lastCall c p with
  | some q => simp
  | none => by_cases empty : (download chunkedSource c p).body = [] <;> simp [empty, writeChunkTrailer, crlf]

/-- The zero chunk is sent if and only if the origin's was read, exactly when the last call read the origin's or a poll gave
up before it. -/
theorem terminator_honest_iff {c : Call} {p : Polled} {d d' : Destination} (chunked : c.chunked = true)
    (open_ : (download chunkedSource c p).toobig = false) (some_ : (received c p).body ≠ [])
    (sent : out (inChunks (download chunkedSource c p)) d = some (true, d')) :
    (TerminatorSent c p d d' ↔ TerminatorRead c p) ↔ (TerminatorRead c p ∨ GaveUp c p) := by
  rw [terminator_sent_iff chunked open_ some_ sent]
  have other : TerminatorRead c p → ¬ GaveUp c p := by
    intro read quiet
    obtain ⟨q, last, -⟩ := read
    rw [quiet.1] at last
    cases last
  tauto

theorem terminatorRead_any (c : Call) (p : Polled) : TerminatorRead c p ↔ (lastCall c p).any (fun q =>
    q.sock.chunk_to_read = 0 ∧ nextSize q.sock.reader.pending = some 0) = true := by
  simp [TerminatorRead, Option.any_eq_true]

def allLimits : Call := ⟨⟨65536, 65536, 65536⟩, -1, true, false, true, id⟩

def wholeStream : Polled := ⟨.fresh [str "2\r\nab\r\n0\r\n\r\n"], []⟩

theorem whole_stream_honest : allLimits.chunked = true ∧ (download chunkedSource allLimits wholeStream).toobig = false ∧
    (received allLimits wholeStream).body ≠ [] ∧
    ∃ d, out (inChunks (download chunkedSource allLimits wholeStream)) takesAll = some (true, d) ∧
      (TerminatorSent allLimits wholeStream takesAll d ↔ TerminatorRead allLimits wholeStream) := by
  have runs : (download chunkedSource allLimits wholeStream).toobig = false ∧ (received allLimits wholeStream).body ≠ [] ∧
      out (inChunks (download chunkedSource allLimits wholeStream)) takesAll =
        some (true, ⟨str "2\r\nab\r\n0\r\n\r\n", [], []⟩) := by decide
  have read : TerminatorRead allLimits wholeStream := by
    rw [terminatorRead_any]
    decide
  exact ⟨rfl, runs.1, runs.2.1, _, runs.2.2, (terminator_honest_iff rfl runs.1 runs.2.1 runs.2.2).mpr (.inl read)⟩

def cutStream : Polled := ⟨.fresh [str "5\r\nab"], []⟩

theorem cut_stream_terminated : (download chunkedSource allLimits cutStream).toobig = false ∧
    (received allLimits cutStream).body ≠ [] ∧
    ∃ d, out (inChunks (download chunkedSource allLimits cutStream)) takesAll = some (true, d) ∧
      d.written = str "2\r\nab\r\n0\r\n\r\n" ∧
      ¬ (TerminatorSent allLimits cutStream takesAll d ↔ TerminatorRead allLimits cutStream) := by
  have runs : (download chunkedSource allLimits cutStream).toobig = false ∧ (received allLimits cutStream).body ≠ [] ∧
      out (inChunks (download chunkedSource allLimits cutStream)) takesAll =
        some (true, ⟨str "2\r\nab\r\n0\r\n\r\n", [], []⟩) := by decide
  refine ⟨runs.1, runs.2.1, _, runs.2.2, rfl, ?_⟩
  rw [terminatorRead_any, TerminatorSent]
  decide

end GuardianChunkDownloads
