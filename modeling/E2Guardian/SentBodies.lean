import E2Guardian.DataBuffers

/- What DataBuffer::out sends of a body of which a part has gone out before, and how its receiver takes it apart. -/
namespace GuardianSentBodies
open GuardianString GuardianChunks GuardianTunnel GuardianDataBuffers MachineInts

/- The receiver. -/

/-- A size, so many bytes, and so on up to a size of zero: the body, and what is left behind it. -/
def dechunk : Nat → Str → Option (Str × Str)
  | 0, _ => none
  | chunks + 1, text =>
    let size := hexNumber (text.takeWhile isHex)
    let behind := text.dropWhile isHex
    if text.takeWhile isHex = [] ∨ behind.take 2 ≠ crlf then none
    else
      let body := (behind.drop 2).take size
      let behind := (behind.drop 2).drop size
      if body.length < size ∨ behind.take 2 ≠ crlf then none
      else if size = 0 then some ([], behind.drop 2)
      else (dechunk chunks (behind.drop 2)).map fun (more, left) => (body ++ more, left)

def decoded (text : Str) : Option (Str × Str) := dechunk text.length text

/-- Chunks and one that ends them, which the receiver takes for the body, with whatever stands behind. -/
def ChunksOf (body text : Str) : Prop :=
  (∃ blocks : List Str, [] ∉ blocks ∧ text = wire blocks []) ∧ ∀ rest, decoded (text ++ rest) = some (body, rest)

/-- Exactly the bytes that are still to be sent go out. -/
def SendsRest (b : DataBuffer) (d : Destination) : Prop :=
  ∃ d' text, out b d = some (true, d') ∧ d'.written = d.written ++ text ∧
    if b.chunked then ChunksOf (b.data.drop b.bytesalreadysent) text else text = b.data.drop b.bytesalreadysent

/-- What is left of the body fits the int of a block, which without chunks is the length of the whole body. -/
def Fits (b : DataBuffer) : Prop :=
  b.chunked = true ∨
    (b.data ≠ [] ∧ (b.data.length = b.bytesalreadysent ∨ (b.data.length - b.bytesalreadysent : Int) ≤ int32 b.data.length))

/-- The int of a block is positive but short, so that the loop comes past one place of the body several times, and what is left
    of the body does not fit an int. -/
def Repeats (b : DataBuffer) : Prop :=
  b.chunked = false ∧ 0 < int32 b.data.length ∧ 2 ^ 32 < b.data.length ∧ 2 ^ 31 ≤ b.data.length - b.bytesalreadysent

/- The chunks are taken apart. -/

theorem size_line (n : Nat) (rest : Str) :
    (hex n ++ (crlf ++ rest)).takeWhile isHex = hex n ∧ (hex n ++ (crlf ++ rest)).dropWhile isHex = crlf ++ rest := by
  have stop : isHex cr = false := by decide
  have front : (crlf ++ rest).takeWhile isHex = [] := by simp [crlf, stop]
  have back : (crlf ++ rest).dropWhile isHex = crlf ++ rest := by simp [crlf, stop]
  rw [List.takeWhile_append_of_pos (hex_isHex n), List.dropWhile_append_of_pos (hex_isHex n), front, back, List.append_nil]
  exact ⟨rfl, rfl⟩

theorem dechunk_chunk (chunks : Nat) (block rest : Str) :
    dechunk (chunks + 1) (writeChunk block ++ rest) =
      if block = [] then some ([], rest) else (dechunk chunks rest).map fun (more, left) => (block ++ more, left) := by
  have text : writeChunk block ++ rest = hex block.length ++ (crlf ++ (block ++ (crlf ++ rest))) := by
    simp [writeChunk, List.append_assoc]
  obtain ⟨size, behind⟩ := size_line block.length (block ++ (crlf ++ rest))
  have digits : hex block.length ≠ [] := by
    rw [hex_cases]
    split <;> simp
  have two : crlf.length = 2 := rfl
  rw [dechunk, text]
  dsimp only
  rw [size, behind, hexNumber_hex, List.take_left' two, List.drop_left' two, List.take_left, List.drop_left,
    List.take_left' two, List.drop_left' two]
  simp [digits]

theorem last_chunk : writeChunkTrailer [] = writeChunk [] := by decide

theorem wire_decoded (blocks : List Str) (some_ : [] ∉ blocks) (rest : Str) (chunks : Nat) (enough : blocks.length < chunks) :
    dechunk chunks (wire blocks [] ++ rest) = some (blocks.flatten, rest) := by
  induction blocks generalizing chunks with
  | nil =>
    obtain ⟨more, rfl⟩ := Nat.exists_eq_add_of_lt enough
    rw [wire, last_chunk, List.flatMap_nil, List.nil_append, dechunk_chunk, if_pos rfl]
    rfl
  | cons block blocks ih =>
    rw [List.mem_cons, not_or] at some_
    cases chunks with
    | zero => omega
    | succ chunks =>
      have behind := ih some_.2 chunks (by simpa using enough)
      rw [wire] at behind
      rw [wire, List.flatMap_cons, List.append_assoc, List.append_assoc, dechunk_chunk, if_neg (Ne.symm some_.1),
        ← List.append_assoc, behind]
      rfl

theorem wire_length (blocks : List Str) : blocks.length < (wire blocks []).length := by
  have each : ∀ block : Str, 1 ≤ (writeChunk block).length := by
    intro block
    simp [writeChunk, crlf]
    omega
  rw [wire, last_chunk, List.length_append]
  have last := each []
  induction blocks with
  | nil => exact Nat.lt_of_lt_of_le last (Nat.le_add_left _ _)
  | cons block blocks ih =>
    have first := each block
    rw [List.flatMap_cons, List.length_append, List.length_cons]
    omega

theorem chunks_of_blocks {blocks : List Str} (some_ : [] ∉ blocks) : ChunksOf blocks.flatten (wire blocks []) := by
  refine ⟨⟨blocks, some_, rfl⟩, fun rest => wire_decoded blocks some_ rest _ ?_⟩
  have long := wire_length blocks
  rw [List.length_append]
  omega

/- The sending. -/

theorem Willing.writeAll {ignore : Bool} (parts : List Str) : ∀ {d : Destination}, Willing ignore d →
    ∃ d', GuardianTunnel.writeAll parts d = (true, d') ∧ d'.written = d.written ++ parts.flatten ∧ Willing ignore d' := by
  induction parts with
  | nil => exact fun {d} willing => ⟨d, rfl, by simp, willing⟩
  | cons part parts ih =>
    intro d willing
    obtain ⟨d', write, written, willing'⟩ := willing.write part
    obtain ⟨d'', rest, written', willing''⟩ := ih willing'
    refine ⟨d'', ?_, ?_, willing''⟩
    · simp only [GuardianTunnel.writeAll, write, rest]
    · rw [written', written, List.flatten_cons, List.append_assoc]

section Loop
variable {b : DataBuffer}

/-- A block that is not positive gets the loop no further. -/
theorem ramLoop_stuck (plain : b.chunked = false) {block_len : Int} (low : block_len ≤ 0) (rounds : Nat) :
    ∀ (sent : Int) {d : Destination}, sent < b.data.length → Willing true d → ramLoop b rounds block_len sent d = none := by
  induction rounds with
  | zero => exact fun _ _ _ _ => rfl
  | succ rounds ih =>
    intro sent d more willing
    have kept : ¬block_len > (b.data.length : Int) - sent := by omega
    rw [ramLoop]
    simp only [plain, Bool.false_eq_true, if_false, kept]
    rw [if_pos (by omega)]
    split
    · rfl
    · obtain ⟨d', write, -, willing'⟩ :=
        willing.write ((b.data.drop sent.toNat).take (int32 (b.data.length - sent)).toNat)
      simp only [sendPart, Bool.false_eq_true, if_false, write]
      exact ih (sent + block_len) (by omega) willing'

/-- Without chunks a round sends all that is left, where that is an int, and goes on behind the block. -/
theorem ramLoop_round (plain : b.chunked = false) {sent : Nat} (more : sent < b.data.length)
    (small : (b.data.length - sent : Int) < 2 ^ 31) (rounds : Nat) (block_len : Int) {d : Destination}
    (willing : Willing true d) :
    let block_len' := if block_len > (b.data.length : Int) - sent then (b.data.length : Int) - sent else block_len
    ∃ d', d'.written = d.written ++ b.data.drop sent ∧ Willing true d' ∧
      ramLoop b (rounds + 1) block_len sent d = ramLoop b rounds block_len' (sent + block_len') d' := by
  intro block_len'
  obtain ⟨d', write, written, willing'⟩ := willing.write (b.data.drop sent)
  have left : int32 (b.data.length - sent) = b.data.length - sent := int32_of_fits ⟨by omega, small⟩
  have whole : (b.data.drop sent).take ((b.data.length : Int) - sent).toNat = b.data.drop sent :=
    List.take_of_length_le (by rw [List.length_drop]; omega)
  refine ⟨d', written, willing', ?_⟩
  rw [ramLoop]
  simp only [plain, Bool.false_eq_true, if_false, left, Int.toNat_natCast, whole, sendPart, write]
  rw [if_pos (by omega), if_neg (by omega)]

/-- Without chunks one write is enough, where what is left is not more than the block. -/
theorem ramLoop_plain (plain : b.chunked = false) {sent : Nat}
    (fits : (b.data.length - sent : Int) ≤ int32 b.data.length) {d : Destination} (willing : Willing true d) :
    ∃ d', ramLoop b (b.data.length + 1) (int32 b.data.length) sent d = some (true, d') ∧
      d'.written = d.written ++ b.data.drop sent := by
  by_cases more : sent < b.data.length
  · have bounds := int32_fits b.data.length
    obtain ⟨d', written, -, round⟩ :=
      ramLoop_round plain more (fits.trans_lt bounds.2) b.data.length (int32 b.data.length) willing
    have block : (if int32 b.data.length > (b.data.length : Int) - sent then (b.data.length : Int) - sent
        else int32 b.data.length) = b.data.length - sent := by
      split <;> omega
    obtain ⟨rounds, length⟩ : ∃ rounds, b.data.length = rounds + 1 := ⟨b.data.length - 1, by omega⟩
    refine ⟨d', ?_, written⟩
    rw [round, block, show b.data.length = rounds + 1 from length]
    exact ramLoop_end (by omega) rounds _ d'
  · refine ⟨d, ramLoop_end (by omega) _ _ d, ?_⟩
    rw [List.drop_eq_nil_of_le (Nat.not_lt.mp more), List.append_nil]

theorem ramLoop_extends (plain : b.chunked = false) (rounds : Nat) :
    ∀ {block_len sent : Int} {d d' : Destination} {ok : Bool}, Willing true d →
      ramLoop b rounds block_len sent d = some (ok, d') → ∃ more, d'.written = d.written ++ more := by
  induction rounds with
  | zero => exact fun _ run => nomatch run
  | succ rounds ih =>
    intro block_len sent d d' ok willing run
    rw [ramLoop] at run
    simp only [plain, Bool.false_eq_true, if_false, sendPart] at run
    split at run
    · split at run
      · cases run
      · obtain ⟨d₁, write, written, willing₁⟩ :=
          willing.write ((b.data.drop sent.toNat).take (int32 (b.data.length - sent)).toNat)
        rw [write] at run
        obtain ⟨more, others⟩ := ih willing₁ run
        exact ⟨_, by rw [others, written, List.append_assoc]⟩
    · cases run
      exact ⟨[], (List.append_nil _).symm⟩

/-- Where a block is less than what is left, the end goes out once more. -/
theorem ramLoop_repeats (plain : b.chunked = false) {sent : Nat} (some_ : 0 < int32 b.data.length)
    (short : int32 b.data.length < (b.data.length - sent : Int)) (small : (b.data.length - sent : Int) < 2 ^ 31)
    {d d' : Destination} {ok : Bool} (willing : Willing true d)
    (run : ramLoop b (b.data.length + 1) (int32 b.data.length) sent d = some (ok, d')) :
    d'.written ≠ d.written ++ b.data.drop sent := by
  obtain ⟨d₁, written₁, willing₁, first⟩ :=
    ramLoop_round plain (by omega) small b.data.length (int32 b.data.length) willing
  obtain ⟨block, length⟩ : ∃ block : Nat, int32 b.data.length = block := ⟨(int32 b.data.length).toNat, by omega⟩
  obtain ⟨rounds, many⟩ : ∃ rounds, b.data.length = rounds + 1 := ⟨b.data.length - 1, by omega⟩
  rw [if_neg (by omega), length, ← Int.natCast_add] at first
  obtain ⟨d₂, written₂, willing₂, second⟩ :=
    @ramLoop_round b plain (sent + block) (by omega) (by omega) rounds block d₁ willing₁
  rw [length, first, show ramLoop b b.data.length = ramLoop b (rounds + 1) by rw [← many], second] at run
  obtain ⟨more, others⟩ := ramLoop_extends plain rounds willing₂ run
  rw [others, written₂, written₁, List.append_assoc, List.append_assoc]
  intro same
  have nothing := List.append_right_eq_self.mp (List.append_cancel_left same)
  have end_ := List.drop_eq_nil_iff.mp (List.append_eq_nil_iff.mp nothing).1
  omega

/-- Each round sends a chunk that is not empty. -/
theorem sendLoop_chunks {block_len : Nat} (some_ : 0 < block_len) (rounds : Nat) : ∀ {rest : Str} {d : Destination},
    rest.length ≤ rounds → Willing true d → ∃ d', ∃ blocks : List Str,
      sendLoop true block_len rounds rest d = (true, d') ∧ [] ∉ blocks ∧ blocks.flatten = rest ∧
        d'.written = d.written ++ blocks.flatMap writeChunk ∧ Willing true d' := by
  induction rounds with
  | zero =>
    intro rest d enough willing
    have nothing := List.length_eq_zero_iff.mp (Nat.le_zero.mp enough)
    exact ⟨d, [], rfl, List.not_mem_nil, by rw [nothing, List.flatten_nil], by simp, willing⟩
  | succ rounds ih =>
    intro rest d enough willing
    by_cases nothing : rest = []
    · exact ⟨d, [], by rw [sendLoop, if_pos nothing], List.not_mem_nil, by rw [nothing, List.flatten_nil], by simp, willing⟩
    · have long := List.length_pos_iff.mpr nothing
      obtain ⟨d', write, written, willing'⟩ := Willing.writeAll
        [hex (rest.take block_len).length ++ crlf, rest.take block_len, crlf] willing
      obtain ⟨d'', blocks, sent, filled, body, written', willing''⟩ :=
        @ih (rest.drop block_len) _ (by rw [List.length_drop]; omega) willing'
      refine ⟨d'', rest.take block_len :: blocks, ?_, ?_, ?_, ?_, willing''⟩
      · have chunk : sendPart true (rest.take block_len) d = (true, d') := write
        rw [sendLoop, if_neg nothing, chunk]
        exact sent
      · rw [List.mem_cons, not_or]
        refine ⟨fun empty => ?_, filled⟩
        have length := congrArg List.length empty
        rw [List.length_nil, List.length_take] at length
        omega
      · rw [List.flatten_cons, body, List.take_append_drop]
      · rw [written', written, chunk_text, List.flatMap_cons, List.append_assoc]

end Loop

/- Which bodies are sent as they should be. -/

section Out
variable {b : DataBuffer} {d : Destination} (inRam : b.tempfile = none) (sends : b.dontsendbody = false)
  (willing : Willing true d)
include inRam sends willing

theorem rest_sent_chunks (chunked : b.chunked = true) (all : b.got_all = true)
    (inside : b.bytesalreadysent ≤ b.data.length) : SendsRest b d := by
  have writable := willing.round.1
  have ready := willing.next
  rw [SendsRest]
  by_cases empty : b.data = []
  · obtain ⟨d', write, written, -⟩ := Willing.writeAll [hex 0 ++ crlf, [], crlf] ready
    have start := out_empty sends writable inRam empty
    rw [chunked, if_pos rfl] at start
    refine ⟨d', wire [] [], start.trans (congrArg some write), written, ?_⟩
    rw [chunked, if_pos rfl, empty, List.drop_nil]
    exact @chunks_of_blocks [] List.not_mem_nil
  · obtain ⟨d', blocks, loop, filled, body, written, willing'⟩ :=
      sendLoop_chunks (show 0 < 4048 by decide) (b.data.drop b.bytesalreadysent).length (Nat.le_refl _) ready
    obtain ⟨d'', write, written', -⟩ := Willing.writeAll [str "0" ++ crlf, [], crlf] willing'
    have start := out_chunks sends writable chunked inside (.inr empty)
    rw [inRam, Option.getD_none, sendBody, loop, all] at start
    refine ⟨d'', wire blocks [], start.trans (congrArg some write), ?_, ?_⟩
    · rw [written', written, List.append_assoc]
      rfl
    · rw [chunked, if_pos rfl, ← body]
      exact chunks_of_blocks filled

/-- The four bytes that go out in place of an empty body. -/
theorem empty_spoilt (plain : b.chunked = false) (empty : b.data = []) : ¬SendsRest b d := by
  obtain ⟨d', write, written, -⟩ := willing.next.write (crlf ++ crlf)
  have start := out_empty sends willing.round.1 inRam empty
  rw [plain, if_neg Bool.false_ne_true, write] at start
  rintro ⟨d'', text, run, sent, rest⟩
  rw [start] at run
  rw [plain, if_neg Bool.false_ne_true, empty, List.drop_nil] at rest
  obtain ⟨-, rfl⟩ := Prod.mk.inj (Option.some.inj run)
  rw [written, rest] at sent
  exact absurd (List.append_cancel_left sent) (by decide)

theorem out_plain (plain : b.chunked = false) (filled : b.data ≠ []) :
    out b d = ramLoop b (b.data.length + 1) (int32 b.data.length) b.bytesalreadysent { d with rounds := d.rounds.tail } := by
  have len : blockLen b = int32 b.data.length := by rw [blockLen, plain, if_neg Bool.false_ne_true]
  rw [out_body sends willing.round.1 inRam filled, len, plain]
  cases ramLoop b (b.data.length + 1) (int32 b.data.length) b.bytesalreadysent { d with rounds := d.rounds.tail } with
  | none => rfl
  | some answer =>
    obtain ⟨ok, d'⟩ := answer
    cases ok <;> rfl

theorem rest_sent_plain (plain : b.chunked = false) (filled : b.data ≠ [])
    (fits : b.data.length = b.bytesalreadysent ∨ (b.data.length - b.bytesalreadysent : Int) ≤ int32 b.data.length) :
    SendsRest b d := by
  rw [SendsRest, plain]
  simp only [Bool.false_eq_true, if_false, out_plain inRam sends willing plain filled]
  rcases fits with all | fits
  · refine ⟨_, [], ramLoop_end (by omega) _ _ _, (List.append_nil _).symm, ?_⟩
    rw [List.drop_eq_nil_of_le (by omega)]
  · obtain ⟨d', loop, written⟩ := ramLoop_plain plain fits willing.next
    exact ⟨d', _, loop, written, rfl⟩

theorem fits_of_sent (plain : b.chunked = false) (filled : b.data ≠ []) (inside : b.bytesalreadysent ≤ b.data.length)
    (sent : SendsRest b d) : Fits b ∨ Repeats b := by
  have bounds := int32_fits b.data.length
  by_cases all : b.data.length = b.bytesalreadysent
  · exact .inl (.inr ⟨filled, .inl all⟩)
  · by_cases low : int32 b.data.length ≤ 0
    · obtain ⟨d', text, run, -⟩ := sent
      rw [out_plain inRam sends willing plain filled,
        ramLoop_stuck plain low _ _ (by omega) willing.next] at run
      cases run
    · by_cases short : (b.data.length - b.bytesalreadysent : Int) ≤ int32 b.data.length
      · exact .inl (.inr ⟨filled, .inr short⟩)
      · have large : 2 ^ 32 < b.data.length := by
          by_contra small
          refine short ?_
          unfold int32 at low ⊢
          rw [Int.bmod_def] at low ⊢
          omega
        refine .inr ⟨plain, by omega, large, ?_⟩
        by_contra few
        obtain ⟨d', text, run, written, rest⟩ := sent
        rw [out_plain inRam sends willing plain filled] at run
        rw [plain, if_neg Bool.false_ne_true] at rest
        refine ramLoop_repeats plain (by omega) (by omega) (by omega) willing.next run ?_
        rw [written, rest]

end Out

/-- Without chunks, an empty body and one that does not fit an int stand in the way. -/
theorem rest_sent_iff (b : DataBuffer) {d : Destination} (inRam : b.tempfile = none) (inside : b.bytesalreadysent ≤ b.data.length)
    (sends : b.dontsendbody = false) (all : b.got_all = true) (willing : Willing true d) :
    (Fits b → SendsRest b d) ∧ (SendsRest b d → Fits b ∨ Repeats b) := by
  cases chunked : b.chunked with
  | true => exact ⟨fun _ => rest_sent_chunks inRam sends willing chunked all inside, fun _ => .inl (.inl chunked)⟩
  | false =>
    by_cases empty : b.data = []
    · have spoilt := empty_spoilt inRam sends willing chunked empty
      refine ⟨fun fits => ?_, fun sent => absurd sent spoilt⟩
      rcases fits with yes | ⟨filled, -⟩
      · exact absurd (chunked.symm.trans yes) Bool.false_ne_true
      · exact absurd empty filled
    · refine ⟨fun fits => ?_, fits_of_sent inRam sends willing chunked empty inside⟩
      rcases fits with yes | ⟨-, fits⟩
      · exact absurd (chunked.symm.trans yes) Bool.false_ne_true
      · exact rest_sent_plain inRam sends willing chunked empty fits

def twoOfFive (chunked : Bool) : DataBuffer := ⟨str "hello", none, 2, chunked, true, false⟩

theorem two_of_five_sent : SendsRest (twoOfFive true) takesAll ∧ SendsRest (twoOfFive false) takesAll := by
  have willing : Willing true takesAll := ⟨by simp [takesAll], by simp [takesAll]⟩
  exact ⟨(rest_sent_iff (twoOfFive true) rfl (by decide) rfl rfl willing).1 (.inl rfl),
    (rest_sent_iff (twoOfFive false) rfl (by decide) rfl rfl willing).1 (.inr (by decide))⟩

theorem empty_body_spoilt : ¬SendsRest ⟨[], none, 0, false, true, false⟩ takesAll := by
  rintro ⟨d, text, run, written, rest⟩
  obtain ⟨-, rfl⟩ := Prod.mk.inj (Option.some.inj run)
  rw [rest] at written
  revert written
  decide

end GuardianSentBodies
