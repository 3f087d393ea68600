import E2Guardian.Downloads
import E2Guardian.SentBodies

/- The trickle download manager: while a body is read for scanning, a byte of it goes to the client now and then, and
   DataBuffer::out sends the rest. -/
namespace GuardianTrickle
open GuardianString GuardianTunnel GuardianDownloads GuardianDataBuffers GuardianSentBodies MachineInts
open GuardianSockets hiding Call

structure Trickle where
  d : Download BaseSocket
  bytesalreadysent : Nat
  headersent : Nat
  peersock : Destination

section In
variable (c : Call) (header : Str) (junk : UInt8)

def sendHeader (t : Trickle) : Trickle :=
  if t.headersent < 1 then { t with peersock := (writeToSocket header t.peersock).2, headersent := 2 } else t

/-- A byte from memory, if there is a kilobyte behind it; a byte from the file in any case, since lseek can go beyond its
    end. What read leaves in the byte there is junk. -/
def sendByte (t : Trickle) : Trickle :=
  match t.d.tempfile with
  | none =>
    if t.d.data.length > 1024 ∧ t.bytesalreadysent < t.d.data.length - 1024 then
      { t with
        peersock := (writeToSocket [t.d.data.getD t.bytesalreadysent junk] t.peersock).2
        bytesalreadysent := t.bytesalreadysent + 1 }
    else t
  | some file =>
    { t with
      peersock := (writeToSocket [file.getD t.bytesalreadysent junk] t.peersock).2
      bytesalreadysent := t.bytesalreadysent + 1 }

def inLoop : List Bool → Trickle → Trickle
  | [], t => t
  | due :: delays, t =>
    if 0 < t.d.bytesremaining ∨ c.geteverything then
      let t := if due then sendByte junk (sendHeader header t) else t
      match inRound plainSource c t.d with
      | (true, d) => inLoop delays { t with d := d }
      | (false, d) => { t with d := d }
    else t

/-- `in` for a body that is not chunked. One that does not say how long it is, on a connection that stays, is not read. -/
def trickle (persistent : Bool) (delays : List Bool) (sock : BaseSocket) (peersock : Destination) : Trickle :=
  let t := ⟨start c sock, 0, 0, peersock⟩
  let t := if c.contentLength < 0 ∧ persistent then t else inLoop c header junk delays t
  { t with d := inflated c t.d }

end In

def Trickle.buffer (t : Trickle) : DataBuffer := ⟨t.d.data, t.d.tempfile, t.bytesalreadysent, false, t.d.got_all, false⟩

/- What the client has had. -/

/-- The client has had the header, if anything, and so much of the body. -/
structure Shown (header : Str) (before_ : Str) (t : Trickle) : Prop where
  written : t.peersock.written = before_ ++ (if t.headersent = 0 then [] else header) ++ t.d.body.take t.bytesalreadysent
  first : t.headersent = 0 → t.bytesalreadysent = 0
  willing : Willing true t.peersock
  part : t.bytesalreadysent ≤ t.d.body.length
  barrier : t.d.tempfile = none → t.bytesalreadysent = 0 ∨ t.bytesalreadysent + 1024 ≤ t.d.body.length
  onDisk : t.d.tempfile ≠ none → t.d.data ≠ []

/-- In a round there is always a byte on disk that the client has not had. -/
def Ahead (t : Trickle) : Prop := t.d.tempfile ≠ none → t.bytesalreadysent < t.d.body.length

theorem byte_at {l : Str} {k : Nat} (inside : k < l.length) (junk : UInt8) : l[k]? = some (l.getD k junk) := by
  simp [inside]

theorem body_memory {d : Download BaseSocket} (memory : d.tempfile = none) : d.body = d.data := by
  rw [Download.body, memory, Option.getD_none]

theorem body_file {d : Download BaseSocket} {file : Str} (onDisk : d.tempfile = some file) : d.body = file := by
  rw [Download.body, onDisk, Option.getD_some]

variable {c : Call} {header before_ : Str} {junk : UInt8} {t : Trickle}

theorem shown_header (shown : Shown header before_ t) : Shown header before_ (sendHeader header t) ∧
    (sendHeader header t).headersent ≠ 0 ∧ (sendHeader header t).d = t.d ∧
      (sendHeader header t).bytesalreadysent = t.bytesalreadysent := by
  rw [sendHeader]
  split
  · rename_i none_
    have zero : t.headersent = 0 := Nat.lt_one_iff.mp none_
    obtain ⟨d, write, written, willing⟩ := shown.willing.write header
    have nothing := shown.first zero
    have had := shown.written
    rw [zero, nothing, if_pos rfl, List.take_zero, List.append_nil, List.append_nil] at had
    rw [write]
    refine ⟨⟨?_, (fun no => by cases no), willing, shown.part, shown.barrier, shown.onDisk⟩, (fun no => by cases no), rfl, rfl⟩
    change d.written = before_ ++ header ++ t.d.body.take t.bytesalreadysent
    rw [written, had, nothing, List.take_zero, List.append_nil]
  · rename_i some_
    exact ⟨shown, by omega, rfl, rfl⟩

theorem shown_next (shown : Shown header before_ t) (sent : t.headersent ≠ 0) {b : UInt8}
    (here : t.d.body[t.bytesalreadysent]? = some b)
    (barrier : t.d.tempfile = none → t.bytesalreadysent + 1 + 1024 ≤ t.d.body.length) :
    Shown header before_ { t with
      peersock := (writeToSocket [b] t.peersock).2
      bytesalreadysent := t.bytesalreadysent + 1 } := by
  obtain ⟨d, write, written, willing⟩ := shown.willing.write [b]
  obtain ⟨inside, -⟩ := List.getElem?_eq_some_iff.mp here
  rw [write]
  refine ⟨?_, fun none_ => absurd none_ sent, willing, inside, fun memory => .inr (barrier memory), shown.onDisk⟩
  change d.written = before_ ++ (if t.headersent = 0 then [] else header) ++ t.d.body.take (t.bytesalreadysent + 1)
  rw [written, shown.written, List.take_add_one, here, Option.toList_some, List.append_assoc]

theorem shown_byte (shown : Shown header before_ t) (ahead : Ahead t) (sent : t.headersent ≠ 0) :
    Shown header before_ (sendByte junk t) ∧ (sendByte junk t).d = t.d := by
  rw [sendByte]
  cases place : t.d.tempfile with
  | none =>
    dsimp only
    split
    · rename_i room
      have body := body_memory place
      have inside : t.bytesalreadysent < t.d.data.length := by omega
      have here : t.d.body[t.bytesalreadysent]? = some (t.d.data.getD t.bytesalreadysent junk) := by
        rw [body]
        exact byte_at inside junk
      exact ⟨shown_next shown sent here fun _ => by rw [body]; omega, rfl⟩
    · exact ⟨shown, rfl⟩
  | some file =>
    have inside := ahead (by rw [place]; intro no; cases no)
    have body := body_file place
    rw [body] at inside
    have here : t.d.body[t.bytesalreadysent]? = some (file.getD t.bytesalreadysent junk) := by
      rw [body]
      exact byte_at inside junk
    exact ⟨shown_next shown sent here fun memory => absurd (place ▸ memory) (fun no => by cases no), rfl⟩

/- The rounds. -/

structure Grown (d e : Download BaseSocket) (block : Str) : Prop where
  body : e.body = d.body ++ block
  memory : e.tempfile = none → d.tempfile = none
  onDisk : (d.tempfile ≠ none → d.data ≠ []) → e.tempfile ≠ none → e.data ≠ []

theorem grown_within {d e : Download BaseSocket} (within : withinLimits c d = some e) : Grown d e [] := by
  rcases within_cases within with ⟨rfl, -⟩ | ⟨-, -, memory, large, rfl⟩
  · exact ⟨(List.append_nil _).symm, id, id⟩
  · refine ⟨?_, (fun no => by cases no), fun _ _ => List.length_pos_iff.mp (Nat.zero_lt_of_lt large)⟩
    rw [List.append_nil, body_memory memory]
    rfl

theorem grown_store (d : Download BaseSocket) (block : Str) : Grown d (store block d) block := by
  refine ⟨store_body block d, ?_, ?_⟩
  · rw [store]
    cases d.tempfile with
    | none => exact fun _ => rfl
    | some file => exact fun no => by cases no
  · rw [store]
    cases place : d.tempfile with
    | none => exact fun _ no => absurd rfl no
    | some file =>
      intro some_ _ none_
      have nothing := List.append_eq_nil_iff.mp none_
      rw [nothing.1, List.length_nil, List.drop_zero] at nothing
      exact some_ (fun no => by cases no) nothing.2

theorem Grown.trans {d e f : Download BaseSocket} {block : Str} (first : Grown d e []) (second : Grown e f block) :
    Grown d f block := by
  refine ⟨?_, fun memory => first.memory (second.memory memory), fun some_ => second.onDisk (first.onDisk some_)⟩
  rw [second.body, first.body, List.append_nil]

theorem inRound_grows {d e : Download BaseSocket} {goes : Bool} (round : inRound plainSource c d = (goes, e)) :
    ∃ block, Grown d e block ∧ (goes = true → block ≠ []) := by
  rw [inRound] at round
  split at round
  · cases within : withinLimits c d with
    | none =>
      rw [within] at round
      cases round
      exact ⟨[], ⟨(List.append_nil _).symm, id, id⟩, fun no => by cases no⟩
    | some f =>
      have first := grown_within within
      have same : ∀ sock, Grown f { f with sock := sock } [] := fun sock => ⟨(List.append_nil _).symm, id, id⟩
      rw [within] at round
      dsimp only at round
      cases checked : plainSource.bcheckForInput f.sock with
      | mk ready sock =>
        rw [checked] at round
        cases ready with
        | false =>
          cases round
          exact ⟨[], first.trans (same sock), fun no => by cases no⟩
        | true =>
          cases read : plainSource.read (int32 (newsize c f)) sock with
          | mk rc rest =>
            obtain ⟨block, sock'⟩ := rest
            simp only [read] at round
            split at round
            · cases round
              exact ⟨[], first.trans ⟨(List.append_nil _).symm, id, id⟩, fun no => by cases no⟩
            · rename_i some_
              cases round
              have filled := (@bufferLoop_given (int32 (newsize c f)) (int32 (newsize c f)).toNat [] sock
                (by rw [List.length_nil]; omega)).2
              change bufferLoop _ _ [] sock = _ at read
              rw [read] at filled
              have changed : Grown f { f with sock := sock', bytesremaining := f.bytesremaining - rc } [] :=
                ⟨(List.append_nil _).symm, id, id⟩
              exact ⟨block, (first.trans changed).trans (grown_store _ block),
                fun _ => List.length_pos_iff.mp (filled (Int.not_le.mp some_))⟩
  · cases round
    exact ⟨[], ⟨(List.append_nil _).symm, id, id⟩, fun no => by cases no⟩

theorem shown_grown (shown : Shown header before_ t) {d : Download BaseSocket} {block : Str} (grown : Grown t.d d block) :
    Shown header before_ { t with d := d } := by
  have longer : d.body.length = t.d.body.length + block.length := by rw [grown.body, List.length_append]
  have part := shown.part
  refine ⟨?_, shown.first, shown.willing, ?_, fun memory => ?_, grown.onDisk shown.onDisk⟩
  · dsimp only
    rw [shown.written, grown.body, List.take_append_of_le_length part]
  · dsimp only
    omega
  · dsimp only
    rcases shown.barrier (grown.memory memory) with none_ | behind
    · exact .inl none_
    · exact .inr (by omega)

theorem shown_due (shown : Shown header before_ t) (ahead : Ahead t) (due : Bool) :
    Shown header before_ (if due then sendByte junk (sendHeader header t) else t) ∧
      (if due then sendByte junk (sendHeader header t) else t).d = t.d := by
  split
  · obtain ⟨with_header, sent, same, count⟩ := shown_header shown
    obtain ⟨with_byte, same'⟩ := @shown_byte _ _ junk _ with_header (by rw [Ahead, same, count]; exact ahead) sent
    exact ⟨with_byte, same'.trans same⟩
  · exact ⟨shown, rfl⟩

theorem inLoop_shows (delays : List Bool) (shown : Shown header before_ t) (ahead : Ahead t) :
    Shown header before_ (inLoop c header junk delays t) := by
  induction delays generalizing t with
  | nil => exact shown
  | cons due delays ih =>
    rw [inLoop]
    split
    · obtain ⟨shown, same⟩ := @shown_due _ _ junk _ shown ahead due
      dsimp only
      generalize (if due then sendByte junk (sendHeader header t) else t) = u at shown same
      cases round : inRound plainSource c u.d with
      | mk goes d =>
        obtain ⟨block, grown, more⟩ := inRound_grows round
        have shown' := shown_grown shown grown
        cases goes with
        | false => exact shown'
        | true =>
          apply ih shown'
          intro _
          have longer := List.length_pos_iff.mpr (more rfl)
          have part := shown.part
          change u.bytesalreadysent < d.body.length
          rw [grown.body, List.length_append]
          omega
    · exact shown

/- The rest of it. -/

theorem sendLoop_plain {block_len : Nat} (some_ : 0 < block_len) (rounds : Nat) {rest : Str} (enough : rest.length ≤ rounds)
    {d : Destination} (willing : Willing true d) :
    ∃ d', sendLoop false block_len rounds rest d = (true, d') ∧ d'.written = d.written ++ rest := by
  induction rounds generalizing rest d with
  | zero =>
    have nothing := List.length_eq_zero_iff.mp (Nat.le_zero.mp enough)
    exact ⟨d, rfl, by rw [nothing, List.append_nil]⟩
  | succ rounds ih =>
    rw [sendLoop]
    split
    · rename_i nothing
      exact ⟨d, rfl, by rw [nothing, List.append_nil]⟩
    · rename_i more
      have long := List.length_pos_iff.mpr more
      obtain ⟨d', write, written, willing'⟩ := willing.write (rest.take block_len)
      obtain ⟨d'', sent, written'⟩ := @ih (rest.drop block_len) (by rw [List.length_drop]; omega) d' willing'
      have part : sendPart false (rest.take block_len) d = (true, d') := write
      refine ⟨d'', ?_, ?_⟩
      · rw [part]
        exact sent
      · rw [written', written, List.append_assoc, List.take_append_drop]

/-- After `in`, `out` sends what the client has not had yet. -/
theorem out_sends_rest (shown : Shown header before_ t) (some_ : t.d.body ≠ []) (small : t.d.data.length < 2 ^ 31) :
    ∃ d', out t.buffer t.peersock = some (true, d') ∧
      d'.written = t.peersock.written ++ t.d.body.drop t.bytesalreadysent := by
  have writable := shown.willing.round.1
  have ready := shown.willing.next
  cases place : t.d.tempfile with
  | none =>
    have body := body_memory place
    rw [body] at some_ ⊢
    have fits : (t.buffer.data.length - t.bytesalreadysent : Int) ≤ int32 t.buffer.data.length := by
      rw [int32_natCast (show t.buffer.data.length < 2 ^ 31 from small)]
      omega
    obtain ⟨d', loop, written⟩ := ramLoop_plain (b := t.buffer) rfl fits ready
    have start := out_plain (b := t.buffer) place rfl shown.willing rfl some_
    exact ⟨d', start.trans loop, written⟩
  | some file =>
    have body := body_file place
    have data : 0 < t.d.data.length := List.length_pos_iff.mpr (shown.onDisk (by rw [place]; intro no; cases no))
    have count : (blockLen t.buffer % 2 ^ 32).toNat = t.d.data.length := by
      have len : blockLen t.buffer = int32 t.d.data.length := if_neg Bool.false_ne_true
      rw [len, int32_natCast small]
      omega
    have block : 0 < min (blockLen t.buffer % 2 ^ 32).toNat readMost := by
      rw [count]
      exact Nat.lt_min.mpr ⟨data, by decide⟩
    obtain ⟨d', sent, written⟩ := sendLoop_plain block _ (Nat.le_refl (file.drop t.bytesalreadysent).length) ready
    rw [body]
    refine ⟨d', ?_, written⟩
    rw [out_file (b := t.buffer) rfl writable place]
    refine congrArg some ?_
    change sendBody false _ _ (file.drop t.bytesalreadysent) _ = _
    rw [sendBody, sent]
    rfl

def onDiskSoon : GuardianDownloads.Call := ⟨⟨1, 1, 10⟩, 5, false, true, true, id⟩

def hello : BaseSocket := ⟨str "he", [.bytes (str "llo")], false, false⟩

end GuardianTrickle
