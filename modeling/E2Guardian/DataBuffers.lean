import E2Guardian.MachineInts
import E2Guardian.Tunnel

/- DataBuffer::out: what has not gone out yet of a body, from memory or from the temporary file, as it is or in chunks. -/
namespace GuardianDataBuffers
open GuardianString GuardianChunks GuardianTunnel MachineInts

structure DataBuffer where
  data : Str -- buffer_length bytes
  tempfile : Option Str
  bytesalreadysent : Nat
  chunked : Bool
  got_all : Bool
  dontsendbody : Bool

def sendPart (chunked : Bool) (part : Str) (d : Destination) : Bool × Destination :=
  if chunked then d.writeChunk part else writeToSocket part d

def sendLoop (chunked : Bool) (block_len : Nat) : Nat → Str → Destination → Bool × Destination
  | 0, _, d => (true, d)
  | rounds + 1, rest, d =>
    if rest = [] then (true, d)
    else
      match sendPart chunked (rest.take block_len) d with
      | (false, d) => (false, d)
      | (true, d) => sendLoop chunked block_len rounds (rest.drop block_len) d

def sendBody (chunked got_all : Bool) (block_len : Nat) (body : Str) (d : Destination) : Bool × Destination :=
  match sendLoop chunked block_len body.length body d with
  | (false, d) => (false, d)
  | (true, d) => if chunked && got_all then d.writeChunkTrailer [] else (true, d)

/-- The loop over a body in memory. The last block is shorter; without chunks a block is all that is left. Lengths are passed on
as an `int`, and a block can be negative. None for a loop that does not end or that reads in front of the body. -/
def ramLoop (b : DataBuffer) : Nat → Int → Int → Destination → Option (Bool × Destination)
  | 0, _, _, _ => none
  | rounds + 1, block_len, sent, d =>
    let left := b.data.length - sent
    if 0 < left then
      let block_len := if block_len > left then left else block_len
      let len := if b.chunked then block_len else int32 left
      if sent < 0 ∧ 0 < len then none
      else
        match sendPart b.chunked ((b.data.drop sent.toNat).take len.toNat) d with
        | (false, d) => some (false, d)
        | (true, d) => ramLoop b rounds block_len (sent + block_len) d
    else some (true, d)

def blockLen (b : DataBuffer) : Int := if b.chunked then 4048 else int32 b.data.length

def readMost : Nat := 0x7ffff000

def out (b : DataBuffer) (d : Destination) : Option (Bool × Destination) :=
  if b.dontsendbody then some (true, d)
  else
    let round := d.rounds.headD quietRound
    let d := { d with rounds := d.rounds.tail }
    if !round.writable then some (false, d)
    else
      match b.tempfile with
      | some file =>
        let count := (blockLen b % 2 ^ 32).toNat -- an `unsigned int`
        some (sendBody b.chunked b.got_all (min count readMost) (file.drop b.bytesalreadysent) d)
      | none =>
        if b.data.length ≠ 0 then
          match ramLoop b (b.data.length + 1) (blockLen b) b.bytesalreadysent d with
          | none => none
          | some (false, d) => some (false, d)
          | some (true, d) => some (if b.chunked && b.got_all then d.writeChunkTrailer [] else (true, d))
        else if b.chunked then some (d.writeChunk [])
        else some (writeToSocket (crlf ++ crlf) d)

section Loop
variable {b : DataBuffer}

theorem ramLoop_end {sent : Int} (all : b.data.length ≤ sent) (rounds : Nat) (block_len : Int) (d : Destination) :
    ramLoop b (rounds + 1) block_len sent d = some (true, d) := by
  rw [ramLoop]
  exact if_neg (by omega)

theorem ramLoop_chunks (chunked : b.chunked = true) {block_len : Nat} (some_ : 0 < block_len) (rounds : Nat) :
    ∀ (sent more : Nat) (d : Destination), sent ≤ b.data.length → b.data.length - sent < rounds →
      b.data.length - sent ≤ more →
      ramLoop b rounds block_len sent d = some (sendLoop true block_len more (b.data.drop sent) d) := by
  induction rounds with
  | zero => exact fun _ _ _ _ enough => absurd enough (Nat.not_lt_zero _)
  | succ rounds ih =>
    intro sent more d inside enough room
    by_cases left : sent < b.data.length
    · obtain ⟨more, rfl⟩ : ∃ n, more = n + 1 := ⟨more - 1, by omega⟩
      obtain ⟨rounds, rfl⟩ : ∃ n, rounds = n + 1 := ⟨rounds - 1, by omega⟩
      have filled : b.data.drop sent ≠ [] := fun none_ => by
        have := List.drop_eq_nil_iff.mp none_
        omega
      have inFront : ¬((sent : Int) < 0 ∧ 0 < (if (block_len : Int) > b.data.length - sent then
          (b.data.length : Int) - sent else block_len)) := by omega
      rw [ramLoop, sendLoop, if_neg filled]
      simp only [chunked, if_true, inFront, if_false, Int.toNat_natCast]
      rw [if_pos (by omega)]
      by_cases last : b.data.length - sent < block_len
      · rw [if_pos (by omega),
          show (b.data.length - sent : Int).toNat = (b.data.drop sent).length by rw [List.length_drop]; omega,
          List.take_length, List.take_of_length_le (by rw [List.length_drop]; omega),
          List.drop_eq_nil_of_le (i := block_len) (by rw [List.length_drop]; omega)]
        cases sendPart true (b.data.drop sent) d with
        | mk ok d' =>
          cases ok with
          | false => rfl
          | true =>
            dsimp only
            rw [ramLoop_end (by omega)]
            cases more <;> simp [sendLoop]
      · rw [if_neg (by omega), Int.toNat_natCast]
        cases sendPart true ((b.data.drop sent).take block_len) d with
        | mk ok d' =>
          cases ok with
          | false => rfl
          | true =>
            dsimp only
            rw [← Int.natCast_add, ih (sent + block_len) more d' (by omega) (by omega) (by omega), List.drop_drop]
    · rw [ramLoop_end (by omega), List.drop_eq_nil_of_le (by omega)]
      cases more <;> simp [sendLoop]

end Loop

section Out
variable {b : DataBuffer} {d : Destination}

theorem out_refused (sends : b.dontsendbody = false) (refused : (d.rounds.headD quietRound).writable = false) :
    out b d = some (false, { d with rounds := d.rounds.tail }) := by
  rw [out, sends]
  simp only [Bool.false_eq_true, if_false, refused, Bool.not_false, if_true]

variable (sends : b.dontsendbody = false) (writable : (d.rounds.headD quietRound).writable = true)
include sends writable

theorem out_file {file : Str} (onDisk : b.tempfile = some file) :
    out b d = some (sendBody b.chunked b.got_all (min (blockLen b % 2 ^ 32).toNat readMost) (file.drop b.bytesalreadysent)
      { d with rounds := d.rounds.tail }) := by
  rw [out, sends]
  simp only [Bool.false_eq_true, if_false, writable, Bool.not_true, onDisk]

theorem out_empty (inRam : b.tempfile = none) (empty : b.data = []) :
    out b d = some (if b.chunked then Destination.writeChunk [] { d with rounds := d.rounds.tail }
      else writeToSocket (crlf ++ crlf) { d with rounds := d.rounds.tail }) := by
  rw [out, sends]
  simp only [Bool.false_eq_true, if_false, writable, Bool.not_true, inRam, empty, List.length_nil, ne_eq, not_true_eq_false]
  split <;> rfl

theorem out_body (inRam : b.tempfile = none) (filled : b.data ≠ []) :
    out b d = (ramLoop b (b.data.length + 1) (blockLen b) b.bytesalreadysent { d with rounds := d.rounds.tail }).map
      fun answer =>
        if answer.1 then if b.chunked && b.got_all then answer.2.writeChunkTrailer [] else (true, answer.2) else answer := by
  rw [out, sends]
  simp only [Bool.false_eq_true, if_false, writable, Bool.not_true, inRam, ne_eq, List.length_eq_zero_iff, filled,
    not_false_eq_true, if_true]
  rcases ramLoop b (b.data.length + 1) (blockLen b) b.bytesalreadysent { d with rounds := d.rounds.tail } with _ | ⟨ok, d'⟩
  · rfl
  · cases ok <;> rfl

/-- From memory or from the file, a body that is not empty goes out in the same chunks. -/
theorem out_chunks (chunked : b.chunked = true) (inside : b.bytesalreadysent ≤ b.data.length)
    (filled : b.tempfile ≠ none ∨ b.data ≠ []) :
    out b d = some (sendBody true b.got_all 4048 ((b.tempfile.getD b.data).drop b.bytesalreadysent)
      { d with rounds := d.rounds.tail }) := by
  have len : blockLen b = (4048 : Nat) := by
    rw [blockLen, chunked]
    rfl
  cases place : b.tempfile with
  | some file =>
    rw [out_file sends writable place, chunked, len]
    rfl
  | none =>
    have data : b.data ≠ [] := filled.resolve_left (not_not.mpr place)
    rw [out_body sends writable place data, len,
      ramLoop_chunks chunked (by decide) _ _ _ _ inside (by omega) (Nat.le_of_eq List.length_drop.symm),
      Option.map_some, Option.getD_none, sendBody, chunked, Bool.true_and]
    cases sendLoop true 4048 (b.data.drop b.bytesalreadysent).length (b.data.drop b.bytesalreadysent)
      { d with rounds := d.rounds.tail } with
    | mk ok d' => cases ok <;> rfl

end Out

end GuardianDataBuffers
