import E2Guardian.Tunnel

/- FDTunnel::tunnel in both directions, with sends that take a part of what they are given. What poll answers, what arrives
   on either side and how much each send takes is open, and so is the order of it. -/
namespace GuardianTwoWayTunnels
open GuardianString GuardianSockets GuardianTunnel

/-- One of the two sockets. A send takes at most so many bytes; 0 is one that fails, and later ones take all. -/
structure Side where
  sock : BaseSocket
  written : Str
  sends : List Nat
  deriving DecidableEq, Repr

def sendLoop : Str → Str → List Nat → Bool × Str × List Nat
  | buff, written, [] => (true, written ++ buff, [])
  | buff, written, most :: sends =>
    if buff = [] then (true, written, most :: sends)
    else if most = 0 then (false, written, sends)
    else sendLoop (buff.drop most) (written ++ buff.take most) sends

def writeToSocket (buff : Str) (d : Side) : Bool × Side :=
  let (sent, written, sends) := sendLoop buff d.written d.sends
  (sent, { d with written := written, sends := sends })

structure Polled where
  fromIn : Bool
  toIn : Bool
  toOut : Bool
  fromOut : Bool
  deriving DecidableEq, Repr

structure Tunnel where
  throughput : Int
  sockfrom : Side
  sockto : Side
  deriving DecidableEq, Repr

inductive Passed where
  | closed
  | passed
  | broken
  deriving DecidableEq, Repr

/-- A read on one side and the write of what it gave on the other, with the number of bytes that were read. -/
def pass (len : Nat) (writable : Bool) (source target : Side) : Passed × Nat × Side × Side :=
  match source.sock.readFromSocket len false with
  | (none, sock) => (.broken, 0, { source with sock := sock }, target)
  | (some given, sock) =>
    if given = [] then (.closed, 0, { source with sock := sock }, target)
    else if !writable then (.broken, given.length, { source with sock := sock }, target)
    else
      match writeToSocket given target with
      | (false, target) => (.broken, given.length, { source with sock := sock }, target)
      | (true, target) => (.passed, given.length, { source with sock := sock }, target)

/-- The first half of a round: from the source, if it has something. -/
def forth (targetthroughput : Int) (p : Polled) (s : Tunnel) : Passed × Tunnel :=
  if p.fromIn then
    let (verdict, rc, sockfrom, sockto) := pass (readlen targetthroughput s.throughput) p.toOut s.sockfrom s.sockto
    (verdict, ⟨s.throughput + rc, sockfrom, sockto⟩)
  else (.closed, s)

def back (p : Polled) (verdict : Passed) (s : Tunnel) : Bool × Tunnel :=
  if verdict = .broken then (false, s)
  else if p.toIn then
    let (verdict, _, sockto, sockfrom) := pass 32768 p.fromOut s.sockto s.sockfrom
    (verdict = .passed, ⟨s.throughput, sockfrom, sockto⟩)
  else (verdict = .passed, s)

def round (targetthroughput : Int) (p : Polled) (s : Tunnel) : Bool × Tunnel :=
  let (verdict, s) := forth targetthroughput p s
  back p verdict s

/-- None is a poll that fails or gives up; there is none after the last one. -/
def loop (targetthroughput : Int) : List (Option Polled) → Tunnel → Tunnel
  | some p :: polls, s =>
    if targetthroughput > -1 → s.throughput < targetthroughput then
      match round targetthroughput p s with
      | (true, s) => loop targetthroughput polls s
      | (false, s) => s
    else s
  | _, s => s

def tunnel (targetthroughput : Int) (polls : List (Option Polled)) (s : Tunnel) : Bool × Tunnel :=
  if targetthroughput = 0 then (true, s)
  else
    match writeToSocket s.sockfrom.sock.buffer s.sockto with
    | (false, sockto) => (false, { s with sockto := sockto })
    | (true, sockto) =>
      let sockfrom := { s.sockfrom with sock := { s.sockfrom.sock with buffer := [] } }
      let t := loop targetthroughput polls ⟨s.throughput + s.sockfrom.sock.buffer.length, sockfrom, sockto⟩
      (if targetthroughput > -1 then decide (t.throughput ≥ targetthroughput) else true, t)

/- Writes. -/

/-- What goes out is a first part of what was given, and all of it unless a send fails. -/
theorem sendLoop_sends (sends : List Nat) (buff written : Str) :
    ∃ sent rest, sent ++ rest = buff ∧ (sendLoop buff written sends).2.1 = written ++ sent ∧
      ((sendLoop buff written sends).1 = true → rest = []) ∧
      (0 ∉ sends → (sendLoop buff written sends).1 = true ∧ 0 ∉ (sendLoop buff written sends).2.2) := by
  induction sends generalizing buff written with
  | nil => exact ⟨buff, [], List.append_nil _, rfl, fun _ => rfl, fun none_ => ⟨rfl, none_⟩⟩
  | cons most sends ih =>
    rw [sendLoop]
    split
    · rename_i empty
      exact ⟨[], [], empty.symm, (List.append_nil _).symm, fun _ => rfl, fun none_ => ⟨rfl, none_⟩⟩
    · split
      · rename_i fails
        exact ⟨[], buff, rfl, (List.append_nil _).symm, (fun no => by cases no), fun none_ =>
            absurd (fails ▸ List.mem_cons_self ..) none_⟩
      · obtain ⟨sent, rest, whole, written', all, willing⟩ := ih (buff.drop most) (written ++ buff.take most)
        refine ⟨buff.take most ++ sent, rest, ?_, ?_, all, fun none_ => willing (List.not_mem_of_not_mem_cons none_)⟩
        · rw [List.append_assoc, whole, List.take_append_drop]
        · rw [written', List.append_assoc]

theorem writeToSocket_sends (buff : Str) (d : Side) :
    ∃ ok d' sent rest, writeToSocket buff d = (ok, d') ∧ sent ++ rest = buff ∧ d'.written = d.written ++ sent ∧
      d'.sock = d.sock ∧ (ok = true → rest = []) ∧ (0 ∉ d.sends → ok = true ∧ 0 ∉ d'.sends) := by
  obtain ⟨sent, rest, whole, written, all, willing⟩ := sendLoop_sends d.sends buff d.written
  exact ⟨_, _, sent, rest, rfl, whole, written, rfl, all, willing⟩

/-- A read takes what is first in line. Only a read that fails can lose something. -/
theorem read_takes (s : BaseSocket) (len : Nat) :
    ∃ lost, s.pending = (s.readFromSocket len false).1.getD [] ++ lost ++ (s.readFromSocket len false).2.pending ∧
      ((s.readFromSocket len false).1.isSome → lost = []) := by
  by_cases inside : s.buffer ≠ [] ∧ len ≤ s.buffer.length
  · have kept := (readFromSocket_keeps_iff s len false).mpr (.inr (.inl inside.2))
    exact ⟨[], by rw [List.append_nil, kept], fun _ => rfl⟩
  · obtain ⟨given, t, kept, unready, result⟩ := readFromSocket_further false inside
    rw [result, BaseSocket.pending, ← kept]
    cases ready_ : ready false s.sockerr s.incoming with
    | true => exact ⟨[], by simp [List.append_assoc], fun _ => rfl⟩
    | false =>
      refine ⟨s.buffer, ?_, fun no => by cases no⟩
      rw [unready ready_]
      rfl

/- One direction. -/

/-- From one state of two sockets to another, so much has been sent on from the source, and what comes next there is lost. -/
structure Moved (source target source' target' : Side) (sent lost : Str) : Prop where
  written : target'.written = target.written ++ sent
  pending : source.sock.pending = sent ++ lost ++ source'.sock.pending
  unread : target'.sock = target.sock
  unwritten : source'.written = source.written ∧ source'.sends = source.sends

/-- A socket without errors to come, and one whose sends do not fail. -/
def Readable (s : BaseSocket) : Prop := s.sockerr = false ∧ Arrival.pollError ∉ s.incoming ∧ Arrival.recvError ∉ s.incoming

def Side.Calm (s : Side) : Prop := Readable s.sock ∧ 0 ∉ s.sends

theorem recv_readable {l : List Arrival} (calm : Arrival.pollError ∉ l ∧ Arrival.recvError ∉ l) (n : Nat) :
    (recv n l).1.isSome ∧ Arrival.pollError ∉ (recv n l).2 ∧ Arrival.recvError ∉ (recv n l).2 := by
  induction l with
  | nil => exact ⟨rfl, calm⟩
  | cons a l ih =>
    have later := ih ⟨List.not_mem_of_not_mem_cons calm.1, List.not_mem_of_not_mem_cons calm.2⟩
    cases a with
    | silence => exact later
    | pollError => exact absurd (List.mem_cons_self ..) calm.1
    | recvError => exact absurd (List.mem_cons_self ..) calm.2
    | bytes block =>
      rw [recv]
      refine ⟨rfl, ?_⟩
      split
      · exact ⟨List.not_mem_of_not_mem_cons calm.1, List.not_mem_of_not_mem_cons calm.2⟩
      · simpa using calm

theorem read_readable {s : BaseSocket} (calm : Readable s) (len : Nat) :
    (s.readFromSocket len false).1.isSome ∧ Readable (s.readFromSocket len false).2 := by
  rw [BaseSocket.readFromSocket]
  split
  · exact ⟨rfl, calm⟩
  · have there := recv_readable calm.2 (len - s.buffer.length)
    rw [if_neg Bool.false_ne_true, BaseSocket.recvAfter, if_neg (by rw [calm.1]; exact Bool.false_ne_true)]
    cases received : recv (len - s.buffer.length) s.incoming with
    | mk r rest =>
      rw [received] at there
      cases r with
      | none => exact absurd there.1 Bool.false_ne_true
      | some given => exact ⟨rfl, calm.1, there.2⟩

section Pass
variable (len : Nat) (writable : Bool) (source target : Side)

theorem pass_moves : ∃ sent lost,
    Moved source target (pass len writable source target).2.2.1 (pass len writable source target).2.2.2 sent lost ∧
      ((pass len writable source target).1 ≠ .broken → lost = []) ∧
      (lost = [] → (pass len writable source target).2.1 = sent.length) := by
  obtain ⟨lost, taken, whole⟩ := read_takes source.sock len
  rw [pass]
  cases read : source.sock.readFromSocket len false with
  | mk r sock =>
    rw [read] at taken whole
    cases r with
    | none => exact ⟨[], lost, ⟨(List.append_nil _).symm, taken, rfl, rfl, rfl⟩, fun broken => absurd rfl broken, fun _ => rfl⟩
    | some given =>
      have nothing : lost = [] := whole rfl
      rw [nothing, List.append_nil, Option.getD_some] at taken
      dsimp only
      split
      · rename_i closed
        rw [closed] at taken
        exact ⟨[], [], ⟨(List.append_nil _).symm, taken, rfl, rfl, rfl⟩, fun _ => rfl, fun _ => rfl⟩
      · rename_i some_
        split
        · refine ⟨[], given, ⟨(List.append_nil _).symm, taken, rfl, rfl, rfl⟩, fun broken => absurd rfl broken, fun none_ => ?_⟩
          exact absurd none_ some_
        · obtain ⟨ok, target', sent, rest, write, cut, written, same, all, -⟩ := writeToSocket_sends given target
          rw [← cut] at taken
          rw [write]
          cases ok with
          | true =>
            rw [all rfl, List.append_nil] at cut taken
            refine ⟨sent, [], ⟨written, by rw [List.append_nil]; exact taken, same, rfl, rfl⟩, fun _ => rfl, fun _ => ?_⟩
            rw [cut]
          | false =>
            refine ⟨sent, rest, ⟨written, taken, same, rfl, rfl⟩, fun broken => absurd rfl broken, fun none_ => ?_⟩
            rw [none_, List.append_nil] at cut
            rw [cut]

theorem pass_calm (source_calm : source.Calm) (target_calm : target.Calm) (ready : writable = true) :
    (pass len writable source target).1 ≠ .broken ∧ (pass len writable source target).2.2.1.Calm ∧
      (pass len writable source target).2.2.2.Calm := by
  obtain ⟨there, readable⟩ := read_readable source_calm.1 len
  rw [pass]
  cases read : source.sock.readFromSocket len false with
  | mk r sock =>
    rw [read] at there readable
    cases r with
    | none => exact absurd there Bool.false_ne_true
    | some given =>
      dsimp only
      split
      · exact ⟨(fun no => by cases no), ⟨readable, source_calm.2⟩, target_calm⟩
      · obtain ⟨ok, target', -, -, write, -, -, same, -, willing⟩ := writeToSocket_sends given target
        obtain ⟨rfl, further⟩ := willing target_calm.2
        rw [ready, write]
        exact ⟨(fun no => by cases no), ⟨readable, source_calm.2⟩, same ▸ target_calm.1, further⟩

end Pass

/- Both directions. -/

/-- What each side has sent goes out on the other side in order, with nothing twice; what comes next may be lost. -/
structure Relayed (s t : Tunnel) (lost lost' : Str) : Prop where
  forth : ∃ sent, t.sockto.written = s.sockto.written ++ sent ∧
    s.sockfrom.sock.pending = sent ++ lost ++ t.sockfrom.sock.pending ∧ (lost = [] → t.throughput = s.throughput + sent.length)
  back : ∃ sent, t.sockfrom.written = s.sockfrom.written ++ sent ∧
    s.sockto.sock.pending = sent ++ lost' ++ t.sockto.sock.pending

def Tunnel.Calm (s : Tunnel) : Prop := s.sockfrom.Calm ∧ s.sockto.Calm

def Polled.Open (p : Polled) : Prop := p.toOut = true ∧ p.fromOut = true

theorem Relayed.refl (s : Tunnel) : Relayed s s [] [] :=
  ⟨⟨[], (List.append_nil _).symm, rfl, fun _ => (Int.add_zero _).symm⟩, ⟨[], (List.append_nil _).symm, rfl⟩⟩

theorem Relayed.trans {s t u : Tunnel} {lost lost' : Str} (first : Relayed s t [] []) (second : Relayed t u lost lost') :
    Relayed s u lost lost' := by
  constructor
  · obtain ⟨sent, written, pending, count⟩ := first.forth
    obtain ⟨more, written', pending', count'⟩ := second.forth
    refine ⟨sent ++ more, ?_, ?_, fun none_ => ?_⟩
    · rw [written', written, List.append_assoc]
    · rw [pending, pending', List.append_nil]
      simp only [List.append_assoc]
    · rw [count' none_, count rfl, List.length_append]
      omega
  · obtain ⟨sent, written, pending⟩ := first.back
    obtain ⟨more, written', pending'⟩ := second.back
    refine ⟨sent ++ more, ?_, ?_⟩
    · rw [written', written, List.append_assoc]
    · rw [pending, pending', List.append_nil]
      simp only [List.append_assoc]

theorem forth_relays (targetthroughput : Int) (p : Polled) (s : Tunnel) :
    ∃ lost, Relayed s (forth targetthroughput p s).2 lost [] ∧
      ((forth targetthroughput p s).1 ≠ .broken → lost = []) := by
  rw [forth]
  split
  · obtain ⟨sent, lost, moved, whole, count⟩ :=
      pass_moves (readlen targetthroughput s.throughput) p.toOut s.sockfrom s.sockto
    refine ⟨lost, ⟨⟨sent, moved.written, moved.pending, fun none_ => ?_⟩, [], ?_, ?_⟩, whole⟩
    · rw [← count none_]
    · rw [List.append_nil]
      exact moved.unwritten.1
    · exact congrArg BaseSocket.pending moved.unread.symm
  · exact ⟨[], Relayed.refl s, fun _ => rfl⟩

theorem back_relays (p : Polled) (verdict : Passed) (s : Tunnel) :
    ∃ lost, Relayed s (back p verdict s).2 [] lost ∧ ((back p verdict s).1 = true → verdict ≠ .broken ∧ lost = []) := by
  rw [back]
  split
  · exact ⟨[], Relayed.refl s, fun no => by cases no⟩
  · rename_i unbroken
    split
    · obtain ⟨sent, lost, moved, whole, -⟩ := pass_moves 32768 p.fromOut s.sockto s.sockfrom
      refine ⟨lost, ⟨⟨[], ?_, ?_, fun _ => (Int.add_zero _).symm⟩, sent, moved.written, moved.pending⟩, fun further => ?_⟩
      · rw [List.append_nil]
        exact moved.unwritten.1
      · exact congrArg BaseSocket.pending moved.unread.symm
      · exact ⟨unbroken, whole (by rw [of_decide_eq_true further]; intro no; cases no)⟩
    · exact ⟨[], Relayed.refl s, fun _ => ⟨unbroken, rfl⟩⟩

theorem round_relays (targetthroughput : Int) (p : Polled) (s : Tunnel) :
    ∃ lost lost', Relayed s (round targetthroughput p s).2 lost lost' ∧
      ((round targetthroughput p s).1 = true → lost = [] ∧ lost' = []) := by
  obtain ⟨lost, first, whole⟩ := forth_relays targetthroughput p s
  obtain ⟨lost', second, further⟩ := back_relays p (forth targetthroughput p s).1 (forth targetthroughput p s).2
  by_cases broken : (forth targetthroughput p s).1 = .broken
  · have ends : round targetthroughput p s = (false, (forth targetthroughput p s).2) := by
      change back p (forth targetthroughput p s).1 (forth targetthroughput p s).2 = _
      rw [back, if_pos broken]
    rw [ends]
    exact ⟨lost, [], first, fun no => by cases no⟩
  · rw [whole broken] at first
    exact ⟨[], lost', first.trans second, fun goes => ⟨rfl, (further goes).2⟩⟩

theorem forth_calm {targetthroughput : Int} {p : Polled} {s : Tunnel} (calm : s.Calm) (ready : p.Open) :
    (forth targetthroughput p s).1 ≠ .broken ∧ (forth targetthroughput p s).2.Calm := by
  rw [forth]
  split
  · exact pass_calm _ _ _ _ calm.1 calm.2 ready.1
  · exact ⟨(fun no => by cases no), calm⟩

theorem back_calm {p : Polled} {verdict : Passed} (unbroken : verdict ≠ .broken) {s : Tunnel} (calm : s.Calm) (ready : p.Open) :
    (back p verdict s).2.Calm ∧ Relayed s (back p verdict s).2 [] [] := by
  rw [back, if_neg unbroken]
  split
  · obtain ⟨still, to_calm, from_calm⟩ := pass_calm 32768 p.fromOut s.sockto s.sockfrom calm.2 calm.1 ready.2
    obtain ⟨sent, lost, moved, whole, -⟩ := pass_moves 32768 p.fromOut s.sockto s.sockfrom
    rw [whole still] at moved
    refine ⟨⟨from_calm, to_calm⟩, ⟨[], ?_, ?_, fun _ => (Int.add_zero _).symm⟩, sent, moved.written, moved.pending⟩
    · rw [List.append_nil]
      exact moved.unwritten.1
    · exact congrArg BaseSocket.pending moved.unread.symm
  · exact ⟨calm, Relayed.refl s⟩

theorem round_calm {targetthroughput : Int} {p : Polled} {s : Tunnel} (calm : s.Calm) (ready : p.Open) :
    (round targetthroughput p s).2.Calm ∧ Relayed s (round targetthroughput p s).2 [] [] := by
  obtain ⟨unbroken, calm⟩ := @forth_calm targetthroughput p s calm ready
  obtain ⟨lost, first, whole⟩ := forth_relays targetthroughput p s
  rw [whole unbroken] at first
  obtain ⟨calm, second⟩ := back_calm unbroken calm ready
  exact ⟨calm, first.trans second⟩

theorem loop_relays (targetthroughput : Int) (polls : List (Option Polled)) (s : Tunnel) :
    ∃ lost lost', Relayed s (loop targetthroughput polls s) lost lost' := by
  induction polls generalizing s with
  | nil => exact ⟨[], [], Relayed.refl s⟩
  | cons poll polls ih =>
    cases poll with
    | none => exact ⟨[], [], Relayed.refl s⟩
    | some p =>
      obtain ⟨lost, lost', relayed, whole⟩ := round_relays targetthroughput p s
      rw [loop]
      split
      · cases next : round targetthroughput p s with
        | mk goes t =>
          rw [next] at relayed whole
          cases goes with
          | false => exact ⟨lost, lost', relayed⟩
          | true =>
            obtain ⟨rfl, rfl⟩ := whole rfl
            obtain ⟨lost, lost', further⟩ := ih t
            exact ⟨lost, lost', relayed.trans further⟩
      · exact ⟨[], [], Relayed.refl s⟩

theorem loop_calm {targetthroughput : Int} {polls : List (Option Polled)} {s : Tunnel} (calm : s.Calm)
    (ready : ∀ p, some p ∈ polls → p.Open) : Relayed s (loop targetthroughput polls s) [] [] := by
  induction polls generalizing s with
  | nil => exact Relayed.refl s
  | cons poll polls ih =>
    cases poll with
    | none => exact Relayed.refl s
    | some p =>
      obtain ⟨calm, relayed⟩ := @round_calm targetthroughput p s calm (ready p (List.mem_cons_self ..))
      rw [loop]
      split
      · cases next : round targetthroughput p s with
        | mk goes t =>
          rw [next] at relayed calm
          cases goes with
          | false => exact relayed
          | true => exact relayed.trans (ih calm fun p member => ready p (List.mem_cons_of_mem _ member))
      · exact Relayed.refl s

theorem relayed_buffer {s : Tunnel} {sockto : Side} (written : sockto.written = s.sockto.written ++ s.sockfrom.sock.buffer)
    (same : sockto.sock = s.sockto.sock) :
    Relayed s ⟨s.throughput + s.sockfrom.sock.buffer.length,
      { s.sockfrom with sock := { s.sockfrom.sock with buffer := [] } }, sockto⟩ [] [] := by
  refine ⟨⟨s.sockfrom.sock.buffer, written, ?_, fun _ => rfl⟩, [], (List.append_nil _).symm, ?_⟩
  · rw [List.append_nil]
    rfl
  · exact congrArg BaseSocket.pending same.symm

/-- A client that has sent something before the tunnel begins, and sends that go out byte by byte. -/
def talking : Tunnel :=
  ⟨0, ⟨⟨str "ab", [.bytes (str "cd"), .bytes []], false, false⟩, [], [1, 1]⟩, ⟨⟨[], [.bytes (str "x")], false, false⟩, [], [1]⟩⟩

end GuardianTwoWayTunnels
