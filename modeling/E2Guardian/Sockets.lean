import E2Guardian.Chunks

/- The three readers of BaseSocket, which share one internal buffer, with all their exits. What the
   peer and the system do is a list of arrivals: bytes, silence that lasts until a poll gives up,
   and errors of poll and recv. -/
namespace GuardianSockets
open GuardianString GuardianChunks

inductive Arrival where
  | bytes (block : Str) -- an empty block is a recv that gives 0
  | silence
  | pollError
  | recvError
  deriving DecidableEq, Repr

structure BaseSocket where
  buffer : Str -- from buffstart to bufflen
  incoming : List Arrival
  timedout : Bool
  sockerr : Bool
  deriving DecidableEq, Repr

namespace BaseSocket

def bcheckForInput (s : BaseSocket) : Bool × BaseSocket :=
  if s.buffer ≠ [] then (true, s)
  else if s.sockerr then (false, s)
  else
    match s.incoming with
    | [] => (false, { s with timedout := true })
    | .silence :: rest => (false, { s with timedout := true, incoming := rest })
    | .pollError :: rest => (false, { s with timedout := false, sockerr := true, incoming := rest })
    | _ => (true, { s with timedout := false })

end BaseSocket

def recv (n : Nat) : List Arrival → Option Str × List Arrival
  | [] => (some [], [])
  | .bytes block :: rest => (some (block.take n), if block.length ≤ n then rest else .bytes (block.drop n) :: rest)
  | .silence :: rest => recv n rest
  | .pollError :: rest => (none, rest)
  | .recvError :: rest => (none, rest)

namespace BaseSocket

/-- The loop of getLine. The buffer keeps all of a block without a newline; the next block takes
its place. -/
def getLineLoop (size : Nat) : Nat → Str → BaseSocket → Option (Str × Bool) × BaseSocket
  | 0, line, s => (some (line, false), s)
  | rounds + 1, line, s =>
    if line.length < size - 1 then
      match { s with buffer := [] }.bcheckForInput with
      | (false, s) => (some (line, false), s)
      | (true, s) =>
        match recv blockSize s.incoming with
        | (none, incoming) => (none, { s with incoming := incoming })
        | (some given, incoming) =>
          if given = [] then (some (line, false), { s with incoming := incoming })
          else
            let part := given.take (size - 1 - line.length)
            if part.elem lf then
              (some (line ++ upToNewline part, true),
                { s with buffer := given.drop ((upToNewline part).length + 1), incoming := incoming })
            else getLineLoop size rounds (line ++ part) { s with buffer := given, incoming := incoming }
    else (some (line, false), s)

/-- The line and whether its newline was chopped off; a line without one is reported as truncated.
None for -1. -/
def getLine (size : Nat) (s : BaseSocket) : Option (Str × Bool) × BaseSocket :=
  let part := s.buffer.take (size - 1)
  if part.elem lf then
    (some (upToNewline part, true), { s with buffer := s.buffer.drop ((upToNewline part).length + 1) })
  else getLineLoop size size part { s with buffer := s.buffer.drop (size - 1) }

def readLoop : Nat → Nat → Str → BaseSocket → Option Str × BaseSocket
  | 0, _, got, s => (some got, s)
  | rounds + 1, cnt, got, s =>
    if cnt > 0 then
      match s.bcheckForInput with
      | (false, s) => (none, s)
      | (true, s) =>
        match recv cnt s.incoming with
        | (none, incoming) => (none, { s with incoming := incoming })
        | (some given, incoming) =>
          if given = [] then (some got, { s with incoming := incoming })
          else readLoop rounds (cnt - given.length) (got ++ given) { s with incoming := incoming }
    else (some got, s)

def readFromSocketn (len : Nat) (s : BaseSocket) : Option Str × BaseSocket :=
  readLoop len (len - s.buffer.length) (s.buffer.take len) { s with buffer := s.buffer.drop len }

def recvAfter (got : Str) (n : Nat) (s : BaseSocket) : Option Str × BaseSocket :=
  if s.sockerr then (none, s)
  else
    match recv n s.incoming with
    | (none, incoming) => (none, { s with incoming := incoming })
    | (some given, incoming) => (some (got ++ given), { s with incoming := incoming })

/-- What is in the buffer and, if that is not enough, the result of one recv; none for -1. -/
def readFromSocket (len : Nat) (check_first : Bool) (s : BaseSocket) : Option Str × BaseSocket :=
  if s.buffer ≠ [] ∧ len ≤ s.buffer.length then (some (s.buffer.take len), { s with buffer := s.buffer.drop len })
  else if check_first then
    match { s with buffer := [] }.bcheckForInput with
    | (false, t) => (none, t)
    | (true, t) => t.recvAfter s.buffer (len - s.buffer.length)
  else { s with buffer := [] }.recvAfter s.buffer (len - s.buffer.length)

end BaseSocket

/- What is still to come. -/

def flat : List Arrival → Str
  | [] => []
  | .bytes block :: rest => block ++ flat rest
  | _ :: rest => flat rest

inductive Stop where
  | closed
  | quiet
  | failed
  deriving DecidableEq, Repr

def flow : List Arrival → Str × Stop
  | [] => ([], .quiet)
  | .silence :: _ => ([], .quiet)
  | .pollError :: _ => ([], .quiet)
  | .recvError :: _ => ([], .failed)
  | .bytes block :: rest => if block = [] then ([], .closed) else (block ++ (flow rest).1, (flow rest).2)

namespace BaseSocket

def flow (s : BaseSocket) : Str × Stop := if s.sockerr then ([], .quiet) else GuardianSockets.flow s.incoming

def pending (s : BaseSocket) : Str := s.buffer ++ flat s.incoming

end BaseSocket

theorem recv_flat {n : Nat} {l rest : List Arrival} {r : Option Str} (taken : recv n l = (r, rest)) :
    r.getD [] ++ flat rest = flat l := by
  induction l with
  | nil =>
    cases taken
    rfl
  | cons a l ih =>
    cases a with
    | bytes block =>
      rw [recv, Prod.mk.injEq] at taken
      obtain ⟨rfl, rfl⟩ := taken
      split
      · rename_i all
        simp [flat, List.take_of_length_le all]
      · simp [flat, ← List.append_assoc]
    | silence => exact ih taken
    | pollError | recvError =>
      cases taken
      rfl

inductive Taken (s : BaseSocket) (n : Nat) : Prop where
  | quiet (t : BaseSocket) (checked : s.bcheckForInput = (false, t)) (stop : s.flow = ([], .quiet))
      (empty : t.buffer = []) (kept : flat t.incoming = flat s.incoming)
  | failed (t : BaseSocket) (rest : List Arrival) (checked : s.bcheckForInput = (true, t)) (empty : t.buffer = [])
      (received : recv n t.incoming = (none, rest)) (stop : s.flow = ([], .failed)) (kept : flat rest = flat s.incoming)
  | closed (t : BaseSocket) (rest : List Arrival) (checked : s.bcheckForInput = (true, t)) (empty : t.buffer = [])
      (received : recv n t.incoming = (some [], rest)) (stop : s.flow = ([], .closed))
      (kept : flat rest = flat s.incoming)
  | given (t : BaseSocket) (rest : List Arrival) (given : Str) (checked : s.bcheckForInput = (true, t))
      (empty : t.buffer = []) (calm : t.sockerr = false) (received : recv n t.incoming = (some given, rest))
      (some_ : given ≠ []) (most : given.length ≤ n)
      (further : s.flow = (given ++ (flow rest).1, (flow rest).2)) (kept : given ++ flat rest = flat s.incoming)

theorem taken {s : BaseSocket} {n : Nat} (positive : 0 < n) (empty : s.buffer = []) : Taken s n := by
  by_cases marked : s.sockerr
  · exact .quiet s (by simp [BaseSocket.bcheckForInput, empty, marked]) (by simp [BaseSocket.flow, marked]) empty rfl
  · cases arrivals : s.incoming with
    | nil =>
      refine .quiet { s with timedout := true } ?_ ?_ empty (by simp)
      · simp [BaseSocket.bcheckForInput, empty, marked, arrivals]
      · simp [BaseSocket.flow, marked, arrivals, flow]
    | cons a rest =>
      cases a with
      | silence =>
        refine .quiet { s with timedout := true, incoming := rest } ?_ ?_ empty ?_
        · simp [BaseSocket.bcheckForInput, empty, marked, arrivals]
        · simp [BaseSocket.flow, marked, arrivals, flow]
        · rw [arrivals]
          rfl
      | pollError =>
        refine .quiet { s with timedout := false, sockerr := true, incoming := rest } ?_ ?_ empty ?_
        · simp [BaseSocket.bcheckForInput, empty, marked, arrivals]
        · simp [BaseSocket.flow, marked, arrivals, flow]
        · rw [arrivals]
          rfl
      | recvError =>
        refine .failed { s with timedout := false } rest ?_ empty ?_ ?_ ?_
        · simp [BaseSocket.bcheckForInput, empty, marked, arrivals]
        · simp [arrivals, recv]
        · simp [BaseSocket.flow, marked, arrivals, flow]
        · rw [arrivals]
          rfl
      | bytes block =>
        have checked : s.bcheckForInput = (true, { s with timedout := false }) := by
          simp [BaseSocket.bcheckForInput, empty, marked, arrivals]
        by_cases none_ : block = []
        · refine .closed { s with timedout := false } rest checked empty ?_ ?_ ?_
          · simp [arrivals, recv, none_]
          · simp [BaseSocket.flow, marked, arrivals, flow, none_]
          · rw [arrivals, none_]
            rfl
        · have long : 0 < block.length := List.length_pos_iff.mpr none_
          refine .given { s with timedout := false } _ (block.take n) checked empty (by simpa using marked)
            (by simp only [arrivals, recv]; rfl) ?_ (List.length_take_le n block) ?_ ?_
          · rw [← List.length_pos_iff, List.length_take]
            omega
          · simp only [BaseSocket.flow, marked, arrivals, flow, none_, Bool.false_eq_true, if_false]
            split
            · rename_i all
              simp [List.take_of_length_le all]
            · rename_i part
              have left : block.drop n ≠ [] := by
                rw [← List.length_pos_iff, List.length_drop]
                omega
              simp [flow, left, ← List.append_assoc]
          · rw [arrivals]
            split
            · rename_i all
              simp [flat, List.take_of_length_le all]
            · simp [flat, ← List.append_assoc]

/- Lines. -/

theorem cut_at_newline {s : Str} (there : lf ∈ s) :
    lf ∉ upToNewline s ∧ upToNewline s ++ lf :: s.drop ((upToNewline s).length + 1) = s := by
  induction s with
  | nil => simp at there
  | cons b s ih =>
    by_cases here : b = lf
    · simp [upToNewline, here]
    · have later : lf ∈ s := by
        rcases List.mem_cons.mp there with same | later
        · exact absurd same.symm here
        · exact later
      have first : upToNewline (b :: s) = b :: upToNewline s := by simp [upToNewline, here]
      obtain ⟨none_, whole⟩ := ih later
      rw [first]
      refine ⟨?_, ?_⟩
      · rw [List.mem_cons, not_or]
        exact ⟨Ne.symm here, none_⟩
      · simpa using whole

theorem upToNewline_take {s : Str} {n : Nat} (there : lf ∈ s.take n) : upToNewline (s.take n) = upToNewline s := by
  induction s generalizing n with
  | nil => simp at there
  | cons b s ih =>
    cases n with
    | zero => simp at there
    | succ n =>
      by_cases here : b = lf
      · simp [upToNewline, here]
      · have later : lf ∈ s.take n := by
          rcases List.mem_cons.mp there with same | later
          · exact absurd same.symm here
          · exact later
        have rest := ih later
        unfold upToNewline at rest ⊢
        simp [here, rest]

structure LineEnd (room : Nat) (line : Str) (s : BaseSocket) (r : Option (Str × Bool)) (t : BaseSocket) : Prop where
  whole : lf ∈ s.flow.1.take room →
    ∃ text, r = some (line ++ text, true) ∧ lf ∉ text ∧ text ++ lf :: t.pending = flat s.incoming
  full : lf ∉ s.flow.1.take room → room ≤ s.flow.1.length →
    ∃ text, r = some (line ++ text, false) ∧ (flat s.incoming).length < text.length + t.pending.length
  short : lf ∉ s.flow.1.take room → s.flow.1.length < room →
    s.flow.1 ++ t.pending = flat s.incoming ∧ r = if s.flow.2 = .failed then none else some (line ++ s.flow.1, false)

theorem lineEnd_nothing {room : Nat} (positive : 0 < room) {line : Str} {s t : BaseSocket} {r : Option (Str × Bool)}
    (none_ : s.flow.1 = []) (kept : t.pending = flat s.incoming)
    (answer : r = if s.flow.2 = .failed then none else some (line, false)) : LineEnd room line s r t := by
  constructor
  · intro there
    simp [none_] at there
  · intro _ long
    simp [none_] at long
    omega
  · intro _ _
    simp [none_, kept, answer]

section LineEnds
variable {room : Nat} {line given : Str} {s t : BaseSocket} {rest : List Arrival} {r : Option (Str × Bool)}

theorem lineEnd_newline (here : s.flow = (given ++ (flow rest).1, (flow rest).2))
    (kept : given ++ flat rest = flat s.incoming) (found : lf ∈ given.take room)
    (left : t.pending = given.drop ((upToNewline (given.take room)).length + 1) ++ flat rest) :
    LineEnd room line s (some (line ++ upToNewline (given.take room), true)) t := by
  have inside : lf ∈ s.flow.1.take room := by
    rw [here, List.take_append]
    exact List.mem_append_left _ found
  obtain ⟨none_, whole⟩ := cut_at_newline (List.mem_of_mem_take found)
  rw [upToNewline_take found] at left ⊢
  refine ⟨fun _ => ⟨upToNewline given, rfl, none_, ?_⟩, fun absent => absurd inside absent,
    fun absent => absurd inside absent⟩
  rw [left, ← kept, ← List.cons_append, ← List.append_assoc, whole]

theorem lineEnd_full (positive : 0 < room) (some_ : given ≠ [])
    (here : s.flow = (given ++ (flow rest).1, (flow rest).2)) (kept : given ++ flat rest = flat s.incoming)
    (absent : lf ∉ given.take room) (fills : room ≤ given.length) (left : t.pending = given ++ flat rest) :
    LineEnd room line s (some (line ++ given.take room, false)) t := by
  have same : s.flow.1.take room = given.take room := by
    rw [here, List.take_append_of_le_length fills]
  have long : room ≤ s.flow.1.length := by
    rw [here, List.length_append]
    omega
  refine ⟨fun there => absurd (same ▸ there) absent, fun _ _ => ⟨given.take room, rfl, ?_⟩, fun _ short => by omega⟩
  have filled : 0 < given.length := List.length_pos_iff.mpr some_
  rw [left, kept, List.length_take]
  omega

theorem lineEnd_further {u : BaseSocket} (here : s.flow = (given ++ (flow rest).1, (flow rest).2))
    (kept : given ++ flat rest = flat s.incoming) (absent : lf ∉ given) (part : given.length < room)
    (flows : u.flow = flow rest) (arrivals : u.incoming = rest)
    (next : LineEnd (room - given.length) (line ++ given) u r t) : LineEnd room line s r t := by
  have split_ : s.flow.1.take room = given ++ u.flow.1.take (room - given.length) := by
    rw [here, flows, List.take_append, List.take_of_length_le (Nat.le_of_lt part)]
  have length : s.flow.1.length = given.length + u.flow.1.length := by rw [here, flows, List.length_append]
  have later : lf ∈ s.flow.1.take room ↔ lf ∈ u.flow.1.take (room - given.length) := by
    rw [split_, List.mem_append]
    exact ⟨fun there => there.resolve_left absent, .inr⟩
  constructor
  · intro there
    obtain ⟨text, answer, none_, whole⟩ := next.whole (later.mp there)
    refine ⟨given ++ text, by rw [answer, List.append_assoc], ?_, ?_⟩
    · rw [List.mem_append, not_or]
      exact ⟨absent, none_⟩
    · rw [List.append_assoc, whole, arrivals, kept]
  · intro missing long
    obtain ⟨text, answer, repeated⟩ := next.full (fun there => missing (later.mpr there)) (by omega)
    refine ⟨given ++ text, by rw [answer, List.append_assoc], ?_⟩
    rw [← kept, List.length_append, List.length_append, ← arrivals]
    omega
  · intro missing short
    obtain ⟨whole, answer⟩ := next.short (fun there => missing (later.mpr there)) (by omega)
    have stop : s.flow.2 = u.flow.2 := by rw [here, flows]
    refine ⟨?_, ?_⟩
    · have first : s.flow.1 = given ++ u.flow.1 := by rw [here, flows]
      rw [first, List.append_assoc, whole, arrivals, kept]
    · rw [answer, stop, here, flows, List.append_assoc]

end LineEnds

theorem getLineLoop_full {size rounds : Nat} {line : Str} {s : BaseSocket} (full : size - 1 ≤ line.length) :
    s.getLineLoop size rounds line = (some (line, false), s) := by
  cases rounds with
  | zero => rfl
  | succ rounds =>
    rw [BaseSocket.getLineLoop, if_neg (by omega)]

theorem getLineLoop_end {size : Nat} (rounds : Nat) : ∀ {line : Str} {s t : BaseSocket} {r : Option (Str × Bool)},
    line.length < size - 1 → size - 1 - line.length ≤ rounds → s.getLineLoop size rounds line = (r, t) →
      LineEnd (size - 1 - line.length) line s r t := by
  induction rounds with
  | zero =>
    intro line s t r room enough
    omega
  | succ rounds ih =>
    intro line s t r room enough done
    have positive : 0 < size - 1 - line.length := by omega
    simp only [BaseSocket.getLineLoop, room, if_true] at done
    cases taken (s := { s with buffer := [] }) (n := blockSize) (by decide) rfl with
    | quiet u checked stop empty kept =>
      simp only [checked, Prod.mk.injEq] at done
      obtain ⟨rfl, rfl⟩ := done
      apply lineEnd_nothing positive
      · exact congrArg Prod.fst stop
      · rw [BaseSocket.pending, empty]
        exact kept
      · have calm : s.flow.2 = .quiet := congrArg Prod.snd stop
        simp [calm]
    | failed u rest checked empty received stop kept =>
      simp only [checked, received, Prod.mk.injEq] at done
      obtain ⟨rfl, rfl⟩ := done
      apply lineEnd_nothing positive
      · exact congrArg Prod.fst stop
      · rw [BaseSocket.pending, empty]
        exact kept
      · have broken : s.flow.2 = .failed := congrArg Prod.snd stop
        simp [broken]
    | closed u rest checked empty received stop kept =>
      simp only [checked, received, if_true, Prod.mk.injEq] at done
      obtain ⟨rfl, rfl⟩ := done
      apply lineEnd_nothing positive
      · exact congrArg Prod.fst stop
      · rw [BaseSocket.pending, empty]
        exact kept
      · have over_ : s.flow.2 = .closed := congrArg Prod.snd stop
        simp [over_]
    | given u rest given checked empty calm received some_ most further kept =>
      simp only [checked, received, some_, if_false] at done
      have here : s.flow = (given ++ (flow rest).1, (flow rest).2) := further
      have kept : given ++ flat rest = flat s.incoming := kept
      by_cases found : lf ∈ given.take (size - 1 - line.length)
      · simp only [List.elem_eq_mem, found, decide_true, if_true, Prod.mk.injEq] at done
        obtain ⟨rfl, rfl⟩ := done
        exact lineEnd_newline here kept found rfl
      · simp only [List.elem_eq_mem, found, decide_false, Bool.false_eq_true, if_false] at done
        by_cases fills : size - 1 - line.length ≤ given.length
        · rw [getLineLoop_full (by simp; omega), Prod.mk.injEq] at done
          obtain ⟨rfl, rfl⟩ := done
          exact lineEnd_full positive some_ here kept found fills rfl
        · have all : given.take (size - 1 - line.length) = given := List.take_of_length_le (by omega)
          rw [all] at done found
          have filled : 0 < given.length := List.length_pos_iff.mpr some_
          have next := ih (by rw [List.length_append]; omega) (by rw [List.length_append]; omega) done
          have left : size - 1 - (line ++ given).length = size - 1 - line.length - given.length := by
            rw [List.length_append]
            omega
          rw [left] at next
          apply lineEnd_further here kept found (Nat.lt_of_not_le fills) (by simp [BaseSocket.flow, calm]) rfl next

/- The bytes a call delivers. -/

inductive Call where
  | getLine (size : Nat)
  | readFromSocket (len : Nat) (check_first : Bool)
  | readFromSocketn (len : Nat)
  deriving DecidableEq, Repr

/-- A line that is reported as complete counts with its newline; a call that gives -1 delivers nothing. -/
def lineBytes : Option (Str × Bool) → Str
  | none => []
  | some (line, complete) => line ++ if complete then [lf] else []

def Call.run (s : BaseSocket) : Call → Str × BaseSocket
  | .getLine size => (lineBytes (s.getLine size).1, (s.getLine size).2)
  | .readFromSocket len check_first =>
    ((s.readFromSocket len check_first).1.getD [], (s.readFromSocket len check_first).2)
  | .readFromSocketn len => ((s.readFromSocketn len).1.getD [], (s.readFromSocketn len).2)

def ready (check_first sockerr : Bool) : List Arrival → Bool
  | [] => !sockerr && !check_first
  | .bytes _ :: _ => !sockerr
  | .silence :: rest => !check_first && ready check_first sockerr rest
  | .pollError :: _ => false
  | .recvError :: _ => false

def Clean (s : BaseSocket) : Call → Prop
  | .getLine size =>
    lf ∈ (s.buffer ++ s.flow.1).take (size - 1) ∨ size - 1 ≤ s.buffer.length ∨
      (s.buffer ++ s.flow.1).length < size - 1 ∧ (s.flow.2 = .failed → s.buffer ++ s.flow.1 = [])
  | .readFromSocket len check_first =>
    s.buffer = [] ∨ len ≤ s.buffer.length ∨ ready check_first s.sockerr s.incoming
  | .readFromSocketn len =>
    len ≤ (s.buffer ++ s.flow.1).length ∨ s.flow.2 = .closed ∨ s.buffer ++ s.flow.1 = []

theorem LineEnd.keeps_iff {room : Nat} {line : Str} {s t : BaseSocket} {r : Option (Str × Bool)}
    (ends : LineEnd room line s r t) :
    lineBytes r ++ t.pending = line ++ flat s.incoming ↔
      lf ∈ s.flow.1.take room ∨ s.flow.1.length < room ∧ (s.flow.2 = .failed → line ++ s.flow.1 = []) := by
  by_cases newline : lf ∈ s.flow.1.take room
  · obtain ⟨text, rfl, _, kept⟩ := ends.whole newline
    simp [newline, lineBytes, ← kept]
  · by_cases long : room ≤ s.flow.1.length
    · obtain ⟨text, rfl, repeated⟩ := ends.full newline long
      simp only [newline, Nat.not_lt.mpr long, false_and, or_self, iff_false]
      intro same
      have lengths := congrArg List.length same
      simp only [lineBytes, List.length_append, Bool.false_eq_true, if_false, List.length_nil] at lengths
      omega
    · obtain ⟨kept, answer⟩ := ends.short newline (Nat.lt_of_not_le long)
      simp only [newline, Nat.lt_of_not_le long, true_and, false_or, answer, ← kept]
      by_cases broken : s.flow.2 = .failed
      · simp [broken, lineBytes, ← List.append_assoc]
      · simp [broken, lineBytes]

theorem getLine_keeps_iff (s : BaseSocket) (size : Nat) :
    lineBytes (s.getLine size).1 ++ (s.getLine size).2.pending = s.pending ↔ Clean s (.getLine size) := by
  unfold BaseSocket.getLine Clean
  by_cases found : lf ∈ s.buffer.take (size - 1)
  · obtain ⟨_, whole⟩ := cut_at_newline (List.mem_of_mem_take found)
    have inside : lf ∈ (s.buffer ++ s.flow.1).take (size - 1) := by
      rw [List.take_append]
      exact List.mem_append_left _ found
    simp only [List.elem_eq_mem, found, decide_true, if_true, upToNewline_take found, inside, true_or, iff_true]
    conv_rhs => rw [BaseSocket.pending, ← whole]
    simp [lineBytes, BaseSocket.pending]
  · simp only [List.elem_eq_mem, found, decide_false, Bool.false_eq_true, if_false]
    by_cases full : size - 1 ≤ s.buffer.length
    · rw [getLineLoop_full (by rw [List.length_take]; omega)]
      simp only [full, true_or, or_true, iff_true, lineBytes, BaseSocket.pending, Bool.false_eq_true, if_false,
        List.append_nil]
      rw [← List.append_assoc, List.take_append_drop]
    · have all : s.buffer.take (size - 1) = s.buffer := List.take_of_length_le (by omega)
      rw [all] at found ⊢
      have ends : LineEnd (size - 1 - s.buffer.length) s.buffer { s with buffer := s.buffer.drop (size - 1) } _ _ :=
        getLineLoop_end size (Nat.lt_of_not_le full) (by omega) rfl
      have later : lf ∈ (s.buffer ++ s.flow.1).take (size - 1) ↔ lf ∈ s.flow.1.take (size - 1 - s.buffer.length) := by
        rw [List.take_append, all, List.mem_append]
        exact ⟨fun there => there.resolve_left found, .inr⟩
      have room : (s.buffer ++ s.flow.1).length < size - 1 ↔ s.flow.1.length < size - 1 - s.buffer.length := by
        rw [List.length_append]
        omega
      rw [later, room]
      simp only [full, false_or]
      exact ends.keeps_iff

theorem readLoop_keeps_iff (rounds : Nat) : ∀ {cnt : Nat} {got : Str} {s : BaseSocket}, s.buffer = [] → cnt ≤ rounds →
    ((s.readLoop rounds cnt got).1.getD [] ++ (s.readLoop rounds cnt got).2.pending = got ++ flat s.incoming ↔
      cnt ≤ s.flow.1.length ∨ s.flow.2 = .closed ∨ got ++ s.flow.1 = []) := by
  induction rounds with
  | zero =>
    intro cnt got s empty enough
    simp [BaseSocket.readLoop, BaseSocket.pending, empty, Nat.le_zero.mp enough]
  | succ rounds ih =>
    intro cnt got s empty enough
    by_cases more : cnt > 0
    · simp only [BaseSocket.readLoop, more, if_true]
      cases taken more empty with
      | quiet u checked stop empty kept =>
        have none_ : cnt ≠ 0 := by omega
        simp [checked, BaseSocket.pending, empty, kept, stop, none_]
      | failed u rest checked empty received stop kept =>
        have none_ : cnt ≠ 0 := by omega
        simp [checked, received, BaseSocket.pending, empty, kept, stop, none_]
      | closed u rest checked empty received stop kept =>
        simp [checked, received, BaseSocket.pending, empty, kept, stop]
      | given u rest given checked empty calm received some_ most further kept =>
        have filled : 0 < given.length := List.length_pos_iff.mpr some_
        have flows : { u with incoming := rest }.flow = flow rest := by simp [BaseSocket.flow, calm]
        have next := @ih (cnt - given.length) (got ++ given) { u with incoming := rest } empty (by omega)
        have enough : cnt - given.length ≤ (flow rest).1.length ↔ cnt ≤ (given ++ (flow rest).1).length := by
          rw [List.length_append]
          omega
        rw [flows, enough, List.append_assoc, kept, List.append_assoc] at next
        simp only [checked, received, some_, if_false, further]
        exact next
    · simp [BaseSocket.readLoop, BaseSocket.pending, empty, Nat.eq_zero_of_not_pos more]

theorem readFromSocketn_keeps_iff (s : BaseSocket) (len : Nat) :
    (s.readFromSocketn len).1.getD [] ++ (s.readFromSocketn len).2.pending = s.pending ↔
      Clean s (.readFromSocketn len) := by
  simp only [BaseSocket.readFromSocketn, Clean]
  by_cases inside : len ≤ s.buffer.length
  · have none_ : len - s.buffer.length = 0 := by omega
    have done : ∀ t got, BaseSocket.readLoop len 0 got t = (some got, t) := by
      intro t got
      cases len <;> simp [BaseSocket.readLoop]
    rw [none_, done]
    have long : len ≤ (s.buffer ++ s.flow.1).length := by
      rw [List.length_append]
      omega
    simp only [long, true_or, iff_true, Option.getD_some, BaseSocket.pending]
    rw [← List.append_assoc, List.take_append_drop]
  · have empty : s.buffer.drop len = [] := List.drop_eq_nil_of_le (by omega)
    have all : s.buffer.take len = s.buffer := List.take_of_length_le (by omega)
    have loop := @readLoop_keeps_iff len (len - s.buffer.length) s.buffer { s with buffer := [] } rfl (by omega)
    have enough : len - s.buffer.length ≤ s.flow.1.length ↔ len ≤ (s.buffer ++ s.flow.1).length := by
      rw [List.length_append]
      omega
    rw [empty, all, ← enough]
    exact loop

theorem recv_ready (n : Nat) (l : List Arrival) : (recv n l).1.isSome = ready false false l := by
  induction l with
  | nil => rfl
  | cons a l ih =>
    cases a with
    | silence => exact ih
    | bytes block => rfl
    | pollError => rfl
    | recvError => rfl

theorem not_ready_marked (check_first : Bool) (l : List Arrival) : ready check_first true l = false := by
  induction l with
  | nil => rfl
  | cons a l ih =>
    cases a with
    | silence => simp [ready, ih]
    | bytes block => rfl
    | pollError => rfl
    | recvError => rfl

theorem recvAfter_eq {s : BaseSocket} (empty : s.buffer = []) (got : Str) (n : Nat) :
    ∃ given t, given ++ t.pending = flat s.incoming ∧ (ready false s.sockerr s.incoming = false → given = []) ∧
      s.recvAfter got n = (if ready false s.sockerr s.incoming then some (got ++ given) else none, t) := by
  unfold BaseSocket.recvAfter
  cases marked : s.sockerr with
  | true =>
    refine ⟨[], s, ?_, fun _ => rfl, ?_⟩
    · simp [BaseSocket.pending, empty]
    · simp [not_ready_marked]
  | false =>
    have isReady := recv_ready n s.incoming
    cases received : recv n s.incoming with
    | mk r rest =>
      have kept := recv_flat received
      rw [received] at isReady
      refine ⟨r.getD [], { s with incoming := rest }, ?_, ?_, ?_⟩
      · rw [BaseSocket.pending, empty]
        exact kept
      · intro refused
        cases r with
        | none => rfl
        | some given => simp [← isReady] at refused
      · cases r with
        | none => simp [← isReady, marked]
        | some given => simp [← isReady, marked]

theorem readFromSocket_further {s : BaseSocket} {len : Nat} (check_first : Bool)
    (further : ¬ (s.buffer ≠ [] ∧ len ≤ s.buffer.length)) :
    ∃ given t, given ++ t.pending = flat s.incoming ∧ (ready check_first s.sockerr s.incoming = false → given = []) ∧
      s.readFromSocket len check_first =
        (if ready check_first s.sockerr s.incoming then some (s.buffer ++ given) else none, t) := by
  simp only [BaseSocket.readFromSocket, further, if_false]
  cases check_first with
  | false =>
    simp only [Bool.false_eq_true, if_false]
    exact recvAfter_eq (s := { s with buffer := [] }) rfl s.buffer _
  | true =>
    simp only [if_true]
    by_cases marked : s.sockerr
    · refine ⟨[], { s with buffer := [] }, rfl, fun _ => rfl, ?_⟩
      simp [BaseSocket.bcheckForInput, marked, not_ready_marked]
    · have calm : s.sockerr = false := by simpa using marked
      cases arrivals : s.incoming with
      | nil =>
        refine ⟨[], { s with buffer := [], timedout := true }, ?_, fun _ => rfl, ?_⟩
        · simp [BaseSocket.pending, arrivals]
        · simp [BaseSocket.bcheckForInput, calm, arrivals, ready]
      | cons a rest =>
        cases a with
        | silence =>
          refine ⟨[], { s with buffer := [], timedout := true, incoming := rest }, rfl, fun _ => rfl, ?_⟩
          simp [BaseSocket.bcheckForInput, calm, ready]
        | pollError =>
          refine ⟨[], { s with buffer := [], timedout := false, sockerr := true, incoming := rest }, rfl,
            fun _ => rfl, ?_⟩
          simp [BaseSocket.bcheckForInput, calm, ready]
        | recvError =>
          have polled := recvAfter_eq (s := { s with buffer := [], timedout := false }) rfl s.buffer
            (len - s.buffer.length)
          simpa [BaseSocket.bcheckForInput, calm, arrivals, ready] using polled
        | bytes block =>
          have polled := recvAfter_eq (s := { s with buffer := [], timedout := false }) rfl s.buffer
            (len - s.buffer.length)
          simpa [BaseSocket.bcheckForInput, calm, arrivals, ready] using polled

theorem readFromSocket_keeps_iff (s : BaseSocket) (len : Nat) (check_first : Bool) :
    (s.readFromSocket len check_first).1.getD [] ++ (s.readFromSocket len check_first).2.pending = s.pending ↔
      Clean s (.readFromSocket len check_first) := by
  simp only [Clean]
  by_cases inside : s.buffer ≠ [] ∧ len ≤ s.buffer.length
  · simp only [BaseSocket.readFromSocket, inside, if_true, true_or, or_true, iff_true, Option.getD_some,
      BaseSocket.pending, ne_eq, not_false_eq_true, and_self]
    rw [← List.append_assoc, List.take_append_drop]
  · obtain ⟨given, t, kept, none_, result⟩ := readFromSocket_further check_first inside
    have partly : (s.buffer = [] ∨ len ≤ s.buffer.length ∨ ready check_first s.sockerr s.incoming = true) ↔
        (s.buffer = [] ∨ ready check_first s.sockerr s.incoming = true) := by tauto
    rw [result, partly]
    cases answer : ready check_first s.sockerr s.incoming with
    | true => simp [BaseSocket.pending, ← kept]
    | false =>
      rw [none_ answer, List.nil_append] at kept
      conv_lhs => rw [kept, BaseSocket.pending]
      simp

theorem call_keeps_iff (s : BaseSocket) (c : Call) :
    (c.run s).1 ++ (c.run s).2.pending = s.pending ↔ Clean s c := by
  cases c with
  | getLine size => exact getLine_keeps_iff s size
  | readFromSocket len check_first => exact readFromSocket_keeps_iff s len check_first
  | readFromSocketn len => exact readFromSocketn_keeps_iff s len

/- No call puts anything back into what is to come. -/

def Later (s t : BaseSocket) : Prop := (flat t.incoming).length ≤ (flat s.incoming).length

theorem check_later (s : BaseSocket) : Later s s.bcheckForInput.2 := by
  unfold BaseSocket.bcheckForInput Later
  split
  · exact Nat.le_refl _
  · split
    · exact Nat.le_refl _
    · split <;> simp_all [flat]

theorem recv_later {n : Nat} {l rest : List Arrival} {r : Option Str} (taken : recv n l = (r, rest)) :
    (flat rest).length ≤ (flat l).length := by
  rw [← recv_flat taken, List.length_append]
  omega

theorem getLineLoop_later (size rounds : Nat) : ∀ (line : Str) (s : BaseSocket),
    Later s (s.getLineLoop size rounds line).2 := by
  induction rounds with
  | zero => exact fun _ _ => Nat.le_refl _
  | succ rounds ih =>
    intro line s
    rw [BaseSocket.getLineLoop]
    split
    · have polled := check_later { s with buffer := [] }
      split
      · rename_i t checked
        rw [checked] at polled
        exact polled
      · rename_i t checked
        rw [checked] at polled
        split
        · rename_i rest received
          exact Nat.le_trans (recv_later received) polled
        · rename_i given rest received
          have less := Nat.le_trans (recv_later received) polled
          split
          · exact less
          · simp only
            split
            · exact less
            · exact Nat.le_trans (ih _ _) less
    · exact Nat.le_refl _

theorem readLoop_later (rounds : Nat) : ∀ (cnt : Nat) (got : Str) (s : BaseSocket),
    Later s (s.readLoop rounds cnt got).2 := by
  induction rounds with
  | zero => exact fun _ _ _ => Nat.le_refl _
  | succ rounds ih =>
    intro cnt got s
    rw [BaseSocket.readLoop]
    split
    · have polled := check_later s
      split
      · rename_i t checked
        rw [checked] at polled
        exact polled
      · rename_i t checked
        rw [checked] at polled
        split
        · rename_i rest received
          exact Nat.le_trans (recv_later received) polled
        · rename_i given rest received
          have less := Nat.le_trans (recv_later received) polled
          split
          · exact less
          · exact Nat.le_trans (ih _ _ _) less
    · exact Nat.le_refl _

theorem recvAfter_later (got : Str) (n : Nat) (s : BaseSocket) : Later s (s.recvAfter got n).2 := by
  unfold BaseSocket.recvAfter
  split
  · exact Nat.le_refl _
  · split
    · rename_i rest received
      exact recv_later received
    · rename_i given rest received
      exact recv_later received

theorem call_later (s : BaseSocket) (c : Call) : Later s (c.run s).2 := by
  cases c with
  | getLine size =>
    simp only [Call.run, BaseSocket.getLine]
    split
    · exact Nat.le_refl _
    · exact getLineLoop_later size size _ _
  | readFromSocketn len => exact readLoop_later len _ _ _
  | readFromSocket len check_first =>
    simp only [Call.run, BaseSocket.readFromSocket]
    split
    · exact Nat.le_refl _
    · split
      · have polled := check_later { s with buffer := [] }
        split
        · rename_i t checked
          rw [checked] at polled
          exact polled
        · rename_i t checked
          rw [checked] at polled
          exact Nat.le_trans (recvAfter_later _ _ _) polled
      · exact recvAfter_later _ _ { s with buffer := [] }

/- Runs. -/

def runCalls : List Call → BaseSocket → Str × BaseSocket
  | [], s => ([], s)
  | c :: calls, s => ((c.run s).1 ++ (runCalls calls (c.run s).2).1, (runCalls calls (c.run s).2).2)

/-- What was delivered, followed by what is in the buffer, is what has been received so far. -/
def Exact (start s : BaseSocket) (delivered : Str) : Prop :=
  ∃ received, flat start.incoming = received ++ flat s.incoming ∧ delivered ++ s.buffer = start.buffer ++ received

theorem exact_iff_pending {start s : BaseSocket} (later : Later start s) {delivered : Str} :
    Exact start s delivered ↔ delivered ++ s.pending = start.pending := by
  constructor
  · intro ⟨received, arrived, whole⟩
    rw [BaseSocket.pending, BaseSocket.pending, ← List.append_assoc, whole, arrived, List.append_assoc]
  · intro whole
    rw [BaseSocket.pending, BaseSocket.pending, ← List.append_assoc] at whole
    rcases List.append_eq_append_iff.mp whole with ⟨more, front, back⟩ | ⟨received, front, back⟩
    · -- the buffer and the bytes delivered cannot be less than what the buffer held before
      have lengths := congrArg List.length back
      rw [List.length_append] at lengths
      have none_ : more = [] := by
        rw [← List.length_eq_zero_iff]
        unfold Later at later
        omega
      subst none_
      exact ⟨[], by simpa using back.symm, by simpa using front.symm⟩
    · exact ⟨received, back, front⟩

theorem runCalls_append (calls : List Call) (c : Call) (s : BaseSocket) :
    runCalls (calls ++ [c]) s = ((runCalls calls s).1 ++ (c.run (runCalls calls s).2).1, (c.run (runCalls calls s).2).2) := by
  induction calls generalizing s with
  | nil => simp [runCalls]
  | cons first calls ih => simp [runCalls, ih]

theorem runCalls_later (calls : List Call) (s : BaseSocket) : Later s (runCalls calls s).2 := by
  induction calls generalizing s with
  | nil => exact Nat.le_refl _
  | cons c calls ih => exact Nat.le_trans (ih _) (call_later s c)

/-- In a run nothing is lost or repeated at any time if and only if every call of it is clean. -/
theorem bytes_kept_iff_calls_clean (s : BaseSocket) (calls : List Call) :
    (∀ done, done <+: calls → Exact s (runCalls done s).2 (runCalls done s).1) ↔
      ∀ done c, done ++ [c] <+: calls → Clean (runCalls done s).2 c := by
  have step : ∀ done c, Exact s (runCalls done s).2 (runCalls done s).1 →
      (Exact s (runCalls (done ++ [c]) s).2 (runCalls (done ++ [c]) s).1 ↔ Clean (runCalls done s).2 c) := by
    intro done c kept
    rw [exact_iff_pending (runCalls_later _ _)] at kept ⊢
    rw [runCalls_append, ← kept, List.append_assoc, List.append_cancel_left_eq]
    exact call_keeps_iff _ c
  constructor
  · intro kept done c inside
    have before := kept done ((List.prefix_append done [c]).trans inside)
    exact (step done c before).mp (kept _ inside)
  · intro clean done inside
    induction done using List.reverseRecOn with
    | nil => exact ⟨[], rfl, by simp [runCalls]⟩
    | append_singleton done c ih =>
      have before := ih ((List.prefix_append done [c]).trans inside)
      exact (step done c before).mpr (clean done c inside)

def arriving (incoming : List Arrival) : BaseSocket := ⟨[], incoming, false, false⟩

def longLine : BaseSocket := arriving [.bytes (str "abcdef")]

def stalled : BaseSocket := arriving [.bytes (str "x\nab"), .silence]

def lineThenBlock : List Call := [.getLine 10, .readFromSocket 5 true]

/-- A line that does not fit is read again from its start; what the buffer held is gone after a
read that timed out. -/
theorem line_repeated_and_bytes_lost :
    ¬ Exact longLine (runCalls [.getLine 4] longLine).2 (runCalls [.getLine 4] longLine).1 ∧
      ¬ Exact stalled (runCalls lineThenBlock stalled).2 (runCalls lineThenBlock stalled).1 := by
  rw [exact_iff_pending (runCalls_later _ _), exact_iff_pending (runCalls_later _ _)]
  decide

end GuardianSockets
