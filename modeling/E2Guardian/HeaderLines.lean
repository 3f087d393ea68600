import E2Guardian.HttpHeader

/- Which lines HTTPHeader::in stores of a header that arrives without a stop. A line of at most
   three bytes, its carriage return among them, ends the header. -/
namespace GuardianHeaderLines
open GuardianString GuardianChunks GuardianSockets GuardianHttp

/- A line that arrives is read. -/

theorem line_inside {n : Nat} {text : Str} (noNewline : lf ∉ text) (fits : text.length + 1 ≤ n) (behind : Str) :
    ((text ++ lf :: behind).take n).elem lf = true ∧ upToNewline ((text ++ lf :: behind).take n) = text ∧
      (text ++ lf :: behind).drop (text.length + 1) = behind := by
  have found : lf ∈ (text ++ lf :: behind).take n := by
    rw [List.take_append, List.take_of_length_le (by omega)]
    obtain ⟨k, room⟩ : ∃ k, n - text.length = k + 1 := ⟨n - text.length - 1, by omega⟩
    rw [room, List.take_succ_cons]
    simp
  refine ⟨by simpa using found, ?_, ?_⟩
  · rw [GuardianSockets.upToNewline_take found, upToNewline_append noNewline]
  · rw [List.drop_append, List.drop_eq_nil_of_le (by omega), List.nil_append, Nat.add_sub_cancel_left]
    rfl

theorem line_begun {n : Nat} {text given : Str} (noNewline : lf ∉ text) (part : given = text.take given.length)
    (fits : given.length ≤ n) :
    given.elem lf = false ∧ given.take n = given ∧ given ++ text.drop given.length = text := by
  have absent : lf ∉ given := by
    rw [part]
    exact fun member => noNewline (List.mem_of_mem_take member)
  refine ⟨by simpa using absent, List.take_of_length_le fits, ?_⟩
  nth_rewrite 1 [part]
  exact List.take_append_drop _ _

theorem getLineLoop_line {size : Nat} (rounds : Nat) : ∀ {line text more : Str} {s : BaseSocket},
    s.flow.1 = text ++ lf :: more → lf ∉ text → line.length + text.length + 1 ≤ size - 1 →
    size - 1 - line.length ≤ rounds → ∃ t, s.getLineLoop size rounds line = (some (line ++ text, true), t) ∧
      t.buffer ++ t.flow.1 = more ∧ flat s.incoming = text ++ lf :: t.pending := by
  induction rounds with
  | zero =>
    intro line text more s _ _ fits enough
    omega
  | succ rounds ih =>
    intro line text more s arrives noNewline fits enough
    have room : line.length < size - 1 := by omega
    have arrives' : { s with buffer := [] }.flow.1 = text ++ lf :: more := arrives
    simp only [BaseSocket.getLineLoop, room, if_true]
    cases taken (s := { s with buffer := [] }) (n := blockSize) (by decide) rfl with
    | quiet u checked stop empty kept => simp [stop] at arrives'
    | failed u rest checked empty received stop kept => simp [stop] at arrives'
    | closed u rest checked empty received stop kept => simp [stop] at arrives'
    | given u rest given checked empty calm received some_ most further kept =>
      have kept : given ++ flat rest = flat s.incoming := kept
      have flows : given ++ (flow rest).1 = text ++ lf :: more := by rw [← arrives', further]
      have filled : 0 < given.length := List.length_pos_iff.mpr some_
      simp only [checked, received, some_, if_false]
      rcases prefix_of_line flows with ⟨short, part, tail⟩ | ⟨behind, part⟩
      · -- the block ends before the newline
        obtain ⟨none_, all, both⟩ := @line_begun (size - 1 - line.length) _ _ noNewline part (by omega)
        simp only [none_, all, Bool.false_eq_true, if_false]
        have next : { u with buffer := given, incoming := rest }.flow.1 = text.drop given.length ++ lf :: more := by
          simpa [BaseSocket.flow, calm] using tail
        obtain ⟨t, read, left, pending⟩ := @ih (line ++ given) (text.drop given.length) more
          { u with buffer := given, incoming := rest } next (fun member => noNewline (List.mem_of_mem_drop member))
          (by rw [List.length_append, List.length_drop]; omega) (by rw [List.length_append]; omega)
        refine ⟨t, ?_, left, ?_⟩
        · rw [read, List.append_assoc, both]
        · have pending : flat rest = text.drop given.length ++ lf :: t.pending := pending
          rw [← kept, pending, ← List.append_assoc, both]
      · subst part
        obtain ⟨hit, cut, left⟩ := @line_inside (size - 1 - line.length) _ noNewline (by omega) behind
        simp only [hit, if_true, cut, left]
        refine ⟨_, rfl, ?_, ?_⟩
        · have same := List.append_cancel_left (flows.symm.trans (List.append_assoc _ _ _))
          simp only [List.cons_append, List.cons.injEq, true_and] at same
          simp [BaseSocket.flow, calm, same]
        · rw [← kept, BaseSocket.pending]
          simp

theorem getLine_line {size : Nat} {text more : Str} {s : BaseSocket} (arrives : s.buffer ++ s.flow.1 = text ++ lf :: more)
    (noNewline : lf ∉ text) (fits : text.length + 1 ≤ size - 1) :
    ∃ t, s.getLine size = (some (text, true), t) ∧ t.buffer ++ t.flow.1 = more ∧
      s.pending = text ++ lf :: t.pending := by
  unfold BaseSocket.getLine
  rcases prefix_of_line arrives with ⟨short, part, tail⟩ | ⟨behind, part⟩
  · obtain ⟨none_, all, both⟩ := @line_begun (size - 1) _ _ noNewline part (by omega)
    simp only [none_, all, Bool.false_eq_true, if_false]
    obtain ⟨t, read, left, pending⟩ := @getLineLoop_line size size s.buffer (text.drop s.buffer.length) more
      { s with buffer := s.buffer.drop (size - 1) } tail (fun member => noNewline (List.mem_of_mem_drop member))
      (by rw [List.length_drop]; omega) (by omega)
    refine ⟨t, by rw [read, both], left, ?_⟩
    have pending : flat s.incoming = text.drop s.buffer.length ++ lf :: t.pending := pending
    rw [BaseSocket.pending, pending, ← List.append_assoc, both]
  · obtain ⟨hit, cut, left⟩ := @line_inside (size - 1) _ noNewline fits behind
    rw [part]
    simp only [hit, if_true, cut, left]
    refine ⟨_, rfl, ?_, ?_⟩
    · rw [part] at arrives
      have same := List.append_cancel_left (arrives.symm.trans (List.append_assoc _ _ _))
      simp only [List.cons_append, List.cons.injEq, true_and] at same
      exact same.symm
    · rw [BaseSocket.pending, part, BaseSocket.pending]
      simp

/- The lines of a header. -/

def crLines (lines : List Str) : Str := lines.flatMap fun line => line ++ crlf

def headerText (lines : List Str) : Str := crLines lines ++ crlf

def texts (h : HTTPHeader) : List Str := h.header.map (·.text)

structure Plain (o : Options) (line : Str) : Prop where
  noNul : 0 ∉ line
  noNewline : lf ∉ line
  fits : line.length + 2 ≤ o.max_header_line_length - 1

def Long (line : Str) : Prop := 3 ≤ line.length

instance (line : Str) : Decidable (Long line) := inferInstanceAs (Decidable (_ ≤ _))

theorem texts_push (line : Str) (h : HTTPHeader) : texts (h.push line) = texts h ++ [line] := by
  simp [texts, HTTPHeader.push]

theorem header_length_eq_texts (h : HTTPHeader) : h.header.length = (texts h).length := by simp [texts]

theorem inLoop_line {o : Options} {line more : Str} (plain : Plain o line) {h : HTTPHeader} {sock : BaseSocket}
    (count : h.header.length ≤ o.max_header_lines) (arrives : sock.buffer ++ sock.flow.1 = line ++ crlf ++ more)
    (rounds : Nat) (firsttime : Bool) :
    ∃ t, t.buffer ++ t.flow.1 = more ∧ sock.pending = line ++ crlf ++ t.pending ∧
      HTTPHeader.inLoop o (rounds + 1) firsttime h sock =
        if firsttime && h.is_response && !HTTPHeader.isStatusLine (line ++ [cr]) then (false, h, t)
        else if firsttime && !Long line then HTTPHeader.inLoop o rounds false h t
        else if Long line then HTTPHeader.inLoop o rounds false (h.push (line ++ [cr])) t
        else (true, h.push (line ++ [cr]), t) := by
  have noNewline : lf ∉ line ++ [cr] := by
    rw [List.mem_append, List.mem_singleton, not_or]
    exact ⟨plain.noNewline, by decide⟩
  have noNul : 0 ∉ line ++ [cr] := by
    rw [List.mem_append, List.mem_singleton, not_or]
    exact ⟨plain.noNul, by decide⟩
  have fits := plain.fits
  have arrives' : sock.buffer ++ sock.flow.1 = line ++ [cr] ++ lf :: more := by
    rw [arrives]
    simp [crlf]
  obtain ⟨t, read, left, pending⟩ := @getLine_line o.max_header_line_length _ _ _ arrives' noNewline
    (by rw [List.length_append, List.length_singleton]; omega)
  refine ⟨t, left, by rw [pending]; simp [crlf], ?_⟩
  have few : ¬ h.header.length > o.max_header_lines := by omega
  have length : (line ++ [cr]).length = line.length + 1 := by simp
  have long : (line ++ [cr]).length > 3 ↔ Long line := by
    unfold Long
    omega
  have short : (decide ((line ++ [cr]).length ≤ 3)) = !decide (Long line) := by
    rw [← decide_not, decide_eq_decide, ← long]
    omega
  simp only [HTTPHeader.inLoop, read, few, if_false, cstr_of_nul_free noNul, long, short]

/-- What is stored when the first line has been read: the lines up to one that is too short, and
that one. -/
theorem inLoop_lines {o : Options} (lines : List Str) {more : Str} (plain : ∀ line ∈ lines, Plain o line)
    (blank : Plain o []) : ∀ {h : HTTPHeader} {sock : BaseSocket} {rounds : Nat},
    h.header.length + lines.length ≤ o.max_header_lines →
    sock.buffer ++ sock.flow.1 = headerText lines ++ more → lines.length < rounds →
    ∃ h' last t, HTTPHeader.inLoop o rounds false h sock = (true, h', t) ∧
      texts h' = texts h ++ (lines.takeWhile fun line => Long line).map (· ++ [cr]) ++ [last] ∧
      ((∀ line ∈ lines, Long line) → sock.pending = headerText lines ++ t.pending) := by
  induction lines with
  | nil =>
    intro h sock rounds count arrives enough
    obtain ⟨rounds, rfl⟩ : ∃ n, rounds = n + 1 := ⟨rounds - 1, by simp at enough; omega⟩
    obtain ⟨t, -, pending, loop⟩ := inLoop_line blank (h := h) count arrives rounds false
    have short : ¬ Long [] := by decide
    refine ⟨h.push ([] ++ [cr]), [cr], t, ?_, ?_, fun _ => pending⟩
    · simpa [short] using loop
    · simp [texts_push]
  | cons line lines ih =>
    intro h sock rounds count arrives enough
    simp only [List.length_cons] at count enough
    obtain ⟨rounds, rfl⟩ : ∃ n, rounds = n + 1 := ⟨rounds - 1, by omega⟩
    have arrives' : sock.buffer ++ sock.flow.1 = line ++ crlf ++ (headerText lines ++ more) := by
      rw [arrives]
      simp [headerText, crLines]
    obtain ⟨t, left, pending, loop⟩ := inLoop_line (plain line List.mem_cons_self) (h := h) (by omega) arrives' rounds false
    by_cases long : Long line
    · obtain ⟨h', last, u, rest, stored, behind⟩ := @ih (fun other member => plain other (List.mem_cons_of_mem _ member))
        (h.push (line ++ [cr])) t rounds (by rw [header_length_eq_texts, texts_push, List.length_append,
          ← header_length_eq_texts, List.length_singleton]; omega) left (by omega)
      refine ⟨h', last, u, ?_, ?_, ?_⟩
      · rw [loop]
        simpa [long] using rest
      · rw [stored, texts_push]
        simp [long]
      · intro all
        rw [pending, behind fun other member => all other (List.mem_cons_of_mem _ member)]
        simp [headerText, crLines]
    · refine ⟨h.push (line ++ [cr]), line ++ [cr], t, ?_, ?_, ?_⟩
      · simpa [long] using loop
      · simp [texts_push, long]
      · exact fun all => absurd (all line List.mem_cons_self) long

/-- The lines are stored, in order, and the stream is behind the empty line. -/
def Stored (o : Options) (sock : BaseSocket) (h : HTTPHeader) (lines : List Str) : Prop :=
  let result := { h.reset with dirty := true }.readLines o sock
  result.1 = true ∧ texts result.2.1 = lines.map (· ++ [cr]) ∧ sock.pending = headerText lines ++ result.2.2.pending

theorem headerText_length (lines : List Str) : lines.length < (headerText lines).length := by
  induction lines with
  | nil => decide
  | cons line lines ih =>
    have two : crlf.length = 2 := rfl
    simp only [headerText, crLines, List.flatMap_cons, List.length_append, List.length_cons] at ih ⊢
    omega

theorem flow_length_le (l : List Arrival) : (flow l).1.length ≤ (flat l).length := by
  induction l with
  | nil => exact Nat.le_refl _
  | cons a l ih =>
    cases a with
    | bytes block =>
      rw [flow, flat]
      split
      · exact Nat.zero_le _
      · rw [List.length_append, List.length_append]
        omega
    | silence | pollError | recvError => exact Nat.zero_le _

theorem arrived_length_le (s : BaseSocket) : (s.buffer ++ s.flow.1).length ≤ s.pending.length := by
  have le := flow_length_le s.incoming
  rw [BaseSocket.pending, List.length_append, List.length_append, BaseSocket.flow]
  split
  · simp
  · omega

theorem takeWhile_length_lt {lines : List Str} (short : ¬ ∀ line ∈ lines, Long line) :
    (lines.takeWhile fun line => Long line).length < lines.length := by
  have le := (List.takeWhile_prefix (fun line => decide (Long line)) (l := lines)).length_le
  rcases Nat.lt_or_eq_of_le le with less | same
  · exact less
  · refine absurd (fun line member => ?_) short
    have all := (List.takeWhile_prefix (fun line => decide (Long line))).eq_of_length same
    simpa using List.takeWhile_eq_self_iff.mp all line member

/-- The lines of a header are stored if and only if each of them, the first among them, has at least
three bytes. -/
theorem lines_stored_iff_long {o : Options} {h : HTTPHeader} (empty : h.reset.header = []) {first : Str}
    {lines : List Str} (status : h.reset.is_response = true → HTTPHeader.isStatusLine (first ++ [cr]) = true)
    (plain : ∀ line ∈ first :: lines, Plain o line) (count : (first :: lines).length ≤ o.max_header_lines)
    {more : Str} {sock : BaseSocket} (arrives : sock.buffer ++ sock.flow.1 = headerText (first :: lines) ++ more) :
    Stored o sock h (first :: lines) ↔ ∀ line ∈ first :: lines, Long line := by
  have fits := (plain first List.mem_cons_self).fits
  have blank : Plain o [] := ⟨by simp, by simp, by simp only [List.length_nil]; omega⟩
  have plain' : ∀ line ∈ lines, Plain o line := fun line member => plain line (List.mem_cons_of_mem _ member)
  simp only [List.length_cons] at count
  have arrives' : sock.buffer ++ sock.flow.1 = first ++ crlf ++ (headerText lines ++ more) := by
    rw [arrives]
    simp [headerText, crLines]
  obtain ⟨start, begin_⟩ : ∃ start : HTTPHeader, start = { h.reset with dirty := true } := ⟨_, rfl⟩
  have none_ : start.header = [] := by
    rw [begin_]
    exact empty
  have status' : (start.is_response && !HTTPHeader.isStatusLine (first ++ [cr])) = false := by
    rw [begin_]
    cases response : h.reset.is_response with
    | false => rfl
    | true => simp [status response]
  obtain ⟨t, left, pending, loop⟩ := inLoop_line (plain first List.mem_cons_self) (h := start) (by simp [none_]) arrives'
    sock.pending.length true
  have enough : lines.length < sock.pending.length := by
    have many := headerText_length lines
    have le := arrived_length_le sock
    have two : crlf.length = 2 := rfl
    rw [arrives'] at le
    simp only [List.length_append] at le
    omega
  simp only [Stored, HTTPHeader.readLines, ← begin_]
  by_cases long : Long first
  · obtain ⟨h', last, u, rest, stored, behind⟩ := @inLoop_lines o lines more plain' blank (start.push (first ++ [cr])) t
      sock.pending.length (by simp [HTTPHeader.push, none_]; omega) left enough
    have result : HTTPHeader.inLoop o (sock.pending.length + 1) true start sock = (true, h', u) := by
      rw [loop]
      simpa [status', long] using rest
    have kept : texts { h' with header := h'.header.dropLast } =
        (first ++ [cr]) :: (lines.takeWhile fun line => Long line).map (· ++ [cr]) := by
      have all : texts { h' with header := h'.header.dropLast } = (texts h').dropLast := by simp [texts, List.map_dropLast]
      rw [all, stored, List.dropLast_concat, texts_push]
      simp [texts, none_]
    have some_ : 0 < (h'.header.dropLast).length := by
      have lengths := congrArg List.length kept
      simp only [texts, List.length_map, List.length_cons] at lengths
      omega
    simp only [result, kept, some_, decide_true, true_and]
    constructor
    · intro ⟨same, _⟩
      by_contra short
      have less : ¬ ∀ line ∈ lines, Long line := by
        intro all
        refine short fun line member => ?_
        rcases List.mem_cons.mp member with rfl | later
        · exact long
        · exact all line later
      have lengths := congrArg List.length same
      simp only [List.length_cons, List.length_map] at lengths
      have := takeWhile_length_lt less
      omega
    · intro all
      have all' : ∀ line ∈ lines, Long line := fun line member => all line (List.mem_cons_of_mem _ member)
      refine ⟨?_, ?_⟩
      · rw [List.takeWhile_eq_self_iff.mpr (by simpa using all'), List.map_cons]
      · rw [pending, behind all']
        simp [headerText, crLines]
  · -- the first line is passed over
    obtain ⟨h', last, u, rest, stored, -⟩ := @inLoop_lines o lines more plain' blank start t
      sock.pending.length (by simp [none_]; omega) left enough
    have result : HTTPHeader.inLoop o (sock.pending.length + 1) true start sock = (true, h', u) := by
      rw [loop]
      simpa [status', long] using rest
    have kept : texts { h' with header := h'.header.dropLast } =
        (lines.takeWhile fun line => Long line).map (· ++ [cr]) := by
      have all : texts { h' with header := h'.header.dropLast } = (texts h').dropLast := by simp [texts, List.map_dropLast]
      rw [all, stored, List.dropLast_concat]
      simp [texts, none_]
    constructor
    · intro ⟨_, same, _⟩
      simp only [result, kept] at same
      have lengths := congrArg List.length same
      have le := (List.takeWhile_prefix (fun line => decide (Long line)) (l := lines)).length_le
      simp only [List.length_map, List.length_cons] at lengths
      omega
    · exact fun all => absurd (all first List.mem_cons_self) long

def limits : Options := ⟨8192, 200, [], false⟩

def ordinary : List Str := [str "GET / HTTP/1.1", str "Host: a", str "X:1"]

def arrivingInTwo : BaseSocket :=
  arriving [.bytes (str "GET / HTTP/1.1\r\nHo"), .bytes (str "st: a\r\nX:1\r\n\r\nbody")]

theorem ordinary_stored : Stored limits arrivingInTwo (.made false none) ordinary := by
  have arrives : arrivingInTwo.buffer ++ arrivingInTwo.flow.1 = headerText ordinary ++ str "body" := by decide
  refine (lines_stored_iff_long rfl (by decide) ?_ (by decide) arrives).mpr (by decide)
  intro line member
  simp only [List.mem_cons, List.not_mem_nil, or_false] at member
  rcases member with rfl | rfl | rfl
  · exact ⟨by decide, by decide, by decide⟩
  · exact ⟨by decide, by decide, by decide⟩
  · exact ⟨by decide, by decide, by decide⟩

/-- The line "a:" ends the header; what follows it is left in the stream. -/
theorem short_line_ends_header :
    ¬ Stored limits (arriving [.bytes (str "GET / HTTP/1.1\r\na:\r\nHost: b\r\n\r\n")]) (.made false none)
      [str "GET / HTTP/1.1", str "a:", str "Host: b"] := by
  unfold Stored
  decide

end GuardianHeaderLines
