import Mathlib.Algebra.Ring.Nat
import E2Guardian.ListManager

/- The loop of ifsreadItemList on its stream and its block of memory. The stream has the states of
   an istream; the block grows by 2048 bytes where the count of what is needed passes its size. -/
namespace GuardianListLoads
open GuardianString GuardianItemFile GuardianListManager

structure IStream where
  rest : Str
  eof : Bool
  fail : Bool
  deriving DecidableEq, Repr

def IStream.opened (text : Str) : IStream := ⟨text, false, false⟩

def nextLine (text : Str) : Str := text.takeWhile (· != ch '\n')

def behind (text : Str) : IStream :=
  if (nextLine text).length = text.length then ⟨[], true, (nextLine text).isEmpty⟩
  else .opened (text.drop ((nextLine text).length + 1))

def getline (size : Nat) (s : IStream) : Str × IStream :=
  if s.eof ∨ s.fail then ([], { s with fail := true })
  else if (nextLine s.rest).length < size then (nextLine s.rest, behind s.rest)
  else (s.rest.take (size - 1), ⟨s.rest.drop (size - 1), false, true⟩)

structure Block where
  data_memory : Nat
  data_length : Nat
  mem_used : Nat -- an unsigned int
  deriving DecidableEq, Repr

def increaseMemoryBy (bytes : Nat) (b : Block) : Block := { b with data_memory := b.data_memory + bytes }

def addToItemList (len : Nat) (b : Block) : Block := { b with data_length := b.data_length + len + 1 }

def addItem (len : Nat) (b : Block) : Block :=
  addToItemList len (if b.mem_used > b.data_memory then increaseMemoryBy 2048 b else b)

def entryLength (host : Host) (kind : Kind) (filters : Int) (temp : Str) : Nat :=
  (if kind.isip || kind.istime then temp else tidy host filters temp).length

def noteLine (host : Host) (kind : Kind) (filters : Int) (line : Line) (b : Block) : Block :=
  match line with
  | .entry temp =>
    let len := entryLength host kind filters temp
    if len > 0 then
      let b := { b with mem_used := (b.mem_used + len + 1) % 2 ^ 32 }
      if kind.isip || kind.istime || kind.ismap then b else addItem len b
    else b
  | _ => b

structure Load (μ : Type) where
  input : IStream
  block : Block
  list : Contents
  others : μ

structure Progress (μ : Type) where
  answer : Option Bool
  load : Load μ

structure Loader (μ : Type) where
  source : Source
  host : Host
  kind : Kind
  filters : Int
  another : Str → Contents × μ → Bool × Contents × μ

section Loop
variable {μ : Type}

namespace Loader
variable (loader : Loader μ)

def lineStep (line : Line) (st : Contents × μ) : Option Bool × Contents × μ :=
  match line with
  | .endlist => (some true, st)
  | .another inc => (if (loader.another inc st).1 then none else some false, (loader.another inc st).2)
  | line =>
    match addLine loader.host loader.kind loader.filters line st.1 with
    | none => (some false, st)
    | some list => (none, list, st.2)

def round (l : Load μ) : Progress μ :=
  if l.input.eof then ⟨some true, l⟩
  else
    let (linebuffer, input) := getline 20000 l.input
    let line := parseLine loader.source linebuffer
    let (answer, list, others) := loader.lineStep line (l.list, l.others)
    ⟨answer, input, noteLine loader.host loader.kind loader.filters line l.block, list, others⟩

def runs : Nat → Load μ → Progress μ
  | 0, l => ⟨none, l⟩
  | rounds + 1, l =>
    match (loader.round l).answer with
    | none => runs rounds (loader.round l).load
    | some _ => loader.round l

def Returns (l : Load μ) : Prop := ∃ rounds, (loader.runs rounds l).answer.isSome

/-- A line that is too long is skipped, and the next one is read next. -/
def SkipsLong (l : Load μ) : Prop :=
  l.input.eof = false → 2048 < (cstr (nextLine l.input.rest)).length →
    loader.round l = ⟨none, { l with input := behind l.input.rest }⟩

structure Ends (l : Load μ) : Prop where
  returns : loader.Returns l
  skips : ∀ rounds m, loader.runs rounds l = ⟨none, m⟩ → loader.SkipsLong m

/-- Reading comes to a line that does not fit the line buffer, and what is read of it does not end it. -/
def ReachesLong : List Str → Contents × μ → Prop
  | [], _ => False
  | linebuffer :: rest, st =>
    let step := loader.lineStep (parseLine loader.source (linebuffer.take 19999)) st
    step.1 = none ∧ (20000 ≤ linebuffer.length ∨ ReachesLong rest step.2)

end Loader

end Loop

/- Lines. -/

theorem textLines_cons (text : Str) : textLines text = nextLine text ::
    if (nextLine text).length = text.length then [] else textLines (text.drop ((nextLine text).length + 1)) := by
  induction text with
  | nil => rfl
  | cons b text ih =>
    unfold textLines nextLine at ih ⊢
    rw [List.splitOn_cons_eq_if_modifyHead]
    by_cases here : b = ch '\n'
    · simp [here]
    · rw [ih]
      simp [here]

inductive At : IStream → List Str → Prop where
  | opened (text : Str) : At (.opened text) (textLines text)
  | ended (s : IStream) (eof : s.eof = true) : At s []

theorem at_behind (text : Str) : ∃ rest, textLines text = nextLine text :: rest ∧ At (behind text) rest := by
  refine ⟨_, textLines_cons text, ?_⟩
  unfold behind
  split
  · exact .ended _ rfl
  · exact .opened _

theorem getline_opened (text : Str) : (getline 20000 (.opened text)).1 = (nextLine text).take 19999 ∧
    ((nextLine text).length < 20000 → (getline 20000 (.opened text)).2 = behind text) ∧
    (20000 ≤ (nextLine text).length → (getline 20000 (.opened text)).2 = ⟨text.drop 19999, false, true⟩) := by
  have front : nextLine text <+: text := List.takeWhile_prefix _
  have opened : ¬ ((IStream.opened text).eof = true ∨ (IStream.opened text).fail = true) := by simp [IStream.opened]
  unfold getline
  rw [if_neg opened]
  by_cases fits : (nextLine text).length < 20000
  · rw [if_pos (show (nextLine (IStream.opened text).rest).length < 20000 from fits)]
    refine ⟨?_, fun _ => rfl, fun long => by omega⟩
    show nextLine text = _
    rw [List.take_of_length_le (by omega)]
  · rw [if_neg (show ¬ (nextLine (IStream.opened text).rest).length < 20000 from fits)]
    refine ⟨?_, fun short => absurd short fits, fun _ => rfl⟩
    obtain ⟨back, split_⟩ := front
    show text.take 19999 = _
    rw [← split_, List.take_append_of_le_length (by omega), split_]

section Loop
variable {μ : Type} {loader : Loader μ} {l : Load μ}

theorem skip_step (st : Contents × μ) : loader.lineStep .skip st = (none, st) := rfl

theorem empty_line (source : Source) : parseLine source [] = .skip := rfl

/-- Once a line has not fitted, every round reads nothing. -/
theorem round_stuck (failed : l.input.fail = true) (open_ : l.input.eof = false) : loader.round l = ⟨none, l⟩ := by
  have nothing : getline 20000 l.input = ([], l.input) := by
    obtain ⟨⟨rest, eof, fail⟩, block, list, others⟩ := l
    cases failed
    simp [getline]
  unfold Loader.round
  rw [if_neg (by simp [open_])]
  simp only [nothing, empty_line, skip_step]
  rfl

theorem runs_stuck (failed : l.input.fail = true) (open_ : l.input.eof = false) (rounds : Nat) :
    loader.runs rounds l = ⟨none, l⟩ := by
  induction rounds with
  | zero => rfl
  | succ rounds ih =>
    rw [Loader.runs, round_stuck failed open_]
    exact ih

theorem round_ended (ended : l.input.eof = true) : loader.round l = ⟨some true, l⟩ := by
  unfold Loader.round
  rw [if_pos ended]

def lineRead (loader : Loader μ) (linebuffer : Str) : Line := parseLine loader.source (linebuffer.take 19999)

theorem round_opened {text : Str} (here : l.input = .opened text) :
    loader.round l = ⟨(loader.lineStep (lineRead loader (nextLine text)) (l.list, l.others)).1,
      (getline 20000 (.opened text)).2,
      noteLine loader.host loader.kind loader.filters (lineRead loader (nextLine text)) l.block,
      (loader.lineStep (lineRead loader (nextLine text)) (l.list, l.others)).2.1,
      (loader.lineStep (lineRead loader (nextLine text)) (l.list, l.others)).2.2⟩ := by
  unfold Loader.round lineRead
  rw [here, if_neg (by simp [IStream.opened])]
  simp only [← (getline_opened text).1]

theorem returns_next (next : (loader.round l).answer = none) :
    loader.Returns l ↔ loader.Returns (loader.round l).load := by
  constructor
  · intro ended
    obtain ⟨rounds, ended⟩ := ended
    cases rounds with
    | zero => cases ended
    | succ rounds =>
      rw [Loader.runs, next] at ended
      exact ⟨rounds, ended⟩
  · intro ended
    obtain ⟨rounds, ended⟩ := ended
    refine ⟨rounds + 1, ?_⟩
    rw [Loader.runs, next]
    exact ended

theorem at_cases {lines : List Str} (place : At l.input lines) :
    (l.input.eof = true ∧ lines = []) ∨ ∃ text rest, l.input = .opened text ∧ lines = nextLine text :: rest ∧
      At (behind text) rest := by
  generalize here : l.input = input at place
  cases place with
  | ended s eof => exact .inl ⟨eof, rfl⟩
  | opened text =>
    obtain ⟨rest, split_, later⟩ := at_behind text
    exact .inr ⟨text, rest, rfl, split_, later⟩

inductive OnLine (loader : Loader μ) (l : Load μ) (text : Str) (rest : List Str) : Prop where
  | ends (answer : Bool) (over_ : (loader.round l).answer = some answer)
      (step : (loader.lineStep (lineRead loader (nextLine text)) (l.list, l.others)).1 = some answer)
  | stuck (next : (loader.round l).answer = none)
      (step : (loader.lineStep (lineRead loader (nextLine text)) (l.list, l.others)).1 = none)
      (long : 20000 ≤ (nextLine text).length) (failed : (loader.round l).load.input.fail = true)
      (open_ : (loader.round l).load.input.eof = false)
  | further (next : (loader.round l).answer = none)
      (step : (loader.lineStep (lineRead loader (nextLine text)) (l.list, l.others)).1 = none)
      (short : (nextLine text).length < 20000) (later : At (loader.round l).load.input rest)

theorem onLine {text : Str} {rest : List Str} (here : l.input = .opened text) (later : At (behind text) rest) :
    OnLine loader l text rest := by
  obtain ⟨-, short, long⟩ := getline_opened text
  cases step : (loader.lineStep (lineRead loader (nextLine text)) (l.list, l.others)).1 with
  | some answer => exact .ends answer (by rw [round_opened here]; exact step) step
  | none =>
    by_cases fits : (nextLine text).length < 20000
    · refine .further (by rw [round_opened here]; exact step) step fits ?_
      rw [round_opened here]
      show At (getline 20000 (.opened text)).2 rest
      rw [short fits]
      exact later
    · have long := long (Nat.not_lt.mp fits)
      exact .stuck (by rw [round_opened here]; exact step) step (Nat.not_lt.mp fits)
        (by rw [round_opened here]; exact congrArg IStream.fail long)
        (by rw [round_opened here]; exact congrArg IStream.eof long)

theorem returns_iff (lines : List Str) : ∀ {l : Load μ}, At l.input lines →
    (loader.Returns l ↔ ¬ loader.ReachesLong lines (l.list, l.others)) := by
  induction lines with
  | nil =>
    intro l place
    rcases at_cases place with ⟨ended, -⟩ | ⟨text, rest, -, none_, -⟩
    · refine iff_of_true ⟨1, ?_⟩ id
      rw [Loader.runs, round_ended ended]
      rfl
    · cases none_
  | cons linebuffer rest ih =>
    intro l place
    rcases at_cases place with ⟨-, none_⟩ | ⟨text, rest', here, same, later⟩
    · cases none_
    · cases same
      rw [Loader.ReachesLong]
      cases (onLine here later : OnLine loader l text rest) with
      | ends answer over_ step =>
        refine iff_of_true ⟨1, ?_⟩ ?_
        · rw [Loader.runs, over_]
          simp [over_]
        · intro reaches
          have other := step.symm.trans reaches.1
          cases other
      | stuck next step long failed open_ =>
        refine iff_of_false ?_ (not_not_intro ⟨step, .inl long⟩)
        rw [returns_next next]
        intro ended
        obtain ⟨rounds, ended⟩ := ended
        rw [runs_stuck failed open_] at ended
        cases ended
      | further next step short later =>
        rw [returns_next next, ih later]
        have state : ((loader.round l).load.list, (loader.round l).load.others) =
            (loader.lineStep (lineRead loader (nextLine text)) (l.list, l.others)).2 := by
          rw [round_opened here]
        rw [state, not_iff_not]
        constructor
        · intro reaches
          exact ⟨step, .inr reaches⟩
        · intro reaches
          exact reaches.2.resolve_left (by omega)

theorem long_line {line : Str} (long : 2048 < (cstr line).length) : parseLine loader.source (line.take 19999) = .skip := by
  have cut : 2048 < (cstr (line.take 19999)).length := by
    have front : cstr (line.take 19999) = (cstr line).take 19999 := List.take_takeWhile.symm
    rw [front, List.length_take]
    omega
  unfold parseLine
  simp only
  rw [if_neg (by omega), if_pos cut]

theorem skips (lines : List Str) : ∀ {l : Load μ}, At l.input lines →
    ¬ loader.ReachesLong lines (l.list, l.others) → ∀ rounds m, loader.runs rounds l = ⟨none, m⟩ → loader.SkipsLong m := by
  induction lines with
  | nil =>
    intro l place _ rounds m run
    rcases at_cases place with ⟨ended, -⟩ | ⟨text, rest, -, none_, -⟩
    · cases rounds with
      | zero =>
        cases run
        intro open_
        rw [ended] at open_
        cases open_
      | succ rounds =>
        rw [Loader.runs, round_ended ended] at run
        cases run
    · cases none_
  | cons linebuffer rest ih =>
    intro l place short rounds m run
    rcases at_cases place with ⟨-, none_⟩ | ⟨text, rest', here, same, later⟩
    · cases none_
    · cases same
      have round_ := (onLine here later : OnLine loader l text rest)
      cases rounds with
      | zero =>
        cases run
        intro _ long
        rw [here] at long
        have skip : lineRead loader (nextLine text) = .skip := long_line long
        have fits : (nextLine text).length < 20000 := by
          by_contra far
          exact short ⟨congrArg Prod.fst (congrArg (loader.lineStep · (l.list, l.others)) skip), .inl (Nat.not_lt.mp far)⟩
        rw [round_opened here, skip, (getline_opened text).2.1 fits, here]
        rfl
      | succ rounds =>
        rw [Loader.runs] at run
        cases round_ with
        | ends answer over_ step =>
          rw [over_] at run
          have answers := congrArg Progress.answer run
          rw [over_] at answers
          cases answers
        | stuck next step long failed open_ => exact absurd ⟨step, .inl long⟩ short
        | further next step short' later =>
          rw [next] at run
          have state : ((loader.round l).load.list, (loader.round l).load.others) =
              (loader.lineStep (lineRead loader (nextLine text)) (l.list, l.others)).2 := by
            rw [round_opened here]
          refine ih later ?_ rounds m run
          rw [state]
          exact fun reaches => short ⟨step, .inr reaches⟩

/-- The loop ends, and goes on behind every line that is too long, if and only if it does not come to a line that
does not fit the buffer. -/
theorem ends_iff_lines_fit (loader : Loader μ) (text : Str) (block : Block) (list : Contents) (others : μ) :
    loader.Ends ⟨.opened text, block, list, others⟩ ↔ ¬ loader.ReachesLong (textLines text) (list, others) := by
  have place : At (IStream.opened text) (textLines text) := .opened text
  constructor
  · intro ends
    exact (returns_iff _ place).mp ends.returns
  · intro short
    exact ⟨(returns_iff _ place).mpr short, skips _ place short⟩

end Loop

def lineOf (n : Nat) : Str := List.replicate n (ch 'a') ++ str "\nb"

theorem nextLine_lineOf (n : Nat) : nextLine (lineOf n) = List.replicate n (ch 'a') := by
  induction n with
  | zero => decide
  | succ n ih =>
    unfold nextLine lineOf at ih ⊢
    rw [List.replicate_succ, List.cons_append, List.takeWhile_cons_of_pos (by decide), ih]

def plainLoader : Loader Unit :=
  ⟨⟨[], [], false⟩, ⟨fun _ => false, fun _ => false, fun _ => false, fun _ => false, fun _ => false, fun _ => none, 1⟩,
    ⟨false, false, false⟩, 32, fun _ st => (true, st)⟩

theorem lineOf_stops {n : Nat} (long : 20000 ≤ n) (block : Block) :
    ¬ plainLoader.Returns ⟨.opened (lineOf n), block, .empty, ()⟩ := by
  rw [returns_iff _ (.opened (lineOf n)), not_not, textLines_cons]
  have text : 2048 < (cstr (nextLine (lineOf n))).length := by
    rw [nextLine_lineOf, cstr_of_nul_free, List.length_replicate]
    · omega
    · intro member
      cases List.eq_of_mem_replicate member
  refine ⟨?_, .inl ?_⟩
  · rw [long_line text]
    rfl
  · rw [nextLine_lineOf, List.length_replicate]
    exact long

/-- A line of 20000 bytes: the loop does not end. -/
theorem long_line_never_ends : ¬ plainLoader.Ends ⟨.opened (lineOf 20000), ⟨20004, 0, 2⟩, .empty, ()⟩ := by
  intro ends
  exact lineOf_stops (Nat.le_refl _) _ ends.returns

/- The lengths of entries. -/

theorem stripComment_length (temp : Str) : (stripComment temp).length ≤ temp.length := by
  fun_induction stripComment temp with
  | case1 => simp
  | case2 a b rest other ih =>
    rw [List.length_cons, List.length_cons]
    exact Nat.succ_le_succ ih
  | case3 => exact Nat.le_refl _

theorem removeWhiteSpace_length (s : Str) : (removeWhiteSpace s).length ≤ s.length := by
  unfold removeWhiteSpace
  split
  · exact Nat.le_refl _
  · have front := (List.dropWhile_suffix (l := s) isWhiteSpace).length_le
    have back := (List.dropWhile_suffix (l := (s.dropWhile isWhiteSpace).reverse) isWhiteSpace).length_le
    rw [List.length_reverse] at back ⊢
    omega

theorem portless_length {temp : Str} (port : contains (before temp (str "/")) (str ":") = true) :
    (before temp (str ":") ++ str "/" ++ after temp (str "/")).length ≤ temp.length := by
  have colon : str ":" = [ch ':'] := rfl
  have slash : str "/" = [ch '/'] := rfl
  rw [colon, contains_byte_iff, slash, before_byte] at port
  split at port
  · rename_i there
    rw [colon, slash, before_byte, after_byte, if_pos ((List.takeWhile_prefix _).subset port)]
    have whole := congrArg List.length (List.takeWhile_append_dropWhile (p := (· != ch '/')) (l := temp))
    have first : (temp.takeWhile (· != ch ':')).length < (temp.takeWhile (· != ch '/')).length := by
      have inside : ¬ ((temp.takeWhile (· != ch '/')).takeWhile (· != ch ':')).length =
          (temp.takeWhile (· != ch '/')).length := by
        intro all
        have none_ := List.takeWhile_eq_self_iff.mp ((List.takeWhile_prefix _).eq_of_length all) _ port
        simp at none_
      have shorter := (List.takeWhile_prefix (l := temp.takeWhile (· != ch '/')) (· != ch ':')).length_le
      rw [← List.takeWhile_append_dropWhile (p := (· != ch '/')) (l := temp), List.takeWhile_append, if_neg inside,
        List.takeWhile_append_dropWhile]
      omega
    have rest : 0 < (temp.dropWhile (· != ch '/')).length := by
      rw [List.length_pos_iff, ne_eq, List.dropWhile_eq_nil_iff]
      intro none_
      have other := none_ _ there
      simp at other
    rw [List.length_append] at whole
    simp only [List.length_append, List.length_drop, List.length_singleton]
    omega
  · cases port

theorem tidy_length (host : Host) (filters : Int) (temp : Str) : (tidy host filters temp).length ≤ temp.length := by
  have chopped (t : Str) : (if filters ≠ 32 ∧ endsWith t (str "/") then chop t else t).length ≤ t.length := by
    split
    · exact (List.dropLast_prefix t).length_le
    · exact Nat.le_refl _
  have plain (t : Str) : (if filters ≠ 32 ∧ startsWith t (str "ftp://") then after t (str "ftp://") else t).length ≤
      t.length := by
    split
    · exact (after_suffix t _).length_le
    · exact Nat.le_refl _
  have portless (t : Str) : (if filters = 1 ∧ contains (before t (str "/")) (str ":") ∧ host.matchPort t then
      before t (str ":") ++ str "/" ++ after t (str "/") else t).length ≤ t.length := by
    split
    · rename_i port
      exact portless_length port.2.1
    · exact Nat.le_refl _
  have lower (t : Str) : (if filters ≠ 32 then toLower t else t).length ≤ t.length := by
    split
    · exact Nat.le_of_eq (List.length_map _)
    · exact Nat.le_refl _
  exact (lower _).trans ((portless _).trans ((plain _).trans (chopped temp)))

theorem entry_length {μ : Type} {loader : Loader μ} {linebuffer temp : Str}
    (entry : parseLine loader.source linebuffer = .entry temp) :
    entryLength loader.host loader.kind loader.filters temp ≤ (cstr linebuffer).length ∧
      (cstr linebuffer).length ≤ 2048 := by
  unfold parseLine at entry
  simp only at entry
  split at entry
  · cases entry
  · split at entry
    · cases entry
    · rename_i fits
      refine ⟨?_, Nat.not_lt.mp fits⟩
      have tidied : entryLength loader.host loader.kind loader.filters temp ≤ temp.length := by
        unfold entryLength
        split
        · exact Nat.le_refl _
        · exact tidy_length _ _ _
      have cut : temp.length ≤ (cstr linebuffer).length := by
        split at entry
        · split at entry
          · cases entry
          · split at entry
            · cases entry
            · split at entry <;> cases entry
        · split at entry
          · split at entry <;> cases entry
          · cases entry
            exact (removeWhiteSpace_length _).trans (stripComment_length _)
      exact tidied.trans cut

/- The block. -/

def Block.Holds (b : Block) : Prop := b.data_length ≤ b.data_memory

/-- Nothing is written past the block, whenever the loop is looked at. -/
def Loader.Safe {μ : Type} (loader : Loader μ) (l : Load μ) : Prop :=
  ∀ rounds, (loader.runs rounds l).load.block.Holds

def IStream.left (s : IStream) : Nat := if s.eof then 0 else s.rest.length + 1

section Blocks
variable {μ : Type} {loader : Loader μ} {l : Load μ}

theorem safe_iff : loader.Safe l ↔ l.block.Holds ∧
    if (loader.round l).answer.isNone then loader.Safe (loader.round l).load
    else (loader.round l).load.block.Holds := by
  constructor
  · intro safe
    refine ⟨safe 0, ?_⟩
    split
    · rename_i next
      intro rounds
      have later := safe (rounds + 1)
      rw [Loader.runs, Option.isNone_iff_eq_none.mp next] at later
      exact later
    · rename_i over_
      have later := safe 1
      rw [Loader.runs] at later
      cases answer : (loader.round l).answer with
      | none => simp [answer] at over_
      | some a =>
        rw [answer] at later
        exact later
  · intro step rounds
    cases rounds with
    | zero => exact step.1
    | succ rounds =>
      rw [Loader.runs]
      cases answer : (loader.round l).answer with
      | none =>
        have later := step.2
        rw [answer] at later
        exact later rounds
      | some a =>
        have later := step.2
        rw [answer] at later
        exact later

theorem noteLine_cases (loader : Loader μ) (linebuffer : Str) (b : Block) :
    b.data_memory ≤
        (noteLine loader.host loader.kind loader.filters (parseLine loader.source linebuffer) b).data_memory ∧
      ((noteLine loader.host loader.kind loader.filters (parseLine loader.source linebuffer) b).data_length =
          b.data_length ∨
        ((noteLine loader.host loader.kind loader.filters (parseLine loader.source linebuffer) b).data_length ≤
          b.data_length + (cstr linebuffer).length + 1 ∧ (cstr linebuffer).length ≤ 2048)) := by
  cases line : parseLine loader.source linebuffer with
  | entry temp =>
    obtain ⟨short, fits⟩ := entry_length line
    simp only [noteLine]
    split
    · split
      · exact ⟨Nat.le_refl _, .inl rfl⟩
      · unfold addItem addToItemList
        refine ⟨?_, .inr ⟨?_, fits⟩⟩
        · split
          · exact Nat.le_add_right _ _
          · exact Nat.le_refl _
        · split <;> exact Nat.add_le_add_right (Nat.add_le_add_left short _) 1
    · exact ⟨Nat.le_refl _, .inl rfl⟩
  | skip | endlist | timeTag | category | another => exact ⟨Nat.le_refl _, .inl rfl⟩

theorem behind_left (text : Str) : (nextLine text).length + 1 + (behind text).left = (IStream.opened text).left := by
  have front : (nextLine text).length ≤ text.length := (List.takeWhile_prefix _).length_le
  unfold behind
  split
  · simp [IStream.left, IStream.opened]
    omega
  · simp [IStream.left, IStream.opened]
    omega

theorem cstr_take_length (line : Str) (n : Nat) : (cstr (line.take n)).length ≤ line.length :=
  ((cstr_isPrefix _).length_le).trans (List.length_take_le' n line)

theorem round_room (room : l.block.data_length + l.input.left ≤ l.block.data_memory) :
    (loader.round l).load.block.data_length + (loader.round l).load.input.left ≤
      (loader.round l).load.block.data_memory := by
  by_cases ended : l.input.eof = true
  · rw [round_ended ended]
    exact room
  · by_cases failed : l.input.fail = true
    · rw [round_stuck failed (by simpa using ended)]
      exact room
    · have here : l.input = .opened l.input.rest := by
        obtain ⟨⟨rest, eof, fail⟩, block, list, others⟩ := l
        simp only [Bool.not_eq_true] at ended failed
        cases ended
        cases failed
        rfl
      obtain ⟨-, short, long⟩ := getline_opened l.input.rest
      obtain ⟨more, most⟩ := noteLine_cases loader ((nextLine l.input.rest).take 19999) l.block
      have cut := cstr_take_length (nextLine l.input.rest) 19999
      have left := behind_left l.input.rest
      rw [← here] at left
      rw [round_opened here]
      simp only [lineRead]
      by_cases fits : (nextLine l.input.rest).length < 20000
      · rw [short fits]
        omega
      · have front : (nextLine l.input.rest).length ≤ l.input.rest.length := (List.takeWhile_prefix _).length_le
        have rest : (getline 20000 (.opened l.input.rest)).2.left = l.input.rest.length - 19999 + 1 := by
          rw [long (Nat.not_lt.mp fits)]
          simp [IStream.left]
        have all : l.input.left = l.input.rest.length + 1 := by
          rw [here]
          rfl
        rw [rest]
        omega

theorem runs_room (room : l.block.data_length + l.input.left ≤ l.block.data_memory) (rounds : Nat) :
    (loader.runs rounds l).load.block.data_length + (loader.runs rounds l).load.input.left ≤
      (loader.runs rounds l).load.block.data_memory := by
  induction rounds generalizing l with
  | zero => exact room
  | succ rounds ih =>
    rw [Loader.runs]
    split
    · exact ih (round_room room)
    · exact round_room room

/-- A block of the length of the file is never too small. -/
theorem file_safe (text : Str) (list : Contents) (others : μ) :
    loader.Safe ⟨.opened text, ⟨text.length + 2, 0, 2⟩, list, others⟩ := by
  intro rounds
  have start : 0 + (IStream.opened text).left ≤ text.length + 2 := by
    simp [IStream.left, IStream.opened]
  have room := @runs_room _ loader ⟨.opened text, ⟨text.length + 2, 0, 2⟩, list, others⟩ start rounds
  unfold Block.Holds
  omega

end Blocks

/- The items of a list, and what the block comes to. -/

def Kind.plain (kind : Kind) : Bool := !(kind.isip || kind.istime || kind.ismap)

def itemOf {μ : Type} (loader : Loader μ) (line : Line) : List Nat :=
  match line with
  | .entry temp =>
    let len := entryLength loader.host loader.kind loader.filters temp
    if Kind.plain loader.kind && len > 0 then [len] else []
  | _ => []

def Loader.added {μ : Type} (loader : Loader μ) : List Str → Contents × μ → List Nat
  | [], _ => []
  | linebuffer :: rest, st =>
    let step := loader.lineStep (lineRead loader linebuffer) st
    itemOf loader (lineRead loader linebuffer) ++
      if step.1.isNone && linebuffer.length < 20000 then loader.added rest step.2 else []

def itemStep (b : Block) (len : Nat) : Block := addItem len { b with mem_used := (b.mem_used + len + 1) % 2 ^ 32 }

def Fits : Block → List Nat → Prop
  | b, [] => b.Holds
  | b, len :: lens => b.Holds ∧ Fits (itemStep b len) lens

def used (lens : List Nat) : Nat := (lens.map (· + 1)).sum

/-- From where the block is full up to two bytes, the items take no more than 2048 bytes each, and two. -/
def Spare (lens : List Nat) : Prop :=
  ∀ pre more, pre ++ more <+: lens → 4094 ≤ used pre → 2048 ∣ used pre + 2 → used more ≤ 2048 * more.length + 2

theorem used_append (a b : List Nat) : used (a ++ b) = used a + used b := by simp [used]

def stdinBlock : Block := ⟨4096, 0, 2⟩

theorem fits_iff (lens : List Nat) : ∀ b : Block, Fits b lens ↔ ∀ pre, pre <+: lens → (pre.foldl itemStep b).Holds := by
  induction lens with
  | nil =>
    intro b
    simp [Fits]
  | cons len lens ih =>
    intro b
    rw [Fits, ih]
    constructor
    · intro holds pre front
      cases pre with
      | nil => exact holds.1
      | cons first pre =>
        obtain ⟨rfl, later⟩ := List.cons_prefix_cons.mp front
        exact holds.2 pre later
    · intro holds
      exact ⟨holds [] (List.nil_prefix), fun pre front => holds (len :: pre) (List.cons_prefix_cons.mpr ⟨rfl, front⟩)⟩

structure Shape (lens : List Nat) (b : Block) : Prop where
  length : b.data_length = used lens
  count : b.mem_used = (2 + used lens) % 2 ^ 32
  multiple : 2048 ∣ b.data_memory
  least : 4096 ≤ b.data_memory
  most : b.data_memory = 4096 ∨ b.data_memory ≤ used lens + 2049

theorem itemStep_cases (b : Block) (len : Nat) : (itemStep b len).data_length = b.data_length + len + 1 ∧
    (itemStep b len).mem_used = (b.mem_used + len + 1) % 2 ^ 32 ∧
    (((b.mem_used + len + 1) % 2 ^ 32 > b.data_memory ∧ (itemStep b len).data_memory = b.data_memory + 2048) ∨
      ((b.mem_used + len + 1) % 2 ^ 32 ≤ b.data_memory ∧ (itemStep b len).data_memory = b.data_memory)) := by
  unfold itemStep addItem
  simp only
  split
  · rename_i small
    exact ⟨rfl, rfl, .inl ⟨small, rfl⟩⟩
  · rename_i enough
    exact ⟨rfl, rfl, .inr ⟨Nat.not_lt.mp enough, rfl⟩⟩

theorem shape (lens : List Nat) : Shape lens (lens.foldl itemStep stdinBlock) := by
  induction lens using List.reverseRecOn with
  | nil => exact ⟨rfl, rfl, by decide, by decide, .inl rfl⟩
  | append_singleton lens len ih =>
    rw [List.foldl_append, List.foldl_cons, List.foldl_nil]
    obtain ⟨length, count, multiple, least, most⟩ := ih
    obtain ⟨length', count', memory⟩ := itemStep_cases (lens.foldl itemStep stdinBlock) len
    have all : used (lens ++ [len]) = used lens + len + 1 := by simp [used, Nat.add_assoc]
    have sum : (2 + used (lens ++ [len])) % 2 ^ 32 = ((lens.foldl itemStep stdinBlock).mem_used + len + 1) % 2 ^ 32 := by
      rw [all, count]
      omega
    refine ⟨by omega, by omega, ?_, ?_, ?_⟩
    · rcases memory with ⟨-, grown⟩ | ⟨-, same⟩ <;> omega
    · rcases memory with ⟨-, grown⟩ | ⟨-, same⟩ <;> omega
    · rcases memory with ⟨small, grown⟩ | ⟨-, same⟩ <;> omega

theorem memory_most (lens more : List Nat) : ((lens ++ more).foldl itemStep stdinBlock).data_memory ≤
    (lens.foldl itemStep stdinBlock).data_memory + 2048 * more.length := by
  induction more using List.reverseRecOn with
  | nil => simp
  | append_singleton more len ih =>
    rw [← List.append_assoc, List.foldl_append, List.foldl_cons, List.foldl_nil, List.length_append, List.length_singleton]
    obtain ⟨-, -, memory⟩ := itemStep_cases ((lens ++ more).foldl itemStep stdinBlock) len
    rcases memory with ⟨-, grown⟩ | ⟨-, same⟩ <;> omega

theorem spare_of_fits {lens : List Nat} (fits : Fits stdinBlock lens) : Spare lens := by
  intro pre more front full multiple
  have holds := (fits_iff lens stdinBlock).mp fits _ front
  have most := memory_most pre more
  have before := shape pre
  have behind := (shape (pre ++ more)).length
  rw [used_append] at behind
  unfold Block.Holds at holds
  have small : (pre.foldl itemStep stdinBlock).data_memory ≤ used pre + 2 := by
    obtain ⟨blocks, memory⟩ := before.multiple
    obtain ⟨places, sum⟩ := multiple
    have bound := before.most
    omega
  omega

/-- Either two bytes are left, or the block has been full up to two bytes and has grown with each item since. -/
def Behind (lens : List Nat) (b : Block) : Prop :=
  used lens + 2 ≤ b.data_memory ∨ ∃ pre more, lens = pre ++ more ∧ 4094 ≤ used pre ∧ 2048 ∣ used pre + 2 ∧
    b.data_memory = used pre + 2 + 2048 * more.length

theorem behind_of_low (lens : List Nat) (low : ∀ len ∈ lens, len ≤ 2048) (short : used lens + 2 < 2 ^ 32) :
    Behind lens (lens.foldl itemStep stdinBlock) := by
  induction lens using List.reverseRecOn with
  | nil => exact .inl (by decide)
  | append_singleton lens len ih =>
    have all : used (lens ++ [len]) = used lens + len + 1 := by simp [used, Nat.add_assoc]
    have small := low len (by simp)
    have sofar := ih (fun other member => low other (List.mem_append_left _ member)) (by omega)
    have before := shape lens
    obtain ⟨-, -, memory⟩ := itemStep_cases (lens.foldl itemStep stdinBlock) len
    have count : ((lens.foldl itemStep stdinBlock).mem_used + len + 1) % 2 ^ 32 = used lens + len + 3 := by
      rw [before.count]
      omega
    rw [count] at memory
    rw [List.foldl_append, List.foldl_cons, List.foldl_nil]
    unfold Behind at sofar ⊢
    rcases Nat.lt_or_ge (lens.foldl itemStep stdinBlock).data_memory (used lens + 2) with over_ | room
    · -- the block stays behind, so that it grows
      obtain ⟨pre, more, rfl, full, multiple, exact_⟩ := sofar.resolve_left (by omega)
      refine .inr ⟨pre, more ++ [len], (List.append_assoc _ _ _), full, multiple, ?_⟩
      rw [List.length_append, List.length_singleton]
      omega
    · by_cases enough : used (lens ++ [len]) + 2 ≤ (itemStep (lens.foldl itemStep stdinBlock) len).data_memory
      · exact .inl enough
      · -- no byte more than the two was left, and the item needs one more than the block grows by
        refine .inr ⟨lens, [len], rfl, ?_, ?_, ?_⟩
        · have least := before.least
          omega
        · have multiple := before.multiple
          omega
        · rw [List.length_singleton]
          omega

theorem fits_of_spare {lens : List Nat} (low : ∀ len ∈ lens, len ≤ 2048) (short : used lens + 2 < 2 ^ 32)
    (spare : Spare lens) : Fits stdinBlock lens := by
  rw [fits_iff]
  intro pre front
  have part : used pre ≤ used lens := by
    obtain ⟨rest, rfl⟩ := front
    rw [used_append]
    exact Nat.le_add_right _ _
  have behind := behind_of_low pre (fun len member => low len (front.subset member)) (by omega)
  have length := (shape pre).length
  unfold Block.Holds
  rcases behind with room | ⟨first, more, rfl, full, multiple, exact_⟩
  · omega
  · have most := spare first more front full multiple
    rw [used_append] at length
    omega

section Items
variable {μ : Type} {loader : Loader μ} {l : Load μ}

theorem itemOf_cases (loader : Loader μ) (line : Line) : itemOf loader line = [] ∨ ∃ len, itemOf loader line = [len] := by
  cases line with
  | entry temp =>
    simp only [itemOf]
    split
    · exact .inr ⟨_, rfl⟩
    · exact .inl rfl
  | skip | endlist | timeTag | category | another => exact .inl rfl

theorem note_plain (plain : Kind.plain loader.kind = true) (line : Line) (b : Block) :
    noteLine loader.host loader.kind loader.filters line b = (itemOf loader line).foldl itemStep b := by
  have kinds : (loader.kind.isip || loader.kind.istime || loader.kind.ismap) = false := by simpa [Kind.plain] using plain
  cases line with
  | entry temp =>
    simp only [noteLine, itemOf, plain, Bool.true_and, kinds, Bool.false_eq_true, if_false]
    split
    · rename_i some_
      rw [if_pos (decide_eq_true some_)]
      rfl
    · rename_i none_
      rw [if_neg (by simpa using none_)]
      rfl
  | skip | endlist | timeTag | category | another => rfl

theorem fits_behind {b : Block} {here : List Nat} (most : here = [] ∨ ∃ len, here = [len]) (more : List Nat) :
    Fits b (here ++ more) ↔ b.Holds ∧ Fits (here.foldl itemStep b) more := by
  rcases most with rfl | ⟨len, rfl⟩
  · have holds : Fits b more → b.Holds := by
      intro fits
      cases more with
      | nil => exact fits
      | cons => exact fits.1
    exact ⟨fun fits => ⟨holds fits, fits⟩, fun fits => fits.2⟩
  · exact Iff.rfl

theorem safe_stuck (failed : l.input.fail = true) (open_ : l.input.eof = false) : loader.Safe l ↔ l.block.Holds := by
  unfold Loader.Safe
  simp only [runs_stuck failed open_, forall_const]

theorem safe_iff_fits (plain : Kind.plain loader.kind = true) (lines : List Str) : ∀ {l : Load μ}, At l.input lines →
    (loader.Safe l ↔ Fits l.block (loader.added lines (l.list, l.others))) := by
  induction lines with
  | nil =>
    intro l place
    rcases at_cases place with ⟨ended, -⟩ | ⟨text, rest, -, none_, -⟩
    · rw [safe_iff, round_ended ended]
      simp [Loader.added, Fits]
    · cases none_
  | cons linebuffer rest ih =>
    intro l place
    rcases at_cases place with ⟨-, none_⟩ | ⟨text, rest', here, same, later⟩
    · cases none_
    · cases same
      have block : (loader.round l).load.block = (itemOf loader (lineRead loader (nextLine text))).foldl itemStep l.block := by
        rw [round_opened here]
        exact note_plain plain _ _
      rw [safe_iff, Loader.added, fits_behind (itemOf_cases _ _), ← block]
      refine and_congr_right fun _ => ?_
      cases (onLine here later : OnLine loader l text rest) with
      | ends answer over_ step =>
        rw [over_, step]
        exact Iff.rfl
      | stuck next step long failed open_ =>
        have far : ¬ (nextLine text).length < 20000 := by omega
        rw [next, step]
        simp only [far, decide_false, Bool.and_false, Bool.false_eq_true, if_false]
        exact safe_stuck failed open_
      | further next step short later =>
        have state : ((loader.round l).load.list, (loader.round l).load.others) =
            (loader.lineStep (lineRead loader (nextLine text)) (l.list, l.others)).2 := by
          rw [round_opened here]
        have ih := ih later
        rw [next, step]
        simp only [short, decide_true, Bool.and_true, Option.isNone_none, if_true]
        rw [ih, state]

theorem safe_other (other : Kind.plain loader.kind = false) : ∀ (rounds : Nat) {l : Load μ},
    (loader.runs rounds l).load.block.data_length = l.block.data_length ∧
      (loader.runs rounds l).load.block.data_memory = l.block.data_memory := by
  have kinds : (loader.kind.isip || loader.kind.istime || loader.kind.ismap) = true := by
    cases all : (loader.kind.isip || loader.kind.istime || loader.kind.ismap) with
    | true => rfl
    | false => simp [Kind.plain, all] at other
  have step (l : Load μ) : (loader.round l).load.block.data_length = l.block.data_length ∧
      (loader.round l).load.block.data_memory = l.block.data_memory := by
    unfold Loader.round
    split
    · exact ⟨rfl, rfl⟩
    · simp only
      cases parseLine loader.source (getline 20000 l.input).1 with
      | entry temp =>
        simp only [noteLine, kinds, if_true]
        split <;> exact ⟨rfl, rfl⟩
      | skip | endlist | timeTag | category | another => exact ⟨rfl, rfl⟩
  intro rounds
  induction rounds with
  | zero => exact ⟨rfl, rfl⟩
  | succ rounds ih =>
    intro l
    rw [Loader.runs]
    split
    · exact ⟨ih.1.trans (step l).1, ih.2.trans (step l).2⟩
    · exact step l

theorem added_low (lines : List Str) : ∀ st : Contents × μ, ∀ len ∈ loader.added lines st, len ≤ 2048 := by
  induction lines with
  | nil =>
    intro st len member
    cases member
  | cons linebuffer rest ih =>
    intro st len member
    rw [Loader.added] at member
    rcases List.mem_append.mp member with here | later
    · unfold itemOf at here
      split at here
      · rename_i temp line
        obtain ⟨short, fits⟩ := entry_length line
        simp only at here
        split at here
        · rw [List.mem_singleton.mp here]
          omega
        · cases here
      · cases here
    · split at later
      · exact ih _ len later
      · cases later

theorem added_other (other : Kind.plain loader.kind = false) (lines : List Str) : ∀ st : Contents × μ,
    loader.added lines st = [] := by
  have none_ (line : Line) : itemOf loader line = [] := by
    unfold itemOf
    split
    · simp [other]
    · rfl
  induction lines with
  | nil => exact fun _ => rfl
  | cons linebuffer rest ih =>
    intro st
    rw [Loader.added]
    simp only [none_, ih, List.nil_append, ite_self]

/-- The block of a file is never too small. That of a list from stdin is not as long as its count does not wrap, if the items
leave it spare; else it is too small at one of them. -/
theorem block_holds_iff_spare (loader : Loader μ) (text : Str) (list : Contents) (others : μ) :
    loader.Safe ⟨.opened text, ⟨text.length + 2, 0, 2⟩, list, others⟩ ∧
      (Spare (loader.added (textLines text) (list, others)) ∧ used (loader.added (textLines text) (list, others)) + 2 < 2 ^ 32 →
        loader.Safe ⟨.opened text, stdinBlock, list, others⟩) ∧
      (loader.Safe ⟨.opened text, stdinBlock, list, others⟩ →
        Spare (loader.added (textLines text) (list, others))) := by
  have place : At (IStream.opened text) (textLines text) := .opened text
  refine ⟨file_safe text list others, ?_, ?_⟩
  · intro condition
    cases plain : Kind.plain loader.kind with
    | true => exact (safe_iff_fits plain _ place).mpr (fits_of_spare (added_low _ _) condition.2 condition.1)
    | false =>
      intro rounds
      obtain ⟨length, memory⟩ := safe_other plain rounds (l := ⟨.opened text, stdinBlock, list, others⟩)
      unfold Block.Holds
      rw [length, memory]
      exact Nat.zero_le 4096
  · intro safe
    cases plain : Kind.plain loader.kind with
    | true => exact spare_of_fits ((safe_iff_fits plain _ place).mp safe)
    | false =>
      rw [added_other plain]
      intro pre more front full
      obtain ⟨rfl, rfl⟩ := List.append_eq_nil_iff.mp (List.prefix_nil.mp front)
      exact absurd full (by decide)

end Items

def stdinLoader : Loader Unit := { plainLoader with source := ⟨[], [], true⟩ }

def fullLines : Str := [2046, 2046, 2048, 2048, 2048].flatMap fun n => List.replicate n (ch 'a') ++ [ch '\n']

/-- The last item is written one byte past the block. -/
theorem full_lines_past_block : ¬ stdinLoader.Safe ⟨.opened fullLines, stdinBlock, .empty, ()⟩ := by
  have items : stdinLoader.added (textLines fullLines) (.empty, ()) = [2046, 2046, 2048, 2048, 2048] := by decide +kernel
  intro safe
  have spare := spare_of_fits ((safe_iff_fits rfl _ (.opened fullLines)).mp safe)
  rw [items] at spare
  have most := spare [2046, 2046] [2048, 2048, 2048] (List.prefix_refl _) (by decide) (by decide)
  exact absurd most (by decide)

end GuardianListLoads
