import E2Guardian.Strings

/- BackedStore: data in RAM up to one size, then in a temporary file up to another. Writes may be short or
   interrupted; nothing else goes wrong with the file. The name of the file lies in a buffer that is given back
   to the allocator twice. -/
namespace GuardianBackedStore
open GuardianString

/-- What `write` does when it is asked for at least one byte: so many and one more, or EINTR. -/
inductive WriteResult where
  | wrote (more : Nat)
  | interrupted

/-- Until all is written. The results are those of the next calls; after the last of them all is written at once. -/
def writeLoop (data file : Str) : List WriteResult → Str × List WriteResult
  | [] => (file ++ data, [])
  | .interrupted :: rest => if data = [] then (file, rest) else writeLoop data file rest
  | .wrote more :: rest =>
    if data.length ≤ more + 1 then (file ++ data, rest)
    else writeLoop (data.drop (more + 1)) (file ++ data.take (more + 1)) rest

inductive Failure where
  | aborted
  | finalised
  | notFinalised
  | notMapped

inductive Block where
  | held
  | freed

def free (tolerant : Bool) : Block → Except Failure Block
  | .held => .ok .freed
  | .freed => if tolerant then .ok .freed else .error .aborted

structure BackedStore where
  rambuf : Str
  file : Option Str -- none for a negative fd
  length : Nat
  map : Option Str -- none for MAP_FAILED
  ramsize : Nat
  disksize : Nat

def BackedStore.made (ramsize disksize : Nat) : BackedStore := ⟨[], none, 0, none, ramsize, disksize⟩

section Store
variable (tolerant : Bool)

/-- What RAM held goes to the file. `free(filename)` frees the buffer of `filename_str`, which the end of the block
frees as well. -/
def dump (s : BackedStore) (w : List WriteResult) : Except Failure (BackedStore × List WriteResult) := do
  let filename ← free tolerant .held
  let (file, w) := if s.rambuf = [] then ([], w) else writeLoop s.rambuf [] w
  let _ ← free tolerant filename
  return ({ s with file := some file, length := s.rambuf.length, rambuf := [] }, w)

def appendDisk (data file : Str) (s : BackedStore) (w : List WriteResult) :
    Except Failure (Bool × BackedStore × List WriteResult) :=
  if s.map.isSome then .error .finalised
  else if data.length + s.length > s.disksize then .ok (false, s, w)
  else
    let (file, w) := writeLoop data file w
    .ok (true, { s with file := some file, length := s.length + data.length }, w)

def append (data : Str) (s : BackedStore) (w : List WriteResult) : Except Failure (Bool × BackedStore × List WriteResult) :=
  match s.file with
  | some file => appendDisk data file s w
  | none =>
    if s.rambuf.length + data.length > s.ramsize then
      if s.rambuf.length + data.length > s.disksize then .ok (false, s, w)
      else do
        let (s, w) ← dump tolerant s w
        appendDisk data (s.file.getD []) s w
    else .ok (true, { s with rambuf := s.rambuf ++ data }, w)

def getLength (s : BackedStore) : Nat := if s.file.isSome then s.length else s.rambuf.length

def finalise (s : BackedStore) : Except Failure BackedStore :=
  match s.file with
  | none => .ok s
  | some file => if s.length = 0 then .error .notMapped else .ok { s with map := some (file.take s.length) }

def getData (s : BackedStore) : Except Failure Str :=
  if s.file.isNone then .ok s.rambuf
  else
    match s.map with
    | none => .error .notFinalised
    | some data => .ok data

def appends : List Str → BackedStore → List WriteResult → Except Failure (List Bool × BackedStore)
  | [], s, _ => .ok ([], s)
  | data :: rest, s, w => do
    let (stored, s, w) ← append tolerant data s w
    let (results, s) ← appends rest s w
    return (stored :: results, s)

end Store

def accepted : List Str → List Bool → Str
  | data :: rest, stored :: results => (if stored then data else []) ++ accepted rest results
  | _, _ => []

def StoresAll (tolerant : Bool) (ramsize disksize : Nat) (datas : List Str) (w : List WriteResult) : Prop :=
  ∃ results s s', appends tolerant datas (.made ramsize disksize) w = .ok (results, s) ∧ finalise s = .ok s' ∧
    getData s' = .ok (accepted datas results) ∧ getLength s' = (accepted datas results).length

/-- Each append fits into RAM or is refused, so that no file is opened. -/
def StaysInRam (ramsize disksize : Nat) : Nat → List Str → Prop
  | _, [] => True
  | held, data :: rest =>
    if held + data.length ≤ ramsize then StaysInRam ramsize disksize (held + data.length) rest
    else disksize < held + data.length ∧ StaysInRam ramsize disksize held rest

theorem writeLoop_all (w : List WriteResult) : ∀ data file : Str, (writeLoop data file w).1 = file ++ data := by
  induction w with
  | nil => exact fun _ _ => rfl
  | cons result rest ih =>
    intro data file
    cases result with
    | interrupted =>
      rw [writeLoop]
      split
      · rename_i none_
        rw [none_, List.append_nil]
      · exact ih data file
    | wrote more =>
      rw [writeLoop]
      split
      · rfl
      · rw [ih, List.append_assoc, List.take_append_drop]

/-- The store holds so much, under its sizes and not finalised. -/
structure Holding (ramsize disksize : Nat) (content : Str) (s : BackedStore) : Prop where
  ram : s.ramsize = ramsize
  disk : s.disksize = disksize
  unmapped : s.map = none
  inRam : s.file = none → s.rambuf = content
  onDisk : ∀ file ∈ s.file, file = content ∧ s.length = content.length ∧ content ≠ []

theorem made_holding (ramsize disksize : Nat) : Holding ramsize disksize [] (.made ramsize disksize) :=
  ⟨rfl, rfl, rfl, fun _ => rfl, fun _ none_ => by cases none_⟩

section Appends
variable {tolerant : Bool} {ramsize disksize : Nat} {content : Str} {s : BackedStore}

theorem appendDisk_cases {file : Str} (data : Str) (unmapped : s.map = none) (same : file = content)
    (length : s.length = content.length) (some_ : content ++ data ≠ []) (w : List WriteResult) :
    (s.disksize < content.length + data.length ∧ appendDisk data file s w = .ok (false, s, w)) ∨
      (content.length + data.length ≤ s.disksize ∧ ∃ s' w', appendDisk data file s w = .ok (true, s', w') ∧
        Holding s.ramsize s.disksize (content ++ data) s' ∧ s'.file ≠ none) := by
  have written := writeLoop_all w data file
  have notFinalised : ¬s.map.isSome = true := by simp [unmapped]
  rw [appendDisk, if_neg notFinalised]
  by_cases large : data.length + s.length > s.disksize
  · exact Or.inl ⟨by omega, by rw [if_pos large]⟩
  · rw [if_neg large]
    refine Or.inr ⟨by omega, _, _, rfl, ⟨rfl, rfl, unmapped, fun closed => (by cases closed), ?_⟩, by simp⟩
    intro file' there
    obtain rfl := Option.some.inj there
    exact ⟨by rw [written, same], by rw [List.length_append, length], some_⟩

/-- The file holds what RAM held, unless the buffer of its name cannot be freed again. -/
theorem dump_eq (tolerant : Bool) (s : BackedStore) (w : List WriteResult) : ∃ w', dump tolerant s w =
    if tolerant then .ok (⟨[], some s.rambuf, s.rambuf.length, s.map, s.ramsize, s.disksize⟩, w') else .error .aborted := by
  have file : (if s.rambuf = [] then (([] : Str), w) else writeLoop s.rambuf [] w).1 = s.rambuf := by
    split
    · rename_i empty
      exact empty.symm
    · exact writeLoop_all w s.rambuf []
  refine ⟨(if s.rambuf = [] then (([] : Str), w) else writeLoop s.rambuf [] w).2, ?_⟩
  cases tolerant with
  | false => rfl
  | true =>
    change Except.ok ((⟨[], some (if s.rambuf = [] then (([] : Str), w) else writeLoop s.rambuf [] w).1,
      s.rambuf.length, s.map, s.ramsize, s.disksize⟩ : BackedStore), _) = _
    rw [file]
    rfl

inductive Appended (tolerant : Bool) (ramsize disksize : Nat) (content data : Str) (s : BackedStore) (w : List WriteResult) :
    Except Failure (Bool × BackedStore × List WriteResult) → Prop
  | kept (closed : s.file = none) (fits : content.length + data.length ≤ ramsize) {s' : BackedStore}
      (holding : Holding ramsize disksize (content ++ data) s') (closed' : s'.file = none) :
      Appended tolerant ramsize disksize content data s w (.ok (true, s', w))
  | refused (large : disksize < content.length + data.length)
      (full : s.file = none → ramsize < content.length + data.length) :
      Appended tolerant ramsize disksize content data s w (.ok (false, s, w))
  | written {s' : BackedStore} {w' : List WriteResult} (holding : Holding ramsize disksize (content ++ data) s')
      (opened : s'.file ≠ none) (here : s.file = none → tolerant = true) :
      Appended tolerant ramsize disksize content data s w (.ok (true, s', w'))
  | aborted (closed : s.file = none) (full : ramsize < content.length + data.length)
      (small : content.length + data.length ≤ disksize) (strict : tolerant = false) :
      Appended tolerant ramsize disksize content data s w (.error .aborted)

theorem append_cases (tolerant : Bool) (holding : Holding ramsize disksize content s) (data : Str) (w : List WriteResult) :
    Appended tolerant ramsize disksize content data s w (append tolerant data s w) := by
  obtain ⟨rfl, rfl, unmapped, inRam, onDisk⟩ := holding
  rw [append]
  cases place : s.file with
  | some file =>
    have opened : s.file ≠ none := by simp [place]
    obtain ⟨same, length, some_⟩ := onDisk file place
    rcases appendDisk_cases data unmapped same length (fun empty => some_ (List.append_eq_nil_iff.mp empty).1) w with
      ⟨large, run⟩ | ⟨-, s', w', run, holding', opened'⟩
    · dsimp only
      rw [run]
      exact .refused large fun closed => absurd closed opened
    · dsimp only
      rw [run]
      exact .written holding' opened' fun closed => absurd closed opened
  | none =>
    obtain rfl := inRam place
    dsimp only
    by_cases full : s.rambuf.length + data.length > s.ramsize
    · rw [if_pos full]
      by_cases large : s.rambuf.length + data.length > s.disksize
      · rw [if_pos large]
        exact .refused large fun _ => full
      · rw [if_neg large]
        obtain ⟨w', moved⟩ := dump_eq tolerant s w
        rw [moved]
        cases strict : tolerant with
        | false => exact .aborted place full (Nat.not_lt.mp large) rfl
        | true =>
          have some_ : s.rambuf ++ data ≠ [] := by
            intro empty
            have length := congrArg List.length empty
            rw [List.length_append, List.length_nil] at length
            omega
          rcases appendDisk_cases (s := ⟨[], some s.rambuf, s.rambuf.length, s.map, s.ramsize, s.disksize⟩) data unmapped rfl rfl
              some_ w' with ⟨refused, -⟩ | ⟨-, s', w'', run, holding', opened'⟩
          · exact absurd refused large
          · have whole :
                (Except.ok ((⟨[], some s.rambuf, s.rambuf.length, s.map, s.ramsize, s.disksize⟩ : BackedStore), w') >>=
                    fun x => appendDisk data (x.1.file.getD []) x.1 x.2) = Except.ok (true, s', w'') := run
            rw [if_pos rfl]
            exact whole ▸ .written holding' opened' fun _ => rfl
    · rw [if_neg full]
      refine .kept place (Nat.not_lt.mp full) ⟨rfl, rfl, unmapped, fun _ => rfl, ?_⟩ rfl
      intro file here
      cases here

theorem finalise_holding (holding : Holding ramsize disksize content s) :
    ∃ s', finalise s = .ok s' ∧ getData s' = .ok content ∧ getLength s' = content.length := by
  cases place : s.file with
  | none =>
    refine ⟨s, by rw [finalise, place], ?_, ?_⟩
    · rw [getData, place, holding.inRam place]
      rfl
    · rw [getLength, place, holding.inRam place]
      rfl
  | some file =>
    obtain ⟨rfl, length, some_⟩ := holding.onDisk file place
    have filled : s.length ≠ 0 := fun zero => some_ (List.length_eq_zero_iff.mp (length.symm.trans zero))
    refine ⟨{ s with map := some (file.take s.length) }, ?_, ?_, ?_⟩
    · rw [finalise, place]
      dsimp only
      rw [if_neg filled]
    · rw [getData, place, length, List.take_length]
      rfl
    · rw [getLength, place]
      exact length

end Appends

theorem appends_holding {tolerant : Bool} {ramsize disksize : Nat} (datas : List Str) :
    ∀ {content : Str} {s : BackedStore} {w : List WriteResult}, Holding ramsize disksize content s →
    (tolerant = true ∨ s.file = none ∧ StaysInRam ramsize disksize content.length datas) →
      ∃ results s', appends tolerant datas s w = .ok (results, s') ∧
        Holding ramsize disksize (content ++ accepted datas results) s' := by
  induction datas with
  | nil =>
    intro content s w holding _
    exact ⟨[], s, rfl, by simpa [accepted] using holding⟩
  | cons data rest ih =>
    intro content s w holding allowed
    -- the results of the rest, behind an append that has returned
    have further {stored : Bool} {s' : BackedStore} {w' : List WriteResult}
        (run : append tolerant data s w = .ok (stored, s', w'))
        (holding' : Holding ramsize disksize (content ++ if stored then data else []) s')
        (allowed' : tolerant = true ∨ s'.file = none ∧
          StaysInRam ramsize disksize (content ++ if stored then data else []).length rest) :
        ∃ results s'', appends tolerant (data :: rest) s w = .ok (results, s'') ∧
          Holding ramsize disksize (content ++ accepted (data :: rest) results) s'' := by
      obtain ⟨results, s'', behind, holding''⟩ := ih (w := w') holding' allowed'
      refine ⟨stored :: results, s'', ?_, ?_⟩
      · rw [appends, run]
        change (appends tolerant rest s' w' >>= _) = _
        rw [behind]
        rfl
      · rwa [accepted, ← List.append_assoc]
    have cases_ := append_cases tolerant holding data w
    generalize result : append tolerant data s w = outcome at cases_
    cases cases_ with
    | kept closed fits holding' closed' =>
      refine further result holding' (allowed.imp_right fun stays => ⟨closed', ?_⟩)
      have stays := stays.2
      rw [StaysInRam, if_pos fits] at stays
      simpa using stays
    | refused large full =>
      refine further result (by simpa using holding) (allowed.imp_right fun stays => ⟨stays.1, ?_⟩)
      have room := full stays.1
      have stays := stays.2
      rw [StaysInRam, if_neg (by omega)] at stays
      simpa using stays.2
    | written holding' opened here =>
      refine further result holding' (Or.inl ?_)
      rcases allowed with tolerates | stays
      · exact tolerates
      · exact here stays.1
    | aborted closed full small strict =>
      rcases allowed with tolerates | stays
      · rw [strict] at tolerates
        cases tolerates
      · have stays := stays.2
        rw [StaysInRam, if_neg (by omega)] at stays
        omega

theorem appends_aborted {ramsize disksize : Nat} (datas : List Str) : ∀ {content : Str} {s : BackedStore} {w : List WriteResult},
    Holding ramsize disksize content s → s.file = none → ¬StaysInRam ramsize disksize content.length datas →
      appends false datas s w = .error .aborted := by
  induction datas with
  | nil => exact fun _ _ moves => absurd trivial moves
  | cons data rest ih =>
    intro content s w holding closed moves
    have cases_ := append_cases false holding data w
    generalize result : append false data s w = outcome at cases_
    cases cases_ with
    | kept _ fits holding' closed' =>
      rw [StaysInRam, if_pos fits] at moves
      rw [appends, result]
      change (appends false rest _ w >>= _) = _
      rw [ih holding' closed' (by simpa using moves)]
      rfl
    | refused large full =>
      have room := full closed
      rw [StaysInRam, if_neg (by omega)] at moves
      rw [appends, result]
      change (appends false rest s w >>= _) = _
      rw [ih holding closed fun stays => moves ⟨large, stays⟩]
      rfl
    | written _ _ here => exact absurd (here closed) Bool.false_ne_true
    | aborted _ _ _ _ =>
      rw [appends, result]
      rfl

theorem appendDisk_refused {data file : Str} {s s' : BackedStore} {w w' : List WriteResult}
    (run : appendDisk data file s w = .ok (false, s', w')) : s' = s ∧ s.disksize < data.length + s.length := by
  rw [appendDisk] at run
  split at run
  · cases run
  · split at run
    · rename_i large
      cases run
      exact ⟨rfl, large⟩
    · cases run

theorem append_refused {tolerant : Bool} {data : Str} {s s' : BackedStore} {w w' : List WriteResult}
    (run : append tolerant data s w = .ok (false, s', w')) : s' = s := by
  rw [append] at run
  split at run
  · exact (appendDisk_refused run).1
  · split at run
    · split at run
      · cases run
        rfl
      · rename_i small
        obtain ⟨w'', moved⟩ := dump_eq tolerant s w
        rw [moved] at run
        cases strict : tolerant with
        | false =>
          rw [strict] at run
          cases run
        | true =>
          rw [strict] at run
          have large : s.disksize < data.length + s.rambuf.length := (appendDisk_refused run).2
          omega
    · cases run

/-- Writes that are short or interrupted lose nothing, and neither does the move to the file if the allocator lets it
pass that the name is freed twice. -/
theorem appends_stored_iff (tolerant : Bool) (ramsize disksize : Nat) (datas : List Str) (w : List WriteResult) :
    (StoresAll tolerant ramsize disksize datas w ↔ tolerant = true ∨ StaysInRam ramsize disksize 0 datas) ∧
      ∀ data s w s' w', append tolerant data s w = .ok (false, s', w') → s' = s := by
  have start := made_holding ramsize disksize
  refine ⟨⟨?_, fun allowed => ?_⟩, fun data s w s' w' => append_refused⟩
  · rintro ⟨results, s, s', run, -⟩
    by_contra neither
    rw [not_or, Bool.not_eq_true] at neither
    rw [neither.1, appends_aborted datas start rfl neither.2] at run
    cases run
  · obtain ⟨results, s, run, holding⟩ := appends_holding (w := w) datas start (allowed.imp_right fun stays => ⟨rfl, stays⟩)
    obtain ⟨s', final, data, length⟩ := finalise_holding holding
    exact ⟨results, s, s', run, final, data, length⟩

theorem small_appends_stored : StoresAll false 6 6 [str "abc", str "de", str "fghi"] [.wrote 0, .interrupted] ∧
    (∀ s' w', append false (str "fghi") (.made 3 3) [] = .ok (false, s', w') → s' = .made 3 3) :=
  ⟨(appends_stored_iff false 6 6 [str "abc", str "de", str "fghi"] [.wrote 0, .interrupted]).1.mpr
      (Or.inr ⟨by decide, trivial⟩),
    fun s' w' => (appends_stored_iff false 3 3 [] []).2 (str "fghi") (.made 3 3) [] s' w'⟩

/-- Five bytes where RAM may hold four. -/
theorem move_aborted : ¬StoresAll false 4 100 [str "hello"] [] := by
  rintro ⟨results, s, s', run, -⟩
  cases run

end GuardianBackedStore
