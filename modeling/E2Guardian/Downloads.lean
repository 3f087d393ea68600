import E2Guardian.MachineInts
import E2Guardian.Tunnel

/- Reading a body: dminstance::in of the default download manager. Its loop asks for blocks that
   grow with what is already there, moves to a temporary file when the memory limit is passed, and
   leaves the size of each block to an int. -/
namespace GuardianDownloads
open GuardianString GuardianSockets GuardianTunnel MachineInts

structure Source (σ : Type) where
  bcheckForInput : σ → Bool × σ
  read : Int → σ → Int × Str × σ
  left : σ → Nat
  checked : ∀ s, left (bcheckForInput s).2 ≤ left s
  given : ∀ n s, 0 < (read n s).1 → left (read n s).2.2 < left s

structure OptionContainer where
  max_content_filter_size : Nat
  max_content_ramcache_scan_size : Nat
  max_content_filecache_scan_size : Nat
  deriving DecidableEq, Repr

structure Call where
  o : OptionContainer
  contentLength : Int
  chunked : Bool
  wantall : Bool
  tempfiles : Bool -- getTempFileFD can make one
  zlibinflate : Str → Str -- of what came in; for a body that is not compressed, the body

structure Download (σ : Type) where
  data : Str
  tempfile : Option Str
  bytesremaining : Int
  got_all : Bool
  toobig : Bool
  sock : σ
  deriving DecidableEq, Repr

namespace Call

def geteverything (c : Call) : Bool := c.contentLength < 0 || c.chunked

def limit (c : Call) : Nat := if c.wantall then c.o.max_content_ramcache_scan_size else c.o.max_content_filter_size

def blocksize (c : Call) : Nat := min 32768 c.limit

end Call

section Loop
variable {σ : Type} (source : Source σ) (c : Call)

/-- The limits at the head of the loop; none if the rest is not downloaded. -/
def withinLimits (d : Download σ) : Option (Download σ) :=
  if c.wantall then
    match d.tempfile with
    | none =>
      if d.data.length > c.o.max_content_ramcache_scan_size then
        if c.tempfiles then some { d with tempfile := some d.data } else none
      else some d
    | some file => if file.length > c.o.max_content_filecache_scan_size then none else some d
  else if d.data.length > c.o.max_content_filter_size then none
  else some d

/-- What is asked for: as much as there is already, or a block if that is more, but nothing that is
not part of the body. -/
def newsize (d : Download σ) : Int :=
  let size : Int := if d.tempfile.isNone then max d.data.length c.blocksize else d.data.length
  if c.geteverything then size else min size d.bytesremaining

/-- On disk the data are only the block that was read last. -/
def store (block : Str) (d : Download σ) : Download σ :=
  match d.tempfile with
  | none => { d with data := d.data ++ block }
  | some file => { d with data := block ++ d.data.drop block.length, tempfile := some (file ++ block) }

def inRound (d : Download σ) : Bool × Download σ :=
  if 0 < d.bytesremaining ∨ c.geteverything then
    match withinLimits c d with
    | none => (false, { d with toobig := true })
    | some d =>
      match source.bcheckForInput d.sock with
      | (false, sock) => (false, { d with sock := sock })
      | (true, sock) =>
        match source.read (int32 (newsize c d)) sock with
        | (rc, block, sock) =>
          if rc ≤ 0 then (false, { d with sock := sock, got_all := d.got_all || c.chunked })
          else (true, store block { d with sock := sock, bytesremaining := d.bytesremaining - rc })
  else (false, d)

def inLoop : Nat → Download σ → Download σ
  | 0, d => d
  | rounds + 1, d =>
    match inRound source c d with
    | (true, d) => inLoop rounds d
    | (false, d) => d

def start (sock : σ) : Download σ := ⟨[], none, c.contentLength, false, false, sock⟩

def inflated (d : Download σ) : Download σ :=
  if d.toobig = false ∧ d.tempfile = none then { d with data := c.zlibinflate d.data } else d

/-- `in`. Each round takes a byte, so that a round for each pending byte is enough. -/
def download (sock : σ) : Download σ := inflated c (inLoop source c (source.left sock + 1) (start c sock))

end Loop

def Download.body {σ : Type} (d : Download σ) : Str := d.tempfile.getD d.data

/- Reading from a socket. -/

def bufferLoop (size : Int) : Nat → Str → BaseSocket → Int × Str × BaseSocket
  | 0, got, s => (size, got, s)
  | rounds + 1, got, s =>
    if got.length < size then
      match s.readFromSocket (size - got.length).toNat true with
      | (none, s) => (if 0 < got.length then got.length else -1, got, s)
      | (some given, s) => if given = [] then (got.length, got, s) else bufferLoop size rounds (got ++ given) s
    else (size, got, s)

def bufferReadFromSocket (size : Int) (s : BaseSocket) : Int × Str × BaseSocket := bufferLoop size size.toNat [] s

theorem check_pending (s : BaseSocket) : s.bcheckForInput.2.pending = s.pending := by
  unfold BaseSocket.bcheckForInput BaseSocket.pending
  split
  · rfl
  · split
    · rfl
    · split
      · rfl
      · rename_i arrivals
        rw [arrivals]
        rfl
      · rename_i arrivals
        rw [arrivals]
        rfl
      · rfl

theorem readFromSocket_pending (len : Nat) (s : BaseSocket) :
    ((s.readFromSocket len true).1.getD []).length + (s.readFromSocket len true).2.pending.length ≤ s.pending.length := by
  by_cases inside : s.buffer ≠ [] ∧ len ≤ s.buffer.length
  · have kept := (readFromSocket_keeps_iff s len true).mpr (.inr (.inl inside.2))
    rw [← kept, List.length_append]
  · obtain ⟨given, t, kept, -, result⟩ := readFromSocket_further true inside
    have lengths := congrArg List.length kept
    rw [List.length_append] at lengths
    have all : s.pending.length = s.buffer.length + (flat s.incoming).length := List.length_append
    rw [result]
    split
    · simp only [Option.getD_some, List.length_append]
      omega
    · simp only [Option.getD_none, List.length_nil]
      omega

theorem bufferLoop_given {size : Int} (rounds : Nat) : ∀ {got : Str} {s : BaseSocket}, size ≤ got.length + rounds →
    (bufferLoop size rounds got s).2.1.length + (bufferLoop size rounds got s).2.2.pending.length ≤
        got.length + s.pending.length ∧
      (0 < (bufferLoop size rounds got s).1 → 0 < (bufferLoop size rounds got s).2.1.length) := by
  induction rounds with
  | zero =>
    intro got s enough
    simp only [bufferLoop]
    omega
  | succ rounds ih =>
    intro got s enough
    have less := readFromSocket_pending (size - got.length).toNat s
    rw [bufferLoop]
    split
    · cases read : s.readFromSocket (size - got.length).toNat true with
      | mk r t =>
        rw [read] at less
        cases r with
        | none =>
          simp only [Option.getD_none, List.length_nil] at less
          refine ⟨by simp only; omega, fun answer => ?_⟩
          simp only at answer ⊢
          split at answer <;> omega
        | some given =>
          simp only [Option.getD_some] at less ⊢
          split
          · simp only
            omega
          · rename_i some_
            have long := List.length_pos_iff.mpr some_
            have next := @ih (got ++ given) t (by rw [List.length_append]; omega)
            rw [List.length_append] at next
            exact ⟨by omega, next.2⟩
    · simp only
      omega

def plainSource : Source BaseSocket where
  bcheckForInput := BaseSocket.bcheckForInput
  read := bufferReadFromSocket
  left := fun s => s.pending.length
  checked := fun s => Nat.le_of_eq (congrArg List.length (check_pending s))
  given := fun n s answer => by
    obtain ⟨less, some_⟩ := @bufferLoop_given n n.toNat [] s (by simp only [List.length_nil]; omega)
    have long := some_ answer
    rw [List.length_nil, Nat.zero_add] at less
    exact Nat.lt_of_lt_of_le (Nat.lt_add_of_pos_left long) less

/- Reading what is there. -/

theorem flow_flat (l : List Arrival) : (flow l).1.length ≤ (flat l).length := by
  induction l with
  | nil => exact Nat.le_refl _
  | cons a l ih =>
    cases a with
    | silence | pollError | recvError => exact Nat.zero_le _
    | bytes block =>
      simp only [flow, flat, List.length_append]
      split
      · exact Nat.zero_le _
      · simp only [List.length_append]
        omega

theorem available_pending (s : BaseSocket) : (available s).length ≤ s.pending.length := by
  have most := flow_flat s.incoming
  unfold available BaseSocket.pending BaseSocket.flow
  simp only [List.length_append]
  split
  · exact Nat.le_add_right _ _
  · omega

theorem check_available {s : BaseSocket} (more : available s ≠ []) :
    ∃ t, s.bcheckForInput = (true, t) ∧ available t = available s ∧ t.pending = s.pending := by
  by_cases empty : s.buffer = []
  · rw [available, empty, List.nil_append, BaseSocket.flow] at more
    split at more
    · exact absurd rfl more
    · rename_i calm
      cases arrivals : s.incoming with
      | nil => simp [arrivals, flow] at more
      | cons a rest =>
        cases a with
        | silence | pollError | recvError => simp [arrivals, flow] at more
        | bytes block =>
          refine ⟨{ s with timedout := false }, ?_, rfl, rfl⟩
          simp [BaseSocket.bcheckForInput, empty, calm, arrivals]
  · exact ⟨s, by simp [BaseSocket.bcheckForInput, empty], rfl, rfl⟩

theorem readFromSocket_available {s : BaseSocket} {n : Nat} (positive : 0 < n) (there : n ≤ (available s).length) :
    ∃ given t, s.readFromSocket n true = (some given, t) ∧ given ≠ [] ∧ given.length ≤ n ∧
      given ++ available t = available s ∧ given ++ t.pending = s.pending := by
  by_cases inside : s.buffer ≠ [] ∧ n ≤ s.buffer.length
  · refine ⟨s.buffer.take n, { s with buffer := s.buffer.drop n }, ?_, ?_, List.length_take_le n s.buffer, ?_, ?_⟩
    · simp only [BaseSocket.readFromSocket, inside, ne_eq, not_false_eq_true, and_self, if_true]
    · rw [← List.length_pos_iff, List.length_take]
      omega
    · show _ ++ (_ ++ _) = _
      rw [← List.append_assoc, List.take_append_drop]
      rfl
    · show _ ++ (_ ++ _) = _
      rw [← List.append_assoc, List.take_append_drop]
      rfl
  · have short : s.buffer.length < n := by
      by_contra long
      exact inside ⟨List.length_pos_iff.mp (by omega), by omega⟩
    have more : (available s).length = s.buffer.length + s.flow.1.length := List.length_append
    have flows : ({ s with buffer := [] } : BaseSocket).flow = s.flow := rfl
    cases @taken { s with buffer := [] } (n - s.buffer.length) (by omega) rfl with
    | quiet _ _ stop | failed _ _ _ _ _ stop | closed _ _ _ _ _ stop =>
      rw [flows] at stop
      rw [stop, List.length_nil] at more
      omega
    | given t rest given checked empty calm received some_ most further kept =>
      refine ⟨s.buffer ++ given, { t with incoming := rest }, ?_, ?_, ?_, ?_, ?_⟩
      · simp only [BaseSocket.readFromSocket, inside, if_false, if_true, checked, BaseSocket.recvAfter, calm, received,
          Bool.false_eq_true]
      · simp [some_]
      · rw [List.length_append]
        omega
      · have rest_ : available { t with incoming := rest } = (flow rest).1 := by
          simp [available, BaseSocket.flow, empty, calm]
        rw [rest_, available, ← flows, further, List.append_assoc]
      · simp only [BaseSocket.pending, empty, List.nil_append, List.append_assoc] at kept ⊢
        rw [kept]

theorem bufferLoop_available {size : Nat} (rounds : Nat) : ∀ {got : Str} {s : BaseSocket}, got.length ≤ size →
    size ≤ got.length + rounds → size ≤ got.length + (available s).length →
    ∃ given t, bufferLoop size rounds got s = ((size : Int), got ++ given, t) ∧ got.length + given.length = size ∧
      given ++ available t = available s ∧ given ++ t.pending = s.pending := by
  induction rounds with
  | zero =>
    intro got s most enough there
    exact ⟨[], s, by simp [bufferLoop], by simp; omega, rfl, rfl⟩
  | succ rounds ih =>
    intro got s most enough there
    rw [bufferLoop]
    split
    · rename_i more
      have left : ((size : Int) - got.length).toNat = size - got.length := by omega
      rw [left]
      obtain ⟨given, t, read, some_, short, kept, pending⟩ :=
        @readFromSocket_available s (size - got.length) (by omega) (by omega)
      have lengths := congrArg List.length kept
      rw [List.length_append] at lengths
      have long := List.length_pos_iff.mpr some_
      obtain ⟨rest, u, next, sum, kept', pending'⟩ := @ih (got ++ given) t (by rw [List.length_append]; omega)
        (by rw [List.length_append]; omega) (by rw [List.length_append]; omega)
      rw [List.length_append] at sum
      refine ⟨given ++ rest, u, ?_, ?_, ?_, ?_⟩
      · simp only [read, some_, if_false, next, List.append_assoc]
      · rw [List.length_append]
        omega
      · rw [List.append_assoc, kept', kept]
      · rw [List.append_assoc, pending', pending]
    · exact ⟨[], s, by simp, by simp; omega, rfl, rfl⟩

theorem bufferReadFromSocket_available {n : Nat} {s : BaseSocket} (there : n ≤ (available s).length) :
    ∃ given t, bufferReadFromSocket n s = ((n : Int), given, t) ∧ given.length = n ∧
      given ++ available t = available s ∧ given ++ t.pending = s.pending := by
  obtain ⟨given, t, read, length, kept⟩ := @bufferLoop_available n n [] s (by simp) (by simp) (by simpa using there)
  exact ⟨given, t, by simpa [bufferReadFromSocket] using read, by simpa using length, kept⟩

/- The loop. -/

section Rounds
variable {σ : Type} {source : Source σ} {c : Call} {d e : Download σ}

theorem inLoop_next (next : inRound source c d = (true, e)) (rounds : Nat) :
    inLoop source c (rounds + 1) d = inLoop source c rounds e := by rw [inLoop, next]

theorem inLoop_last (last : inRound source c d = (false, e)) (rounds : Nat) : inLoop source c (rounds + 1) d = e := by
  rw [inLoop, last]

end Rounds

/-- The sizes stay those of an `int`: the body is shorter than 2^32, or the loop ends before half of
that is asked for at once. -/
def Fits (c : Call) : Prop :=
  0 < c.limit ∧ (c.contentLength < 2 ^ 32 ∨ (if c.wantall && c.tempfiles then 2 * c.limit else c.limit) < 2 ^ 31)

structure Sound (c : Call) (s : BaseSocket) (d : Download BaseSocket) : Prop where
  available : d.body ++ available d.sock = available s
  pending : d.body ++ d.sock.pending = s.pending
  remaining : d.body.length + d.bytesremaining = c.contentLength
  some_ : 0 ≤ d.bytesremaining
  grown : d.data.length ≤ 2 * c.limit
  swapped : ∀ file, d.tempfile = some file →
    c.wantall = true ∧ c.tempfiles = true ∧ 0 < d.data.length ∧ d.data.length ≤ file.length

theorem store_body {σ : Type} (block : Str) (d : Download σ) : (store block d).body = d.body ++ block := by
  unfold store Download.body
  cases d.tempfile <;> rfl

theorem store_same {σ : Type} (block : Str) (d : Download σ) : (store block d).sock = d.sock ∧
    (store block d).bytesremaining = d.bytesremaining ∧ (store block d).toobig = d.toobig := by
  unfold store
  cases d.tempfile <;> exact ⟨rfl, rfl, rfl⟩

theorem within_cases {σ : Type} {c : Call} {d e : Download σ} (within : withinLimits c d = some e) :
    (e = d ∧ (d.tempfile = none → d.data.length ≤ c.limit)) ∨
      (c.wantall = true ∧ c.tempfiles = true ∧ d.tempfile = none ∧ c.limit < d.data.length ∧
        e = { d with tempfile := some d.data }) := by
  unfold withinLimits at within
  split at within
  · rename_i all
    have limit : c.limit = c.o.max_content_ramcache_scan_size := by simp [Call.limit, all]
    rw [limit]
    split at within
    · rename_i inMemory
      split at within
      · rename_i large
        split at within
        · rename_i made
          cases within
          exact .inr ⟨all, made, inMemory, large, rfl⟩
        · cases within
      · rename_i small
        cases within
        exact .inl ⟨rfl, fun _ => Nat.not_lt.mp small⟩
    · rename_i file onDisk
      split at within
      · cases within
      · cases within
        refine .inl ⟨rfl, fun inMemory => ?_⟩
        rw [inMemory] at onDisk
        cases onDisk
  · rename_i part
    have limit : c.limit = c.o.max_content_filter_size := by simp [Call.limit, part]
    rw [limit]
    split at within
    · cases within
    · rename_i small
      cases within
      exact .inl ⟨rfl, fun _ => Nat.not_lt.mp small⟩

theorem within_small {σ : Type} {c : Call} {d : Download σ} (inMemory : d.tempfile = none)
    (small : d.data.length ≤ c.limit) : withinLimits c d = some d := by
  unfold withinLimits
  unfold Call.limit at small
  split
  · rename_i all
    rw [if_pos all] at small
    simp only [inMemory, Nat.not_lt.mpr small, if_false]
  · rename_i part
    rw [if_neg part] at small
    rw [if_neg (Nat.not_lt.mpr small)]

section Plain
variable {c : Call} {s : BaseSocket} {d e : Download BaseSocket}

theorem Sound.within (sound : Sound c s d) (within : withinLimits c d = some e) :
    Sound c s e ∧ (e.tempfile = none → e.data.length ≤ c.limit) ∧ e.sock = d.sock ∧
      e.bytesremaining = d.bytesremaining ∧ e.toobig = d.toobig := by
  rcases within_cases within with ⟨rfl, small⟩ | ⟨all, made, inMemory, large, rfl⟩
  · exact ⟨sound, small, rfl, rfl, rfl⟩
  · have same : ({ d with tempfile := some d.data } : Download BaseSocket).body = d.body := by
      simp [Download.body, inMemory]
    refine ⟨⟨?_, ?_, ?_, sound.some_, sound.grown, ?_⟩, nofun, rfl, rfl, rfl⟩
    · rw [same]
      exact sound.available
    · rw [same]
      exact sound.pending
    · rw [same]
      exact sound.remaining
    · intro file here
      cases here
      exact ⟨all, made, Nat.zero_lt_of_lt large, Nat.le_refl _⟩

theorem round_reads {n : Nat} (more : 0 < d.bytesremaining) (within : withinLimits c d = some e) (same : e.sock = d.sock)
    (size : newsize c e = n) (positive : 0 < n) (low : n < 2 ^ 31) (there : n ≤ (available d.sock).length) :
    ∃ given t, inRound plainSource c d =
        (true, store given { e with sock := t, bytesremaining := e.bytesremaining - n }) ∧
      given.length = n ∧ given ++ available t = available d.sock ∧ given ++ t.pending = d.sock.pending := by
  have some_ : available d.sock ≠ [] := by
    rw [← List.length_pos_iff]
    omega
  obtain ⟨u, checked, sameAvailable, samePending⟩ := check_available some_
  rw [← sameAvailable] at there
  obtain ⟨given, t, read, length, kept, pending⟩ := bufferReadFromSocket_available there
  have asked : int32 (newsize c e) = n := by
    rw [size]
    exact int32_natCast low
  have answered : ¬ (n : Int) ≤ 0 := by omega
  refine ⟨given, t, ?_, length, by rw [kept, sameAvailable], by rw [pending, samePending]⟩
  simp only [inRound, more, true_or, if_true, within, same, plainSource, checked, asked, read, answered, if_false]

theorem Sound.read (sound : Sound c s e) {n : Nat} {given : Str} {t : BaseSocket} (length : given.length = n)
    (kept : given ++ GuardianTunnel.available t = GuardianTunnel.available e.sock)
    (pending : given ++ t.pending = e.sock.pending) (most : n ≤ e.bytesremaining)
    (inMemory : e.tempfile = none → e.data.length + n ≤ 2 * c.limit) (onDisk : e.tempfile ≠ none → n ≤ e.data.length) :
    Sound c s (store given { e with sock := t, bytesremaining := e.bytesremaining - n }) := by
  obtain ⟨sock, bytesremaining, -⟩ := store_same given { e with sock := t, bytesremaining := e.bytesremaining - n }
  have body : (store given { e with sock := t, bytesremaining := e.bytesremaining - n }).body = e.body ++ given :=
    store_body given _
  refine ⟨?_, ?_, ?_, ?_, ?_, ?_⟩
  · rw [body, sock, List.append_assoc, kept, sound.available]
  · rw [body, sock, List.append_assoc, pending, sound.pending]
  · rw [body, bytesremaining, List.length_append, length, ← sound.remaining, Nat.cast_add, add_assoc, add_sub_cancel]
  · rw [bytesremaining]
    exact Int.sub_nonneg_of_le most
  · cases place : e.tempfile with
    | none =>
      simp only [store, List.length_append, length]
      exact inMemory place
    | some file =>
      have short := onDisk (by simp [place])
      have grown := sound.grown
      simp only [store, List.length_append, List.length_drop, length]
      omega
  · intro file here
    cases place : e.tempfile with
    | none => simp [store, place] at here
    | some old =>
      obtain ⟨all, made, some_, short⟩ := sound.swapped old place
      have less := onDisk (by simp [place])
      simp only [store, place, Option.some.injEq] at here ⊢
      rw [← here]
      simp only [List.length_append, List.length_drop, length]
      exact ⟨all, made, by omega, by omega⟩

theorem Sound.size (sound : Sound c s e) (plain : c.chunked = false) (positive : 0 < c.contentLength) (fits : Fits c)
    (more : 0 < e.bytesremaining) (small : e.tempfile = none → e.data.length ≤ c.limit) :
    ∃ n : Nat, newsize c e = n ∧ 0 < n ∧ n < 2 ^ 31 ∧ n ≤ e.bytesremaining ∧
      (e.tempfile = none → e.data.length + n ≤ 2 * c.limit) ∧ (e.tempfile ≠ none → n ≤ e.data.length) := by
  have counted : c.geteverything = false := by simp [Call.geteverything, plain]; omega
  have block : 0 < c.blocksize ∧ c.blocksize ≤ c.limit ∧ c.blocksize ≤ 32768 := by
    have room := fits.1
    unfold Call.blocksize
    omega
  have remaining := sound.remaining
  have grown := sound.grown
  cases place : e.tempfile with
  | none =>
    have kept : e.body = e.data := by simp [Download.body, place]
    have fit := small place
    have within := fits.2
    have limits : c.contentLength < 2 ^ 32 ∨ c.limit < 2 ^ 31 := by
      split at within <;> omega
    rw [kept] at remaining
    refine ⟨(min (max e.data.length c.blocksize : Int) e.bytesremaining).toNat, ?_, by omega, by omega, by omega,
      fun _ => by omega, fun absent => absurd rfl absent⟩
    simp only [newsize, place, Option.isNone_none, if_true, counted, Bool.false_eq_true, if_false]
    omega
  | some file =>
    obtain ⟨all, made, some_, short⟩ := sound.swapped file place
    have kept : e.body = file := by simp [Download.body, place]
    have within := fits.2
    simp only [all, made, Bool.and_self, if_true] at within
    rw [kept] at remaining
    refine ⟨(min (e.data.length : Int) e.bytesremaining).toNat, ?_, by omega, by omega, by omega, nofun,
      fun _ => by omega⟩
    simp only [newsize, place, Option.isNone_some, Bool.false_eq_true, if_false, counted]
    omega

theorem Sound.round (sound : Sound c s d) (plain : c.chunked = false) (positive : 0 < c.contentLength) (fits : Fits c)
    (there : c.contentLength ≤ (GuardianTunnel.available s).length) (more : 0 < d.bytesremaining) :
    (∃ e, inRound plainSource c d = (false, e) ∧ e.toobig = true ∧ Sound c s e) ∨
      ∃ e, inRound plainSource c d = (true, e) ∧ Sound c s e ∧ e.bytesremaining < d.bytesremaining ∧
        e.toobig = d.toobig := by
  cases within : withinLimits c d with
  | none =>
    refine .inl ⟨{ d with toobig := true }, ?_, rfl, ⟨sound.available, sound.pending, sound.remaining, sound.some_,
      sound.grown, sound.swapped⟩⟩
    simp only [inRound, more, true_or, if_true, within]
  | some e =>
    obtain ⟨sound', small, sock, remaining, toobig⟩ := sound.within within
    have more' : 0 < e.bytesremaining := remaining ▸ more
    obtain ⟨n, size, some_, low, most, inMemory, onDisk⟩ := sound'.size plain positive fits more' small
    have lengths := congrArg List.length sound.available
    have counted := sound.remaining
    rw [List.length_append] at lengths
    obtain ⟨given, t, read, length, kept, pending⟩ := round_reads more within sock size some_ low (by omega)
    rw [← sock] at kept pending
    obtain ⟨-, bytesremaining, same⟩ := store_same given { e with sock := t, bytesremaining := e.bytesremaining - n }
    refine .inr ⟨_, read, sound'.read length kept pending most inMemory onDisk, ?_, ?_⟩
    · rw [bytesremaining, ← remaining]
      exact Int.sub_lt_self _ (by omega)
    · rw [same, ← toobig]

theorem Sound.run (plain : c.chunked = false) (positive : 0 < c.contentLength) (fits : Fits c)
    (there : c.contentLength ≤ (GuardianTunnel.available s).length) (rounds : Nat) : ∀ {d : Download BaseSocket},
    Sound c s d → d.toobig = false → d.bytesremaining < rounds → Sound c s (inLoop plainSource c rounds d) ∧
      ((inLoop plainSource c rounds d).toobig = false → (inLoop plainSource c rounds d).bytesremaining = 0) := by
  induction rounds with
  | zero =>
    intro d sound _ enough
    have some_ := sound.some_
    omega
  | succ rounds ih =>
    intro d sound open_ enough
    by_cases more : 0 < d.bytesremaining
    · rcases sound.round plain positive fits there more with ⟨e, last, toobig, sound'⟩ | ⟨e, next, sound', less, same⟩
      · rw [inLoop_last last]
        exact ⟨sound', fun small => by rw [small] at toobig; cases toobig⟩
      · rw [inLoop_next next]
        exact ih sound' (same.trans open_) (by omega)
    · have counted : c.geteverything = false := by simp [Call.geteverything, plain]; omega
      have last : inRound plainSource c d = (false, d) := by
        simp only [inRound, more, counted, Bool.false_eq_true, or_self, if_false]
      have some_ := sound.some_
      rw [inLoop_last last]
      exact ⟨sound, fun _ => by omega⟩

theorem start_sound (positive : 0 < c.contentLength) (s : BaseSocket) : Sound c s (start c s) :=
  ⟨rfl, rfl, Int.zero_add _, Int.le_of_lt positive, Nat.zero_le _, nofun⟩

end Plain

/-- All of the body if it is not too big, and no byte behind it; else a part, and the rest is still there. -/
structure Exact (c : Call) (s : BaseSocket) : Prop where
  whole : (download plainSource c s).toobig = false →
    (download plainSource c s).body = s.pending.take c.contentLength.toNat
  kept : (download plainSource c s).body ++ (download plainSource c s).sock.pending = s.pending

theorem download_plain {c : Call} (off : c.zlibinflate = id) (s : BaseSocket) :
    download plainSource c s = inLoop plainSource c (s.pending.length + 1) (start c s) := by
  unfold download inflated
  rw [off]
  split <;> rfl

theorem exact_of_fits {c : Call} {s : BaseSocket} (plain : c.chunked = false) (positive : 0 < c.contentLength)
    (there : c.contentLength ≤ (available s).length) (off : c.zlibinflate = id) (fits : Fits c) : Exact c s := by
  have pending := available_pending s
  obtain ⟨sound, done⟩ := Sound.run plain positive fits there (s.pending.length + 1) (start_sound positive s) rfl
    (by show c.contentLength < _; omega)
  rw [← download_plain off] at sound done
  refine ⟨fun small => ?_, sound.pending⟩
  have length := sound.remaining
  rw [done small, Int.add_zero] at length
  have count : c.contentLength.toNat = (download plainSource c s).body.length := by omega
  rw [count, ← sound.pending, List.take_left']
  rfl

/- The sizes that do not fit. -/

section Large
variable {c : Call} {s : BaseSocket}

theorem Sound.grow {d : Download BaseSocket} (sound : Sound c s d)
    (there : c.contentLength ≤ (GuardianTunnel.available s).length)
    (open_ : d.toobig = false) (inMemory : d.tempfile = none) (small : d.data.length ≤ c.limit) {n : Nat}
    (size : newsize c d = n) (positive : 0 < n) (low : n < 2 ^ 31) (most : n ≤ d.bytesremaining)
    (room : d.data.length + n ≤ 2 * c.limit) : ∃ e, inRound plainSource c d = (true, e) ∧ Sound c s e ∧
      e.toobig = false ∧ e.tempfile = none ∧ e.data.length = d.data.length + n := by
  have lengths := congrArg List.length sound.available
  have counted := sound.remaining
  rw [List.length_append] at lengths
  obtain ⟨given, t, read, length, kept, pending⟩ :=
    round_reads (d := d) (by omega) (within_small inMemory small) rfl size positive low (by omega)
  refine ⟨_, read, sound.read length kept pending most (fun _ => room) (fun onDisk => absurd inMemory onDisk), ?_⟩
  simp only [store, inMemory, List.length_append, length, and_self, and_true]
  exact open_

theorem doubled (plain : c.chunked = false) (large : 2 ^ 30 ≤ c.limit) (long : 2 ^ 32 ≤ c.contentLength)
    (there : c.contentLength ≤ (available s).length) {k : Nat} (below : k ≤ 16) (rounds : Nat) :
    ∃ d, inLoop plainSource c (rounds + (k + 1)) (start c s) = inLoop plainSource c rounds d ∧ Sound c s d ∧
      d.toobig = false ∧ d.tempfile = none ∧ d.data.length = 2 ^ (15 + k) := by
  have counted : c.geteverything = false := by simp [Call.geteverything, plain]; omega
  have block : c.blocksize = 32768 := by
    unfold Call.blocksize
    omega
  induction k generalizing rounds with
  | zero =>
    have sound := start_sound (by omega : 0 < c.contentLength) s
    obtain ⟨e, next, rest⟩ := sound.grow there rfl rfl (Nat.zero_le _) (n := 32768)
      (by simp [newsize, start, counted, block]; omega) (by decide) (by decide)
      (by show _ ≤ c.contentLength; omega) (by show 0 + _ ≤ _; omega)
    exact ⟨e, inLoop_next next rounds, rest.1, rest.2.1, rest.2.2.1, rest.2.2.2.trans (by simp [start])⟩
  | succ k ih =>
    obtain ⟨d, run, sound, open_, inMemory, length⟩ := ih (by omega) (rounds + 1)
    have small : 2 ^ (15 + k) ≤ 2 ^ 30 := Nat.pow_le_pow_right (by decide) (by omega)
    have most : 2 ^ 15 ≤ 2 ^ (15 + k) := Nat.pow_le_pow_right (by decide) (by omega)
    have twice : 2 ^ (15 + (k + 1)) = 2 * 2 ^ (15 + k) := Nat.pow_succ'
    have remaining := sound.remaining
    have kept : d.body = d.data := by simp [Download.body, inMemory]
    rw [kept] at remaining
    rw [← length] at small most twice
    obtain ⟨e, next, sound', open', inMemory', length'⟩ := sound.grow there open_ inMemory (by omega) (n := d.data.length)
      (by simp [newsize, inMemory, counted, block]; omega) (by omega) (by omega) (by omega) (by omega)
    refine ⟨e, ?_, sound', open', inMemory', by omega⟩
    have order : rounds + (k + 1 + 1) = rounds + 1 + (k + 1) := by omega
    rw [order, run, inLoop_next next]

theorem stops_at_half {d : Download BaseSocket} (sound : Sound c s d) (there : c.contentLength ≤ (available s).length)
    (plain : c.chunked = false) (long : 2 ^ 32 ≤ c.contentLength) (open_ : d.toobig = false) (inMemory : d.tempfile = none)
    (length : d.data.length = 2 ^ 31) (goes : (if c.wantall && c.tempfiles then 2 * c.limit else c.limit) ≥ 2 ^ 31) :
    ∃ e, inRound plainSource c d = (false, e) ∧ e.toobig = false ∧ e.body.length = 2 ^ 31 := by
  have counted : c.geteverything = false := by simp [Call.geteverything, plain]; omega
  have remaining := sound.remaining
  have kept : d.body = d.data := by simp [Download.body, inMemory]
  rw [kept, length] at remaining
  obtain ⟨e, within, data, body⟩ : ∃ e, withinLimits c d = some e ∧ e.data = d.data ∧ e.body = d.body := by
    by_cases small : d.data.length ≤ c.limit
    · exact ⟨d, within_small inMemory small, rfl, rfl⟩
    · split at goes
      · rename_i swaps
        obtain ⟨all, made⟩ := Bool.and_eq_true_iff.mp swaps
        have limit : c.limit = c.o.max_content_ramcache_scan_size := by simp [Call.limit, all]
        refine ⟨{ d with tempfile := some d.data }, ?_, rfl, by simp [Download.body, inMemory]⟩
        rw [limit] at small
        simp only [withinLimits, all, if_true, inMemory, Nat.lt_of_not_le small, made]
      · omega
  obtain ⟨-, -, sock, same, toobig⟩ := sound.within within
  have lengths := congrArg List.length sound.available
  rw [List.length_append, kept, length] at lengths
  obtain ⟨t, checked, -, -⟩ := @check_available e.sock (by
    rw [sock, ← List.length_pos_iff]
    omega)
  have size : newsize c e = 2 ^ 31 := by
    have block : c.blocksize ≤ 32768 := Nat.min_le_left _ _
    unfold newsize
    simp only [data, length, same, counted, Bool.false_eq_true, if_false]
    split <;> omega
  have read : bufferReadFromSocket (int32 (newsize c e)) t = (-2 ^ 31, [], t) := by
    rw [size]
    rfl
  refine ⟨{ e with sock := t, got_all := e.got_all || c.chunked }, ?_, toobig.trans open_, ?_⟩
  · simp only [inRound, show 0 < d.bytesremaining by omega, true_or, if_true, within, plainSource, checked, read]
    rfl
  · show e.body.length = _
    rw [body, kept, length]

end Large

theorem not_exact {c : Call} {s : BaseSocket} (there : c.contentLength ≤ (available s).length)
    (small : (download plainSource c s).toobig = false)
    (less : (download plainSource c s).body.length < c.contentLength) : ¬ Exact c s := by
  intro exact_
  have length := congrArg List.length (exact_.whole small)
  have most := available_pending s
  rw [List.length_take] at length
  omega

theorem fits_of_exact {c : Call} {s : BaseSocket} (plain : c.chunked = false) (positive : 0 < c.contentLength)
    (there : c.contentLength ≤ (available s).length) (off : c.zlibinflate = id) (exact_ : Exact c s) : Fits c := by
  have pending := available_pending s
  by_contra large
  by_cases room : 0 < c.limit
  · have long : 2 ^ 32 ≤ c.contentLength := by
      by_contra short
      exact large ⟨room, .inl (by omega)⟩
    have goes : (if c.wantall && c.tempfiles then 2 * c.limit else c.limit) ≥ 2 ^ 31 := by
      by_contra less
      exact large ⟨room, .inr (by omega)⟩
    have limit : 2 ^ 30 ≤ c.limit := by split at goes <;> omega
    obtain ⟨rounds, enough⟩ : ∃ rounds, s.pending.length + 1 = rounds + 1 + (16 + 1) := ⟨s.pending.length - 17, by omega⟩
    obtain ⟨d, run, sound, open_, inMemory, length⟩ :=
      doubled plain limit long there (Nat.le_refl 16) (rounds + 1)
    obtain ⟨e, last, small, half⟩ := stops_at_half sound there plain long open_ inMemory length goes
    rw [← enough, inLoop_last last, ← download_plain off] at run
    refine not_exact there ?_ ?_ exact_
    · rw [run, small]
    · rw [run, half]
      omega
  · have counted : c.geteverything = false := by simp [Call.geteverything, plain]; omega
    have block : c.blocksize = 0 := by
      unfold Call.blocksize
      omega
    have some_ : available (start c s).sock ≠ [] := by
      rw [← List.length_pos_iff]
      show 0 < (available s).length
      omega
    obtain ⟨t, checked, -, -⟩ := check_available some_
    have size : newsize c (start c s) = 0 := by
      simp [newsize, start, counted, block]
      omega
    have last : inRound plainSource c (start c s) = (false, { start c s with sock := t }) := by
      have within := within_small (c := c) (d := start c s) rfl (Nat.zero_le _)
      have more : 0 < (start c s).bytesremaining := positive
      simp only [inRound, more, true_or, if_true, within, plainSource, checked, size]
      simp [bufferReadFromSocket, bufferLoop, start, plain]
    have run : download plainSource c s = { start c s with sock := t } := by
      rw [download_plain off, inLoop_last last]
    refine not_exact there ?_ ?_ exact_
    · rw [run]
      rfl
    · rw [run]
      exact positive

def shortBody : Call := ⟨⟨2, 2, 2⟩, 3, false, true, true, id⟩

def inPieces : BaseSocket := ⟨str "a", [.bytes (str "bc"), .bytes (str "d")], false, false⟩

def longBody : Call := ⟨⟨2 ^ 31, 2 ^ 31, 2 ^ 31⟩, 2 ^ 32, false, false, true, id⟩

def allAtOnce (n : Nat) : BaseSocket := arriving [.bytes (List.replicate n (ch 'a'))]

theorem allAtOnce_available (n : Nat) : (available (allAtOnce n)).length = n := by
  cases n with
  | zero => rfl
  | succ n => simp [available, allAtOnce, arriving, BaseSocket.flow, flow, List.replicate_succ]

end GuardianDownloads
