import E2Guardian.Bisection
import E2Guardian.InPlace
import Mathlib.Data.UInt

/- DynamicIPList: the addresses of the users and when they were last seen, in two parallel arrays with the highest
   address first. -/
namespace GuardianDynamicIPs
open ThreeWayBisection InPlace

structure DynamicIPList where
  data : List UInt64
  datatime : List UInt64
  size : Nat
  items : Nat
  maxage : Nat
  deriving DecidableEq, Repr

/-- Which way the search goes on from a place: to lower addresses behind it, or to higher ones. -/
def probe (data : List UInt64) (ip : UInt64) (m : Int) : Int :=
  let i := data.getD m.toNat 0
  if ip = i then 0 else if ip < i then -1 else 1

def search (data : List UInt64) (a s : Int) (ip : UInt64) : Int := bisect (probe data ip) (s + 1 - a).toNat a s

def posInList (l : DynamicIPList) (ip : UInt64) : Int :=
  if l.items = 0 then -1 else search l.data 0 (l.items - 1) ip

def inList (l : DynamicIPList) (ip now : UInt64) : Bool × DynamicIPList :=
  let pos := posInList l ip
  if pos > -1 then (true, { l with datatime := l.datatime.set pos.toNat now })
  else if l.items ≥ l.size then (false, l)
  else
    let pos := (0 - pos - 1).toNat
    (true, { l with
      data := (openGap 0 pos l.items l.data).set pos ip
      datatime := (openGap 0 pos l.items l.datatime).set pos now
      items := l.items + 1 })

def emptiesLoop : Nat → Nat → Nat → List UInt64 → List UInt64 → Nat × List UInt64 × List UInt64
  | 0, _, decrement, data, datatime => (decrement, data, datatime)
  | rounds + 1, i, decrement, data, datatime =>
    let t := data.getD i 0
    if t = 0 then emptiesLoop rounds (i + 1) (decrement + 1) data datatime
    else if decrement > 0 then
      emptiesLoop rounds (i + 1) decrement (data.set (i - decrement) t) (datatime.set (i - decrement) (datatime.getD i 0))
    else emptiesLoop rounds (i + 1) decrement data datatime

def empties (l : DynamicIPList) : DynamicIPList :=
  let decrement := if l.data.getD 0 0 = 0 then 1 else 0
  let (decrement, data, datatime) := emptiesLoop (l.items - 1) 1 decrement l.data l.datatime
  { l with data := data, datatime := datatime, items := l.items - decrement }

def strike (l : DynamicIPList) (timenow : UInt64) : List UInt64 :=
  l.data.mapIdx fun i a => if i < l.items ∧ (timenow - l.datatime.getD i 0).toNat > l.maxage then 0 else a

def purgeOldEntries (l : DynamicIPList) (timenow : UInt64) : DynamicIPList :=
  if l.items < 1 then l else empties { l with data := strike l timenow }

/- What the list holds. -/

def entries (l : DynamicIPList) : List (UInt64 × UInt64) := (l.data.zip l.datatime).take l.items

def addresses (l : DynamicIPList) : List UInt64 := l.data.take l.items

structure Sized (l : DynamicIPList) : Prop where
  data_length : l.data.length = l.size
  time_length : l.datatime.length = l.size
  inside : l.items ≤ l.size

structure Sound (l : DynamicIPList) : Prop extends Sized l where
  falling : (addresses l).Pairwise (· > ·)
  nonzero : 0 ∉ addresses l

theorem entries_length {l : DynamicIPList} (sized : Sized l) : (entries l).length = l.items := by
  have inside := sized.inside
  rw [entries, List.length_take, List.length_zip, sized.data_length, sized.time_length]
  omega

theorem entries_addresses {l : DynamicIPList} (sized : Sized l) : (entries l).map Prod.fst = addresses l := by
  rw [entries, addresses, List.map_take, List.map_fst_zip]
  rw [sized.data_length, sized.time_length]

theorem entry_at {l : DynamicIPList} (sized : Sized l) {k : Nat} (inside : k < l.items) :
    (entries l)[k]? = some (l.data.getD k 0, l.datatime.getD k 0) := by
  have room := sized.inside
  have first : k < l.data.length := by rw [sized.data_length]; omega
  have second : k < l.datatime.length := by rw [sized.time_length]; omega
  rw [entries, List.getElem?_take_of_lt inside, List.zip, List.getElem?_zipWith]
  simp [first, second]

section Search
variable {l : DynamicIPList}

theorem falling_places (sound : Sound l) {i j : Nat} (less : i < j) (inside : j < l.items) :
    l.data.getD j 0 < l.data.getD i 0 := by
  have size := sound.data_length
  have room := sound.inside
  have order := List.pairwise_iff_getElem.mp sound.falling i j (by rw [addresses, List.length_take]; omega)
    (by rw [addresses, List.length_take]; omega) less
  simp only [addresses, List.getElem_take] at order
  have first : l.data.getD i 0 = l.data[i] := by simp [show i < l.data.length by omega]
  have second : l.data.getD j 0 = l.data[j] := by simp [show j < l.data.length by omega]
  rw [first, second]
  exact order

/-- The place of the address, or the place between the higher and the lower ones. -/
theorem posInList_cases (sound : Sound l) (ip : UInt64) :
    (∃ i : Nat, i < l.items ∧ posInList l ip = i ∧ l.data.getD i 0 = ip) ∨
      ∃ p : Nat, p ≤ l.items ∧ posInList l ip = -1 - p ∧ (∀ k < p, ip < l.data.getD k 0) ∧
        ∀ k, p ≤ k → k < l.items → l.data.getD k 0 < ip := by
  rw [posInList]
  by_cases none_ : l.items = 0
  · rw [if_pos none_]
    exact Or.inr ⟨0, Nat.zero_le _, rfl, fun k less => absurd less (Nat.not_lt_zero k), fun k _ less => by omega⟩
  · rw [if_neg none_, search]
    have falls : ∀ k m : Int, 0 ≤ k → k < m → m ≤ (l.items : Int) - 1 → probe l.data ip k ≠ -1 →
        probe l.data ip m ≠ -1 ∧ probe l.data ip m ≠ 0 := by
      intro k m first less inside notUp
      have order := falling_places sound (i := k.toNat) (j := m.toNat) (by omega) (by omega)
      unfold probe at notUp ⊢
      grind
    rcases bisect_place ((l.items : Int) - 1 + 1 - 0).toNat 0 ((l.items : Int) - 1) (by omega) (by omega) falls with
      ⟨first, inside, hit⟩ | ⟨p, miss, first, inside, before, behind⟩
    · obtain ⟨i, place⟩ := Int.eq_ofNat_of_zero_le first
      rw [place] at inside hit ⊢
      refine Or.inl ⟨i, by omega, rfl, ?_⟩
      unfold probe at hit
      rw [Int.toNat_natCast] at hit
      grind
    · refine Or.inr ⟨p.toNat, by omega, by omega, fun k less => ?_, fun k low less => ?_⟩
      · have up := before k (by omega) (by omega)
        unfold probe at up
        grind
      · have down := behind k (by omega) (by omega)
        unfold probe at down
        grind

end Search

/- A call that finds or adds an address. -/

theorem zip_set {α β : Type} {l : List α} {m : List β} (same : l.length = m.length) (i : Nat) (x : α) (y : β) :
    (l.set i x).zip (m.set i y) = (l.zip m).set i (x, y) := by
  apply List.ext_getElem?
  intro k
  simp only [List.zip, List.getElem?_zipWith]
  by_cases here : k = i
  · subst here
    by_cases inside : k < l.length
    · rw [List.getElem?_set_self inside, List.getElem?_set_self (same ▸ inside),
        List.getElem?_set_self (by simpa [← same] using inside)]
    · rw [List.set_eq_of_length_le (Nat.not_lt.mp inside), List.set_eq_of_length_le (same ▸ Nat.not_lt.mp inside),
        List.set_eq_of_length_le (by simpa [← same] using inside), List.getElem?_zipWith]
  · rw [List.getElem?_set_ne (Ne.symm here), List.getElem?_set_ne (Ne.symm here), List.getElem?_set_ne (Ne.symm here),
      List.getElem?_zipWith]

theorem zip_getD {α β : Type} {l : List α} {m : List β} (same : l.length = m.length) (i : Nat) (x : α) (y : β) :
    (l.zip m).getD i (x, y) = (l.getD i x, m.getD i y) := by
  by_cases inside : i < l.length
  · have inside' : i < m.length := same ▸ inside
    simp [List.zip, inside, inside']
  · have beyond : m[i]? = none := List.getElem?_eq_none (same ▸ Nat.not_lt.mp inside)
    simp [List.zip, Nat.not_lt.mp inside, beyond]

/-- The address has been noted with the time, and the others are as they were. -/
structure Noted (l : DynamicIPList) (ip now : UInt64) (l' : DynamicIPList) : Prop where
  sound : Sound l'
  size : l'.size = l.size
  maxage : l'.maxage = l.maxage
  entry_iff : ∀ a t, (a, t) ∈ entries l' ↔ (a = ip ∧ t = now) ∨ (a ≠ ip ∧ (a, t) ∈ entries l)

theorem noted_of_parts {l l' : DynamicIPList} {ip now : UInt64} (sound : Sound l) (sized : Sized l') (some_ : ip ≠ 0)
    (size : l'.size = l.size) (maxage : l'.maxage = l.maxage) {front back old : List (UInt64 × UInt64)}
    (before : entries l = front ++ (old ++ back)) (replaced : ∀ e ∈ old, e.1 = ip)
    (after : entries l' = front ++ (ip, now) :: back) (higher : ∀ e ∈ front, ip < e.1)
    (lower : ∀ e ∈ back, e.1 < ip) : Noted l ip now l' := by
  have held := entries_addresses sound.toSized
  have held' := entries_addresses sized
  have falling := sound.falling
  rw [← held, before, List.map_append, List.map_append, List.pairwise_append, List.pairwise_append] at falling
  obtain ⟨frontFalls, ⟨-, backFalls, -⟩, across⟩ := falling
  refine ⟨⟨sized, ?_, ?_⟩, size, maxage, fun a t => ?_⟩
  · rw [← held', after, List.map_append, List.map_cons, List.pairwise_append, List.pairwise_cons]
    refine ⟨frontFalls, ⟨?_, backFalls⟩, ?_⟩
    · intro b member
      obtain ⟨e, there, rfl⟩ := List.mem_map.mp member
      exact lower e there
    · intro a member b member'
      rcases List.mem_cons.mp member' with rfl | later
      · obtain ⟨e, there, rfl⟩ := List.mem_map.mp member
        exact higher e there
      · exact across a member b (List.mem_append_right _ later)
  · have nonzero := sound.nonzero
    rw [← held, before] at nonzero
    rw [← held', after]
    intro zero
    simp only [List.map_append, List.map_cons, List.mem_append, List.mem_cons] at zero nonzero
    rcases zero with inFront | this_ | inBack
    · exact nonzero (Or.inl inFront)
    · exact some_ this_.symm
    · exact nonzero (Or.inr (Or.inr inBack))
  · rw [after, before]
    simp only [List.mem_append, List.mem_cons, Prod.mk.injEq]
    constructor
    · rintro (inFront | here | inBack)
      · exact Or.inr ⟨(UInt64.ne_of_lt (higher _ inFront)).symm, Or.inl inFront⟩
      · exact Or.inl here
      · exact Or.inr ⟨UInt64.ne_of_lt (lower _ inBack), Or.inr (Or.inr inBack)⟩
    · rintro (here | ⟨other, inFront | inOld | inBack⟩)
      · exact Or.inr (Or.inl here)
      · exact Or.inl inFront
      · exact absurd (replaced _ inOld) other
      · exact Or.inr (Or.inr inBack)

section Calls
variable {l : DynamicIPList}

theorem front_higher (sound : Sound l) {p : Nat} {ip : UInt64} (inside : p ≤ l.items) (before : ∀ k < p, ip < l.data.getD k 0) :
    ∀ e ∈ (entries l).take p, ip < e.1 := by
  intro e member
  obtain ⟨k, there⟩ := List.mem_iff_getElem?.mp member
  rw [List.getElem?_take] at there
  split at there
  · rename_i less
    rw [entry_at sound.toSized (by omega)] at there
    obtain rfl := Option.some.inj there
    exact before k less
  · cases there

theorem back_lower (sound : Sound l) {p : Nat} {ip : UInt64} (behind : ∀ k, p ≤ k → k < l.items → l.data.getD k 0 < ip) :
    ∀ e ∈ (entries l).drop p, e.1 < ip := by
  intro e member
  obtain ⟨k, there⟩ := List.mem_iff_getElem?.mp member
  rw [List.getElem?_drop] at there
  have inside : p + k < l.items := by
    have less := (List.getElem?_eq_some_iff.mp there).1
    rwa [entries_length sound.toSized] at less
  rw [entry_at sound.toSized inside] at there
  obtain rfl := Option.some.inj there
  exact behind (p + k) (by omega) inside

theorem mem_addresses_iff (sound : Sound l) (ip : UInt64) : ip ∈ addresses l ↔ ∃ i < l.items, l.data.getD i 0 = ip := by
  rw [← entries_addresses sound.toSized, List.mem_map]
  constructor
  · rintro ⟨e, member, rfl⟩
    obtain ⟨k, there⟩ := List.mem_iff_getElem?.mp member
    have inside := (List.getElem?_eq_some_iff.mp there).1
    rw [entries_length sound.toSized] at inside
    rw [entry_at sound.toSized inside] at there
    obtain rfl := Option.some.inj there
    exact ⟨k, inside, rfl⟩
  · rintro ⟨i, inside, rfl⟩
    exact ⟨_, List.mem_of_getElem? (entry_at sound.toSized inside), rfl⟩

theorem stamped_noted (sound : Sound l) {ip : UInt64} (some_ : ip ≠ 0) (now : UInt64) {i : Nat} (inside : i < l.items)
    (here : l.data.getD i 0 = ip) : Noted l ip now { l with datatime := l.datatime.set i now } := by
  have size := entries_length sound.toSized
  have kept : l.data.set i ip = l.data := by
    have less : i < l.data.length := by rw [sound.data_length]; exact Nat.lt_of_lt_of_le inside sound.inside
    rw [← here]
    simp [less]
  have sized : Sized { l with datatime := l.datatime.set i now } :=
    ⟨sound.data_length, by simp [sound.time_length], sound.inside⟩
  have stamped : entries { l with datatime := l.datatime.set i now } =
      (entries l).take i ++ (ip, now) :: (entries l).drop (i + 1) := by
    have both := zip_set (sound.data_length.trans sound.time_length.symm) i ip now
    rw [kept] at both
    rw [entries, entries, both, List.take_set, List.set_eq_take_append_cons_drop, if_pos]
    change i < (entries l).length
    omega
  have parts : entries l = (entries l).take i ++ ([(l.data.getD i 0, l.datatime.getD i 0)] ++ (entries l).drop (i + 1)) := by
    have entry := entry_at sound.toSized inside
    rw [List.getElem?_eq_getElem (by omega)] at entry
    rw [← Option.some.inj entry, List.singleton_append, ← List.drop_eq_getElem_cons (by omega), List.take_append_drop]
  apply noted_of_parts sound sized some_ rfl rfl parts _ stamped
  · exact front_higher sound (Nat.le_of_lt inside) fun k less => here ▸ falling_places sound less inside
  · exact back_lower sound fun k low less => here ▸ falling_places sound low less
  · intro e member
    rw [List.mem_singleton.mp member]
    exact here

theorem added_noted (sound : Sound l) {ip : UInt64} (some_ : ip ≠ 0) (now : UInt64) (room : l.items < l.size) {p : Nat}
    (inside : p ≤ l.items) (before : ∀ k < p, ip < l.data.getD k 0)
    (behind : ∀ k, p ≤ k → k < l.items → l.data.getD k 0 < ip) : Noted l ip now { l with
      data := (openGap 0 p l.items l.data).set p ip
      datatime := (openGap 0 p l.items l.datatime).set p now
      items := l.items + 1 } := by
  have dataRoom : l.items < l.data.length := by rw [sound.data_length]; exact room
  have timeRoom : l.items < l.datatime.length := by rw [sound.time_length]; exact room
  have sized : Sized { l with
      data := (openGap 0 p l.items l.data).set p ip
      datatime := (openGap 0 p l.items l.datatime).set p now
      items := l.items + 1 } := by
    constructor
    · rw [List.length_set, openGap_length, sound.data_length]
    · rw [List.length_set, openGap_length, sound.time_length]
    · exact room
  have after : entries { l with
      data := (openGap 0 p l.items l.data).set p ip
      datatime := (openGap 0 p l.items l.datatime).set p now
      items := l.items + 1 } = (entries l).take p ++ (ip, now) :: (entries l).drop p := by
    have same : (l.data.take p).length = (l.datatime.take p).length := by
      rw [List.length_take, List.length_take, sound.data_length, sound.time_length]
    rw [entries, List.zip, List.take_zipWith, openGap_take 0 inside dataRoom, openGap_take 0 inside timeRoom,
        List.zipWith_append same,
      List.zipWith_cons_cons, entries, List.take_take, Nat.min_eq_left inside, List.zip, List.take_zipWith, List.take_zipWith,
      List.drop_zipWith]
  have parts : entries l = (entries l).take p ++ ([] ++ (entries l).drop p) := (List.take_append_drop p _).symm
  exact noted_of_parts sound sized some_ rfl rfl parts (fun e member => absurd member List.not_mem_nil) after
    (front_higher sound inside before) (back_lower sound behind)

/-- The address is held, or there is room for it, and it is noted; or it is turned away. -/
theorem inList_cases (sound : Sound l) {ip : UInt64} (some_ : ip ≠ 0) (now : UInt64) :
    ((ip ∉ addresses l ∧ l.items = l.size) ∧ inList l ip now = (false, l)) ∨
      (¬(ip ∉ addresses l ∧ l.items = l.size) ∧ (inList l ip now).1 = true ∧ Noted l ip now (inList l ip now).2) := by
  rcases posInList_cases sound ip with ⟨i, inside, place, here⟩ | ⟨p, inside, place, before, behind⟩
  · have held : ip ∈ addresses l := (mem_addresses_iff sound ip).mpr ⟨i, inside, here⟩
    have run : inList l ip now = (true, { l with datatime := l.datatime.set i now }) := by
      rw [inList, place]
      rfl
    rw [run]
    exact Or.inr ⟨fun absent => absent.1 held, rfl, stamped_noted sound some_ now inside here⟩
  · have absent : ip ∉ addresses l := by
      intro held
      obtain ⟨i, less, here⟩ := (mem_addresses_iff sound ip).mp held
      by_cases early : i < p
      · exact UInt64.ne_of_lt (before i early) here.symm
      · exact UInt64.ne_of_lt (behind i (Nat.not_lt.mp early) less) here
    have missing : ¬posInList l ip > -1 := by rw [place]; omega
    by_cases full : l.items ≥ l.size
    · have run : inList l ip now = (false, l) := by
        rw [inList]
        dsimp only
        rw [if_neg missing, if_pos full]
      exact Or.inl ⟨⟨absent, Nat.le_antisymm sound.inside full⟩, run⟩
    · have room : l.items < l.size := Nat.lt_of_not_le full
      have target : (0 - posInList l ip - 1).toNat = p := by rw [place]; omega
      have run : inList l ip now = (true, { l with
          data := (openGap 0 p l.items l.data).set p ip
          datatime := (openGap 0 p l.items l.datatime).set p now
          items := l.items + 1 }) := by
        rw [inList]
        dsimp only
        rw [if_neg missing, if_neg full, target]
      rw [run]
      exact Or.inr ⟨fun both => by omega, rfl, added_noted sound some_ now room inside before behind⟩

end Calls

/- A purge. -/

theorem emptiesLoop_pairs (rounds : Nat) : ∀ (i decrement : Nat) {data datatime : List UInt64}, data.length = datatime.length →
    i + rounds ≤ data.length → (emptiesLoop rounds i decrement data datatime).2.1.length = data.length ∧
      (emptiesLoop rounds i decrement data datatime).2.2.length = data.length ∧
      closeGaps (0, 0) (fun e => e.1 == 0) rounds i decrement (data.zip datatime) =
        ((emptiesLoop rounds i decrement data datatime).1,
          (emptiesLoop rounds i decrement data datatime).2.1.zip (emptiesLoop rounds i decrement data datatime).2.2) := by
  induction rounds with
  | zero => exact fun _ _ _ _ same _ => ⟨rfl, same.symm, rfl⟩
  | succ rounds ih =>
    intro i decrement data datatime same inside
    rw [emptiesLoop, closeGaps, zip_getD same]
    dsimp only
    by_cases gone : data.getD i 0 = 0
    · have dies : (data.getD i 0 == 0) = true := by rw [gone]; rfl
      rw [if_pos gone, if_pos dies]
      exact ih _ _ same (by omega)
    · have lives : ¬(data.getD i 0 == 0) = true := fun dies => gone (beq_iff_eq.mp dies)
      rw [if_neg gone, if_neg lives, ← zip_set same]
      by_cases some_ : decrement > 0
      · rw [if_pos some_]
        have both : (data.set (i - decrement) (data.getD i 0)).length =
            (datatime.set (i - decrement) (datatime.getD i 0)).length := by
          rw [List.length_set, List.length_set, same]
        obtain ⟨length, length', pairs⟩ := ih (i + 1) decrement both (by rw [List.length_set]; omega)
        rw [List.length_set] at length length'
        exact ⟨length, length', pairs⟩
      · have zero : decrement = 0 := by omega
        rw [if_neg some_, zero, Nat.sub_zero, set_getD, set_getD]
        exact ih _ _ same (by omega)

section Purge
variable {l : DynamicIPList}

theorem empties_entries (sized : Sized l) (some_ : 0 < l.items) :
    Sized (empties l) ∧ entries (empties l) = (entries l).filter fun e => !(e.1 == 0) := by
  have inside := sized.inside
  have same := sized.data_length.trans sized.time_length.symm
  have pairs_length : (l.data.zip l.datatime).length = l.size := by
    rw [List.length_zip, sized.data_length, sized.time_length, Nat.min_self]
  -- the test of data[0] is the round at place 0
  have opened : closeGaps (0, 0) (fun e => e.1 == 0) l.items 0 0 (l.data.zip l.datatime) =
      closeGaps (0, 0) (fun e => e.1 == 0) (l.items - 1) 1 (if l.data.getD 0 0 = 0 then 1 else 0) (l.data.zip l.datatime) := by
    obtain ⟨rounds, more⟩ := Nat.exists_eq_succ_of_ne_zero (Nat.pos_iff_ne_zero.mp some_)
    rw [more, closeGaps, Nat.sub_zero, set_getD, zip_getD same]
    dsimp only
    by_cases gone : l.data.getD 0 0 = 0
    · have dies : (l.data.getD 0 0 == 0) = true := by rw [gone]; rfl
      rw [if_pos dies, if_pos gone]
      rfl
    · have lives : ¬(l.data.getD 0 0 == 0) = true := fun dies => gone (beq_iff_eq.mp dies)
      rw [if_neg lives, if_neg gone]
      rfl
  obtain ⟨length, length', pairs⟩ := emptiesLoop_pairs (l.items - 1) 1 (if l.data.getD 0 0 = 0 then 1 else 0) same
    (by rw [sized.data_length]; omega)
  obtain ⟨most, -, live⟩ := closeGaps_take (0, 0) (fun e : UInt64 × UInt64 => e.1 == 0) l.items 0 0 (Nat.le_refl 0)
    (l := l.data.zip l.datatime) (by omega)
  rw [opened, pairs] at live
  constructor
  · constructor
    · exact length.trans sized.data_length
    · exact length'.trans sized.data_length
    · exact (Nat.sub_le _ _).trans inside
  · rw [Nat.zero_add, Nat.sub_zero, List.take_zero, List.nil_append, List.drop_zero] at live
    exact live

def recent (maxage : Nat) (timenow : UInt64) (e : UInt64 × UInt64) : Bool := (timenow - e.2).toNat ≤ maxage

theorem strike_entries (sized : Sized l) (timenow : UInt64) : Sized { l with data := strike l timenow } ∧
    entries { l with data := strike l timenow } =
      (entries l).map fun e => if recent l.maxage timenow e then e else (0, e.2) := by
  have size : Sized { l with data := strike l timenow } :=
    ⟨by rw [strike, List.length_mapIdx, sized.data_length], sized.time_length, sized.inside⟩
  refine ⟨size, List.ext_getElem? fun k => ?_⟩
  rw [List.getElem?_map]
  by_cases inside : k < l.items
  · have there : k < l.data.length := by rw [sized.data_length]; exact Nat.lt_of_lt_of_le inside sized.inside
    have struck : (strike l timenow).getD k 0 =
        if (timenow - l.datatime.getD k 0).toNat > l.maxage then 0 else l.data.getD k 0 := by
      simp [strike, there, inside]
    rw [entry_at size inside, entry_at sized inside, struck, Option.map_some]
    by_cases old : (timenow - l.datatime.getD k 0).toNat > l.maxage
    · rw [if_pos old, if_neg (by simpa [recent] using old)]
    · rw [if_neg old, if_pos (by simpa [recent] using old)]
  · rw [List.getElem?_eq_none (by rw [entries_length size]; exact Nat.not_lt.mp inside),
      List.getElem?_eq_none (by rw [entries_length sized]; exact Nat.not_lt.mp inside)]
    rfl

theorem purgeOldEntries_entries (sound : Sound l) (timenow : UInt64) : Sound (purgeOldEntries l timenow) ∧
    (purgeOldEntries l timenow).size = l.size ∧ (purgeOldEntries l timenow).maxage = l.maxage ∧
    entries (purgeOldEntries l timenow) = (entries l).filter (recent l.maxage timenow) := by
  rw [purgeOldEntries]
  split
  · rename_i none_
    have empty : entries l = [] := List.length_eq_zero_iff.mp (by rw [entries_length sound.toSized]; omega)
    rw [empty]
    exact ⟨sound, rfl, rfl, rfl⟩
  · rename_i some_
    obtain ⟨sized, struck⟩ := strike_entries sound.toSized timenow
    obtain ⟨after, live⟩ := empties_entries sized (Nat.lt_of_succ_le (Nat.not_lt.mp some_))
    have nonzero := sound.nonzero
    have falling := sound.falling
    rw [← entries_addresses sound.toSized] at nonzero falling
    have stay : entries (empties { l with data := strike l timenow }) = (entries l).filter (recent l.maxage timenow) := by
      rw [live, struck, List.filter_map]
      have kept : (entries l).filter ((fun e => !(e.1 == 0)) ∘ fun e => if recent l.maxage timenow e then e else (0, e.2)) =
          (entries l).filter (recent l.maxage timenow) := by
        apply List.filter_congr
        intro e member
        have real : e.1 ≠ 0 := fun zero => nonzero (zero ▸ List.mem_map_of_mem member)
        by_cases fresh : recent l.maxage timenow e
        · simp [fresh, real]
        · simp [fresh]
      rw [kept]
      conv_rhs => rw [← List.map_id ((entries l).filter (recent l.maxage timenow))]
      exact List.map_congr_left fun e member => if_pos (List.mem_filter.mp member).2
    have names := entries_addresses after
    have thinned : List.Sublist (addresses (empties { l with data := strike l timenow })) ((entries l).map Prod.fst) := by
      rw [← names, stay]
      exact List.filter_sublist.map Prod.fst
    exact ⟨⟨after, falling.sublist thinned, fun zero => nonzero (thinned.subset zero)⟩, rfl, rfl, stay⟩

end Purge

/- Runs: calls in any order, each at its time. -/

inductive Call where
  | inList (ip : UInt64)
  | purgeOldEntries
  deriving DecidableEq, Repr

/-- A purge has no answer, and counts as a call that went well. -/
def Call.made (l : DynamicIPList) (now : UInt64) : Call → Bool × DynamicIPList
  | .inList ip => GuardianDynamicIPs.inList l ip now
  | .purgeOldEntries => (true, GuardianDynamicIPs.purgeOldEntries l now)

structure Made where
  now : UInt64
  call : Call
  answer : Bool
  deriving DecidableEq, Repr

/-- The clock does not go back behind the latest call. -/
def Later (calls : List Made) (now : UInt64) : Prop := ∀ last ∈ calls.head?, last.now ≤ now

/-- The calls so far with the latest one first; 0 is no address. -/
inductive Run (size maxage : Nat) : List Made → DynamicIPList → Prop
  | new (data datatime : List UInt64) (data_length : data.length = size) (time_length : datatime.length = size) :
      Run size maxage [] ⟨data, datatime, size, 0, maxage⟩
  | called {calls : List Made} {l : DynamicIPList} (earlier : Run size maxage calls l) (now : UInt64) (call : Call)
      (clock : Later calls now) (some_ : call ≠ .inList 0) :
      Run size maxage (⟨now, call, (call.made l now).1⟩ :: calls) (call.made l now).2

def lastSeen (ip : UInt64) (calls : List Made) : Option UInt64 :=
  (calls.find? fun c => c.call = .inList ip ∧ c.answer).map Made.now

theorem lastSeen_other {ip : UInt64} {c : Made} (other : ¬(c.call = .inList ip ∧ c.answer = true)) (calls : List Made) :
    lastSeen ip (c :: calls) = lastSeen ip calls := by
  rw [lastSeen, lastSeen, List.find?_cons_of_neg (by simpa using other)]

theorem lastSeen_let_in {ip : UInt64} {c : Made} (asked : c.call = .inList ip) (found : c.answer = true) (calls : List Made) :
    lastSeen ip (c :: calls) = some c.now := by
  rw [lastSeen, List.find?_cons_of_pos (by simp [asked, found])]
  rfl

/-- Each address held has the time it was last seen at, which is not in the future, and one that is not held was seen more
    than maxage ago. -/
structure Kept (size maxage : Nat) (calls : List Made) (l : DynamicIPList) : Prop where
  sound : Sound l
  same_size : l.size = size
  same_maxage : l.maxage = maxage
  stamps : ∀ a t, (a, t) ∈ entries l → lastSeen a calls = some t
  past : ∀ a t, (a, t) ∈ entries l → ∃ last ∈ calls.head?, t ≤ last.now
  gone : ∀ a t, lastSeen a calls = some t →
    (a, t) ∈ entries l ∨ ∃ last ∈ calls.head?, maxage < last.now.toNat - t.toNat

section Steps
variable {size maxage : Nat} {calls : List Made} {l : DynamicIPList} {now : UInt64}

theorem past_later {t : UInt64} (clock : Later calls now) (past : ∃ last ∈ calls.head?, t ≤ last.now) : t ≤ now := by
  obtain ⟨last, latest, before⟩ := past
  exact UInt64.le_trans before (clock last latest)

theorem gone_later {t : UInt64} (clock : Later calls now) (gone : ∃ last ∈ calls.head?, maxage < last.now.toNat - t.toNat) :
    maxage < now.toNat - t.toNat := by
  obtain ⟨last, latest, old⟩ := gone
  have before : last.now.toNat ≤ now.toNat := UInt64.le_iff_toNat_le.mp (clock last latest)
  omega

theorem turned_away_kept (kept : Kept size maxage calls l) (clock : Later calls now) (ip : UInt64) :
    Kept size maxage (⟨now, .inList ip, false⟩ :: calls) l := by
  have same : ∀ a, lastSeen a (⟨now, .inList ip, false⟩ :: calls) = lastSeen a calls := fun a =>
    lastSeen_other (fun both => Bool.false_ne_true both.2) calls
  constructor
  · exact kept.sound
  · exact kept.same_size
  · exact kept.same_maxage
  · intro a t member
    exact (same a).trans (kept.stamps a t member)
  · intro a t member
    exact ⟨_, rfl, past_later clock (kept.past a t member)⟩
  · intro a t seen
    rcases kept.gone a t ((same a).symm.trans seen) with member | old
    · exact Or.inl member
    · exact Or.inr ⟨_, rfl, gone_later clock old⟩

theorem noted_kept (kept : Kept size maxage calls l) (clock : Later calls now) {ip : UInt64} {l' : DynamicIPList}
    (noted : Noted l ip now l') : Kept size maxage (⟨now, .inList ip, true⟩ :: calls) l' := by
  have other : ∀ a, a ≠ ip → lastSeen a (⟨now, .inList ip, true⟩ :: calls) = lastSeen a calls := fun a differs =>
    lastSeen_other (fun both => differs (Call.inList.inj both.1).symm) calls
  have this_ : lastSeen ip (⟨now, .inList ip, true⟩ :: calls) = some now := lastSeen_let_in rfl rfl calls
  constructor
  · exact noted.sound
  · exact noted.size.trans kept.same_size
  · exact noted.maxage.trans kept.same_maxage
  · intro a t member
    rcases (noted.entry_iff a t).mp member with ⟨rfl, rfl⟩ | ⟨differs, before⟩
    · exact this_
    · exact (other a differs).trans (kept.stamps a t before)
  · intro a t member
    rcases (noted.entry_iff a t).mp member with ⟨-, rfl⟩ | ⟨-, before⟩
    · exact ⟨_, rfl, UInt64.le_refl _⟩
    · exact ⟨_, rfl, past_later clock (kept.past a t before)⟩
  · intro a t seen
    by_cases here : a = ip
    · subst here
      have stamp : t = now := Option.some.inj (seen.symm.trans this_)
      exact Or.inl ((noted.entry_iff a t).mpr (Or.inl ⟨rfl, stamp⟩))
    · rcases kept.gone a t ((other a here).symm.trans seen) with member | old
      · exact Or.inl ((noted.entry_iff a t).mpr (Or.inr ⟨here, member⟩))
      · exact Or.inr ⟨_, rfl, gone_later clock old⟩

theorem inList_kept (kept : Kept size maxage calls l) (clock : Later calls now) {ip : UInt64} (some_ : ip ≠ 0) :
    Kept size maxage (⟨now, .inList ip, (inList l ip now).1⟩ :: calls) (inList l ip now).2 := by
  rcases inList_cases kept.sound some_ now with ⟨-, run⟩ | ⟨-, found, noted⟩
  · rw [run]
    exact turned_away_kept kept clock ip
  · rw [found]
    exact noted_kept kept clock noted

/-- With the clock going on, the age of a time stamp does not wrap. -/
theorem recent_iff (kept : Kept size maxage calls l) (clock : Later calls now) {a t : UInt64} (member : (a, t) ∈ entries l) :
    recent l.maxage now (a, t) = true ↔ now.toNat - t.toNat ≤ maxage := by
  have before := past_later clock (kept.past a t member)
  rw [recent, decide_eq_true_eq, UInt64.toNat_sub_of_le _ _ before, kept.same_maxage]

theorem purged_iff (kept : Kept size maxage calls l) (clock : Later calls now) (a t : UInt64) :
    (a, t) ∈ entries (purgeOldEntries l now) ↔ lastSeen a calls = some t ∧ now.toNat - t.toNat ≤ maxage := by
  obtain ⟨-, -, -, live⟩ := purgeOldEntries_entries kept.sound now
  rw [live, List.mem_filter]
  constructor
  · intro ⟨member, fresh⟩
    exact ⟨kept.stamps a t member, (recent_iff kept clock member).mp fresh⟩
  · intro ⟨seen, fresh⟩
    rcases kept.gone a t seen with member | old
    · exact ⟨member, (recent_iff kept clock member).mpr fresh⟩
    · exact absurd (gone_later clock old) (Nat.not_lt.mpr fresh)

theorem purgeOldEntries_kept (kept : Kept size maxage calls l) (clock : Later calls now) :
    Kept size maxage (⟨now, .purgeOldEntries, true⟩ :: calls) (purgeOldEntries l now) := by
  obtain ⟨sound, sameSize, sameAge, live⟩ := purgeOldEntries_entries kept.sound now
  have same : ∀ a, lastSeen a (⟨now, .purgeOldEntries, true⟩ :: calls) = lastSeen a calls := fun a =>
    lastSeen_other (by simp) calls
  constructor
  · exact sound
  · exact sameSize.trans kept.same_size
  · exact sameAge.trans kept.same_maxage
  · intro a t member
    exact (same a).trans ((purged_iff kept clock a t).mp member).1
  · intro a t member
    rw [live] at member
    exact ⟨_, rfl, past_later clock (kept.past a t (List.mem_filter.mp member).1)⟩
  · intro a t seen
    by_cases fresh : now.toNat - t.toNat ≤ maxage
    · exact Or.inl ((purged_iff kept clock a t).mpr ⟨(same a).symm.trans seen, fresh⟩)
    · exact Or.inr ⟨_, rfl, Nat.lt_of_not_le fresh⟩

theorem run_kept (run : Run size maxage calls l) : Kept size maxage calls l := by
  induction run with
  | new data datatime data_length time_length =>
    have nothing : addresses ⟨data, datatime, size, 0, maxage⟩ = [] := List.take_zero
    constructor
    · refine ⟨⟨data_length, time_length, Nat.zero_le _⟩, ?_, ?_⟩
      · rw [nothing]
        exact List.Pairwise.nil
      · rw [nothing]
        exact List.not_mem_nil
    · rfl
    · rfl
    · exact fun a t member => absurd member List.not_mem_nil
    · exact fun a t member => absurd member List.not_mem_nil
    · exact nofun
  | called earlier now call clock some_ ih =>
    cases call with
    | inList ip => exact inList_kept ih clock fun zero => some_ (congrArg Call.inList zero)
    | purgeOldEntries => exact purgeOldEntries_kept ih clock

end Steps

/-- In every run the addresses fall strictly and have room; the next call turns an address away if and only if it is new and
    as many others are held as there is room for; and a purge keeps just what was last seen within maxage, with its time. -/
theorem run_holds {size maxage : Nat} {calls : List Made} {l : DynamicIPList} (run : Run size maxage calls l) :
    (addresses l).Pairwise (· > ·) ∧ l.items ≤ size ∧
      (∀ ip now, ip ≠ 0 → ((inList l ip now).1 = false ↔ ip ∉ addresses l ∧ (addresses l).length = size)) ∧
      ∀ now, Later calls now → ∀ ip t, (ip, t) ∈ entries (purgeOldEntries l now) ↔
        lastSeen ip calls = some t ∧ now.toNat - t.toNat ≤ maxage := by
  have kept := run_kept run
  have sound := kept.sound
  have count : (addresses l).length = l.items := by
    rw [← entries_addresses sound.toSized, List.length_map, entries_length sound.toSized]
  refine ⟨sound.falling, kept.same_size ▸ sound.inside, fun ip now some_ => ?_, fun now clock => purged_iff kept clock⟩
  rw [count, ← kept.same_size]
  rcases inList_cases sound some_ now with ⟨full, turned⟩ | ⟨room, found, -⟩
  · exact ⟨fun _ => full, fun _ => by rw [turned]⟩
  · exact ⟨fun no => absurd (found.symm.trans no) nofun, fun full => absurd full room⟩

def crowded : DynamicIPList := ⟨[9, 5], [8, 3], 2, 2, 10⟩

theorem crowded_run : Run 2 10 [⟨8, .inList 9, true⟩, ⟨3, .inList 5, true⟩] crowded := by
  have empty := @Run.new 2 10 [0, 0] [0, 0] rfl rfl
  have one := empty.called 3 (.inList 5) nofun (by decide)
  have two := one.called 8 (.inList 9) (fun last latest => by cases latest; decide) (by decide)
  have list : ((Call.inList 9).made ((Call.inList 5).made ⟨[0, 0], [0, 0], 2, 0, 10⟩ 3).2 8) = (true, crowded) := by decide
  rw [list] at two
  exact two

theorem newcomer_turned_away : (inList crowded 7 9).1 = false ∧ (9, 8) ∈ entries (purgeOldEntries crowded 15) := by
  obtain ⟨-, -, turned, purged⟩ := run_holds crowded_run
  exact ⟨(turned 7 9 (by decide)).mpr (by decide),
    (purged 15 (fun last latest => by cases latest; decide) 9 8).mpr (by decide)⟩

end GuardianDynamicIPs
