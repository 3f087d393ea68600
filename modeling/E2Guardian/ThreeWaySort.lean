import Mathlib.Data.List.Perm.Basic
import Mathlib.Data.List.Sort
import Mathlib.Order.Basic

/- Quicksort with a partition in three, in place: the entries equal to the pivot are set aside
   at both ends and swapped into the middle at last. Places are integers; a place that the
   array does not have gives none. -/
namespace ThreeWaySort

variable {β : Type}

def get (a : List β) (i : Int) : Option β := if 0 ≤ i then a[i.toNat]? else none

def swap (a : List β) (i j : Int) : Option (List β) :=
  match get a i, get a j with
  | some x, some y => some ((a.set i.toNat y).set j.toNat x)
  | _, _ => none

def swapRun (d : Int) : Nat → List β → Int → Int → Option (List β)
  | 0, a, _, _ => some a
  | n + 1, a, k, j => (swap a k j).bind fun a => swapRun d n a (k + d) (j - d)

section Algorithm
variable (key : β → Nat)

def scanUp (a : List β) (v : Nat) : Nat → Int → Option Int
  | 0, _ => none
  | fuel + 1, i =>
    match get a (i + 1) with
    | none => none
    | some x => if key x < v then scanUp a v fuel (i + 1) else some (i + 1)

def scanDown (a : List β) (v : Nat) (l : Int) : Nat → Int → Option Int
  | 0, _ => none
  | fuel + 1, j =>
    match get a (j - 1) with
    | none => none
    | some x =>
      if v < key x then if j - 1 = l then some (j - 1) else scanDown a v l fuel (j - 1)
      else some (j - 1)

def setAside (v : Nat) (a : List β) (i side next : Int) : Option (List β × Int) :=
  match get a i with
  | none => none
  | some x => if v = key x then (swap a next i).map fun a => (a, next) else some (a, side)

def partition (v : Nat) (l : Int) : Nat → List β → Int → Int → Int → Int →
    Option (List β × Int × Int × Int)
  | 0, _, _, _, _, _ => none
  | fuel + 1, a, i, j, p, q => do
    let i ← scanUp key a v (a.length + 1) i
    let j ← scanDown key a v l (a.length + 1) j
    if i ≥ j then some (a, i, p, q)
    else
      let a ← swap a i j
      let (a, p) ← setAside key v a i p (p + 1)
      let (a, q) ← setAside key v a j q (q - 1)
      partition v l fuel a i j p q

def sort : Nat → List β → Int → Int → Option (List β)
  | 0, a, l, r => if r ≤ l then some a else none
  | fuel + 1, a, l, r =>
    if r ≤ l then some a
    else do
      let v ← (get a r).map key
      let (a, i, p, q) ← partition key v l (a.length + 1) a (l - 1) r (l - 1) r
      let a ← swap a i r
      let a ← swapRun 1 (p - l + 1).toNat a l (i - 1)
      let a ← swapRun (-1) (r - q).toNat a (r - 1) (i + 1)
      let a ← sort fuel a l (i - 1 - (p - l + 1).toNat)
      sort fuel a (i + 1 + (r - q).toNat) r

end Algorithm

def Inside (a : List β) (i : Int) : Prop := 0 ≤ i ∧ i < a.length

theorem Inside.get {a : List β} {i : Int} (inside : Inside a i) : ∃ x, get a i = some x := by
  obtain ⟨low, high⟩ := inside
  refine ⟨a[i.toNat], ?_⟩
  rw [ThreeWaySort.get, if_pos low, List.getElem?_eq_getElem]

theorem get_set {a : List β} {i k : Int} (x : β) (inside : Inside a i) :
    get (a.set i.toNat x) k = if k = i then some x else get a k := by
  obtain ⟨low, high⟩ := inside
  unfold get
  by_cases same : k = i
  · subst same
    rw [if_pos low, List.getElem?_set_self (by omega), if_pos rfl]
  · by_cases negative : 0 ≤ k
    · rw [if_pos negative, List.getElem?_set_ne (by omega), if_neg same, if_pos negative]
    · rw [if_neg negative, if_neg same, if_neg negative]

structure Swapped (a : List β) (i j : Int) (b : List β) : Prop where
  perm : b.Perm a
  get : ∀ k, get b k = if k = i then get a j else if k = j then get a i else get a k

theorem swap_eq {a : List β} {i j : Int} (inside : Inside a i) (other : Inside a j) :
    ∃ b, swap a i j = some b ∧ Swapped a i j b := by
  obtain ⟨x, first⟩ := inside.get
  obtain ⟨y, second⟩ := other.get
  refine ⟨(a.set i.toNat y).set j.toNat x, by rw [swap, first, second], ?_, ?_⟩
  · obtain ⟨firstLow, firstHigh⟩ := inside
    obtain ⟨secondLow, secondHigh⟩ := other
    have low : i.toNat < a.length := by omega
    have high : j.toNat < a.length := by omega
    rw [ThreeWaySort.get, if_pos firstLow, List.getElem?_eq_getElem low] at first
    rw [ThreeWaySort.get, if_pos secondLow, List.getElem?_eq_getElem high] at second
    rw [← Option.some.inj first, ← Option.some.inj second]
    exact List.set_set_perm low high
  · intro k
    have kept : Inside (a.set i.toNat y) j := by
      unfold Inside
      rw [List.length_set]
      exact other
    rw [get_set x kept, get_set y inside, first, second]
    by_cases atSecond : k = j
    · by_cases same : j = i
      · rw [same, first] at second
        simp [atSecond, same, Option.some.inj second]
      · simp [atSecond, same]
    · simp [atSecond]

structure Rearranged (l r : Int) (a b : List β) : Prop where
  perm : b.Perm a
  outside : ∀ x, ¬ (l ≤ x ∧ x ≤ r) → get b x = get a x
  within : ∀ x, l ≤ x → x ≤ r → ∃ y, l ≤ y ∧ y ≤ r ∧ get b x = get a y

theorem Rearranged.refl (l r : Int) (a : List β) : Rearranged l r a a :=
  ⟨.refl a, fun _ _ => rfl, fun x low high => ⟨x, low, high, rfl⟩⟩

theorem Rearranged.trans {l r : Int} {a b c : List β} (first : Rearranged l r a b)
    (second : Rearranged l r b c) : Rearranged l r a c := by
  refine ⟨second.perm.trans first.perm, ?_, ?_⟩
  · intro x out
    rw [second.outside x out, first.outside x out]
  · intro x low high
    obtain ⟨y, yLow, yHigh, same⟩ := second.within x low high
    obtain ⟨z, zLow, zHigh, again⟩ := first.within y yLow yHigh
    exact ⟨z, zLow, zHigh, same.trans again⟩

theorem Rearranged.widen {l r l' r' : Int} {a b : List β} (part : Rearranged l r a b)
    (left : l' ≤ l) (right : r ≤ r') : Rearranged l' r' a b := by
  refine ⟨part.perm, ?_, ?_⟩
  · intro x out
    exact part.outside x (by omega)
  · intro x low high
    by_cases inside : l ≤ x ∧ x ≤ r
    · obtain ⟨y, yLow, yHigh, same⟩ := part.within x inside.1 inside.2
      exact ⟨y, by omega, by omega, same⟩
    · exact ⟨x, low, high, part.outside x inside⟩

theorem Rearranged.inside_iff {l r : Int} {a b : List β} (part : Rearranged l r a b) (i : Int) :
    Inside b i ↔ Inside a i := by
  rw [Inside, Inside, part.perm.length_eq]

theorem Swapped.rearranged {a b : List β} {i j l r : Int} (swapped : Swapped a i j b)
    (first : l ≤ i ∧ i ≤ r) (second : l ≤ j ∧ j ≤ r) : Rearranged l r a b := by
  refine ⟨swapped.perm, ?_, ?_⟩
  · intro x out
    rw [swapped.get, if_neg (by omega), if_neg (by omega)]
  · intro x low high
    rw [swapped.get]
    split
    · exact ⟨j, second.1, second.2, rfl⟩
    · split
      · exact ⟨i, first.1, first.2, rfl⟩
      · exact ⟨x, low, high, rfl⟩

theorem swapRun_eq (n : Nat) {a : List β} {k j l r : Int}
    (inside : ∀ x, l ≤ x → x ≤ r → Inside a x) (up : n ≠ 0 → l ≤ k ∧ k + n ≤ r + 1)
    (down : n ≠ 0 → l + n ≤ j + 1 ∧ j ≤ r) :
    ∃ b, swapRun 1 n a k j = some b ∧ Rearranged l r a b ∧
      ∀ x, get b x = if (k ≤ x ∧ x < k + n) ↔ (j - n < x ∧ x ≤ j) then get a x
        else get a (k + j - x) := by
  induction n generalizing a k j with
  | zero =>
    refine ⟨a, rfl, .refl l r a, ?_⟩
    intro x
    rw [if_pos (by omega)]
  | succ n ih =>
    have ⟨kLow, kHigh⟩ := up (by omega)
    have ⟨jLow, jHigh⟩ := down (by omega)
    obtain ⟨a1, step, swapped⟩ := swap_eq (inside k (by omega) (by omega)) (inside j (by omega) (by omega))
    have moved := swapped.rearranged (l := l) (r := r) (by omega) (by omega)
    obtain ⟨b, run, rearranged, placed⟩ := ih (a := a1) (k := k + 1) (j := j - 1)
      (fun x low high => (moved.inside_iff x).mpr (inside x low high)) (by omega) (by omega)
    refine ⟨b, by rw [swapRun, step]; exact run, moved.trans rearranged, ?_⟩
    intro x
    have mirror : k + 1 + (j - 1) - x = k + j - x := by omega
    rw [placed, mirror, swapped.get, swapped.get]
    split_ifs <;> first | rfl | (congr 1; omega)

theorem swap_comm {a : List β} (i j : Int) : swap a i j = swap a j i := by
  unfold swap
  cases first : get a i with
  | none => cases get a j <;> rfl
  | some x =>
    cases second : get a j with
    | none => rfl
    | some y =>
      by_cases same : i.toNat = j.toNat
      · have equal : x = y := by
          unfold get at first second
          split at first
          · split at second
            · rw [same, second] at first
              exact (Option.some.inj first).symm
            · cases second
          · cases first
        simp [same, equal]
      · simp [List.set_comm y x same]

theorem swapRun_back (n : Nat) (a : List β) (k j : Int) : swapRun (-1) n a k j = swapRun 1 n a j k := by
  induction n generalizing a k j with
  | zero => rfl
  | succ n ih =>
    rw [swapRun, swapRun, swap_comm]
    congr 1
    funext b
    rw [ih, Int.sub_neg, Int.sub_eq_add_neg]

section Correctness
variable {key : β → Nat}

def keyAt (key : β → Nat) (a : List β) (k : Int) : Nat := ((get a k).map key).getD 0

theorem keyAt_congr {a b : List β} {k m : Int} (same : get b k = get a m) :
    keyAt key b k = keyAt key a m := by
  rw [keyAt, keyAt, same]

theorem Swapped.keyAt_first {a b : List β} {i j : Int} (swapped : Swapped a i j b) :
    keyAt key b i = keyAt key a j :=
  keyAt_congr (by rw [swapped.get, if_pos rfl])

theorem Swapped.keyAt_second {a b : List β} {i j : Int} (swapped : Swapped a i j b) :
    keyAt key b j = keyAt key a i := by
  apply keyAt_congr
  rw [swapped.get]
  split
  · rename_i same
    rw [same]
  · rw [if_pos rfl]

theorem Swapped.keyAt_other {a b : List β} {i j k : Int} (swapped : Swapped a i j b) (notFirst : k ≠ i)
    (notSecond : k ≠ j) : keyAt key b k = keyAt key a k :=
  keyAt_congr (by rw [swapped.get, if_neg notFirst, if_neg notSecond])

theorem scanUp_eq (key : β → Nat) {a : List β} {v : Nat} {m : Int} (fuel : Nat) {i : Int}
    (inside : ∀ k, i < k → k ≤ m → Inside a k) (before : i < m) (stop : v ≤ keyAt key a m)
    (enough : m - i ≤ fuel) :
    ∃ i', scanUp key a v fuel i = some i' ∧ i < i' ∧ i' ≤ m ∧ v ≤ keyAt key a i' ∧
      ∀ k, i < k → k < i' → keyAt key a k < v := by
  induction fuel generalizing i with
  | zero => omega
  | succ fuel ih =>
    obtain ⟨x, here⟩ := (inside (i + 1) (by omega) (by omega)).get
    have value : keyAt key a (i + 1) = key x := by rw [keyAt, here]; rfl
    rw [scanUp, here]
    by_cases less : key x < v
    · have notLast : i + 1 ≠ m := by
        rintro rfl
        omega
      obtain ⟨i', found, low, high, stopped, passed⟩ := ih (i := i + 1)
        (fun k low high => inside k (by omega) high) (by omega) (by omega)
      refine ⟨i', by simpa only [less, ↓reduceIte] using found, by omega, high, stopped, ?_⟩
      intro k low high
      by_cases first : k = i + 1
      · rw [first, value]
        exact less
      · exact passed k (by omega) high
    · refine ⟨i + 1, by simp only [less, ↓reduceIte], by omega, by omega, by omega, ?_⟩
      intro k low high
      omega

theorem scanDown_eq (key : β → Nat) {a : List β} {v : Nat} {l : Int} (fuel : Nat) {j : Int}
    (inside : ∀ k, l ≤ k → k < j → Inside a k) (after : l < j) (enough : j - l ≤ fuel) :
    ∃ j', scanDown key a v l fuel j = some j' ∧ l ≤ j' ∧ j' < j ∧
      (keyAt key a j' ≤ v ∨ j' = l) ∧ ∀ k, j' < k → k < j → v < keyAt key a k := by
  induction fuel generalizing j with
  | zero => omega
  | succ fuel ih =>
    obtain ⟨x, here⟩ := (inside (j - 1) (by omega) (by omega)).get
    have value : keyAt key a (j - 1) = key x := by rw [keyAt, here]; rfl
    rw [scanDown, here]
    by_cases more : v < key x
    · by_cases first : j - 1 = l
      · refine ⟨j - 1, by simp only [more, first, ↓reduceIte], by omega, by omega, .inr first, ?_⟩
        intro k low high
        omega
      · obtain ⟨j', found, low, high, stopped, passed⟩ := ih (j := j - 1)
          (fun k low high => inside k low (by omega)) (by omega) (by omega)
        refine ⟨j', by simpa only [more, first, ↓reduceIte] using found, low, by omega, stopped, ?_⟩
        intro k low high
        by_cases last : k = j - 1
        · rw [last, value]
          exact more
        · exact passed k low (by omega)
    · refine ⟨j - 1, by simp only [more, ↓reduceIte], by omega, by omega, .inl (by omega), ?_⟩
      intro k low high
      omega

theorem setAside_eq (key : β → Nat) (v : Nat) {a : List β} {i next : Int} (side : Int) (inside : Inside a i)
    (place : Inside a next) :
    ∃ b s, setAside key v a i side next = some (b, s) ∧
      ((keyAt key a i = v ∧ s = next ∧ Swapped a next i b) ∨
        (keyAt key a i ≠ v ∧ s = side ∧ b = a)) := by
  obtain ⟨x, here⟩ := inside.get
  have value : keyAt key a i = key x := by rw [keyAt, here]; rfl
  rw [setAside, here]
  by_cases equal : v = key x
  · obtain ⟨b, step, swapped⟩ := swap_eq place inside
    exact ⟨b, next, by simp [equal, step], .inl ⟨value.trans equal.symm, rfl, swapped⟩⟩
  · exact ⟨a, side, by simp [equal], .inr ⟨fun same => equal (same.symm.trans value), rfl, rfl⟩⟩

theorem setAside_low (key : β → Nat) {a : List β} {v : Nat} {l i p : Int} (inside : Inside a i)
    (place : Inside a (p + 1)) (start : l ≤ p + 1) (room : p < i)
    (equal : ∀ k, l ≤ k → k ≤ p → keyAt key a k = v) (less : ∀ k, p < k → k < i → keyAt key a k < v)
    (here : keyAt key a i ≤ v) :
    ∃ b p', setAside key v a i p (p + 1) = some (b, p') ∧ p ≤ p' ∧ p' ≤ i ∧ Rearranged l i a b ∧
      (∀ k, l ≤ k → k ≤ p' → keyAt key b k = v) ∧ ∀ k, p' < k → k ≤ i → keyAt key b k < v := by
  obtain ⟨b, p', done, ⟨same, rfl, swapped⟩ | ⟨different, rfl, rfl⟩⟩ :=
    setAside_eq key v p inside place
  · refine ⟨b, p + 1, done, by omega, by omega, swapped.rearranged (by omega) (by omega), ?_, ?_⟩
    · intro k low high
      by_cases last : k = p + 1
      · rw [last, swapped.keyAt_first]
        exact same
      · rw [swapped.keyAt_other last (by omega)]
        exact equal k low (by omega)
    · intro k low high
      by_cases last : k = i
      · rw [last, swapped.keyAt_second]
        exact less (p + 1) (by omega) (by omega)
      · rw [swapped.keyAt_other (by omega) last]
        exact less k (by omega) (by omega)
  · refine ⟨b, p', done, by omega, by omega, .refl l i b, equal, ?_⟩
    intro k low high
    by_cases last : k = i
    · rw [last]
      omega
    · exact less k low (by omega)

theorem setAside_high (key : β → Nat) {a : List β} {v : Nat} {r j q : Int} (inside : Inside a j)
    (place : Inside a (q - 1)) (finish : q - 1 ≤ r) (room : j < q)
    (equal : ∀ k, q ≤ k → k ≤ r → keyAt key a k = v) (more : ∀ k, j < k → k < q → v < keyAt key a k)
    (here : v ≤ keyAt key a j) :
    ∃ b q', setAside key v a j q (q - 1) = some (b, q') ∧ j ≤ q' ∧ q' ≤ q ∧ Rearranged j r a b ∧
      (∀ k, q' ≤ k → k ≤ r → keyAt key b k = v) ∧ ∀ k, j ≤ k → k < q' → v < keyAt key b k := by
  obtain ⟨b, q', done, ⟨same, rfl, swapped⟩ | ⟨different, rfl, rfl⟩⟩ :=
    setAside_eq key v q inside place
  · refine ⟨b, q - 1, done, by omega, by omega, swapped.rearranged (by omega) (by omega), ?_, ?_⟩
    · intro k low high
      by_cases first : k = q - 1
      · rw [first, swapped.keyAt_first]
        exact same
      · rw [swapped.keyAt_other first (by omega)]
        exact equal k (by omega) high
    · intro k low high
      by_cases first : k = j
      · rw [first, swapped.keyAt_second]
        exact more (q - 1) (by omega) (by omega)
      · rw [swapped.keyAt_other (by omega) first]
        exact more k (by omega) (by omega)
  · refine ⟨b, q', done, by omega, by omega, .refl j r b, equal, ?_⟩
    intro k low high
    by_cases first : k = j
    · rw [first]
      omega
    · exact more k (by omega) high

structure Parting (key : β → Nat) (v : Nat) (l r : Int) (a : List β) (i j p q : Int) : Prop where
  bounds : l - 1 ≤ p ∧ p ≤ i ∧ i < j ∧ l < j ∧ j ≤ q ∧ q ≤ r
  lowEqual : ∀ k, l ≤ k → k ≤ p → keyAt key a k = v
  low : ∀ k, p < k → k ≤ i → keyAt key a k < v
  high : ∀ k, j ≤ k → k < q → v < keyAt key a k
  highEqual : ∀ k, q ≤ k → k ≤ r → keyAt key a k = v

structure Parted (key : β → Nat) (v : Nat) (l r : Int) (a : List β) (i p q : Int) : Prop where
  bounds : l - 1 ≤ p ∧ p < i ∧ i ≤ q ∧ q ≤ r
  lowEqual : ∀ k, l ≤ k → k ≤ p → keyAt key a k = v
  low : ∀ k, p < k → k < i → keyAt key a k < v
  high : ∀ k, i ≤ k → k < q → v ≤ keyAt key a k
  highEqual : ∀ k, q ≤ k → k ≤ r → keyAt key a k = v

theorem Parting.scans {v : Nat} {l r : Int} {a : List β} {i j p q : Int}
    (parting : Parting key v l r a i j p q) (inside : ∀ k, l ≤ k → k ≤ r → Inside a k) :
    ∃ i' j', scanUp key a v (a.length + 1) i = some i' ∧
      scanDown key a v l (a.length + 1) j = some j' ∧ i < i' ∧ i' ≤ j ∧ l ≤ j' ∧ j' < j ∧
      v ≤ keyAt key a i' ∧ (keyAt key a j' ≤ v ∨ j' = l) ∧
      (∀ k, p < k → k < i' → keyAt key a k < v) ∧ ∀ k, j' < k → k < q → v < keyAt key a k := by
  obtain ⟨lp, pi, ij, lj, jq, qr⟩ := parting.bounds
  have stop : v ≤ keyAt key a j := by
    by_cases edge : j = q
    · exact le_of_eq (parting.highEqual j (by omega) (by omega)).symm
    · exact le_of_lt (parting.high j (by omega) (by omega))
  obtain ⟨-, last⟩ := inside r (by omega) (by omega)
  obtain ⟨first, -⟩ := inside l (by omega) (by omega)
  obtain ⟨i', up, iLow, iHigh, iStop, iPassed⟩ := scanUp_eq key (a.length + 1)
    (fun k low high => inside k (by omega) (by omega)) ij stop (by push_cast; omega)
  obtain ⟨j', down, jLow, jHigh, jStop, jPassed⟩ := scanDown_eq key (v := v) (a.length + 1)
    (fun k low high => inside k low (by omega)) lj (by push_cast; omega)
  refine ⟨i', j', up, down, iLow, iHigh, jLow, jHigh, iStop, jStop, ?_, ?_⟩
  · intro k low high
    by_cases scanned : i < k
    · exact iPassed k scanned high
    · exact parting.low k low (by omega)
  · intro k low high
    by_cases scanned : k < j
    · exact jPassed k low scanned
    · exact parting.high k (by omega) high

theorem partition_eq {v : Nat} {l r : Int} (fuel : Nat) {a : List β} {i j p q : Int}
    (inside : ∀ k, l ≤ k → k ≤ r → Inside a k) (parting : Parting key v l r a i j p q)
    (enough : j - i ≤ fuel) :
    ∃ b i' p' q', partition key v l fuel a i j p q = some (b, i', p', q') ∧ Rearranged l r a b ∧
      Parted key v l r b i' p' q' := by
  induction fuel generalizing a i j p q with
  | zero =>
    have apart := parting.bounds.2.2.1
    omega
  | succ fuel ih =>
    obtain ⟨i', j', up, down, iLow, iHigh, jLow, jHigh, iStop, jStop, less, more⟩ := parting.scans inside
    obtain ⟨lp, pi, ij, lj, jq, qr⟩ := parting.bounds
    by_cases met : i' ≥ j'
    · refine ⟨a, i', p, q, by simp [partition, up, down, met], .refl l r a, ?_⟩
      refine ⟨by omega, parting.lowEqual, less, ?_, parting.highEqual⟩
      intro k low high
      by_cases first : k = i'
      · exact first ▸ iStop
      · exact le_of_lt (more k (by omega) high)
    · have small : keyAt key a j' ≤ v := by
        rcases jStop with stopped | edge
        · exact stopped
        · omega
      obtain ⟨a1, swap1, swapped⟩ := swap_eq (inside i' (by omega) (by omega)) (inside j' (by omega) (by omega))
      have moved1 := swapped.rearranged (l := l) (r := r) (by omega) (by omega)
      have inside1 := fun k low high => (moved1.inside_iff k).mpr (inside k low high)
      obtain ⟨a2, p', aside2, pLow, pHigh, moved2, lowEqual, low⟩ := setAside_low key (l := l)
        (inside1 i' (by omega) (by omega)) (inside1 (p + 1) (by omega) (by omega)) (by omega) (by omega)
        (fun k low high => by
          rw [swapped.keyAt_other (by omega) (by omega)]
          exact parting.lowEqual k low high)
        (fun k low high => by
          rw [swapped.keyAt_other (by omega) (by omega)]
          exact less k low high)
        (by rw [swapped.keyAt_first]; exact small)
      have same2 : ∀ k, i' < k → keyAt key a2 k = keyAt key a1 k := fun k above =>
        keyAt_congr (moved2.outside k (by omega))
      have inside2 := fun k low high => (moved2.inside_iff k).mpr (inside1 k low high)
      obtain ⟨a3, q', aside3, qLow, qHigh, moved3, highEqual, high⟩ := setAside_high key (r := r)
        (v := v) (inside2 j' (by omega) (by omega)) (inside2 (q - 1) (by omega) (by omega)) (by omega) (by omega)
        (fun k low high => by
          rw [same2 k (by omega), swapped.keyAt_other (by omega) (by omega)]
          exact parting.highEqual k low high)
        (fun k low high => by
          rw [same2 k (by omega), swapped.keyAt_other (by omega) (by omega)]
          exact more k low high)
        (by rw [same2 j' (by omega), swapped.keyAt_second]; exact iStop)
      have same3 : ∀ k, k < j' → keyAt key a3 k = keyAt key a2 k := fun k below =>
        keyAt_congr (moved3.outside k (by omega))
      have moved : Rearranged l r a a3 :=
        (moved1.trans (moved2.widen (by omega) (by omega))).trans (moved3.widen (by omega) (by omega))
      have parting3 : Parting key v l r a3 i' j' p' q' := by
        refine ⟨by omega, ?_, ?_, high, highEqual⟩
        · intro k kLow kHigh
          rw [same3 k (by omega)]
          exact lowEqual k kLow kHigh
        · intro k kLow kHigh
          rw [same3 k (by omega)]
          exact low k kLow kHigh
      obtain ⟨b, i'', p'', q'', run, rest, parted⟩ := ih
        (fun k low high => (moved.inside_iff k).mpr (inside k low high)) parting3 (by omega)
      refine ⟨b, i'', p'', q'', ?_, moved.trans rest, parted⟩
      simp only [partition, up, down, met, swap1, aside2, aside3, run, Option.bind_eq_bind,
        Option.bind_some, ↓reduceIte]

/-- The entries set aside at the lower end change places with the last ones before the middle. -/
theorem gathered_low {v n : Nat} {l i : Int} {a b : List β} (apart : l + n ≤ i)
    (placed : ∀ x, get b x = if (l ≤ x ∧ x < l + n) ↔ (i - 1 - n < x ∧ x ≤ i - 1) then get a x
      else get a (l + (i - 1) - x))
    (equal : ∀ k, l ≤ k → k < l + n → keyAt key a k = v)
    (less : ∀ k, l + n ≤ k → k < i → keyAt key a k < v) :
    (∀ k, l ≤ k → k ≤ i - 1 - n → keyAt key b k < v) ∧
      ∀ k, i - 1 - n < k → k < i → keyAt key b k = v := by
  constructor
  · intro k low high
    by_cases taken : k < l + n
    · rw [keyAt_congr (placed k |>.trans (if_neg (by omega)))]
      exact less _ (by omega) (by omega)
    · rw [keyAt_congr (placed k |>.trans (if_pos (by omega)))]
      exact less k (by omega) (by omega)
  · intro k low high
    by_cases taken : k < l + n
    · rw [keyAt_congr (placed k |>.trans (if_pos (by omega)))]
      exact equal k (by omega) taken
    · rw [keyAt_congr (placed k |>.trans (if_neg (by omega)))]
      exact equal _ (by omega) (by omega)

/-- The parts above the middle once the pivot stands there; what it changed places with is
at the top. -/
structure Topped (key : β → Nat) (v : Nat) (r : Int) (a : List β) (i q : Int) : Prop where
  pivot : keyAt key a i = v
  high : ∀ k, i < k → k < q → v ≤ keyAt key a k
  highEqual : ∀ k, q ≤ k → i < k → k < r → keyAt key a k = v
  top : v ≤ keyAt key a r
  topEqual : i = q → keyAt key a r = v

/-- The entries set aside at the upper end change places with the first ones after the
middle; if there is nothing between, the run goes one further, over the pivot. -/
theorem gathered_high {v : Nat} {i q r : Int} {a b : List β} (iq : i ≤ q) (qr : q ≤ r)
    (placed : ∀ x, get b x = if (i + 1 ≤ x ∧ x < i + 1 + (r - q).toNat) ↔
      (r - 1 - (r - q).toNat < x ∧ x ≤ r - 1) then get a x else get a (i + 1 + (r - 1) - x))
    (topped : Topped key v r a i q) :
    (∀ k, i ≤ k → k < i + 1 + (r - q).toNat → keyAt key b k = v) ∧
      ∀ k, i + 1 + (r - q).toNat ≤ k → k ≤ r → v ≤ keyAt key b k := by
  constructor
  · intro k low high
    by_cases taken : i < k ∧ (k < q ∨ k = r)
    · rw [keyAt_congr (placed k |>.trans (if_neg (by omega)))]
      rcases taken.2 with early | last
      · exact topped.highEqual _ (by omega) (by omega) (by omega)
      · have mirror : i + 1 + (r - 1) - k = i := by omega
        rw [mirror, topped.pivot]
    · by_cases first : k = i ∧ i = q ∧ i < r
      · have mirror : i + 1 + (r - 1) - k = r := by omega
        rw [keyAt_congr (placed k |>.trans (if_neg (by omega))), mirror]
        exact topped.topEqual first.2.1
      · rw [keyAt_congr (placed k |>.trans (if_pos (by omega)))]
        by_cases here : k = i
        · rw [here, topped.pivot]
        · exact topped.highEqual k (by omega) (by omega) (by omega)
  · intro k low high
    by_cases taken : q ≤ k ∧ k < r
    · rw [keyAt_congr (placed k |>.trans (if_neg (by omega)))]
      exact topped.high _ (by omega) (by omega)
    · rw [keyAt_congr (placed k |>.trans (if_pos (by omega)))]
      by_cases last : k = r
      · rw [last]
        exact topped.top
      · exact topped.high k (by omega) (by omega)

theorem Parted.topped {v : Nat} {l r : Int} {a b : List β} {i p q : Int}
    (parted : Parted key v l r a i p q) (swapped : Swapped a i r b) : Topped key v r b i q := by
  obtain ⟨lp, pi, iq, qr⟩ := parted.bounds
  constructor
  · rw [swapped.keyAt_first]
    exact parted.highEqual r (by omega) (by omega)
  · intro k above below
    rw [swapped.keyAt_other (by omega) (by omega)]
    exact parted.high k (by omega) below
  · intro k low above below
    rw [swapped.keyAt_other (by omega) (by omega)]
    exact parted.highEqual k low (by omega)
  · rw [swapped.keyAt_second]
    by_cases edge : i < q
    · exact parted.high i (by omega) edge
    · exact le_of_eq (parted.highEqual i (by omega) (by omega)).symm
  · intro edge
    rw [swapped.keyAt_second]
    exact parted.highEqual i (by omega) (by omega)

theorem Topped.congr {v : Nat} {r : Int} {a b : List β} {i q : Int} (topped : Topped key v r a i q)
    (edge : i ≤ r) (same : ∀ k, i ≤ k → keyAt key b k = keyAt key a k) : Topped key v r b i q where
  pivot := by rw [same i (by omega), topped.pivot]
  high k above below := by
    rw [same k (by omega)]
    exact topped.high k above below
  highEqual k low above below := by
    rw [same k (by omega)]
    exact topped.highEqual k low above below
  top := by
    rw [same r edge]
    exact topped.top
  topEqual meet := by
    rw [same r edge]
    exact topped.topEqual meet

theorem Parted.gathered {v : Nat} {l r : Int} {a : List β} {i p q : Int}
    (parted : Parted key v l r a i p q) (inside : ∀ k, l ≤ k → k ≤ r → Inside a k) :
    ∃ a1 a2 b, swap a i r = some a1 ∧ swapRun 1 (p - l + 1).toNat a1 l (i - 1) = some a2 ∧
      swapRun (-1) (r - q).toNat a2 (r - 1) (i + 1) = some b ∧ Rearranged l r a b ∧
      (∀ k, l ≤ k → k ≤ i - 1 - (p - l + 1).toNat → keyAt key b k < v) ∧
      (∀ k, i - 1 - (p - l + 1).toNat < k → k < i + 1 + (r - q).toNat → keyAt key b k = v) ∧
      ∀ k, i + 1 + (r - q).toNat ≤ k → k ≤ r → v ≤ keyAt key b k := by
  obtain ⟨lp, pi, iq, qr⟩ := parted.bounds
  obtain ⟨a1, swap1, swapped⟩ := swap_eq (inside i (by omega) (by omega)) (inside r (by omega) (by omega))
  have moved1 := swapped.rearranged (l := l) (r := r) (by omega) (by omega)
  obtain ⟨a2, run2, moved2, placed2⟩ := swapRun_eq (p - l + 1).toNat (a := a1) (k := l) (j := i - 1)
    (fun k low high => (moved1.inside_iff k).mpr (inside k low high)) (by omega) (by omega)
  have moved := moved1.trans moved2
  obtain ⟨b, run3, moved3, placed3⟩ := swapRun_eq (r - q).toNat (a := a2) (k := i + 1) (j := r - 1)
    (fun k low high => (moved.inside_iff k).mpr (inside k low high)) (by omega) (by omega)
  have lower : ∀ k, k < i → keyAt key a1 k = keyAt key a k := fun k below =>
    swapped.keyAt_other (by omega) (by omega)
  obtain ⟨low, lowMiddle⟩ := gathered_low (by omega) placed2
    (fun k kLow kHigh => by rw [lower k (by omega)]; exact parted.lowEqual k kLow (by omega))
    (fun k kLow kHigh => by rw [lower k kHigh]; exact parted.low k (by omega) kHigh)
  have topped : Topped key v r a2 i q := (parted.topped swapped).congr (by omega) fun k above =>
    keyAt_congr (placed2 k |>.trans (if_pos (by omega)))
  obtain ⟨highMiddle, high⟩ := gathered_high iq qr placed3 topped
  have kept : ∀ k, k < i → keyAt key b k = keyAt key a2 k := fun k below =>
    keyAt_congr (placed3 k |>.trans (if_pos (by omega)))
  refine ⟨a1, a2, b, swap1, run2, by rw [swapRun_back]; exact run3, moved.trans moved3, ?_, ?_, high⟩
  · intro k kLow kHigh
    rw [kept k (by omega)]
    exact low k kLow kHigh
  · intro k kLow kHigh
    by_cases below : k < i
    · rw [kept k below]
      exact lowMiddle k kLow below
    · exact highMiddle k (by omega) kHigh

theorem sorted_of_parts {v : Nat} {l r j i : Int} {b c d : List β} (apart : j < i)
    (low : ∀ k, l ≤ k → k ≤ j → keyAt key b k < v) (middle : ∀ k, j < k → k < i → keyAt key b k = v)
    (high : ∀ k, i ≤ k → k ≤ r → v ≤ keyAt key b k)
    (left : Rearranged l j b c) (sortedLeft : ∀ x y, l ≤ x → x ≤ y → y ≤ j → keyAt key c x ≤ keyAt key c y)
    (right : Rearranged i r c d) (sortedRight : ∀ x y, i ≤ x → x ≤ y → y ≤ r → keyAt key d x ≤ keyAt key d y)
    (x y : Int) (lx : l ≤ x) (xy : x ≤ y) (yr : y ≤ r) : keyAt key d x ≤ keyAt key d y := by
  have unmoved : ∀ k, k < i → keyAt key d k = keyAt key c k := fun k below =>
    keyAt_congr (right.outside k (by omega))
  have kept : ∀ k, j < k → keyAt key c k = keyAt key b k := fun k above =>
    keyAt_congr (left.outside k (by omega))
  have small : ∀ k, l ≤ k → k ≤ j → keyAt key d k < v := by
    intro k kLow kHigh
    obtain ⟨m, mLow, mHigh, same⟩ := left.within k kLow kHigh
    rw [unmoved k (by omega), keyAt_congr same]
    exact low m mLow mHigh
  have equal : ∀ k, j < k → k < i → keyAt key d k = v := by
    intro k kLow kHigh
    rw [unmoved k kHigh, kept k kLow]
    exact middle k kLow kHigh
  have large : ∀ k, i ≤ k → k ≤ r → v ≤ keyAt key d k := by
    intro k kLow kHigh
    obtain ⟨m, mLow, mHigh, same⟩ := right.within k kLow kHigh
    rw [keyAt_congr same, kept m (by omega)]
    exact high m mLow mHigh
  by_cases yLeft : y ≤ j
  · rw [unmoved x (by omega), unmoved y (by omega)]
    exact sortedLeft x y lx xy yLeft
  by_cases xRight : i ≤ x
  · exact sortedRight x y xRight xy yr
  have upTo : keyAt key d x ≤ v := by
    by_cases xLeft : x ≤ j
    · exact le_of_lt (small x lx xLeft)
    · exact le_of_eq (equal x (by omega) (by omega))
  have onward : v ≤ keyAt key d y := by
    by_cases yRight : i ≤ y
    · exact large y yRight yr
    · exact le_of_eq (equal y (by omega) (by omega)).symm
  exact upTo.trans onward

theorem sorted_of_short {l r : Int} (a : List β) (short : r ≤ l) (x y : Int) (low : l ≤ x) (between : x ≤ y)
    (high : y ≤ r) : keyAt key a x ≤ keyAt key a y := by
  have same : x = y := by omega
  rw [same]

theorem sort_eq (key : β → Nat) (fuel : Nat) {a : List β} {l r : Int} (inside : ∀ k, l ≤ k → k ≤ r → Inside a k)
    (enough : r - l ≤ fuel) :
    ∃ b, sort key fuel a l r = some b ∧ Rearranged l r a b ∧
      ∀ x y, l ≤ x → x ≤ y → y ≤ r → keyAt key b x ≤ keyAt key b y := by
  induction fuel generalizing a l r with
  | zero =>
    have short : r ≤ l := by omega
    exact ⟨a, by simp [sort, short], .refl l r a, sorted_of_short a short⟩
  | succ fuel ih =>
    by_cases short : r ≤ l
    · exact ⟨a, by simp [sort, short], .refl l r a, sorted_of_short a short⟩
    have insideFirst := inside l (by omega) (by omega)
    have insideLast := inside r (by omega) (by omega)
    obtain ⟨x, last⟩ := insideLast.get
    have start : Parting key (key x) l r a (l - 1) r (l - 1) r := by
      refine ⟨by omega, fun k low high => by omega, fun k low high => by omega,
        fun k low high => by omega, ?_⟩
      intro k low high
      have atLast : k = r := by omega
      rw [atLast, keyAt, last]
      rfl
    have long : r - (l - 1) ≤ (a.length + 1 : Nat) := by
      have low := insideFirst.1
      have high := insideLast.2
      push_cast
      omega
    obtain ⟨a0, i, p, q, parts, moved0, parted⟩ := partition_eq (a.length + 1) inside start long
    obtain ⟨a1, a2, b, swap1, run2, run3, moved1, low, middle, high⟩ := parted.gathered
      fun k low high => (moved0.inside_iff k).mpr (inside k low high)
    obtain ⟨lp, pi, iq, qr⟩ := parted.bounds
    have moved := moved0.trans moved1
    obtain ⟨c, left, movedLeft, sortedLeft⟩ := ih (a := b) (l := l) (r := i - 1 - (p - l + 1).toNat)
      (fun k low high => (moved.inside_iff k).mpr (inside k low (by omega))) (by omega)
    obtain ⟨d, right, movedRight, sortedRight⟩ := ih (a := c) (l := i + 1 + (r - q).toNat) (r := r)
      (fun k low high => (movedLeft.inside_iff k).mpr ((moved.inside_iff k).mpr (inside k (by omega) high)))
      (by omega)
    refine ⟨d, ?_, ?_, ?_⟩
    · simp only [sort, short, last, parts, swap1, run2, run3, left, right, Option.map_some,
        Option.bind_eq_bind, Option.bind_some, ↓reduceIte]
    · exact (moved.trans (movedLeft.widen (by omega) (by omega))).trans
        (movedRight.widen (by omega) (by omega))
    · exact sorted_of_parts (by omega) low middle high movedLeft sortedLeft movedRight sortedRight

/-- The whole array: the sort ends, stays within bounds and puts the keys in order. -/
theorem sort_whole (key : β → Nat) (a : List β) :
    ∃ b, sort key a.length a 0 (a.length - 1) = some b ∧ b.Perm a ∧ b.Pairwise fun x y => key x ≤ key y := by
  obtain ⟨b, sorted, moved, ordered⟩ := sort_eq key a.length (a := a) (l := 0) (r := a.length - 1)
    (fun k low high => ⟨low, by omega⟩) (by omega)
  refine ⟨b, sorted, moved.perm, ?_⟩
  rw [List.pairwise_iff_getElem]
  intro x y xIn yIn less
  have size := moved.perm.length_eq
  have order := ordered x y (by omega) (by omega) (by omega)
  simpa [keyAt, get, xIn, yIn] using order

end Correctness

end ThreeWaySort
