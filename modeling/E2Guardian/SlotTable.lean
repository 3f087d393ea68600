import Mathlib.Data.List.Basic
import Mathlib.Data.List.Find

/- A table of numbered places. A value keeps its place while it is in the table; a place whose
   value was taken out is the first to be used again. -/
namespace SlotTable

variable {α : Type}

abbrev Slots (α : Type) := List (Option α)

def slot (l : Slots α) (i : Nat) : Option α := (l[i]?).join

def modify (l : Slots α) (i : Nat) (f : α → α) : Slots α := List.modify l i (Option.map f)

def clear (l : Slots α) (i : Nat) : Slots α := l.set i none

def free (l : Slots α) : Nat := (l.findIdx? Option.isNone).getD l.length

def place (l : Slots α) (i : Nat) (a : α) : Slots α :=
  if i < l.length then l.set i (some a) else l ++ [some a]

def firstPlace (test : α → Bool) (l : Slots α) : Option Nat :=
  (List.range l.length).find? fun i => (slot l i).any test

def Full (l : Slots α) : Prop := ∀ i < l.length, slot l i ≠ none

def Each (P : α → Prop) (l : Slots α) : Prop := ∀ i a, slot l i = some a → P a

theorem slot_modify (l : Slots α) (i j : Nat) (f : α → α) :
    slot (modify l i f) j = if i = j then (slot l j).map f else slot l j := by
  simp only [slot, modify, List.getElem?_modify]
  cases l[j]? with
  | none => split <;> rfl
  | some a => split <;> rfl

theorem length_modify (l : Slots α) (i : Nat) (f : α → α) : (modify l i f).length = l.length :=
  List.length_modify ..

theorem slot_clear (l : Slots α) (i j : Nat) :
    slot (clear l i) j = if i = j then none else slot l j := by
  simp only [slot, clear, List.getElem?_set]
  split
  · split <;> simp
  · rfl

theorem free_le (l : Slots α) : free l ≤ l.length := by
  unfold free
  cases found : l.findIdx? Option.isNone with
  | none => simp
  | some i =>
    have inside := (List.findIdx?_eq_some_iff_getElem.mp found).1
    simp only [Option.getD_some]
    omega

theorem slot_free (l : Slots α) : slot l (free l) = none := by
  unfold free slot
  cases found : l.findIdx? Option.isNone with
  | none => simp
  | some i =>
    obtain ⟨inside, empty, _⟩ := List.findIdx?_eq_some_iff_getElem.mp found
    simpa [inside] using empty

theorem slot_append (l : Slots α) (a : α) (j : Nat) :
    slot (l ++ [some a]) j = if l.length = j then some a else slot l j := by
  unfold slot
  by_cases here : l.length = j
  · simp [← here]
  · rw [if_neg here]
    by_cases inside : j < l.length
    · rw [List.getElem?_append_left inside]
    · rw [List.getElem?_eq_none (by simp; omega), List.getElem?_eq_none (by omega)]

theorem slot_place (l : Slots α) (a : α) (j : Nat) :
    slot (place l (free l) a) j = if free l = j then some a else slot l j := by
  have bound := free_le l
  simp only [slot, place]
  split
  · rename_i inside
    rw [List.getElem?_set]
    split <;> simp
  · rename_i outside
    have last : free l = l.length := by omega
    rw [last]
    exact slot_append l a j

theorem lt_length_of_slot {l : Slots α} {i : Nat} {a : α} (there : slot l i = some a) : i < l.length := by
  by_contra outside
  simp [slot, List.getElem?_eq_none (Nat.le_of_not_lt outside)] at there

/-- In a table without free places a new value goes to the end. -/
theorem place_full {l : Slots α} (full : Full l) (a : α) :
    free l = l.length ∧ place l (free l) a = l ++ [some a] := by
  have last : free l = l.length := by
    by_contra inside
    apply full (free l) (Nat.lt_of_le_of_ne (free_le l) inside)
    exact slot_free l
  exact ⟨last, by simp [place, last]⟩

theorem full_append {l : Slots α} (full : Full l) (a : α) : Full (l ++ [some a]) := by
  intro i inside
  rw [slot_append]
  split
  · simp
  · apply full
    simp only [List.length_append, List.length_singleton] at inside
    omega

theorem full_modify {l : Slots α} (full : Full l) (i : Nat) (f : α → α) : Full (modify l i f) := by
  intro j inside
  rw [length_modify] at inside
  rw [slot_modify]
  split
  · simpa using full j inside
  · exact full j inside

theorem each_append {P : α → Prop} {l : Slots α} (each : Each P l) {a : α} (holds : P a) : Each P (l ++ [some a]) := by
  intro i b there
  rw [slot_append] at there
  split at there
  · cases there
    exact holds
  · exact each i b there

theorem each_modify {P : α → Prop} {l : Slots α} (each : Each P l) {i : Nat} {f : α → α}
    (holds : ∀ a, slot l i = some a → P (f a)) : Each P (modify l i f) := by
  intro j b there
  rw [slot_modify] at there
  split at there
  · rename_i here
    obtain ⟨a, old, rfl⟩ := Option.map_eq_some_iff.mp there
    rw [← here] at old
    exact holds a old
  · exact each j b there

theorem modify_append (l : Slots α) (a b : α) :
    modify (l ++ [some a]) l.length (fun _ => b) = l ++ [some b] := by
  simp [modify, List.modify_eq_take_cons_drop]

/- Searching. -/

theorem firstPlace_some {test : α → Bool} {l : Slots α} {i : Nat} (found : firstPlace test l = some i) :
    ∃ a, slot l i = some a ∧ test a := by
  have passes := List.find?_some found
  cases there : slot l i with
  | none => simp [there] at passes
  | some a => exact ⟨a, rfl, by simpa [there] using passes⟩

theorem firstPlace_congr {test test' : α → Bool} {l l' : Slots α} (long : l'.length = l.length)
    (same : ∀ i, (slot l' i).any test' = (slot l i).any test) : firstPlace test' l' = firstPlace test l := by
  unfold firstPlace
  rw [long]
  simp only [same]

theorem firstPlace_append (test : α → Bool) (l : Slots α) (a : α) :
    firstPlace test (l ++ [some a]) = (firstPlace test l).or (if test a then some l.length else none) := by
  unfold firstPlace
  have before : (List.range l.length).find? (fun i => (slot (l ++ [some a]) i).any test) =
      (List.range l.length).find? (fun i => (slot l i).any test) := by
    apply List.find?_congr
    intro i mem
    have inside := List.mem_range.mp mem
    rw [slot_append, if_neg (by omega)]
  rw [List.length_append, List.length_singleton, List.range_succ, List.find?_append, before]
  congr 1
  simp only [List.find?_cons, slot_append, if_true, Option.any_some, List.find?_nil]
  cases test a with
  | true => rfl
  | false => rfl

end SlotTable
