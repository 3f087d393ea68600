import Mathlib.Data.List.Basic

/- Arrays that are changed in place: entries moved up by one to make room, and moved down over entries that are dead. -/
namespace InPlace

variable {α : Type} (d : α)

def openGap (pos : Nat) : Nat → List α → List α
  | 0, l => l
  | i + 1, l => if pos < i + 1 then openGap pos i (l.set (i + 1) (l.getD i d)) else l

def closeGaps (dead : α → Bool) : Nat → Nat → Nat → List α → Nat × List α
  | 0, _, gap, l => (gap, l)
  | rounds + 1, i, gap, l =>
    if dead (l.getD i d) then closeGaps dead rounds (i + 1) (gap + 1) l
    else closeGaps dead rounds (i + 1) gap (l.set (i - gap) (l.getD i d))

theorem set_getD (l : List α) (i : Nat) : l.set i (l.getD i d) = l := by
  by_cases inside : i < l.length
  · simp [inside]
  · exact List.set_eq_of_length_le (Nat.not_lt.mp inside)

theorem openGap_length (pos n : Nat) (l : List α) : (openGap d pos n l).length = l.length := by
  induction n generalizing l with
  | zero => rfl
  | succ n ih =>
    rw [openGap]
    split
    · rw [ih, List.length_set]
    · rfl

theorem openGap_entry (pos n : Nat) {l : List α} (inside : n < l.length) (k : Nat) :
    (openGap d pos n l)[k]? = if pos < k ∧ k ≤ n then l[k - 1]? else l[k]? := by
  induction n generalizing l with
  | zero =>
    rw [openGap, if_neg (by omega)]
  | succ n ih =>
    rw [openGap]
    split
    · rename_i more
      have there : l.getD n d = l[n] := by simp [Nat.lt_of_succ_lt inside]
      rw [ih (by rw [List.length_set]; omega), there]
      by_cases moved : pos < k ∧ k ≤ n
      · rw [if_pos moved, if_pos ⟨moved.1, by omega⟩, List.getElem?_set_ne (by omega)]
      · rw [if_neg moved]
        by_cases last : k = n + 1
        · subst last
          rw [if_pos ⟨more, Nat.le_refl _⟩, List.getElem?_set_self inside, Nat.add_sub_cancel,
            List.getElem?_eq_getElem (Nat.lt_of_succ_lt inside)]
        · rw [if_neg (by omega), List.getElem?_set_ne (Ne.symm last)]
    · rename_i none_
      rw [if_neg (by omega)]

theorem openGap_take {pos n : Nat} (low : pos ≤ n) {l : List α} (inside : n < l.length) (x : α) :
    ((openGap d pos n l).set pos x).take (n + 1) = l.take pos ++ x :: (l.take n).drop pos := by
  apply List.ext_getElem?
  intro k
  have length := openGap_length d pos n l
  rw [List.getElem?_take]
  split
  · rename_i less
    by_cases here : k = pos
    · subst here
      rw [List.getElem?_set_self (by omega), List.getElem?_append_right (by rw [List.length_take]; omega), List.length_take]
      have zero : k - min k l.length = 0 := by omega
      rw [zero]
      rfl
    · rw [List.getElem?_set_ne (Ne.symm here), openGap_entry d pos n inside]
      by_cases before : k < pos
      · rw [if_neg (by omega), List.getElem?_append_left (by rw [List.length_take]; omega), List.getElem?_take_of_lt before]
      · have behind : k - min pos l.length = k - 1 - pos + 1 := by omega
        rw [if_pos (by omega), List.getElem?_append_right (by rw [List.length_take]; omega), List.length_take, behind,
          List.getElem?_cons_succ, List.getElem?_drop, List.getElem?_take_of_lt (by omega)]
        congr 1
        omega
  · rename_i beyond
    rw [eq_comm, List.getElem?_eq_none_iff]
    simp only [List.length_append, List.length_take, List.length_cons, List.length_drop]
    omega

theorem closeGaps_take (dead : α → Bool) (rounds : Nat) : ∀ (i gap : Nat) {l : List α}, gap ≤ i → i + rounds ≤ l.length →
    (closeGaps d dead rounds i gap l).1 ≤ i + rounds ∧ (closeGaps d dead rounds i gap l).2.length = l.length ∧
      (closeGaps d dead rounds i gap l).2.take (i + rounds - (closeGaps d dead rounds i gap l).1) =
        l.take (i - gap) ++ ((l.drop i).take rounds).filter fun x => !dead x := by
  induction rounds with
  | zero =>
    intro i gap l low _
    exact ⟨low, rfl, by simp [closeGaps]⟩
  | succ rounds ih =>
    intro i gap l low inside
    have here : i < l.length := by omega
    have entry : l.getD i d = l[i] := by simp [here]
    have next : (l.drop i).take (rounds + 1) = l[i] :: (l.drop (i + 1)).take rounds := by
      rw [List.drop_eq_getElem_cons here, List.take_succ_cons]
    have sum : i + (rounds + 1) = i + 1 + rounds := by omega
    rw [closeGaps, entry, next, List.filter_cons, sum]
    cases dies : dead l[i] with
    | true =>
      obtain ⟨most, length, live⟩ := ih (i + 1) (gap + 1) (l := l) (by omega) (by omega)
      rw [if_pos rfl]
      refine ⟨most, length, live.trans ?_⟩
      rw [Nat.add_sub_add_right]
      rfl
    | false =>
      have size : (l.set (i - gap) l[i]).length = l.length := List.length_set
      obtain ⟨most, length, live⟩ := ih (i + 1) gap (l := l.set (i - gap) l[i]) (by omega) (by omega)
      rw [if_neg Bool.false_ne_true]
      refine ⟨most, length.trans size, live.trans ?_⟩
      have place : i + 1 - gap = i - gap + 1 := by omega
      rw [place, List.drop_set_of_lt (by omega), List.take_add_one, List.getElem?_set_self (by omega),
          List.take_set_of_le (Nat.le_refl _)]
      simp

end InPlace
