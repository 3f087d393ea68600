import Mathlib.Data.List.Perm.Basic
import Mathlib.Order.Basic

/- Bubble sort: passes of swaps between neighbours until a pass swaps nothing. -/
namespace BubbleSort

structure Order (α : Type) where
  le : α → α → Bool
  total : ∀ a b, (le a b || le b a) = true
  trans : ∀ a b c, le a b = true → le b c = true → le a c = true

variable {α : Type} (o : Order α)

def carry (a : α) : List α → List α × Bool
  | [] => ([a], false)
  | b :: t =>
    if o.le a b then (a :: (carry b t).1, (carry b t).2)
    else (b :: (carry a t).1, true)

def pass : List α → List α × Bool
  | [] => ([], false)
  | a :: t => carry o a t

def inversions : List α → Nat
  | [] => 0
  | a :: t => t.countP (fun b => !o.le a b) + inversions t

theorem carry_perm (a : α) (l : List α) : (carry o a l).1.Perm (a :: l) := by
  induction l generalizing a with
  | nil => exact .refl _
  | cons b t ih =>
    rw [carry]
    split
    · exact (ih b).cons a
    · exact ((ih a).cons b).trans (.swap a b t)

theorem pass_perm (l : List α) : (pass o l).1.Perm l := by
  cases l with
  | nil => exact .refl _
  | cons a t => exact carry_perm o a t

theorem carry_inversions (a : α) (l : List α) :
    inversions o (carry o a l).1 ≤ inversions o (a :: l) ∧
      ((carry o a l).2 = true → inversions o (carry o a l).1 < inversions o (a :: l)) := by
  induction l generalizing a with
  | nil => exact ⟨Nat.le_refl _, fun swapped => absurd swapped Bool.false_ne_true⟩
  | cons b t ih =>
    rw [carry]
    split
    · obtain ⟨most, fewer⟩ := ih b
      have same := (carry_perm o b t).countP_eq (fun x => !o.le a x)
      simp only [inversions] at most fewer ⊢
      refine ⟨by omega, fun swapped => ?_⟩
      have := fewer swapped
      omega
    · rename_i wrong
      obtain ⟨most, -⟩ := ih a
      have same := (carry_perm o a t).countP_eq (fun x => !o.le b x)
      have right : o.le b a = true := by simpa [wrong] using o.total a b
      simp only [inversions, List.countP_cons, wrong, right] at most same ⊢
      simp only [Bool.not_true, Bool.not_false, Bool.false_eq_true, if_false, if_true] at same ⊢
      omega

theorem pass_inversions {l : List α} (swapped : (pass o l).2 = true) :
    inversions o (pass o l).1 < inversions o l := by
  cases l with
  | nil => cases swapped
  | cons a t => exact (carry_inversions o a t).2 swapped

def sort (l : List α) : List α :=
  if (pass o l).2 then sort (pass o l).1 else (pass o l).1
termination_by inversions o l
decreasing_by
  rename_i swapped
  exact pass_inversions o swapped

theorem sort_perm (l : List α) : (sort o l).Perm l := by
  induction l using sort.induct o with
  | case1 l swapped ih =>
    rw [sort, if_pos swapped]
    exact ih.trans (pass_perm o l)
  | case2 l still =>
    rw [sort, if_neg still]
    exact pass_perm o l

theorem carry_still (a : α) (l : List α) (still : (carry o a l).2 = false) :
    (carry o a l).1 = a :: l ∧ (a :: l).Pairwise fun x y => o.le x y = true := by
  induction l generalizing a with
  | nil => exact ⟨rfl, List.pairwise_singleton _ a⟩
  | cons b t ih =>
    rw [carry] at still ⊢
    by_cases right : o.le a b = true
    · rw [if_pos right] at still ⊢
      obtain ⟨same, sorted⟩ := ih b still
      refine ⟨congrArg (a :: ·) same, List.pairwise_cons.mpr ⟨fun x member => ?_, sorted⟩⟩
      rcases List.mem_cons.mp member with first | later
      · exact first ▸ right
      · exact o.trans a b x right (List.rel_of_pairwise_cons sorted later)
    · rw [if_neg right] at still
      cases still

theorem sort_sorted (l : List α) : (sort o l).Pairwise fun x y => o.le x y = true := by
  induction l using sort.induct o with
  | case1 l swapped ih =>
    rw [sort, if_pos swapped]
    exact ih
  | case2 l still =>
    rw [sort, if_neg still]
    cases l with
    | nil => exact .nil
    | cons a t =>
      obtain ⟨same, sorted⟩ := carry_still o a t (by simpa [pass] using still)
      rw [pass, same]
      exact sorted

end BubbleSort
