import Mathlib.Data.List.Basic

/- A stream that arrives in pieces, and a reader with a buffer in front of it. A request for
   n elements is answered from one piece only, so that it may come back short. -/
namespace CutStream
variable {α : Type}

def Whole (pieces : List (List α)) : Prop := [] ∉ pieces

def recv (n : Nat) : List (List α) → List α × List (List α)
  | [] => ([], [])
  | piece :: rest => (piece.take n, if piece.length ≤ n then rest else piece.drop n :: rest)

def discard : Nat → List (List α) → List (List α)
  | _, [] => []
  | n, piece :: rest => if n < piece.length then piece.drop n :: rest else discard (n - piece.length) rest

attribute [local simp] discard

theorem discard_zero {pieces : List (List α)} (whole : Whole pieces) : discard 0 pieces = pieces := by
  cases pieces with
  | nil => rfl
  | cons piece rest =>
    have some_ : 0 < piece.length := by
      rw [List.length_pos_iff]
      exact fun empty => whole (by simp [empty])
    rw [discard, if_pos some_, List.drop_zero]

theorem discard_flatten (n : Nat) (pieces : List (List α)) :
    (discard n pieces).flatten = pieces.flatten.drop n := by
  induction pieces generalizing n with
  | nil => simp [discard]
  | cons piece rest ih =>
    rw [discard, List.flatten_cons, List.drop_append]
    split
    · rename_i inside
      have none_ : n - piece.length = 0 := by omega
      rw [List.flatten_cons, none_, List.drop_zero]
    · rename_i beyond
      rw [ih, List.drop_eq_nil_of_le (Nat.le_of_not_lt beyond), List.nil_append]

theorem discard_whole {pieces : List (List α)} (whole : Whole pieces) (n : Nat) : Whole (discard n pieces) := by
  induction pieces generalizing n with
  | nil => exact whole
  | cons piece rest ih =>
    have others : Whole rest := fun empty => whole (List.mem_cons_of_mem _ empty)
    rw [discard]
    split
    · rename_i inside
      intro empty
      rcases List.mem_cons.mp empty with dropped | later
      · have none_ := congrArg List.length dropped
        rw [List.length_nil, List.length_drop] at none_
        omega
      · exact others later
    · exact ih others _

theorem discard_discard (m n : Nat) (pieces : List (List α)) :
    discard m (discard n pieces) = discard (n + m) pieces := by
  induction pieces generalizing n with
  | nil => rfl
  | cons piece rest ih =>
    rw [discard, discard]
    split
    · rename_i inside
      rw [discard, List.length_drop, List.drop_drop]
      have same : m < piece.length - n ↔ n + m < piece.length := by omega
      have left : m - (piece.length - n) = n + m - piece.length := by omega
      simp only [same, left]
    · rename_i beyond
      have further : ¬ n + m < piece.length := by omega
      have left : n - piece.length + m = n + m - piece.length := by omega
      rw [if_neg further, ih, left]

theorem recv_left {pieces : List (List α)} (whole : Whole pieces) (n : Nat) :
    (recv n pieces).2 = discard (recv n pieces).1.length pieces := by
  cases pieces with
  | nil => rfl
  | cons piece rest =>
    have others : Whole rest := fun empty => whole (List.mem_cons_of_mem _ empty)
    rw [recv, discard, List.length_take]
    dsimp only
    split
    · rename_i all
      rw [Nat.min_eq_right all, if_neg (Nat.lt_irrefl _), Nat.sub_self, discard_zero others]
    · rename_i part
      rw [Nat.min_eq_left (by omega), if_pos (by omega)]

theorem recv_given (n : Nat) (pieces : List (List α)) :
    (recv n pieces).1 = pieces.flatten.take (recv n pieces).1.length := by
  cases pieces with
  | nil => rfl
  | cons piece rest =>
    rw [recv, List.flatten_cons, List.length_take, List.take_append_of_le_length (by omega)]
    rcases Nat.le_total n piece.length with short | long
    · rw [Nat.min_eq_left short]
    · rw [Nat.min_eq_right long, List.take_of_length_le long, List.take_of_length_le (Nat.le_refl _)]

theorem recv_short (n : Nat) (pieces : List (List α)) : (recv n pieces).1.length ≤ n := by
  cases pieces with
  | nil => exact Nat.zero_le n
  | cons piece rest =>
    rw [recv, List.length_take]
    exact Nat.min_le_left _ _

theorem recv_some {n : Nat} (positive : 0 < n) {pieces : List (List α)} (whole : Whole pieces)
    (more : pieces.flatten ≠ []) : 0 < (recv n pieces).1.length := by
  cases pieces with
  | nil => simp at more
  | cons piece rest =>
    have some_ : 0 < piece.length := by
      rw [List.length_pos_iff]
      exact fun empty => whole (by simp [empty])
    rw [recv, List.length_take]
    omega

structure Reader (α : Type) where
  buffer : List α
  incoming : List (List α)
  deriving Repr

def Reader.pending (r : Reader α) : List α := r.buffer ++ r.incoming.flatten

/-- Reads on without taking more from the stream than is asked for. -/
def Reader.skip (n : Nat) (r : Reader α) : Reader α := ⟨r.buffer.drop n, discard (n - r.buffer.length) r.incoming⟩

theorem skip_pending (n : Nat) (r : Reader α) : (r.skip n).pending = r.pending.drop n := by
  rw [Reader.pending, Reader.pending, Reader.skip, discard_flatten, List.drop_append]

theorem skip_skip (m n : Nat) (r : Reader α) : (r.skip n).skip m = r.skip (n + m) := by
  simp only [Reader.skip, List.drop_drop, discard_discard, List.length_drop]
  congr 2
  omega

theorem skip_whole {r : Reader α} (whole : Whole r.incoming) (n : Nat) : Whole (r.skip n).incoming :=
  discard_whole whole _

/-- Takes blocks of the stream into the buffer until n elements more have been read. -/
def fillPast (block : Nat) : Nat → Nat → List (List α) → Reader α
  | 0, _, pieces => ⟨[], pieces⟩
  | rounds + 1, n, pieces =>
    let (given, rest) := recv block pieces
    if n ≤ given.length then ⟨given.drop n, rest⟩ else fillPast block rounds (n - given.length) rest

def Reader.through (block n : Nat) (r : Reader α) : Reader α :=
  if n ≤ r.buffer.length then ⟨r.buffer.drop n, r.incoming⟩
  else fillPast block (n - r.buffer.length) (n - r.buffer.length) r.incoming

theorem recv_pending {pieces : List (List α)} (whole : Whole pieces) (n : Nat) :
    (recv n pieces).1 ++ (recv n pieces).2.flatten = pieces.flatten := by
  rw [recv_left whole, discard_flatten]
  nth_rewrite 1 [recv_given]
  exact List.take_append_drop _ _

theorem fillPast_pending {block : Nat} (positive : 0 < block) (rounds n : Nat) {pieces : List (List α)}
    (whole : Whole pieces) (enough : n ≤ rounds) (there : n ≤ pieces.flatten.length) :
    (fillPast block rounds n pieces).pending = pieces.flatten.drop n ∧
      Whole (fillPast block rounds n pieces).incoming := by
  induction rounds generalizing n pieces with
  | zero =>
    obtain rfl : n = 0 := by omega
    exact ⟨rfl, whole⟩
  | succ rounds ih =>
    have split_ := recv_pending whole block
    have rest : Whole (recv block pieces).2 := recv_left whole block ▸ discard_whole whole _
    simp only [fillPast]
    split
    · rename_i inside
      refine ⟨?_, rest⟩
      rw [Reader.pending, ← split_, List.drop_append_of_le_length inside]
    · rename_i further
      have more : pieces.flatten ≠ [] := by
        intro empty
        rw [empty, List.length_nil] at there
        omega
      have some_ := recv_some positive whole more
      have left : n - (recv block pieces).1.length ≤ (recv block pieces).2.flatten.length := by
        have lengths := congrArg List.length split_
        rw [List.length_append] at lengths
        omega
      obtain ⟨pending, wholeLeft⟩ := ih (n - (recv block pieces).1.length) rest (by omega) left
      have gone : (recv block pieces).1.drop n = [] := List.drop_eq_nil_of_le (by omega)
      refine ⟨?_, wholeLeft⟩
      rw [pending, ← split_, List.drop_append, gone, List.nil_append]

theorem through_pending {block : Nat} (positive : 0 < block) {n : Nat} {r : Reader α} (whole : Whole r.incoming)
    (there : n ≤ r.pending.length) :
    (r.through block n).pending = r.pending.drop n ∧ Whole (r.through block n).incoming := by
  unfold Reader.through
  split
  · rename_i inside
    refine ⟨?_, whole⟩
    rw [Reader.pending, Reader.pending, List.drop_append_of_le_length inside]
  · rename_i further
    rw [Reader.pending, List.length_append] at there
    obtain ⟨pending, wholeLeft⟩ := fillPast_pending positive (n - r.buffer.length) (n - r.buffer.length) whole
      (Nat.le_refl _) (by omega)
    have gone : r.buffer.drop n = [] := List.drop_eq_nil_of_le (by omega)
    refine ⟨?_, wholeLeft⟩
    rw [pending, Reader.pending, List.drop_append, gone, List.nil_append]

end CutStream
