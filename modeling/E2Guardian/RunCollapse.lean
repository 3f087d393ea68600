import Mathlib.Data.List.Infix

/- Collapsing the runs of one symbol in a word to a single one, and when the collapsed word
   still occurs in the word itself. -/
namespace RunCollapse

variable {α : Type} [DecidableEq α] (g : α)

def squeeze : Bool → List α → List α
  | _, [] => []
  | behind, x :: xs =>
    if x = g then if behind then squeeze true xs else x :: squeeze true xs
    else x :: squeeze false xs

attribute [local simp] squeeze

/-- Two adjacent g stand only before the first or after the last other symbol. -/
def OnlyOuterRuns (word : List α) : Prop :=
  ∀ a d, word = a ++ g :: g :: d → (∀ x ∈ a, x = g) ∨ ∀ x ∈ d, x = g

variable {g}

theorem squeeze_behind_run {word : List α} (run : ∀ x ∈ word, x = g) : squeeze g true word = [] := by
  induction word with
  | nil => rfl
  | cons x word ih =>
    rw [squeeze, if_pos (run x List.mem_cons_self), if_pos rfl]
    exact ih fun y member => run y (List.mem_cons_of_mem _ member)

theorem squeeze_length_le (behind : Bool) (word : List α) :
    (squeeze g behind word).length ≤ word.length := by
  induction word generalizing behind with
  | nil => simp [squeeze]
  | cons x word ih =>
    have tail := ih true
    rw [squeeze]
    split
    · split
      · exact tail.trans (Nat.le_succ _)
      · exact Nat.succ_le_succ tail
    · exact Nat.succ_le_succ (ih false)

theorem squeeze_ne_nil {word : List α} (nonempty : word ≠ []) : squeeze g false word ≠ [] := by
  cases word with
  | nil => exact absurd rfl nonempty
  | cons x word =>
    rw [squeeze]
    split <;> simp

theorem squeeze_filter (behind : Bool) (word : List α) :
    (squeeze g behind word).filter (fun x => !decide (x = g)) = word.filter (fun x => !decide (x = g)) := by
  induction word generalizing behind with
  | nil => rfl
  | cons x word ih =>
    rw [squeeze]
    by_cases gap : x = g
    · cases behind <;> simp [gap, ih]
    · simp [gap, ih]

theorem squeeze_head_behind (word : List α) (d : List α) : squeeze g true word ≠ g :: d := by
  induction word generalizing d with
  | nil => simp [squeeze]
  | cons x word ih =>
    rw [squeeze]
    split
    · exact ih d
    · rename_i other
      simp [other]

theorem squeeze_no_double (behind : Bool) (word a d : List α) :
    squeeze g behind word ≠ a ++ g :: g :: d := by
  induction word generalizing behind a with
  | nil => simp [squeeze]
  | cons x word ih =>
    rw [squeeze]
    split
    · split
      · exact ih true a
      · cases a with
        | nil =>
          intro same
          exact squeeze_head_behind word d (List.cons.inj same).2
        | cons y a =>
          intro same
          exact ih true a (List.cons.inj same).2
    · rename_i other
      cases a with
      | nil =>
        intro same
        exact other (List.cons.inj same).1
      | cons y a =>
        intro same
        exact ih false a (List.cons.inj same).2

/-- Behind another symbol nothing is lost but what the last run has too many. -/
theorem squeeze_starts (behind : Bool) {word : List α}
    (late : ∀ a d, word = a ++ g :: g :: d → ∀ x ∈ d, x = g)
    (next : behind = true → ∀ d, word = g :: d → ∀ x ∈ d, x = g) : squeeze g behind word <+: word := by
  induction word generalizing behind with
  | nil => exact List.nil_prefix
  | cons x word ih =>
    have lateTail : ∀ a d, word = a ++ g :: g :: d → ∀ y ∈ d, y = g :=
      fun a d split => late (x :: a) d (by rw [split, List.cons_append])
    rw [squeeze]
    split
    · rename_i gap
      split
      · rename_i isBehind
        rw [squeeze_behind_run (next isBehind word (by rw [gap]))]
        exact List.nil_prefix
      · refine (List.prefix_cons_inj x).mpr (ih true lateTail ?_)
        intro _ d run
        exact late [] d (by rw [gap, run]; rfl)
    · exact (List.prefix_cons_inj x).mpr (ih false lateTail fun h => absurd h (by decide))

theorem squeeze_occurs {word : List α} (outer : OnlyOuterRuns g word) :
    squeeze g false word <:+: word := by
  induction word with
  | nil => exact List.infix_rfl
  | cons x word ih =>
    by_cases gap : x = g
    · subst gap
      have rest : OnlyOuterRuns x word := by
        intro a d split
        rcases outer (x :: a) d (by rw [split, List.cons_append]) with early | late
        · exact .inl fun y member => early y (List.mem_cons_of_mem _ member)
        · exact .inr late
      cases word with
      | nil => simp [squeeze]
      | cons y word =>
        by_cases again : y = x
        · subst again
          have same : squeeze y false (y :: y :: word) = squeeze y false (y :: word) := by
            simp [squeeze]
          rw [same]
          exact (ih rest).trans (List.suffix_cons y _).isInfix
        · -- from the first other symbol on, runs stand only at the end
          have late : ∀ a d, word = a ++ x :: x :: d → ∀ z ∈ d, z = x := by
            intro a d split
            rcases outer (x :: y :: a) d (by rw [split]; rfl) with early | late
            · exact absurd (early y (by simp)) again
            · exact late
          have tail := squeeze_starts false late fun h => absurd h (by decide)
          simp only [squeeze, again, ↓reduceIte, Bool.false_eq_true]
          exact ((List.prefix_cons_inj x).mpr ((List.prefix_cons_inj y).mpr tail)).isInfix
    · have late : ∀ a d, word = a ++ g :: g :: d → ∀ z ∈ d, z = g := by
        intro a d split
        rcases outer (x :: a) d (by rw [split]; rfl) with early | late
        · exact absurd (early x (by simp)) gap
        · exact late
      have tail := squeeze_starts false late fun h => absurd h (by decide)
      rw [squeeze, if_neg gap]
      exact ((List.prefix_cons_inj x).mpr tail).isInfix

theorem outer_of_squeeze_occurs {word : List α} (occurs : squeeze g false word <:+: word) :
    OnlyOuterRuns g word := by
  obtain ⟨u, v, split⟩ := occurs
  have counts := congrArg (List.filter (fun x => !decide (x = g))) split
  rw [List.filter_append, List.filter_append, squeeze_filter] at counts
  have lengths := congrArg List.length counts
  simp only [List.length_append] at lengths
  have uRun : ∀ x ∈ u, x = g := by
    have := List.length_eq_zero_iff.mp (show (u.filter (fun x => !decide (x = g))).length = 0 by omega)
    simpa [List.filter_eq_nil_iff] using this
  have vRun : ∀ x ∈ v, x = g := by
    have := List.length_eq_zero_iff.mp (show (v.filter (fun x => !decide (x = g))).length = 0 by omega)
    simpa [List.filter_eq_nil_iff] using this
  intro a d double
  rw [← split, List.append_assoc] at double
  rcases List.append_eq_append_iff.mp double with ⟨a', rfl, middle⟩ | ⟨c, rfl, -⟩
  · rcases List.append_eq_append_iff.mp middle with ⟨v', -, rfl⟩ | ⟨c, inside, rest⟩
    · exact .inr fun x member => vRun x (by simp [member])
    · -- the pair reaches from the collapsed word into the run behind it
      match c, inside, rest with
      | [], _, rest =>
        obtain rfl : g :: g :: d = v := by simpa using rest
        exact .inr fun x member => vRun x (by simp [member])
      | [_], _, rest =>
        obtain rfl : g :: d = v := by simpa using (List.cons.inj rest).2
        exact .inr fun x member => vRun x (by simp [member])
      | _ :: _ :: c, inside, rest =>
        simp only [List.cons_append, List.cons.injEq] at rest
        obtain ⟨rfl, rfl, -⟩ := rest
        exact absurd inside (squeeze_no_double false word a' c)
  · exact .inl fun x member => uRun x (List.mem_append_left _ member)

/-- A word contains its collapsed form exactly if no run of two or more stands between two
other symbols. -/
theorem squeeze_occurs_iff (word : List α) :
    squeeze g false word <:+: word ↔ OnlyOuterRuns g word :=
  ⟨outer_of_squeeze_occurs, squeeze_occurs⟩

end RunCollapse
