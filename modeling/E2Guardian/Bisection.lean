import Mathlib.Order.Defs.LinearOrder

/- Recursive binary search driven by a three-way probe of positions. Nothing here asks
   the probe to be monotone: the results say exactly which hits such a search reaches. -/
namespace ThreeWayBisection

/-- The probe answers 0 at a hit, -1 to go on with larger positions and 1 to go on with
    smaller ones. A miss reports -1 - a for the lower end a where the interval closed. -/
def bisect (probe : Int → Int) : Nat → Int → Int → Int
  | 0, a, _ => -1 - a
  | fuel + 1, a, s =>
    if a > s then -1 - a
    else
      let m := (a + s) / 2
      let r := probe m
      if r = 0 then m
      else if r = -1 then bisect probe fuel (m + 1) s
      else if a = s then -1 - a
      else bisect probe fuel a (m - 1)

/-- The midpoints a search over a..s looks at before it can look at position k. They
    depend on the interval and on k alone, not on any probe. -/
def route : Nat → Int → Int → Int → List Int
  | 0, _, _, _ => []
  | fuel + 1, a, s, k =>
    let m := (a + s) / 2
    if k = m then []
    else if m < k then m :: route fuel (m + 1) s k
    else m :: route fuel a (m - 1) k

def ThreeWay (probe : Int → Int) : Prop := ∀ m, probe m = -1 ∨ probe m = 0 ∨ probe m = 1

/-- Right of a hit the probe never asks for a still larger position. -/
def SettledAbove (probe : Int → Int) (a s : Int) : Prop :=
  ∀ k m, a ≤ k → k < m → m ≤ s → probe k = 0 → probe m ≠ -1

/-- A hit that no midpoint left of it sends the search away from. -/
def Reached (probe : Int → Int) (fuel : Nat) (a s k : Int) : Prop :=
  a ≤ k ∧ k ≤ s ∧ probe k = 0 ∧ ∀ m ∈ route fuel a s k, m < k → probe m ≠ 1

theorem settledAbove_narrow {probe : Int → Int} {a s a' s' : Int} (h : SettledAbove probe a s)
    (lower : a ≤ a') (upper : s' ≤ s) : SettledAbove probe a' s' := by
  intro k m hk hkm hm hit
  exact h k m (by omega) hkm (by omega) hit

theorem midpoint_bounds {a s : Int} (h : a ≤ s) : a ≤ (a + s) / 2 ∧ (a + s) / 2 ≤ s := by
  omega

theorem route_mem_bounds (fuel : Nat) : ∀ a s k m : Int, a ≤ k → k ≤ s →
    m ∈ route fuel a s k → a ≤ m ∧ m ≤ s := by
  induction fuel with
  | zero => intro a s k m _ _ member; simp [route] at member
  | succ fuel ih =>
    intro a s k m low high member
    have bounds := midpoint_bounds (a := a) (s := s) (by omega)
    simp only [route] at member
    split at member
    · simp at member
    · split at member
      · rcases List.mem_cons.mp member with same | later
        · omega
        · have tail := ih _ _ _ _ (by omega) high later
          omega
      · rcases List.mem_cons.mp member with same | later
        · omega
        · have tail := ih _ _ _ _ low (by omega) later
          omega

/-- Whatever the probe, a non-negative answer is a position of the interval that it hits. -/
theorem bisect_sound (probe : Int → Int) (fuel : Nat) :
    ∀ a s : Int, 0 ≤ a → 0 ≤ bisect probe fuel a s →
      a ≤ bisect probe fuel a s ∧ bisect probe fuel a s ≤ s ∧
        probe (bisect probe fuel a s) = 0 := by
  induction fuel with
  | zero =>
    intro a s ha found
    simp only [bisect] at found
    omega
  | succ fuel ih =>
    intro a s ha found
    simp only [bisect] at found ⊢
    split at found
    · omega
    · rename_i open_
      have bounds := midpoint_bounds (a := a) (s := s) (by omega)
      rw [if_neg open_]
      split at found
      · rename_i hit
        rw [if_pos hit]
        exact ⟨bounds.1, bounds.2, hit⟩
      · rename_i miss
        rw [if_neg miss]
        split at found
        · rename_i up
          rw [if_pos up]
          have tail := ih _ _ (by omega) found
          exact ⟨by omega, tail.2.1, tail.2.2⟩
        · rename_i notUp
          rw [if_neg notUp]
          split at found
          · omega
          · rename_i wide
            rw [if_neg wide]
            have tail := ih _ _ ha found
            exact ⟨tail.1, by omega, tail.2.2⟩

theorem bisect_reached {probe : Int → Int} (fuel : Nat) :
    ∀ a s : Int, 0 ≤ a → 0 ≤ bisect probe fuel a s →
      Reached probe fuel a s (bisect probe fuel a s) := by
  intro a s ha found
  obtain ⟨low, high, hit⟩ := bisect_sound probe fuel a s ha found
  refine ⟨low, high, hit, ?_⟩
  clear low high hit
  induction fuel generalizing a s with
  | zero => simp [route]
  | succ fuel ih =>
    simp only [bisect] at found ⊢
    by_cases empty : a > s
    · rw [if_pos empty] at found
      omega
    have bounds := midpoint_bounds (a := a) (s := s) (by omega)
    rw [if_neg empty] at found ⊢
    by_cases hit : probe ((a + s) / 2) = 0
    · rw [if_pos hit] at found ⊢
      simp [route]
    rw [if_neg hit] at found ⊢
    by_cases up : probe ((a + s) / 2) = -1
    · rw [if_pos up] at found ⊢
      have right := (bisect_sound probe fuel _ _ (by omega) found).1
      have tail := ih _ _ (by omega) found
      simp only [route]
      rw [if_neg (by omega), if_pos (by omega)]
      intro m member less
      rcases List.mem_cons.mp member with same | later
      · subst same
        rw [up]
        decide
      · exact tail m later less
    rw [if_neg up] at found ⊢
    by_cases single : a = s
    · rw [if_pos single] at found
      omega
    rw [if_neg single] at found ⊢
    have left := (bisect_sound probe fuel _ _ ha found).2.1
    have tail := ih _ _ ha found
    simp only [route]
    rw [if_neg (by omega), if_neg (by omega)]
    intro m member less
    rcases List.mem_cons.mp member with same | later
    · omega
    · exact tail m later less

/-- With fuel for every position of the interval, a reached hit makes the search succeed,
    possibly at another hit met on the way. -/
theorem bisect_of_reached {probe : Int → Int} (answers : ThreeWay probe) (fuel : Nat) :
    ∀ a s k : Int, 0 ≤ a → s + 1 - a ≤ fuel → SettledAbove probe a s →
      Reached probe fuel a s k → 0 ≤ bisect probe fuel a s := by
  induction fuel with
  | zero =>
    intro a s k ha budget settled reached
    have := reached.1
    have := reached.2.1
    omega
  | succ fuel ih =>
    intro a s k ha budget settled reached
    obtain ⟨low, high, hit, clear_⟩ := reached
    have bounds := midpoint_bounds (a := a) (s := s) (by omega)
    simp only [route] at clear_
    simp only [bisect]
    rw [if_neg (by omega)]
    by_cases here : probe ((a + s) / 2) = 0
    · rw [if_pos here]
      omega
    rw [if_neg here]
    have apart : k ≠ (a + s) / 2 := by
      intro same
      exact here (same ▸ hit)
    rw [if_neg apart] at clear_
    by_cases left : (a + s) / 2 < k
    · -- The hit lies to the right, so the probe here must not answer 1.
      rw [if_pos left] at clear_
      have up : probe ((a + s) / 2) = -1 := by
        have notDown := clear_ _ (by simp) left
        rcases answers ((a + s) / 2) with h | h | h
        · exact h
        · exact absurd h here
        · exact absurd h notDown
      rw [if_pos up]
      refine ih _ _ k (by omega) (by omega) (settledAbove_narrow settled (by omega) (by omega)) ?_
      exact ⟨by omega, high, hit, fun m member less =>
        clear_ m (List.mem_cons_of_mem _ member) less⟩
    · rw [if_neg left] at clear_
      have notUp : probe ((a + s) / 2) ≠ -1 :=
        settled k _ low (by omega) (by omega) hit
      rw [if_neg notUp, if_neg (by omega)]
      refine ih _ _ k ha (by omega) (settledAbove_narrow settled (by omega) (by omega)) ?_
      exact ⟨low, by omega, hit, fun m member less =>
        clear_ m (List.mem_cons_of_mem _ member) less⟩

theorem bisect_succeeds_iff {probe : Int → Int} (answers : ThreeWay probe) (fuel : Nat)
    (a s : Int) (start : 0 ≤ a) (budget : s + 1 - a ≤ fuel) (settled : SettledAbove probe a s) :
    0 ≤ bisect probe fuel a s ↔ ∃ k, Reached probe fuel a s k := by
  constructor
  · intro found
    exact ⟨_, bisect_reached fuel a s start found⟩
  · rintro ⟨k, reached⟩
    exact bisect_of_reached answers fuel a s k start budget settled reached

theorem bisect_place {probe : Int → Int} (fuel : Nat) : ∀ a s : Int, a ≤ s + 1 → s + 1 - a ≤ fuel →
    (∀ k m, a ≤ k → k < m → m ≤ s → probe k ≠ -1 → probe m ≠ -1 ∧ probe m ≠ 0) →
    (bisect probe fuel a s ≥ a ∧ bisect probe fuel a s ≤ s ∧ probe (bisect probe fuel a s) = 0) ∨
      ∃ p, bisect probe fuel a s = -1 - p ∧ a ≤ p ∧ p ≤ s + 1 ∧ (∀ k, a ≤ k → k < p → probe k = -1) ∧
        ∀ k, p ≤ k → k ≤ s → probe k ≠ -1 ∧ probe k ≠ 0 := by
  induction fuel with
  | zero =>
    intro a s low budget _
    exact Or.inr ⟨a, rfl, by omega, by omega, fun k _ _ => by omega, fun k _ _ => by omega⟩
  | succ fuel ih =>
    intro a s low budget falls
    rw [bisect]
    split
    · exact Or.inr ⟨a, rfl, by omega, by omega, fun k _ _ => by omega, fun k _ _ => by omega⟩
    · rename_i open_
      have bounds := midpoint_bounds (a := a) (s := s) (by omega)
      dsimp only
      split
      · rename_i hit
        exact Or.inl ⟨bounds.1, bounds.2, hit⟩
      · rename_i miss
        split
        · rename_i up
          have front : ∀ k, a ≤ k → k < (a + s) / 2 + 1 → probe k = -1 := by
            intro k first before
            by_contra other
            rcases Int.lt_or_eq_of_le (Int.lt_add_one_iff.mp before) with less | same
            · exact (falls k _ first less bounds.2 other).1 up
            · exact other (same ▸ up)
          rcases ih ((a + s) / 2 + 1) s (by omega) (by omega) fun k m first => falls k m (by omega) with
            ⟨found, inside, hit⟩ | ⟨p, miss, first, last, before, behind⟩
          · exact Or.inl ⟨by omega, inside, hit⟩
          · refine Or.inr ⟨p, miss, by omega, last, fun k low' less => ?_, behind⟩
            by_cases early : k < (a + s) / 2 + 1
            · exact front k low' early
            · exact before k (by omega) less
        · rename_i down
          have back : ∀ k, (a + s) / 2 ≤ k → k ≤ s → probe k ≠ -1 ∧ probe k ≠ 0 := by
            intro k first inside
            rcases Int.lt_or_eq_of_le first with less | same
            · exact falls _ k bounds.1 less inside down
            · exact same ▸ ⟨down, miss⟩
          split
          · rename_i single
            exact Or.inr ⟨a, rfl, by omega, by omega, fun k _ _ => by omega, fun k _ _ => back k (by omega) (by omega)⟩
          · rcases ih a ((a + s) / 2 - 1) (by omega) (by omega) fun k m first less inside => falls k m first less (by omega) with
              ⟨found, inside, hit⟩ | ⟨p, miss, first, last, before, behind⟩
            · exact Or.inl ⟨found, by omega, hit⟩
            · refine Or.inr ⟨p, miss, first, by omega, before, fun k high inside => ?_⟩
              by_cases late : (a + s) / 2 ≤ k
              · exact back k late inside
              · exact behind k high (by omega)

def visits (probe : Int → Int) : Nat → Int → Int → List Int
  | 0, _, _ => []
  | fuel + 1, a, s =>
    if a > s then []
    else
      let m := (a + s) / 2
      if probe m = 0 then [m]
      else if probe m = -1 then m :: visits probe fuel (m + 1) s
      else if a = s then [m]
      else m :: visits probe fuel a (m - 1)

theorem visits_inside (probe : Int → Int) (fuel : Nat) :
    ∀ a s m : Int, m ∈ visits probe fuel a s → a ≤ m ∧ m ≤ s := by
  induction fuel with
  | zero =>
    intro a s m member
    cases member
  | succ fuel ih =>
    intro a s m member
    rw [visits] at member
    split at member
    · cases member
    · have bounds := midpoint_bounds (a := a) (s := s) (by omega)
      dsimp only at member
      split at member
      · rw [List.mem_singleton.mp member]
        exact bounds
      · split at member
        · rcases List.mem_cons.mp member with here | later
          · omega
          · have inside := ih _ _ m later
            omega
        · split at member
          · rw [List.mem_singleton.mp member]
            exact bounds
          · rcases List.mem_cons.mp member with here | later
            · omega
            · have inside := ih _ _ m later
              omega

theorem bisect_of_hit {probe : Int → Int} (answers : ThreeWay probe) (fuel : Nat) {a s k : Int} (start : 0 ≤ a)
    (budget : s + 1 - a ≤ fuel) (low : a ≤ k) (high : k ≤ s) (hit : probe k = 0)
    (above : ∀ k m, a ≤ k → k < m → m ≤ s → probe k = 0 → probe m ≠ -1)
    (below : ∀ m, a ≤ m → m < k → probe m ≠ 1) : 0 ≤ bisect probe fuel a s := by
  refine bisect_of_reached answers fuel a s k start budget above ⟨low, high, hit, ?_⟩
  intro m member less
  exact below m (route_mem_bounds fuel a s k m low high member).1 less

end ThreeWayBisection
