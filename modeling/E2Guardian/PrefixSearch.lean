import Mathlib.Data.List.Basic
import Mathlib.Data.List.Sort
import E2Guardian.Bisection

/- Binary search for a prefix of a query among words in descending lexicographic order.
   A word may be a prefix of another word, so the probe is not monotone along the list:
   an extension of the wanted word can send the search away from it. Letters are compared
   through an integer key. -/
namespace PrefixSearch
open ThreeWayBisection
variable {α : Type} (key : α → Int)

def precedes : List α → List α → Bool
  | x :: a, y :: b =>
    if key x > key y then true else if key x < key y then false else precedes a b
  | _ :: _, [] => true
  | [], _ => false

/-- Three-way comparison of a query with a word. A word that is used up is a hit when the
    query is used up too or goes on with a letter that `stop` accepts. -/
def probe (stop : α → Bool) : List α → List α → Int
  | x :: q, y :: b =>
    if key x > key y then 1 else if key x < key y then -1 else probe stop q b
  | x :: _, [] => if stop x then 0 else 1
  | [], _ :: _ => -1
  | [], [] => 0

attribute [local simp] probe

/-- The word is a prefix of the query that ends with it or just before a stop letter. -/
def Ends (stop : α → Bool) (q w : List α) : Prop :=
  w <+: q ∧ ∀ x ∈ (q.drop w.length).head?, stop x = true

instance [DecidableEq α] (stop : α → Bool) (q w : List α) : Decidable (Ends stop q w) :=
  inferInstanceAs (Decidable (_ ∧ _))

theorem ends_cons (stop : α → Bool) (x : α) (q w : List α) :
    Ends stop (x :: q) (x :: w) ↔ Ends stop q w := by
  simp [Ends, List.cons_prefix_cons]

theorem precedes_cotransitive (a b c : List α) (h : precedes key c a = true) :
    precedes key c b = true ∨ precedes key b a = true := by
  induction c generalizing a b with
  | nil => simp [precedes] at h
  | cons z c ih =>
    cases b with
    | nil => exact Or.inl rfl
    | cons y b =>
      cases a with
      | nil => exact Or.inr rfl
      | cons x a =>
        simp only [precedes] at h ⊢
        split at h
        · split
          · exact Or.inl rfl
          · split
            · rw [if_pos (by omega)]
              exact Or.inr rfl
            · rw [if_pos (by omega)]
              exact Or.inr rfl
        · split at h
          · simp at h
          · have same : key z = key x := by omega
            have rest := ih a b h
            rw [same]
            rcases lt_trichotomy (key x) (key y) with less | level | more
            · exact Or.inr (by rw [if_pos (by omega)])
            · simpa [level] using rest
            · exact Or.inl (by rw [if_pos (by omega)])

theorem precedes_asymm (a b : List α) (h : precedes key a b = true) :
    precedes key b a = false := by
  induction a generalizing b with
  | nil => simp [precedes] at h
  | cons x a ih =>
    cases b with
    | nil => rfl
    | cons y b =>
      simp only [precedes] at h ⊢
      split at h
      · rw [if_neg (by omega), if_pos (by omega)]
      · split at h
        · simp at h
        · rw [if_neg (by omega), if_neg (by omega)]
          exact ih b h

/-- Words in the order a stable sort by `precedes` leaves them. -/
def Descending (ws : List (List α)) : Prop := ws.Pairwise fun a b => precedes key b a = false

def sortDescending {β : Type} (view : β → List α) (ws : List β) : List β :=
  ws.insertionSort fun a b => precedes key (view b) (view a) = false

theorem sortDescending_perm {β : Type} (view : β → List α) (ws : List β) :
    (sortDescending key view ws).Perm ws :=
  List.perm_insertionSort _ ws

theorem sortDescending_descending {β : Type} (view : β → List α) (ws : List β) :
    Descending key ((sortDescending key view ws).map view) := by
  let r : β → β → Prop := fun a b => precedes key (view b) (view a) = false
  have total : Std.Total r := ⟨by
    intro a b
    by_cases h : precedes key (view b) (view a) = true
    · exact Or.inr (precedes_asymm key _ _ h)
    · exact Or.inl (by simpa using h)⟩
  have trans : IsTrans β r := ⟨by
    intro a b c hab hbc
    by_contra h
    rcases precedes_cotransitive key _ (view b) _ (by simpa [r] using h) with hcb | hba
    · exact absurd hbc (by simp [r, hcb])
    · exact absurd hab (by simp [r, hba])⟩
  exact List.pairwise_map.mpr (List.pairwise_insertionSort r ws)

theorem probe_threeway (stop : α → Bool) (q w : List α) :
    probe key stop q w = -1 ∨ probe key stop q w = 0 ∨ probe key stop q w = 1 := by
  induction q generalizing w with
  | nil => cases w <;> simp [probe]
  | cons x q ih =>
    cases w with
    | nil => simp only [probe]; split <;> simp
    | cons y w =>
      simp only [probe]
      split
      · simp
      · split
        · simp
        · exact ih w

theorem probe_neg_iff (stop : α → Bool) (q w : List α) :
    probe key stop q w = -1 ↔ precedes key w q = true := by
  induction q generalizing w with
  | nil => cases w <;> simp [probe, precedes]
  | cons x q ih =>
    cases w with
    | nil => simp only [probe, precedes]; split <;> simp
    | cons y w =>
      simp only [probe, precedes]
      rcases lt_trichotomy (key x) (key y) with less | level | more
      · simp [less, not_lt_of_gt less]
      · simpa [level] using ih w
      · simp [more, not_lt_of_gt more]

theorem probe_zero_iff (inj : Function.Injective key) (stop : α → Bool) (q w : List α) :
    probe key stop q w = 0 ↔ Ends stop q w := by
  induction q generalizing w with
  | nil => cases w <;> simp [probe, Ends]
  | cons x q ih =>
    cases w with
    | nil => simp only [probe, Ends]; split <;> simp_all
    | cons y w =>
      simp only [probe]
      by_cases same : x = y
      · subst same
        simp only [gt_iff_lt, lt_self_iff_false, ↓reduceIte, ih w, ends_cons]
      · have apart : key x ≠ key y := fun h => same (inj h)
        have no : ¬ Ends stop (x :: q) (y :: w) := by
          intro h
          exact same (List.cons_prefix_cons.mp h.1).1.symm
        simp only [no, iff_false]
        split
        · simp
        · rw [if_pos (by omega)]; simp

/-- A word at or below a prefix of the query is not above the query. -/
theorem precedes_of_prefix {q w v : List α} (pre : w <+: q) (h : precedes key v q = true) :
    precedes key v w = true := by
  induction v generalizing q w with
  | nil => simp [precedes] at h
  | cons z v ih =>
    cases w with
    | nil => rfl
    | cons y w =>
      cases q with
      | nil => simp at pre
      | cons x q =>
        obtain ⟨rfl, tail⟩ := List.cons_prefix_cons.mp pre
        simp only [precedes] at h ⊢
        rcases lt_trichotomy (key z) (key y) with less | level | more
        · simp [less, not_lt_of_gt less] at h
        · simp only [level, gt_iff_lt, lt_self_iff_false, ↓reduceIte] at h ⊢
          exact ih tail h
        · simp [more]

/-- Between a prefix of the query and the query there are only extensions of the prefix. -/
theorem prefix_of_between (inj : Function.Injective key) {stop : α → Bool} {q w v : List α}
    (pre : w <+: q) (above : precedes key w v = false) (below : probe key stop q v = 1) :
    w <+: v := by
  induction w generalizing q v with
  | nil => exact List.nil_prefix
  | cons y w ih =>
    cases q with
    | nil => simp at pre
    | cons x q =>
      obtain ⟨rfl, tail⟩ := List.cons_prefix_cons.mp pre
      cases v with
      | nil => simp [precedes] at above
      | cons z v =>
        simp only [precedes] at above
        simp only [probe] at below
        split at above
        · simp at above
        · rename_i notAbove
          rw [if_neg notAbove] at below
          split at above
          · rename_i less
            rw [if_pos less] at below
            simp at below
          · rename_i notBelow
            rw [if_neg notBelow] at below
            have same : y = z := inj (by omega)
            subst same
            exact List.cons_prefix_cons.mpr ⟨rfl, ih tail above below⟩

/-- Positions outside the list probe the empty word; the search never looks there. -/
def probeAt (stop : α → Bool) (ws : List (List α)) (q : List α) (m : Int) : Int :=
  probe key stop q (ws.getD m.toNat [])

def searchWords (stop : α → Bool) (ws : List (List α)) (q : List α) : Int :=
  bisect (probeAt key stop ws q) ws.length 0 (ws.length - 1)

/-- A longer word that begins with w and yet compares below the query: met before w, it
    sends the search to the wrong half. -/
def Shadows (stop : α → Bool) (q w v : List α) : Prop :=
  w <+: v ∧ probe key stop q v = 1

instance [DecidableEq α] (stop : α → Bool) (q w v : List α) :
    Decidable (Shadows key stop q w v) := inferInstanceAs (Decidable (_ ∧ _))

/-- The word at position k is a hit, and no midpoint on the way to k shadows it. -/
def Unshadowed (stop : α → Bool) (ws : List (List α)) (q : List α) (k : Nat) : Prop :=
  k < ws.length ∧ Ends stop q (ws.getD k []) ∧
    ∀ m ∈ route ws.length 0 (ws.length - 1) k, m < k →
      ¬ Shadows key stop q (ws.getD k []) (ws.getD m.toNat [])

instance [DecidableEq α] (stop : α → Bool) (ws : List (List α)) (q : List α) (k : Nat) :
    Decidable (Unshadowed key stop ws q k) := inferInstanceAs (Decidable (_ ∧ _ ∧ _))

theorem descending_getD {ws : List (List α)} (sorted : Descending key ws) {i j : Nat}
    (less : i < j) (bound : j < ws.length) :
    precedes key (ws.getD j []) (ws.getD i []) = false := by
  have inner : i < ws.length := by omega
  simp only [List.getD_eq_getElem?_getD, List.getElem?_eq_getElem inner,
    List.getElem?_eq_getElem bound, Option.getD_some]
  exact List.pairwise_iff_getElem.mp sorted i j inner bound less

theorem descending_settledAbove (inj : Function.Injective key) (stop : α → Bool)
    {ws : List (List α)} (sorted : Descending key ws) (q : List α) :
    SettledAbove (probeAt key stop ws q) 0 (ws.length - 1) := by
  intro k m low less high hit above
  have pre := ((probe_zero_iff key inj stop _ _).mp hit).1
  have greater := precedes_of_prefix key pre ((probe_neg_iff key stop _ _).mp above)
  rw [descending_getD key sorted (by omega) (by omega)] at greater
  exact Bool.noConfusion greater

theorem searchWords_sound (inj : Function.Injective key) (stop : α → Bool)
    {ws : List (List α)} {q : List α} (found : 0 ≤ searchWords key stop ws q) :
    (searchWords key stop ws q).toNat < ws.length ∧
      Ends stop q (ws.getD (searchWords key stop ws q).toNat []) := by
  obtain ⟨_, high, hit⟩ := bisect_sound _ _ 0 _ (by omega) found
  simp only [searchWords] at found ⊢
  exact ⟨by omega, (probe_zero_iff key inj stop _ _).mp hit⟩

/-- In descending order the search succeeds exactly when some hit is unshadowed. -/
theorem searchWords_succeeds_iff (inj : Function.Injective key) (stop : α → Bool)
    {ws : List (List α)} (sorted : Descending key ws) (q : List α) :
    0 ≤ searchWords key stop ws q ↔ ∃ k, Unshadowed key stop ws q k := by
  have answers : ThreeWay (probeAt key stop ws q) := fun m => probe_threeway key stop q _
  rw [searchWords, bisect_succeeds_iff answers _ _ _ (by omega) (by omega)
    (descending_settledAbove key inj stop sorted q)]
  constructor
  · rintro ⟨k, low, high, hit, clear_⟩
    have back : ((k.toNat : Nat) : Int) = k := by omega
    refine ⟨k.toNat, by omega, (probe_zero_iff key inj stop _ _).mp hit, ?_⟩
    intro m member less shadow
    rw [back] at member less
    exact clear_ m member less shadow.2
  · rintro ⟨k, bound, hit, clear_⟩
    refine ⟨k, by omega, by omega, (probe_zero_iff key inj stop _ _).mpr (by simpa using hit), ?_⟩
    intro m member less down
    have inside := route_mem_bounds _ _ _ _ _ (by omega) (by omega) member
    have above := descending_getD key sorted (i := m.toNat) (j := k) (by omega) bound
    exact clear_ m member less ⟨prefix_of_between key inj hit.1 above down, down⟩

/- A search for the whole word. -/
theorem ends_whole (q w : List α) : Ends (fun _ => false) q w ↔ w = q := by
  constructor
  · rintro ⟨⟨t, rfl⟩, stops⟩
    rw [List.drop_left] at stops
    cases t with
    | nil => exact (List.append_nil w).symm
    | cons x t => cases stops x rfl
  · rintro rfl
    simp [Ends]

theorem probe_whole_pos_iff (q w : List α) : probe key (fun _ => false) q w = 1 ↔ precedes key q w = true := by
  induction q generalizing w with
  | nil => cases w <;> simp [probe, precedes]
  | cons x q ih =>
    cases w with
    | nil => simp [probe, precedes]
    | cons y w =>
      simp only [probe, precedes]
      rcases lt_trichotomy (key x) (key y) with less | level | more
      · simp [less, not_lt_of_gt less]
      · simpa [level] using ih w
      · simp [more]

/-- In descending order the search for a whole word finds it exactly when it is there. -/
theorem searchWords_whole (inj : Function.Injective key) {ws : List (List α)} (sorted : Descending key ws) (q : List α) :
    (q ∈ ws → 0 ≤ searchWords key (fun _ => false) ws q ∧
        ws[(searchWords key (fun _ => false) ws q).toNat]? = some q) ∧
      (q ∉ ws → searchWords key (fun _ => false) ws q < 0) := by
  have hit_iff : ∀ m, probeAt key (fun _ => false) ws q m = 0 ↔ ws.getD m.toNat [] = q := fun m =>
    (probe_zero_iff key inj _ _ _).trans (ends_whole _ _)
  have sound : 0 ≤ searchWords key (fun _ => false) ws q →
      ws[(searchWords key (fun _ => false) ws q).toNat]? = some q := by
    intro found
    obtain ⟨inside, hit⟩ := searchWords_sound key inj _ found
    rw [ends_whole, List.getD_eq_getElem?_getD, List.getElem?_eq_getElem inside, Option.getD_some] at hit
    rw [List.getElem?_eq_getElem inside, hit]
  constructor
  · intro member
    obtain ⟨k, inside, there⟩ := List.getElem_of_mem member
    have cell : ws.getD k [] = q := by
      rw [List.getD_eq_getElem?_getD, List.getElem?_eq_getElem inside, Option.getD_some, there]
    have found : 0 ≤ searchWords key (fun _ => false) ws q := by
      refine bisect_of_hit (k := k) (fun m => probe_threeway key _ q _) ws.length (by omega) (by omega) (by omega)
        (by omega) ((hit_iff k).mpr (by simpa using cell)) ?_ ?_
      · exact descending_settledAbove key inj _ sorted q
      · intro m low less above
        have greater := (probe_whole_pos_iff key _ _).mp above
        have order := descending_getD key sorted (i := m.toNat) (j := k) (by omega) inside
        rw [cell, greater] at order
        cases order
    exact ⟨found, sound found⟩
  · intro absent
    by_contra found
    exact absent (List.mem_of_getElem? (sound (by omega)))

end PrefixSearch
