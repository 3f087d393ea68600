import Mathlib.Data.List.Infix
import Mathlib.Data.List.Range

/- Counting the occurrences of a word in a text, and quick search: the shift by the symbol
   behind the window, with a copy of the word behind the text as the sentinel that ends
   the loop. -/
namespace QuickSearch

variable {α : Type} [DecidableEq α]

def occursAt (w text : List α) (i : Nat) : Bool := w.isPrefixOf (text.drop i)

def countBetween (w text : List α) (j n : Nat) : Nat :=
  (List.range' j (n - j)).countP (occursAt w text)

def occurrences (w text : List α) : Nat := countBetween w text 0 text.length

def shiftTable (w : List α) : α → Nat :=
  w.zipIdx.foldl (fun table (c, j) x => if x = c then w.length - j else table x)
    fun _ => w.length + 1

def compare : List α → List α → Option Bool
  | [], _ => some true
  | _ :: _, [] => none
  | c :: w, b :: text => if b = c then compare w text else some false

def searchLoop (w text : List α) (n : Nat) : Nat → Nat → Nat → Option Nat
  | 0, _, _ => none
  | fuel + 1, j, count =>
    match compare w (text.drop j) with
    | none => none
    | some found =>
      if found ∧ n ≤ j then some count
      else
        match text[j + w.length]? with
        | none => none
        | some c => searchLoop w text n fuel (j + shiftTable w c) (if found then count + 1 else count)

theorem occursAt_iff (w text : List α) (i : Nat) : occursAt w text i ↔ w <+: text.drop i :=
  List.isPrefixOf_iff_prefix

theorem compare_eq {w text : List α} (room : w.length ≤ text.length) :
    compare w text = some (w.isPrefixOf text) := by
  induction w generalizing text with
  | nil => simp [compare]
  | cons c w ih =>
    cases text with
    | nil => simp at room
    | cons b text =>
      rw [compare]
      by_cases same : b = c
      · have rest := ih (by simpa using room : w.length ≤ text.length)
        simp [same, rest]
      · have flip : ¬ c = b := fun h => same h.symm
        simp [same, List.isPrefixOf, flip]

/-- No occurrence of the symbol among the last places of the word that a shift skips,
    as far as the first k symbols of the word are in the table. -/
def SkipsFree (w : List α) (c : α) (k shift : Nat) : Prop :=
  0 < shift ∧ shift ≤ w.length + 1 ∧
    ∀ d, w.length - k < d → d < shift → w[w.length - d]? ≠ some c

theorem table_fold_skips_free {w : List α} {c : α} (v : List α) (k : Nat) (table : α → Nat)
    (rest : w.drop k = v) (free : SkipsFree w c k (table c)) :
    SkipsFree w c (k + v.length) ((v.zipIdx k).foldl
      (fun table (b, j) x => if x = b then w.length - j else table x) table c) := by
  induction v generalizing k table with
  | nil => simpa using free
  | cons b v ih =>
    have inside : k < w.length := by
      by_contra outside
      simp [List.drop_eq_nil_of_le (Nat.le_of_not_lt outside)] at rest
    have here : w[k]? = some b := by
      rw [← List.head?_drop, rest, List.head?_cons]
    have next : w.drop (k + 1) = v := by
      rw [← List.tail_drop, rest, List.tail_cons]
    have step := ih (k + 1) (fun x => if x = b then w.length - k else table x) next
    rw [List.zipIdx_cons, List.foldl_cons, List.length_cons, Nat.add_comm v.length 1, ← Nat.add_assoc]
    apply step
    obtain ⟨positive, bounded, skipped⟩ := free
    by_cases same : c = b
    · simp only [same, ↓reduceIte]
      refine ⟨by omega, by omega, ?_⟩
      intro d low high
      omega
    · simp only [same, ↓reduceIte]
      refine ⟨positive, bounded, ?_⟩
      intro d low high
      by_cases edge : w.length - k < d
      · exact skipped d edge high
      · have place : w.length - d = k := by omega
        rw [place, here]
        simpa using fun h => same h.symm

theorem shiftTable_skips_free (w : List α) (c : α) :
    SkipsFree w c w.length (shiftTable w c) := by
  have start : SkipsFree w c 0 (w.length + 1) := by
    refine ⟨by omega, by omega, ?_⟩
    intro d low high
    omega
  have folded := table_fold_skips_free w 0 (fun _ => w.length + 1) (List.drop_zero) start
  simpa [shiftTable] using folded

theorem not_occursAt_of_skipped {w text : List α} {c : α} {j i : Nat}
    (behind : text[j + w.length]? = some c) (after : j < i) (before : i < j + shiftTable w c) :
    occursAt w text i = false := by
  obtain ⟨positive, bounded, skipped⟩ := shiftTable_skips_free w c
  by_contra occurs
  rw [Bool.not_eq_false, occursAt_iff] at occurs
  obtain ⟨tail, split⟩ := occurs
  apply skipped (i - j) (by omega) (by omega)
  have place : (text.drop i)[w.length - (i - j)]? = some c := by
    rw [List.getElem?_drop, ← behind]
    congr 1
    omega
  rw [← split, List.getElem?_append_left (by omega)] at place
  exact place

theorem countBetween_split (w text : List α) {j m n : Nat} (low : j ≤ m) (high : m ≤ n) :
    countBetween w text j n = countBetween w text j m + countBetween w text m n := by
  have lengths : n - j = (m - j) + (n - m) := by omega
  have meet : j + (m - j) = m := by omega
  rw [countBetween, lengths, ← List.range'_append_1, List.countP_append, meet]
  rfl

theorem countBetween_one (w text : List α) (j : Nat) :
    countBetween w text j (j + 1) = if occursAt w text j then 1 else 0 := by
  simp [countBetween, List.countP_cons]

theorem countBetween_eq_zero {w text : List α} {j n : Nat}
    (free : ∀ i, j ≤ i → i < n → occursAt w text i = false) : countBetween w text j n = 0 := by
  rw [countBetween, List.countP_eq_zero]
  intro i inside
  rw [List.mem_range'_1] at inside
  simp [free i inside.1 (by omega)]

/-- With the word behind the text as sentinel, the loop ends there and has counted every
    occurrence before it. -/
theorem searchLoop_eq {w text : List α} {n : Nat} (sentinel : occursAt w text n)
    (room : n + w.length ≤ text.length) (fuel j count : Nat) (inside : j ≤ n) (enough : n - j < fuel) :
    searchLoop w text n fuel j count = some (count + countBetween w text j n) := by
  induction fuel generalizing j count with
  | zero => omega
  | succ fuel ih =>
    have fits : w.length ≤ (text.drop j).length := by
      rw [List.length_drop]
      omega
    rw [searchLoop, compare_eq fits]
    change (if occursAt w text j ∧ n ≤ j then _ else _) = _
    by_cases last : j = n
    · subst last
      simp [sentinel, countBetween]
    · have behind : j + w.length < text.length := by omega
      have early : ¬ (occursAt w text j ∧ n ≤ j) := by omega
      rw [if_neg early, List.getElem?_eq_getElem behind]
      change searchLoop w text n fuel (j + shiftTable w text[j + w.length])
        (if occursAt w text j then count + 1 else count) = _
      have skips := shiftTable_skips_free w text[j + w.length]
      have skipped : ∀ i, j < i → i < j + shiftTable w text[j + w.length] →
          occursAt w text i = false := fun i after before =>
        not_occursAt_of_skipped (List.getElem?_eq_getElem behind) after before
      have notBeyond : j + shiftTable w text[j + w.length] ≤ n := by
        by_contra beyond
        have missed := skipped n (by omega) (by omega)
        simp [sentinel] at missed
      have positive := skips.1
      rw [ih _ _ notBeyond (by omega),
        countBetween_split w text (Nat.le_add_right j _) notBeyond,
        countBetween_split w text (Nat.le_succ j) (by omega : j + 1 ≤ _), countBetween_one,
        countBetween_eq_zero fun i low high => skipped i (by omega) high]
      split <;> simp [Nat.add_assoc]

theorem occursAt_append_iff (w doc tail : List α) (i : Nat) :
    occursAt w doc i ↔ occursAt w (doc ++ tail) i ∧ i + w.length ≤ max i doc.length := by
  rw [occursAt_iff, occursAt_iff]
  constructor
  · intro within
    refine ⟨?_, ?_⟩
    · by_cases inside : i ≤ doc.length
      · rw [List.drop_append_of_le_length inside]
        exact within.trans (List.prefix_append _ _)
      · have short : doc.drop i = [] := List.drop_eq_nil_of_le (by omega)
        rw [short, List.prefix_nil] at within
        simp [within]
    · have fits := within.length_le
      rw [List.length_drop] at fits
      omega
  · rintro ⟨across, fits⟩
    by_cases inside : i ≤ doc.length
    · rw [List.drop_append_of_le_length inside] at across
      refine List.prefix_of_prefix_length_le across (List.prefix_append _ _) ?_
      rw [List.length_drop]
      omega
    · have empty : w = [] := List.eq_nil_of_length_eq_zero (by omega)
      simp [empty]

theorem countP_eq_iff {β : Type} {p q : β → Bool} {l : List β} (weaker : ∀ x ∈ l, p x → q x) :
    l.countP q = l.countP p ↔ ∀ x ∈ l, q x → p x := by
  induction l with
  | nil => simp
  | cons x l ih =>
    have rest := ih fun y mem => weaker y (List.mem_cons_of_mem x mem)
    have grows : l.countP p ≤ l.countP q :=
      List.countP_mono_left fun y mem => weaker y (List.mem_cons_of_mem x mem)
    have here := weaker x List.mem_cons_self
    rw [List.countP_cons, List.countP_cons, List.forall_mem_cons, ← rest]
    cases strong : p x with
    | true => simp [here strong]
    | false =>
      cases weak : q x with
      | true =>
        simp
        omega
      | false => simp

/-- What a search across the end of the text counts is the number of occurrences in the text
    exactly when none of them runs over the end. -/
theorem countBetween_append_eq_iff (w doc tail : List α) :
    countBetween w (doc ++ tail) 0 doc.length = occurrences w doc ↔
      ∀ i < doc.length, occursAt w (doc ++ tail) i → i + w.length ≤ doc.length := by
  have weaker : ∀ i ∈ List.range' 0 (doc.length - 0), occursAt w doc i → occursAt w (doc ++ tail) i :=
    fun i _ within => ((occursAt_append_iff w doc tail i).mp within).1
  rw [occurrences, countBetween, countBetween, countP_eq_iff weaker]
  constructor
  · intro exact i inside across
    have within := exact i (by simpa using inside) across
    have fits := ((occursAt_append_iff w doc tail i).mp within).2
    omega
  · intro fits i mem across
    have inside : i < doc.length := by simpa using mem
    have ends := fits i inside across
    exact (occursAt_append_iff w doc tail i).mpr ⟨across, by omega⟩

theorem occurrences_eq_zero {w doc : List α} (long : doc.length < w.length) :
    occurrences w doc = 0 := by
  apply countBetween_eq_zero
  intro i low high
  by_contra occurs
  rw [Bool.not_eq_false, occursAt_iff] at occurs
  have fits := occurs.length_le
  rw [List.length_drop] at fits
  omega

end QuickSearch
