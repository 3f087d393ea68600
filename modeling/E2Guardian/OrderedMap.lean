import Mathlib.Data.List.Lex
import Mathlib.Data.List.Nodup
import Mathlib.Data.List.Pairwise

/- Maps as lists of key and value in ascending key order, the order in which a tree map
   walks its entries. -/
namespace OrderedMap

variable {κ : Type} {ν : Type} [DecidableEq κ]

def find (k : κ) : List (κ × ν) → Option ν
  | [] => none
  | (j, w) :: m => if k = j then some w else find k m

theorem find_of_mem {m : List (κ × ν)} (distinct : (m.map Prod.fst).Nodup) {k : κ} {v : ν}
    (member : (k, v) ∈ m) : find k m = some v := by
  induction m with
  | nil => cases member
  | cons head m ih =>
    obtain ⟨j, w⟩ := head
    obtain ⟨fresh, tail⟩ := List.nodup_cons.mp distinct
    rcases List.mem_cons.mp member with same | later
    · simp [Prod.ext_iff] at same
      simp [find, same]
    · have different : ¬ k = j := by
        rintro rfl
        exact fresh (List.mem_map.mpr ⟨_, later, rfl⟩)
      simp [find, different, ih tail later]

theorem mem_of_find {m : List (κ × ν)} {k : κ} {v : ν} (found : find k m = some v) :
    (k, v) ∈ m := by
  induction m with
  | nil => cases found
  | cons head m ih =>
    obtain ⟨j, w⟩ := head
    rw [find] at found
    split at found
    · rename_i same
      exact List.mem_cons.mpr (.inl (by rw [same, Option.some.inj found]))
    · exact List.mem_cons_of_mem _ (ih found)

section Order
variable [LT κ] [DecidableLT κ]

def put (k : κ) (v : ν) : List (κ × ν) → List (κ × ν)
  | [] => [(k, v)]
  | (j, w) :: m =>
    if k < j then (k, v) :: (j, w) :: m
    else if k = j then (k, v) :: m
    else (j, w) :: put k v m

attribute [local simp] put

def Ordered (m : List (κ × ν)) : Prop := m.Pairwise fun a b => a.1 < b.1

theorem find_put (k j : κ) (v : ν) (m : List (κ × ν)) :
    find j (put k v m) = if j = k then some v else find j m := by
  induction m with
  | nil => simp [put, find]
  | cons entry m ih =>
    obtain ⟨i, w⟩ := entry
    rw [put]
    split
    · rw [find]
    · split
      · rename_i same
        subst same
        by_cases eq : j = k <;> simp [find, eq]
      · rename_i different
        rw [find, find, ih]
        by_cases eq : j = i
        · rw [if_pos eq, if_neg (fun same : j = k => different (same.symm.trans eq)), if_pos eq]
        · rw [if_neg eq, if_neg eq]

theorem mem_put {k : κ} {v : ν} {m : List (κ × ν)} {entry : κ × ν}
    (member : entry ∈ put k v m) : entry = (k, v) ∨ entry ∈ m := by
  induction m with
  | nil => simpa [put] using member
  | cons head m ih =>
    obtain ⟨j, w⟩ := head
    rw [put] at member
    split at member
    · simpa using member
    · split at member
      · rcases List.mem_cons.mp member with new | old
        · exact .inl new
        · exact .inr (List.mem_cons_of_mem _ old)
      · rcases List.mem_cons.mp member with same | later
        · exact .inr (same ▸ List.mem_cons_self)
        · rcases ih later with new | old
          · exact .inl new
          · exact .inr (List.mem_cons_of_mem _ old)

variable [IsStrictTotalOrder κ (· < ·)]

theorem put_ordered (k : κ) (v : ν) {m : List (κ × ν)} (ordered : Ordered m) :
    Ordered (put k v m) := by
  induction m with
  | nil => exact List.pairwise_singleton _ _
  | cons head m ih =>
    obtain ⟨j, w⟩ := head
    obtain ⟨above, tail⟩ := List.pairwise_cons.mp ordered
    rw [put]
    split
    · rename_i less
      refine List.pairwise_cons.mpr ⟨?_, ordered⟩
      intro entry member
      rcases List.mem_cons.mp member with same | later
      · exact same ▸ less
      · exact trans_of (· < ·) less (above entry later)
    · split
      · rename_i same
        subst same
        exact List.pairwise_cons.mpr ⟨above, tail⟩
      · rename_i notLess different
        refine List.pairwise_cons.mpr ⟨?_, ih tail⟩
        intro entry member
        rcases mem_put member with new | old
        · subst new
          rcases trichotomous_of (· < ·) k j with less | same | greater
          · exact absurd less notLess
          · exact absurd same different
          · exact greater
        · exact above entry old

omit [DecidableEq κ] [DecidableLT κ] in
theorem Ordered.nodup_keys {m : List (κ × ν)} (ordered : Ordered m) : (m.map Prod.fst).Nodup := by
  refine List.pairwise_map.mpr (List.Pairwise.imp ?_ ordered)
  intro a b less same
  exact irrefl_of (· < ·) a.1 (same ▸ less)

omit [DecidableEq κ] [DecidableLT κ] in
theorem Ordered.ext {m m' : List (κ × ν)} (ordered : Ordered m) (ordered' : Ordered m')
    (same : ∀ e, e ∈ m ↔ e ∈ m') : m = m' := by
  have perm : m.Perm m' := (List.perm_ext_iff_of_nodup (List.Nodup.of_map _ ordered.nodup_keys)
    (List.Nodup.of_map _ ordered'.nodup_keys)).mpr same
  refine perm.eq_of_pairwise ?_ ordered ordered'
  intro a b _ _ less greater
  exact absurd (trans_of (· < ·) less greater) (irrefl_of (· < ·) a.1)

end Order
end OrderedMap
