import Mathlib.Algebra.Order.Ring.Int

/- 32-bit integers: sums and products are the exact ones up to multiples of 2^32. -/
namespace MachineInts

def int32 (n : Int) : Int := n.bmod (2 ^ 32)

def FitsInt (n : Int) : Prop := -2 ^ 31 ≤ n ∧ n < 2 ^ 31

instance (n : Int) : Decidable (FitsInt n) := inferInstanceAs (Decidable (_ ∧ _))

theorem int32_fits (n : Int) : FitsInt (int32 n) := by
  have low := Int.le_bmod (x := n) (m := 2 ^ 32) (by decide)
  have high := Int.bmod_lt (x := n) (m := 2 ^ 32) (by decide)
  unfold FitsInt int32
  omega

theorem int32_of_fits {n : Int} (fits : FitsInt n) : int32 n = n := by
  unfold FitsInt at fits
  exact Int.bmod_eq_of_le (by omega) (by omega)

theorem int32_eq_self_iff (n : Int) : int32 n = n ↔ FitsInt n :=
  ⟨fun same => same ▸ int32_fits n, int32_of_fits⟩

theorem int32_natCast_iff (n : Nat) : int32 n = n ↔ n < 2 ^ 31 := by
  rw [int32_eq_self_iff, FitsInt]
  omega

theorem int32_natCast {n : Nat} (small : n < 2 ^ 31) : int32 n = n := (int32_natCast_iff n).mpr small

@[simp] theorem int32_zero : int32 0 = 0 := rfl

@[simp] theorem int32_int32 (n : Int) : int32 (int32 n) = int32 n := Int.bmod_bmod

@[simp] theorem int32_add_left (m n : Int) : int32 (int32 m + n) = int32 (m + n) := Int.bmod_add_bmod

@[simp] theorem int32_add_right (m n : Int) : int32 (m + int32 n) = int32 (m + n) := Int.add_bmod_bmod

@[simp] theorem int32_sub_left (m n : Int) : int32 (int32 m - n) = int32 (m - n) := Int.bmod_sub_bmod

@[simp] theorem int32_mul_left (m n : Int) : int32 (int32 m * n) = int32 (m * n) := Int.bmod_mul_bmod

/-- Two numbers give the same int exactly when they are a multiple of 2^32 apart. -/
theorem int32_eq_iff (m n : Int) : int32 m = int32 n ↔ (2 ^ 32 : Int) ∣ m - n := by
  rw [int32, int32, Int.bmod_eq_bmod_iff_bmod_sub_eq_zero, ← Int.dvd_iff_bmod_eq_zero]
  rfl

/-- What is left of a number in an int is the number itself exactly if it is one and a multiple of 2^32 is taken off. -/
theorem int32_sub_eq_iff (m n : Int) : int32 (m - n) = m ↔ FitsInt m ∧ (2 ^ 32 : Int) ∣ n := by
  constructor
  · intro same
    have fits : FitsInt m := same ▸ int32_fits _
    have apart := (int32_eq_iff (m - n) m).mp (same.trans (int32_of_fits fits).symm)
    exact ⟨fits, by omega⟩
  · rintro ⟨fits, multiple⟩
    rw [(int32_eq_iff (m - n) m).mpr (by omega), int32_of_fits fits]

def uint32 (n : Nat) : Nat := n % 2 ^ 32

theorem uint32_lt (n : Nat) : uint32 n < 2 ^ 32 := Nat.mod_lt n (by decide)

theorem uint32_le (n : Nat) : uint32 n ≤ n := Nat.mod_le n _

theorem uint32_of_lt {n : Nat} (small : n < 2 ^ 32) : uint32 n = n := Nat.mod_eq_of_lt small

theorem uint32_eq_self_iff (n : Nat) : uint32 n = n ↔ n < 2 ^ 32 := ⟨fun same => same ▸ uint32_lt n, uint32_of_lt⟩

end MachineInts
