import Mathlib.Algebra.Group.Int.Defs
import Mathlib.Algebra.Group.Nat.Defs

/-! Signed integers of a machine: operations that may overflow, and conversion to fewer bits. -/
namespace MachineInt

variable {w : ℕ} {u v : ℤ}

/-- A value of the signed type of `w` bits. -/
def Fits (w : ℕ) (v : ℤ) : Prop := -2 ^ (w - 1) ≤ v ∧ v < 2 ^ (w - 1)

instance : Decidable (Fits w v) := inferInstanceAs (Decidable (_ ∧ _))

/-- An operation has a result only if its value fits. -/
def checked (w : ℕ) (v : ℤ) : Option ℤ := if Fits w v then some v else none

/-- Conversion to `w` bits keeps the value modulo `2 ^ w`. -/
def narrow (w : ℕ) (v : ℤ) : ℤ := v.bmod (2 ^ w)

theorem checked_of_fits (h : Fits w v) : checked w v = some v := if_pos h

theorem checked_of_not_fits (h : ¬ Fits w v) : checked w v = none := if_neg h

theorem two_pow_eq (hw : 0 < w) : (2 : ℤ) ^ w = 2 * 2 ^ (w - 1) := by
  obtain ⟨k, rfl⟩ : ∃ k, w = k + 1 := ⟨w - 1, by omega⟩
  rw [Int.pow_succ, Nat.add_sub_cancel]
  omega

theorem narrow_eq (hw : 0 < w) : narrow w v =
    if v % 2 ^ w < 2 ^ (w - 1) then v % 2 ^ w else v % 2 ^ w - 2 ^ w := by
  have hp := two_pow_eq hw
  have hc : (((2 ^ w : ℕ) : ℤ)) = 2 ^ w := by simp
  have hh : ((2 : ℤ) ^ w + 1) / 2 = 2 ^ (w - 1) := by omega
  rw [narrow, Int.bmod_def, hc, hh]

theorem narrow_nonneg_iff (hw : 0 < w) : 0 ≤ narrow w v ↔ v % 2 ^ w < 2 ^ (w - 1) := by
  have hp : (0 : ℤ) < 2 ^ w := Int.pow_pos (by decide)
  have h0 := Int.emod_nonneg v (Int.ne_of_gt hp)
  have h1 := Int.emod_lt_of_pos v hp
  rw [narrow_eq hw]
  split
  · exact ⟨fun _ => by assumption, fun _ => h0⟩
  · omega

/-- A value that is not negative does not grow. -/
theorem narrow_le (hw : 0 < w) (h : 0 ≤ v) : narrow w v ≤ v := by
  have hp : (0 : ℤ) < 2 ^ w := Int.pow_pos (by decide)
  have h0 : v % 2 ^ w ≤ v := by
    have hd := Int.mul_ediv_add_emod v (2 ^ w)
    have hq : 0 ≤ 2 ^ w * (v / 2 ^ w) :=
      Int.mul_nonneg (Int.le_of_lt hp) (Int.ediv_nonneg h (Int.le_of_lt hp))
    omega
  rw [narrow_eq hw]
  split <;> omega

theorem narrow_of_lt (hw : 0 < w) (h0 : 0 ≤ v) (h : v < 2 ^ (w - 1)) : narrow w v = v := by
  have hp := two_pow_eq hw
  rw [narrow_eq hw, Int.emod_eq_of_lt h0 (by omega), if_pos h]

end MachineInt
