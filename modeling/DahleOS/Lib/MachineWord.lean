import Mathlib.Algebra.Group.Nat.Defs
import Mathlib.Algebra.Ring.Int.Defs

/-!
# 32-bit words without wrap-around

Where a result has 32 bits, the machine computes the exact one.

* `toNat_add_of_lt`, `toNat_mul_of_lt`: unsigned words.
* `and_not_add_and`: the bits of a mask, and the others.
* `toInt_sub_of_le`, `toInt_add_nat`, `toInt_mul_nat`, `toInt_mod_nat`: signed words.
* `toNat_toUInt32`, `toInt_toInt32`: from one to the other.
-/

namespace MachineWord

theorem toNat_add_of_lt {a b : UInt32} (h : a.toNat + b.toNat < 2 ^ 32) : (a + b).toNat = a.toNat + b.toNat := by
  rw [UInt32.toNat_add, Nat.mod_eq_of_lt h]

theorem toNat_mul_of_lt {a b : UInt32} (h : a.toNat * b.toNat < 2 ^ 32) : (a * b).toNat = a.toNat * b.toNat := by
  rw [UInt32.toNat_mul, Nat.mod_eq_of_lt h]

/-- What a mask takes away and what it leaves. -/
theorem and_not_add_and (x m : UInt32) : (x &&& ~~~m) + (x &&& m) = x := by
  apply UInt32.toBitVec_inj.1
  rw [UInt32.toBitVec_add, BitVec.add_eq_or_of_and_eq_zero]
  · ext i hi
    simp only [UInt32.toBitVec_and, UInt32.toBitVec_not, BitVec.getElem_or, BitVec.getElem_and, BitVec.getElem_not]
    cases x.toBitVec[i] <;> cases m.toBitVec[i] <;> rfl
  · ext i hi
    simp only [UInt32.toBitVec_and, UInt32.toBitVec_not, BitVec.getElem_and, BitVec.getElem_not, BitVec.getElem_zero]
    cases x.toBitVec[i] <;> cases m.toBitVec[i] <;> rfl

theorem toInt_sub_of_le {a b : Int32} (hlo : -2 ^ 31 ≤ a.toInt - b.toInt) (hhi : a.toInt - b.toInt < 2 ^ 31) :
    (a - b).toInt = a.toInt - b.toInt := by
  rw [Int32.toInt_sub, Int.bmod_eq_of_le (by omega) (by omega)]

theorem toInt_add_nat {a b : Int32} {m n : ℕ} (ha : a.toInt = m) (hb : b.toInt = n) (h : m + n < 2 ^ 31) :
    (a + b).toInt = (m + n : ℕ) := by
  rw [Int32.toInt_add, ha, hb, Int.bmod_eq_of_le (by omega) (by omega), Int.natCast_add]

theorem toInt_mul_nat {a b : Int32} {m n : ℕ} (ha : a.toInt = m) (hb : b.toInt = n) (h : m * n < 2 ^ 31) :
    (a * b).toInt = (m * n : ℕ) := by
  rw [Int32.toInt_mul, ha, hb, ← Int.natCast_mul, Int.bmod_eq_of_le (by omega) (by omega)]

theorem toInt_mod_nat {a b : Int32} {m n : ℕ} (ha : a.toInt = m) (hb : b.toInt = n) : (a % b).toInt = (m % n : ℕ) := by
  rw [Int32.toInt_mod, ha, hb, ← Int.ofNat_tmod]

theorem toNat_toUInt32 (x : Int32) : (x.toUInt32.toNat : ℤ) = x.toInt % 2 ^ 32 := by
  have h : x.toInt = (x.toUInt32.toNat : ℤ).bmod (2 ^ 32) := BitVec.toInt_eq_toNat_bmod x.toBitVec
  have hlt := x.toUInt32.toNat_lt
  rw [h, show (2 : ℤ) ^ 32 = ((2 ^ 32 : ℕ) : ℤ) from rfl, Int.bmod_emod]
  omega

theorem toInt_toInt32 {x : UInt32} (h : x.toNat < 2 ^ 31) : x.toInt32.toInt = x.toNat := by
  have heq : x.toInt32.toInt = (x.toNat : ℤ).bmod (2 ^ 32) := BitVec.toInt_eq_toNat_bmod x.toBitVec
  rw [heq, Int.bmod_eq_of_le (by omega) (by omega)]

end MachineWord
