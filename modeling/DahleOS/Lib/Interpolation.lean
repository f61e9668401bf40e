import Mathlib.Algebra.Order.Ring.Nat
import Mathlib.Tactic.Ring

/-!
# Interpolation in natural numbers

From `a` to `b` in `n` steps of equal weight, rounded down, and a walk over `d` places that
takes them in order.

* `mix_zero`, `mix_end`: the ends are exact.
* `mix_mono`, `mix_anti`: it runs from the one to the other.
* `between`: and stays between them.
* `ramp`: the walk, with the same three laws.
-/

namespace Interpolation

variable {n a b s t d i j : ℕ}

/-- The mean of `a` and `b` with the weights `n - t` and `t`. -/
def mix (n a b t : ℕ) : ℕ := (a * (n - t) + b * t) / n

theorem mix_zero (hn : 0 < n) : mix n a b 0 = a := by
  rw [mix, Nat.mul_zero, Nat.add_zero, Nat.sub_zero, Nat.mul_div_cancel _ hn]

theorem mix_end (hn : 0 < n) : mix n a b n = b := by
  rw [mix, Nat.sub_self, Nat.mul_zero, Nat.zero_add, Nat.mul_div_cancel _ hn]

/-- Backwards. -/
theorem mix_swap (ht : t ≤ n) : mix n a b t = mix n b a (n - t) := by
  rw [mix, mix, Nat.sub_sub_self ht, Nat.add_comm]

theorem mix_mono (hab : a ≤ b) (hst : s ≤ t) (ht : t ≤ n) : mix n a b s ≤ mix n a b t := by
  refine Nat.div_le_div_right ?_
  obtain ⟨k, rfl⟩ := Nat.exists_eq_add_of_le hst
  obtain ⟨m, rfl⟩ := Nat.exists_eq_add_of_le ht
  have hleft : s + k + m - s = m + k := by omega
  have hright : s + k + m - (s + k) = m := by omega
  rw [hleft, hright]
  calc a * (m + k) + b * s = a * m + b * s + a * k := by ring
    _ ≤ a * m + b * s + b * k := Nat.add_le_add_left (Nat.mul_le_mul_right k hab) _
    _ = a * m + b * (s + k) := by ring

theorem mix_anti (hba : b ≤ a) (hst : s ≤ t) (ht : t ≤ n) : mix n a b t ≤ mix n a b s := by
  rw [mix_swap ht, mix_swap (hst.trans ht)]
  exact mix_mono hba (Nat.sub_le_sub_left hst n) (Nat.sub_le n s)

theorem between (hn : 0 < n) (ht : t ≤ n) : min a b ≤ mix n a b t ∧ mix n a b t ≤ max a b := by
  rcases Nat.le_total a b with hab | hba
  · have hlo := mix_mono hab (Nat.zero_le t) ht
    have hhi := mix_mono hab ht le_rfl
    rw [mix_zero hn] at hlo
    rw [mix_end hn] at hhi
    omega
  · have hlo := mix_anti hba ht le_rfl
    have hhi := mix_anti hba (Nat.zero_le t) ht
    rw [mix_zero hn] at hhi
    rw [mix_end hn] at hlo
    omega

/-! ## Walks -/

/-- Place `i` of a walk from `a` at place 0 to `b` at place `d`. -/
def ramp (n a b d i : ℕ) : ℕ := mix n a b (i * n / d)

theorem weight_le (hi : i ≤ d) : i * n / d ≤ n := by
  refine Nat.div_le_of_le_mul ?_
  exact Nat.mul_le_mul_right n hi

theorem ramp_zero (hn : 0 < n) : ramp n a b d 0 = a := by
  rw [ramp, Nat.zero_mul, Nat.zero_div, mix_zero hn]

theorem ramp_end (hn : 0 < n) (hd : 0 < d) : ramp n a b d d = b := by
  rw [ramp, Nat.mul_div_cancel_left n hd, mix_end hn]

theorem ramp_mono (hab : a ≤ b) (hij : i ≤ j) (hj : j ≤ d) : ramp n a b d i ≤ ramp n a b d j :=
  mix_mono hab (Nat.div_le_div_right (Nat.mul_le_mul_right n hij)) (weight_le hj)

theorem ramp_anti (hba : b ≤ a) (hij : i ≤ j) (hj : j ≤ d) : ramp n a b d j ≤ ramp n a b d i :=
  mix_anti hba (Nat.div_le_div_right (Nat.mul_le_mul_right n hij)) (weight_le hj)

theorem ramp_between (hn : 0 < n) (hi : i ≤ d) : min a b ≤ ramp n a b d i ∧ ramp n a b d i ≤ max a b :=
  between hn (weight_le hi)

end Interpolation
