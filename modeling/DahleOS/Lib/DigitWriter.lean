import DahleOS.Lib.CArray
import Mathlib.Data.Nat.Digits.Defs

/-!
# Writing a number in a base

A loop that takes the last digit of a number and divides by the base writes the digits, the
last one first.

* `Writes`: such a loop, over any kind of number.
* `Writes.digits`: what it leaves in the array.
-/

namespace DigitWriter

open CArray

variable {σ α : Type} {k b : ℕ}

/-- **A digit loop**: `while (x) { t[i++] = ch(x % b); x = next(x); }`. `value` is the number
that `x` holds. -/
structure Writes (loop : σ → (Fin k → α) → ℕ → Option ((Fin k → α) × ℕ)) (value : σ → ℕ) (b : ℕ) (ch : ℕ → α) : Prop where
  stop : ∀ x t i, value x = 0 → loop x t i = some (t, i)
  step : ∀ x t i, value x ≠ 0 → ∃ x', value x' = value x / b ∧
    loop x t i = (wr t i (ch (value x % b))).bind fun t => loop x' t (i + 1)

/-- **The array** gets the digits, if there is room for them. -/
theorem Writes.digits {loop : σ → (Fin k → α) → ℕ → Option ((Fin k → α) × ℕ)} {value : σ → ℕ} {ch : ℕ → α}
    (h : Writes loop value b ch) (hb : 1 < b) {x : σ} {t : Fin k → α} {i : ℕ}
    (hroom : i + (Nat.digits b (value x)).length ≤ k) : ∃ t', loop x t i = some (t', i + (Nat.digits b (value x)).length) ∧
      slots t' (i + (Nat.digits b (value x)).length) = slots t i ++ (Nat.digits b (value x)).map ch := by
  induction hv : value x using Nat.strongRecOn generalizing x t i with
  | ind m ih =>
    subst hv
    by_cases hzero : value x = 0
    · rw [hzero, Nat.digits_zero, h.stop x t i hzero]
      exact ⟨t, rfl, by rw [List.map_nil, List.append_nil]; rfl⟩
    · obtain ⟨x', hvalue, hloop⟩ := h.step x t i hzero
      have hdigits := Nat.digits_def' hb (Nat.pos_of_ne_zero hzero)
      rw [← hvalue] at hdigits
      rw [hdigits, List.length_cons] at hroom ⊢
      have hi : i < k := by omega
      obtain ⟨t', hrest, hslots⟩ := ih (value x') (by rw [hvalue]; exact Nat.div_lt_self (Nat.pos_of_ne_zero hzero) hb)
        (x := x') (t := Function.update t ⟨i, hi⟩ (ch (value x % b))) (i := i + 1) (by omega) rfl
      have hcount : i + 1 + (Nat.digits b (value x')).length = i + ((Nat.digits b (value x')).length + 1) := by omega
      rw [hcount] at hrest hslots
      refine ⟨t', ?_, ?_⟩
      · rw [hloop, wr_nat t hi]
        exact hrest
      · rw [hslots, slots_push t hi, List.map_cons, List.append_assoc]
        rfl

end DigitWriter
