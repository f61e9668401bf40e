import Mathlib.Data.Nat.Init
import Mathlib.Data.Option.Basic

/-!
# Bounded polling

The loop `while (--t) { s = read(); if (decides(s)) return verdict(s); } return timeout;`
over a stream of readings.

* `poll`: the loop.
* `Decides`: the first reading that decides, and its place.
* `poll_eq_some`: the loop returns the verdict of that reading, if it gets so far.
* `Decides.unique`: there is one.
-/

namespace Polling

variable {α β : Type*} {test : α → Option β} {σ : ℕ → α} {t k k' : ℕ} {b : β}

/-- At most `t` readings, from the one numbered `k` on, until one decides. The second
component is the number of the next reading. -/
def poll (test : α → Option β) (σ : ℕ → α) : (t k : ℕ) → Option β × ℕ
  | 0, k => (none, k)
  | t + 1, k =>
    match test (σ k) with
    | some b => (some b, k + 1)
    | none => poll test σ t (k + 1)

/-- **The first reading that decides** among the `t` from `k` on says `b`, and `k'` is the
number of the one after it. -/
def Decides (test : α → Option β) (σ : ℕ → α) (t k : ℕ) (b : β) (k' : ℕ) : Prop :=
  ∃ i < t, (∀ j < i, test (σ (k + j)) = none) ∧ test (σ (k + i)) = some b ∧ k' = k + i + 1

/-- Readings that do not decide are passed over. -/
theorem Decides.cons (h : test (σ k) = none) : Decides test σ (t + 1) k b k' ↔ Decides test σ t (k + 1) b k' := by
  constructor
  · rintro ⟨i, hi, hpre, hb, rfl⟩
    cases i with
    | zero =>
      rw [Nat.add_zero, h] at hb
      cases hb
    | succ i =>
      refine ⟨i, by omega, ?_, by rw [← hb]; congr 2; omega, by omega⟩
      intro j hj
      rw [← hpre (j + 1) (by omega)]
      congr 2
      omega
  · rintro ⟨i, hi, hpre, hb, rfl⟩
    refine ⟨i + 1, by omega, ?_, by rw [← hb]; congr 2; omega, by omega⟩
    intro j hj
    cases j with
    | zero => exact h
    | succ j =>
      rw [← hpre j (by omega)]
      congr 2
      omega

/-- **The loop returns the first verdict**, if it comes in time. -/
theorem poll_eq_some : poll test σ t k = (some b, k') ↔ Decides test σ t k b k' := by
  induction t generalizing k with
  | zero =>
    constructor
    · intro h; cases h
    · rintro ⟨i, hi, -⟩; omega
  | succ t ih =>
    cases h : test (σ k) with
    | none =>
      rw [Decides.cons h, ← ih]
      simp only [poll, h]
    | some c =>
      simp only [poll, h, Prod.mk.injEq, Option.some.injEq]
      constructor
      · rintro ⟨rfl, rfl⟩
        exact ⟨0, by omega, fun j hj => by omega, h, rfl⟩
      · rintro ⟨i, -, hpre, hb, rfl⟩
        -- nothing comes before the reading at `k`
        cases i with
        | zero => exact ⟨Option.some.inj (h.symm.trans hb), rfl⟩
        | succ i =>
          have hnone := hpre 0 (by omega)
          rw [Nat.add_zero, h] at hnone
          cases hnone

/-- There is one first verdict. -/
theorem Decides.unique {b₁ b₂ : β} {k₁ k₂ : ℕ} (h₁ : Decides test σ t k b₁ k₁) (h₂ : Decides test σ t k b₂ k₂) :
    b₁ = b₂ ∧ k₁ = k₂ := by
  have h := (poll_eq_some.2 h₁).symm.trans (poll_eq_some.2 h₂)
  simpa using h

end Polling
