import DahleOS.Lib.CArray
import Mathlib.Algebra.GroupWithZero.Nat

/-!
# The last entries of a log

An array of `n` slots that keeps the last `n` entries of a list which only grows: entry `i`
is in slot `i % n`. A relation says when a slot holds an entry.

* `Logs`: the array keeps the last entries, and its unused slots hold a blank one.
* `Logs.held`: every slot holds an entry.
* `Logs.push`: writing at the length of the list appends.
* `Logs.recent`: the `k`-th entry from the end.
* `Logs.next_unused`, `Logs.next_oldest`: what the slot that is written next holds.
-/

namespace RingLog

variable {α β : Type} {n : ℕ} [NeZero n] {R : α → β → Prop} {blank b : β} {buf : Fin n → α} {v : α} {l : List β}

/-- **The array keeps the last entries** of the list. -/
structure Logs (R : α → β → Prop) (blank : β) (buf : Fin n → α) (l : List β) : Prop where
  entry : ∀ i b, l[i]? = some b → l.length ≤ i + n → R (buf (Fin.ofNat n i)) b
  unused : ∀ k : Fin n, l.length ≤ k.val → R (buf k) blank

theorem Logs.start (h : ∀ k, R (buf k) blank) : Logs R blank buf [] :=
  ⟨fun i b hb => by simp at hb, fun k _ => h k⟩

/-- Numbers less than `n` apart have slots of their own. -/
theorem slot_ne {i j : ℕ} (hlt : i < j) (hnear : j < i + n) : Fin.ofNat n i ≠ Fin.ofNat n j := by
  intro h
  have hmod : j % n = i % n := (congrArg Fin.val h).symm
  have hzero := Nat.sub_mod_eq_zero_of_mod_eq hmod
  rw [Nat.mod_eq_of_lt (by omega)] at hzero
  omega

/-- **Writing at the length** appends, in place of the oldest entry. -/
theorem Logs.push (h : Logs R blank buf l) (hv : R v b) :
    Logs R blank (Function.update buf (Fin.ofNat n l.length) v) (l ++ [b]) := by
  constructor
  · intro i b' hb' hnear
    rw [List.length_append, List.length_singleton] at hnear
    rcases Nat.lt_trichotomy i l.length with hlt | rfl | hgt
    · rw [List.getElem?_append_left hlt] at hb'
      rw [Function.update_of_ne (slot_ne hlt (by omega))]
      exact h.entry i b' hb' (by omega)
    · obtain rfl : b = b' := by simpa using hb'
      rw [Function.update_self]
      exact hv
    · rw [List.getElem?_eq_none (by simpa using Nat.succ_le_of_lt hgt)] at hb'
      cases hb'
  · intro k hk
    rw [List.length_append, List.length_singleton] at hk
    have hne : k ≠ Fin.ofNat n l.length := by
      rintro rfl
      have hmod : (Fin.ofNat n l.length).val ≤ l.length := Nat.mod_le _ _
      omega
    rw [Function.update_of_ne hne]
    exact h.unused k (by omega)

/-- Every slot holds some entry. -/
theorem Logs.held (h : Logs R blank buf l) (k : Fin n) : ∃ b, R (buf k) b := by
  by_cases hk : l.length ≤ k.val
  · exact ⟨blank, h.unused k hk⟩
  · -- the last number below the length that leads to the slot
    have hpos : 0 < n := Nat.pos_of_ne_zero (NeZero.ne n)
    have hdiv := Nat.div_add_mod (l.length - 1 - k.val) n
    have hmod := Nat.mod_lt (l.length - 1 - k.val) hpos
    have hlt : k.val + n * ((l.length - 1 - k.val) / n) < l.length := by omega
    have hslot : Fin.ofNat n (k.val + n * ((l.length - 1 - k.val) / n)) = k :=
      Fin.ext (by rw [Fin.val_ofNat, Nat.add_mul_mod_self_left, Nat.mod_eq_of_lt k.isLt])
    rw [← hslot]
    exact ⟨_, h.entry _ _ (List.getElem?_eq_getElem hlt) (by omega)⟩

/-- **The `k`-th entry from the end.** -/
theorem Logs.recent (h : Logs R blank buf l) {k : ℕ} (hpos : 1 ≤ k) (hk : k ≤ l.length) (hn : k ≤ n)
    (hb : l.reverse[k - 1]? = some b) : R (buf (Fin.ofNat n (l.length - k))) b := by
  refine h.entry _ b ?_ (by omega)
  rw [List.getElem?_reverse (by omega)] at hb
  rw [← hb]
  congr 1
  omega

/-- **The slot that is written next** holds a blank entry as long as it is unused. -/
theorem Logs.next_unused (h : Logs R blank buf l) (hl : l.length < n) : R (buf (Fin.ofNat n l.length)) blank :=
  h.unused _ (by rw [Fin.val_ofNat, Nat.mod_eq_of_lt hl])

/-- Then it holds the oldest entry. -/
theorem Logs.next_oldest (h : Logs R blank buf l) (hl : n ≤ l.length) (hb : l.reverse[n - 1]? = some b) :
    R (buf (Fin.ofNat n l.length)) b := by
  have hslot : Fin.ofNat n l.length = Fin.ofNat n (l.length - n) := Fin.ext (Nat.mod_eq_sub_mod hl)
  rw [hslot]
  exact h.recent (Nat.pos_of_ne_zero (NeZero.ne n)) hl le_rfl hb

end RingLog
