import Mathlib.Algebra.Group.Nat.Defs
import Mathlib.Logic.Equiv.Fin.Basic
import Mathlib.Data.Fintype.Basic
import Mathlib.Tactic.FinCases

/-!
# Memory layouts and additive checksums

A packed layout of a type in `n` bytes is a bijection with `Fin n → UInt8`: every
value has one image, and every image is the image of a value. So `memcpy` out of a
variable and back is the identity both ways, whatever the bytes are.

* `byte`, `bytes`, `word32`, `int32`: the scalar layouts (little endian).
* `seq`, `array`, `iso`: structures, arrays, and changes of representation.
* `pad`, `prefixOf`: a buffer longer than its content, zero behind it.
* `checksum`: the 32-bit sum of the bytes, with its value as a sum of naturals
  (`checksum_toNat`) and the sum of an image put together from two
  (`byteSum_splice`); it tells two buffers apart that differ in one byte
  (`checksum_update_ne`).
-/

/-- A layout of `α` in `n` bytes. -/
abbrev Codec (α : Type) (n : ℕ) := α ≃ (Fin n → UInt8)

namespace Codec

variable {α β : Type} {m n : ℕ}

/-! ## Layouts -/

/-- A byte array. -/
def bytes (n : ℕ) : Codec (Fin n → UInt8) n := Equiv.refl _

/-- Two fields, one after the other. -/
def seq (c : Codec α m) (d : Codec β n) : Codec (α × β) (m + n) :=
  (Equiv.prodCongr c d).trans (Fin.appendEquiv m n)

/-- An array of `k` elements. -/
def array (k : ℕ) (c : Codec α n) : Codec (Fin k → α) (k * n) :=
  (Equiv.piCongrRight fun _ => c).trans
    ((Equiv.curry (Fin k) (Fin n) UInt8).symm.trans (finProdFinEquiv.arrowCongr (Equiv.refl UInt8)))

/-- The layout of a type with the same values. -/
def iso (e : β ≃ α) (c : Codec α n) : Codec β n := e.trans c

/-- Byte `i` of a 32-bit word. -/
def byteAt (w : UInt32) (i : Fin 4) : UInt8 := UInt8.ofNat (w.toNat / 256 ^ i.val)

/-- The word with the given bytes, least significant first. -/
def ofBytes (b : Fin 4 → UInt8) : UInt32 :=
  UInt32.ofNat ((b 0).toNat + 256 * (b 1).toNat + 65536 * (b 2).toNat + 16777216 * (b 3).toNat)

theorem ofBytes_byteAt (w : UInt32) : ofBytes (byteAt w) = w := by
  have hw := w.toNat_lt
  apply UInt32.toNat_inj.1
  simp only [ofBytes, byteAt, UInt32.toNat_ofNat', UInt8.toNat_ofNat']
  simp
  omega

theorem byteAt_ofBytes (b : Fin 4 → UInt8) : byteAt (ofBytes b) = b := by
  have h0 := (b 0).toNat_lt
  have h1 := (b 1).toNat_lt
  have h2 := (b 2).toNat_lt
  have h3 := (b 3).toNat_lt
  funext i
  apply UInt8.toNat_inj.1
  simp only [ofBytes, byteAt, UInt32.toNat_ofNat', UInt8.toNat_ofNat']
  fin_cases i <;> simp <;> omega

/-- `uint32_t`, least significant byte first. -/
def word32 : Codec UInt32 4 where
  toFun := byteAt
  invFun := ofBytes
  left_inv := ofBytes_byteAt
  right_inv := byteAt_ofBytes

/-- `int`, two's complement, least significant byte first. -/
def int32 : Codec Int32 4 :=
  iso ⟨Int32.toUInt32, UInt32.toInt32, fun _ => rfl, fun _ => rfl⟩ word32

/-! ## A buffer longer than its content -/

/-- The content at the start of a zeroed buffer. -/
def pad (N : ℕ) (b : Fin n → UInt8) : Fin N → UInt8 := fun i => if h : i.val < n then b ⟨i, h⟩ else 0

/-- The first `n` bytes of a buffer. -/
def prefixOf {N : ℕ} (h : n ≤ N) (b : Fin N → UInt8) : Fin n → UInt8 := fun i => b (i.castLE h)

@[simp] theorem prefixOf_pad {N : ℕ} (h : n ≤ N) (b : Fin n → UInt8) : prefixOf h (pad N b) = b := by
  funext i
  simp [prefixOf, pad]

/-! ## Checksums -/

/-- The 32-bit sum of the bytes. -/
def checksum (b : Fin n → UInt8) : UInt32 := Fin.foldl n (fun s i => s + (b i).toUInt32) 0

/-- The sum of the first `k` bytes, as a natural number. -/
def byteSum (k : ℕ) (b : Fin n → UInt8) : ℕ :=
  match k with
  | 0 => 0
  | k + 1 => byteSum k b + if h : k < n then (b ⟨k, h⟩).toNat else 0

theorem byteSum_le (k : ℕ) (b : Fin n → UInt8) : byteSum k b ≤ k * 255 := by
  induction k with
  | zero => simp [byteSum]
  | succ k ih =>
    have hbyte : (if h : k < n then (b ⟨k, h⟩).toNat else 0) ≤ 255 := by
      split
      · have := (b ⟨k, ‹_›⟩).toNat_lt
        omega
      · exact Nat.zero_le _
    rw [byteSum, Nat.succ_mul]
    exact Nat.add_le_add ih hbyte

theorem byteSum_castSucc (k : ℕ) (hk : k ≤ n) (b : Fin (n + 1) → UInt8) :
    byteSum k (fun i : Fin n => b i.castSucc) = byteSum k b := by
  induction k with
  | zero => rfl
  | succ k ih =>
    simp only [byteSum, ih (by omega), dif_pos (show k < n by omega), dif_pos (show k < n + 1 by omega)]
    rfl

theorem checksum_toNat (b : Fin n → UInt8) : (checksum b).toNat = byteSum n b % 2 ^ 32 := by
  unfold checksum
  induction n with
  | zero => rfl
  | succ n ih =>
    rw [Fin.foldl_succ_last, UInt32.toNat_add, ih, byteSum_castSucc n (le_refl n)]
    simp [byteSum, Nat.add_mod, Fin.last]

/-- Short enough buffers do not wrap. -/
theorem checksum_toNat_of_le (b : Fin n → UInt8) (h : n * 255 < 2 ^ 32) :
    (checksum b).toNat = byteSum n b := by
  rw [checksum_toNat, Nat.mod_eq_of_lt (lt_of_le_of_lt (byteSum_le n b) h)]

/-- The image with the first `k` bytes of `b` and the rest of `a`. -/
def splice (k : ℕ) (a b : Fin n → UInt8) : Fin n → UInt8 := fun i => if i.val < k then b i else a i

/-- **The sum of a spliced image** differs from that of `a` by the two prefixes. -/
theorem byteSum_splice (k : ℕ) (a b : Fin n → UInt8) (j : ℕ) :
    byteSum j (splice k a b) + byteSum (min j k) a = byteSum j a + byteSum (min j k) b := by
  induction j with
  | zero => simp [byteSum]
  | succ j ih =>
    -- up to `k` both sides grow by a byte of each image, from there on by a byte of `a`
    by_cases hjk : j < k
    · rw [Nat.min_eq_left (by omega)] at ih ⊢
      simp only [byteSum, splice, hjk, if_true]
      omega
    · rw [Nat.min_eq_right (by omega)] at ih ⊢
      simp only [byteSum, splice, hjk, if_false]
      omega

/-- The sum of an image with one byte replaced. -/
theorem byteSum_update (a : Fin n → UInt8) (i : Fin n) (v : UInt8) (j : ℕ) :
    byteSum j (Function.update a i v) + (if i.val < j then (a i).toNat else 0) =
      byteSum j a + if i.val < j then v.toNat else 0 := by
  induction j with
  | zero => simp [byteSum]
  | succ j ih =>
    simp only [byteSum]
    -- the byte at `j` is the one replaced, or the same on both sides
    by_cases hij : i.val = j
    · subst hij
      simp only [i.isLt, dif_pos, Fin.eta, Function.update_self, Nat.lt_irrefl, if_false, Nat.lt_succ_self,
        if_true] at ih ⊢
      omega
    · have hsame : ∀ h : j < n, Function.update a i v ⟨j, h⟩ = a ⟨j, h⟩ := fun h =>
        Function.update_of_ne (fun he => hij (congrArg Fin.val he).symm) _ _
      have hlt : i.val < j + 1 ↔ i.val < j := by omega
      simp only [hsame, hlt]
      omega

/-- **One byte replaced is noticed.** -/
theorem checksum_update_ne (a : Fin n → UInt8) (h : n * 255 < 2 ^ 32) (i : Fin n) {v : UInt8} (hv : v ≠ a i) :
    checksum (Function.update a i v) ≠ checksum a := by
  intro heq
  have hs := byteSum_update a i v n
  rw [if_pos i.isLt, if_pos i.isLt, ← checksum_toNat_of_le _ h, ← checksum_toNat_of_le _ h, heq] at hs
  exact hv (UInt8.toNat_inj.1 (by omega))

/-- Behind the end of the buffer nothing is added. -/
theorem byteSum_of_le {k : ℕ} (hk : n ≤ k) (b : Fin n → UInt8) : byteSum k b = byteSum n b := by
  induction k with
  | zero =>
    obtain rfl : n = 0 := by omega
    rfl
  | succ k ih =>
    rcases Nat.lt_or_eq_of_le hk with hlt | rfl
    · rw [byteSum, ih (by omega), dif_neg (by omega), Nat.add_zero]
    · rfl

/-- The spliced image passes `a`'s checksum exactly when the two prefixes have the same
sum. -/
theorem checksum_splice_eq (k : ℕ) (a b : Fin n → UInt8) (h : n * 255 < 2 ^ 32) :
    checksum (splice k a b) = checksum a ↔ byteSum k b = byteSum k a := by
  have hs := byteSum_splice k a b n
  have hmin (x : Fin n → UInt8) : byteSum (min n k) x = byteSum k x := by
    rcases Nat.le_total n k with hle | hle
    · rw [Nat.min_eq_left hle, byteSum_of_le hle]
    · rw [Nat.min_eq_right hle]
  rw [hmin, hmin] at hs
  rw [← UInt32.toNat_inj, checksum_toNat_of_le _ h, checksum_toNat_of_le _ h]
  omega

theorem splice_eq_left {k : ℕ} {a b : Fin n → UInt8} (h : ∀ i : Fin n, i.val < k → b i = a i) :
    splice k a b = a := by
  funext i
  unfold splice
  split
  · exact h i ‹_›
  · rfl

theorem splice_eq_right {k : ℕ} {a b : Fin n → UInt8} (h : ∀ i : Fin n, k ≤ i.val → b i = a i) :
    splice k a b = b := by
  funext i
  unfold splice
  split
  · rfl
  · exact (h i (by omega)).symm

end Codec
