import Mathlib.Data.BitVec
import Mathlib.LinearAlgebra.Matrix.Determinant.Basic
import DahleOS.Model.Matrix

/-!
# The determinant

`matrix_det` expands along the first row, in 32-bit arithmetic. The 32-bit words are a ring,
into which the integers map, so the expansion is that of the determinant over the integers.

* `minorRows_eq`: the loops build the minor.
* `matrixDetDepth_eq`: the recursion is the determinant over the words.
* `matrix_det_eq`: the determinant over the integers, modulo 2^32.
-/

namespace DahleOS

open CArray Matrix

variable {data : Fin 4 → Fin 4 → Int32}

/-! ## Minors -/

/-- An element, and 0 outside the array. -/
def entry (data : Fin 4 → Fin 4 → Int32) (r c : ℕ) : Int32 :=
  if h : r < 4 ∧ c < 4 then data ⟨r, h.1⟩ ⟨c, h.2⟩ else 0

theorem entry_val (data : Fin 4 → Fin 4 → Int32) (r c : Fin 4) : entry data r c = data r c :=
  dif_pos ⟨r.isLt, c.isLt⟩

theorem rd2_entry {r c : ℕ} (hr : r < 4) (hc : c < 4) : rd2 data r c = some (entry data r c) := by
  rw [rd2_nat data hr hc, entry, dif_pos ⟨hr, hc⟩]

/-- The column that goes to column `c` when column `j` is left out. -/
def skipCol (j c : ℕ) : ℕ := if c < j then c else c + 1

/-- **A row of the minor**: what is left to copy goes where it belongs. -/
theorem minorRow_eq {j n r : ℕ} (hj : j < n) (hn : n ≤ 4) (hr : r < 4) (todo : ℕ) : ∀ c mc minor, c + todo = n →
    mc = (if c ≤ j then c else c - 1) →
    minorRow data j r c mc todo minor = some fun r' c' =>
      if r'.val = r - 1 ∧ mc ≤ c'.val ∧ c'.val < n - 1 then entry data r (skipCol j c'.val) else minor r' c' := by
  induction todo with
  | zero =>
    intro c mc minor hc hmc
    simp only [minorRow, Option.some.injEq]
    funext r' c'
    rw [if_neg (by split_ifs at hmc <;> omega)]
  | succ todo ih =>
    intro c mc minor hc hmc
    by_cases hcj : c = j
    · rw [minorRow, if_pos hcj]
      exact ih (c + 1) mc minor (by omega) (by split_ifs at hmc ⊢ <;> omega)
    · have hmc' : mc < n - 1 := by split_ifs at hmc <;> omega
      have hskip : skipCol j mc = c := by unfold skipCol; split_ifs at hmc ⊢ <;> omega
      rw [minorRow, if_neg hcj, rd2_entry hr (by omega)]
      simp only [Option.bind_eq_bind, Option.bind_some, wr2_nat minor (show r - 1 < 4 by omega) (show mc < 4 by omega)]
      rw [ih (c + 1) (mc + 1) _ (by omega) (by split_ifs at hmc ⊢ <;> omega), Option.some.injEq]
      funext r' c'
      by_cases hnow : r'.val = r - 1 ∧ c'.val = mc
      · -- the column that was just copied
        rw [if_neg (by omega), if_pos hnow, if_pos (by omega), hnow.2, hskip]
      · rw [if_neg hnow]
        by_cases hlater : r'.val = r - 1 ∧ mc + 1 ≤ c'.val ∧ c'.val < n - 1
        · rw [if_pos hlater, if_pos (by omega)]
        · rw [if_neg hlater, if_neg (by omega)]

/-- **The minor.** -/
theorem minorRows_eq {j n : ℕ} (hj : j < n) (hn : n ≤ 4) (todo : ℕ) : ∀ r minor, 0 < r → r + todo = n →
    minorRows data j n r todo minor = some fun r' c' =>
      if r - 1 ≤ r'.val ∧ r'.val < n - 1 ∧ c'.val < n - 1 then entry data (r'.val + 1) (skipCol j c'.val)
      else minor r' c' := by
  induction todo with
  | zero =>
    intro r minor hr hrn
    simp only [minorRows, Option.some.injEq]
    funext r' c'
    rw [if_neg (by omega)]
  | succ todo ih =>
    intro r minor hr hrn
    have hrow := @minorRow_eq data j n r hj hn (by omega) n 0 0 minor (by omega) (by simp)
    simp only [minorRows, hrow, Option.bind_eq_bind, Option.bind_some]
    rw [ih (r + 1) _ (by omega) (by omega), Option.some.injEq]
    funext r' c'
    by_cases hnow : r'.val = r - 1
    · -- the row that was just built
      have hr' : r'.val + 1 = r := by omega
      rw [if_neg (by omega), hr']
      by_cases hc : c'.val < n - 1
      · rw [if_pos (by omega), if_pos (by omega)]
      · rw [if_neg (by omega), if_neg (by omega)]
    · by_cases hlater : r ≤ r'.val ∧ r'.val < n - 1 ∧ c'.val < n - 1
      · rw [if_pos (by omega), if_pos (by omega)]
      · rw [if_neg (by omega), if_neg (by omega), if_neg (by omega)]

/-! ## The expansion -/

/-- The upper left corner of the array, over the ring of the 32-bit words. -/
def words32 (n : ℕ) (data : Fin 4 → Fin 4 → Int32) : Matrix (Fin n) (Fin n) (BitVec 32) :=
  of fun i k => (entry data i k).toBitVec

/-- The minor of `matrix_det` without column `j`. -/
def minorOf (n j : ℕ) (data : Fin 4 → Fin 4 → Int32) : Fin 4 → Fin 4 → Int32 := fun r c =>
  if r.val < n - 1 ∧ c.val < n - 1 then entry data (r.val + 1) (skipCol j c.val) else 0

theorem words32_minorOf {n : ℕ} (hn : n + 1 ≤ 4) (j : Fin (n + 1)) :
    words32 n (minorOf (n + 1) j data) = (words32 (n + 1) data).submatrix Fin.succ j.succAbove := by
  ext1 i k
  have hi := i.isLt
  have hk := k.isLt
  have hentry : entry (minorOf (n + 1) j data) i k = entry data (i + 1) (skipCol j k) := by
    rw [entry, dif_pos ⟨by omega, by omega⟩, minorOf]
    exact if_pos ⟨by simp, by simp⟩
  have hskip : (j.succAbove k).val = skipCol j k := by
    unfold skipCol Fin.succAbove
    rw [apply_ite Fin.val]
    exact if_congr Iff.rfl rfl rfl
  rw [words32, words32, of_apply, submatrix_apply, of_apply, hentry, Fin.val_succ, hskip]

/-- A term of the expansion. -/
def detTerm (n : ℕ) (data : Fin 4 → Fin 4 → Int32) (j : ℕ) : BitVec 32 :=
  (-1) ^ j * (entry data 0 j).toBitVec * (words32 n (minorOf (n + 1) j data)).det

theorem sum_detTerm {n : ℕ} (hn : n + 1 ≤ 4) :
    ∑ j ∈ Finset.range (n + 1), detTerm n data j = (words32 (n + 1) data).det := by
  rw [det_succ_row_zero, ← Fin.sum_univ_eq_sum_range]
  refine Finset.sum_congr rfl ?_
  intro j _
  rw [detTerm, words32_minorOf hn]
  rfl

/-- **The loop adds up the terms.** -/
theorem detLoop_eq {minorDet : MatrixT → Option Int32} {m : MatrixT} {n : ℕ} (hn : n + 1 ≤ 4)
    (hminor : ∀ data, ∃ d, minorDet ⟨m.rows - 1, m.rows - 1, data⟩ = some d ∧ d.toBitVec = (words32 n data).det)
    (todo : ℕ) : ∀ j det, j + todo = n + 1 → ∃ d, detLoop minorDet m (n + 1) j todo det = some d ∧
      d.toBitVec = det.toBitVec + ∑ i ∈ Finset.range todo, detTerm n m.data (j + i) := by
  induction todo with
  | zero => exact fun j det _ => ⟨det, rfl, by simp⟩
  | succ todo ih =>
    intro j det hj
    obtain ⟨d, hd, hdet⟩ := hminor (minorOf (n + 1) j m.data)
    have hrows : minorRows m.data j (n + 1) 1 n (fun _ _ => 0) = some (minorOf (n + 1) j m.data) := by
      rw [minorRows_eq (by omega) hn n 1 _ (by decide) (by omega), Option.some.injEq]
      funext r c
      rw [minorOf]
      exact if_congr (by omega) rfl rfl
    obtain ⟨d', hd', hsum⟩ := ih (j + 1) (det + (if j % 2 = 0 then 1 else -1) * entry m.data 0 j * d) (by omega)
    refine ⟨d', ?_, ?_⟩
    · rw [detLoop, Nat.add_sub_cancel, hrows]
      have hfirst : rd2 m.data 0 j = some (entry m.data 0 j) := rd2_entry (by decide) (by omega)
      simp only [Option.bind_eq_bind, Option.bind_some, hfirst, hd]
      exact hd'
    · have hsign : (if j % 2 = 0 then (1 : Int32) else -1).toBitVec = (-1) ^ j := by
        rcases Nat.even_or_odd j with heven | hodd
        · rw [if_pos (Nat.even_iff.1 heven), heven.neg_one_pow]
          rfl
        · rw [if_neg (by rw [Nat.odd_iff.1 hodd]; decide), hodd.neg_one_pow]
          rfl
      have hterm : (if j % 2 = 0 then (1 : Int32) else -1).toBitVec * (entry m.data 0 j).toBitVec * d.toBitVec =
          detTerm n m.data j := by
        rw [hsign, hdet, detTerm]
      rw [hsum, Finset.sum_range_succ', Int32.toBitVec_add, Int32.toBitVec_mul, Int32.toBitVec_mul, hterm, add_assoc,
        add_comm (detTerm n m.data j)]
      simp only [Nat.add_assoc, Nat.add_comm 1, Nat.add_zero]

/-! ## The recursion -/

/-- The test of a dimension. -/
theorem dimension_test (x : Int32) : x < 1 ∨ 4 < x ↔ ¬ (1 ≤ x.toInt ∧ x.toInt ≤ 4) := by
  have hone : (1 : Int32).toInt = 1 := rfl
  have hfour : (4 : Int32).toInt = 4 := rfl
  rw [Int32.lt_iff_toInt_lt, Int32.lt_iff_toInt_lt, hone, hfour]
  omega

/-- **The recursion is the determinant** over the words. The induction is on the number of
rows, which every call lowers by one. -/
theorem matrixDetDepth_eq (n : ℕ) (h1 : 1 ≤ n) : ∀ depth (m : MatrixT), n ≤ depth → n ≤ 4 → m.rows.toInt = n →
    ∃ d, matrixDetDepth depth m = some d ∧ d.toBitVec = (words32 n m.data).det := by
  have hone : (1 : Int32).toInt = 1 := rfl
  have htwo : (2 : Int32).toInt = 2 := rfl
  induction n, h1 using Nat.le_induction with
  | base =>
    intro depth m hdepth _ hrows
    obtain ⟨depth, rfl⟩ := Nat.exists_eq_succ_of_ne_zero (show depth ≠ 0 by omega)
    have hrows1 : m.rows = 1 := Int32.toInt_inj.1 (by rw [hrows, hone]; rfl)
    refine ⟨entry m.data 0 0, ?_, by rw [det_fin_one]; rfl⟩
    rw [matrixDetDepth, if_pos hrows1]
    exact rd2_entry (by decide) (by decide)
  | succ n hn ih =>
    intro depth m hdepth h4 hrows
    obtain ⟨depth, rfl⟩ := Nat.exists_eq_succ_of_ne_zero (show depth ≠ 0 by omega)
    have hrows1 : m.rows ≠ 1 := by
      intro h
      rw [h, hone] at hrows
      omega
    rw [matrixDetDepth, if_neg hrows1]
    by_cases hn1 : n = 1
    · subst hn1
      have hrows2 : m.rows = 2 := Int32.toInt_inj.1 (by rw [hrows, htwo]; rfl)
      refine ⟨entry m.data 0 0 * entry m.data 1 1 - entry m.data 0 1 * entry m.data 1 0, ?_, ?_⟩
      · have h00 : rd2 m.data 0 0 = some (entry m.data 0 0) := rd2_entry (by decide) (by decide)
        have h01 : rd2 m.data 0 1 = some (entry m.data 0 1) := rd2_entry (by decide) (by decide)
        have h10 : rd2 m.data 1 0 = some (entry m.data 1 0) := rd2_entry (by decide) (by decide)
        have h11 : rd2 m.data 1 1 = some (entry m.data 1 1) := rd2_entry (by decide) (by decide)
        rw [if_pos hrows2, h00, h01, h10, h11]
        rfl
      · rw [det_fin_two, Int32.toBitVec_sub, Int32.toBitVec_mul, Int32.toBitVec_mul]
        rfl
    · have hrows2 : m.rows ≠ 2 := by
        intro h
        rw [h, htwo] at hrows
        omega
      have hsub : (m.rows - 1).toInt = n := by
        rw [Int32.toInt_sub, hrows, hone, Int.bmod_eq_of_le (by omega) (by omega)]
        omega
      have hcount : m.rows.toInt.toNat = n + 1 := by rw [hrows]; rfl
      obtain ⟨d, hd, hdet⟩ := detLoop_eq (m := m) h4 (fun data => ih depth ⟨_, _, data⟩ (by omega) (by omega) hsub)
        (n + 1) 0 0 (by omega)
      rw [if_neg hrows2, hcount]
      refine ⟨d, hd, ?_⟩
      simp only [Nat.zero_add] at hdet
      rw [hdet, sum_detTerm h4]
      exact zero_add _

/-- The upper left corner of the array, over the integers. -/
def intMatrix (n : ℕ) (data : Fin 4 → Fin 4 → Int32) : Matrix (Fin n) (Fin n) ℤ :=
  of fun i k => (entry data i k).toInt

/-- **The 32-bit determinant** is that over the integers, modulo 2^32. -/
theorem det_words32 (n : ℕ) (data : Fin 4 → Fin 4 → Int32) :
    (words32 n data).det = BitVec.ofInt 32 (intMatrix n data).det := by
  have hmap : words32 n data = (Int.castRingHom (BitVec 32)).mapMatrix (intMatrix n data) := by
    ext1 i k
    exact BitVec.ofInt_toInt.symm
  rw [hmap, ← RingHom.map_det]
  rfl

/-- **`matrix_det` is the determinant** modulo 2^32, as a signed number, for every matrix of
1 to 4 rows. -/
theorem matrix_det_eq (m : MatrixT) (n : ℕ) (h1 : 1 ≤ n) (h4 : n ≤ 4) (hrows : m.rows.toInt = n) :
    ∃ d, matrixDet m = some d ∧ d.toInt = (intMatrix n m.data).det.bmod (2 ^ 32) := by
  obtain ⟨d, hd, hdet⟩ := matrixDetDepth_eq n h1 4 m h4 h4 hrows
  refine ⟨d, hd, ?_⟩
  rw [Int32.toInt, hdet, det_words32, BitVec.toInt_ofInt]

/-- The determinant of a matrix with three rows. -/
theorem matrix_det_eq_three : ∃ d, matrixDet ⟨3, 3, fun r c => if r = c then 2147483647 else 1⟩ = some d ∧
    d.toInt = (intMatrix 3 fun r c => if r = c then 2147483647 else 1).det.bmod (2 ^ 32) :=
  matrix_det_eq ⟨3, 3, fun r c => if r = c then 2147483647 else 1⟩ 3 (by decide) (by decide) rfl

end DahleOS
