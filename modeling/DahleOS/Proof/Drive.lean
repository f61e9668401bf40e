import DahleOS.Model.Ata

/-!
# What one command to the drive does

* `ataReadSectors_eq`, `ataWriteSectors_eq`: a command moves some number of whole
  sectors, all of them exactly when it succeeds, and nothing else.
* `readSectors_good`, `writeSectors_good`: on a good drive every command succeeds.
-/

namespace DahleOS

open Codec SectorDisk

variable {count : ℕ}

theorem Wait.status_ne_ok {x : Wait} (h : x ≠ .ok) : x.status ≠ .ok := by
  cases x with
  | ok => exact absurd rfl h
  | error => decide
  | timeout => decide

/-- A buffer filled up to sector `s` and then with sector `s` is filled up to the next. -/
theorem readSector_splice (disk : ℕ → UInt8) (lba s : ℕ) (buf : Fin (512 * count) → UInt8) :
    readSector disk lba s (splice (512 * s) buf (sectors disk lba count)) =
      splice (512 * (s + 1)) buf (sectors disk lba count) := by
  funext i
  simp only [readSector, splice, sectors]
  by_cases h₁ : i.val < 512 * s
  · rw [if_neg (by omega), if_pos h₁, if_pos (by omega)]
  · by_cases h₂ : i.val < 512 * (s + 1)
    · rw [if_pos ⟨by omega, h₂⟩, if_pos h₂]
    · rw [if_neg (by omega), if_neg h₁, if_neg h₂]

theorem readLoop_eq (disk : ℕ → UInt8) (script : Script) (lba : ℕ) (buf : Fin (512 * count) → UInt8) :
    ∀ todo s, s + todo = count → ∃ done ≤ count, ∃ r,
      readLoop disk script lba s todo (splice (512 * s) buf (sectors disk lba count)) =
        (r, splice (512 * done) buf (sectors disk lba count)) ∧ (r = .ok ↔ done = count) := by
  intro todo
  induction todo with
  | zero => intro s hs; exact ⟨s, by omega, .ok, rfl, by simpa using hs⟩
  | succ todo ih =>
    intro s hs
    have hfail {x : Wait} (hx : x ≠ .ok) : x.status = .ok ↔ s = count :=
      ⟨fun h => absurd h (Wait.status_ne_ok hx), fun h => by omega⟩
    simp only [readLoop]
    -- a wait that fails leaves the buffer filled up to sector `s`
    split
    · rename_i h; exact ⟨s, by omega, _, rfl, hfail h⟩
    split
    · rename_i h; exact ⟨s, by omega, _, rfl, hfail h⟩
    · rw [readSector_splice]
      exact ih (s + 1) (by omega)

theorem splice_zero {n : ℕ} (a b : Fin n → UInt8) : splice 0 a b = a := splice_eq_left fun _ h => by omega

theorem splice_all {n : ℕ} (a b : Fin n → UInt8) : splice n a b = b :=
  splice_eq_right fun i h => absurd i.isLt (by omega)

/-- **A read** fills the buffer up to some sector, and all of it exactly when it succeeds. -/
theorem ataReadSectors_eq (d : Drive) (lba : ℕ) (buf : Fin (512 * count) → UInt8) (hc : 0 < count) :
    ∃ done ≤ count, ∃ r, ataReadSectors d lba count buf =
      (r, splice (512 * done) buf (sectors d.bytes lba count), d.advance) ∧ (r = .ok ↔ done = count) := by
  unfold ataReadSectors
  split
  · refine ⟨0, by omega, .timeout, by rw [Nat.mul_zero, splice_zero], ?_⟩
    exact ⟨fun h => absurd h (by decide), fun h => by omega⟩
  · obtain ⟨done, hle, r, hr, hiff⟩ := readLoop_eq d.bytes (d.plan 0) lba buf count 0 (by omega)
    rw [Nat.mul_zero, splice_zero] at hr
    exact ⟨done, hle, r, by rw [hr], hiff⟩

theorem writeSector_splice (disk : ℕ → UInt8) {lba s : ℕ} (hs : s < count) (buf : Fin (512 * count) → UInt8) :
    writeSector (put disk lba (splice (512 * s) (sectors disk lba count) buf)) lba s buf =
      put disk lba (splice (512 * (s + 1)) (sectors disk lba count) buf) := by
  funext j
  simp only [writeSector, put, splice, sectors]
  by_cases hin : 512 * lba ≤ j ∧ j < 512 * lba + 512 * count
  · -- before sector `s`, in it, or behind it
    rw [dif_pos hin, dif_pos hin]
    by_cases h₁ : j - 512 * lba < 512 * s
    · rw [dif_neg (by omega), if_pos h₁, if_pos (by omega)]
    · by_cases h₂ : j - 512 * lba < 512 * (s + 1)
      · rw [dif_pos ⟨by omega, by omega, by omega⟩, if_pos h₂]
      · rw [dif_neg (by omega), if_neg h₁, if_neg h₂]
  · rw [dif_neg hin, dif_neg hin, dif_neg (by omega)]

theorem writeLoop_eq (disk : ℕ → UInt8) (script : Script) (lba : ℕ) (buf : Fin (512 * count) → UInt8) :
    ∀ todo s, s + todo = count → ∃ done ≤ count, ∃ r,
      writeLoop script lba buf s todo (put disk lba (splice (512 * s) (sectors disk lba count) buf)) =
        (r, put disk lba (splice (512 * done) (sectors disk lba count) buf)) ∧ (r = .ok ↔ done = count) := by
  intro todo
  induction todo with
  | zero => intro s hs; exact ⟨s, by omega, .ok, rfl, by simpa using hs⟩
  | succ todo ih =>
    intro s hs
    simp only [writeLoop]
    split
    · rename_i h
      exact ⟨s, by omega, _, rfl, ⟨fun h' => absurd h' (Wait.status_ne_ok h), fun h' => by omega⟩⟩
    · rw [writeSector_splice disk (by omega)]
      exact ih (s + 1) (by omega)

/-- **A write** replaces the sectors up to some point, and all of them exactly when it
succeeds. -/
theorem ataWriteSectors_eq (d : Drive) (lba : ℕ) (buf : Fin (512 * count) → UInt8) (hc : 0 < count) :
    ∃ done ≤ count, ∃ r, ataWriteSectors d lba count buf =
      (r, { d.advance with bytes := put d.bytes lba (splice (512 * done) (sectors d.bytes lba count) buf) }) ∧
      (r = .ok ↔ done = count) := by
  unfold ataWriteSectors
  split
  · refine ⟨0, by omega, .timeout, by rw [Nat.mul_zero, splice_zero, put_sectors]; rfl, ?_⟩
    exact ⟨fun h => absurd h (by decide), fun h => by omega⟩
  · obtain ⟨done, hle, r, hr, hiff⟩ := writeLoop_eq d.bytes (d.plan 0) lba buf count 0 (by omega)
    rw [Nat.mul_zero, splice_zero, put_sectors] at hr
    exact ⟨done, hle, r, by rw [hr], hiff⟩

/-! ## Good drives -/

@[simp] theorem good_bytes (disk : ℕ → UInt8) : (Drive.good disk).bytes = disk := rfl

theorem readLoop_good (disk : ℕ → UInt8) (lba : ℕ) : ∀ todo s (buf : Fin (512 * count) → UInt8),
    (readLoop disk (fun _ => .ok) lba s todo buf).1 = .ok := by
  intro todo
  induction todo with
  | zero => intro s buf; rfl
  | succ todo ih => intro s buf; simp [readLoop, ih]

theorem writeLoop_good (lba : ℕ) (buf : Fin (512 * count) → UInt8) : ∀ todo s (disk : ℕ → UInt8),
    (writeLoop (fun _ => .ok) lba buf s todo disk).1 = .ok := by
  intro todo
  induction todo with
  | zero => intro s disk; rfl
  | succ todo ih => intro s disk; simp [writeLoop, ih]

theorem readSectors_good (disk : ℕ → UInt8) (lba : ℕ) (buf : Fin (512 * count) → UInt8) (hc : 0 < count) :
    ataReadSectors (Drive.good disk) lba count buf = (.ok, sectors disk lba count, Drive.good disk) := by
  obtain ⟨done, -, r, hr, hiff⟩ := ataReadSectors_eq (Drive.good disk) lba buf hc
  have hok : (ataReadSectors (Drive.good disk) lba count buf).1 = .ok := readLoop_good disk lba count 0 buf
  rw [hr] at hok ⊢
  obtain rfl : r = .ok := hok
  rw [hiff.1 rfl, splice_all]; rfl

theorem writeSectors_good (disk : ℕ → UInt8) (lba : ℕ) (buf : Fin (512 * count) → UInt8) (hc : 0 < count) :
    ataWriteSectors (Drive.good disk) lba count buf = (.ok, Drive.good (put disk lba buf)) := by
  obtain ⟨done, -, r, hr, hiff⟩ := ataWriteSectors_eq (Drive.good disk) lba buf hc
  have hok : (ataWriteSectors (Drive.good disk) lba count buf).1 = .ok := writeLoop_good lba buf count 0 disk
  rw [hr] at hok ⊢
  obtain rfl : r = .ok := hok
  rw [hiff.1 rfl, splice_all]; rfl

theorem detect_good (disk : ℕ → UInt8) : ataDetect (Drive.good disk) = (true, Drive.good disk) := rfl

end DahleOS
