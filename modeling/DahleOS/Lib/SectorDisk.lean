import DahleOS.Lib.Codec

/-!
# A disk of 512-byte sectors

A disk is its bytes. `sectors` reads a run of sectors, `put` replaces one.

* `sectors_put`: what is put is read back.
* `sectors_put_of_disjoint`: other sectors keep their bytes.
* `sectors_update`: what one byte changes.
-/

namespace SectorDisk

variable {count : ℕ}

/-- The `count` sectors from `lba` on. -/
def sectors (disk : ℕ → UInt8) (lba count : ℕ) : Fin (512 * count) → UInt8 := fun i => disk (512 * lba + i)

/-- The disk with `buf` in the sectors from `lba` on. -/
def put (disk : ℕ → UInt8) (lba : ℕ) (buf : Fin (512 * count) → UInt8) : ℕ → UInt8 := fun j =>
  if h : 512 * lba ≤ j ∧ j < 512 * lba + 512 * count then buf ⟨j - 512 * lba, by omega⟩ else disk j

@[simp] theorem sectors_put (disk : ℕ → UInt8) (lba : ℕ) (buf : Fin (512 * count) → UInt8) :
    sectors (put disk lba buf) lba count = buf := by
  funext i
  have hi := i.isLt
  have hidx : (⟨512 * lba + i.val - 512 * lba, by omega⟩ : Fin (512 * count)) = i := Fin.ext (by simp)
  rw [sectors, put, dif_pos ⟨by omega, by omega⟩, hidx]

theorem sectors_put_of_disjoint {n lba lba' : ℕ} (h : lba + count ≤ lba' ∨ lba' + n ≤ lba) (disk : ℕ → UInt8)
    (buf : Fin (512 * count) → UInt8) : sectors (put disk lba buf) lba' n = sectors disk lba' n := by
  funext i
  have hi := i.isLt
  rw [sectors, put, dif_neg (by omega)]; rfl

/-- A byte outside the run is not read. -/
theorem sectors_update_of_ne {lba count j : ℕ} (h : j < 512 * lba ∨ 512 * (lba + count) ≤ j) (disk : ℕ → UInt8)
    (v : UInt8) : sectors (Function.update disk j v) lba count = sectors disk lba count := by
  funext i
  have hi := i.isLt
  exact Function.update_of_ne (by omega) _ _

/-- A byte inside it is read at its place. -/
theorem sectors_update {lba count : ℕ} (disk : ℕ → UInt8) (i : Fin (512 * count)) (v : UInt8) :
    sectors (Function.update disk (512 * lba + i) v) lba count = Function.update (sectors disk lba count) i v := by
  funext k
  unfold sectors
  by_cases hk : k = i
  · subst hk
    rw [Function.update_self, Function.update_self]
  · have hne : 512 * lba + k.val ≠ 512 * lba + i.val := fun h => hk (Fin.ext (Nat.add_left_cancel h))
    rw [Function.update_of_ne hk, Function.update_of_ne hne]

/-- Putting back what is there changes nothing. -/
@[simp] theorem put_sectors (disk : ℕ → UInt8) (lba count : ℕ) : put disk lba (sectors disk lba count) = disk := by
  funext j
  unfold put
  split
  · simp only [sectors]
    congr 1
    omega
  · rfl

end SectorDisk
