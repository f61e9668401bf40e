import DahleOS.Proof.SaveList

/-!
# One corrupted byte

The checksum of a category is the sum of all bytes of its sectors, and the sectors are too
few for the sum to wrap. So it notices any change of one byte.

* `snapshot?_corrupted_self`, `snapshot?_corrupted_other`: the snapshots on such a disk.
* `corruption_caught`: what the loaders do with it.
-/

namespace DahleOS

open Codec SectorDisk

variable {disk : ℕ → UInt8} {c c' : Category} {w : World} {g : Saved} {j : ℕ} {v : UInt8}

/-- The byte is one of the category's sectors. -/
def Category.Holds (c : Category) (j : ℕ) : Prop := 512 * c.lba ≤ j ∧ j < 512 * (c.lba + c.count)

instance (c : Category) (j : ℕ) : Decidable (c.Holds j) := inferInstanceAs (Decidable (_ ∧ _))

theorem sum_fits (c : Category) : 512 * c.count * 255 < 2 ^ 32 := by
  cases c <;> simp [Category.count]

theorem diskHeader_corrupted (hj : c.Holds j) : diskHeader (Function.update disk j v) = diskHeader disk := by
  have hlba : 512 * (lbaHeader + 1) ≤ 512 * c.lba := by cases c <;> decide
  have hsec : sectors (Function.update disk j v) lbaHeader 1 = sectors disk lbaHeader 1 :=
    sectors_update_of_ne (Or.inr (hlba.trans hj.1)) disk v
  exact congrArg headerCodec.symm hsec

/-- **The corrupted category** has no snapshot any more. -/
theorem snapshot?_corrupted_self {x : c.Data} (hx : snapshot? disk c = some x) (hj : c.Holds j) (hv : v ≠ disk j) :
    snapshot? (Function.update disk j v) c = none := by
  obtain ⟨⟨-, -, hsum⟩, -⟩ := snapshot?_eq_some.1 hx
  obtain ⟨hlo, hhi⟩ := id hj
  obtain ⟨i, rfl⟩ : ∃ i : Fin (512 * c.count), j = 512 * c.lba + i :=
    ⟨⟨j - 512 * c.lba, by omega⟩, by simp only; omega⟩
  have hdata : dataSectors (Function.update disk (512 * c.lba + i) v) c = Function.update (dataSectors disk c) i v :=
    sectors_update disk i v
  refine if_neg ?_
  intro hacc
  have hsum' := hacc.2.2
  rw [diskHeader_corrupted hj, hdata, ← hsum] at hsum'
  exact checksum_update_ne _ (sum_fits c) i hv hsum'

/-- The other one keeps its own. -/
theorem snapshot?_corrupted_other (hne : c' ≠ c) (hj : c.Holds j) :
    snapshot? (Function.update disk j v) c' = snapshot? disk c' := by
  have hdata : dataSectors (Function.update disk j v) c' = dataSectors disk c' := by
    refine sectors_update_of_ne ?_ disk v
    obtain ⟨hlo, hhi⟩ := hj
    cases c <;> cases c' <;>
      simp only [Category.lba, Category.count, ne_eq, not_true_eq_false] at hlo hhi hne ⊢ <;> omega
  unfold snapshot?
  rw [diskHeader_corrupted hj, hdata]

/-- **What was saved**, on a fault-free drive. Between two saves memory can become anything,
also by a load or a reboot. -/
inductive Record : World → Saved → Prop
  | start {w : World} : w.diskPresent = true → w.drive = Drive.good w.drive.bytes → Record w Saved.none
  | op {w : World} {g : Saved} (op : PersistOp) : Record w g → Record (op.apply w) (g.step w op)
  | memory {w w' : World} {g : Saved} : Record w g → w'.diskPresent = true → w'.drive = w.drive → Record w' g

theorem Record.held (h : Record w g) : Held w g := by
  induction h with
  | start hp hd => exact { present := hp, good := hd, data := fun _ _ hx => by cases hx }
  | op op _ ih => exact ih.step op
  | memory _ hp hd ih => exact { present := hp, good := by rw [hd]; exact ih.good, data := by rw [hd]; exact ih.data }

/-- **One corrupted byte is caught.** After both categories were saved on a fault-free
drive, replace one byte in the sectors of one of them. Whatever is in memory then, the
loader of that category returns an error and changes nothing, and the loader of the other
restores what was saved. -/
theorem corruption_caught {w₀ : World} {data : (c : Category) → c.Data} (h : Record w₀ g)
    (hsaved : ∀ c, g.data c = some (data c)) (hj : c.Holds j) (hv : v ≠ w₀.drive.bytes j)
    (hp : w.diskPresent = true) (hd : w.drive = Drive.good (Function.update w₀.drive.bytes j v)) :
    persistLoad c w = (.error, w) ∧ ∀ c' ≠ c, persistLoad c' w = (.ok, w.set c' (data c')) := by
  have hsnap := fun c => h.held.data c (data c) (hsaved c)
  constructor
  · obtain ⟨⟨-, hflag, -⟩, -⟩ := snapshot?_eq_some.1 (hsnap c)
    -- the header still says that the category was saved
    have hflag' : ¬ ((diskHeader w₀.drive.bytes).magic = persistMagic ∧
        (diskHeader w₀.drive.bytes).flags &&& c.flag = 0) := fun hzero => hflag hzero.2
    rw [persistLoad_good hp hd, snapshot?_corrupted_self (hsnap c) hj hv, diskHeader_corrupted hj]
    dsimp only
    rw [if_neg hflag']
  · intro c' hne
    rw [persistLoad_good hp hd, snapshot?_corrupted_other hne hj, hsnap c']

/-- One byte of the saved pool, with the machine switched on after it. -/
theorem corruption_caught_pool : ∃ fs w₀ g w, fsInit = some fs ∧ Record w₀ g ∧ g.data .fs = some fs ∧
    w.drive = Drive.good (Function.update w₀.drive.bytes (512 * 7) (w₀.drive.bytes (512 * 7) + 1)) ∧
    persistLoad .fs w = (.error, w) ∧ persistLoad .aliases w = (.ok, w.set .aliases .zero) := by
  obtain ⟨fs, hfs, -⟩ := fsInit_wellFormed
  set w₀ : World := { World.cleared (Drive.good fun _ => 0) with fs, diskPresent := true }
  set w₁ : World := (persistSave .aliases w₀).2 with hw₁
  set w₂ : World := (persistSave .fs w₁).2
  have hlisted : savelistAll &&& Category.aliases.bit ≠ 0 ∧ savelistAll &&& Category.fs.bit ≠ 0 := by decide
  have hsaves₀ : w₀.Saves .aliases := ⟨rfl, hlisted.1⟩
  have hgood := persistSave_good hsaves₀ rfl
  have hsaves₁ : w₁.Saves .fs := by rw [hw₁, hgood]; exact ⟨rfl, hlisted.2⟩
  have hfs₁ : w₁.fs = fs := by rw [hw₁, hgood]
  -- both saves are on the record
  set g₁ := Saved.none.step w₀ (.save .aliases) with hg₁
  have hrec : Record w₂ (g₁.step w₁ (.save .fs)) := .op (.save .fs) (.op (.save .aliases) (.start rfl rfl))
  rw [Saved.step, if_pos hsaves₁, hg₁, Saved.step, if_pos hsaves₀] at hrec
  set w : World := { World.cleared
    (Drive.good (Function.update w₂.drive.bytes (512 * 7) (w₂.drive.bytes (512 * 7) + 1))) with diskPresent := true }
  let data (c : Category) : c.Data := c.rec .zero fs
  have hsaved (c : Category) : Function.update (Function.update Saved.none.data .aliases (some (w₀.get .aliases)))
      .fs (some (w₁.get .fs)) c = some (data c) := by
    cases c with
    | aliases => rfl
    | fs => exact congrArg some hfs₁
  have h := corruption_caught (c := .fs) (w := w) hrec hsaved (by decide) (by simp) rfl rfl
  exact ⟨fs, w₂, _, w, hfs, hrec, hsaved .fs, rfl, h.1, h.2 .aliases (by decide)⟩

end DahleOS
