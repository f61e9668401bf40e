import DahleOS.Proof.FsRun
import DahleOS.Proof.Snapshot

/-!
# Torn saves of the filesystem

A save that stops after `k` sectors leaves the first `k` sectors of the new image in
front of the rest of the old one, under the old header. The checksum is the sum of the
bytes, so the mixed image is accepted exactly when the two images have the same sum over
these `k` sectors.

* `torn_save`: what the next load does.
* `torn_mixture`: a run of commands between two saves whose torn image is accepted.
-/

namespace DahleOS

open Codec SectorDisk

variable {disk : ℕ → UInt8} {c : Category}

/-- The disk holds a complete save of `x`. -/
def Holds (disk : ℕ → UInt8) (c : Category) (x : c.Data) : Prop :=
  (diskHeader disk).Accepts c (c.image x) ∧ dataSectors disk c = c.image x

/-- The image with the first `k` sectors of `new` in front of the rest of `old`. -/
def mixedImage (c : Category) (old new : c.Data) (k : ℕ) : Fin (512 * c.count) → UInt8 :=
  splice (512 * k) (c.image old) (c.image new)

theorem holds_savedDisk (disk : ℕ → UInt8) (src : Header) (savelist : UInt32) (c : Category) (x : c.Data) :
    Holds (savedDisk disk src savelist c x) c x := by
  have h := snapshot?_eq_some.1 (snapshot?_savedDisk_self disk src savelist c x)
  have hdata : dataSectors (savedDisk disk src savelist c x) c = c.image x := by
    rw [savedDisk, dataSectors_put_header, dataSectors_put_self]
  rw [hdata] at h
  exact ⟨h.1, hdata⟩

/-- **The snapshot of a torn disk** is the mixed image, and is there exactly when the two
images have the same sum over the sectors written. -/
theorem snapshot?_tornDisk {old : c.Data} (h : Holds disk c old) (new : c.Data) (k : ℕ) :
    snapshot? (tornDisk disk c new k) c =
      if byteSum (512 * k) (c.image new) = byteSum (512 * k) (c.image old)
        then some (c.ofImage (mixedImage c old new k)) else none := by
  obtain ⟨⟨hmagic, hflag, hsum⟩, hdata⟩ := h
  have hlen : 512 * c.count * 255 < 2 ^ 32 := by cases c <;> decide
  have hsplice := checksum_splice_eq (512 * k) (c.image old) (c.image new) hlen
  unfold snapshot? tornDisk
  rw [diskHeader_put_data, dataSectors_put_self, hdata]
  unfold Header.Accepts
  simp only [hmagic, true_and, ne_eq, hflag, not_false_eq_true, ← hsum, hsplice]
  rfl

/-- The mixed state is the old one when the sectors written are the same in both. -/
theorem mixed_eq_old {old new : c.Data} {k : ℕ}
    (h : ∀ i : Fin (512 * c.count), i.val < 512 * k → c.image new i = c.image old i) :
    c.ofImage (mixedImage c old new k) = old := by
  rw [mixedImage, splice_eq_left h, ofImage_image]

/-- It is the new one when the other sectors are. -/
theorem mixed_eq_new {old new : c.Data} {k : ℕ}
    (h : ∀ i : Fin (512 * c.count), 512 * k ≤ i.val → c.image new i = c.image old i) :
    c.ofImage (mixedImage c old new k) = new := by
  rw [mixedImage, splice_eq_right h, ofImage_image]

/-- **The load after a torn save.** A save of the pool that fails has written some first
`k` sectors. Any load after it, with any memory and any failures, either reports an error
and leaves memory as it was, or restores the mixed state, and that only if the two images
have the same sum over the first `k` sectors; if they have, and the load meets no failure,
it does. -/
theorem torn_save (w : World) (old : Fs) (hs : w.Saves .fs) (hold : Holds w.drive.bytes .fs old)
    (hfail : (persistSaveFs w).1 ≠ .ok) :
    (∃ k ≤ 51, (persistSaveFs w).2.drive.bytes = tornDisk w.drive.bytes .fs w.fs k) ∧
    ∀ k, (persistSaveFs w).2.drive.bytes = tornDisk w.drive.bytes .fs w.fs k → ∀ m : World,
      m.drive.bytes = (persistSaveFs w).2.drive.bytes →
        (((persistLoadFs m).1 ≠ .ok ∧ (persistLoadFs m).2.fs = m.fs ∧
            (persistLoadFs m).2.aliases = m.aliases) ∨
          ((persistLoadFs m).1 = .ok ∧
            byteSum (512 * k) (Category.image .fs w.fs) = byteSum (512 * k) (Category.image .fs old) ∧
            (persistLoadFs m).2.fs = Category.ofImage .fs (mixedImage .fs old w.fs k) ∧
            (persistLoadFs m).2.aliases = m.aliases)) ∧
        (m.diskPresent = true → m.drive = Drive.good m.drive.bytes →
          ((persistLoadFs m).1 = .ok ↔
            byteSum (512 * k) (Category.image .fs w.fs) = byteSum (512 * k) (Category.image .fs old))) := by
  have htorn : ∃ k ≤ 51, (persistSaveFs w).2.drive.bytes = tornDisk w.drive.bytes .fs w.fs k := by
    obtain ⟨plan, buf, bytes, hw, ⟨hok, -⟩ | ⟨-, hk⟩⟩ := persistSave_cases hs
    · exact absurd hok hfail
    · rw [persistSaveFs, hw]; exact hk
  refine ⟨htorn, ?_⟩
  intro k hk m hm
  have hsnap := snapshot?_tornDisk hold w.fs k
  rw [← hk, ← hm] at hsnap
  refine ⟨?_, ?_⟩
  · obtain ⟨plan, ⟨hload, hmiss⟩ | ⟨x, hx, hload⟩⟩ := persistLoad_cases .fs m
    · -- a pool that is not there is an error
      refine Or.inl ⟨?_, ?_, ?_⟩
      · intro hok
        exact absurd (hmiss hok).1 (by decide)
      · rw [persistLoadFs, hload]; rfl
      · rw [persistLoadFs, hload]; rfl
    · rw [hsnap] at hx
      split at hx
      · rename_i hsum
        obtain rfl := Option.some.inj hx
        rw [persistLoadFs, hload]
        exact Or.inr ⟨rfl, hsum, rfl, rfl⟩
      · cases hx
  · intro hp hd
    rw [persistLoadFs, persistLoad_good hp hd]
    by_cases hsum : byteSum (512 * k) (Category.image .fs w.fs) = byteSum (512 * k) (Category.image .fs old)
    · rw [hsnap, if_pos hsum]
      exact iff_of_true rfl hsum
    · rw [hsnap, if_neg hsum]
      refine iff_of_false ?_ hsum
      dsimp only
      split <;> decide

/-! ## A mixture -/

/-- The pool in `/tmp` after `fs_init`. -/
def oldFs : Fs := (fsInit.bind (·.run [(.cd, str "tmp")])).getD fsInitEmpty

/-- A directory made there, and back in `/home`: one more node, a smaller `cwd`. -/
def newFs : Fs := (oldFs.run [(.mkdir, str "x"), (.cd, str "/home")]).getD fsInitEmpty

/-- The old pool saved, the new one in memory, and a drive that stops at the second
sector of the next write. -/
def tornWorld : World :=
  { World.cleared ⟨savedDisk (fun _ => 0) (diskHeader fun _ => 0) savelistAll .fs oldFs,
      fun k i => if k = 0 ∧ i = 2 then .error else .ok⟩ with
    diskPresent := true
    fs := newFs }

theorem tornWorld_saves : tornWorld.Saves .fs := ⟨rfl, by decide⟩

theorem tornWorld_holds : Holds tornWorld.drive.bytes .fs oldFs := holds_savedDisk _ _ _ _ _

theorem tornWorld_failed : (persistSaveFs tornWorld).1 ≠ .ok := by
  have : (persistSaveFs tornWorld).1 = .error := rfl
  rw [this]; decide

/-- The load after that save. -/
theorem torn_save_tornWorld : ∃ k ≤ 51,
    (persistSaveFs tornWorld).2.drive.bytes = tornDisk tornWorld.drive.bytes .fs newFs k :=
  (torn_save tornWorld oldFs tornWorld_saves tornWorld_holds tornWorld_failed).1

theorem tornWorld_bytes :
    (persistSaveFs tornWorld).2.drive.bytes = tornDisk tornWorld.drive.bytes .fs newFs 1 := by
  have h := @writeSector_splice _ tornWorld.drive.bytes (Category.lba .fs) 0 (count_pos .fs)
    (Category.image .fs newFs)
  rw [Nat.mul_zero, splice_zero, put_sectors] at h
  exact h

/-- **A torn save can be accepted.** Both pools come from commands, their sums agree over
the first sector, and the load restores a pool that is neither of them. -/
theorem torn_mixture : fsInit.bind (·.run [(.cd, str "tmp")]) = some oldFs ∧
    oldFs.run [(.mkdir, str "x"), (.cd, str "/home")] = some tornWorld.fs ∧
    Holds tornWorld.drive.bytes .fs oldFs ∧ (persistSaveFs tornWorld).1 ≠ .ok ∧
    (persistSaveFs tornWorld).2.drive.bytes = tornDisk tornWorld.drive.bytes .fs tornWorld.fs 1 ∧
    ∃ m : World, m.drive.bytes = (persistSaveFs tornWorld).2.drive.bytes ∧ (persistLoadFs m).1 = .ok ∧
      (persistLoadFs m).2.fs ≠ oldFs ∧ (persistLoadFs m).2.fs ≠ tornWorld.fs := by
  have hget {α : Type} {o : Option α} (ho : o.isSome = true) (x : α) : o = some (o.getD x) := by
    cases o with
    | none => cases ho
    | some y => rfl
  refine ⟨hget (by decide +kernel) fsInitEmpty, hget (by decide +kernel) fsInitEmpty, tornWorld_holds,
    tornWorld_failed, tornWorld_bytes, ?_⟩
  have hsum : byteSum (512 * 1) (Category.image .fs newFs) = byteSum (512 * 1) (Category.image .fs oldFs) := by
    decide +kernel
  have hsnap := snapshot?_tornDisk tornWorld_holds newFs 1
  rw [if_pos hsum, ← tornWorld_bytes] at hsnap
  -- a load on a good drive, by a machine that was just switched on
  obtain ⟨m, hp, hd⟩ : ∃ m : World, m.diskPresent = true ∧
      m.drive = Drive.good (persistSaveFs tornWorld).2.drive.bytes :=
    ⟨{ World.cleared (Drive.good (persistSaveFs tornWorld).2.drive.bytes) with diskPresent := true }, rfl, rfl⟩
  have hload := persistLoad_good (c := .fs) hp hd
  rw [hsnap] at hload
  refine ⟨m, by rw [hd]; rfl, by rw [persistLoadFs, hload], ?_, ?_⟩
  · -- the count is that of the new pool
    rw [persistLoadFs, hload]
    intro h
    have hused : (Category.ofImage .fs (mixedImage .fs oldFs newFs 1)).poolUsed ≠ oldFs.poolUsed := by
      decide +kernel
    exact hused (congrArg Fs.poolUsed h)
  · -- the child list of `/tmp` is that of the old one
    rw [persistLoadFs, hload]
    intro h
    have hcount : ((Category.ofImage .fs (mixedImage .fs oldFs newFs 1)).pool 2).childCount ≠
        (newFs.pool 2).childCount := by
      decide +kernel
    exact hcount (congrArg (fun fs : Fs => (fs.pool 2).childCount) h)

end DahleOS
