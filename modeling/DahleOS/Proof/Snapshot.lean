import DahleOS.Model.Persist
import DahleOS.Proof.Drive

/-!
# Snapshots on disk

A disk holds a snapshot of a category when the header is valid, has the category's flag,
and its checksum is that of the category's sectors.

* `persistLoad_exact`, `persistLoad_good`: a load leaves memory alone or restores the
  snapshot; on a good drive it restores the snapshot whenever there is one.
* `persistSave_cases`: what a save leaves on the disk, whatever fails.
* `snapshot?_savedDisk_self`, `snapshot?_savedDisk_other`: which snapshots are there then.
-/

namespace DahleOS

open Codec SectorDisk

/-! ## Views of a disk -/

/-- The header on the disk. -/
def diskHeader (disk : ℕ → UInt8) : Header := headerCodec.symm (sectors disk lbaHeader 1)

/-- The sectors of a category. -/
def dataSectors (disk : ℕ → UInt8) (c : Category) : Fin (512 * c.count) → UInt8 :=
  sectors disk c.lba c.count

/-- The header vouches for these bytes. -/
def Header.Accepts (h : Header) (c : Category) (buf : Fin (512 * c.count) → UInt8) : Prop :=
  h.magic = persistMagic ∧ h.flags &&& c.flag ≠ 0 ∧ checksum buf = h.csum c

instance (h : Header) (c : Category) (buf : Fin (512 * c.count) → UInt8) : Decidable (h.Accepts c buf) :=
  inferInstanceAs (Decidable (_ ∧ _))

/-- **The snapshot of a category** on the disk, if there is one. -/
def snapshot? (disk : ℕ → UInt8) (c : Category) : Option c.Data :=
  if (diskHeader disk).Accepts c (dataSectors disk c) then some (c.ofImage (dataSectors disk c)) else none

variable {disk : ℕ → UInt8} {c c' : Category} {w : World}

@[simp] theorem ofImage_image (c : Category) (x : c.Data) : c.ofImage (c.image x) = x := by
  simp [Category.ofImage, Category.image]

theorem headerCodec_sectors (disk : ℕ → UInt8) :
    headerCodec.symm (sectors disk lbaHeader 1) = diskHeader disk := rfl

theorem count_pos (c : Category) : 0 < c.count := by cases c <;> decide

theorem diskHeader_put_data (disk : ℕ → UInt8) (c : Category) (buf : Fin (512 * c.count) → UInt8) :
    diskHeader (put disk c.lba buf) = diskHeader disk := by
  rw [diskHeader, sectors_put_of_disjoint]; rfl
  cases c <;> decide

@[simp] theorem diskHeader_put_header (disk : ℕ → UInt8) (h : Header) :
    diskHeader (put disk lbaHeader (headerCodec h)) = h := by
  rw [diskHeader, sectors_put, Equiv.symm_apply_apply]

theorem dataSectors_put_header (disk : ℕ → UInt8) (c : Category) (buf : Fin (512 * 1) → UInt8) :
    dataSectors (put disk lbaHeader buf) c = dataSectors disk c := by
  refine sectors_put_of_disjoint ?_ disk buf
  cases c <;> decide

@[simp] theorem dataSectors_put_self (disk : ℕ → UInt8) (c : Category) (buf : Fin (512 * c.count) → UInt8) :
    dataSectors (put disk c.lba buf) c = buf := sectors_put disk c.lba buf

theorem dataSectors_put_other (hne : c' ≠ c) (disk : ℕ → UInt8) (buf : Fin (512 * c.count) → UInt8) :
    dataSectors (put disk c.lba buf) c' = dataSectors disk c' := by
  refine sectors_put_of_disjoint ?_ disk buf
  cases c <;> cases c' <;> first | exact absurd rfl hne | decide

/-! ## Memory -/

@[simp] theorem World.set_drive (w : World) (c : Category) (x : c.Data) : (w.set c x).drive = w.drive := by
  cases c <;> rfl

@[simp] theorem World.get_set_self (w : World) (c : Category) (x : c.Data) : (w.set c x).get c = x := by
  cases c <;> rfl

theorem World.get_set_other (hne : c' ≠ c) (w : World) (x : c.Data) : (w.set c x).get c' = w.get c' := by
  cases c <;> cases c' <;> first | exact absurd rfl hne | rfl

@[simp] theorem World.set_diskPresent (w : World) (c : Category) (x : c.Data) :
    (w.set c x).diskPresent = w.diskPresent := by cases c <;> rfl

@[simp] theorem World.set_savelistFlags (w : World) (c : Category) (x : c.Data) :
    (w.set c x).savelistFlags = w.savelistFlags := by cases c <;> rfl

/-! ## The header sector -/

/-- The waits of a one-sector read all succeed. -/
def Script.ReadsOne (s : Script) : Prop := s 0 = .ok ∧ s 1 = .ok ∧ s 2 = .ok

instance (s : Script) : Decidable s.ReadsOne := inferInstanceAs (Decidable (_ ∧ _))

/-- The waits of a one-sector write all succeed. -/
def Script.WritesOne (s : Script) : Prop := s 0 = .ok ∧ s 1 = .ok

instance (s : Script) : Decidable s.WritesOne := inferInstanceAs (Decidable (_ ∧ _))

theorem ataReadSectors_one_ok {d : Drive} {lba : ℕ} {buf : Fin (512 * 1) → UInt8} :
    (ataReadSectors d lba 1 buf).1 = .ok ↔ (d.plan 0).ReadsOne := by
  have hne (x : Wait) (hx : x ≠ .ok) : x.status ≠ .ok := Wait.status_ne_ok hx
  unfold ataReadSectors Script.ReadsOne
  by_cases h0 : d.plan 0 0 = .ok
  · by_cases h1 : d.plan 0 1 = .ok
    · by_cases h2 : d.plan 0 2 = .ok
      · simp [h0, h1, h2, readLoop]
      · simp [h0, h1, h2, readLoop, hne]
    · simp [h0, h1, readLoop, hne]
  · simp [h0]

theorem ataWriteSectors_one_ok {d : Drive} {lba : ℕ} {buf : Fin (512 * 1) → UInt8} :
    (ataWriteSectors d lba 1 buf).1 = .ok ↔ (d.plan 0).WritesOne := by
  have hne (x : Wait) (hx : x ≠ .ok) : x.status ≠ .ok := Wait.status_ne_ok hx
  unfold ataWriteSectors Script.WritesOne
  by_cases h0 : d.plan 0 0 = .ok
  · by_cases h1 : d.plan 0 1 = .ok
    · simp [h0, h1, writeLoop]
    · simp [h0, h1, writeLoop, hne]
  · simp [h0]

/-- A header read is the header sector, or the buffer as it was. -/
theorem readHeader_eq (w : World) (buf : Fin (512 * 1) → UInt8) :
    ∃ r, readHeader w buf = (r, if (w.drive.plan 0).ReadsOne then sectors w.drive.bytes lbaHeader 1 else buf,
      { w with drive := w.drive.advance }) ∧ (r = .ok ↔ (w.drive.plan 0).ReadsOne) := by
  have hiff := @ataReadSectors_one_ok w.drive lbaHeader buf
  obtain ⟨done, hle, r, hr, hok⟩ := @ataReadSectors_eq 1 w.drive lbaHeader buf (by omega)
  rw [hr] at hiff
  refine ⟨r, ?_, hiff⟩
  unfold readHeader
  rw [hr]
  by_cases h : (w.drive.plan 0).ReadsOne
  · rw [if_pos h, hok.1 (hiff.2 h), splice_all]
  · have hne : done ≠ 1 := fun hd => h (hiff.1 (hok.2 hd))
    obtain rfl : done = 0 := by omega
    rw [if_neg h, Nat.mul_zero, splice_zero]

/-- A header write is done in full or not at all. -/
theorem writeHeader_eq (w : World) (flags : UInt32) (csum : Category → UInt32) :
    ∃ r, writeHeader w flags csum = (r, { w with
        drive := { w.drive.advance with
          bytes := if (w.drive.plan 0).WritesOne then put w.drive.bytes lbaHeader (headerCodec
            ⟨persistMagic, persistVersion, flags, csum .aliases, csum .fs, w.savelistFlags, fun _ => 0⟩)
            else w.drive.bytes } }) ∧ (r = .ok ↔ (w.drive.plan 0).WritesOne) := by
  set h : Header :=
    ⟨persistMagic, persistVersion, flags, csum .aliases, csum .fs, w.savelistFlags, fun _ => 0⟩ with hdef
  have hiff := @ataWriteSectors_one_ok w.drive lbaHeader (headerCodec h)
  obtain ⟨done, hle, r, hr, hok⟩ := @ataWriteSectors_eq 1 w.drive lbaHeader (headerCodec h) (by omega)
  rw [hr] at hiff
  refine ⟨r, ?_, hiff⟩
  unfold writeHeader
  simp only [← hdef, hr]
  by_cases hw : (w.drive.plan 0).WritesOne
  · rw [if_pos hw, hok.1 (hiff.2 hw), splice_all]
  · have hne : done ≠ 1 := fun hd => hw (hiff.1 (hok.2 hd))
    obtain rfl : done = 0 := by omega
    rw [if_neg hw, Nat.mul_zero, splice_zero, put_sectors]

/-! ## Loading -/

/-- The drive after some commands that wrote nothing. -/
def World.withPlan (w : World) (plan : ℕ → Script) : World := { w with drive := { w.drive with plan } }

@[simp] theorem World.withPlan_bytes (w : World) (plan : ℕ → Script) :
    (w.withPlan plan).drive.bytes = w.drive.bytes := rfl

/-- All waits of a read of so many sectors succeed. -/
def Script.Reads (s : Script) (count : ℕ) : Prop := ∀ i ≤ 2 * count, s i = .ok

instance (s : Script) (count : ℕ) : Decidable (s.Reads count) :=
  inferInstanceAs (Decidable (∀ i ≤ 2 * count, s i = .ok))

theorem readLoop_ok {count : ℕ} {disk : ℕ → UInt8} {script : Script} {lba : ℕ} : ∀ todo s (buf : Fin (512 * count) → UInt8),
    (readLoop disk script lba s todo buf).1 = .ok ↔ ∀ i, 2 * s < i → i ≤ 2 * (s + todo) → script i = .ok := by
  intro todo
  induction todo with
  | zero =>
    intro s buf
    exact iff_of_true rfl fun i h₁ h₂ => by omega
  | succ todo ih =>
    intro s buf
    rw [readLoop]
    split_ifs with hbsy hdrq
    · exact iff_of_false (Wait.status_ne_ok hbsy) fun h => hbsy (h _ (by omega) (by omega))
    · exact iff_of_false (Wait.status_ne_ok hdrq) fun h => hdrq (h _ (by omega) (by omega))
    · rw [ih]
      constructor
      · intro h i h₁ h₂
        -- the two waits of this sector, and those of the sectors behind it
        rcases Nat.lt_trichotomy i (2 * s + 2) with hlt | rfl | hgt
        · obtain rfl : i = 1 + 2 * s := by omega
          exact not_not.1 hbsy
        · rw [Nat.add_comm]
          exact not_not.1 hdrq
        · exact h i (by omega) (by omega)
      · exact fun h i h₁ h₂ => h i (by omega) (by omega)

theorem ataReadSectors_ok {count : ℕ} {d : Drive} {lba : ℕ} {buf : Fin (512 * count) → UInt8} :
    (ataReadSectors d lba count buf).1 = .ok ↔ (d.plan 0).Reads count := by
  unfold ataReadSectors Script.Reads
  split_ifs with h₀
  · exact iff_of_false (fun h => by cases h) fun h => h₀ (h 0 (Nat.zero_le _))
  · refine (readLoop_ok count 0 buf).trans ?_
    constructor
    · intro h i hi
      rcases Nat.eq_zero_or_pos i with rfl | hpos
      · exact not_not.1 h₀
      · exact h i (by omega) (by omega)
    · exact fun h i _ hi => h i (by omega)

/-- **What a load accepts**: the snapshot, if there is a drive and both reads succeed. -/
def accepted? (c : Category) (w : World) : Option c.Data :=
  if w.diskPresent = true ∧ (w.drive.plan 0).ReadsOne ∧ (w.drive.plan 1).Reads c.count
    then snapshot? w.drive.bytes c else none

/-- **A load** takes what it accepts, and leaves memory alone if that is nothing. -/
theorem persistLoad_exact (c : Category) (w : World) : ∃ plan,
    (accepted? c w = none ∧ (persistLoad c w).2 = w.withPlan plan ∧
      ((persistLoad c w).1 = .ok → c.missing = .ok ∧ snapshot? w.drive.bytes c = none ∧
        (diskHeader w.drive.bytes).magic = persistMagic ∧ (diskHeader w.drive.bytes).flags &&& c.flag = 0)) ∨
    ∃ x, accepted? c w = some x ∧ persistLoad c w = (.ok, (w.withPlan plan).set c x) := by
  have herr {P : Prop} : AtaStatus.error = .ok → P := fun h => by cases h
  unfold accepted? persistLoad
  by_cases hp : w.diskPresent = true
  swap
  · rw [if_neg fun h => hp h.1, if_pos (by simpa using hp)]
    exact ⟨w.drive.plan, Or.inl ⟨rfl, rfl, fun h => by cases h⟩⟩
  rw [if_neg (show ¬ (!w.diskPresent) = true by simp [hp])]
  obtain ⟨r, hr, hok⟩ := readHeader_eq w fun _ => 0
  simp only [hr]
  by_cases hread : r = .ok
  swap
  · rw [if_neg fun h => hread (hok.2 h.2.1), if_pos hread]
    exact ⟨_, Or.inl ⟨rfl, rfl, herr⟩⟩
  -- from here on the header is that of the disk
  rw [if_neg (not_not.2 hread), if_pos (hok.1 hread), headerCodec_sectors]
  by_cases hmagic : (diskHeader w.drive.bytes).magic = persistMagic
  swap
  · have hnone : snapshot? w.drive.bytes c = none := if_neg fun hacc => hmagic hacc.1
    rw [if_pos hmagic, hnone, ite_self]
    exact ⟨_, Or.inl ⟨rfl, rfl, herr⟩⟩
  rw [if_neg (not_not.2 hmagic)]
  by_cases hflag : (diskHeader w.drive.bytes).flags &&& c.flag = 0
  · have hnone : snapshot? w.drive.bytes c = none := if_neg fun hacc => hacc.2.1 hflag
    rw [if_pos hflag, hnone, ite_self]
    exact ⟨_, Or.inl ⟨rfl, rfl, fun h => ⟨h, rfl, hmagic, hflag⟩⟩⟩
  rw [if_neg hflag]
  have hdata := @ataReadSectors_ok c.count w.drive.advance c.lba fun _ => 0
  obtain ⟨done, -, r', hr', hok'⟩ :=
    @ataReadSectors_eq c.count w.drive.advance c.lba (fun _ => 0) (count_pos c)
  rw [hr'] at hdata
  simp only [hr']
  by_cases hread' : r' = .ok
  swap
  · rw [if_neg fun h => hread' (hdata.2 h.2.2), if_pos hread']
    exact ⟨_, Or.inl ⟨rfl, rfl, herr⟩⟩
  have hbuf : sectors w.drive.advance.bytes c.lba c.count = dataSectors w.drive.bytes c := rfl
  rw [if_pos ⟨hp, hok.1 hread, hdata.1 hread'⟩, if_neg (not_not.2 hread'), hok'.1 hread', splice_all, hbuf]
  by_cases hsum : checksum (dataSectors w.drive.bytes c) = (diskHeader w.drive.bytes).csum c
  · refine ⟨w.drive.advance.advance.plan, Or.inr ⟨_, if_pos ⟨hmagic, hflag, hsum⟩, ?_⟩⟩
    exact if_neg (not_not.2 hsum)
  · rw [if_pos hsum]
    exact ⟨_, Or.inl ⟨if_neg fun hacc => hsum hacc.2.2, rfl, herr⟩⟩

theorem snapshot?_of_accepted {x : c.Data} (h : accepted? c w = some x) : snapshot? w.drive.bytes c = some x := by
  unfold accepted? at h
  split_ifs at h
  exact h

/-- **A load** leaves memory alone, or restores the snapshot and succeeds. -/
theorem persistLoad_cases (c : Category) (w : World) : ∃ plan,
    ((persistLoad c w).2 = w.withPlan plan ∧
      ((persistLoad c w).1 = .ok → c.missing = .ok ∧ snapshot? w.drive.bytes c = none ∧
        (diskHeader w.drive.bytes).magic = persistMagic ∧ (diskHeader w.drive.bytes).flags &&& c.flag = 0)) ∨
    ∃ x, snapshot? w.drive.bytes c = some x ∧ persistLoad c w = (.ok, (w.withPlan plan).set c x) := by
  obtain ⟨plan, ⟨-, h⟩ | ⟨x, hx, h⟩⟩ := persistLoad_exact c w
  · exact ⟨plan, Or.inl h⟩
  · exact ⟨plan, Or.inr ⟨x, snapshot?_of_accepted hx, h⟩⟩

/-- **On a good drive** a load restores the snapshot, if there is one. -/
theorem persistLoad_good (hp : w.diskPresent = true) (hd : w.drive = Drive.good disk) :
    persistLoad c w = match snapshot? disk c with
      | some x => (.ok, w.set c x)
      | none => (if (diskHeader disk).magic = persistMagic ∧ (diskHeader disk).flags &&& c.flag = 0
          then c.missing else .error, w) := by
  obtain ⟨aliases, fs, present, flags, saveHdr, setHdr, drive⟩ := w
  obtain rfl : present = true := hp
  obtain rfl : drive = Drive.good disk := hd
  have hread := @readSectors_good c.count disk c.lba (fun _ => 0) (count_pos c)
  have hhdr := @readSectors_good 1 disk lbaHeader (fun _ => 0) (by omega)
  unfold persistLoad readHeader
  simp only [Bool.not_true, Bool.false_eq_true, if_false, hhdr, hread, ne_eq, not_true_eq_false]
  have hbuf : sectors disk c.lba c.count = dataSectors disk c := rfl
  rw [headerCodec_sectors, hbuf]
  by_cases hmagic : (diskHeader disk).magic = persistMagic
  · by_cases hflag : (diskHeader disk).flags &&& c.flag = 0
    · have hnone : snapshot? disk c = none := if_neg fun h => h.2.1 hflag
      rw [hnone, if_neg (not_not.2 hmagic), if_pos hflag]
      simp only [hmagic, hflag, and_self, if_true]
    · rw [if_neg (not_not.2 hmagic), if_neg hflag]
      by_cases hsum : checksum (dataSectors disk c) = (diskHeader disk).csum c
      · have hsome : snapshot? disk c = some _ := if_pos ⟨hmagic, hflag, hsum⟩
        rw [hsome, if_neg (not_not.2 hsum)]
      · have hnone : snapshot? disk c = none := if_neg fun h => hsum h.2.2
        rw [hnone, if_pos hsum]
        simp only [hflag, and_false, if_false]
  · have hnone : snapshot? disk c = none := if_neg fun h => hmagic h.1
    rw [hnone, if_pos hmagic]
    simp only [hmagic, false_and, if_false]

theorem persistLoad_drive (hp : w.diskPresent = true) (hd : w.drive = Drive.good disk) :
    (persistLoad c w).2.diskPresent = true ∧ (persistLoad c w).2.drive = Drive.good disk := by
  rw [persistLoad_good hp hd]
  split
  · rw [World.set_diskPresent, World.set_drive]; exact ⟨hp, hd⟩
  · exact ⟨hp, hd⟩

/-! ## Saving -/

/-- A save of the category writes: there is a disk and the category is in the save list. -/
def World.Saves (w : World) (c : Category) : Prop := w.diskPresent = true ∧ w.savelistFlags &&& c.bit ≠ 0

instance (w : World) (c : Category) : Decidable (w.Saves c) := inferInstanceAs (Decidable (_ ∧ _))

/-- A header as `write_header` makes it. -/
def Header.fresh (savelist flags : UInt32) (csum : Category → UInt32) : Header :=
  ⟨persistMagic, persistVersion, flags, csum .aliases, csum .fs, savelist, fun _ => 0⟩

@[simp] theorem Header.csum_fresh (savelist flags : UInt32) (csum : Category → UInt32) (c : Category) :
    (Header.fresh savelist flags csum).csum c = csum c := by cases c <;> rfl

/-- The header of a save of `c` that merges from `src`. -/
def Header.saved (src : Header) (savelist : UInt32) (c : Category) (csum : UInt32) : Header :=
  .fresh savelist (src.keptFlags ||| c.flag) (Function.update src.keptCsum c csum)

/-- The disk after a save that merged from `src`. -/
def savedDisk (disk : ℕ → UInt8) (src : Header) (savelist : UInt32) (c : Category) (x : c.Data) : ℕ → UInt8 :=
  put (put disk c.lba (c.image x)) lbaHeader (headerCodec (src.saved savelist c (checksum (c.image x))))

/-- The disk after `k` sectors of a save. -/
def tornDisk (disk : ℕ → UInt8) (c : Category) (x : c.Data) (k : ℕ) : ℕ → UInt8 :=
  put disk c.lba (splice (512 * k) (dataSectors disk c) (c.image x))

/-- What a save merges: the header on the disk if its read succeeds, else whatever is in
the buffer. The read is the second command of the save. -/
def World.mergeSource (w : World) (c : Category) : Header :=
  if (w.drive.plan 1).ReadsOne then diskHeader w.drive.bytes else headerCodec.symm (w.saveHdr c)

theorem persistSave_skip (h : ¬ w.Saves c) :
    persistSave c w = (if w.diskPresent then .ok else .noDrive, w) := by
  unfold persistSave
  by_cases hp : w.diskPresent = true
  · have hb : w.savelistFlags &&& c.bit = 0 := not_not.1 fun hb => h ⟨hp, hb⟩
    simp [hp, hb]
  · simp [hp]

/-- **A save** changes the disk, the script and its header buffer. It either succeeds, and
the disk holds the image and a header merged from `mergeSource`, or it fails, and some
first sectors of the image are on the disk. -/
theorem persistSave_cases (h : w.Saves c) : ∃ plan buf bytes,
    (persistSave c w).2 =
      { w with drive := ⟨bytes, plan⟩, saveHdr := Function.update w.saveHdr c buf } ∧
    (((persistSave c w).1 = .ok ∧
        bytes = savedDisk w.drive.bytes (w.mergeSource c) w.savelistFlags c (w.get c)) ∨
      ((persistSave c w).1 ≠ .ok ∧ ∃ k ≤ c.count, bytes = tornDisk w.drive.bytes c (w.get c) k)) := by
  obtain ⟨hp, hb⟩ := h
  obtain ⟨done, hdone, r, hr, hok⟩ := ataWriteSectors_eq w.drive c.lba (c.image (w.get c)) (count_pos c)
  rw [persistSave, if_neg (by simp [hp]), if_neg hb]
  simp only [hr]
  by_cases hwrite : r = .ok
  swap
  · -- the save stops in the data, and the header is as it was
    rw [if_pos hwrite]
    refine ⟨w.drive.advance.plan, w.saveHdr c, tornDisk w.drive.bytes c (w.get c) done, ?_,
      Or.inr ⟨hwrite, done, hdone, rfl⟩⟩
    rw [Function.update_eq_self]; rfl
  have hall : 512 * c.count = 512 * done := by rw [hok.1 hwrite]
  rw [if_neg (not_not.2 hwrite)]
  generalize hw₁ : ({ w with drive := { w.drive.advance with
    bytes := put w.drive.bytes c.lba
      (splice (512 * done) (sectors w.drive.bytes c.lba c.count) (c.image (w.get c))) } } : World) = w₁
  have hbytes : w₁.drive.bytes = put w.drive.bytes c.lba (c.image (w.get c)) := by
    rw [← hw₁]
    show put _ _ (splice (512 * done) _ _) = _
    rw [← hall, splice_all]
  -- the header read: the header is in no data sector, so it is the one from before the save
  have hplan : w₁.drive.plan 0 = w.drive.plan 1 := by rw [← hw₁]; rfl
  obtain ⟨r₂, hr₂, -⟩ := readHeader_eq w₁ (w.saveHdr c)
  have hsrc : headerCodec.symm (if (w₁.drive.plan 0).ReadsOne then sectors w₁.drive.bytes lbaHeader 1
      else w.saveHdr c) = w.mergeSource c := by
    unfold World.mergeSource
    rw [hplan]
    split
    · rw [headerCodec_sectors, hbytes, diskHeader_put_data]
    · rfl
  simp only [hr₂]
  rw [hsrc]
  generalize hw₂ : ({ w₁ with
    drive := w₁.drive.advance
    saveHdr := Function.update w₁.saveHdr c
      (if (w₁.drive.plan 0).ReadsOne then sectors w₁.drive.bytes lbaHeader 1 else w.saveHdr c) } : World) = w₂
  obtain ⟨r₃, hr₃, hok₃⟩ := writeHeader_eq w₂ ((w.mergeSource c).keptFlags ||| c.flag)
    (Function.update (w.mergeSource c).keptCsum c (checksum (c.image (w.get c))))
  have hbytes₂ : w₂.drive.bytes = put w.drive.bytes c.lba (c.image (w.get c)) := by rw [← hw₂]; exact hbytes
  have hflags : w₂.savelistFlags = w.savelistFlags := by rw [← hw₂, ← hw₁]
  rw [hr₃, hbytes₂, hflags]
  have hmem (bytes : ℕ → UInt8) :
      ({ w₂ with savelistFlags := w.savelistFlags, drive := ⟨bytes, w₂.drive.advance.plan⟩ } : World) =
      { w with
        drive := ⟨bytes, w₂.drive.advance.plan⟩
        saveHdr := Function.update w.saveHdr c (w₂.saveHdr c) } := by
    rw [← hw₂, ← hw₁]
    simp only [Function.update_self]
  -- the header write succeeds, or all of the data is there under the old header
  refine ⟨w₂.drive.advance.plan, w₂.saveHdr c, ?_⟩
  by_cases hdone₃ : (w₂.drive.plan 0).WritesOne
  · refine ⟨_, hmem _, Or.inl ⟨hok₃.2 hdone₃, if_pos hdone₃⟩⟩
  · refine ⟨_, hmem _, Or.inr ⟨fun h => hdone₃ (hok₃.1 h), c.count, le_refl _, ?_⟩⟩
    rw [if_neg hdone₃, tornDisk, splice_all]

/-- A save leaves memory alone. -/
theorem persistSave_get (c c' : Category) (w : World) : (persistSave c w).2.get c' = w.get c' := by
  by_cases h : w.Saves c
  · obtain ⟨plan, buf, bytes, heq, -⟩ := persistSave_cases h
    rw [heq]
    cases c' <;> rfl
  · rw [persistSave_skip h]

/-- **On a good drive** a save succeeds, and merges from the disk. -/
theorem persistSave_good (h : w.Saves c) (hd : w.drive = Drive.good disk) : persistSave c w =
    (.ok, { w with
      drive := Drive.good (savedDisk disk (diskHeader disk) w.savelistFlags c (w.get c))
      saveHdr := Function.update w.saveHdr c (sectors disk lbaHeader 1) }) := by
  obtain ⟨hp, hb⟩ := h
  have hsec : sectors (put disk c.lba (c.image (w.get c))) lbaHeader 1 = sectors disk lbaHeader 1 :=
    headerCodec.symm.injective (diskHeader_put_data disk c _)
  rw [persistSave, if_neg (by simp [hp]), if_neg hb]
  unfold readHeader writeHeader
  simp only [hd, writeSectors_good _ _ _ (count_pos c), ne_eq, not_true_eq_false, if_false,
    @readSectors_good 1 _ _ _ Nat.one_pos, @writeSectors_good 1 _ _ _ Nat.one_pos, hsec]
  rfl

/-! ## The save list -/

/-- What `persist_savelist_set` merges. The header read is its first command. -/
def World.setSource (w : World) : Header :=
  if (w.drive.plan 0).ReadsOne then diskHeader w.drive.bytes else headerCodec.symm w.savelistSetHdr

/-- The disk with a header that only the save list changed. -/
def relistedDisk (disk : ℕ → UInt8) (src : Header) (flags : UInt32) : ℕ → UInt8 :=
  put disk lbaHeader (headerCodec (.fresh flags src.keptFlags src.keptCsum))

theorem persistSavelistSet_absent (hp : w.diskPresent = false) (flags : UInt32) :
    persistSavelistSet w flags = { w with savelistFlags := flags } := by
  simp [persistSavelistSet, hp]

theorem persistSavelistSet_eq (hp : w.diskPresent = true) (flags : UInt32) : ∃ buf,
    persistSavelistSet w flags = { w with
      savelistFlags := flags
      savelistSetHdr := buf
      drive := { w.drive.advance.advance with
        bytes := if (w.drive.plan 1).WritesOne then relistedDisk w.drive.bytes w.setSource flags
          else w.drive.bytes } } := by
  obtain ⟨r, hr, -⟩ := readHeader_eq { w with savelistFlags := flags } w.savelistSetHdr
  rw [persistSavelistSet, if_neg (by simp [hp])]
  simp only [hr]
  have hsrc : headerCodec.symm (if (w.drive.plan 0).ReadsOne then sectors w.drive.bytes lbaHeader 1
      else w.savelistSetHdr) = w.setSource := by
    unfold World.setSource
    split <;> rfl
  rw [hsrc]
  generalize (if (w.drive.plan 0).ReadsOne then sectors w.drive.bytes lbaHeader 1 else w.savelistSetHdr) = buf
  refine ⟨buf, ?_⟩
  obtain ⟨r₂, hr₂, -⟩ := writeHeader_eq { w with
    savelistFlags := flags, savelistSetHdr := buf, drive := w.drive.advance }
    w.setSource.keptFlags w.setSource.keptCsum
  rw [hr₂]
  rfl

/-- A change of the save list leaves memory alone. -/
theorem persistSavelistSet_get (c : Category) (w : World) (flags : UInt32) :
    (persistSavelistSet w flags).get c = w.get c := by
  by_cases hp : w.diskPresent = true
  · obtain ⟨buf, heq⟩ := persistSavelistSet_eq hp flags
    rw [heq]
    cases c <;> rfl
  · rw [persistSavelistSet_absent (by simpa using hp)]
    cases c <;> rfl

theorem persistSavelistSet_good (hp : w.diskPresent = true) (hd : w.drive = Drive.good disk) (flags : UInt32) :
    ∃ buf, persistSavelistSet w flags = { w with
      savelistFlags := flags
      savelistSetHdr := buf
      drive := Drive.good (relistedDisk disk (diskHeader disk) flags) } := by
  obtain ⟨buf, h⟩ := persistSavelistSet_eq hp flags
  refine ⟨buf, ?_⟩
  have hsrc : w.setSource = diskHeader disk := by
    rw [World.setSource, hd, if_pos ⟨rfl, rfl, rfl⟩]; rfl
  have hw : (w.drive.plan 1).WritesOne := by rw [hd]; exact ⟨rfl, rfl⟩
  rw [h, hsrc, if_pos hw, hd]
  rfl

/-! ## The snapshots afterwards -/

theorem and_or_distrib (a b m : UInt32) : (a ||| b) &&& m = a &&& m ||| b &&& m :=
  UInt32.toBitVec_inj.1 BitVec.and_or_distrib_right

theorem flag_disjoint (hne : c' ≠ c) (flags : UInt32) :
    (flags ||| c.flag) &&& c'.flag = flags &&& c'.flag := by
  have h : c.flag &&& c'.flag = 0 := by
    cases c <;> cases c' <;> first | exact absurd rfl hne | rfl
  rw [and_or_distrib, h, UInt32.or_zero]

theorem flag_set (c : Category) (flags : UInt32) : (flags ||| c.flag) &&& c.flag ≠ 0 := by
  have h : c.flag ≠ 0 := by cases c <;> decide
  rw [and_or_distrib, UInt32.and_self]
  exact fun h0 => h (UInt32.or_eq_zero_iff.1 h0).2

theorem snapshot?_eq_some {x : c.Data} : snapshot? disk c = some x ↔
    (diskHeader disk).Accepts c (dataSectors disk c) ∧ c.ofImage (dataSectors disk c) = x := by
  unfold snapshot?
  split
  · simp [*]
  · simp [*]

/-- Two disks with the same sectors: the snapshot stays exactly when the new header
accepts them. -/
theorem snapshot?_iff_of_data {disk' : ℕ → UInt8} {x : c.Data} (h : snapshot? disk c = some x)
    (hdata : dataSectors disk' c = dataSectors disk c) :
    snapshot? disk' c = some x ↔ (diskHeader disk').Accepts c (dataSectors disk c) := by
  rw [snapshot?_eq_some] at h
  rw [snapshot?_eq_some, hdata]
  exact ⟨fun h' => h'.1, fun h' => ⟨h', h.2⟩⟩

/-- What a merge keeps is accepted exactly when the source was. -/
theorem accepts_fresh (src : Header) (savelist : UInt32) (buf : Fin (512 * c.count) → UInt8) :
    (Header.fresh savelist src.keptFlags src.keptCsum).Accepts c buf ↔ src.Accepts c buf := by
  unfold Header.Accepts
  rw [Header.csum_fresh]
  unfold Header.keptFlags Header.keptCsum
  by_cases hm : src.magic = persistMagic
  · simp [hm, Header.fresh]
  · simp [hm, Header.fresh]

theorem accepts_saved_other (hne : c' ≠ c) (src : Header) (savelist csum : UInt32)
    (buf : Fin (512 * c'.count) → UInt8) :
    (src.saved savelist c csum).Accepts c' buf ↔ src.Accepts c' buf := by
  rw [← accepts_fresh src savelist buf]
  unfold Header.Accepts
  rw [Header.saved, Header.csum_fresh, Header.csum_fresh, Function.update_of_ne hne]
  simp only [Header.fresh, flag_disjoint hne]

/-- **A save leaves its own snapshot.** -/
theorem snapshot?_savedDisk_self (disk : ℕ → UInt8) (src : Header) (savelist : UInt32) (c : Category)
    (x : c.Data) : snapshot? (savedDisk disk src savelist c x) c = some x := by
  rw [snapshot?_eq_some, savedDisk, diskHeader_put_header, dataSectors_put_header, dataSectors_put_self]
  refine ⟨⟨rfl, flag_set c _, ?_⟩, ofImage_image c x⟩
  rw [Header.saved, Header.csum_fresh, Function.update_self]

theorem dataSectors_savedDisk_other (hne : c' ≠ c) (disk : ℕ → UInt8) (src : Header) (savelist : UInt32)
    (x : c.Data) : dataSectors (savedDisk disk src savelist c x) c' = dataSectors disk c' := by
  rw [savedDisk, dataSectors_put_header, dataSectors_put_other hne]

/-- **A save keeps another snapshot** exactly when what it merged accepts it. -/
theorem snapshot?_savedDisk_other (hne : c' ≠ c) {x' : c'.Data} (h : snapshot? disk c' = some x') (src : Header)
    (savelist : UInt32) (x : c.Data) :
    snapshot? (savedDisk disk src savelist c x) c' = some x' ↔ src.Accepts c' (dataSectors disk c') := by
  rw [snapshot?_iff_of_data h (dataSectors_savedDisk_other hne disk src savelist x), savedDisk,
    diskHeader_put_header, accepts_saved_other hne]

/-- So does a change of the save list. -/
theorem snapshot?_relistedDisk {x : c.Data} (h : snapshot? disk c = some x) (src : Header) (flags : UInt32) :
    snapshot? (relistedDisk disk src flags) c = some x ↔ src.Accepts c (dataSectors disk c) := by
  rw [relistedDisk, snapshot?_iff_of_data h (dataSectors_put_header disk c _), diskHeader_put_header,
    accepts_fresh]

end DahleOS
