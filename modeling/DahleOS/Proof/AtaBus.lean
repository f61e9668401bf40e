import DahleOS.Model.AtaBus
import DahleOS.Proof.Drive

/-!
# The ATA driver on a disk

* `wait_ready`: a status wait on a disk that is busy for less time than the driver waits.
* `readWords_sector`, `writeWords_sector`: the words of one sector.
* `ataReadLoop_disk`, `ataWriteLoop_disk`: the sector loops, against those of `Model.Ata`.
* `ataReadSectors_disk`, `ataWriteSectors_disk`, `ataDetect_disk`: the driver.
* `ataWriteSectors_ports`: on a stream of status bytes, it is that of `Model.AtaPorts`.
-/

namespace DahleOS

open AtaDevice CArray Descriptor Ports

variable {d : Device} {count : ℕ}

theorem polls_pos : 0 < polls := by unfold polls; omega

/-! ## Status -/

theorem status_disk (d : Device) : diskBus.status d = some d.readStatus := rfl

theorem readStatus_ready (h : d.wait = 0) : d.readStatus = (d.phase.status, d) := if_pos h

theorem readStatus_busy (h : d.wait ≠ 0) : d.readStatus = (0x80, { d with wait := d.wait - 1 }) := if_neg h

/-- A wait that a busy status does not end, on a disk that gets ready in time. -/
theorem wait_ready {test : UInt8 → Option Wait} {r : Wait} (hbusy : test 0x80 = none) (hr : test d.phase.status = some r)
    {t : ℕ} (ht : d.wait < t) : diskBus.wait test t d = some (r, { d with wait := 0 }) := by
  induction t generalizing d with
  | zero => omega
  | succ t ih =>
    by_cases hw : d.wait = 0
    · simp only [Bus.wait, status_disk, readStatus_ready hw, Option.bind_eq_bind, Option.bind_some, hr, ← hw]
    · simp only [Bus.wait, status_disk, readStatus_busy hw, Option.bind_eq_bind, Option.bind_some, hbusy]
      exact ih hr (show d.wait - 1 < t by omega)

theorem readStatus_snd (d : Device) : d.readStatus.2 = { d with wait := d.wait - 1 } := by
  by_cases hw : d.wait = 0
  · rw [readStatus_ready hw]
    show d = { d with wait := d.wait - 1 }
    rw [show d.wait - 1 = d.wait by omega]
  · rw [readStatus_busy hw]

theorem ata400nsDelay_disk (d : Device) : diskBus.ata400nsDelay d = some { d with wait := d.wait - 4 } := by
  have hread (d : Device) : diskBus.portByteIn Bus.ataPrimaryCtrl d = some (d.readStatus.1, { d with wait := d.wait - 1 }) := by
    rw [← readStatus_snd]
    rfl
  simp only [Bus.ata400nsDelay, hread, Option.bind_eq_bind, Option.bind_some, Option.pure_def, Nat.sub_sub]

theorem ataWaitBsy_disk {r : Wait} (hr : bsyTest d.phase.status = some r) (hw : d.wait < polls) :
    diskBus.ataWaitBsy d = some (r, { d with wait := 0 }) := wait_ready (by decide) hr hw

theorem ataWaitDrq_disk {r : Wait} (hr : drqTest d.phase.status = some r) (hw : d.wait < polls) :
    diskBus.ataWaitDrq d = some (r, { d with wait := 0 }) := wait_ready (by decide) hr hw

/-! ## Commands -/

/-- The registers after `ata_select_lba28`. -/
def selected (lba : UInt32) (count : UInt8) (d : Device) : Device :=
  { d with
    count, lbaLo := lba.toUInt8, lbaMid := (lba >>> 8).toUInt8, lbaHi := (lba >>> 16).toUInt8
    drive := ((0xE0 : UInt32) ||| (lba >>> 24 &&& 0x0F)).toUInt8 }

theorem portByteOut_quiet (hw : d.wait = 0) (hq : d.phase.quiet = true) (port : UInt16) (v : UInt8) :
    diskBus.portByteOut port v d =
      if port = 0x1F2 then some { d with count := v }
      else if port = 0x1F3 then some { d with lbaLo := v }
      else if port = 0x1F4 then some { d with lbaMid := v }
      else if port = 0x1F5 then some { d with lbaHi := v }
      else if port = 0x1F6 then some { d with drive := v }
      else if port = 0x1F7 then d.start v
      else none := if_pos ⟨hw, hq⟩

theorem ataSelectLba28_disk (hw : d.wait = 0) (hq : d.phase.quiet = true) (lba : UInt32) (count : UInt8) :
    diskBus.ataSelectLba28 lba count d = some (selected lba count d) := by
  simp [Bus.ataSelectLba28, portByteOut_quiet, hw, hq, ataPrimaryBase, selected]

theorem command_disk (hw : d.wait = 0) (hq : d.phase.quiet = true) (c : UInt8) : diskBus.command c d = d.start c := by
  unfold Bus.command
  rw [portByteOut_quiet hw hq, if_neg (by decide), if_neg (by decide), if_neg (by decide), if_neg (by decide), if_neg (by decide),
    if_pos (by decide)]

/-- The drive register, whatever the address: the first device of the channel, in LBA mode, and
the four upper bits of the address. -/
theorem selected_drive (lba : UInt32) (count : UInt8) (d : Device) : (selected lba count d).drive &&& 0x10 = 0 ∧
    (selected lba count d).drive &&& 0x40 ≠ 0 ∧ (selected lba count d).drive.toNat % 16 = lba.toNat / 2 ^ 24 % 16 := by
  have hall : ∀ k < 16, ((0xE0 : UInt32) ||| UInt32.ofNat k).toUInt8 &&& 0x10 = 0 ∧
      ((0xE0 : UInt32) ||| UInt32.ofNat k).toUInt8 &&& 0x40 ≠ 0 ∧
      ((0xE0 : UInt32) ||| UInt32.ofNat k).toUInt8.toNat % 16 = k := by decide
  have hbits : lba >>> 24 &&& 0x0F = UInt32.ofNat (lba.toNat / 2 ^ 24 % 16) := by
    have hlt := lba.toNat_lt
    apply UInt32.toNat_inj.1
    rw [UInt32.toNat_and, UInt32.toNat_shiftRight, UInt32.toNat_ofNat_of_lt' (by rw [UInt32.size]; omega)]
    exact (Nat.and_two_pow_sub_one_eq_mod _ 4).trans (congrArg (· % 2 ^ 4) (Nat.shiftRight_eq_div_pow ..))
  show ((0xE0 : UInt32) ||| (lba >>> 24 &&& 0x0F)).toUInt8 &&& 0x10 = 0 ∧ ((0xE0 : UInt32) ||| (lba >>> 24 &&& 0x0F)).toUInt8 &&& 0x40 ≠ 0 ∧
    ((0xE0 : UInt32) ||| (lba >>> 24 &&& 0x0F)).toUInt8.toNat % 16 = _
  rw [hbits]
  exact hall _ (Nat.mod_lt _ (by decide))

/-- **The address**: bits 28 and up are lost. -/
theorem selected_address (lba : UInt32) (count : UInt8) (d : Device) : (selected lba count d).address = lba.toNat % 2 ^ 28 := by
  have hlt := lba.toNat_lt
  have hmid : (lba >>> 8).toNat = lba.toNat / 2 ^ 8 := (UInt32.toNat_shiftRight ..).trans (Nat.shiftRight_eq_div_pow ..)
  have hhi : (lba >>> 16).toNat = lba.toNat / 2 ^ 16 := (UInt32.toNat_shiftRight ..).trans (Nat.shiftRight_eq_div_pow ..)
  have hdrive := (selected_drive lba count d).2.2
  unfold Device.address
  rw [hdrive]
  show lba.toUInt8.toNat + 256 * (lba >>> 8).toUInt8.toNat + 65536 * (lba >>> 16).toUInt8.toNat + _ = _
  rw [UInt32.toNat_toUInt8, UInt32.toNat_toUInt8, UInt32.toNat_toUInt8, hmid, hhi]
  omega

theorem selected_sectorCount (lba : UInt32) {count : UInt8} (hc : count ≠ 0) (d : Device) :
    (selected lba count d).sectorCount = count.toNat := if_neg hc

theorem start_read (lba : UInt32) {count : UInt8} (hc : count ≠ 0) (d : Device) : (selected lba count d).start 0x20 =
    some ((selected lba count d).busy (d.due (lba.toNat % 2 ^ 28) count.toNat)) := by
  obtain ⟨hmaster, hmode, -⟩ := selected_drive lba count d
  unfold Device.start
  rw [if_neg (not_not.2 hmaster), if_pos ⟨rfl, hmode⟩, selected_address, selected_sectorCount lba hc]
  rfl

theorem start_write (lba : UInt32) {count : UInt8} (hc : count ≠ 0) (d : Device) : (selected lba count d).start 0x30 =
    some ((selected lba count d).busy (.dataOut (lba.toNat % 2 ^ 28) count.toNat 0)) := by
  obtain ⟨hmaster, hmode, -⟩ := selected_drive lba count d
  unfold Device.start
  rw [if_neg (not_not.2 hmaster), if_neg (by simp), if_pos ⟨rfl, hmode⟩, selected_address, selected_sectorCount lba hc]

/-! ## The words of a sector -/

/-- The buffer with another word `k`. -/
def stored {n : ℕ} (buf : Fin n → UInt8) (k : ℕ) (w : UInt16) : Fin n → UInt8 := fun j =>
  if j.val = 2 * k then w.toUInt8 else if j.val = 2 * k + 1 then (w >>> 8).toUInt8 else buf j

theorem storeWord_eq {n k : ℕ} (buf : Fin n → UInt8) (h : 2 * k + 1 < n) (w : UInt16) :
    storeWord buf k w = some (stored buf k w) := by
  unfold storeWord stored
  rw [wr_nat buf (show 2 * k < n by omega), Option.bind_eq_bind, Option.bind_some, wr_nat _ h]
  congr 1
  funext j
  by_cases hlo : j.val = 2 * k
  · rw [if_pos hlo, Function.update_of_ne (fun hj => by rw [hj] at hlo; simp at hlo),
      show j = ⟨2 * k, by omega⟩ from Fin.ext hlo, Function.update_self]
  rw [if_neg hlo]
  by_cases hhi : j.val = 2 * k + 1
  · rw [if_pos hhi, show j = ⟨2 * k + 1, h⟩ from Fin.ext hhi, Function.update_self]
  · rw [if_neg hhi, Function.update_of_ne (fun hj => hhi (congrArg Fin.val hj)),
      Function.update_of_ne (fun hj => hlo (congrArg Fin.val hj))]

theorem loadWord_eq {n k : ℕ} (buf : Fin n → UInt8) (h : 2 * k + 1 < n) :
    loadWord buf k = some (word16 (buf ⟨2 * k, by omega⟩) (buf ⟨2 * k + 1, h⟩)) := by
  unfold loadWord
  rw [rd_nat buf (show 2 * k < n by omega), rd_nat buf h]
  rfl

/-- After a sector that was read. -/
def sectorRead (d : Device) (lba todo : ℕ) : Device :=
  if todo ≤ 1 then { d with phase := .idle } else d.busy (d.due (lba + 1) (todo - 1))

theorem portWordIn_disk {lba todo i : ℕ} (hw : d.wait = 0) (hphase : d.phase = .dataIn lba todo i) :
    diskBus.portWordIn ataPrimaryBase d = some (d.wordAt lba i,
      if i < 255 then { d with phase := .dataIn lba todo (i + 1) } else sectorRead d lba todo) := by
  show d.wordIn = _
  unfold Device.wordIn
  rw [if_neg (not_not.2 hw), hphase]
  rfl

/-- The rest of sector `s`, from word `i` on, from the disk. -/
def filled (disk : ℕ → UInt8) (lba s i : ℕ) (buf : Fin (512 * count) → UInt8) : Fin (512 * count) → UInt8 := fun j =>
  if 512 * s + 2 * i ≤ j.val ∧ j.val < 512 * (s + 1) then disk (512 * lba + j) else buf j

theorem filled_zero (disk : ℕ → UInt8) (lba s : ℕ) (buf : Fin (512 * count) → UInt8) :
    filled disk lba s 0 buf = readSector disk lba s buf := rfl

theorem filled_end {i : ℕ} (hi : 256 ≤ i) (disk : ℕ → UInt8) (lba s : ℕ) (buf : Fin (512 * count) → UInt8) :
    filled disk lba s i buf = buf := by
  funext j
  exact if_neg (by omega)

theorem filled_word {lba s i : ℕ} (hi : i < 256) (d : Device) (buf : Fin (512 * count) → UInt8) :
    filled d.media lba s (i + 1) (stored buf (s * 256 + i) (d.wordAt (lba + s) i)) = filled d.media lba s i buf := by
  funext j
  unfold filled stored
  by_cases hlo : j.val = 2 * (s * 256 + i)
  · rw [if_neg (by omega), if_pos hlo, if_pos (by omega), Device.wordAt, word16_low]
    congr 1
    omega
  by_cases hhi : j.val = 2 * (s * 256 + i) + 1
  · rw [if_neg (by omega), if_neg hlo, if_pos hhi, if_pos (by omega), Device.wordAt, word16_high]
    congr 1
    omega
  rw [if_neg hlo, if_neg hhi]
  by_cases hrest : 512 * s + 2 * (i + 1) ≤ j.val ∧ j.val < 512 * (s + 1)
  · rw [if_pos hrest, if_pos (by omega)]
  · rw [if_neg hrest, if_neg (by omega)]

/-- **The words of a sector**, from word `i` on, into their place in the buffer. -/
theorem readWords_sector {lba s todo : ℕ} (hs : s < count) : ∀ n i, i + (n + 1) = 256 → ∀ (buf : Fin (512 * count) → UInt8) (d : Device),
    d.wait = 0 → d.phase = .dataIn (lba + s) todo i → diskBus.readWords s i (n + 1) buf d =
      some (filled d.media lba s i buf, sectorRead d (lba + s) todo) := by
  intro n
  induction n with
  | zero =>
    intro i hi buf d hw hphase
    have hin := portWordIn_disk hw hphase
    rw [if_neg (show ¬ i < 255 by omega)] at hin
    have hend := filled_end (show 256 ≤ i + 1 by omega) d.media lba s (stored buf (s * 256 + i) (d.wordAt (lba + s) i))
    rw [filled_word (show i < 256 by omega)] at hend
    simp only [Bus.readWords, hin, storeWord_eq buf (show 2 * (s * 256 + i) + 1 < 512 * count by omega), Option.bind_eq_bind,
      Option.bind_some, ← hend]
  | succ n ih =>
    intro i hi buf d hw hphase
    have hin := portWordIn_disk hw hphase
    rw [if_pos (show i < 255 by omega)] at hin
    have hrest := ih (i + 1) (by omega) (stored buf (s * 256 + i) (d.wordAt (lba + s) i))
      { d with phase := .dataIn (lba + s) todo (i + 1) } hw rfl
    unfold Bus.readWords
    simp only [hin, storeWord_eq buf (show 2 * (s * 256 + i) + 1 < 512 * count by omega), Option.bind_eq_bind, Option.bind_some, hrest,
      filled_word (show i < 256 by omega)]
    rfl

/-- After a sector that was taken, with its words on the disk. -/
def sectorTaken (d : Device) (lba todo : ℕ) : Device :=
  if todo ≤ 1 then d.settle (if d.bad lba then .failed else .idle)
  else d.busy (if d.bad lba then .failed else .dataOut (lba + 1) (todo - 1) 0)

theorem portWordOut_disk {lba todo i : ℕ} (hw : d.wait = 0) (hphase : d.phase = .dataOut lba todo i) (v : UInt16) :
    diskBus.portWordOut ataPrimaryBase v d = some
      (if i < 255 then { d with media := Device.withWord d.media lba i v, phase := .dataOut lba todo (i + 1) }
      else sectorTaken { d with media := Device.withWord d.media lba i v } lba todo) := by
  show d.wordOut v = _
  unfold Device.wordOut
  rw [if_neg (not_not.2 hw), hphase]
  rfl

/-- The disk with the rest of sector `s`, from word `i` on, from the buffer. -/
def written (disk : ℕ → UInt8) (lba s i : ℕ) (buf : Fin (512 * count) → UInt8) : ℕ → UInt8 := fun j =>
  if h : 512 * (lba + s) + 2 * i ≤ j ∧ j < 512 * (lba + s + 1) ∧ j - 512 * lba < 512 * count then buf ⟨j - 512 * lba, h.2.2⟩
  else disk j

theorem written_zero (disk : ℕ → UInt8) (lba s : ℕ) (buf : Fin (512 * count) → UInt8) :
    written disk lba s 0 buf = writeSector disk lba s buf := rfl

theorem written_end {i : ℕ} (hi : 256 ≤ i) (disk : ℕ → UInt8) (lba s : ℕ) (buf : Fin (512 * count) → UInt8) :
    written disk lba s i buf = disk := by
  funext j
  exact dif_neg (by omega)

theorem written_word {lba s i : ℕ} (hi : i < 256) (hs : s < count) (disk : ℕ → UInt8) (buf : Fin (512 * count) → UInt8) :
    written (Device.withWord disk (lba + s) i (word16 (buf ⟨2 * (s * 256 + i), by omega⟩) (buf ⟨2 * (s * 256 + i) + 1, by omega⟩)))
      lba s (i + 1) buf = written disk lba s i buf := by
  funext j
  unfold written Device.withWord
  by_cases hhi : j = 512 * (lba + s) + 2 * i + 1
  · subst hhi
    rw [dif_neg (by omega), dif_pos (by omega), Function.update_self, word16_high]
    congr 2
    omega
  by_cases hlo : j = 512 * (lba + s) + 2 * i
  · subst hlo
    rw [dif_neg (by omega), dif_pos (by omega), Function.update_of_ne (by omega), Function.update_self, word16_low]
    congr 2
    omega
  by_cases hrest : 512 * (lba + s) + 2 * (i + 1) ≤ j ∧ j < 512 * (lba + s + 1) ∧ j - 512 * lba < 512 * count
  · rw [dif_pos hrest, dif_pos (by omega)]
  · rw [dif_neg hrest, dif_neg (by omega), Function.update_of_ne hhi, Function.update_of_ne hlo]

/-- **The words of a sector**, from word `i` on, out of their place in the buffer. -/
theorem writeWords_sector {lba s todo : ℕ} (hs : s < count) (buf : Fin (512 * count) → UInt8) : ∀ n i, i + (n + 1) = 256 →
    ∀ d : Device, d.wait = 0 → d.phase = .dataOut (lba + s) todo i → diskBus.writeWords buf s i (n + 1) d =
      some (sectorTaken { d with media := written d.media lba s i buf } (lba + s) todo) := by
  intro n
  induction n with
  | zero =>
    intro i hi d hw hphase
    have hout := portWordOut_disk hw hphase
    simp only [if_neg (show ¬ i < 255 by omega)] at hout
    simp only [Bus.writeWords, loadWord_eq buf (show 2 * (s * 256 + i) + 1 < 512 * count by omega), hout, Option.bind_eq_bind,
      Option.bind_some]
    have hend := written_end (show 256 ≤ i + 1 by omega) (Device.withWord d.media (lba + s) i
      (word16 (buf ⟨2 * (s * 256 + i), by omega⟩) (buf ⟨2 * (s * 256 + i) + 1, by omega⟩))) lba s buf
    rw [written_word (show i < 256 by omega) hs] at hend
    rw [hend]
  | succ n ih =>
    intro i hi d hw hphase
    have hout := portWordOut_disk hw hphase
    simp only [if_pos (show i < 255 by omega)] at hout
    unfold Bus.writeWords
    simp only [loadWord_eq buf (show 2 * (s * 256 + i) + 1 < 512 * count by omega), hout, Option.bind_eq_bind, Option.bind_some]
    rw [ih (i + 1) (by omega) { d with media := _, phase := .dataOut (lba + s) todo (i + 1) } hw rfl,
      ← written_word (show i < 256 by omega) hs]
    rfl

/-! ## Sectors and waits -/

/-- **What the driver makes of a disk**: its sectors, those that are bad, whether the last command
has failed, and how long the disk is busy after the writes to come. -/
structure Store where
  bytes : ℕ → UInt8
  bad : ℕ → Bool
  latched : Bool
  finish : ℕ → ℕ

/-- The waits of a read. The error bit of a failed command stands until the next command, and is
taken for a timeout. -/
def Store.readScript (st : Store) (lba : ℕ) : Script
  | 0 => if st.latched then .error else .ok
  | k + 1 => if k % 2 = 0 ∧ st.bad (lba + k / 2) then .error else .ok

/-- The waits of a write. A bad sector is noticed at the wait for the next one. -/
def Store.writeScript (st : Store) (lba : ℕ) : Script
  | 0 => if st.latched then .error else .ok
  | s + 1 => if 0 < s ∧ st.bad (lba + s - 1) then .error else .ok

/-- A disk with these sectors, which is busy for less time than the driver waits. -/
structure Backs (d : Device) (st : Store) : Prop where
  media : d.media = st.bytes
  bad : d.bad = st.bad
  finish : d.finish = st.finish
  delay : ∀ k, d.delay k < polls

/-- The disk between two commands. -/
structure Rests (d : Device) (st : Store) : Prop extends Backs d st where
  wait : d.wait = 0
  phase : d.phase = if st.latched then .failed else .idle

/-- The disk once it is not busy. -/
def ready (d : Device) : Device := { d with wait := 0 }

variable {st : Store} {lba s todo : ℕ}

theorem Backs.busy (h : Backs d st) (p : Phase) : Backs (d.busy p) st := ⟨h.media, h.bad, h.finish, fun k => h.delay (k + 1)⟩

theorem Backs.busy_wait (h : Backs d st) (p : Phase) : (d.busy p).wait < polls := h.delay 0

theorem Backs.ready (h : Backs d st) : Backs (ready d) st := ⟨h.media, h.bad, h.finish, h.delay⟩

theorem Backs.rests (h : Backs d st) (hw : d.wait = 0) {b : Bool} (hphase : d.phase = if b then .failed else .idle) :
    Rests d { st with latched := b } := ⟨⟨h.media, h.bad, h.finish, h.delay⟩, hw, hphase⟩

/-! ## Reading -/

theorem bsyTest_idle : bsyTest 0x50 = some .ok := by decide

theorem bsyTest_data : bsyTest 0x58 = some .ok := by decide

theorem drqTest_data : drqTest 0x58 = some .ok := by decide

/-- The loop stops at a bad sector. -/
theorem ataReadLoop_failed (hw : d.wait < polls) (hphase : d.phase = .failed) (buf : Fin (512 * count) → UInt8) :
    diskBus.ataReadLoop s (todo + 1) buf d = some (.error, buf, ready d) := by
  have hbsy := ataWaitBsy_disk (d := { d with wait := d.wait - 4 }) (r := .error) (by rw [hphase]; rfl)
    (lt_of_le_of_lt (Nat.sub_le ..) hw)
  unfold Bus.ataReadLoop
  rw [ata400nsDelay_disk, Option.bind_eq_bind, Option.bind_some, hbsy]
  rfl

/-- It gets a sector that is there. -/
theorem ataReadLoop_sector {t : ℕ} (hw : d.wait < polls) (hs : s < count) (hphase : d.phase = .dataIn (lba + s) t 0)
    (buf : Fin (512 * count) → UInt8) : diskBus.ataReadLoop s (todo + 1) buf d =
      diskBus.ataReadLoop (s + 1) todo (readSector d.media lba s buf) (sectorRead (ready d) (lba + s) t) := by
  have hbsy := ataWaitBsy_disk (d := { d with wait := d.wait - 4 }) (r := .ok) (by rw [hphase]; exact bsyTest_data)
    (lt_of_le_of_lt (Nat.sub_le ..) hw)
  have hdrq := ataWaitDrq_disk (d := ready d) (r := .ok) (by rw [ready, hphase]; exact drqTest_data) polls_pos
  have hwords := readWords_sector hs 255 0 rfl buf (ready d) rfl hphase
  rw [filled_zero] at hwords
  rw [Bus.ataReadLoop, ata400nsDelay_disk, Option.bind_eq_bind, Option.bind_some, hbsy, Option.bind_eq_bind, Option.bind_some]
  dsimp only
  rw [if_neg (by simp)]
  show (diskBus.ataWaitDrq (ready d)).bind _ = _
  rw [hdrq, Option.bind_some]
  dsimp only
  rw [if_neg (by simp)]
  show (diskBus.readWords s 0 (255 + 1) buf (ready d)).bind _ = _
  rw [hwords, Option.bind_some]
  rfl

theorem readLoop_bad (h : st.bad (lba + s) = true) (buf : Fin (512 * count) → UInt8) :
    readLoop st.bytes (st.readScript lba) lba s (todo + 1) buf = (.error, buf) := by
  have hfirst : st.readScript lba (1 + 2 * s) = .error := by
    rw [Nat.add_comm]
    exact if_pos ⟨by omega, by rw [show 2 * s / 2 = s by omega]; exact h⟩
  rw [readLoop, hfirst, if_pos (by simp)]
  rfl

theorem readLoop_sector (h : st.bad (lba + s) = false) (buf : Fin (512 * count) → UInt8) :
    readLoop st.bytes (st.readScript lba) lba s (todo + 1) buf =
      readLoop st.bytes (st.readScript lba) lba (s + 1) todo (readSector st.bytes lba s buf) := by
  have hfirst : st.readScript lba (1 + 2 * s) = .ok := by
    rw [Nat.add_comm]
    exact if_neg fun hbad => by
      rw [show 2 * s / 2 = s by omega, h] at hbad
      cases hbad.2
  have hsecond : st.readScript lba (2 + 2 * s) = .ok := by
    rw [show 2 + 2 * s = 2 * s + 1 + 1 by omega]
    exact if_neg (by omega)
  rw [readLoop, hfirst, hsecond, if_neg (by simp), if_neg (by simp)]

/-- **The sector loop of a read** is that of `Model.Ata`. -/
theorem ataReadLoop_disk (lba todo : ℕ) {s : ℕ} (buf : Fin (512 * count) → UInt8) {d : Device} (hs : s + (todo + 1) = count)
    (hb : Backs d st) (hw : d.wait < polls) (hphase : d.phase = d.due (lba + s) (todo + 1)) :
    ∃ r buf' d', readLoop st.bytes (st.readScript lba) lba s (todo + 1) buf = (r, buf') ∧
      diskBus.ataReadLoop s (todo + 1) buf d = some (r, buf', d') ∧ Rests d' { st with latched := r ≠ .ok } := by
  induction todo generalizing s buf d with
  | zero =>
    cases hbad : st.bad (lba + s) with
    | true =>
      rw [Device.due, hb.bad, if_pos hbad] at hphase
      exact ⟨_, _, _, readLoop_bad hbad buf, ataReadLoop_failed hw hphase buf, hb.ready.rests rfl hphase⟩
    | false =>
      rw [Device.due, hb.bad, if_neg (by simp [hbad])] at hphase
      refine ⟨.ok, _, { ready d with phase := .idle }, readLoop_sector hbad buf, ?_, ?_⟩
      · rw [ataReadLoop_sector hw (by omega) hphase buf, hb.media]
        rfl
      · exact ⟨⟨hb.media, hb.bad, hb.finish, hb.delay⟩, rfl, rfl⟩
  | succ todo ih =>
    cases hbad : st.bad (lba + s) with
    | true =>
      rw [Device.due, hb.bad, if_pos hbad] at hphase
      exact ⟨_, _, _, readLoop_bad hbad buf, ataReadLoop_failed hw hphase buf, hb.ready.rests rfl hphase⟩
    | false =>
      rw [Device.due, hb.bad, if_neg (by simp [hbad])] at hphase
      have hnext : sectorRead (ready d) (lba + s) (todo + 1 + 1) = (ready d).busy (d.due (lba + (s + 1)) (todo + 1)) := if_neg (by omega)
      obtain ⟨r, buf', d', hmodel, hbus, hrest⟩ := ih (readSector st.bytes lba s buf) (by omega)
        (hb.ready.busy (d.due (lba + (s + 1)) (todo + 1))) (hb.ready.busy_wait _) rfl
      refine ⟨r, buf', d', (readLoop_sector hbad buf).trans hmodel, ?_, hrest⟩
      rw [ataReadLoop_sector hw (by omega) hphase buf, hb.media, hnext]
      exact hbus

/-- What the first wait says. -/
def Store.first (st : Store) : Wait := if st.latched then .error else .ok

theorem Rests.first (h : Rests d st) : diskBus.ataWaitBsy d = some (st.first, d) := by
  have hbsy := ataWaitBsy_disk (d := d) (r := st.first) (by
    rw [h.phase]
    unfold Store.first
    cases st.latched <;> rfl) (h.wait ▸ polls_pos)
  rw [hbsy]
  congr 2
  rw [← h.wait]

theorem Rests.quiet (h : Rests d st) : d.phase.quiet = true := by
  rw [h.phase]
  cases st.latched <;> rfl

theorem byteCount_pos {count : UInt8} (hc : count ≠ 0) : 0 < count.toNat :=
  Nat.pos_of_ne_zero fun hz => hc (UInt8.toNat_inj.1 hz)

/-- The registers and the command, on a disk that is not in error. -/
theorem Rests.commanded (h : Rests d st) (lba : UInt32) (count : UInt8) : Backs (selected lba count d) st :=
  ⟨h.media, h.bad, h.finish, h.delay⟩

/-- **A read.** -/
theorem ataReadSectors_disk (h : Rests d st) (lba : UInt32) {count : UInt8} (hc : count ≠ 0) (buf : Fin (512 * count.toNat) → UInt8) :
    ∃ r buf' d', DahleOS.ataReadSectors ⟨st.bytes, fun _ => st.readScript (lba.toNat % 2 ^ 28)⟩ (lba.toNat % 2 ^ 28) count.toNat buf =
        (r, buf', ⟨st.bytes, fun _ => st.readScript (lba.toNat % 2 ^ 28)⟩) ∧
      diskBus.ataReadSectors lba count buf d = some (r, buf', d') ∧ Rests d' { st with latched := r ≠ .ok } := by
  unfold DahleOS.ataReadSectors Bus.ataReadSectors
  rw [h.first, Option.bind_eq_bind, Option.bind_some]
  dsimp only
  cases hl : st.latched with
  | true =>
    have hfirst : st.first ≠ .ok := by
      rw [Store.first, hl]
      decide
    have hscript : st.readScript (lba.toNat % 2 ^ 28) 0 ≠ .ok := hfirst
    have hphase : d.phase = .failed := by
      rw [h.phase, hl]
      rfl
    rw [if_pos hscript, if_pos hfirst]
    exact ⟨.timeout, buf, d, rfl, rfl, h.toBacks.rests h.wait hphase⟩
  | false =>
    have hfirst : st.first = .ok := by
      rw [Store.first, hl]
      rfl
    have hscript : st.readScript (lba.toNat % 2 ^ 28) 0 = .ok := hfirst
    obtain ⟨todo, htodo⟩ := Nat.exists_eq_succ_of_ne_zero (byteCount_pos hc).ne'
    have hb := h.commanded lba count
    obtain ⟨r, buf', d', hmodel, hbus, hrest⟩ := ataReadLoop_disk (lba.toNat % 2 ^ 28) todo buf
      (show 0 + (todo + 1) = count.toNat by omega) (hb.busy (d.due (lba.toNat % 2 ^ 28) count.toNat)) (hb.busy_wait _) (by rw [Nat.add_zero, ← Nat.succ_eq_add_one, ← htodo]; rfl)
    rw [← Nat.succ_eq_add_one, ← htodo] at hmodel hbus
    rw [if_neg (not_not.2 hscript), if_neg (not_not.2 hfirst), ataSelectLba28_disk h.wait h.quiet, Option.bind_eq_bind,
      Option.bind_some, command_disk (d := selected lba count d) h.wait h.quiet, start_read lba hc, Option.bind_some, hmodel]
    exact ⟨r, buf', d', rfl, hbus, hrest⟩

/-! ## Writing -/

/-- The loop stops after a bad sector. -/
theorem ataWriteLoop_failed (hw : d.wait < polls) (hphase : d.phase = .failed) (buf : Fin (512 * count) → UInt8) :
    diskBus.ataWriteLoop buf s (todo + 1) d = some (.error, ready d) := by
  have hdrq := ataWaitDrq_disk (d := { d with wait := d.wait - 4 }) (r := .error) (by rw [hphase]; rfl)
    (lt_of_le_of_lt (Nat.sub_le ..) hw)
  unfold Bus.ataWriteLoop
  rw [ata400nsDelay_disk, Option.bind_eq_bind, Option.bind_some, hdrq]
  rfl

/-- It gives a sector to a disk that asks for it. -/
theorem ataWriteLoop_sector {t : ℕ} (hw : d.wait < polls) (hs : s < count) (hphase : d.phase = .dataOut (lba + s) t 0)
    (buf : Fin (512 * count) → UInt8) : diskBus.ataWriteLoop buf s (todo + 1) d =
      diskBus.ataWriteLoop buf (s + 1) todo (sectorTaken { ready d with media := writeSector d.media lba s buf } (lba + s) t) := by
  have hdrq := ataWaitDrq_disk (d := { d with wait := d.wait - 4 }) (r := .ok) (by rw [hphase]; exact drqTest_data)
    (lt_of_le_of_lt (Nat.sub_le ..) hw)
  have hwords := writeWords_sector hs buf 255 0 rfl (ready d) rfl hphase
  rw [written_zero] at hwords
  rw [Bus.ataWriteLoop, ata400nsDelay_disk, Option.bind_eq_bind, Option.bind_some, hdrq, Option.bind_eq_bind, Option.bind_some]
  dsimp only
  rw [if_neg (by simp)]
  show (diskBus.writeWords buf s 0 (255 + 1) (ready d)).bind _ = _
  rw [hwords, Option.bind_some]
  rfl

theorem writeLoop_bad (h : 0 < s ∧ st.bad (lba + s - 1) = true) (buf : Fin (512 * count) → UInt8) :
    writeLoop (st.writeScript lba) lba buf s (todo + 1) st.bytes = (.error, st.bytes) := by
  have hscript : st.writeScript lba (1 + s) = .error := by
    rw [Nat.add_comm]
    exact if_pos h
  rw [writeLoop, hscript, if_pos (by simp)]
  rfl

theorem writeLoop_sector (h : ¬ (0 < s ∧ st.bad (lba + s - 1) = true)) (buf : Fin (512 * count) → UInt8) :
    writeLoop (st.writeScript lba) lba buf s (todo + 1) st.bytes =
      writeLoop (st.writeScript lba) lba buf (s + 1) todo (writeSector st.bytes lba s buf) := by
  have hscript : st.writeScript lba (1 + s) = .ok := by
    rw [Nat.add_comm]
    exact if_neg h
  rw [writeLoop, hscript, if_neg (by simp)]

/-- **The sector loop of a write** is that of `Model.Ata`. It ends while the disk is busy with the
last sector. -/
theorem ataWriteLoop_disk (lba todo : ℕ) {s : ℕ} (buf : Fin (512 * count) → UInt8) (hs : s + (todo + 1) = count) (hb : Backs d st) (hw : d.wait < polls)
    (hphase : d.phase = if 0 < s ∧ st.bad (lba + s - 1) = true then .failed else .dataOut (lba + s) (todo + 1) 0) :
    ∃ r disk d', writeLoop (st.writeScript lba) lba buf s (todo + 1) st.bytes = (r, disk) ∧
      diskBus.ataWriteLoop buf s (todo + 1) d = some (r, d') ∧
      if r = .ok then
        Backs d' { st with bytes := disk, finish := fun k => st.finish (k + 1) } ∧ d'.wait = st.finish 0 ∧ d'.phase.quiet ∧ d'.drive = d.drive
      else Rests d' { st with bytes := disk, latched := true } := by
  induction todo generalizing s d st with
  | zero =>
    by_cases hbad : 0 < s ∧ st.bad (lba + s - 1) = true
    · rw [if_pos hbad] at hphase
      exact ⟨_, _, _, writeLoop_bad hbad buf, ataWriteLoop_failed hw hphase buf, hb.ready.rests rfl hphase⟩
    · rw [if_neg hbad] at hphase
      have hquiet : (if st.bad (lba + s) then Phase.failed else .idle).quiet = true := by split <;> rfl
      refine ⟨.ok, writeSector st.bytes lba s buf, ({ ready d with media := writeSector st.bytes lba s buf } : Device).settle
        (if st.bad (lba + s) then .failed else .idle), writeLoop_sector hbad buf, ?_, ?_⟩
      · rw [ataWriteLoop_sector hw (by omega) hphase buf, hb.media, ← hb.bad]
        rfl
      · rw [if_pos rfl]
        exact ⟨⟨rfl, hb.bad, by rw [← hb.finish]; rfl, hb.delay⟩, by rw [← hb.finish]; rfl, hquiet, rfl⟩
  | succ todo ih =>
    by_cases hbad : 0 < s ∧ st.bad (lba + s - 1) = true
    · rw [if_pos hbad] at hphase
      exact ⟨_, _, _, writeLoop_bad hbad buf, ataWriteLoop_failed hw hphase buf, hb.ready.rests rfl hphase⟩
    · rw [if_neg hbad] at hphase
      have hnext : sectorTaken { ready d with media := writeSector st.bytes lba s buf } (lba + s) (todo + 1 + 1) =
          ({ ready d with media := writeSector st.bytes lba s buf } : Device).busy
            (if d.bad (lba + s) then .failed else .dataOut (lba + (s + 1)) (todo + 1) 0) := if_neg (by omega)
      have hb' : Backs { ready d with media := writeSector st.bytes lba s buf } { st with bytes := writeSector st.bytes lba s buf } :=
        ⟨rfl, hb.bad, hb.finish, hb.delay⟩
      have hnoticed : (if d.bad (lba + s) then Phase.failed else .dataOut (lba + (s + 1)) (todo + 1) 0) =
          if 0 < s + 1 ∧ st.bad (lba + (s + 1) - 1) = true then .failed else .dataOut (lba + (s + 1)) (todo + 1) 0 := by
        rw [hb.bad]
        exact if_congr ⟨fun h => ⟨s.succ_pos, h⟩, fun h => h.2⟩ rfl rfl
      obtain ⟨r, disk, d', hmodel, hbus, hrest⟩ := ih (s := s + 1) (by omega) (hb'.busy _) (hb'.busy_wait _) hnoticed
      refine ⟨r, disk, d', (writeLoop_sector hbad buf).trans hmodel, ?_, hrest⟩
      rw [ataWriteLoop_sector hw (by omega) hphase buf, hb.media, hnext]
      exact hbus

/-- **A write.** The command that flushes the disk is given at once after the last sector. -/
theorem ataWriteSectors_disk (h : Rests d st) (lba : UInt32) {count : UInt8} (hc : count ≠ 0) (buf : Fin (512 * count.toNat) → UInt8) :
    ∃ r disk, DahleOS.ataWriteSectors ⟨st.bytes, fun _ => st.writeScript (lba.toNat % 2 ^ 28)⟩ (lba.toNat % 2 ^ 28) count.toNat buf =
        (r, ⟨disk, fun _ => st.writeScript (lba.toNat % 2 ^ 28)⟩) ∧
      if r = .ok then
        if st.finish 0 = 0 then ∃ d', diskBus.ataWriteSectors lba count buf d = some (.ok, d') ∧
          Rests d' { st with bytes := disk, latched := false, finish := fun k => st.finish (k + 1) }
        else diskBus.ataWriteSectors lba count buf d = none
      else ∃ d', diskBus.ataWriteSectors lba count buf d = some (r, d') ∧ Rests d' { st with bytes := disk, latched := true } := by
  unfold DahleOS.ataWriteSectors Bus.ataWriteSectors
  rw [h.first, Option.bind_eq_bind, Option.bind_some]
  dsimp only
  cases hl : st.latched with
  | true =>
    have hfirst : st.first ≠ .ok := by
      rw [Store.first, hl]
      decide
    have hscript : st.writeScript (lba.toNat % 2 ^ 28) 0 ≠ .ok := hfirst
    have hphase : d.phase = .failed := by
      rw [h.phase, hl]
      rfl
    rw [if_pos hscript, if_pos hfirst]
    refine ⟨.timeout, st.bytes, rfl, ?_⟩
    rw [if_neg (by decide)]
    exact ⟨d, rfl, h.toBacks.rests h.wait hphase⟩
  | false =>
    have hfirst : st.first = .ok := by
      rw [Store.first, hl]
      rfl
    have hscript : st.writeScript (lba.toNat % 2 ^ 28) 0 = .ok := hfirst
    obtain ⟨todo, htodo⟩ := Nat.exists_eq_succ_of_ne_zero (byteCount_pos hc).ne'
    have hb := h.commanded lba count
    obtain ⟨r, disk, d', hmodel, hbus, hrest⟩ := ataWriteLoop_disk (lba.toNat % 2 ^ 28) todo buf
      (show 0 + (todo + 1) = count.toNat by omega) (hb.busy (.dataOut (lba.toNat % 2 ^ 28) count.toNat 0)) (hb.busy_wait _)
      (by rw [if_neg (by omega), Nat.add_zero, ← Nat.succ_eq_add_one, ← htodo]; rfl)
    rw [← Nat.succ_eq_add_one, ← htodo] at hmodel hbus
    rw [if_neg (not_not.2 hscript), if_neg (not_not.2 hfirst), ataSelectLba28_disk h.wait h.quiet, Option.bind_eq_bind,
      Option.bind_some, command_disk (d := selected lba count d) h.wait h.quiet, start_write lba hc, Option.bind_some, hmodel, hbus,
      Option.bind_eq_bind, Option.bind_some]
    refine ⟨r, disk, rfl, ?_⟩
    dsimp only
    by_cases hr : r = .ok
    · subst hr
      rw [if_pos rfl] at hrest ⊢
      obtain ⟨hb', hwait, hquiet, hdrive⟩ := hrest
      rw [if_neg (not_not.2 rfl)]
      by_cases hfinish : st.finish 0 = 0
      · rw [if_pos hfinish]
        have hstart : diskBus.command 0xE7 d' = some (d'.busy .idle) := by
          have hmaster : d'.drive &&& 0x10 = 0 := by
            rw [hdrive]
            exact (selected_drive lba count d).1
          rw [command_disk (hwait.trans hfinish) hquiet, Device.start, if_neg (not_not.2 hmaster), if_neg (by simp), if_neg (by simp),
            if_pos rfl]
        have hbsy := ataWaitBsy_disk (d := d'.busy .idle) bsyTest_idle (hb'.busy_wait .idle)
        rw [hstart, Option.bind_some, hbsy]
        exact ⟨_, rfl, (hb'.busy .idle).ready.rests rfl rfl⟩
      · rw [if_neg hfinish]
        have hstart : diskBus.command 0xE7 d' = none := if_neg fun hready => hfinish (hwait.symm.trans hready.1)
        rw [hstart]
        rfl
    · rw [if_neg hr] at hrest ⊢
      rw [if_pos hr]
      exact ⟨d', rfl, hrest⟩

/-! ## Looking for the disk -/

theorem drainWords_disk : ∀ n i, i + (n + 1) = 256 → ∀ d : Device, d.wait = 0 → d.phase = .identify i →
    diskBus.drainWords (n + 1) d = some { d with phase := .idle } := by
  have hin (d : Device) (i : ℕ) (hw : d.wait = 0) (hphase : d.phase = .identify i) : diskBus.portWordIn ataPrimaryBase d =
      some (d.info i, if i < 255 then { d with phase := .identify (i + 1) } else { d with phase := .idle }) := by
    show d.wordIn = _
    unfold Device.wordIn
    rw [if_neg (not_not.2 hw), hphase]
  intro n
  induction n with
  | zero =>
    intro i hi d hw hphase
    rw [Bus.drainWords, hin d i hw hphase, if_neg (by omega)]
    rfl
  | succ n ih =>
    intro i hi d hw hphase
    rw [Bus.drainWords, hin d i hw hphase, if_pos (by omega)]
    exact ih (i + 1) (by omega) _ hw rfl

/-- A status that is not empty. -/
theorem status_identify (hphase : d.phase = .identify 0) :
    ∃ v, diskBus.status d = some (v, { d with wait := d.wait - 1 }) ∧ v ≠ 0x00 := by
  refine ⟨d.readStatus.1, by rw [← readStatus_snd]; rfl, ?_⟩
  by_cases hw : d.wait = 0
  · rw [readStatus_ready hw, hphase]
    show (0x58 : UInt8) ≠ 0
    decide
  · rw [readStatus_busy hw]
    show (0x80 : UInt8) ≠ 0
    decide

/-- **A disk is found**, and an error forgotten. -/
theorem ataDetect_disk (h : Rests d st) : ∃ d', diskBus.ataDetect d = some (true, d') ∧ Rests d' { st with latched := false } := by
  -- the drive register, and the command
  obtain ⟨d₁, hd₁⟩ : ∃ d₁ : Device, { d with drive := 0xA0 } = d₁ := ⟨_, rfl⟩
  have hb : Backs d₁ st := hd₁ ▸ ⟨h.media, h.bad, h.finish, h.delay⟩
  have hw : d₁.wait = 0 := hd₁ ▸ h.wait
  have hq : d₁.phase.quiet = true := hd₁ ▸ h.quiet
  have hdrive : diskBus.portByteOut (ataPrimaryBase + 6) 0xA0 d = some d₁ := by
    rw [portByteOut_quiet h.wait h.quiet, ← hd₁]
    rfl
  have hdelay : diskBus.ata400nsDelay d₁ = some d₁ := by
    rw [ata400nsDelay_disk, hw, Nat.zero_sub, ← hw]
  have hstatus : diskBus.status d₁ = some (d₁.phase.status, d₁) := by rw [status_disk, readStatus_ready hw]
  have hthere : d₁.phase.status ≠ 0xFF := by
    rw [← hd₁]
    show d.phase.status ≠ 0xFF
    rw [h.phase]
    cases st.latched <;> decide
  have hstart : diskBus.command 0xEC d₁ = some (d₁.busy (.identify 0)) := by
    have hmaster : d₁.drive &&& 0x10 = 0 := by
      rw [← hd₁]
      show (0xA0 : UInt8) &&& 0x10 = 0
      decide
    rw [command_disk hw hq, Device.start, if_neg (not_not.2 hmaster), if_neg (by simp), if_neg (by simp), if_neg (by decide), if_pos rfl]
  -- the answer
  obtain ⟨v, hanswer, hv⟩ := status_identify (d := { d₁.busy (.identify 0) with wait := (d₁.busy (.identify 0)).wait - 4 }) rfl
  obtain ⟨d₂, hd₂⟩ : ∃ d₂ : Device, { d₁.busy (.identify 0) with wait := (d₁.busy (.identify 0)).wait - 4 - 1 } = d₂ := ⟨_, rfl⟩
  have hb₂ : Backs d₂ st := hd₂ ▸ ⟨hb.media, hb.bad, hb.finish, fun k => hb.delay (k + 1)⟩
  have hphase : d₂.phase = .identify 0 := by rw [← hd₂]; rfl
  have hw₂ : d₂.wait < polls := by
    rw [← hd₂]
    exact lt_of_le_of_lt ((Nat.sub_le ..).trans (Nat.sub_le ..)) (hb.busy_wait _)
  have hbsy := ataWaitBsy_disk (d := d₂) (by rw [hphase]; exact bsyTest_data) hw₂
  have hdata : diskBus.status (ready d₂) = some (0x58, ready d₂) := by
    rw [status_disk, readStatus_ready rfl]
    show some (d₂.phase.status, _) = _
    rw [hphase]
    rfl
  have hdrain := drainWords_disk 255 0 rfl (ready d₂) rfl hphase
  rw [hd₂] at hanswer
  refine ⟨{ ready d₂ with phase := .idle }, ?_, ⟨hb₂.media, hb₂.bad, hb₂.finish, hb₂.delay⟩, rfl, rfl⟩
  have hsettled := ata400nsDelay_disk (d₁.busy (.identify 0))
  simp only [Bus.ataDetect, hdrive, hdelay, hstatus, hthere, hstart, hsettled, hanswer, hv, hbsy, Option.bind_eq_bind,
    Option.bind_some, if_false, ne_eq, not_true_eq_false]
  show (diskBus.status (ready d₂)).bind _ = _
  rw [hdata, Option.bind_some]
  dsimp only
  rw [if_neg (by decide)]
  show (diskBus.drainWords (255 + 1) (ready d₂)).bind _ = _
  rw [hdrain]
  rfl

/-! ## On a stream of status bytes -/

theorem wait_ports (test : UInt8 → Option Wait) (t : ℕ) (p : Ports) : portsBus.wait test t p =
    some ((Polling.poll test p.status t p.reads).1.getD .timeout, { p with reads := (Polling.poll test p.status t p.reads).2 }) := by
  induction t generalizing p with
  | zero => rfl
  | succ t ih =>
    have hstatus : portsBus.status p = some (p.status p.reads, { p with reads := p.reads + 1 }) := rfl
    cases htest : test (p.status p.reads) with
    | some r => simp only [Bus.wait, hstatus, Option.bind_eq_bind, Option.bind_some, htest, Polling.poll, Option.getD_some]
    | none => simp only [Bus.wait, hstatus, Option.bind_eq_bind, Option.bind_some, htest, Polling.poll, ih]

theorem ataWaitBsy_ports (p : Ports) : portsBus.ataWaitBsy p = some p.ataWaitBsy := wait_ports bsyTest polls p

theorem ataWaitDrq_ports (p : Ports) : portsBus.ataWaitDrq p = some p.ataWaitDrq := wait_ports drqTest polls p

/-- `ptr[i]`, inside the buffer. -/
def wordsOf (buf : Fin (512 * count) → UInt8) (i : ℕ) : UInt16 := (loadWord buf i).getD 0

theorem writeWords_ports (buf : Fin (512 * count) → UInt8) (hs : s < count) : ∀ n i, i + n = 256 → ∀ p : Ports,
    portsBus.writeWords buf s i n p =
      some { p with out := p.out ++ (List.range' i n).map fun i => .word ataPrimaryBase (wordsOf buf (s * 256 + i)) } := by
  intro n
  induction n with
  | zero =>
    intro i _ p
    simp [Bus.writeWords]
  | succ n ih =>
    intro i hi p
    have hload : loadWord buf (s * 256 + i) = some (wordsOf buf (s * 256 + i)) := by
      rw [wordsOf, loadWord_eq buf (show 2 * (s * 256 + i) + 1 < 512 * count by omega)]
      rfl
    unfold Bus.writeWords
    simp only [hload, Option.bind_eq_bind, Option.bind_some]
    refine (ih (i + 1) (by omega) { p with out := p.out ++ [.word ataPrimaryBase (wordsOf buf (s * 256 + i))] }).trans ?_
    rw [List.range'_succ, List.map_cons, List.append_assoc, List.singleton_append]

theorem ataWriteLoop_ports (buf : Fin (512 * count) → UInt8) : ∀ todo s, s + todo = count → ∀ p : Ports,
    portsBus.ataWriteLoop buf s todo p = some (Ports.ataWriteLoop (wordsOf buf) s todo p) := by
  intro todo
  induction todo with
  | zero => intro s _ p; rfl
  | succ todo ih =>
    intro s hs p
    have hdelay : portsBus.ata400nsDelay p = some p.ata400nsDelay := rfl
    have hwords (p : Ports) := writeWords_ports buf (show s < count by omega) 256 0 rfl p
    unfold Bus.ataWriteLoop Ports.ataWriteLoop
    simp only [hdelay, ataWaitDrq_ports, hwords, Option.bind_eq_bind, Option.bind_some]
    by_cases hr : p.ata400nsDelay.ataWaitDrq.1 = .ok
    · rw [if_neg (not_not.2 hr), if_neg (not_not.2 hr), ih (s + 1) (by omega)]
      rw [sectorWords, List.range_eq_range']
    · rw [if_pos hr, if_pos hr]
      rfl

/-- **The driver of `Model.AtaPorts`** is this one, on a bus whose status does not depend on what
is written. -/
theorem ataWriteSectors_ports (lba : UInt32) (count : UInt8) (buf : Fin (512 * count.toNat) → UInt8) (p : Ports) :
    portsBus.ataWriteSectors lba count buf p = some (p.ataWriteSectors lba count (wordsOf buf)) := by
  have hselect (p : Ports) : portsBus.ataSelectLba28 lba count p = some (p.ataSelectLba28 lba count) := rfl
  have hwrite (p : Ports) : portsBus.command 0x30 p = some p.cmdWritePio := rfl
  have hflush (p : Ports) : portsBus.command 0xE7 p = some p.cmdFlush := rfl
  unfold Bus.ataWriteSectors Ports.ataWriteSectors
  simp only [ataWaitBsy_ports, hselect, hwrite, hflush, ataWriteLoop_ports buf count.toNat 0 (Nat.zero_add _), Option.bind_eq_bind,
    Option.bind_some]
  split_ifs <;> rfl

end DahleOS
