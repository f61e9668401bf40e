import DahleOS.Lib.Descriptor

/-!
# An ATA device, as its host sees it

A disk of 512-byte sectors behind the registers of the primary channel, with 28-bit sector
addresses and programmed input and output. A host that keeps to the protocol writes the registers
and the command register only while the device is neither busy nor waiting for a transfer, and
moves words only while the device asks for them. What a device does otherwise is left open: such
an access is `none`.

How long the device is busy is counted in readings of its status.

* `Device.portByteIn`, `portWordIn`, `portByteOut`, `portWordOut`: the ports.
* `Device.start`: the four commands.
* `wordIn_dataIn`, `wordOut_dataOut`: what one word of a transfer does.
-/

namespace AtaDevice

open Descriptor

/-! ## Bytes and words -/

@[simp] theorem word16_low (lo hi : UInt8) : (word16 lo hi).toUInt8 = lo := by
  have hlo := lo.toNat_lt
  have hhi := hi.toNat_lt
  apply UInt8.toNat_inj.1
  rw [UInt16.toNat_toUInt8, word16, UInt16.toNat_ofNat']
  omega

@[simp] theorem word16_high (lo hi : UInt8) : (word16 lo hi >>> 8).toUInt8 = hi := by
  have hlo := lo.toNat_lt
  have hhi := hi.toNat_lt
  apply UInt8.toNat_inj.1
  rw [UInt16.toNat_toUInt8, UInt16.toNat_shiftRight, word16, UInt16.toNat_ofNat', Nat.shiftRight_eq_div_pow]
  show (lo.toNat + 256 * hi.toNat) % 2 ^ 16 / 256 % 2 ^ 8 = hi.toNat
  omega

/-! ## The device -/

/-- What the device is at, once it is not busy. A transfer is at a word of a sector, with the
sectors that are left, this one included. -/
inductive Phase
  | idle
  | failed
  | identify (word : ℕ)
  | dataIn (lba todo word : ℕ)
  | dataOut (lba todo word : ℕ)

/-- The status byte: ready, and the request for data or the error bit. -/
def Phase.status : Phase → UInt8
  | idle => 0x50
  | failed => 0x51
  | identify _ | dataIn .. | dataOut .. => 0x58

/-- Whether a command may be given. -/
def Phase.quiet : Phase → Bool
  | idle | failed => true
  | _ => false

/-- The disk, its bad sectors and what `IDENTIFY` tells; the registers; how long the device will
be busy from time to time, and after the last sector of a write; how long it is still busy, and
what then. -/
structure Device where
  media : ℕ → UInt8
  bad : ℕ → Bool
  info : ℕ → UInt16
  count : UInt8
  lbaLo : UInt8
  lbaMid : UInt8
  lbaHi : UInt8
  drive : UInt8
  delay : ℕ → ℕ
  finish : ℕ → ℕ
  wait : ℕ
  phase : Phase

namespace Device

/-- Busy for a time, and then in the phase `p`. -/
def busy (d : Device) (p : Phase) : Device := { d with wait := d.delay 0, delay := fun k => d.delay (k + 1), phase := p }

/-- Busy after the last sector of a write. -/
def settle (d : Device) (p : Phase) : Device := { d with wait := d.finish 0, finish := fun k => d.finish (k + 1), phase := p }

/-- A reading of the status. A busy device shows its busy bit only. -/
def readStatus (d : Device) : UInt8 × Device := if d.wait = 0 then (d.phase.status, d) else (0x80, { d with wait := d.wait - 1 })

/-- The address in the registers. -/
def address (d : Device) : ℕ :=
  d.lbaLo.toNat + 256 * d.lbaMid.toNat + 65536 * d.lbaHi.toNat + 16777216 * (d.drive.toNat % 16)

/-- The number of sectors in the registers; zero stands for 256. -/
def sectorCount (d : Device) : ℕ := if d.count = 0 then 256 else d.count.toNat

/-- A sector to be read. -/
def due (d : Device) (lba todo : ℕ) : Phase := if d.bad lba then .failed else .dataIn lba todo 0

/-- `READ SECTORS`, `WRITE SECTORS`, `FLUSH CACHE` and `IDENTIFY DEVICE`, of the first of the two
devices of the channel. -/
def start (d : Device) (command : UInt8) : Option Device :=
  if d.drive &&& 0x10 ≠ 0 then none
  else if command = 0x20 ∧ d.drive &&& 0x40 ≠ 0 then some (d.busy (d.due d.address d.sectorCount))
  else if command = 0x30 ∧ d.drive &&& 0x40 ≠ 0 then some (d.busy (.dataOut d.address d.sectorCount 0))
  else if command = 0xE7 then some (d.busy .idle)
  else if command = 0xEC then some (d.busy (.identify 0))
  else none

/-- A register is written, or a command is given. -/
def portByteOut (port : UInt16) (v : UInt8) (d : Device) : Option Device :=
  if d.wait = 0 ∧ d.phase.quiet then
    if port = 0x1F2 then some { d with count := v }
    else if port = 0x1F3 then some { d with lbaLo := v }
    else if port = 0x1F4 then some { d with lbaMid := v }
    else if port = 0x1F5 then some { d with lbaHi := v }
    else if port = 0x1F6 then some { d with drive := v }
    else if port = 0x1F7 then d.start v
    else none
  else none

/-- The status, and the alternate status. -/
def portByteIn (port : UInt16) (d : Device) : Option (UInt8 × Device) :=
  if port = 0x1F7 ∨ port = 0x3F6 then some d.readStatus else none

/-- Word `w` of a sector, low byte first. -/
def wordAt (d : Device) (lba w : ℕ) : UInt16 := word16 (d.media (512 * lba + 2 * w)) (d.media (512 * lba + 2 * w + 1))

/-- The disk with another word `w` in a sector. -/
def withWord (media : ℕ → UInt8) (lba w : ℕ) (v : UInt16) : ℕ → UInt8 :=
  Function.update (Function.update media (512 * lba + 2 * w) v.toUInt8) (512 * lba + 2 * w + 1) (v >>> 8).toUInt8

/-- A word to the host. After the last one of a sector comes the next sector, or nothing. -/
def wordIn (d : Device) : Option (UInt16 × Device) :=
  if d.wait ≠ 0 then none
  else match d.phase with
    | .dataIn lba todo w => some (d.wordAt lba w,
        if w < 255 then { d with phase := .dataIn lba todo (w + 1) }
        else if todo ≤ 1 then { d with phase := .idle }
        else d.busy (d.due (lba + 1) (todo - 1)))
    | .identify w => some (d.info w, if w < 255 then { d with phase := .identify (w + 1) } else { d with phase := .idle })
    | _ => none

/-- A word from the host. After the last one of a sector the device is busy with it, and tells
then if that went wrong. -/
def wordOut (v : UInt16) (d : Device) : Option Device :=
  if d.wait ≠ 0 then none
  else match d.phase with
    | .dataOut lba todo w =>
      let d := { d with media := withWord d.media lba w v }
      some <|
        if w < 255 then { d with phase := .dataOut lba todo (w + 1) }
        else if todo ≤ 1 then d.settle (if d.bad lba then .failed else .idle)
        else d.busy (if d.bad lba then .failed else .dataOut (lba + 1) (todo - 1) 0)
    | _ => none

def portWordIn (port : UInt16) (d : Device) : Option (UInt16 × Device) := if port = 0x1F0 then d.wordIn else none

def portWordOut (port v : UInt16) (d : Device) : Option Device := if port = 0x1F0 then d.wordOut v else none

end Device

end AtaDevice
