import DahleOS.Lib.SectorDisk

/-!
# The ATA driver (`drivers/ata.c`)

The drive is its bytes and a script: what each status wait of each command to come will
return. A command takes the next entry of the script. Waits are numbered from 0 within a
command, in the order in which the driver makes them.

A read that fails leaves the rest of the buffer as it was; a write that fails leaves the
sectors it did not get to as they were.
-/

namespace DahleOS

open SectorDisk

/-- `ATA_OK`, `ATA_ERR_TIMEOUT`, `ATA_ERR_ERROR`, `ATA_ERR_NODRIVE`. -/
inductive AtaStatus
  | ok | timeout | error | noDrive
  deriving DecidableEq

/-- What `ata_wait_bsy` and `ata_wait_drq` return. -/
inductive Wait
  | ok | error | timeout
  deriving DecidableEq

def Wait.status : Wait → AtaStatus
  | .ok => .ok
  | .error => .error
  | .timeout => .timeout

/-- What the waits of one command return. -/
abbrev Script := ℕ → Wait

/-- The primary master, with the scripts of the commands to come. -/
structure Drive where
  bytes : ℕ → UInt8
  plan : ℕ → Script

/-- The drive after one command. -/
def Drive.advance (d : Drive) : Drive := { d with plan := fun k => d.plan (k + 1) }

/-- A drive on which every wait succeeds. -/
def Drive.good (bytes : ℕ → UInt8) : Drive := ⟨bytes, fun _ _ => .ok⟩

/-- `ata_detect`: the floating bus, the empty status, the wait for `IDENTIFY` and the final
status, each of which can say that there is no drive. -/
def ataDetect (d : Drive) : Bool × Drive := ((List.range 4).all fun i => d.plan 0 i = .ok, d.advance)

/-- One sector of the disk into the buffer. -/
def readSector {count : ℕ} (disk : ℕ → UInt8) (lba s : ℕ) (buf : Fin (512 * count) → UInt8) :
    Fin (512 * count) → UInt8 := fun i =>
  if 512 * s ≤ i.val ∧ i.val < 512 * (s + 1) then disk (512 * lba + i) else buf i

/-- The sector loop of `ata_read_sectors`, from sector `s` on with `todo` to go. -/
def readLoop {count : ℕ} (disk : ℕ → UInt8) (script : Script) (lba : ℕ) :
    (s todo : ℕ) → (Fin (512 * count) → UInt8) → AtaStatus × (Fin (512 * count) → UInt8)
  | _, 0, buf => (.ok, buf)
  | s, todo + 1, buf =>
    -- BSY, then DRQ
    if script (1 + 2 * s) ≠ .ok then ((script (1 + 2 * s)).status, buf)
    else if script (2 + 2 * s) ≠ .ok then ((script (2 + 2 * s)).status, buf)
    else readLoop disk script lba (s + 1) todo (readSector disk lba s buf)

/-- `ata_read_sectors`. The first wait reports every failure as a timeout. -/
def ataReadSectors (d : Drive) (lba count : ℕ) (buf : Fin (512 * count) → UInt8) :
    AtaStatus × (Fin (512 * count) → UInt8) × Drive :=
  if d.plan 0 0 ≠ .ok then (.timeout, buf, d.advance)
  else
    let (r, buf) := readLoop d.bytes (d.plan 0) lba 0 count buf
    (r, buf, d.advance)

/-- One sector of the buffer to the disk. -/
def writeSector {count : ℕ} (disk : ℕ → UInt8) (lba s : ℕ) (buf : Fin (512 * count) → UInt8) : ℕ → UInt8 :=
  fun j =>
    if h : 512 * (lba + s) ≤ j ∧ j < 512 * (lba + s + 1) ∧ j - 512 * lba < 512 * count then
      buf ⟨j - 512 * lba, h.2.2⟩
    else disk j

/-- The sector loop of `ata_write_sectors`. -/
def writeLoop {count : ℕ} (script : Script) (lba : ℕ) (buf : Fin (512 * count) → UInt8) :
    (s todo : ℕ) → (ℕ → UInt8) → AtaStatus × (ℕ → UInt8)
  | _, 0, disk => (.ok, disk)
  | s, todo + 1, disk =>
    if script (1 + s) ≠ .ok then ((script (1 + s)).status, disk)
    else writeLoop script lba buf (s + 1) todo (writeSector disk lba s buf)

/-- `ata_write_sectors`. The wait after the flush is not looked at. -/
def ataWriteSectors (d : Drive) (lba count : ℕ) (buf : Fin (512 * count) → UInt8) : AtaStatus × Drive :=
  if d.plan 0 0 ≠ .ok then (.timeout, d.advance)
  else
    let (r, disk) := writeLoop (d.plan 0) lba buf 0 count d.bytes
    (r, { d.advance with bytes := disk })

end DahleOS
