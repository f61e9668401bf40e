import DahleOS.Lib.AtaDevice
import DahleOS.Lib.CArray
import DahleOS.Model.AtaPorts

/-!
# The ATA driver on a bus (`drivers/ata.c`, `cpu/port.h`)

The driver with everything it reads and writes: a bus answers each access to a port, in its
state, or refuses it. In `Model.AtaPorts` the answers are a stream that does not depend on what
is written, and in `Model.Ata` every wait is its outcome.

* `Bus.ataDetect`, `Bus.ataReadSectors`, `Bus.ataWriteSectors`: the driver.
* `portsBus`: the ports of `Model.AtaPorts` as a bus.
* `diskBus`: a disk on the primary channel.
-/

namespace DahleOS

open CArray Descriptor

/-- `port_byte_in`, `port_word_in`, `port_byte_out`, `port_word_out`. -/
structure Bus (σ : Type) where
  portByteIn : UInt16 → σ → Option (UInt8 × σ)
  portWordIn : UInt16 → σ → Option (UInt16 × σ)
  portByteOut : UInt16 → UInt8 → σ → Option σ
  portWordOut : UInt16 → UInt16 → σ → Option σ

/-- `ptr[i] = w`, with `ptr` a pointer to words of 16 bits. -/
def storeWord {n : ℕ} (buf : Fin n → UInt8) (i : ℕ) (w : UInt16) : Option (Fin n → UInt8) := do
  wr (← wr buf (2 * i : ℕ) w.toUInt8) (2 * i + 1 : ℕ) (w >>> 8).toUInt8

/-- `ptr[i]`. -/
def loadWord {n : ℕ} (buf : Fin n → UInt8) (i : ℕ) : Option UInt16 := do
  return word16 (← rd buf (2 * i : ℕ)) (← rd buf (2 * i + 1 : ℕ))

namespace Bus

open Ports

/-- `ATA_PRIMARY_CTRL`. -/
def ataPrimaryCtrl : UInt16 := 0x3F6

variable {σ : Type} (bus : Bus σ)

/-- `port_byte_in(ATA_PRIMARY_BASE + ATA_REG_STATUS)`. -/
def status (d : σ) : Option (UInt8 × σ) := bus.portByteIn (ataPrimaryBase + 7) d

/-- The rounds of `while (--t)`, of which `t` are left. -/
def wait (test : UInt8 → Option Wait) : (t : ℕ) → σ → Option (Wait × σ)
  | 0, d => some (.timeout, d)
  | t + 1, d => do
    let (s, d) ← bus.status d
    match test s with
    | some r => some (r, d)
    | none => wait test t d

/-- `ata_wait_bsy`. -/
def ataWaitBsy (d : σ) : Option (Wait × σ) := bus.wait bsyTest polls d

/-- `ata_wait_drq`. -/
def ataWaitDrq (d : σ) : Option (Wait × σ) := bus.wait drqTest polls d

/-- `ata_400ns_delay`. -/
def ata400nsDelay (d : σ) : Option σ := do
  let (_, d) ← bus.portByteIn ataPrimaryCtrl d
  let (_, d) ← bus.portByteIn ataPrimaryCtrl d
  let (_, d) ← bus.portByteIn ataPrimaryCtrl d
  let (_, d) ← bus.portByteIn ataPrimaryCtrl d
  return d

/-- `ata_select_lba28`. -/
def ataSelectLba28 (lba : UInt32) (count : UInt8) (d : σ) : Option σ := do
  let d ← bus.portByteOut (ataPrimaryBase + 2) count d
  let d ← bus.portByteOut (ataPrimaryBase + 3) lba.toUInt8 d
  let d ← bus.portByteOut (ataPrimaryBase + 4) (lba >>> 8).toUInt8 d
  let d ← bus.portByteOut (ataPrimaryBase + 5) (lba >>> 16).toUInt8 d
  bus.portByteOut (ataPrimaryBase + 6) ((0xE0 : UInt32) ||| (lba >>> 24 &&& 0x0F)).toUInt8 d

/-- `port_byte_out(ATA_PRIMARY_BASE + ATA_REG_CMD, c)`. -/
def command (c : UInt8) (d : σ) : Option σ := bus.portByteOut (ataPrimaryBase + 7) c d

/-- `for (int i = 0; i < 256; i++) port_word_in(ATA_PRIMARY_BASE + ATA_REG_DATA);`. -/
def drainWords : (todo : ℕ) → σ → Option σ
  | 0, d => some d
  | todo + 1, d => do
    let (_, d) ← bus.portWordIn ataPrimaryBase d
    drainWords todo d

/-- `ata_detect`. -/
def ataDetect (d : σ) : Option (Bool × σ) := do
  let d ← bus.portByteOut (ataPrimaryBase + 6) 0xA0 d
  let d ← bus.ata400nsDelay d
  let (s, d) ← bus.status d
  -- floating bus
  if s = 0xFF then return (false, d)
  let d ← bus.command 0xEC d
  let d ← bus.ata400nsDelay d
  let (s, d) ← bus.status d
  if s = 0x00 then return (false, d)
  let (r, d) ← bus.ataWaitBsy d
  if r ≠ .ok then return (false, d)
  let (s, d) ← bus.status d
  if s &&& srErr ≠ 0 ∨ s &&& srDrq = 0 then return (false, d)
  let d ← bus.drainWords 256 d
  return (true, d)

/-- The words of one sector into the buffer, from word `i` on. -/
def readWords {n : ℕ} (s : ℕ) : (i todo : ℕ) → (Fin n → UInt8) → σ → Option ((Fin n → UInt8) × σ)
  | _, 0, buf, d => some (buf, d)
  | i, todo + 1, buf, d => do
    let (w, d) ← bus.portWordIn ataPrimaryBase d
    let buf ← storeWord buf (s * 256 + i) w
    readWords s (i + 1) todo buf d

/-- The sector loop of `ata_read_sectors`, from sector `s` on with `todo` to go. -/
def ataReadLoop {n : ℕ} : (s todo : ℕ) → (Fin n → UInt8) → σ → Option (AtaStatus × (Fin n → UInt8) × σ)
  | _, 0, buf, d => some (.ok, buf, d)
  | s, todo + 1, buf, d => do
    let d ← bus.ata400nsDelay d
    let (r, d) ← bus.ataWaitBsy d
    if r ≠ .ok then return (r.status, buf, d)
    let (r, d) ← bus.ataWaitDrq d
    if r ≠ .ok then return (r.status, buf, d)
    let (buf, d) ← bus.readWords s 0 256 buf d
    ataReadLoop (s + 1) todo buf d

/-- `ata_read_sectors`. -/
def ataReadSectors {n : ℕ} (lba : UInt32) (count : UInt8) (buf : Fin n → UInt8) (d : σ) :
    Option (AtaStatus × (Fin n → UInt8) × σ) := do
  let (r, d) ← bus.ataWaitBsy d
  if r ≠ .ok then return (.timeout, buf, d)
  let d ← bus.ataSelectLba28 lba count d
  let d ← bus.command 0x20 d
  bus.ataReadLoop 0 count.toNat buf d

/-- The words of one sector from the buffer, from word `i` on. -/
def writeWords {n : ℕ} (buf : Fin n → UInt8) (s : ℕ) : (i todo : ℕ) → σ → Option σ
  | _, 0, d => some d
  | i, todo + 1, d => do
    let d ← bus.portWordOut ataPrimaryBase (← loadWord buf (s * 256 + i)) d
    writeWords buf s (i + 1) todo d

/-- The sector loop of `ata_write_sectors`, from sector `s` on with `todo` to go. -/
def ataWriteLoop {n : ℕ} (buf : Fin n → UInt8) : (s todo : ℕ) → σ → Option (AtaStatus × σ)
  | _, 0, d => some (.ok, d)
  | s, todo + 1, d => do
    let d ← bus.ata400nsDelay d
    let (r, d) ← bus.ataWaitDrq d
    if r ≠ .ok then return (r.status, d)
    let d ← bus.writeWords buf s 0 256 d
    ataWriteLoop buf (s + 1) todo d

/-- `ata_write_sectors`. The result of the wait after the flush is dropped. -/
def ataWriteSectors {n : ℕ} (lba : UInt32) (count : UInt8) (buf : Fin n → UInt8) (d : σ) : Option (AtaStatus × σ) := do
  let (r, d) ← bus.ataWaitBsy d
  if r ≠ .ok then return (.timeout, d)
  let d ← bus.ataSelectLba28 lba count d
  let d ← bus.command 0x30 d
  let (r, d) ← bus.ataWriteLoop buf 0 count.toNat d
  if r ≠ .ok then return (r, d)
  let d ← bus.command 0xE7 d
  let (_, d) ← bus.ataWaitBsy d
  return (.ok, d)

end Bus

/-- A stream of status bytes, and a record of what is written. No words are read there. -/
def portsBus : Bus Ports where
  portByteIn _ p := some (p.status p.reads, { p with reads := p.reads + 1 })
  portWordIn _ _ := none
  portByteOut port v p := some (p.portByteOut port v)
  portWordOut port v p := some { p with out := p.out ++ [.word port v] }

/-- A disk on the primary channel. -/
def diskBus : Bus AtaDevice.Device := ⟨AtaDevice.Device.portByteIn, AtaDevice.Device.portWordIn, AtaDevice.Device.portByteOut,
  AtaDevice.Device.portWordOut⟩

end DahleOS
