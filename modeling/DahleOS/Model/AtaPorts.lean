import DahleOS.Lib.Polling
import DahleOS.Model.Ata

/-!
# The ATA driver at its ports (`drivers/ata.c`)

The drive as the driver meets it: a stream of status bytes, one for each read of the status
or the alternate status port, whatever was written in between, and a list of what was
written. `ata_write_sectors` is modelled here down to its polling loops; in `Model.Ata`
every wait is its outcome.
-/

namespace DahleOS

open Polling

/-- `port_byte_out`, `port_word_out`. -/
inductive PortOut
  | byte (port : UInt16) (data : UInt8)
  | word (port : UInt16) (data : UInt16)
  deriving DecidableEq

/-- The status bytes, how many of them were read, and what was written. -/
structure Ports where
  status : ℕ → UInt8
  reads : ℕ
  out : List PortOut

namespace Ports

def ataPrimaryBase : UInt16 := 0x1F0

/-- `ATA_SR_BSY`, `ATA_SR_DRQ`, `ATA_SR_ERR`. -/
def srBsy : UInt8 := 0x80
def srDrq : UInt8 := 0x08
def srErr : UInt8 := 0x01

def portByteOut (port : UInt16) (data : UInt8) (p : Ports) : Ports := { p with out := p.out ++ [.byte port data] }

/-- The rounds of `while (--t)` from `t = 0x100000` on. -/
def polls : ℕ := 0x100000 - 1

/-- A status wait: poll, and say what the first decisive status means. -/
def wait (test : UInt8 → Option Wait) (p : Ports) : Wait × Ports :=
  let r := poll test p.status polls p.reads
  (r.1.getD .timeout, { p with reads := r.2 })

/-- What `ata_wait_bsy` makes of a status: the error bit counts once the drive is ready. -/
def bsyTest (s : UInt8) : Option Wait :=
  if s &&& srBsy = 0 then some (if s &&& srErr ≠ 0 then .error else .ok) else none

/-- What `ata_wait_drq` makes of a status: the error bit counts at once. -/
def drqTest (s : UInt8) : Option Wait :=
  if s &&& srErr ≠ 0 then some .error
  else if s &&& srBsy = 0 ∧ s &&& srDrq ≠ 0 then some .ok
  else none

/-- `ata_wait_bsy`. -/
def ataWaitBsy (p : Ports) : Wait × Ports := p.wait bsyTest

/-- `ata_wait_drq`. -/
def ataWaitDrq (p : Ports) : Wait × Ports := p.wait drqTest

/-- `ata_400ns_delay`. -/
def ata400nsDelay (p : Ports) : Ports := { p with reads := p.reads + 4 }

/-- `ata_select_lba28`. -/
def ataSelectLba28 (lba : UInt32) (count : UInt8) (p : Ports) : Ports :=
  p |> portByteOut (ataPrimaryBase + 2) count
    |> portByteOut (ataPrimaryBase + 3) lba.toUInt8
    |> portByteOut (ataPrimaryBase + 4) (lba >>> 8).toUInt8
    |> portByteOut (ataPrimaryBase + 5) (lba >>> 16).toUInt8
    |> portByteOut (ataPrimaryBase + 6) ((0xE0 : UInt32) ||| (lba >>> 24 &&& 0x0F)).toUInt8

/-- `ATA_CMD_WRITE_PIO`, `ATA_CMD_FLUSH` to the command register. -/
def cmdWritePio (p : Ports) : Ports := portByteOut (ataPrimaryBase + 7) 0x30 p
def cmdFlush (p : Ports) : Ports := portByteOut (ataPrimaryBase + 7) 0xE7 p

/-- The 256 words of one sector. -/
def sectorWords (ptr : ℕ → UInt16) (s : ℕ) : List PortOut :=
  (List.range 256).map fun i => .word ataPrimaryBase (ptr (s * 256 + i))

/-- The sector loop of `ata_write_sectors`, from sector `s` on with `todo` to go. -/
def ataWriteLoop (ptr : ℕ → UInt16) : (s todo : ℕ) → Ports → AtaStatus × Ports
  | _, 0, p => (.ok, p)
  | s, todo + 1, p =>
    let (r, p) := p.ata400nsDelay.ataWaitDrq
    if r ≠ .ok then (r.status, p)
    else ataWriteLoop ptr (s + 1) todo { p with out := p.out ++ sectorWords ptr s }

/-- `ata_write_sectors`. The wait after the flush is made, and its result dropped. -/
def ataWriteSectors (lba : UInt32) (count : UInt8) (ptr : ℕ → UInt16) (p : Ports) : AtaStatus × Ports :=
  let (r, p) := p.ataWaitBsy
  if r ≠ .ok then (.timeout, p)
  else
    let (r, p) := ataWriteLoop ptr 0 count.toNat (p.ataSelectLba28 lba count).cmdWritePio
    if r ≠ .ok then (r, p)
    else
      let (_, p) := p.cmdFlush.ataWaitBsy
      (.ok, p)

end Ports

end DahleOS
