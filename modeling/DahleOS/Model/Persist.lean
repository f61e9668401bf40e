import DahleOS.Model.Ata
import DahleOS.Model.Fs

/-!
# Persistence (`storage/persist.c`)

Two categories, the alias table and the filesystem pool, each with its own sectors, and
one header sector that all writers share. A writer reads the header, keeps the fields it
does not own, and writes it back. Each writer reads into a static buffer of its own: when
the read fails, what it merges is what an earlier call left there.

The staging buffers `alias_buf` and `fs_buf` are cleared or filled before every use, and
so are the header buffers of `persist_probe` and of the loaders; they are locals here.
-/

namespace DahleOS

open Codec SectorDisk

/-! ## Layouts -/

/-- `alias_t`, with `ALIAS_NAME_MAX` = 32 and `ALIAS_VAL_MAX` = 128. -/
structure Alias where
  name : Fin 32 → UInt8
  value : Fin 128 → UInt8

/-- `alias_table` and `alias_count`, with `ALIAS_MAX` = 16. -/
structure AliasTable where
  table : Fin 16 → Alias
  count : Int32

/-- The table of zero bytes. -/
def AliasTable.zero : AliasTable := ⟨fun _ => ⟨fun _ => 0, fun _ => 0⟩, 0⟩

/-- `persist_header_t`. -/
structure Header where
  magic : UInt32
  version : UInt32
  flags : UInt32
  aliasChecksum : UInt32
  fsChecksum : UInt32
  savelist : UInt32
  pad : Fin 488 → UInt8

def aliasEquiv : Alias ≃ (Fin 32 → UInt8) × (Fin 128 → UInt8) :=
  ⟨fun a => (a.name, a.value), fun p => ⟨p.1, p.2⟩, fun _ => rfl, fun _ => rfl⟩

def aliasTableEquiv : AliasTable ≃ Int32 × (Fin 16 → Alias) :=
  ⟨fun t => (t.count, t.table), fun p => ⟨p.2, p.1⟩, fun _ => rfl, fun _ => rfl⟩

def fsNodeEquiv :
    FsNode ≃ (Fin 64 → UInt8) × UInt32 × Int32 × (Fin 16 → Int32) × Int32 × (Fin 256 → UInt8) × Int32 :=
  ⟨fun n => (n.name, n.type, n.parent, n.children, n.childCount, n.data, n.dataLen),
    fun ⟨name, type, parent, children, childCount, data, dataLen⟩ =>
      ⟨name, type, parent, children, childCount, data, dataLen⟩, fun _ => rfl, fun _ => rfl⟩

def fsEquiv : Fs ≃ Int32 × Int32 × (Fin 64 → FsNode) :=
  ⟨fun s => (s.poolUsed, s.cwd, s.pool), fun p => ⟨p.2.2, p.1, p.2.1⟩, fun _ => rfl, fun _ => rfl⟩

def headerEquiv : Header ≃ UInt32 × UInt32 × UInt32 × UInt32 × UInt32 × UInt32 × (Fin 488 → UInt8) :=
  ⟨fun h => (h.magic, h.version, h.flags, h.aliasChecksum, h.fsChecksum, h.savelist, h.pad),
    fun ⟨magic, version, flags, aliasChecksum, fsChecksum, savelist, pad⟩ =>
      ⟨magic, version, flags, aliasChecksum, fsChecksum, savelist, pad⟩, fun _ => rfl, fun _ => rfl⟩

/-- `count` and the table, as `persist_save_aliases` lays them out. -/
def aliasCodec : Codec AliasTable 2564 :=
  iso aliasTableEquiv (seq int32 (array 16 (iso aliasEquiv (seq (bytes 32) (bytes 128)))))

/-- A node of the pool. -/
def fsNodeCodec : Codec FsNode 400 :=
  iso fsNodeEquiv
    (seq (bytes 64) (seq word32 (seq int32 (seq (array 16 int32) (seq int32 (seq (bytes 256) int32))))))

/-- `pool_used`, `cwd` and the pool, as `persist_save_fs` lays them out. -/
def fsCodec : Codec Fs 25608 := iso fsEquiv (seq int32 (seq int32 (array 64 fsNodeCodec)))

/-- The header sector. -/
def headerCodec : Codec Header (512 * 1) :=
  (iso headerEquiv (seq word32 (seq word32 (seq word32 (seq word32 (seq word32 (seq word32 (bytes 488))))))) :
    Codec Header 512)

/-! ## State -/

def persistMagic : UInt32 := 0xDA41E05
def persistVersion : UInt32 := 1

/-- `PERSIST_LBA_HEADER`. -/
def lbaHeader : ℕ := 0

/-- The categories, in the order of `savelist_names`. -/
inductive Category
  | aliases | fs
  deriving DecidableEq

namespace Category

/-- `PERSIST_LBA_ALIASES`, `PERSIST_LBA_FS`. -/
def lba : Category → ℕ
  | aliases => 1
  | fs => 7

/-- The number of sectors. -/
def count : Category → ℕ
  | aliases => 6
  | fs => 51

/-- `PERSIST_FLAG_ALIASES`, `PERSIST_FLAG_FS`. -/
def flag : Category → UInt32
  | aliases => 1
  | fs => 2

/-- `SAVELIST_ALIASES`, `SAVELIST_FS`. -/
def bit : Category → UInt32
  | aliases => 1
  | fs => 2

/-- What a load returns when the header lacks the category's flag: no saved table is no
error, no saved pool is one. -/
def missing : Category → AtaStatus
  | aliases => .ok
  | fs => .error

/-- What is saved. -/
abbrev Data : Category → Type
  | aliases => AliasTable
  | fs => Fs

/-- The bytes it takes. -/
def size : Category → ℕ
  | aliases => 2564
  | fs => 25608

def codec : (c : Category) → Codec c.Data c.size
  | aliases => aliasCodec
  | fs => fsCodec

theorem size_le (c : Category) : c.size ≤ 512 * c.count := by cases c <;> decide

/-- The staging buffer: the data, zero behind it. -/
def image (c : Category) (x : c.Data) : Fin (512 * c.count) → UInt8 := Codec.pad (512 * c.count) (c.codec x)

/-- The data in a staging buffer. -/
def ofImage (c : Category) (buf : Fin (512 * c.count) → UInt8) : c.Data := c.codec.symm (prefixOf c.size_le buf)

end Category

/-- `SAVELIST_ALL`. -/
def savelistAll : UInt32 := 3

/-- The checksum field of a category. -/
def Header.csum (h : Header) : Category → UInt32
  | .aliases => h.aliasChecksum
  | .fs => h.fsChecksum

/-- The memory that is saved, the static state of `persist.c`, and the drive. The two
savers and `persist_savelist_set` have a header buffer each. -/
structure World where
  aliases : AliasTable
  fs : Fs
  diskPresent : Bool
  savelistFlags : UInt32
  saveHdr : Category → Fin (512 * 1) → UInt8
  savelistSetHdr : Fin (512 * 1) → UInt8
  drive : Drive

/-- The memory of a machine that was just switched on. -/
def World.cleared (drive : Drive) : World :=
  ⟨.zero, fsInitEmpty, false, savelistAll, fun _ _ => 0, fun _ => 0, drive⟩

def World.get (w : World) : (c : Category) → c.Data
  | .aliases => w.aliases
  | .fs => w.fs

/-- `alias_set_count` and `alias_set_table`; `fs_load_state`. -/
def World.set (w : World) : (c : Category) → c.Data → World
  | .aliases, aliases => { w with aliases }
  | .fs, fs => { w with fs }

/-! ## The header -/

/-- `ata_read_sectors(PERSIST_LBA_HEADER, 1, hdr_buf)`. -/
def readHeader (w : World) (buf : Fin (512 * 1) → UInt8) : AtaStatus × (Fin (512 * 1) → UInt8) × World :=
  let (r, buf, drive) := ataReadSectors w.drive lbaHeader 1 buf
  (r, buf, { w with drive })

/-- `write_header`. -/
def writeHeader (w : World) (dataFlags : UInt32) (csum : Category → UInt32) : AtaStatus × World :=
  let h : Header :=
    ⟨persistMagic, persistVersion, dataFlags, csum .aliases, csum .fs, w.savelistFlags, fun _ => 0⟩
  let (r, drive) := ataWriteSectors w.drive lbaHeader 1 (headerCodec h)
  (r, { w with drive })

/-- The flags a writer preserves: none, if the buffer holds no header. -/
def Header.keptFlags (h : Header) : UInt32 := if h.magic = persistMagic then h.flags else 0

/-- The checksums a writer preserves. -/
def Header.keptCsum (h : Header) (c : Category) : UInt32 := if h.magic = persistMagic then h.csum c else 0

/-- `persist_probe`. -/
def persistProbe (w : World) : Bool × World :=
  let (present, drive) := ataDetect w.drive
  let w := { w with diskPresent := present, drive }
  if !present then (false, w)
  else
    let (r, buf, w) := readHeader w fun _ => 0
    if r ≠ .ok then (false, w)
    else
      let h := headerCodec.symm buf
      if h.magic ≠ persistMagic ∨ h.version ≠ persistVersion then (false, w)
      else (true, { w with savelistFlags := h.savelist })

/-! ## Saving and loading -/

/-- The common body of `persist_save_aliases` and `persist_save_fs`. The result of the
header read is not looked at. -/
def persistSave (c : Category) (w : World) : AtaStatus × World :=
  if !w.diskPresent then (.noDrive, w)
  else if w.savelistFlags &&& c.bit = 0 then (.ok, w)
  else
    let buf := c.image (w.get c)
    let csum := checksum buf
    let (r, drive) := ataWriteSectors w.drive c.lba c.count buf
    let w := { w with drive }
    if r ≠ .ok then (r, w)
    else
      -- a read that fails leaves the buffer of the last save
      let (_, hdrBuf, w) := readHeader w (w.saveHdr c)
      let w := { w with saveHdr := Function.update w.saveHdr c hdrBuf }
      let h := headerCodec.symm hdrBuf
      writeHeader w (h.keptFlags ||| c.flag) (Function.update h.keptCsum c csum)

/-- The common body of `persist_load_aliases` and `persist_load_fs`. -/
def persistLoad (c : Category) (w : World) : AtaStatus × World :=
  if !w.diskPresent then (.noDrive, w)
  else
    let (r, hdrBuf, w) := readHeader w fun _ => 0
    if r ≠ .ok then (.error, w)
    else
      let h := headerCodec.symm hdrBuf
      if h.magic ≠ persistMagic then (.error, w)
      else if h.flags &&& c.flag = 0 then (c.missing, w)
      else
        let (r, buf, drive) := ataReadSectors w.drive c.lba c.count fun _ => 0
        let w := { w with drive }
        -- the sum is all that is checked of the data
        if r ≠ .ok then (.error, w)
        else if checksum buf ≠ h.csum c then (.error, w)
        else (.ok, w.set c (c.ofImage buf))

/-- `persist_save_aliases`. -/
def persistSaveAliases (w : World) : AtaStatus × World := persistSave .aliases w

/-- `persist_save_fs`. -/
def persistSaveFs (w : World) : AtaStatus × World := persistSave .fs w

/-- `persist_load_aliases`. -/
def persistLoadAliases (w : World) : AtaStatus × World := persistLoad .aliases w

/-- `persist_load_fs`. -/
def persistLoadFs (w : World) : AtaStatus × World := persistLoad .fs w

/-! ## The save list -/

/-- `persist_savelist_set`. -/
def persistSavelistSet (w : World) (flags : UInt32) : World :=
  let w := { w with savelistFlags := flags }
  if !w.diskPresent then w
  else
    let (_, hdrBuf, w) := readHeader w w.savelistSetHdr
    let w := { w with savelistSetHdr := hdrBuf }
    let h := headerCodec.symm hdrBuf
    (writeHeader w h.keptFlags h.keptCsum).2

end DahleOS
