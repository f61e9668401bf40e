import DahleOS.Lib.CArray
import DahleOS.Lib.Descriptor
import DahleOS.Lib.X86
import DahleOS.Model.AtaPorts
import DahleOS.Model.Keyboard
import DahleOS.Model.Libc
import DahleOS.Model.Screen

/-!
# Interrupts (`cpu/`, `kernel/kernel.c`)

The descriptor tables, the entry code of `isr.asm` and `irq.asm`, the two C functions that it
calls, and what they call: `on_tick` of `timer.c` and `kbd_handler` of `keyboard.c`. Of
`kmain`, the part that installs all this.

Where the linker puts the entry code is a parameter (`Symbols`). The tables are written by
index, which is checked.
-/

namespace DahleOS

open CArray Descriptor X86

/-! ## Descriptor tables -/

/-- `gdt_entry_t`. -/
structure GdtEntry where
  limitLo : UInt16
  baseLo : UInt16
  baseMid : UInt8
  access : UInt8
  gran : UInt8
  baseHi : UInt8

/-- The packed layout. -/
def GdtEntry.bytes (e : GdtEntry) : Fin 8 → UInt8 :=
  ![half e.limitLo 0, half e.limitLo 1, half e.baseLo 0, half e.baseLo 1, e.baseMid, e.access, e.gran, e.baseHi]

/-- `set_gate` of `gdt.c`, on the entry that it fills. -/
def gdtGate (base limit : UInt32) (access gran : UInt8) : GdtEntry where
  baseLo := (base &&& 0xFFFF).toUInt16
  baseMid := ((base >>> 16) &&& 0xFF).toUInt8
  baseHi := ((base >>> 24) &&& 0xFF).toUInt8
  limitLo := (limit &&& 0xFFFF).toUInt16
  gran := (((limit >>> 16) &&& 0x0F) ||| (gran.toUInt32 &&& 0xF0)).toUInt8
  access := access

/-- `idt_entry_t`. -/
structure IdtEntry where
  baseLo : UInt16
  sel : UInt16
  zero : UInt8
  flags : UInt8
  baseHi : UInt16

/-- The packed layout. -/
def IdtEntry.bytes (e : IdtEntry) : Fin 8 → UInt8 :=
  ![half e.baseLo 0, half e.baseLo 1, half e.sel 0, half e.sel 1, e.zero, e.flags, half e.baseHi 0, half e.baseHi 1]

/-- The entry that `idt_set_gate` fills in. -/
def idtGate (base : UInt32) (sel : UInt16) (flags : UInt8) : IdtEntry where
  baseLo := (base &&& 0xFFFF).toUInt16
  baseHi := ((base >>> 16) &&& 0xFFFF).toUInt16
  sel := sel
  zero := 0
  flags := flags

/-! ## Entry code -/

/-- `isr_common` and `irq_common` up to the call: the registers are saved, the data segment of
the kernel is loaded. -/
def saveRegisters : List Instr :=
  [.pusha, .movAxSeg .ds, .pushEax, .movAxImm 0x10, .movSegAx .ds, .movSegAx .es, .movSegAx .fs, .movSegAx .gs, .pushEsp]

/-- What comes after the call. -/
def restoreRegisters : List Instr :=
  [.dropWords 1, .popEax, .movSegAx .ds, .movSegAx .es, .movSegAx .fs, .movSegAx .gs, .popa, .dropWords 2, .iret]

/-- `isr_common` and `irq_common`, which differ in the function called. -/
def common : List Instr := saveRegisters ++ [.call] ++ restoreRegisters

/-- `ISR_NOERR`: a zero in the place of the error code. -/
def isrNoErr (v : UInt32) : List Instr := [.cli, .pushImm 0, .pushImm v] ++ common

/-- `ISR_ERR`: the processor has pushed the error code. -/
def isrErr (v : UInt32) : List Instr := [.cli, .pushImm v] ++ common

/-- `IRQ`. -/
def irqStub (v : UInt32) : List Instr := [.cli, .pushImm 0, .pushImm v] ++ common

/-- The vectors of `ISR_ERR`. -/
def hasErrorCode (v : ℕ) : Bool := v ∈ [8, 10, 11, 12, 13, 14, 17, 30]

/-- `isr0` .. `isr31`. -/
def isrStub (v : Fin 32) : List Instr :=
  if hasErrorCode v then isrErr (UInt32.ofNat v) else isrNoErr (UInt32.ofNat v)

/-- `registers_t`, up to what the processor pushes without a change of privilege. -/
structure Registers where
  ds : UInt32
  edi : UInt32
  esi : UInt32
  ebp : UInt32
  esp : UInt32
  ebx : UInt32
  edx : UInt32
  ecx : UInt32
  eax : UInt32
  intNo : UInt32
  errCode : UInt32
  eip : UInt32
  cs : UInt32
  eflags : UInt32

/-- The structure in the words of memory. -/
def Registers.ofWords : List UInt32 → Option Registers
  | ds :: edi :: esi :: ebp :: esp :: ebx :: edx :: ecx :: eax :: intNo :: errCode :: eip :: cs :: eflags :: _ =>
    some { ds, edi, esi, ebp, esp, ebx, edx, ecx, eax, intNo, errCode, eip, cs, eflags }
  | _ => none

/-! ## State -/

/-- The functions that are registered as handlers. -/
inductive IsrFn
  | onTick
  | kbdHandler
  deriving DecidableEq

/-- `gdt`, `idt`, `interrupt_handlers`, `ticks`, the state of the keyboard driver, the byte at
port 0x60, and what was written to the ports. -/
structure Kernel where
  gdt : Fin 3 → GdtEntry
  idt : Fin 256 → IdtEntry
  interruptHandlers : Fin 256 → Option IsrFn
  ticks : UInt32
  kbd : Kbd
  data60 : UInt8
  out : List PortOut

/-- `port_byte_out`. -/
def Kernel.portByteOut (k : Kernel) (port : UInt16) (data : UInt8) : Kernel :=
  { k with out := k.out ++ [.byte port data] }

/-- `on_tick`, and `kbd_handler` with its reading of the port. -/
def IsrFn.call (k : Kernel) : IsrFn → Option Kernel
  | onTick => some { k with ticks := k.ticks + 1 }
  | kbdHandler => do
    let kbd ← DahleOS.kbdHandler k.kbd k.data60
    return { k with kbd }

/-- `if (interrupt_handlers[r->int_no]) interrupt_handlers[r->int_no](r);`, where `other` is what
is done without a handler. -/
def callHandler (r : Registers) (k : Kernel) (other : Option Kernel) : Option Kernel := do
  match ← rd k.interruptHandlers r.intNo.toNat with
  | some fn => fn.call k
  | none => other

/-- `irq_handler`. -/
def irqHandler (r : Registers) (k : Kernel) : Option Kernel :=
  let k := if 40 ≤ r.intNo then k.portByteOut 0xA0 0x20 else k
  let k := k.portByteOut 0x20 0x20
  callHandler r k (some k)

/-- `isr_handler`. Without a handler it prints `panicText` and does not return. -/
def isrHandler (r : Registers) (k : Kernel) : Option Kernel := callHandler r k none

/-! ## The panic screen -/

/-- `uint_to_hex`. -/
def uintToHex (n : UInt32) : Str :=
  let h := str "0123456789ABCDEF"
  str "0x" ++ (List.range 8).filterMap fun i => h[((n >>> (28 - UInt32.ofNat i * 4)) &&& 0xF).toNat]?

/-- `exc_name`. -/
def excName : List String :=
  ["Divide-by-Zero", "Debug", "NMI",
    "Breakpoint", "Overflow", "Bound Range",
    "Invalid Opcode", "No FPU", "Double Fault",
    "FPU Seg Overrun", "Invalid TSS", "Segment Not Present",
    "Stack Fault", "General Protection", "Page Fault",
    "Reserved", "x87 FP Error", "Alignment Check",
    "Machine Check", "SIMD FP", "Reserved",
    "Reserved", "Reserved", "Reserved", "Reserved", "Reserved",
    "Reserved", "Reserved", "Reserved", "Reserved",
    "Security Exception", "Reserved"]

/-- A dash between spaces, in UTF-8. -/
def enDash : Str := [sp, ⟨0xE2, by decide⟩, ⟨0x80, by decide⟩, ⟨0x93, by decide⟩, sp]

/-- What `isr_handler` prints. -/
def panicText (r : Registers) : Str :=
  str "\n\n  *** KERNEL PANIC ***\n" ++ str "  Exception #" ++ intToStr r.intNo.toInt32 ++
  enDash ++
  (if r.intNo < 32 then str (excName.getD r.intNo.toNat "") else []) ++
  str "\n  EIP=" ++ uintToHex r.eip ++ str "  ERR=" ++ uintToHex r.errCode ++ str "\n\n  System halted.\n"

/-! ## Installation -/

/-- The addresses of `isr0` .. `isr31` and `irq0` .. `irq15`. -/
structure Symbols where
  isr : Fin 32 → UInt32
  irq : Fin 16 → UInt32

/-- `gdt_install`: the null descriptor, ring-0 code, ring-0 data. -/
def gdtInstall (k : Kernel) : Kernel :=
  { k with gdt := ![gdtGate 0 0 0 0, gdtGate 0 0xFFFFFFFF 0x9A 0xCF, gdtGate 0 0xFFFFFFFF 0x92 0xCF] }

/-- `gdt_flush`: the segment registers, with the new table. -/
def gdtFlush (c : Cpu) : Cpu := { c with seg := fun s => if s = .cs then 0x08 else 0x10 }

/-- `idt_set_gate`. -/
def idtSetGate (k : Kernel) (n : Fin 256) (base : UInt32) (sel : UInt16) (flags : UInt8) : Kernel :=
  { k with idt := Function.update k.idt n (idtGate base sel flags) }

/-- `idt_install`: `memset(idt, 0, sizeof(idt))`. -/
def idtInstall (k : Kernel) : Kernel := { k with idt := fun _ => ⟨0, 0, 0, 0, 0⟩ }

/-- `isr_install`. -/
def isrInstall (sym : Symbols) (k : Kernel) : Kernel :=
  (List.finRange 32).foldl (fun k n => idtSetGate k (n.castLE (by decide)) (sym.isr n) 0x08 0x8E)
    { k with interruptHandlers := fun _ => none }

/-- `register_interrupt_handler`. -/
def registerInterruptHandler (k : Kernel) (n : Fin 256) (fn : IsrFn) : Kernel :=
  { k with interruptHandlers := Function.update k.interruptHandlers n (some fn) }

/-- `pic_remap`: the writes to the ports of the two controllers. -/
def picRemap : List PortOut :=
  [.byte 0x20 0x11, .byte 0xA0 0x11, .byte 0x21 0x20, .byte 0xA1 0x28, .byte 0x21 0x04, .byte 0xA1 0x02,
    .byte 0x21 0x01, .byte 0xA1 0x01, .byte 0x21 0x00, .byte 0xA1 0x00]

/-- The vector of `irq n`. -/
def irqVector (n : Fin 16) : Fin 256 := ⟨32 + n, by omega⟩

/-- `irq_install`. -/
def irqInstall (sym : Symbols) (k : Kernel) : Kernel :=
  (List.finRange 16).foldl (fun k n => idtSetGate k (irqVector n) (sym.irq n) 0x08 0x8E) { k with out := k.out ++ picRemap }

/-- `timer_install`. -/
def timerInstall (hz : UInt32) (k : Kernel) : Kernel :=
  let hz := if hz = 0 then 1 else hz
  let k := registerInterruptHandler k (irqVector 0) .onTick
  let div := 1193180 / hz
  ((k.portByteOut 0x43 0x36).portByteOut 0x40 (div &&& 0xFF).toUInt8).portByteOut 0x40 (div >>> 8).toUInt8

/-- `keyboard_install`. -/
def keyboardInstall (k : Kernel) : Kernel := registerInterruptHandler k (irqVector 1) .kbdHandler

/-- The hardware part of `kmain`. -/
def kmainInstall (sym : Symbols) (k : Kernel) : Kernel :=
  keyboardInstall (timerInstall 100 (irqInstall sym (isrInstall sym (idtInstall (gdtInstall k)))))

/-! ## The computer -/

/-- The entry code at an address, and the C function that it calls. -/
def Symbols.codeAt (sym : Symbols) (addr : UInt32) : Option (List Instr × (Registers → Kernel → Option Kernel)) :=
  match (List.finRange 32).find? fun v => sym.isr v = addr with
  | some v => some (isrStub v, isrHandler)
  | none => ((List.finRange 16).find? fun n => sym.irq n = addr).map fun n : Fin 16 => (irqStub (UInt32.ofNat (32 + n)), irqHandler)

/-- The processor takes the interrupt `v`: the gate and its segment, the code that is entered, and
the processor there. -/
def Symbols.enter (sym : Symbols) (v : Fin 256) (error : Option UInt32) (p : Cpu × Kernel) :
    Option ((List Instr × (Registers → Kernel → Option Kernel)) × Cpu) := do
  let gate := Gate.ofBytes (p.2.idt v).bytes
  let entry ← rd p.2.gdt (gate.selector.toNat / 8)
  if gate.present ∧ gate.kind = Gate.interrupt32 ∧ (Segment.ofBytes entry.bytes).executable then
    return (← sym.codeAt gate.offset, p.1.interrupt gate.selector gate.offset error)
  else none

/-- **An interrupt is delivered**, from the look into the tables to the end of the `iret`. -/
def deliver (sym : Symbols) (scratch : Cpu → Kernel → Scratch) (v : Fin 256) (error : Option UInt32) (p : Cpu × Kernel) :
    Option (Cpu × Kernel) := do
  let ((code, handler), c) ← sym.enter v error p
  runCode ⟨fun words k => do handler (← Registers.ofWords words) k, scratch⟩ code (c, p.2)

/-- What `isr_handler` leaves on the screen if it does not return. Its argument is what the code
gives to a function that keeps it. -/
def panicScreen (sym : Symbols) (v : Fin 256) (error : Option UInt32) (p : Cpu × Kernel) : Option Str := do
  let ((code, _), c) ← sym.enter v error p
  let (_, words) ← runCode ⟨fun words _ => some words, fun c _ => ⟨c.eax, c.ecx, c.edx, c.eflags, 0⟩⟩ code (c, [])
  let r ← Registers.ofWords words
  if (isrHandler r p.2).isNone then some (panicText r) else none

/-- The computer with the program that runs on it, which is somewhere in `keyboard_getchar`,
and what that has returned. -/
structure Computer where
  cpu : Cpu
  kernel : Kernel
  reader : Getchar
  returned : List UInt8

/-- What happens next: the program changes registers and stack, `keyboard_getchar` makes a step,
or a line `n` of the interrupt controllers is raised, with this byte at port 0x60. -/
inductive Event
  | compute (f : Cpu → Cpu)
  | getchar
  | line (n : Fin 16) (data : UInt8) (scratch : Cpu → Kernel → Scratch)

/-- **One step.** A line is only taken when interrupts are on. -/
def Computer.step (sym : Symbols) (m : Computer) : Event → Option Computer
  | .compute f => some { m with cpu := f m.cpu }
  | .getchar => do
    let (reader, kbd, c) ← keyboardGetchar m.kernel.kbd m.reader
    return { m with kernel := { m.kernel with kbd }, reader, returned := m.returned ++ c.toList }
  | .line n data scratch =>
    if m.cpu.interruptible then do
      let (cpu, kernel) ← deliver sym scratch (irqVector n) none (m.cpu, { m.kernel with data60 := data })
      return { m with cpu, kernel }
    else none

end DahleOS
