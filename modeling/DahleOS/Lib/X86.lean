import Mathlib.Data.List.Basic
import Mathlib.Logic.Function.Basic

/-!
# Interrupts of a 32-bit x86

The part of the machine that the entry code of an interrupt uses: the registers, the words on
the stack, what the processor does when an interrupt comes, and the instructions that save
the registers, call a function of C and go back. Everything runs at one privilege level.

* `Instr.exec`, `runCode`: one instruction, and straight-line code.
* `Cpu.interrupt`: an interrupt gate is taken.
* `Callee`: a compiled function, which may leave anything in the registers that are not its
  caller's.
* `popa_of_pusha`, `iret_of_interrupt`: what is taken from the stack is what was put there, whatever
  was done in between.
-/

namespace X86

/-- Segment registers. -/
inductive Seg
  | cs | ss | ds | es | fs | gs
  deriving DecidableEq

/-- The registers, and the words from `esp` upwards. -/
structure Cpu where
  eax : UInt32
  ecx : UInt32
  edx : UInt32
  ebx : UInt32
  esp : UInt32
  ebp : UInt32
  esi : UInt32
  edi : UInt32
  eip : UInt32
  eflags : UInt32
  seg : Seg → UInt16
  stack : List UInt32

namespace Cpu

variable (c : Cpu)

def push (v : UInt32) : Cpu := { c with esp := c.esp - 4, stack := v :: c.stack }

/-- The word at `esp`, and the processor without it. -/
def pop : Option (UInt32 × Cpu) :=
  match c.stack with
  | v :: rest => some (v, { c with esp := c.esp + 4, stack := rest })
  | [] => none

/-- `mov s, v`. -/
def setSeg (s : Seg) (v : UInt16) : Cpu := { c with seg := Function.update c.seg s v }

/-- `IF`: interrupts are taken. -/
def interruptible : Bool := c.eflags &&& 0x200 ≠ 0

/-- The exceptions that come with an error code: double fault (8), from the invalid TSS (10) to the
page fault (14), alignment check (17) and security exception (30). Extensions that have to be turned
on add two more, which are left out here. -/
def pushesErrorCode (v : ℕ) : Bool := v = 8 ∨ 10 ≤ v ∧ v ≤ 14 ∨ v = 17 ∨ v = 30

/-- An interrupt gate: the flags, the place and the error code, if the vector has one, go onto
the stack, and `TF`, `IF`, `NT`, `RF` and `VM` are cleared. -/
def interrupt (selector : UInt16) (entry : UInt32) (error : Option UInt32) : Cpu :=
  let c' := ((c.push c.eflags).push (c.seg .cs).toUInt32).push c.eip
  let c' := match error with
    | none => c'
    | some e => c'.push e
  { c' with eflags := c.eflags &&& ~~~0x34300, eip := entry, seg := Function.update c.seg .cs selector }

/-- `pusha`. -/
def pusha : Cpu :=
  let esp := c.esp
  (((((((c.push c.eax).push c.ecx).push c.edx).push c.ebx).push esp).push c.ebp).push c.esi).push c.edi

/-- `popa`. The word in the place of `esp` is passed over. -/
def popa : Option Cpu := do
  let (edi, c) ← c.pop
  let (esi, c) ← c.pop
  let (ebp, c) ← c.pop
  let (_, c) ← c.pop
  let (ebx, c) ← c.pop
  let (edx, c) ← c.pop
  let (ecx, c) ← c.pop
  let (eax, c) ← c.pop
  return { c with edi, esi, ebp, ebx, edx, ecx, eax }

/-- `iret` to the same privilege level. -/
def iret : Option Cpu := do
  let (eip, c) ← c.pop
  let (cs, c) ← c.pop
  let (eflags, c) ← c.pop
  return { c with eip, eflags, seg := Function.update c.seg .cs cs.toUInt16 }

end Cpu

/-- What a function leaves in the registers that it may use, and in its argument. -/
structure Scratch where
  eax : UInt32
  ecx : UInt32
  edx : UInt32
  eflags : UInt32
  arg : UInt32

/-- A function of one pointer, under the C calling convention: what it does to the data, by the
words that the pointer points to, and what it leaves behind. It does not write through the
pointer. Without a result it does not return. -/
structure Callee (σ : Type) where
  effect : List UInt32 → σ → Option σ
  scratch : Cpu → σ → Scratch

/-- Instructions. -/
inductive Instr
  | cli
  | pushImm (v : UInt32)
  | pushEax
  | pushEsp
  | popEax
  | pusha
  | popa
  | movAxImm (v : UInt16)
  | movAxSeg (s : Seg)
  | movSegAx (s : Seg)
  /-- `add esp, 4 * words`. -/
  | dropWords (words : ℕ)
  /-- `call` of the function of the code. -/
  | call
  | iret

variable {σ : Type} {f : Callee σ} {p : Cpu × σ}

/-- The low 16 bits of `eax`. -/
def withAx (eax : UInt32) (v : UInt16) : UInt32 := eax &&& 0xFFFF0000 ||| v.toUInt32

/-- The call, if the argument points to the words above it. -/
def Callee.call (f : Callee σ) : Cpu × σ → Option (Cpu × σ)
  | (c, d) =>
    match c.stack with
    | ptr :: frame =>
      if ptr = c.esp + 4 then do
        let d' ← f.effect frame d
        let s := f.scratch c d
        return ({ c with eax := s.eax, ecx := s.ecx, edx := s.edx, eflags := s.eflags, stack := s.arg :: frame }, d')
      else none
    | [] => none

/-- **One instruction.** -/
def Instr.exec (f : Callee σ) : Instr → Cpu × σ → Option (Cpu × σ)
  | cli, (c, d) => some ({ c with eflags := c.eflags &&& ~~~0x200 }, d)
  | pushImm v, (c, d) => some (c.push v, d)
  | pushEax, (c, d) => some (c.push c.eax, d)
  | pushEsp, (c, d) => some (c.push c.esp, d)
  | popEax, (c, d) => c.pop.map fun r => ({ r.2 with eax := r.1 }, d)
  | pusha, (c, d) => some (c.pusha, d)
  | popa, (c, d) => c.popa.map (·, d)
  | movAxImm v, (c, d) => some ({ c with eax := withAx c.eax v }, d)
  | movAxSeg s, (c, d) => some ({ c with eax := withAx c.eax (c.seg s) }, d)
  | movSegAx s, (c, d) => some (c.setSeg s c.eax.toUInt16, d)
  | dropWords n, (c, d) =>
    if n ≤ c.stack.length then some ({ c with esp := c.esp + 4 * UInt32.ofNat n, stack := c.stack.drop n }, d) else none
  | call, p => f.call p
  | iret, (c, d) => c.iret.map (·, d)

/-- Straight-line code. -/
def runCode (f : Callee σ) (code : List Instr) (p : Cpu × σ) : Option (Cpu × σ) := code.foldlM (fun p i => i.exec f p) p

@[simp] theorem runCode_nil : runCode f [] p = some p := rfl

theorem runCode_cons (i : Instr) (code : List Instr) : runCode f (i :: code) p = (i.exec f p).bind (runCode f code) := rfl

/-- **Code after code.** -/
theorem runCode_append (a b : List Instr) : runCode f (a ++ b) p = (runCode f a p).bind (runCode f b) := List.foldlM_append ..

/-! ## Rules -/

@[simp] theorem withAx_toUInt16 (eax : UInt32) (v : UInt16) : (withAx eax v).toUInt16 = v := by
  apply UInt16.toNat_inj.1
  have hv := v.toNat_lt
  unfold withAx
  rw [UInt32.toNat_toUInt16, UInt32.toNat_or, UInt32.toNat_and, UInt16.toNat_toUInt32, Nat.or_mod_two_pow,
    Nat.and_mod_two_pow]
  have hmask : (0xFFFF0000 : UInt32).toNat % 2 ^ 16 = 0 := by decide
  rw [hmask, Nat.and_zero, Nat.zero_or, Nat.mod_eq_of_lt hv]

variable {c e : Cpu} {d : σ}

/-- **A call**: the data changes, and the registers that the function may use. -/
theorem Callee.call_eq {ptr : UInt32} {frame : List UInt32} (hstack : c.stack = ptr :: frame) (hptr : ptr = c.esp + 4) :
    f.call (c, d) = (f.effect frame d).map fun d' => ({ c with
      eax := (f.scratch c d).eax, ecx := (f.scratch c d).ecx, edx := (f.scratch c d).edx
      eflags := (f.scratch c d).eflags, stack := (f.scratch c d).arg :: frame }, d') := by
  simp only [call, hstack]
  exact (if_pos hptr).trans (Option.map_eq_bind ..).symm

/-- **`popa` undoes `pusha`**, when the stack is as it was left. -/
theorem Cpu.popa_of_pusha (hesp : e.esp = c.pusha.esp) (hstack : e.stack = c.pusha.stack) :
    e.popa = some { e with
      eax := c.eax, ecx := c.ecx, edx := c.edx, ebx := c.ebx, ebp := c.ebp, esi := c.esi, edi := c.edi
      esp := c.esp, stack := c.stack } := by
  have hwords : e.stack = c.edi :: c.esi :: c.ebp :: c.esp :: c.ebx :: c.edx :: c.ecx :: c.eax :: c.stack := hstack
  have hback : e.esp + 4 + 4 + 4 + 4 + 4 + 4 + 4 + 4 = c.esp := by
    rw [hesp]
    simp only [pusha, push, UInt32.sub_add_cancel]
  unfold popa pop
  simp only [hwords, Option.bind_eq_bind, Option.bind_some, Option.pure_def, hback]

/-- **`iret` undoes the interrupt**, when the stack is as it was left. -/
theorem Cpu.iret_of_interrupt {selector : UInt16} {entry : UInt32} (hesp : e.esp = (c.interrupt selector entry none).esp)
    (hstack : e.stack = (c.interrupt selector entry none).stack) :
    e.iret = some { e with
      eip := c.eip, eflags := c.eflags, seg := Function.update e.seg .cs (c.seg .cs), esp := c.esp, stack := c.stack } := by
  have hwords : e.stack = c.eip :: (c.seg .cs).toUInt32 :: c.eflags :: c.stack := hstack
  have hback : e.esp + 4 + 4 + 4 = c.esp := by
    rw [hesp]
    simp only [interrupt, push, UInt32.sub_add_cancel]
  unfold iret pop
  simp only [hwords, Option.bind_eq_bind, Option.bind_some, Option.pure_def, hback, UInt16.toUInt16_toUInt32]

end X86
