import DahleOS.Model.Interrupts

/-!
# The entry code of interrupts

The stubs of `isr.asm` and `irq.asm` save the registers, call a C function with a pointer to
them, and restore them.

* `saveRegisters_run`, `restoreRegisters_run`: the two parts of the common code.
* `entered_run`: from the common code to the `iret`.
* `stubs_transparent`: every one of the 48 stubs shows its function the interrupted registers,
  with interrupts off, and goes back to the program with these registers.
-/

namespace DahleOS

open X86

variable {σ : Type} {f : Callee σ} {c e : Cpu} {d : σ} {v err ip fl : UInt32} {cs : UInt16} {rest : List UInt32}

/-- The words that the entry code saves. -/
def savedWords (c : Cpu) : List UInt32 :=
  [withAx c.eax (c.seg .ds), c.edi, c.esi, c.ebp, c.esp, c.ebx, c.edx, c.ecx, c.eax]

/-- One selector in the four registers of data segments. -/
def dataSegments (v : UInt16) (seg : Seg → UInt16) : Seg → UInt16
  | .cs => seg .cs
  | .ss => seg .ss
  | _ => v

theorem update_segments (v : UInt16) (seg : Seg → UInt16) : Function.update (Function.update (Function.update
    (Function.update seg .ds v) .es v) .fs v) .gs v = dataSegments v seg := by
  funext s
  cases s <;> rfl

/-- The processor at the call. -/
def called (c : Cpu) : Cpu :=
  { c with
    eax := withAx (withAx c.eax (c.seg .ds)) 0x10
    seg := dataSegments 0x10 c.seg
    esp := c.pusha.esp - 4 - 4
    stack := (c.pusha.esp - 4) :: savedWords c ++ c.stack }

/-- The processor at the `iret`. -/
def restored (c : Cpu) (eflags : UInt32) (rest : List UInt32) : Cpu :=
  { c with eflags, seg := dataSegments (c.seg .ds) c.seg, esp := c.esp + 4 * UInt32.ofNat 2, stack := rest }

/-- **Up to the call.** -/
theorem saveRegisters_run (c : Cpu) (d : σ) : runCode f saveRegisters (c, d) = some (called c, d) := by
  simp only [called, saveRegisters, runCode_cons, runCode_nil, Instr.exec, Option.bind_some, Cpu.setSeg, Cpu.push, withAx_toUInt16]
  simp only [update_segments, savedWords, Cpu.pusha, Cpu.push, List.cons_append, List.nil_append]

/-- **From the call on**, with the stack as it was before it. -/
theorem restoreRegisters_run {arg : UInt32} (hesp : e.esp = c.pusha.esp - 4 - 4) (hstack : e.stack = arg :: savedWords c ++ c.stack)
    (hwords : c.stack = v :: err :: rest) : runCode f restoreRegisters (e, d) =
      (({ e with
        eax := c.eax, ecx := c.ecx, edx := c.edx, ebx := c.ebx, ebp := c.ebp, esi := c.esi, edi := c.edi
        seg := dataSegments (c.seg .ds) e.seg
        esp := c.esp + 4 * UInt32.ofNat 2
        stack := rest } : Cpu).iret).map (·, d) := by
  have hargs : e.stack = arg :: withAx c.eax (c.seg .ds) :: c.pusha.stack := hstack
  have hsaved : e.esp + 4 * UInt32.ofNat 1 + 4 = c.pusha.esp := by
    rw [hesp]
    exact (congrArg (· + 4) (UInt32.sub_add_cancel ..)).trans (UInt32.sub_add_cancel ..)
  simp only [restoreRegisters, runCode_cons, Instr.exec, hargs, List.length_cons, List.drop_succ_cons, List.drop_zero, Cpu.pop,
    if_pos (Nat.le_add_left 1 _), Option.bind_some, Option.map_some, Cpu.setSeg, hsaved, withAx_toUInt16, update_segments]
  have hpopa := Cpu.popa_of_pusha (c := c) (e := { e with
    eax := withAx c.eax (c.seg .ds), esp := c.pusha.esp, seg := dataSegments (c.seg .ds) e.seg, stack := c.pusha.stack }) rfl rfl
  rw [hpopa]
  simp only [Option.map_some, Option.bind_some, runCode_cons, Instr.exec, hwords, List.length_cons, List.drop_succ_cons, List.drop_zero,
    if_pos (Nat.le_add_left 2 _), runCode_nil]
  exact Option.bind_fun_some _

/-- **The common code.** -/
theorem common_run (hwords : c.stack = v :: err :: rest) : runCode f common (c, d) =
    (f.effect (savedWords c ++ c.stack) d).bind fun d' => (restored c (f.scratch (called c) d).eflags rest).iret.map (·, d') := by
  have hstack : (called c).stack = (c.pusha.esp - 4) :: (savedWords c ++ c.stack) := List.cons_append ..
  unfold common
  rw [runCode_append, runCode_append, saveRegisters_run, Option.bind_some, runCode_cons, Instr.exec,
    Callee.call_eq hstack (UInt32.sub_add_cancel ..).symm]
  cases f.effect (savedWords c ++ c.stack) d with
  | none => rfl
  | some d' =>
    simp only [Option.map_some, Option.bind_some, runCode_nil]
    rw [restoreRegisters_run (c := c) rfl rfl hwords]
    rfl

/-! ## From the interrupt to its end -/

variable {selector : UInt16} {entry : UInt32}

/-- The interrupted processor, with the selector of `ds` in `es`, `fs` and `gs`. -/
def resumed (c : Cpu) : Cpu := { c with seg := dataSegments (c.seg .ds) c.seg }

/-- The structure that the C function finds at its pointer. -/
def savedRegisters (c : Cpu) (v err : UInt32) : Registers where
  ds := withAx c.eax (c.seg .ds)
  edi := c.edi
  esi := c.esi
  ebp := c.ebp
  esp := c.esp - 4 - 4 - 4 - 4 - 4
  ebx := c.ebx
  edx := c.edx
  ecx := c.ecx
  eax := c.eax
  intNo := v
  errCode := err
  eip := c.eip
  cs := (c.seg .cs).toUInt32
  eflags := c.eflags

/-- The words of that structure, and the stack of the interrupted program behind them. -/
def frameWords (c : Cpu) (v err : UInt32) : List UInt32 :=
  [withAx c.eax (c.seg .ds), c.edi, c.esi, c.ebp, c.esp - 4 - 4 - 4 - 4 - 4, c.ebx, c.edx, c.ecx, c.eax, v, err, c.eip,
    (c.seg .cs).toUInt32, c.eflags] ++ c.stack

theorem ofWords_frameWords (c : Cpu) (v err : UInt32) : Registers.ofWords (frameWords c v err) = some (savedRegisters c v err) :=
  rfl

/-- The processor at the common code: interrupts are off, and vector and error code are on the
stack. -/
def entered (selector : UInt16) (entry : UInt32) (c : Cpu) (v err : UInt32) : Cpu :=
  let i := c.interrupt selector entry none
  { (i.push err).push v with eflags := i.eflags &&& ~~~0x200 }

theorem error_run (code : List Instr) : runCode f ([.cli, .pushImm v] ++ code) (c.interrupt selector entry (some err), d) =
    runCode f code (entered selector entry c v err, d) := by
  have hpush : Cpu.push { c.interrupt selector entry (some err) with
      eflags := (c.interrupt selector entry (some err)).eflags &&& ~~~0x200 } v = entered selector entry c v err := by
    simp only [entered, Cpu.interrupt, Cpu.push]
  rw [runCode_append, runCode_cons, Instr.exec, Option.bind_some, runCode_cons, Instr.exec, Option.bind_some, runCode_nil, Option.bind_some,
    hpush]

theorem noError_run (code : List Instr) : runCode f ([.cli, .pushImm 0, .pushImm v] ++ code) (c.interrupt selector entry none, d) =
    runCode f code (entered selector entry c v 0, d) := by
  have hpush : ((Cpu.push { c.interrupt selector entry none with
      eflags := (c.interrupt selector entry none).eflags &&& ~~~0x200 } 0).push v) = entered selector entry c v 0 := by
    simp only [entered, Cpu.interrupt, Cpu.push]
  rw [runCode_append, runCode_cons, Instr.exec, Option.bind_some, runCode_cons, Instr.exec, Option.bind_some, runCode_cons, Instr.exec,
    Option.bind_some, runCode_nil, Option.bind_some, hpush]

theorem entered_seg : (entered selector entry c v err).seg = Function.update c.seg .cs selector := by
  simp only [entered, Cpu.interrupt, Cpu.push]

theorem entered_not_interruptible : (entered selector entry c v err).interruptible = false := by
  have hoff (x : UInt32) : x &&& ~~~0x200 &&& 0x200 = 0 := by
    have hmask : (~~~0x200 &&& 0x200 : UInt32) = 0 := by decide
    rw [UInt32.and_assoc, hmask, UInt32.and_zero]
  simp only [Cpu.interruptible, entered, hoff, ne_eq, not_true_eq_false, decide_false]

theorem entered_words : savedWords (entered selector entry c v err) ++ (entered selector entry c v err).stack =
    frameWords c v err := by
  have hds : (entered selector entry c v err).seg .ds = c.seg .ds := by
    rw [entered_seg]
    exact Function.update_of_ne (by decide) _ _
  simp only [savedWords, hds]
  simp only [entered, Cpu.interrupt, Cpu.push, frameWords, List.cons_append, List.nil_append]

/-- **From the common code to the end of the interrupt**: the C function has seen the registers,
and the program goes on with them. -/
theorem entered_run : runCode f common (entered selector entry c v err, d) =
    (f.effect (frameWords c v err) d).map (resumed c, ·) := by
  have hwords : (entered selector entry c v err).stack = v :: err :: (c.interrupt selector entry none).stack := by
    simp only [entered, Cpu.push]
  have height : 4 * UInt32.ofNat 2 = 4 + 4 := by decide
  have hesp : (entered selector entry c v err).esp + 4 * UInt32.ofNat 2 = (c.interrupt selector entry none).esp := by
    simp only [entered, Cpu.push, height, ← UInt32.add_assoc, UInt32.sub_add_cancel]
  have hsegs : Function.update (dataSegments ((entered selector entry c v err).seg .ds) (entered selector entry c v err).seg) .cs
      (c.seg .cs) = dataSegments (c.seg .ds) c.seg := by
    rw [entered_seg]
    funext s
    cases s <;> rfl
  rw [common_run hwords, entered_words]
  cases f.effect (frameWords c v err) d with
  | none => rfl
  | some d' =>
    have hiret := Cpu.iret_of_interrupt (e := restored (entered selector entry c v err)
      (f.scratch (called (entered selector entry c v err)) d).eflags (c.interrupt selector entry none).stack) hesp rfl
    rw [Option.bind_some, Option.map_some, hiret, Option.map_some]
    simp only [restored, hsegs]
    simp only [resumed, entered, Cpu.interrupt, Cpu.push]

/-- **The code is transparent** for the interrupt `v` with this error code on the stack, whatever
its C function does: the call is made with interrupts off and the data segments of the kernel;
the function finds the registers of the program, vector and error code in the structure; and if
it returns, the program goes on where it was, with all its registers and its stack. -/
def Transparent (code : List Instr) (v : UInt32) (error : Option UInt32) : Prop :=
  ∀ {σ : Type} (f : Callee σ) (c : Cpu) (d : σ) (selector : UInt16) (entry : UInt32),
    (∃ pre c', code = pre ++ .call :: restoreRegisters ∧ runCode f pre (c.interrupt selector entry error, d) = some (c', d) ∧
      c'.interruptible = false ∧ c'.seg = dataSegments 0x10 (Function.update c.seg .cs selector)) ∧
    ∃ words, Registers.ofWords words = some (savedRegisters c v (error.getD 0)) ∧
      runCode f code (c.interrupt selector entry error, d) = (f.effect words d).map (resumed c, ·)

/-- Code that begins with `cli` and gets to the common code. -/
theorem transparent_of {pre : List Instr} {error : Option UInt32}
    (h : ∀ {σ : Type} (f : Callee σ) (c : Cpu) (d : σ) (selector : UInt16) (entry : UInt32) (code : List Instr),
      runCode f (pre ++ code) (c.interrupt selector entry error, d) =
        runCode f code (entered selector entry c v (error.getD 0), d)) : Transparent (pre ++ common) v error := by
  intro σ f c d selector entry
  refine ⟨⟨pre ++ saveRegisters, called (entered selector entry c v (error.getD 0)), ?_, ?_, ?_, ?_⟩, _,
    ofWords_frameWords c v (error.getD 0), ?_⟩
  · simp only [common, List.append_assoc, List.singleton_append]
  · rw [h, saveRegisters_run]
  · have hoff : (entered selector entry c v (error.getD 0)).interruptible = false := entered_not_interruptible
    exact hoff
  · simp only [called, entered_seg]
  · rw [h, entered_run]

theorem irqStub_transparent (v : UInt32) : Transparent (irqStub v) v none :=
  transparent_of fun _ _ _ _ _ code => noError_run code

/-- What the processor pushes for an exception. -/
def errorOf (v : Fin 32) (err : UInt32) : Option UInt32 := if Cpu.pushesErrorCode v then some err else none

/-- The stubs that take an error code are those of the exceptions that come with one. -/
theorem hasErrorCode_eq (v : Fin 32) : hasErrorCode v = Cpu.pushesErrorCode v := by decide +revert

theorem isrStub_transparent (v : Fin 32) (err : UInt32) : Transparent (isrStub v) (UInt32.ofNat v) (errorOf v err) := by
  unfold isrStub errorOf
  rw [hasErrorCode_eq]
  split
  · exact transparent_of fun _ _ _ _ _ code => error_run code
  · exact transparent_of fun _ _ _ _ _ code => noError_run code

/-- **Interrupts are transparent**: the 32 stubs for exceptions, with the error codes that their
vectors have, and the 16 stubs for the interrupt lines. -/
theorem stubs_transparent :
    (∀ (v : Fin 32) (err : UInt32), Transparent (isrStub v) (UInt32.ofNat v) (errorOf v err)) ∧
    ∀ n : Fin 16, Transparent (irqStub (UInt32.ofNat (32 + n))) (UInt32.ofNat (32 + n)) none :=
  ⟨isrStub_transparent, fun _ => irqStub_transparent _⟩

end DahleOS
