import DahleOS.Proof.InterruptRun

/-!
# The panic screen

An exception has no handler: its function prints and does not return.

* `uintToHex_injective`: eight digits name one number.
* `panicText_injective`: the vector, the place and the error code can be read from the screen.
* `exception_panics`: every exception, in every state of a run, ends on that screen.
-/

namespace DahleOS

open CArray Descriptor PartialRun X86

/-! ## Hexadecimal -/

/-- A digit. -/
def hexCh (d : ℕ) : Ch := (str "0123456789ABCDEF").getD d sp

theorem hexCh_injective {a b : ℕ} (ha : a < 16) (hb : b < 16) (h : hexCh a = hexCh b) : a = b := by
  have hall : ∀ a b : Fin 16, hexCh a = hexCh b → a = b := by decide +kernel
  exact congrArg Fin.val (hall ⟨a, ha⟩ ⟨b, hb⟩ h)

theorem hexCh_get {d : ℕ} (hd : d < 16) : (str "0123456789ABCDEF")[d]? = some (hexCh d) := by
  have hlen : (str "0123456789ABCDEF").length = 16 := by decide
  unfold hexCh
  rw [List.getD_eq_getElem?_getD, List.getElem?_eq_getElem (by rw [hlen]; exact hd)]
  rfl

/-- The digits, the first one first. -/
theorem uintToHex_eq (n : UInt32) :
    uintToHex n = str "0x" ++ (List.range 8).map fun i => hexCh (n.toNat / 2 ^ (28 - i * 4) % 16) := by
  unfold uintToHex
  rw [← List.filterMap_eq_map]
  refine congrArg (str "0x" ++ ·) (List.filterMap_congr fun i hi => ?_)
  have hshifts : ∀ i : Fin 8, (28 - UInt32.ofNat i * 4).toNat = 28 - i.val * 4 := by decide
  have hshift := hshifts ⟨i, List.mem_range.1 hi⟩
  have hdigit : ((n >>> (28 - UInt32.ofNat i * 4)) &&& 0xF).toNat = n.toNat / 2 ^ (28 - i * 4) % 16 := by
    rw [UInt32.toNat_and, UInt32.toNat_shiftRight, hshift, Nat.mod_eq_of_lt (by omega), Nat.shiftRight_eq_div_pow]
    exact Nat.and_two_pow_sub_one_eq_mod _ 4
  rw [hdigit, hexCh_get (Nat.mod_lt _ (by decide))]
  rfl

theorem length_uintToHex (n : UInt32) : (uintToHex n).length = 10 := by
  rw [uintToHex_eq, List.length_append, List.length_map, List.length_range]
  decide

/-- **Eight digits name one number.** -/
theorem uintToHex_injective : Function.Injective uintToHex := by
  intro n m h
  rw [uintToHex_eq, uintToHex_eq] at h
  have hdigits : ∀ i < 8, n.toNat / 2 ^ (28 - i * 4) % 16 = m.toNat / 2 ^ (28 - i * 4) % 16 := fun i hi => by
    have heq := List.map_inj_left.1 (List.append_cancel_left h) i (List.mem_range.2 hi)
    exact hexCh_injective (Nat.mod_lt _ (by decide)) (Nat.mod_lt _ (by decide)) heq
  -- from the last digit on
  have hlow : ∀ j ≤ 8, n.toNat % 16 ^ j = m.toNat % 16 ^ j := by
    intro j hj
    induction j with
    | zero => rw [pow_zero, Nat.mod_one, Nat.mod_one]
    | succ j ih =>
      have hdigit := hdigits (7 - j) (by omega)
      have hplace : 2 ^ (28 - (7 - j) * 4) = 16 ^ j := by
        have hexp : 28 - (7 - j) * 4 = 4 * j := by omega
        rw [hexp, pow_mul]
        rfl
      rw [hplace] at hdigit
      rw [Nat.mod_pow_succ, Nat.mod_pow_succ, ih (by omega), hdigit]
  have hall : n.toNat % 2 ^ 32 = m.toNat % 2 ^ 32 := hlow 8 (by decide)
  rw [Nat.mod_eq_of_lt n.toNat_lt, Nat.mod_eq_of_lt m.toNat_lt] at hall
  exact UInt32.toNat_inj.1 hall

/-! ## The screen -/

/-- The number and the name of an exception, as they are printed. -/
def excLabel (v : Fin 32) : Str :=
  intToStr (UInt32.ofNat v).toInt32 ++ enDash ++ str (excName.getD v "")

theorem excLabel_injective : Function.Injective excLabel := by
  have hall : ∀ v v' : Fin 32, excLabel v = excLabel v' → v = v' := by decide +kernel
  exact fun v v' => hall v v'

theorem panicText_eq {r : Registers} {v : Fin 32} (hv : r.intNo = UInt32.ofNat v) : panicText r =
    (str "\n\n  *** KERNEL PANIC ***\n" ++ str "  Exception #") ++ excLabel v ++ str "\n  EIP=" ++ uintToHex r.eip ++
      str "  ERR=" ++ uintToHex r.errCode ++ str "\n\n  System halted.\n" := by
  have hname : (if r.intNo < 32 then str (excName.getD r.intNo.toNat "") else []) = str (excName.getD v "") := by
    have hval : (UInt32.ofNat v).toNat = v.val := UInt32.toNat_ofNat_of_lt' (show v.val < 2 ^ 32 by omega)
    rw [hv, hval, if_pos (UInt32.lt_iff_toNat_lt.2 (by rw [hval]; exact v.isLt))]
  unfold panicText excLabel
  rw [hname, hv]
  simp only [List.append_assoc]

/-- **What can be read from the screen.** -/
theorem panicText_injective {r r' : Registers} {v v' : Fin 32} (hv : r.intNo = UInt32.ofNat v) (hv' : r'.intNo = UInt32.ofNat v')
    (h : panicText r = panicText r') : v = v' ∧ r.eip = r'.eip ∧ r.errCode = r'.errCode := by
  rw [panicText_eq hv, panicText_eq hv'] at h
  -- from the end: every part but the first has one length
  have hlen : (uintToHex r.errCode).length = (uintToHex r'.errCode).length := by simp only [length_uintToHex]
  have hlen' : (uintToHex r.eip).length = (uintToHex r'.eip).length := by simp only [length_uintToHex]
  obtain ⟨h, herr⟩ := List.append_inj' (List.append_cancel_right h) hlen
  obtain ⟨h, heip⟩ := List.append_inj' (List.append_cancel_right h) hlen'
  have hlabel := List.append_cancel_left (List.append_cancel_right h)
  exact ⟨excLabel_injective hlabel, uintToHex_injective heip, uintToHex_injective herr⟩

/-! ## Exceptions -/

variable {sym : Symbols} {k : Kernel} {c : Cpu} {m : Computer} {es : List Event}

/-- `isr_handler` has no handler to call. -/
theorem isrHandler_panics (h : k.Installed sym) {r : Registers} {v : Fin 32} (hr : r.intNo = UInt32.ofNat v) :
    isrHandler r k = none := by
  have hvector : (UInt32.ofNat v).toNat = (v.castLE (by decide) : Fin 256).val :=
    UInt32.toNat_ofNat_of_lt' (show v.val < 2 ^ 32 by omega)
  have hfn : rd k.interruptHandlers (UInt32.ofNat v).toNat = some none := by
    rw [hvector, rd_val, h.handlers, Fin.val_castLE, if_neg (by omega), if_neg (by omega)]
  unfold isrHandler callHandler
  rw [hr, hfn]
  rfl

/-- **An exception ends on its screen.** In every state of a run of the program and the interrupts,
for each of the 32 vectors: the program does not go on, and vector, place and error code can be
read from what is printed. -/
theorem exception_panics (hsym : sym.Distinct) (hprog : ∀ f, .compute f ∈ es → ∀ c : Cpu, (f c).seg = c.seg)
    (hrun : es.foldlM (Computer.step sym) ⟨gdtFlush c, kmainInstall sym k, .test, []⟩ = some m) (v : Fin 32) (err : UInt32)
    (scratch : Cpu → Kernel → Scratch) :
    deliver sym scratch (v.castLE (by decide)) (errorOf v err) (m.cpu, m.kernel) = none ∧
    ∃ screen, panicScreen sym (v.castLE (by decide)) (errorOf v err) (m.cpu, m.kernel) = some screen ∧
      ∀ (r : Registers) (v' : Fin 32), r.intNo = UInt32.ofNat v' → panicText r = screen →
        v' = v ∧ r.eip = m.cpu.eip ∧ r.errCode = (errorOf v err).getD 0 := by
  have hserved := Served.run hsym hprog hrun
  have h := hserved.installed
  have hgate : Gate.ofBytes (m.kernel.idt (v.castLE (by decide))).bytes = stubGate (sym.isr v) := by
    rw [hserved.tables.2.1]
    exact isrVector_gate sym k v
  have henter := enter_stub hgate h.code (codeAt_isr hsym v) (errorOf v err) m.cpu
  refine ⟨?_, panicText (savedRegisters m.cpu (UInt32.ofNat v) ((errorOf v err).getD 0)), ?_, ?_⟩
  · obtain ⟨-, words, hwords, hret⟩ := isrStub_transparent v err
      ⟨fun words k => do isrHandler (← Registers.ofWords words) k, scratch⟩ m.cpu m.kernel 0x08 (sym.isr v)
    unfold deliver
    rw [henter, Option.bind_eq_bind, Option.bind_some]
    dsimp only
    refine hret.trans ?_
    simp only [hwords, Option.bind_eq_bind, Option.bind_some]
    rw [isrHandler_panics h rfl]
    rfl
  · obtain ⟨-, words, hwords, hret⟩ := isrStub_transparent v err
      ⟨fun words _ => some words, fun c _ => ⟨c.eax, c.ecx, c.edx, c.eflags, 0⟩⟩ m.cpu [] 0x08 (sym.isr v)
    have hpanics := isrHandler_panics h (r := savedRegisters m.cpu (UInt32.ofNat v) ((errorOf v err).getD 0)) rfl
    unfold panicScreen
    rw [henter, Option.bind_eq_bind, Option.bind_some]
    dsimp only
    rw [hret, Option.map_some, Option.bind_eq_bind, Option.bind_some]
    dsimp only
    rw [hwords, Option.bind_eq_bind, Option.bind_some]
    exact if_pos (by rw [hpanics]; rfl)
  · intro r v' hv' htext
    exact panicText_injective hv' rfl htext

/-- The program writes a register. -/
def advance (c : Cpu) : Cpu := { c with ebx := 7, eip := 0x100010 }

/-- A tick, the key `a`, and a step of the program. -/
def tickKeyStep : List Event := tickAndKey ++ [.compute advance]

/-- After these, a page fault. -/
theorem exception_panics_pageFault : ∃ m screen, tickKeyStep.foldlM (Computer.step linked)
      ⟨gdtFlush Cpu.init, kmainInstall linked Kernel.init, .test, []⟩ = some m ∧ m.kernel.ticks = 1 ∧ m.cpu.ebx = 7 ∧
    panicScreen linked 14 (some 2) (m.cpu, m.kernel) = some screen ∧
    ∀ (r : Registers) (v' : Fin 32), r.intNo = UInt32.ofNat v' → panicText r = screen →
      v' = 14 ∧ r.eip = 0x100010 ∧ r.errCode = 2 := by
  obtain ⟨m, hlines⟩ := lines_run linked_distinct (c := Cpu.init) (k := Kernel.init) rfl (by decide) tickAndKey_lines
  have hrun : tickKeyStep.foldlM (Computer.step linked)
      ⟨gdtFlush Cpu.init, kmainInstall linked Kernel.init, .test, []⟩ = some { m with cpu := advance m.cpu } :=
    foldlM_snoc.2 ⟨m, hlines, rfl⟩
  have hprog : ∀ f, Event.compute f ∈ tickKeyStep → ∀ c : Cpu, (f c).seg = c.seg := by
    intro f hf c
    obtain rfl : f = advance := by simpa [tickKeyStep, tickAndKey] using hf
    rfl
  have hticks : m.kernel.ticks = 1 := (Served.run linked_distinct hprog hrun).ticks
  obtain ⟨screen, hscreen, hread⟩ := (exception_panics linked_distinct hprog hrun 14 2
    fun c _ => ⟨c.eax, c.ecx, c.edx, c.eflags, 0⟩).2
  exact ⟨_, screen, hrun, hticks, rfl, hscreen, hread⟩

end DahleOS
