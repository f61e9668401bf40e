import DahleOS.Model.Interrupts

/-!
# The descriptor tables

What the processor reads in the tables after `kmain` has installed them.

* `idtGate_gate`, `gdtGate_segment`: an entry is read back as it was made.
* `setGates_eq`: a loop that fills in gates.
* `descriptor_tables`: all 256 gates, the three segments, and the handlers.
-/

namespace DahleOS

open Codec Descriptor X86

/-! ## Entries -/

/-- **A gate is read back**, for all arguments of `idt_set_gate`. -/
theorem idtGate_gate (base : UInt32) (sel : UInt16) (flags : UInt8) : Gate.ofBytes (idtGate base sel flags).bytes =
    ⟨base, sel, flags &&& 0x80 ≠ 0, flags >>> 5 &&& 3, flags &&& 0x1F⟩ := by
  have hoffset : Codec.ofBytes ![(idtGate base sel flags).bytes 0, (idtGate base sel flags).bytes 1,
      (idtGate base sel flags).bytes 6, (idtGate base sel flags).bytes 7] = base := ofBytes_halves base
  have hsel : word16 ((idtGate base sel flags).bytes 2) ((idtGate base sel flags).bytes 3) = sel := word16_half sel
  unfold Gate.ofBytes
  rw [hoffset, hsel]
  rfl

/-- The byte that `set_gate` puts together from the limit and the flags. -/
theorem gran_toNat (limit : UInt32) (gran : UInt8) : (((limit >>> 16) &&& 0x0F) ||| (gran.toUInt32 &&& 0xF0)).toUInt8.toNat =
    2 ^ 4 * (gran.toNat / 2 ^ 4) + limit.toNat / 2 ^ 16 % 2 ^ 4 := by
  have hg := gran.toNat_lt
  have hlow : ((limit >>> 16) &&& 0x0F).toNat = limit.toNat / 2 ^ 16 % 2 ^ 4 := by
    rw [UInt32.toNat_and, UInt32.toNat_shiftRight, Nat.shiftRight_eq_div_pow]
    exact Nat.and_two_pow_sub_one_eq_mod _ 4
  have hhigh : (gran.toUInt32 &&& 0xF0).toNat = 2 ^ 4 * (gran.toNat / 2 ^ 4) := by
    have hall : ∀ n : Fin 256, n.val &&& 0xF0 = 2 ^ 4 * (n.val / 2 ^ 4) := by decide +kernel
    rw [UInt32.toNat_and, UInt8.toNat_toUInt32]
    exact hall ⟨gran.toNat, hg⟩
  rw [UInt32.toNat_toUInt8, UInt32.toNat_or, hlow, hhigh, Nat.or_comm,
    ← Nat.two_pow_add_eq_or_of_lt (Nat.mod_lt _ (by decide))]
  omega

/-- A byte of the base. -/
theorem baseByte_toNat (base s : UInt32) (hs : s.toNat < 32) :
    ((base >>> s) &&& 0xFF).toUInt8.toNat = base.toNat / 2 ^ s.toNat % 256 := by
  have hand : ((base >>> s) &&& 0xFF).toNat = base.toNat / 2 ^ s.toNat % 256 := by
    rw [UInt32.toNat_and, UInt32.toNat_shiftRight, Nat.mod_eq_of_lt hs, Nat.shiftRight_eq_div_pow]
    exact Nat.and_two_pow_sub_one_eq_mod _ 8
  rw [UInt32.toNat_toUInt8, hand, Nat.mod_mod]

/-- **A segment is read back**, for all arguments of `set_gate`: the limit has 20 bits. -/
theorem gdtGate_segment (base limit : UInt32) (access gran : UInt8) : Segment.ofBytes (gdtGate base limit access gran).bytes =
    ⟨base, UInt32.ofNat (limit.toNat % 2 ^ 20), access, gran >>> 4⟩ := by
  have hgran : ((gdtGate base limit access gran).bytes 6).toNat = _ := gran_toNat limit gran
  have hflags : (gdtGate base limit access gran).bytes 6 >>> 4 = gran >>> 4 := by
    apply UInt8.toNat_inj.1
    rw [UInt8.toNat_shiftRight, UInt8.toNat_shiftRight, hgran]
    simp only [Nat.shiftRight_eq_div_pow]
    show _ / 2 ^ 4 = _ / 2 ^ 4
    omega
  have hlow : ((gdtGate base limit access gran).bytes 6 &&& 0x0F).toNat = limit.toNat / 2 ^ 16 % 2 ^ 4 := by
    rw [UInt8.toNat_and, hgran]
    refine (Nat.and_two_pow_sub_one_eq_mod _ 4).trans ?_
    omega
  have hbase : Codec.ofBytes ![(gdtGate base limit access gran).bytes 2, (gdtGate base limit access gran).bytes 3,
      (gdtGate base limit access gran).bytes 4, (gdtGate base limit access gran).bytes 7] = base := by
    refine ofBytes_eq fun i => ?_
    fin_cases i
    · exact half_low_toNat base 0
    · exact half_low_toNat base 1
    · exact baseByte_toNat base 16 (by decide)
    · exact baseByte_toNat base 24 (by decide)
  have hlimit : Codec.ofBytes ![(gdtGate base limit access gran).bytes 0, (gdtGate base limit access gran).bytes 1,
      (gdtGate base limit access gran).bytes 6 &&& 0x0F, 0] = UInt32.ofNat (limit.toNat % 2 ^ 20) := by
    have hval : (UInt32.ofNat (limit.toNat % 2 ^ 20)).toNat = limit.toNat % 2 ^ 20 :=
      UInt32.toNat_ofNat_of_lt' (show limit.toNat % 2 ^ 20 < 2 ^ 32 by omega)
    refine ofBytes_eq fun i => ?_
    rw [hval]
    fin_cases i
    · exact (half_low_toNat limit 0).trans (by simp)
    · exact (half_low_toNat limit 1).trans (by simp; omega)
    · exact hlow.trans (by simp; omega)
    · simp
      omega
  unfold Segment.ofBytes
  rw [hbase, hlimit, hflags]
  rfl

/-! ## Loops -/

variable {α : Type} {k : Kernel}

/-- **A loop over different vectors** fills in their gates. -/
theorem setGates_eq (pos : α → Fin 256) (hpos : Function.Injective pos) (base : α → UInt32) (l : List α) (k : Kernel) :
    l.foldl (fun k n => idtSetGate k (pos n) (base n) 0x08 0x8E) k = { k with
      idt := fun v => ((l.find? fun n => pos n = v).map fun n => idtGate (base n) 0x08 0x8E).getD (k.idt v) } := by
  induction l generalizing k with
  | nil => rfl
  | cons a l ih =>
    rw [List.foldl_cons, ih]
    simp only [idtSetGate, Kernel.mk.injEq, and_true, true_and]
    funext v
    by_cases hv : pos a = v
    · -- set again, if at all, to the same gate
      subst hv
      rw [List.find?_cons_of_pos (by simp), Function.update_self]
      cases hfind : l.find? fun n => pos n = pos a with
      | none => rfl
      | some b =>
        obtain rfl : b = a := hpos (by simpa using List.find?_some hfind)
        rfl
    · rw [List.find?_cons_of_neg (by simpa using hv), Function.update_of_ne (Ne.symm hv)]

/-! ## After the installation -/

variable {sym : Symbols}

/-- The gate of an installed stub. -/
def stubGate (addr : UInt32) : Gate := ⟨addr, 0x08, true, 0, Gate.interrupt32⟩

theorem stubGate_of (addr : UInt32) : Gate.ofBytes (idtGate addr 0x08 0x8E).bytes = stubGate addr := idtGate_gate ..

theorem irqVector_injective : Function.Injective irqVector := by
  intro m n h
  have hval := congrArg Fin.val h
  simp only [irqVector] at hval
  omega

theorem isrInstall_eq (sym : Symbols) (k : Kernel) : isrInstall sym k = { k with
    interruptHandlers := fun _ => none
    idt := fun v => (((List.finRange 32).find? fun n : Fin 32 => n.castLE (by decide) = v).map fun n =>
      idtGate (sym.isr n) 0x08 0x8E).getD (k.idt v) } :=
  setGates_eq (fun n : Fin 32 => n.castLE (by decide)) (Fin.castLE_injective (by decide)) sym.isr ..

theorem irqInstall_eq (sym : Symbols) (k : Kernel) : irqInstall sym k = { k with
    out := k.out ++ picRemap
    idt := fun v => (((List.finRange 16).find? fun n => irqVector n = v).map fun n =>
      idtGate (sym.irq n) 0x08 0x8E).getD (k.idt v) } :=
  setGates_eq irqVector irqVector_injective sym.irq ..

/-- The number of what a loop passes. -/
theorem find_finRange {n : ℕ} {β : Type} [DecidableEq β] {p : Fin n → β} (hp : Function.Injective p) (i : Fin n) :
    (List.finRange n).find? (fun j => p j = p i) = some i := by
  cases hfind : (List.finRange n).find? fun j => p j = p i with
  | none => exact absurd (List.find?_eq_none.1 hfind i (List.mem_finRange i)) (by simp)
  | some j =>
    obtain rfl : j = i := hp (by simpa using List.find?_some hfind)
    rfl

theorem find_finRange_none {n : ℕ} {β : Type} [DecidableEq β] {p : Fin n → β} {v : β} (hv : ∀ i, p i ≠ v) :
    (List.finRange n).find? (fun j => p j = v) = none :=
  List.find?_eq_none.2 fun i _ => by simpa using hv i

/-- The kernel after the stubs are installed. -/
theorem kmainInstall_idt (sym : Symbols) (k : Kernel) (v : Fin 256) : (kmainInstall sym k).idt v =
    (((List.finRange 16).find? fun n => irqVector n = v).map fun n => idtGate (sym.irq n) 0x08 0x8E).getD
      ((((List.finRange 32).find? fun n : Fin 32 => n.castLE (by decide) = v).map fun n =>
        idtGate (sym.isr n) 0x08 0x8E).getD ⟨0, 0, 0, 0, 0⟩) := by
  unfold kmainInstall
  rw [isrInstall_eq, irqInstall_eq]
  rfl

/-- What the loops leave. -/
theorem kmainInstall_rest (sym : Symbols) (k : Kernel) : (kmainInstall sym k).gdt = (gdtInstall k).gdt ∧
    (kmainInstall sym k).ticks = k.ticks ∧ (kmainInstall sym k).kbd = k.kbd := by
  unfold kmainInstall
  rw [isrInstall_eq, irqInstall_eq]
  exact ⟨rfl, rfl, rfl⟩

theorem isrVector_gate (sym : Symbols) (k : Kernel) (n : Fin 32) :
    Gate.ofBytes ((kmainInstall sym k).idt (n.castLE (by decide))).bytes = stubGate (sym.isr n) := by
  have hout : ∀ i, irqVector i ≠ n.castLE (by decide) := fun i h => by
    have hval := congrArg Fin.val h
    simp only [irqVector, Fin.val_castLE] at hval
    omega
  rw [kmainInstall_idt, find_finRange_none hout, find_finRange (p := fun n : Fin 32 => n.castLE _) (Fin.castLE_injective _) n]
  exact stubGate_of _

theorem irqVector_gate (sym : Symbols) (k : Kernel) (n : Fin 16) :
    Gate.ofBytes ((kmainInstall sym k).idt (irqVector n)).bytes = stubGate (sym.irq n) := by
  rw [kmainInstall_idt, find_finRange irqVector_injective]
  exact stubGate_of _

theorem free_gate (sym : Symbols) (k : Kernel) {v : Fin 256} (hv : 48 ≤ v.val) :
    (Gate.ofBytes ((kmainInstall sym k).idt v).bytes).present = false := by
  have hirq : ∀ i, irqVector i ≠ v := fun i h => by
    have hval := congrArg Fin.val h
    simp only [irqVector] at hval
    omega
  have hisr : ∀ i : Fin 32, i.castLE (by decide) ≠ v := fun i h => by
    have hval := congrArg Fin.val h
    simp only [Fin.val_castLE] at hval
    omega
  rw [kmainInstall_idt, find_finRange_none hirq, find_finRange_none (p := fun n : Fin 32 => n.castLE _) hisr]
  simp only [Option.map_none, Option.getD_none]
  decide

theorem kmainInstall_handlers (sym : Symbols) (k : Kernel) (v : Fin 256) : (kmainInstall sym k).interruptHandlers v =
    if v.val = 32 then some .onTick else if v.val = 33 then some .kbdHandler else none := by
  have hhandlers : (kmainInstall sym k).interruptHandlers =
      Function.update (Function.update (fun _ => none) (irqVector 0) (some .onTick)) (irqVector 1) (some .kbdHandler) := by
    unfold kmainInstall
    rw [isrInstall_eq, irqInstall_eq]
    rfl
  rw [hhandlers]
  by_cases h₁ : v = irqVector 1
  · subst h₁
    rw [Function.update_self]
    rfl
  · rw [Function.update_of_ne h₁]
    by_cases h₀ : v = irqVector 0
    · subst h₀
      rw [Function.update_self]
      rfl
    · have hne₀ : v.val ≠ 32 := fun h => h₀ (Fin.ext h)
      have hne₁ : v.val ≠ 33 := fun h => h₁ (Fin.ext h)
      rw [Function.update_of_ne h₀, if_neg hne₀, if_neg hne₁]

/-- **The tables after `kmain`**, whatever was in memory before and wherever the stubs are: every
one of the first 48 vectors has an interrupt gate of ring 0 to its stub, through the selector of
a segment of code, and no other vector has a gate; the segments of code and data, which the
stubs load, are all of memory, and the null descriptor is empty; and exactly the timer and the
keyboard have handlers. -/
theorem descriptor_tables (sym : Symbols) (k : Kernel) :
    (∀ n : Fin 32, Gate.ofBytes ((kmainInstall sym k).idt (n.castLE (by decide))).bytes = stubGate (sym.isr n)) ∧
    (∀ n : Fin 16, Gate.ofBytes ((kmainInstall sym k).idt (irqVector n)).bytes = stubGate (sym.irq n)) ∧
    (∀ v : Fin 256, 48 ≤ v.val → (Gate.ofBytes ((kmainInstall sym k).idt v).bytes).present = false) ∧
    (Segment.ofBytes ((kmainInstall sym k).gdt 0).bytes = ⟨0, 0, 0, 0⟩ ∧
      Segment.ofBytes ((kmainInstall sym k).gdt 1).bytes = ⟨0, 0xFFFFF, 0x9A, 0x0C⟩ ∧
      Segment.ofBytes ((kmainInstall sym k).gdt 2).bytes = ⟨0, 0xFFFFF, 0x92, 0x0C⟩ ∧
      ∀ access, Segment.last ⟨0, 0xFFFFF, access, 0x0C⟩ = 0xFFFFFFFF) ∧
    ∀ v : Fin 256, (kmainInstall sym k).interruptHandlers v =
      if v.val = 32 then some .onTick else if v.val = 33 then some .kbdHandler else none := by
  have hgdt := (kmainInstall_rest sym k).1
  refine ⟨isrVector_gate sym k, irqVector_gate sym k, fun v hv => free_gate sym k hv, ⟨?_, ?_, ?_, ?_⟩,
    kmainInstall_handlers sym k⟩
  · rw [hgdt]
    exact gdtGate_segment ..
  · rw [hgdt]
    exact gdtGate_segment ..
  · rw [hgdt]
    exact gdtGate_segment ..
  · intro access
    show ((0 : UInt32) + if (0x0C : UInt8) &&& 8 ≠ 0 then (0xFFFFF : UInt32) <<< 12 ||| 0xFFF else 0xFFFFF) = 0xFFFFFFFF
    decide

end DahleOS
