import DahleOS.Lib.PartialRun
import DahleOS.Proof.Descriptors
import DahleOS.Proof.InterruptStubs
import DahleOS.Proof.KeyRing

/-!
# Programs and interrupts

A program runs on the installed kernel, and interrupts come between any two of its steps.

* `deliver_irq`: what an interrupt is to the program: one step of the kernel.
* `Served.step`: one event.
* `interrupts_atomic`: every run, and what the program, the clock, the keyboard and the
  interrupt controllers have seen in it.
-/

namespace DahleOS

open CArray Descriptor PartialRun X86

variable {sym : Symbols} {k : Kernel} {c : Cpu} {n : Fin 16} {m m' : Computer} {es : List Event}

/-! ## One interrupt -/

/-- End of interrupt, to the controllers that the line goes through. -/
def endOfInterrupt (n : Fin 16) : List PortOut := (if 8 ≤ n.val then [.byte 0xA0 0x20] else []) ++ [.byte 0x20 0x20]

/-- What a line does to the kernel. -/
def Kernel.serve (k : Kernel) (n : Fin 16) : Option Kernel :=
  let k' := { k with out := k.out ++ endOfInterrupt n }
  if n.val = 0 then some { k' with ticks := k.ticks + 1 }
  else if n.val = 1 then (kbdHandler k.kbd k.data60).map fun kbd => { k' with kbd }
  else some k'

/-- The tables, as far as the lines need them. -/
structure Kernel.Installed (sym : Symbols) (k : Kernel) : Prop where
  gate : ∀ n, Gate.ofBytes (k.idt (irqVector n)).bytes = stubGate (sym.irq n)
  code : Segment.ofBytes (k.gdt 1).bytes = ⟨0, 0xFFFFF, 0x9A, 0x0C⟩
  handlers : ∀ v : Fin 256, k.interruptHandlers v =
    if v.val = 32 then some .onTick else if v.val = 33 then some .kbdHandler else none

theorem kmainInstall_installed (sym : Symbols) (k : Kernel) : (kmainInstall sym k).Installed sym where
  gate := irqVector_gate sym k
  code := by
    rw [(kmainInstall_rest sym k).1]
    exact gdtGate_segment ..
  handlers := kmainInstall_handlers sym k

theorem Kernel.Installed.withData (h : k.Installed sym) {data : UInt8} : Kernel.Installed sym { k with data60 := data } :=
  ⟨h.gate, h.code, h.handlers⟩

/-- The linker puts every stub somewhere else. -/
def Symbols.Distinct (sym : Symbols) : Prop := Function.Injective (Sum.elim sym.isr sym.irq)

theorem codeAt_isr (hsym : sym.Distinct) (v : Fin 32) : sym.codeAt (sym.isr v) = some (isrStub v, isrHandler) := by
  have hisr : Function.Injective sym.isr := hsym.comp Sum.inl_injective
  unfold Symbols.codeAt
  rw [find_finRange hisr]

theorem codeAt_irq (hsym : sym.Distinct) (n : Fin 16) :
    sym.codeAt (sym.irq n) = some (irqStub (UInt32.ofNat (32 + n)), irqHandler) := by
  have hne : ∀ v, sym.isr v ≠ sym.irq n := fun v h => Sum.inl_ne_inr (@hsym (.inl v) (.inr n) h)
  have hirq : Function.Injective sym.irq := hsym.comp Sum.inr_injective
  unfold Symbols.codeAt
  rw [find_finRange_none hne, find_finRange hirq, Option.map_some]

theorem eoi_eq (n : Fin 16) : (if 40 ≤ UInt32.ofNat (32 + n) then k.portByteOut 0xA0 0x20 else k).portByteOut 0x20 0x20 =
    { k with out := k.out ++ endOfInterrupt n } := by
  have hslave : 40 ≤ UInt32.ofNat (32 + n) ↔ 8 ≤ n.val := by
    rw [UInt32.le_iff_toNat_le, UInt32.toNat_ofNat_of_lt' (show 32 + n.val < 2 ^ 32 by omega)]
    show 40 ≤ 32 + n.val ↔ _
    omega
  unfold endOfInterrupt
  by_cases hn : 8 ≤ n.val
  · rw [if_pos (hslave.2 hn), if_pos hn]
    simp only [Kernel.portByteOut, List.append_assoc]
  · rw [if_neg (hn ∘ hslave.1), if_neg hn]
    rfl

/-- **`irq_handler`**, for the vectors of the lines. -/
theorem irqHandler_serve (h : k.Installed sym) {r : Registers} (hr : r.intNo = UInt32.ofNat (32 + n)) :
    irqHandler r k = k.serve n := by
  have hvector : (UInt32.ofNat (32 + n)).toNat = (irqVector n).val :=
    UInt32.toNat_ofNat_of_lt' (show 32 + n.val < 2 ^ 32 by omega)
  have hfn : rd k.interruptHandlers (UInt32.ofNat (32 + n)).toNat = some
      (if n.val = 0 then some .onTick else if n.val = 1 then some .kbdHandler else none) := by
    rw [hvector, rd_val, h.handlers]
    congr 1
    have h₀ : (irqVector n).val = 32 ↔ n.val = 0 := by simp only [irqVector]; omega
    have h₁ : (irqVector n).val = 33 ↔ n.val = 1 := by simp only [irqVector]; omega
    simp only [h₀, h₁]
  unfold irqHandler callHandler Kernel.serve
  simp only [hr, eoi_eq, hfn, Option.bind_eq_bind, Option.bind_some]
  split_ifs
  · rfl
  · exact (Option.map_eq_bind ..).symm
  · rfl

/-- Interrupted and resumed with the segments of `gdt_flush`. -/
theorem resumed_eq (hflat : c.seg = (gdtFlush c).seg) : resumed c = c := by
  have hsegs : dataSegments (c.seg .ds) c.seg = c.seg := by
    rw [hflat]
    funext s
    cases s <;> rfl
  rw [resumed, hsegs]

/-- Through the gate of a stub, the code of the stub is entered. -/
theorem enter_stub {v : Fin 256} {addr : UInt32} {stub : List Instr × (Registers → Kernel → Option Kernel)}
    (hgate : Gate.ofBytes (k.idt v).bytes = stubGate addr) (hcode : Segment.ofBytes (k.gdt 1).bytes = ⟨0, 0xFFFFF, 0x9A, 0x0C⟩)
    (hat : sym.codeAt addr = some stub) (error : Option UInt32) (c : Cpu) :
    sym.enter v error (c, k) = some (stub, c.interrupt 0x08 addr error) := by
  have hindex : ((0x08 : UInt16).toNat : ℤ) / 8 = ((1 : Fin 3) : ℕ) := by decide
  have hexec : (⟨0, 0xFFFFF, 0x9A, 0x0C⟩ : Segment).executable = true := by decide
  unfold Symbols.enter
  simp only [hgate, stubGate, hindex, rd_val, Option.bind_eq_bind, Option.bind_some, hcode, hexec, and_self, if_true, hat,
    Option.pure_def]

/-- **An interrupt is one step of the kernel**, and the program does not notice it. -/
theorem deliver_irq (hsym : sym.Distinct) (h : k.Installed sym) (hflat : c.seg = (gdtFlush c).seg)
    (scratch : Cpu → Kernel → Scratch) (n : Fin 16) :
    deliver sym scratch (irqVector n) none (c, k) = (k.serve n).map (c, ·) := by
  obtain ⟨-, words, hwords, hrun⟩ := irqStub_transparent (UInt32.ofNat (32 + n))
    ⟨fun words k => do irqHandler (← Registers.ofWords words) k, scratch⟩ c k 0x08 (sym.irq n)
  unfold deliver
  rw [enter_stub (h.gate n) h.code (codeAt_irq hsym n), Option.bind_eq_bind, Option.bind_some]
  dsimp only
  rw [hrun, resumed_eq hflat]
  simp only [hwords, Option.bind_eq_bind, Option.bind_some]
  rw [irqHandler_serve h rfl]

/-! ## Runs -/

/-- A scancode comes, or `keyboard_getchar` makes a step. -/
inductive KeyMove
  | scancode (sc : UInt8)
  | getchar

/-- `KeyStep`, as a function of the move. -/
def KeySystem.move (s : KeySystem) : KeyMove → Option KeySystem
  | .scancode sc => do
    let (c, _) ← kbdDecode s.kbd sc
    let kbd ← kbdHandler s.kbd sc
    return { s with kbd, accepted := if kbd.head = s.kbd.head then s.accepted else s.accepted ++ [c] }
  | .getchar => do
    let (reader, kbd, out) ← keyboardGetchar s.kbd s.reader
    return { s with reader, kbd, returned := s.returned ++ out.toList }

theorem KeySystem.move_step {s s' : KeySystem} {a : KeyMove} (h : s.move a = some s') : KeyStep s s' := by
  cases a with
  | scancode sc =>
    obtain ⟨⟨c, k⟩, hdec, h⟩ := Option.bind_eq_some_iff.1 h
    obtain ⟨k', hhandler, h⟩ := Option.bind_eq_some_iff.1 h
    cases h
    exact .interrupt sc hdec hhandler
  | getchar =>
    obtain ⟨⟨r, k, out⟩, hget, h⟩ := Option.bind_eq_some_iff.1 h
    cases h
    exact .reader hget

theorem KeySystem.moves_step {s s' : KeySystem} {l : List KeyMove} (h : l.foldlM KeySystem.move s = some s') :
    Relation.ReflTransGen KeyStep s s' :=
  foldlM_holds .refl (fun _ _ _ _ hs hstep => hs.tail (move_step hstep)) h

/-- What the program computes. -/
def Event.computation : Event → Option (Cpu → Cpu)
  | compute f => some f
  | _ => none

/-- The line that is raised. -/
def Event.raised : Event → Option (Fin 16)
  | line n _ _ => some n
  | _ => none

/-- The move of the keyboard. -/
def Event.key : Event → Option KeyMove
  | line n data _ => if n.val = 1 then some (.scancode data) else none
  | getchar => some .getchar
  | compute _ => none

/-- **What a run from the installation has done**: each part has seen its own events only. -/
structure Served (sym : Symbols) (c : Cpu) (k : Kernel) (es : List Event) (m : Computer) : Prop where
  cpu : m.cpu = (es.filterMap Event.computation).foldl (fun c f => f c) (gdtFlush c)
  seg : m.cpu.seg = (gdtFlush c).seg
  tables : m.kernel.gdt = (kmainInstall sym k).gdt ∧ m.kernel.idt = (kmainInstall sym k).idt ∧
    m.kernel.interruptHandlers = (kmainInstall sym k).interruptHandlers
  ticks : m.kernel.ticks = k.ticks + UInt32.ofNat ((es.filterMap Event.raised).count 0)
  out : m.kernel.out = (kmainInstall sym k).out ++ (es.filterMap Event.raised).flatMap endOfInterrupt
  keys : ∃ accepted, (es.filterMap Event.key).foldlM KeySystem.move ⟨k.kbd, .test, [], []⟩ =
    some ⟨m.kernel.kbd, m.reader, accepted, m.returned⟩

theorem Served.installed (h : Served sym c k es m) : m.kernel.Installed sym := by
  have hk := kmainInstall_installed sym k
  obtain ⟨hgdt, hidt, hhandlers⟩ := h.tables
  exact ⟨by rw [hidt]; exact hk.gate, by rw [hgdt]; exact hk.code, by rw [hhandlers]; exact hk.handlers⟩

theorem Served.start (sym : Symbols) (c : Cpu) (k : Kernel) : Served sym c k [] ⟨gdtFlush c, kmainInstall sym k, .test, []⟩ where
  cpu := rfl
  seg := rfl
  tables := ⟨rfl, rfl, rfl⟩
  ticks := (kmainInstall_rest sym k).2.1.trans (UInt32.add_zero _).symm
  out := (List.append_nil _).symm
  keys := ⟨[], by rw [(kmainInstall_rest sym k).2.2]; rfl⟩

/-- What a line leaves alone. -/
theorem Kernel.serve_frame {k' : Kernel} (h : k.serve n = some k') : (k'.gdt = k.gdt ∧ k'.idt = k.idt ∧
    k'.interruptHandlers = k.interruptHandlers) ∧ k'.out = k.out ++ endOfInterrupt n ∧
    k'.ticks = k.ticks + (if n.val = 0 then 1 else 0) ∧
    if n.val = 1 then kbdHandler k.kbd k.data60 = some k'.kbd else k'.kbd = k.kbd := by
  unfold Kernel.serve at h
  by_cases h₀ : n.val = 0
  · have h₁ : n.val ≠ 1 := by omega
    simp only [if_pos h₀, if_neg h₁] at h ⊢
    cases h
    exact ⟨⟨rfl, rfl, rfl⟩, rfl, rfl, rfl⟩
  · by_cases h₁ : n.val = 1
    · simp only [if_neg h₀, if_pos h₁] at h ⊢
      obtain ⟨kbd, hkbd, rfl⟩ := Option.map_eq_some_iff.1 h
      exact ⟨⟨rfl, rfl, rfl⟩, rfl, (UInt32.add_zero _).symm, hkbd⟩
    · simp only [if_neg h₀, if_neg h₁] at h ⊢
      cases h
      exact ⟨⟨rfl, rfl, rfl⟩, rfl, (UInt32.add_zero _).symm, rfl⟩

theorem Kernel.serve_total {q : List UInt8} (h : k.kbd.Queue q) (n : Fin 16) : ∃ k', k.serve n = some k' := by
  obtain ⟨-, -, kbd, -, hhandler, -⟩ := kbdHandler_queued h k.data60
  unfold Kernel.serve
  simp only [hhandler, Option.map_some]
  split_ifs
  · exact ⟨_, rfl⟩
  · exact ⟨_, rfl⟩
  · exact ⟨_, rfl⟩

/-- An event list by its events. -/
theorem filterMap_snoc {α β : Type} (f : α → Option β) (l : List α) (a : α) :
    (l ++ [a]).filterMap f = l.filterMap f ++ (f a).toList := by
  rw [List.filterMap_append]
  cases h : f a <;> simp [h]

/-- **One event.** -/
theorem Served.step (hsym : sym.Distinct) (h : Served sym c k es m) {e : Event}
    (hseg : ∀ f, e = .compute f → ∀ c : Cpu, (f c).seg = c.seg) (hstep : m.step sym e = some m') :
    Served sym c k (es ++ [e]) m' := by
  obtain ⟨accepted, hkeys⟩ := h.keys
  cases e with
  | compute f =>
    cases hstep
    constructor <;> simp only [filterMap_snoc, Event.computation, Event.raised, Event.key, Option.toList_some, Option.toList_none,
      List.append_nil, List.foldl_append, List.foldl_cons, List.foldl_nil]
    · rw [h.cpu]
    · rw [hseg f rfl, h.seg]
    · exact h.tables
    · exact h.ticks
    · exact h.out
    · exact ⟨accepted, hkeys⟩
  | getchar =>
    obtain ⟨⟨r, kbd, out⟩, hget, hstep⟩ := Option.bind_eq_some_iff.1 hstep
    cases hstep
    constructor <;> simp only [filterMap_snoc, Event.computation, Event.raised, Event.key, Option.toList_some, Option.toList_none,
      List.append_nil]
    · exact h.cpu
    · exact h.seg
    · exact h.tables
    · exact h.ticks
    · exact h.out
    · refine ⟨accepted, foldlM_snoc.2 ⟨_, hkeys, ?_⟩⟩
      simp only [KeySystem.move, hget, Option.bind_eq_bind, Option.bind_some, Option.pure_def]
  | line n data scratch =>
    obtain ⟨-, hstep⟩ := Option.ite_none_right_eq_some.1 hstep
    rw [deliver_irq hsym h.installed.withData h.seg] at hstep
    obtain ⟨⟨c', k'⟩, hserve, hstep⟩ := Option.bind_eq_some_iff.1 hstep
    obtain ⟨k'', hserve, heq⟩ := Option.map_eq_some_iff.1 hserve
    cases heq
    cases hstep
    obtain ⟨htables, hout, hticks, hkbd⟩ := Kernel.serve_frame hserve
    constructor <;> simp only [filterMap_snoc, Event.computation, Event.raised, Option.toList_some, Option.toList_none, List.append_nil,
      List.flatMap_append, List.count_append, List.flatMap_cons, List.flatMap_nil]
    · exact h.cpu
    · exact h.seg
    · exact ⟨htables.1.trans h.tables.1, htables.2.1.trans h.tables.2.1, htables.2.2.trans h.tables.2.2⟩
    · have hone : UInt32.ofNat (List.count 0 [n]) = if n.val = 0 then 1 else 0 := by
        rw [List.count_singleton]
        by_cases hn : n = 0 <;> simp [hn]
      rw [hticks, h.ticks, UInt32.ofNat_add, hone, UInt32.add_assoc]
    · rw [hout, h.out, List.append_assoc]
    · by_cases hn : n.val = 1
      · obtain ⟨c₁, k₁, hdec⟩ := kbdDecode_total m.kernel.kbd data
        have hkey : (Event.line n data scratch).key = some (.scancode data) := if_pos hn
        rw [if_pos hn] at hkbd
        have hhandler : kbdHandler m.kernel.kbd data = some k'.kbd := hkbd
        rw [hkey]
        refine ⟨if k'.kbd.head = m.kernel.kbd.head then accepted else accepted ++ [c₁], foldlM_snoc.2 ⟨_, hkeys, ?_⟩⟩
        simp only [KeySystem.move, hdec, hhandler, Option.bind_eq_bind, Option.bind_some, Option.pure_def]
      · have hkey : (Event.line n data scratch).key = none := if_neg hn
        rw [if_neg hn] at hkbd
        exact ⟨accepted, by rw [hkey, Option.toList_none, List.append_nil, hkbd]; exact hkeys⟩

theorem Served.run (hsym : sym.Distinct) (hprog : ∀ f, .compute f ∈ es → ∀ c : Cpu, (f c).seg = c.seg)
    (hrun : es.foldlM (Computer.step sym) ⟨gdtFlush c, kmainInstall sym k, .test, []⟩ = some m) : Served sym c k es m := by
  induction es using List.reverseRecOn generalizing m with
  | nil =>
    cases hrun
    exact .start sym c k
  | append_singleton es e ih =>
    obtain ⟨m₁, hrun, hstep⟩ := foldlM_snoc.1 hrun
    exact (ih (fun f hf => hprog f (List.mem_append_left _ hf)) hrun).step hsym
      (fun f hf => hprog f (List.mem_append_right _ (hf ▸ List.mem_singleton_self _))) hstep

/-- The moves of the keyboard keep its queue. -/
theorem Served.queued (h : Served sym c k es m) (hk : k.kbd = .init) :
    ∃ accepted q, KeySystem.Queued ⟨m.kernel.kbd, m.reader, accepted, m.returned⟩ q := by
  obtain ⟨accepted, hkeys⟩ := h.keys
  rw [hk] at hkeys
  exact ⟨accepted, KeyStep.run (KeySystem.moves_step hkeys)⟩

/-- **No event is refused**, except a line while interrupts are off. -/
theorem Served.next (hsym : sym.Distinct) (h : Served sym c k es m) (hk : k.kbd = .init) (e : Event) :
    (m.step sym e).isSome = (e.raised.isNone || m.cpu.interruptible) := by
  obtain ⟨accepted, q, hq⟩ := h.queued hk
  cases e with
  | compute f => rfl
  | getchar =>
    obtain ⟨r, kbd, out, hget, -⟩ := keyboardGetchar_queued hq
    simp only [Computer.step]
    have hget' : keyboardGetchar m.kernel.kbd m.reader = some (r, kbd, out) := hget
    rw [hget']
    rfl
  | line n data scratch =>
    obtain ⟨k', hserve⟩ := Kernel.serve_total (k := { m.kernel with data60 := data }) hq.ring n
    simp only [Computer.step, deliver_irq hsym h.installed.withData h.seg, hserve, Option.map_some, Option.bind_eq_bind,
      Option.bind_some, Event.raised, Option.isNone_some, Bool.false_or]
    split_ifs with hon
    · exact hon.symm
    · exact (Bool.eq_false_iff.2 hon).symm

/-- While the program waits with interrupts on, any lines can be raised. -/
theorem lines_run (hsym : sym.Distinct) (hk : k.kbd = .init) (hon : (gdtFlush c).interruptible = true)
    (hes : ∀ e ∈ es, e.computation = none) :
    ∃ m, es.foldlM (Computer.step sym) ⟨gdtFlush c, kmainInstall sym k, .test, []⟩ = some m := by
  suffices h : ∃ m, es.foldlM (Computer.step sym) ⟨gdtFlush c, kmainInstall sym k, .test, []⟩ = some m ∧
      Served sym c k es m ∧ m.cpu = gdtFlush c by
    obtain ⟨m, hrun, -⟩ := h
    exact ⟨m, hrun⟩
  induction es using List.reverseRecOn with
  | nil => exact ⟨_, rfl, .start sym c k, rfl⟩
  | append_singleton es e ih =>
    obtain ⟨m, hrun, h, hcpu⟩ := ih fun e he => hes e (List.mem_append_left _ he)
    have hidle := hes e (List.mem_append_right _ (List.mem_singleton_self e))
    have hnext := h.next hsym hk e
    rw [hcpu, hon, Bool.or_true] at hnext
    obtain ⟨m', hstep⟩ := Option.isSome_iff_exists.1 hnext
    have h' := h.step hsym (fun f hf => by rw [hf] at hidle; cases hidle) hstep
    refine ⟨m', foldlM_snoc.2 ⟨m, hrun, hstep⟩, h', ?_⟩
    rw [h'.cpu, filterMap_snoc, hidle, Option.toList_none, List.append_nil, ← h.cpu, hcpu]

/-- **Interrupts are atomic.** The computer runs a program on the installed kernel, and the lines
of the interrupt controllers are raised between its steps, in any order and at any time. Then
the registers and the stack of the program are those of its own steps; every tick of the timer is
counted; the keyboard has seen the scancodes and the steps of its reader, and what the program
got is a prefix of what was typed; every line is acknowledged to its controllers, once; and no
line is refused unless the program has turned interrupts off. -/
theorem interrupts_atomic (hsym : sym.Distinct) (hk : k.kbd = .init)
    (hprog : ∀ f, .compute f ∈ es → ∀ c : Cpu, (f c).seg = c.seg)
    (hrun : es.foldlM (Computer.step sym) ⟨gdtFlush c, kmainInstall sym k, .test, []⟩ = some m) :
    m.cpu = (es.filterMap Event.computation).foldl (fun c f => f c) (gdtFlush c) ∧
    m.kernel.ticks = k.ticks + UInt32.ofNat ((es.filterMap Event.raised).count 0) ∧
    m.kernel.out = (kmainInstall sym k).out ++ (es.filterMap Event.raised).flatMap endOfInterrupt ∧
    (∃ accepted, (es.filterMap Event.key).foldlM KeySystem.move .init =
      some ⟨m.kernel.kbd, m.reader, accepted, m.returned⟩ ∧ m.returned <+: accepted) ∧
    ∀ e : Event, (m.step sym e).isSome = (e.raised.isNone || m.cpu.interruptible) := by
  have h := Served.run hsym hprog hrun
  obtain ⟨accepted, hkeys⟩ := h.keys
  rw [hk] at hkeys
  obtain ⟨q, hq⟩ := KeyStep.run (KeySystem.moves_step hkeys)
  exact ⟨h.cpu, h.ticks, h.out, ⟨accepted, hkeys, ⟨q, hq.log.symm⟩⟩, fun e => h.next hsym hk e⟩

/-- Stubs of 16 bytes each. -/
def linked : Symbols := ⟨fun v => 0x100000 + 16 * UInt32.ofNat v, fun n => 0x100200 + 16 * UInt32.ofNat n⟩

theorem linked_distinct : linked.Distinct := by
  have hisr : ∀ a b : Fin 32, linked.isr a = linked.isr b → a = b := by decide +kernel
  have hirq : ∀ a b : Fin 16, linked.irq a = linked.irq b → a = b := by decide +kernel
  have hne : ∀ (a : Fin 32) (b : Fin 16), linked.isr a ≠ linked.irq b := by decide +kernel
  exact Function.Injective.sumElim (fun a b => hisr a b) (fun a b => hirq a b) hne

/-- Memory at power-on, and the processor after `sti`. -/
def Kernel.init : Kernel := ⟨fun _ => ⟨0, 0, 0, 0, 0, 0⟩, fun _ => ⟨0, 0, 0, 0, 0⟩, fun _ => none, 0, .init, 0, []⟩

def Cpu.init : Cpu := ⟨0, 0, 0, 0, 0x108000, 0, 0, 0, 0x100000, 0x202, fun _ => 0, []⟩

theorem irq0_lt : 0 < 16 := by decide
theorem irq1_lt : 1 < 16 := by decide

/-- The lines of the timer and the keyboard. -/
def irq0 : Fin 16 := ⟨0, irq0_lt⟩
def irq1 : Fin 16 := ⟨1, irq1_lt⟩

/-- A tick, and the key `a`. -/
def tickAndKey : List Event := [.line irq0 0 fun _ _ => ⟨1, 2, 3, 4, 5⟩, .line irq1 0x1E fun _ _ => ⟨1, 2, 3, 4, 5⟩]

theorem tickAndKey_lines : ∀ e ∈ tickAndKey, e.computation = none := by
  intro e he
  simp only [tickAndKey, List.mem_cons, List.not_mem_nil, or_false] at he
  rcases he with rfl | rfl <;> rfl

/-- Two interrupts, one after the other. -/
theorem interrupts_atomic_key : ∃ m, tickAndKey.foldlM (Computer.step linked)
      ⟨gdtFlush Cpu.init, kmainInstall linked Kernel.init, .test, []⟩ = some m ∧ m.cpu = gdtFlush Cpu.init ∧
    m.kernel.ticks = 1 ∧ m.kernel.kbd = pressedA := by
  obtain ⟨m, hrun⟩ := lines_run linked_distinct (c := Cpu.init) (k := Kernel.init) rfl (by decide) tickAndKey_lines
  obtain ⟨hcpu, hticks, -, ⟨_, hkeys, -⟩, -⟩ := interrupts_atomic linked_distinct rfl
    (fun f hf => by simp [tickAndKey] at hf) hrun
  have hpressed : [KeyMove.scancode 0x1E].foldlM KeySystem.move .init = some ⟨pressedA, .test, [97], []⟩ := rfl
  refine ⟨m, hrun, hcpu, hticks.trans (by decide), ?_⟩
  exact congrArg KeySystem.kbd (Option.some.inj (hkeys.symm.trans hpressed))

end DahleOS
