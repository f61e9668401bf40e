import DahleOS.Proof.HistoryKeys
import DahleOS.Proof.InterruptRun

/-!
# From the keys to the command

Somebody types a line. The scancodes come in as interrupts, at any time; the ring keeps the
characters; the shell reads them, edits its line and runs it.

* `typed`: the characters that a stream of scancodes makes.
* `Lossless.move`: until 255 characters were made, all of them go into the ring.
* `typed_strokes`: the keys of a text make the text.
* `typed_line_runs`: the line that is typed is the line that is run.
-/

namespace DahleOS

open CArray PartialRun X86

variable {k k' : Kbd} {c sc : UInt8} {s s' : KeySystem} {l : List KeyMove} {text : Str} {caps : Bool}

/-! ## Characters from scancodes -/

/-- `shift`, `caps` and `ext`. -/
structure KeyFlags where
  shift : Bool
  caps : Bool
  ext : Bool
  deriving DecidableEq

def Kbd.flags (k : Kbd) : KeyFlags := ⟨k.shift, k.caps, k.ext⟩

/-- A driver with these flags. -/
def KeyFlags.kbd (f : KeyFlags) : Kbd := { Kbd.init with shift := f.shift, caps := f.caps, ext := f.ext }

/-- One scancode: the flags, and the character behind what was typed so far. -/
def typeStep (p : KeyFlags × List UInt8) (sc : UInt8) : KeyFlags × List UInt8 :=
  match kbdDecode p.1.kbd sc with
  | some (c, k) => (k.flags, if c = 0 then p.2 else p.2 ++ [c])
  | none => p

/-- **What the scancodes type**, from these flags on. -/
def typed (f : KeyFlags) (scs : List UInt8) : KeyFlags × List UInt8 := scs.foldl typeStep (f, [])

/-- The decoder looks at the flags only. -/
theorem kbdDecode_flags (h : kbdDecode k sc = some (c, k')) :
    ∃ k₁, kbdDecode k.flags.kbd sc = some (c, k₁) ∧ k₁.flags = k'.flags := by
  have hext : k.flags.kbd.ext = k.ext := rfl
  have htable : k.flags.kbd.table = k.table := rfl
  unfold kbdDecode at h ⊢
  rw [hext, htable]
  split_ifs at h ⊢
  · cases h; exact ⟨_, rfl, rfl⟩
  · cases h; exact ⟨_, rfl, rfl⟩
  · cases h; exact ⟨_, rfl, rfl⟩
  · cases h; exact ⟨_, rfl, rfl⟩
  · cases h; exact ⟨_, rfl, rfl⟩
  · cases h; exact ⟨_, rfl, rfl⟩
  · obtain ⟨c', hc', h⟩ := Option.bind_eq_some_iff.1 h
    cases h
    exact ⟨k.flags.kbd, by rw [hc']; rfl, rfl⟩
  · cases h; exact ⟨_, rfl, rfl⟩

theorem typeStep_decode (h : kbdDecode k sc = some (c, k')) (out : List UInt8) :
    typeStep (k.flags, out) sc = (k'.flags, if c = 0 then out else out ++ [c]) := by
  obtain ⟨k₁, hdec, hflags⟩ := kbdDecode_flags h
  unfold typeStep
  rw [hdec, ← hflags]

/-- What is typed only gets longer. -/
theorem typeStep_begins (p : KeyFlags × List UInt8) (sc : UInt8) : p.2 <+: (typeStep p sc).2 := by
  unfold typeStep
  split
  · dsimp only
    split
    · exact List.prefix_rfl
    · exact List.prefix_append ..
  · exact List.prefix_rfl

/-- The handler leaves the flags to the decoder. -/
theorem kbdHandler_flags (hdec : kbdDecode k sc = some (c, k')) {k₂ : Kbd} (h : kbdHandler k sc = some k₂) :
    k₂.flags = k'.flags := by
  unfold kbdHandler at h
  rw [hdec, Option.bind_eq_bind, Option.bind_some] at h
  by_cases hc : c = 0
  · simp only [if_pos hc] at h
    cases h
    rfl
  · simp only [if_neg hc, kbdEnqueue] at h
    split at h
    · obtain ⟨buf, -, h⟩ := Option.bind_eq_some_iff.1 h
      cases h
      rfl
    · cases h
      rfl

/-! ## Nothing is lost -/

/-- The scancode of a move. -/
def KeyMove.code : KeyMove → Option UInt8
  | scancode sc => some sc
  | getchar => none

/-- **Nothing was lost**: all that the scancodes typed went into the ring. -/
structure Lossless (f : KeyFlags) (scs : List UInt8) (s : KeySystem) : Prop where
  queued : ∃ q, s.Queued q
  flags : s.kbd.flags = (typed f scs).1
  accepted : s.accepted = (typed f scs).2

theorem keyboardGetchar_flags {r r' : Getchar} {out : Option UInt8} (h : keyboardGetchar k r = some (r', k', out)) :
    k'.flags = k.flags := by
  cases r with
  | test => cases h; rfl
  | read =>
    obtain ⟨c, -, h⟩ := Option.bind_eq_some_iff.1 h
    cases h; rfl
  | advance c => cases h; rfl

/-- **One move**, while there is room. -/
theorem Lossless.move {f : KeyFlags} {scs : List UInt8} (h : Lossless f scs s) {a : KeyMove}
    (hroom : (typed f (scs ++ a.code.toList)).2.length ≤ 255) (hmove : s.move a = some s') :
    Lossless f (scs ++ a.code.toList) s' := by
  obtain ⟨q, hq⟩ := h.queued
  have hq' := (KeySystem.move_step hmove).queued hq
  cases a with
  | getchar =>
    obtain ⟨⟨r, kbd, out⟩, hget, hmove⟩ := Option.bind_eq_some_iff.1 hmove
    cases hmove
    simp only [KeyMove.code, Option.toList_none, List.append_nil]
    exact ⟨hq', (keyboardGetchar_flags hget).trans h.flags, h.accepted⟩
  | scancode sc =>
    obtain ⟨⟨c, k⟩, hdec, hmove⟩ := Option.bind_eq_some_iff.1 hmove
    obtain ⟨kbd, hhandler, hmove⟩ := Option.bind_eq_some_iff.1 hmove
    cases hmove
    have htyped : typed f (scs ++ [sc]) = (k.flags, if c = 0 then s.accepted else s.accepted ++ [c]) := by
      have hlast : typed f (scs ++ [sc]) = typeStep (s.kbd.flags, s.accepted) sc := by
        rw [h.flags, h.accepted]
        exact List.foldl_append
      rw [hlast, typeStep_decode hdec]
    simp only [KeyMove.code, Option.toList_some] at hroom ⊢
    rw [htyped] at hroom
    refine ⟨hq', ?_, ?_⟩
    · rw [htyped]
      exact kbdHandler_flags hdec hhandler
    · rw [htyped]
      dsimp only at hroom ⊢
      obtain ⟨c', k₁, kbd', hdec', hhandler', hcases⟩ := kbdHandler_queued hq.ring sc
      cases hdec.symm.trans hdec'
      cases hhandler.symm.trans hhandler'
      by_cases hc : c = 0
      · have hsame : kbd.head = s.kbd.head := by
          unfold kbdHandler at hhandler
          simp only [hdec, Option.bind_eq_bind, Option.bind_some, if_pos hc] at hhandler
          cases hhandler
          exact (kbdDecode_ring hdec).2.1
        rw [if_pos hsame, if_pos hc]
      · rw [if_neg hc] at hroom ⊢
        rw [List.length_append, List.length_singleton, hq.log, List.length_append] at hroom
        rcases hcases with ⟨-, hwhy, -⟩ | ⟨hmoved, -⟩
        · have hfull := hwhy.resolve_left hc
          omega
        · rw [if_neg hmoved]

theorem typed_begins (f : KeyFlags) (a b : List UInt8) : (typed f a).2 <+: (typed f (a ++ b)).2 := by
  have hrun : ∀ (b : List UInt8) (p : KeyFlags × List UInt8), p.2 <+: (b.foldl typeStep p).2 := by
    intro b
    induction b with
    | nil => exact fun p => List.prefix_rfl
    | cons sc b ih => exact fun p => (typeStep_begins p sc).trans (ih _)
  unfold typed
  rw [List.foldl_append]
  exact hrun b _

theorem Lossless.moves (hmoves : l.foldlM KeySystem.move .init = some s)
    (hroom : (typed Kbd.init.flags (l.filterMap KeyMove.code)).2.length ≤ 255) :
    Lossless Kbd.init.flags (l.filterMap KeyMove.code) s := by
  induction l using List.reverseRecOn generalizing s with
  | nil =>
    cases hmoves
    exact ⟨⟨[], .init⟩, rfl, rfl⟩
  | append_singleton l a ih =>
    obtain ⟨s₁, hmoves, hmove⟩ := foldlM_snoc.1 hmoves
    rw [filterMap_snoc] at hroom ⊢
    have hle := (typed_begins Kbd.init.flags (l.filterMap KeyMove.code) a.code.toList).length_le
    exact (ih hmoves (hle.trans hroom)).move hroom hmove

/-! ## The keys of a text -/

/-- The key of a character, and whether it needs Shift. -/
def keyOf (c : UInt8) : Bool × UInt8 :=
  if c ∈ norm then (false, UInt8.ofNat (norm.idxOf c)) else (true, UInt8.ofNat (shft.idxOf c))

/-- The key is pressed and let go, with Shift where that and Caps Lock make the character. -/
def strokes (caps : Bool) (c : UInt8) : List UInt8 :=
  let (up, sc) := keyOf c
  if up ^^ caps then [0x2A, sc, sc ||| 0x80, 0xAA] else [sc, sc ||| 0x80]

/-- The characters of a line. -/
def Typable (c : UInt8) : Prop := c = 10 ∨ 32 ≤ c ∧ c < 127

instance (c : UInt8) : Decidable (Typable c) := inferInstanceAs (Decidable (_ ∨ _))

/-- What was typed before does not matter. -/
theorem typed_from (f : KeyFlags) (out scs : List UInt8) :
    scs.foldl typeStep (f, out) = ((typed f scs).1, out ++ (typed f scs).2) := by
  have hstep : ∀ (p : KeyFlags × List UInt8) (sc : UInt8),
      typeStep (p.1, out ++ p.2) sc = ((typeStep p sc).1, out ++ (typeStep p sc).2) := by
    intro p sc
    unfold typeStep
    dsimp only
    split
    · dsimp only
      split
      · rfl
      · rw [List.append_assoc]
    · rfl
  have hrun : ∀ (scs : List UInt8) (p : KeyFlags × List UInt8),
      scs.foldl typeStep (p.1, out ++ p.2) = ((scs.foldl typeStep p).1, out ++ (scs.foldl typeStep p).2) := by
    intro scs
    induction scs with
    | nil => exact fun p => rfl
    | cons sc scs ih =>
      intro p
      rw [List.foldl_cons, hstep, ih, List.foldl_cons]
  have h := hrun scs (f, [])
  rwa [List.append_nil] at h

theorem typed_append (f : KeyFlags) (a b : List UInt8) : typed f (a ++ b) =
    ((typed (typed f a).1 b).1, (typed f a).2 ++ (typed (typed f a).1 b).2) := by
  have happend : typed f (a ++ b) = b.foldl typeStep (typed f a) := List.foldl_append
  rw [happend]
  exact typed_from ..

/-- **The strokes of a character type it**, and leave the flags as they were. -/
theorem typed_stroke (caps : Bool) (hc : Typable c) :
    typed ⟨false, caps, false⟩ (strokes caps c) = (⟨false, caps, false⟩, [c]) := by
  have hall : ∀ (caps : Bool) (n : Fin 256), Typable (UInt8.ofNat n) →
      typed ⟨false, caps, false⟩ (strokes caps (UInt8.ofNat n)) = (⟨false, caps, false⟩, [UInt8.ofNat n]) := by
    decide +kernel
  have h := hall caps ⟨c.toNat, c.toNat_lt⟩
  rw [UInt8.ofNat_toNat] at h
  exact h hc

/-- **The keys of a text type the text.** -/
theorem typed_strokes (caps : Bool) {cs : List UInt8} (hcs : ∀ c ∈ cs, Typable c) :
    typed ⟨false, caps, false⟩ (cs.flatMap (strokes caps)) = (⟨false, caps, false⟩, cs) := by
  induction cs with
  | nil => rfl
  | cons c cs ih =>
    obtain ⟨hc, hcs⟩ := List.forall_mem_cons.1 hcs
    rw [List.flatMap_cons, typed_append, typed_stroke caps hc, ih hcs]
    rfl

/-- The keyboard, before the text: Caps Lock or not. -/
def capsLock (caps : Bool) : List UInt8 := if caps then [0x3A, 0xBA] else []

theorem typed_text (caps : Bool) {cs : List UInt8} (hcs : ∀ c ∈ cs, Typable c) :
    typed Kbd.init.flags (capsLock caps ++ cs.flatMap (strokes caps)) = (⟨false, caps, false⟩, cs) := by
  have hlock : typed Kbd.init.flags (capsLock caps) = (⟨false, caps, false⟩, []) := by
    cases caps <;> decide
  rw [typed_append, hlock]
  exact typed_strokes caps hcs

/-! ## The reader catches up -/

theorem move_getchar {r : Getchar} {out : Option UInt8} (h : keyboardGetchar s.kbd s.reader = some (r, k, out)) :
    s.move .getchar = some { s with reader := r, kbd := k, returned := s.returned ++ out.toList } := by
  simp only [KeySystem.move, h, Option.bind_eq_bind, Option.bind_some, Option.pure_def]

/-- `n` steps of `keyboard_getchar`. -/
def KeySystem.reads (n : ℕ) (s : KeySystem) : Option KeySystem := (List.replicate n KeyMove.getchar).foldlM KeySystem.move s

theorem KeySystem.reads_succ {n : ℕ} (hmove : s.move .getchar = some s') : s.reads (n + 1) = s'.reads n := by
  rw [reads, List.replicate_succ, List.foldlM_cons, hmove]
  rfl

/-- The character at the front is returned. -/
theorem KeySystem.Queued.readChar {rest : List UInt8} (h : s.Queued (c :: rest)) :
    ∃ n s', s.reads n = some s' ∧ s'.Queued rest ∧ s'.accepted = s.accepted ∧ s'.reader = .test := by
  have hadvance : ∀ s : KeySystem, s.reader = .advance c → s.Queued (c :: rest) →
      ∃ s', s.reads 1 = some s' ∧ s'.Queued rest ∧ s'.accepted = s.accepted ∧ s'.reader = .test := by
    intro s hr h
    have hget : keyboardGetchar s.kbd s.reader = some (.test, { s.kbd with tail := (s.kbd.tail + 1) % 256 }, some c) := by
      rw [hr]
      rfl
    refine ⟨_, (reads_succ (move_getchar hget)).trans rfl, ?_, rfl, rfl⟩
    exact
      { ring := h.ring.pop
        log := by simpa using h.log
        read := fun hread => by cases hread
        advance := fun c' hadv => by cases hadv }
  have hread : ∀ s : KeySystem, s.reader = .read → s.Queued (c :: rest) →
      ∃ s', s.reads 2 = some s' ∧ s'.Queued rest ∧ s'.accepted = s.accepted ∧ s'.reader = .test := by
    intro s hr h
    have hget : keyboardGetchar s.kbd s.reader = some (.advance c, s.kbd, none) := by
      rw [hr]
      simp [keyboardGetchar, h.ring.front]
    have hmove := move_getchar hget
    obtain ⟨s', hreads, h'⟩ := hadvance { s with reader := .advance c, returned := s.returned ++ [] } rfl
      { ring := h.ring
        log := by simpa using h.log
        read := fun hread => by cases hread
        advance := fun c' hadv => by cases hadv; rfl }
    exact ⟨s', (reads_succ hmove).trans hreads, h'⟩
  cases hr : s.reader with
  | advance c' =>
    obtain rfl : c = c' := Option.some.inj (h.advance c' hr)
    exact ⟨1, hadvance s hr h⟩
  | read => exact ⟨2, hread s hr h⟩
  | test =>
    have hne : s.kbd.head ≠ s.kbd.tail := fun heq => List.cons_ne_nil c rest (h.ring.empty_iff.1 heq)
    have hget : keyboardGetchar s.kbd s.reader = some (.read, s.kbd, none) := by
      rw [hr]
      simp [keyboardGetchar, hne]
    obtain ⟨s', hreads, h'⟩ := hread { s with reader := .read, returned := s.returned ++ [] } rfl
      { ring := h.ring
        log := by simpa using h.log
        read := fun _ => List.cons_ne_nil c rest
        advance := fun c' hadv => by cases hadv }
    exact ⟨3, s', (reads_succ (move_getchar hget)).trans hreads, h'⟩

theorem KeySystem.reads_add {m n : ℕ} (h : s.reads m = some s') : s.reads (m + n) = s'.reads n := by
  unfold reads at h ⊢
  rw [← List.replicate_append_replicate, List.foldlM_append, h]
  rfl

/-- **All that waits is returned**, if only the reader goes on. -/
theorem KeySystem.Queued.readAll {q : List UInt8} (h : s.Queued q) : ∃ n s', s.reads n = some s' ∧ s'.returned = s.accepted := by
  induction q generalizing s with
  | nil => exact ⟨0, s, rfl, by rw [h.log, List.append_nil]⟩
  | cons c rest ih =>
    obtain ⟨n, s₁, hreads, h₁, haccepted, -⟩ := h.readChar
    obtain ⟨n', s', hreads', hall⟩ := ih h₁
    exact ⟨n + n', s', (reads_add hreads).trans hreads', hall.trans haccepted⟩

/-- The keyboard of a computer. -/
def Computer.keys (m : Computer) (accepted : List UInt8) : KeySystem := ⟨m.kernel.kbd, m.reader, accepted, m.returned⟩

/-- The program of the computer reads on. -/
theorem Computer.reads (sym : Symbols) {m : Computer} {accepted : List UInt8} {n : ℕ}
    (h : (m.keys accepted).reads n = some s) : ∃ m', (List.replicate n Event.getchar).foldlM (Computer.step sym) m = some m' ∧
      m'.returned = s.returned := by
  induction n generalizing m with
  | zero =>
    cases h
    exact ⟨m, rfl, rfl⟩
  | succ n ih =>
    unfold KeySystem.reads at h
    rw [List.replicate_succ, List.foldlM_cons] at h
    obtain ⟨s₁, hmove, h⟩ := Option.bind_eq_some_iff.1 h
    obtain ⟨⟨r, kbd, out⟩, hget, hmove⟩ := Option.bind_eq_some_iff.1 hmove
    cases hmove
    obtain ⟨m', hrun, hreturned⟩ := ih
      (m := { m with kernel := { m.kernel with kbd }, reader := r, returned := m.returned ++ out.toList }) h
    refine ⟨m', ?_, hreturned⟩
    have hget' : keyboardGetchar m.kernel.kbd m.reader = some (r, kbd, out) := hget
    rw [List.replicate_succ, List.foldlM_cons]
    simp only [Computer.step, hget', Option.bind_eq_bind, Option.bind_some, Option.pure_def]
    exact hrun

/-! ## The shell -/

variable {st : Console}

/-- **The shell reads a line.** -/
theorem Shown.read {more : Str} (h : Shown st text) (hn : 0 ≤ st.histN) (hp : Printable more)
    (hl : text.length + more.length ≤ 255) : ∃ st', shellRead st (more.map Subtype.val ++ [10]) = some (text ++ more, st') ∧ Shown st' [] := by
  induction more generalizing st text with
  | nil =>
    obtain ⟨t, off, hshows, -, -⟩ := h.screen
    obtain ⟨screen, hnewline, -, hshows'⟩ := putchar_shows hshows 10
    obtain ⟨e, henter⟩ := h.enter hn
    refine ⟨⟨e, screen⟩, ?_, (h.entered henter).2 screen hshows'.row_lt (hshows'.col ▸ hshows'.col_lt)⟩
    rw [List.map_nil, List.nil_append, shellRead, if_pos rfl, hnewline, Option.bind_eq_bind, Option.bind_some, henter,
      List.append_nil]
    rfl
  | cons ch more ih =>
    obtain ⟨hch, hp⟩ := List.forall_mem_cons.1 hp
    rw [List.length_cons] at hl
    obtain ⟨st₁, hkey, h₁, -⟩ := h.type (by omega) hch
    obtain ⟨st', hread, h'⟩ := ih h₁ ((shellKey_hist hkey).2 ▸ hn) hp (by rw [List.length_append, List.length_singleton]; omega)
    refine ⟨st', ?_, h'⟩
    have hne : ch.val ≠ 10 := fun heq => absurd hch.1 (by rw [heq]; decide)
    rw [List.map_cons, List.cons_append, shellRead, if_neg hne, hkey, Option.bind_eq_bind, Option.bind_some, hread,
      List.append_assoc]
    rfl

/-! ## The whole way -/

/-- The scancode of an event. -/
def Event.code (e : Event) : Option UInt8 := e.key.bind KeyMove.code

/-- **The line that is typed is the line that is run.** Somebody types a text and Enter, with Caps
Lock or without; other interrupts come, and the program computes and reads, in any order. Then
what the program has read is always the beginning of the line; if it reads on, without any
further interrupt, it gets all of it; and the shell at its prompt, from these characters, runs
exactly the text, where its `hist_n` is not negative. -/
theorem typed_line_runs {sym : Symbols} {c : Cpu} {k : Kernel} {es : List Event} {m : Computer} {text : Str} {caps : Bool}
    (hsym : sym.Distinct) (hk : k.kbd = .init) (hprog : ∀ f, .compute f ∈ es → ∀ c : Cpu, (f c).seg = c.seg)
    (hrun : es.foldlM (Computer.step sym) ⟨gdtFlush c, kmainInstall sym k, .test, []⟩ = some m)
    (htext : Printable text) (hl : text.length < 255)
    (hkeys : es.filterMap Event.code = capsLock caps ++ (text.map Subtype.val ++ [10]).flatMap (strokes caps)) :
    m.returned <+: text.map Subtype.val ++ [10] ∧
    ∃ n m', (List.replicate n Event.getchar).foldlM (Computer.step sym) m = some m' ∧
      m'.returned = text.map Subtype.val ++ [10] ∧
      ∀ st, Shown st [] → 0 ≤ st.histN → ∃ st', shellRead st m'.returned = some (text, st') ∧ Shown st' [] := by
  have hserved := Served.run hsym hprog hrun
  obtain ⟨accepted, hmoves⟩ := hserved.keys
  rw [hk] at hmoves
  have hcodes : (es.filterMap Event.key).filterMap KeyMove.code =
      capsLock caps ++ (text.map Subtype.val ++ [10]).flatMap (strokes caps) := by
    rw [List.filterMap_filterMap]
    exact hkeys
  have htypable : ∀ c ∈ text.map Subtype.val ++ [10], Typable c := by
    intro c hc
    rcases List.mem_append.1 hc with hc | hc
    · obtain ⟨ch, hch, rfl⟩ := List.mem_map.1 hc
      exact Or.inr (htext ch hch)
    · exact Or.inl (List.mem_singleton.1 hc)
  have htyped := typed_text caps htypable
  rw [← hcodes] at htyped
  have hlossless := Lossless.moves hmoves (by
    rw [htyped, List.length_append, List.length_map, List.length_singleton]
    exact hl)
  have haccepted : accepted = text.map Subtype.val ++ [10] := hlossless.accepted.trans (congrArg Prod.snd htyped)
  obtain ⟨q, hq⟩ := hlossless.queued
  refine ⟨haccepted ▸ ⟨q, hq.log.symm⟩, ?_⟩
  obtain ⟨n, s', hreads, hall⟩ := hq.readAll
  have hreads : (m.keys accepted).reads n = some s' := hreads
  obtain ⟨m', hrun', hreturned⟩ := Computer.reads sym hreads
  have hline : m'.returned = text.map Subtype.val ++ [10] := (hreturned.trans hall).trans haccepted
  refine ⟨n, m', hrun', hline, fun st hst hn => ?_⟩
  rw [hline]
  exact hst.read hn htext (by rw [List.length_nil]; omega)

/-- The keys of `Ls` and Enter, and a tick in between. -/
def keysLs : List Event :=
  [(irq1, 0x2A), (irq1, 0x26), (irq1, 0xA6), (irq1, 0xAA), (irq0, 0xAA), (irq1, 0x1F), (irq1, 0x9F), (irq1, 0x1C), (irq1, 0x9C)].map
    fun p => .line p.1 p.2 fun _ _ => ⟨1, 2, 3, 4, 5⟩

theorem typed_line_runs_ls : ∃ m, keysLs.foldlM (Computer.step linked)
      ⟨gdtFlush Cpu.init, kmainInstall linked Kernel.init, .test, []⟩ = some m ∧
    ∃ n m', (List.replicate n Event.getchar).foldlM (Computer.step linked) m = some m' ∧
      m'.returned = [76, 115, 10] := by
  have hlines : ∀ e ∈ keysLs, e.computation = none := by
    intro e he
    simp only [keysLs, List.map_cons, List.map_nil, List.mem_cons, List.not_mem_nil, or_false] at he
    rcases he with rfl | rfl | rfl | rfl | rfl | rfl | rfl | rfl | rfl <;> rfl
  have htext : Printable (str "Ls") :=
    List.forall_mem_cons.2 ⟨by decide, List.forall_mem_cons.2 ⟨by decide, List.forall_mem_nil _⟩⟩
  have hkeys : keysLs.filterMap Event.code =
    capsLock false ++ ((str "Ls").map Subtype.val ++ [10]).flatMap (strokes false) := rfl
  obtain ⟨m, hrun⟩ := lines_run linked_distinct (c := Cpu.init) (k := Kernel.init) rfl (by decide) hlines
  obtain ⟨-, n, m', hread, hline, -⟩ := typed_line_runs linked_distinct rfl
    (fun f hf => by simp [keysLs] at hf) hrun htext (by decide) hkeys
  exact ⟨m, hrun, n, m', hread, hline⟩

end DahleOS
