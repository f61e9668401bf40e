import DahleOS.Lib.Ring
import DahleOS.Model.Keyboard
import Mathlib.Logic.Relation

/-!
# Keys are neither lost nor doubled

The interrupt handler and `keyboard_getchar` take turns in any order, an interrupt between
any two steps of the reader. Ghost state records which characters went into the ring and
which were returned.

* `kbdHandler_queued`, `keyboardGetchar_queued`: one move of either party.
* `key_ring_fifo`: what was returned is a prefix of what went in, and a character is only
  dropped when 255 are waiting.
-/

namespace DahleOS

open CArray

/-- The driver, the reader, and what went into the ring and came out of it. -/
structure KeySystem where
  kbd : Kbd
  reader : Getchar
  accepted : List UInt8
  returned : List UInt8

def KeySystem.init : KeySystem := ⟨.init, .test, [], []⟩

/-- **One move**: an interrupt, or a step of the reader. A character went into the ring if
the head moved. -/
inductive KeyStep (s : KeySystem) : KeySystem → Prop
  | interrupt (sc : UInt8) {c : UInt8} {k k' : Kbd} : kbdDecode s.kbd sc = some (c, k) →
    kbdHandler s.kbd sc = some k' →
    KeyStep s { s with
      kbd := k', accepted := if k'.head = s.kbd.head then s.accepted else s.accepted ++ [c] }
  | reader {r : Getchar} {k : Kbd} {out : Option UInt8} : keyboardGetchar s.kbd s.reader = some (r, k, out) →
    KeyStep s { s with reader := r, kbd := k, returned := s.returned ++ out.toList }

/-- The characters in the ring. -/
abbrev Kbd.Queue (k : Kbd) (q : List UInt8) : Prop := RingBuffer.Holds k.buf k.head k.tail q

/-! ## The handler -/

variable {k k' : Kbd} {c : UInt8} {q : List UInt8}

/-- Both tables have as many entries. -/
theorem length_table (k : Kbd) : k.table.length = norm.length := by
  unfold Kbd.table
  split
  · decide
  · rfl

theorem kbdDecode_total (k : Kbd) (sc : UInt8) : ∃ c k', kbdDecode k sc = some (c, k') := by
  unfold kbdDecode
  split_ifs with h₁ h₂ h₃ h₄ h₅ h₆ h₇
  · exact ⟨_, _, rfl⟩
  · exact ⟨_, _, rfl⟩
  · exact ⟨_, _, rfl⟩
  · exact ⟨_, _, rfl⟩
  · exact ⟨_, _, rfl⟩
  · exact ⟨_, _, rfl⟩
  · have hi : sc.toNat < k.table.length := by rw [length_table]; exact h₇
    exact ⟨k.table[sc.toNat], k, by rw [List.getElem?_eq_getElem hi]; rfl⟩
  · exact ⟨_, _, rfl⟩

/-- A scancode sets flags only. -/
theorem kbdDecode_ring {sc : UInt8} (h : kbdDecode k sc = some (c, k')) :
    k'.buf = k.buf ∧ k'.head = k.head ∧ k'.tail = k.tail := by
  unfold kbdDecode at h
  split_ifs at h
  · cases h; exact ⟨rfl, rfl, rfl⟩
  · cases h; exact ⟨rfl, rfl, rfl⟩
  · cases h; exact ⟨rfl, rfl, rfl⟩
  · cases h; exact ⟨rfl, rfl, rfl⟩
  · cases h; exact ⟨rfl, rfl, rfl⟩
  · cases h; exact ⟨rfl, rfl, rfl⟩
  · obtain ⟨c', -, h⟩ := Option.bind_eq_some_iff.1 h
    cases h; exact ⟨rfl, rfl, rfl⟩
  · cases h; exact ⟨rfl, rfl, rfl⟩

theorem kbdEnqueue_queued (h : k.Queue q) (c : UInt8) : ∃ k', kbdEnqueue k c = some k' ∧
    ((k' = k ∧ q.length = 255) ∨ (k'.head ≠ k.head ∧ k'.Queue (q ++ [c]))) := by
  have hfull := h.full_iff
  have hl := h.length
  unfold kbdEnqueue
  by_cases hroom : (k.head + 1) % 256 = k.tail
  · exact ⟨k, by simp [hroom], Or.inl ⟨rfl, by have := hfull.1 hroom; omega⟩⟩
  · have hlt : q.length + 1 < 256 := by
      have hne : q.length + 1 ≠ 256 := fun hq => hroom (hfull.2 hq)
      omega
    obtain ⟨buf, hbuf, hpush⟩ := h.push hlt c
    have hrange := h.head_range
    refine ⟨{ k with buf, head := (k.head + 1) % 256 }, by simp [hroom, hbuf], Or.inr ⟨?_, hpush⟩⟩
    simp only
    omega

/-- **An interrupt** leaves the queue, or appends the character. -/
theorem kbdHandler_queued (h : k.Queue q) (sc : UInt8) :
    ∃ c k₁ k', kbdDecode k sc = some (c, k₁) ∧ kbdHandler k sc = some k' ∧
      ((k'.head = k.head ∧ (c = 0 ∨ q.length = 255) ∧ k'.Queue q) ∨
        (k'.head ≠ k.head ∧ k'.Queue (q ++ [c]))) := by
  obtain ⟨c, k₁, hdec⟩ := kbdDecode_total k sc
  obtain ⟨hbuf, hhead, htail⟩ := kbdDecode_ring hdec
  have h₁ : k₁.Queue q := by unfold Kbd.Queue; rw [hbuf, hhead, htail]; exact h
  refine ⟨c, k₁, ?_⟩
  unfold kbdHandler
  by_cases hc : c = 0
  · exact ⟨k₁, hdec, by simp [hdec, hc], Or.inl ⟨hhead, Or.inl hc, h₁⟩⟩
  · obtain ⟨k', hk', hcases⟩ := kbdEnqueue_queued h₁ c
    refine ⟨k', hdec, by simp [hdec, hc, hk'], ?_⟩
    rcases hcases with ⟨rfl, hfull⟩ | ⟨hne, hpush⟩
    · exact Or.inl ⟨hhead, Or.inr hfull, h₁⟩
    · exact Or.inr ⟨by rw [← hhead]; exact hne, hpush⟩

/-! ## Runs -/

/-- **What is in the ring** is what went in and has not come out; the reader is past its
test only if there is something, and has read the front of it. -/
structure KeySystem.Queued (s : KeySystem) (q : List UInt8) : Prop where
  ring : s.kbd.Queue q
  log : s.accepted = s.returned ++ q
  read : s.reader = .read → q ≠ []
  advance : ∀ c, s.reader = .advance c → q.head? = some c

variable {s s' : KeySystem}

theorem KeySystem.Queued.init : KeySystem.init.Queued [] where
  ring := .start _ (by decide)
  log := rfl
  read := fun h => by cases h
  advance := fun c h => by cases h

/-- **A step of the reader** leaves the queue, or takes its front. -/
theorem keyboardGetchar_queued (h : s.Queued q) : ∃ r k out, keyboardGetchar s.kbd s.reader = some (r, k, out) ∧
    ∃ q', KeySystem.Queued { s with reader := r, kbd := k, returned := s.returned ++ out.toList } q' := by
  cases hr : s.reader with
  | test =>
    refine ⟨_, _, _, rfl, q, ?_⟩
    refine { ring := h.ring, log := by simpa using h.log, read := ?_, advance := ?_ }
    · intro hread hq
      -- past the test there is something to read
      simp only [h.ring.empty_iff.2 hq, if_true] at hread
      cases hread
    · intro c hadv
      simp only at hadv
      split at hadv <;> cases hadv
  | read =>
    obtain ⟨c, rest, rfl⟩ := List.exists_cons_of_ne_nil (h.read hr)
    refine ⟨.advance c, s.kbd, none, by simp [keyboardGetchar, h.ring.front], c :: rest, ?_⟩
    exact
      { ring := h.ring
        log := by simpa using h.log
        read := fun hread => by cases hread
        advance := fun c' hadv => by cases hadv; rfl }
  | advance c =>
    have hfront := h.advance c hr
    obtain ⟨rest, rfl⟩ : ∃ rest, q = c :: rest := ⟨q.tail, (List.cons_head?_tail hfront).symm⟩
    refine ⟨_, _, _, rfl, rest, ?_⟩
    exact
      { ring := h.ring.pop
        log := by simpa using h.log
        read := fun hread => by cases hread
        advance := fun c' hadv => by cases hadv }

/-- An interrupt appends behind what the reader sees. -/
theorem KeySystem.Queued.push (h : s.Queued q) {k' : Kbd} {c : UInt8}
    (hring : k'.Queue (q ++ [c])) :
    KeySystem.Queued { s with kbd := k', accepted := s.accepted ++ [c] } (q ++ [c]) where
  ring := hring
  log := by simp only [h.log, List.append_assoc]
  read := fun _ => by simp
  advance := fun c' hadv => by rw [List.head?_append, h.advance c' hadv]; rfl

theorem KeyStep.queued (hstep : KeyStep s s') (h : s.Queued q) : ∃ q', s'.Queued q' := by
  cases hstep with
  | interrupt sc hdec hhandler =>
    obtain ⟨c, k₁, k', hdec', hhandler', hcases⟩ := kbdHandler_queued h.ring sc
    cases hdec.symm.trans hdec'
    cases hhandler.symm.trans hhandler'
    rcases hcases with ⟨hsame, -, hring⟩ | ⟨hmoved, hring⟩
    · rw [if_pos hsame]
      exact ⟨q, { ring := hring, log := h.log, read := h.read, advance := h.advance }⟩
    · rw [if_neg hmoved]
      exact ⟨_, h.push hring⟩
  | reader hget =>
    obtain ⟨r, k, out, hget', q', h'⟩ := keyboardGetchar_queued h
    cases hget.symm.trans hget'
    exact ⟨q', h'⟩

theorem KeyStep.run (hrun : Relation.ReflTransGen KeyStep KeySystem.init s) : ∃ q, s.Queued q := by
  induction hrun with
  | refl => exact ⟨[], .init⟩
  | tail _ hstep ih =>
    obtain ⟨q, h⟩ := ih
    exact hstep.queued h

/-- **The key ring is a queue.** In every state that interrupts and steps of the reader
lead to, what `keyboard_getchar` returned is a prefix of what went into the ring, head and
tail are in range, the next move of either party succeeds, and a scancode whose character
does not go in finds 255 characters waiting. -/
theorem key_ring_fifo (hrun : Relation.ReflTransGen KeyStep KeySystem.init s) :
    s.returned <+: s.accepted ∧ (0 ≤ s.kbd.head ∧ s.kbd.head < 256) ∧ (0 ≤ s.kbd.tail ∧ s.kbd.tail < 256) ∧
    (∀ sc, ∃ c k k', kbdDecode s.kbd sc = some (c, k) ∧ kbdHandler s.kbd sc = some k' ∧
      (c ≠ 0 → k'.head = s.kbd.head → s.accepted.length = s.returned.length + 255)) ∧
    ∃ next, keyboardGetchar s.kbd s.reader = some next := by
  obtain ⟨q, h⟩ := KeyStep.run hrun
  refine ⟨⟨q, h.log.symm⟩, h.ring.head_range, h.ring.tail_range, ?_, ?_⟩
  · intro sc
    obtain ⟨c, k, k', hdec, hhandler, hcases⟩ := kbdHandler_queued h.ring sc
    refine ⟨c, k, k', hdec, hhandler, ?_⟩
    intro hc hsame
    rcases hcases with ⟨-, hwhy, -⟩ | ⟨hmoved, -⟩
    · have hfull := hwhy.resolve_left hc
      rw [h.log, List.length_append, hfull]
    · exact absurd hsame hmoved
  · obtain ⟨r, k, out, hget, -⟩ := keyboardGetchar_queued h
    exact ⟨_, hget⟩

/-- The driver after the key `a`. -/
def pressedA : Kbd := { Kbd.init with buf := Function.update Kbd.init.buf ⟨0, by decide⟩ 97, head := 1 }

/-- The key `a` is pressed and read. -/
theorem key_ring_fifo_a : ∃ s, Relation.ReflTransGen KeyStep KeySystem.init s ∧ s.returned = [97] ∧
    s.returned <+: s.accepted ∧ s.kbd.tail < 256 := by
  have h₁ : KeyStep KeySystem.init ⟨pressedA, .test, [97], []⟩ := .interrupt 0x1E rfl rfl
  have h₂ : KeyStep ⟨pressedA, .test, [97], []⟩ ⟨pressedA, .read, [97], []⟩ :=
    @KeyStep.reader _ .read pressedA none rfl
  have h₃ : KeyStep ⟨pressedA, .read, [97], []⟩ ⟨pressedA, .advance 97, [97], []⟩ :=
    @KeyStep.reader _ (.advance 97) pressedA none rfl
  have h₄ : KeyStep ⟨pressedA, .advance 97, [97], []⟩ ⟨{ pressedA with tail := 1 }, .test, [97], [97]⟩ :=
    @KeyStep.reader _ .test { pressedA with tail := 1 } (some 97) rfl
  have hrun := (((Relation.ReflTransGen.single h₁).tail h₂).tail h₃).tail h₄
  obtain ⟨hpre, -, htail, -⟩ := key_ring_fifo hrun
  exact ⟨_, hrun, rfl, hpre, htail.2⟩

end DahleOS
