import DahleOS.Proof.KeyRing

/-!
# Is a Shift key held?

The keyboard sends scancodes for what is done to its keys; the driver keeps one flag for
both Shift keys, and looks for their codes behind the prefix E0 as well.

* `shiftAfter`: what a scancode does to the flag.
* `shift_tracked_iff`: the flag says whether a Shift key is held, at every scancode, exactly
  in runs where neither is let go while the other is held, and where a prefixed Shift code
  says what is so.
-/

namespace DahleOS

/-! ## The keyboard -/

/-- Which Shift keys are held. -/
structure ShiftKeys where
  left : Bool
  right : Bool

/-- A Shift key is held. -/
def ShiftKeys.held (p : ShiftKeys) : Bool := p.left || p.right

/-- The code of a key that is no Shift key. -/
abbrev PlainCode := { c : UInt8 // c < 0x80 ∧ c ≠ 0x2A ∧ c ≠ 0x36 ∧ c ≠ 0x60 }

/-- The code of a key behind the prefix. -/
abbrev PrefixedCode := { c : UInt8 // c < 0x80 ∧ c ≠ 0x60 }

/-- What is done to a key: pressed, or released. Prefixed codes include the Shift codes that
the keyboard itself sends around other keys. -/
inductive Keystroke
  | left (down : Bool)
  | right (down : Bool)
  | plain (code : PlainCode) (down : Bool)
  | prefixed (code : PrefixedCode) (down : Bool)

/-- The Shift keys afterwards. -/
def Keystroke.apply (p : ShiftKeys) : Keystroke → ShiftKeys
  | left down => { p with left := down }
  | right down => { p with right := down }
  | plain _ _ | prefixed _ _ => p

/-- The code of a press, or of a release. -/
def makeBreak (code : UInt8) (down : Bool) : UInt8 := if down then code else code + 0x80

/-- What the keyboard sends. -/
def Keystroke.scancodes : Keystroke → List UInt8
  | left down => [makeBreak 0x2A down]
  | right down => [makeBreak 0x36 down]
  | plain code down => [makeBreak code down]
  | prefixed code down => [0xE0, makeBreak code down]

/-! ## The driver -/

/-- The scancodes are handled, and after each of them `keyboard_shift_held` says `held`. -/
def Follows (held : Bool) : Kbd → List UInt8 → Kbd → Prop
  | k, [], k' => k' = k
  | k, sc :: scs, k' => ∃ k₁, kbdHandler k sc = some k₁ ∧ keyboardShiftHeld k₁ = held ∧ Follows held k₁ scs k'

/-- **At every scancode of the run**, `keyboard_shift_held` says whether a Shift key is
held. -/
def Tracks : ShiftKeys → Kbd → List Keystroke → Prop
  | _, _, [] => True
  | p, k, e :: es => ∃ k', Follows (e.apply p).held k e.scancodes k' ∧ Tracks (e.apply p) k' es

/-- The keystroke does not mislead the driver: no Shift key is let go while the other is
held, and a prefixed Shift code is sent as a press while one is held, as a release while
none is. -/
def Keystroke.Clean (p : ShiftKeys) : Keystroke → Prop
  | left down => down = true ∨ p.right = false
  | right down => down = true ∨ p.left = false
  | plain _ _ => True
  | prefixed code down => code.val = 0x2A ∨ code.val = 0x36 → p.held = down

/-- Every keystroke of the run is clean where it is made. -/
def AllClean : ShiftKeys → List Keystroke → Prop
  | _, [] => True
  | p, e :: es => e.Clean p ∧ AllClean (e.apply p) es

/-! ## The flag -/

/-- What a scancode does to the flag. -/
def shiftAfter (shift : Bool) (sc : UInt8) : Bool :=
  if sc = 0x2A ∨ sc = 0x36 then true else if sc = 0xAA ∨ sc = 0xB6 then false else shift

variable {k k' : Kbd} {p : ShiftKeys} {held : Bool}

theorem kbdDecode_shift {sc c : UInt8} (h : kbdDecode k sc = some (c, k')) :
    k'.shift = shiftAfter k.shift sc := by
  unfold kbdDecode at h
  unfold shiftAfter
  by_cases he : sc = 0xE0
  · rw [if_pos he] at h
    cases h
    rw [he]
    rfl
  rw [if_neg he] at h
  by_cases hpress : sc = 0x2A ∨ sc = 0x36
  · rw [if_pos hpress] at h ⊢
    cases h; rfl
  rw [if_neg hpress] at h ⊢
  by_cases hrelease : sc = 0xAA ∨ sc = 0xB6
  · rw [if_pos hrelease] at h ⊢
    cases h; rfl
  rw [if_neg hrelease] at h ⊢
  -- no other scancode touches the flag
  split_ifs at h
  · cases h; rfl
  · cases h; rfl
  · cases h; rfl
  · obtain ⟨c', -, h⟩ := Option.bind_eq_some_iff.1 h
    cases h; rfl
  · cases h; rfl

/-- **One scancode** is handled, and the ring stays a ring. -/
theorem kbdHandler_shift (h : ∃ q, k.Queue q) (sc : UInt8) :
    ∃ k', kbdHandler k sc = some k' ∧ k'.shift = shiftAfter k.shift sc ∧ ∃ q, k'.Queue q := by
  obtain ⟨q, hq⟩ := h
  obtain ⟨c, k₁, k', hdec, hhandler, hcases⟩ := kbdHandler_queued hq sc
  refine ⟨k', hhandler, ?_, ?_⟩
  · have henqueue : k'.shift = k₁.shift := by
      simp only [kbdHandler, hdec, Option.bind_eq_bind, Option.bind_some] at hhandler
      split at hhandler
      · cases hhandler; rfl
      · unfold kbdEnqueue at hhandler
        dsimp only at hhandler
        split at hhandler
        · obtain ⟨buf, -, hhandler⟩ := Option.bind_eq_some_iff.1 hhandler
          cases hhandler; rfl
        · cases hhandler; rfl
    rw [henqueue, kbdDecode_shift hdec]
  · rcases hcases with ⟨-, -, hq'⟩ | ⟨-, hq'⟩
    · exact ⟨_, hq'⟩
    · exact ⟨_, hq'⟩

/-- The flag along scancodes. -/
def shiftsAfter (shift : Bool) : List UInt8 → List Bool
  | [] => []
  | sc :: scs => shiftAfter shift sc :: shiftsAfter (shiftAfter shift sc) scs

theorem follows_iff (scs : List UInt8) : (∃ q, k.Queue q) →
    ((∃ k', Follows held k scs k') ↔ ∀ b ∈ shiftsAfter k.shift scs, b = held) := by
  induction scs generalizing k with
  | nil => exact fun _ => ⟨fun _ b hb => (by cases hb), fun _ => ⟨k, rfl⟩⟩
  | cons sc scs ih =>
    intro h
    obtain ⟨k₁, hk₁, hshift, hq⟩ := kbdHandler_shift h sc
    have ih := ih hq
    rw [hshift] at ih
    simp only [shiftsAfter, List.forall_mem_cons, ← ih]
    constructor
    · rintro ⟨k', k₂, hk₂, hheld, hf⟩
      obtain rfl := Option.some.inj (hk₁.symm.trans hk₂)
      exact ⟨hshift.symm.trans hheld, k', hf⟩
    · rintro ⟨hheld, k', hf⟩
      exact ⟨k', k₁, hk₁, hshift.trans hheld, hf⟩

theorem Follows.shift {scs : List UInt8} (h : Follows held k scs k') (hk : ∃ q, k.Queue q)
    (hs : k.shift = held) : k'.shift = held ∧ ∃ q, k'.Queue q := by
  induction scs generalizing k with
  | nil => rw [show k' = k from h]; exact ⟨hs, hk⟩
  | cons sc scs ih =>
    obtain ⟨k₁, hk₁, hheld, hf⟩ := h
    obtain ⟨k₂, hk₂, -, hq⟩ := kbdHandler_shift hk sc
    obtain rfl := Option.some.inj (hk₁.symm.trans hk₂)
    exact ih hf hq hheld

/-- After the last scancode the flag is as it was said to be. -/
theorem Follows.shift_of_ne_nil {scs : List UInt8} (h : Follows held k scs k') (hne : scs ≠ [])
    (hk : ∃ q, k.Queue q) : k'.shift = held ∧ ∃ q, k'.Queue q := by
  cases scs with
  | nil => exact absurd rfl hne
  | cons sc scs =>
    obtain ⟨k₁, hk₁, hheld, hf⟩ := h
    obtain ⟨k₂, hk₂, -, hq⟩ := kbdHandler_shift hk sc
    obtain rfl := Option.some.inj (hk₁.symm.trans hk₂)
    exact hf.shift hq hheld

/-- A code that is no Shift code leaves the flag alone, and so does its release. -/
theorem shiftAfter_makeBreak {code : UInt8} (hc : code < 0x80) (h : ¬ (code = 0x2A ∨ code = 0x36))
    (shift down : Bool) : shiftAfter shift (makeBreak code down) = shift := by
  have hlt : code.toNat < 128 := hc
  have hadd : (code + 0x80).toNat = code.toNat + 128 := by
    rw [UInt8.toNat_add]
    show (code.toNat + 128) % 256 = _
    omega
  have hne (d : UInt8) (hd : d.toNat < 128) : code + 0x80 ≠ d := fun heq => by
    have := congrArg UInt8.toNat heq
    omega
  have hne' (d : UInt8) (hd : 128 ≤ d.toNat) : code ≠ d := fun heq => by
    have := congrArg UInt8.toNat heq
    omega
  have hinj (d r : UInt8) (hr : r.toNat = d.toNat + 128) (heq : code + 0x80 = r) : code = d := by
    have := congrArg UInt8.toNat heq
    exact UInt8.toNat_inj.1 (by omega)
  unfold shiftAfter makeBreak
  cases down with
  | true =>
    simp only [if_true]
    rw [if_neg h, if_neg (not_or.2 ⟨hne' 0xAA (by decide), hne' 0xB6 (by decide)⟩)]
  | false =>
    simp only [Bool.false_eq_true, if_false]
    rw [if_neg (not_or.2 ⟨hne 0x2A (by decide), hne 0x36 (by decide)⟩),
      if_neg (not_or.2 ⟨fun heq => h (Or.inl (hinj 0x2A 0xAA rfl heq)),
        fun heq => h (Or.inr (hinj 0x36 0xB6 rfl heq))⟩)]

/-- The codes of the Shift keys set the flag. -/
theorem shiftAfter_shift {code : UInt8} (h : code = 0x2A ∨ code = 0x36) (shift down : Bool) :
    shiftAfter shift (makeBreak code down) = down := by
  rcases h with rfl | rfl
  · cases down <;> rfl
  · cases down <;> rfl

/-- **One keystroke** is followed exactly if it is clean. -/
theorem clean_iff (p : ShiftKeys) (e : Keystroke) :
    (∀ b ∈ shiftsAfter p.held e.scancodes, b = (e.apply p).held) ↔ e.Clean p := by
  cases e with
  | left down =>
    simp only [Keystroke.scancodes, shiftsAfter, List.mem_singleton, forall_eq, Keystroke.apply,
      Keystroke.Clean, shiftAfter_shift (Or.inl rfl), ShiftKeys.held]
    cases down <;> cases p.right <;> decide
  | right down =>
    simp only [Keystroke.scancodes, shiftsAfter, List.mem_singleton, forall_eq, Keystroke.apply,
      Keystroke.Clean, shiftAfter_shift (Or.inr rfl), ShiftKeys.held]
    cases down <;> cases p.left <;> decide
  | plain code down =>
    obtain ⟨code, hlt, h₁, h₂, h₃⟩ := code
    have hkeep := shiftAfter_makeBreak hlt (not_or.2 ⟨h₁, h₂⟩) p.held down
    simp only [Keystroke.scancodes, shiftsAfter, List.mem_singleton, forall_eq, Keystroke.apply,
      Keystroke.Clean, hkeep]
  | prefixed code down =>
    obtain ⟨code, hlt, h₁⟩ := code
    have hprefix : shiftAfter p.held 0xE0 = p.held := rfl
    simp only [Keystroke.scancodes, shiftsAfter, hprefix, List.forall_mem_cons, Keystroke.apply, Keystroke.Clean,
      true_and, List.mem_singleton, forall_eq]
    by_cases hshift : code = 0x2A ∨ code = 0x36
    · rw [shiftAfter_shift hshift]
      exact ⟨fun h _ => h.symm, fun h => (h hshift).symm⟩
    · rw [shiftAfter_makeBreak hlt hshift]
      exact ⟨fun _ h => absurd h hshift, fun _ => rfl⟩

theorem tracks_iff (es : List Keystroke) : (∃ q, k.Queue q) → k.shift = p.held →
    (Tracks p k es ↔ AllClean p es) := by
  induction es generalizing p k with
  | nil => exact fun _ _ => Iff.rfl
  | cons e es ih =>
    intro hq hs
    have hfollows : (∃ k', Follows (e.apply p).held k e.scancodes k') ↔ e.Clean p := by
      rw [follows_iff e.scancodes hq, hs, clean_iff]
    have hne : e.scancodes ≠ [] := by cases e <;> exact List.cons_ne_nil _ _
    simp only [Tracks, AllClean, ← hfollows]
    constructor
    · rintro ⟨k', hf, ht⟩
      obtain ⟨hs', hq'⟩ := hf.shift_of_ne_nil hne hq
      exact ⟨⟨k', hf⟩, (ih hq' hs').1 ht⟩
    · rintro ⟨⟨k', hf⟩, hc⟩
      obtain ⟨hs', hq'⟩ := hf.shift_of_ne_nil hne hq
      exact ⟨k', hf, (ih hq' hs').2 hc⟩

/-- **When Shift is tracked.** Over any run of presses and releases from power-on,
`keyboard_shift_held` says at every scancode whether a Shift key is held, if and only if
neither Shift key is ever released while the other is held, and the prefixed Shift codes
that the keyboard sends are presses while one is held and releases while none is. -/
theorem shift_tracked_iff (es : List Keystroke) :
    Tracks ⟨false, false⟩ Kbd.init es ↔ AllClean ⟨false, false⟩ es :=
  tracks_iff es ⟨[], KeySystem.Queued.init.ring⟩ rfl

/-- The code that the keyboard sends, prefixed, around other keys. -/
def fakeShift : PrefixedCode := ⟨0x2A, by decide⟩

/-- **Two keys, one flag**: left and right Shift go down and left comes up, and right Shift
is no longer held to be held. A prefixed Shift code alone passes for a Shift key. -/
theorem shift_lost : ¬ Tracks ⟨false, false⟩ Kbd.init [.left true, .right true, .left false] ∧
    ¬ Tracks ⟨false, false⟩ Kbd.init [.prefixed fakeShift true] := by
  have hiff (es : List Keystroke) : Tracks ⟨false, false⟩ Kbd.init es ↔ AllClean ⟨false, false⟩ es :=
    tracks_iff es ⟨[], KeySystem.Queued.init.ring⟩ rfl
  rw [hiff, hiff]
  simp [AllClean, Keystroke.Clean, Keystroke.apply, ShiftKeys.held, fakeShift]

end DahleOS
