import DahleOS.Lib.PartialRun
import DahleOS.Model.Screen
import DahleOS.Proof.VgaText

/-!
# Coloured printing and the colour after it

`kprint_color` restores the colour of the text buffer from `cur_fg` and `cur_bg`.
`screen_enter_vga` sets these to white on black, and the text buffer to light grey on
black.

* `Coupled.step`: how the two copies of the colour are related in text mode.
* `colour_restored_iff`: the next character keeps its colour exactly when it is drawn into
  the framebuffer, or the colour was set after the last `screen_enter_vga`.
* `colour_leaks`: the first call after boot.
-/

namespace DahleOS

open PartialRun CArray Terminal

/-! ## The text buffer -/

/-- The cursor of the text buffer is on it. -/
def VgaText.Placed (v : VgaText) : Prop := v.row < 25 ∧ v.col < 80

theorem VgaText.Placed.putchar {v : VgaText} (hv : v.Placed) (c : UInt8) :
    ∃ v', vgaTextPutchar v c = some v' ∧ v'.attr = v.attr ∧ v'.Placed := by
  obtain ⟨cells, hw⟩ := exists_window v.blank v.buf
  have hshows : Shows v ⟨cells, v.row, v.col⟩ 0 :=
    { row := (Nat.zero_add _).symm, col := rfl, row_lt := hv.1, col_lt := hv.2, window := hw }
  obtain ⟨v', hput, hattr, hshows'⟩ := putchar_shows hshows c
  exact ⟨v', hput, hattr, hshows'.row_lt, hshows'.col_lt⟩

/-- **A text** is printed, and leaves the attribute. -/
theorem VgaText.Placed.print {v : VgaText} (hv : v.Placed) (cs : List UInt8) :
    ∃ v', vgaTextPrint v cs = some v' ∧ v'.attr = v.attr ∧ v'.Placed := by
  refine foldlM_keeps (P := fun v' : VgaText => v'.attr = v.attr ∧ v'.Placed) ⟨rfl, hv⟩ ?_
  rintro c - v₁ ⟨hattr, hv₁⟩
  obtain ⟨v', hput, hattr', hv'⟩ := hv₁.putchar c
  exact ⟨v', hput, hattr'.trans hattr, hv'⟩

theorem placed_clear (v : VgaText) : ∃ v', vgaTextClear v = some v' ∧ v'.attr = v.attr ∧ v'.Placed := by
  obtain ⟨v', hclear, hattr, hshows⟩ := clear_shows v
  exact ⟨v', hclear, hattr, hshows.row_lt, hshows.col_lt⟩

theorem VgaText.Placed.backspace {v : VgaText} (hv : v.Placed) :
    ∃ v', vgaTextBackspace v = some v' ∧ v'.attr = v.attr ∧ v'.Placed := by
  obtain ⟨hrow, hcol⟩ := hv
  unfold vgaTextBackspace
  set v₁ : VgaText :=
    if 0 < v.col then { v with col := v.col - 1 }
    else if 0 < v.row then { v with row := v.row - 1, col := 80 - 1 }
    else v with hv₁
  have hplaced : v₁.attr = v.attr ∧ v₁.Placed := by
    rw [hv₁]
    split
    · exact ⟨rfl, hrow, by simp only; omega⟩
    split
    · exact ⟨rfl, by simp only; omega, by simp⟩
    · exact ⟨rfl, hrow, hcol⟩
  have hin : v₁.row * 80 + v₁.col < 25 * 80 := by
    obtain ⟨-, hr, hc⟩ := hplaced
    omega
  simp only [wr_nat v₁.buf hin]
  exact ⟨_, rfl, hplaced.1, hplaced.2⟩

namespace Screen

variable {s s' : Screen} {cs : List UInt8} {fg bg : UInt32}

/-! ## The mode -/

theorem wrap_mode (s : Screen) : s.wrap.mode = s.mode := by
  unfold wrap
  split <;> rfl

/-- A step that keeps the mode whatever it reads or writes. -/
theorem bind_mode {α : Type} {o : Option α} {f : α → Screen} (h : (do let a ← o; pure (f a)) = some s')
    (hf : ∀ a, (f a).mode = s.mode) : s'.mode = s.mode := by
  obtain ⟨a, -, heq⟩ := Option.bind_eq_some_iff.1 h
  cases heq
  exact hf a

theorem place_mode {c : UInt8} (h : s.place c = some s') : s'.mode = s.mode := by
  unfold place at h
  split at h
  · cases h; rfl
  split at h
  · cases h; rfl
  split at h
  · cases h; exact wrap_mode _
  · exact bind_mode h fun _ => wrap_mode _

theorem kprintChar_mode {c : UInt8} (h : s.kprintChar c = some s') : s'.mode = s.mode := by
  unfold kprintChar at h
  split at h
  · exact bind_mode h fun _ => rfl
  · obtain ⟨s₁, hplace, hrest⟩ := Option.bind_eq_some_iff.1 h
    have hmode := place_mode hplace
    split at hrest
    · obtain ⟨fb, -, heq⟩ := Option.bind_eq_some_iff.1 hrest
      cases heq
      exact hmode
    · cases hrest
      exact hmode

theorem kprint_mode (h : s.kprint cs = some s') : s'.mode = s.mode :=
  foldlM_holds (P := fun s' => s'.mode = s.mode) rfl
    (fun _ _ _ _ hs hstep => (kprintChar_mode hstep).trans hs) h

/-- **No call of the text API** changes the mode. -/
theorem TextOp.apply_mode {op : TextOp} (h : op.apply s = some s') : s'.mode = s.mode := by
  cases op with
  | char c => exact kprintChar_mode h
  | print cs => exact kprint_mode h
  | printColor cs fg bg =>
    simp only [TextOp.apply, kprintColor] at h
    split at h
    · exact bind_mode h fun _ => rfl
    · obtain ⟨s₁, hprint, heq⟩ := Option.bind_eq_some_iff.1 h
      have hmode := kprint_mode hprint
      cases heq
      exact hmode
  | backspace =>
    simp only [TextOp.apply, Screen.backspace] at h
    split at h
    · exact bind_mode h fun _ => rfl
    · refine bind_mode h fun fb => ?_
      dsimp only
      split_ifs <;> rfl
  | setColor fg bg =>
    cases h
    unfold Screen.setColor
    dsimp only
    split_ifs <;> rfl
  | clear =>
    simp only [TextOp.apply, Screen.clear] at h
    split at h
    · exact bind_mode h fun _ => rfl
    · exact bind_mode h fun _ => rfl

/-- **In text mode** `kprint` is `vga_text_print`. -/
theorem kprint_text (hm : s.mode = .vgaText) (cs : List UInt8) :
    s.kprint cs = (vgaTextPrint s.vga cs).map fun vga => { s with vga } := by
  induction cs generalizing s with
  | nil => rfl
  | cons c cs ih =>
    rw [kprint, List.foldlM_cons, kprintChar, if_pos hm, vgaTextPrint, List.foldlM_cons]
    cases hput : vgaTextPutchar s.vga c with
    | none => rfl
    | some vga => exact ih (s := { s with vga }) hm

/-! ## The colour of the next character -/

/-- What a character is drawn with: an attribute of the text buffer, or two colours. -/
inductive Ink
  | attr (a : UInt8)
  | rgb (fg bg : UInt32)
  deriving DecidableEq

/-- **The colour of the next character** that `kprint` draws. -/
def ink (s : Screen) : Ink := if s.mode = .vgaText then .attr s.vga.attr else .rgb s.curFg s.curBg

/-- The call gives the text buffer the colour of `cur_fg` and `cur_bg`. -/
def ConsoleOp.Recolours : ConsoleOp → Prop
  | text (.setColor _ _) => True
  | text (.printColor _ _ _) => True
  | _ => False

/-- **The colour was set** after the last `screen_enter_vga`. -/
def Recoloured (ops : List ConsoleOp) : Prop :=
  ∃ pre op post, ops = pre ++ op :: post ∧ op.Recolours ∧ .enterVga ∉ post

variable {ops : List ConsoleOp} {op : ConsoleOp}

theorem recoloured_nil : ¬ Recoloured [] := by
  rintro ⟨pre, op, post, heq, -⟩
  simp at heq

theorem recoloured_snoc : Recoloured (ops ++ [op]) ↔ op.Recolours ∨ (op ≠ .enterVga ∧ Recoloured ops) := by
  constructor
  · rintro ⟨pre, op', post, heq, hop, hpost⟩
    rcases List.eq_nil_or_concat post with rfl | ⟨post, last, rfl⟩
    · obtain ⟨-, rfl⟩ := List.append_inj' heq rfl |>.imp_right List.singleton_inj.1
      exact Or.inl hop
    · rw [List.concat_eq_append] at heq hpost
      rw [← List.cons_append, ← List.append_assoc] at heq
      obtain ⟨rfl, hlast⟩ := List.append_inj' heq rfl
      obtain rfl := List.singleton_inj.1 hlast
      rw [List.mem_append, not_or] at hpost
      refine Or.inr ⟨?_, pre, op', post, rfl, hop, hpost.1⟩
      rintro rfl
      exact hpost.2 List.mem_cons_self
  · rintro (hop | ⟨hne, pre, op', post, rfl, hop, hpost⟩)
    · exact ⟨ops, op, [], rfl, hop, List.not_mem_nil⟩
    · refine ⟨pre, op', post ++ [op], by simp, hop, ?_⟩
      rw [List.mem_append, List.mem_singleton, not_or]
      exact ⟨hpost, hne.symm⟩

/-! ## Runs -/

/-- **The two copies of the colour** in text mode: the attribute is made from `cur_fg` and
`cur_bg` once the colour was set, and before that it is the one of `vga_text_init`. -/
structure Coupled (ops : List ConsoleOp) (s : Screen) : Prop where
  placed : s.vga.Placed
  set : Recoloured ops → s.vga.attr = rgbToAttr s.curFg s.curBg
  fresh : ¬ Recoloured ops → s.vga.attr = 0x07 ∧ s.curFg = white ∧ s.curBg = black

/-- A call that is no switch and sets no colour. -/
theorem Coupled.same {s' : Screen} (h : Coupled ops s) (hsame : Recoloured (ops ++ [op]) ↔ Recoloured ops)
    (hplaced : s'.vga.Placed) (hattr : s'.vga.attr = s.vga.attr) (hfg : s'.curFg = s.curFg)
    (hbg : s'.curBg = s.curBg) : Coupled (ops ++ [op]) s' := by
  refine ⟨hplaced, ?_, ?_⟩
  · rw [hsame, hattr, hfg, hbg]
    exact h.set
  · rw [hsame, hattr, hfg, hbg]
    exact h.fresh

theorem Coupled.recoloured (hop : op.Recolours) (hplaced : s.vga.Placed)
    (hset : s.vga.attr = rgbToAttr s.curFg s.curBg) : Coupled (ops ++ [op]) s :=
  ⟨hplaced, fun _ => hset, fun hno => absurd (recoloured_snoc.2 (Or.inl hop)) hno⟩

/-- `screen_enter_vga`. -/
theorem enterVga_eq (s : Screen) : ∃ vga, s.enterVga = some { s with
    mode := .vgaText, curFg := white, curBg := black, vga } ∧ vga.attr = 0x07 ∧ vga.Placed := by
  obtain ⟨vga, hclear, hattr, hplaced⟩ := placed_clear (setAttr s.vga 0x07)
  refine ⟨vga, ?_, hattr, hplaced⟩
  unfold enterVga vgaTextInit
  rw [hclear]
  rfl

/-- **One call of the text API**, in text mode. -/
theorem Coupled.text (h : Coupled ops s) (hm : s.mode = .vgaText) (op : TextOp) :
    ∃ s', op.apply s = some s' ∧ Coupled (ops ++ [.text op]) s' := by
  have hkeep (hop : ¬ (ConsoleOp.text op).Recolours) : Recoloured (ops ++ [.text op]) ↔ Recoloured ops := by
    simp [recoloured_snoc, hop]
  cases op with
  | char c =>
    obtain ⟨vga, hput, hattr, hplaced⟩ := h.placed.putchar c
    refine ⟨{ s with vga }, ?_, h.same (hkeep fun hno => hno) hplaced hattr rfl rfl⟩
    rw [TextOp.apply, kprintChar, if_pos hm, hput]
    rfl
  | print cs =>
    obtain ⟨vga, hprint, hattr, hplaced⟩ := h.placed.print cs
    refine ⟨{ s with vga }, ?_, h.same (hkeep fun hno => hno) hplaced hattr rfl rfl⟩
    rw [TextOp.apply, kprint_text hm, hprint]
    rfl
  | printColor cs fg bg =>
    obtain ⟨vga, hprint, hattr, hplaced⟩ := VgaText.Placed.print (v := setAttr s.vga (rgbToAttr fg bg)) h.placed cs
    refine ⟨{ s with vga := setAttr vga (rgbToAttr s.curFg s.curBg) }, ?_, .recoloured trivial hplaced rfl⟩
    rw [TextOp.apply, kprintColor, if_pos hm, hprint]
    rfl
  | backspace =>
    obtain ⟨vga, hback, hattr, hplaced⟩ := h.placed.backspace
    refine ⟨{ s with vga }, ?_, h.same (hkeep fun hno => hno) hplaced hattr rfl rfl⟩
    rw [TextOp.apply, Screen.backspace, if_pos hm, hback]
    rfl
  | setColor fg bg =>
    refine ⟨_, rfl, ?_⟩
    unfold Screen.setColor
    rw [if_pos hm]
    exact .recoloured trivial h.placed rfl
  | clear =>
    obtain ⟨vga, hclear, hattr, hplaced⟩ := placed_clear s.vga
    refine ⟨{ s with vga }, ?_, h.same (hkeep fun hno => hno) hplaced hattr rfl rfl⟩
    rw [TextOp.apply, Screen.clear, if_pos hm, hclear]
    rfl

/-- **One call or switch.** -/
theorem Coupled.step (h : s.mode = .vgaText → Coupled ops s) (hstep : op.apply s = some s')
    (hm' : s'.mode = .vgaText) : Coupled (ops ++ [op]) s' := by
  cases op with
  | text op =>
    have hm : s.mode = .vgaText := (TextOp.apply_mode hstep).symm.trans hm'
    obtain ⟨s₁, hs₁, hcoupled⟩ := (h hm).text hm op
    obtain rfl := Option.some.inj (hs₁.symm.trans hstep)
    exact hcoupled
  | enterVbe vw size mem =>
    have hkeep : Recoloured (ops ++ [.enterVbe vw size mem]) ↔ Recoloured ops := by
      simp [recoloured_snoc, ConsoleOp.Recolours]
    simp only [ConsoleOp.apply, enterVbe] at hstep
    split at hstep
    · -- no card
      cases hstep
      exact (h hm').same hkeep (h hm').placed rfl rfl rfl
    · have hmode : s'.mode = .vbe := @TextOp.apply_mode _ _ .clear hstep
      rw [hmode] at hm'
      cases hm'
  | enterVga =>
    obtain ⟨vga, heq, hattr, hplaced⟩ := enterVga_eq s
    obtain rfl := Option.some.inj (heq.symm.trans hstep)
    refine ⟨hplaced, fun hre => ?_, fun _ => ⟨hattr, rfl, rfl⟩⟩
    rcases recoloured_snoc.1 hre with hop | ⟨hne, -⟩
    · exact hop.elim
    · exact absurd rfl hne

/-- **Every run from boot.** -/
theorem run_coupled {bar0 : UInt32} (hrun : (boot bar0).bind (ops.foldlM ConsoleOp.apply) = some s)
    (hm : s.mode = .vgaText) : Coupled ops s := by
  obtain ⟨vga, heq, hattr, hplaced⟩ := enterVga_eq (static bar0)
  rw [boot, heq, Option.bind_some] at hrun
  induction ops using List.reverseRecOn generalizing s with
  | nil =>
    cases hrun
    exact ⟨hplaced, fun hre => absurd hre recoloured_nil, fun _ => ⟨hattr, rfl, rfl⟩⟩
  | append_singleton ops op ih =>
    obtain ⟨s₁, hpre, hstep⟩ := foldlM_snoc.1 hrun
    exact Coupled.step (fun hm₁ => ih hm₁ hpre) hstep hm

/-! ## What is restored -/

/-- In text mode, the colour that `cur_fg` and `cur_bg` make. -/
theorem kprintColor_text (hm : s.mode = .vgaText) (h : s.kprintColor cs fg bg = some s') :
    s'.ink = .attr (rgbToAttr s.curFg s.curBg) := by
  unfold kprintColor at h
  rw [if_pos hm] at h
  obtain ⟨vga, -, heq⟩ := Option.bind_eq_some_iff.1 h
  cases heq
  exact if_pos hm

/-- In the graphical mode, the colour that there was. -/
theorem kprintColor_vbe (hm : s.mode = .vbe) (h : s.kprintColor cs fg bg = some s') : s'.ink = s.ink := by
  have hm' : ¬ s.mode = .vgaText := by rw [hm]; decide
  unfold kprintColor at h
  rw [if_neg hm'] at h
  obtain ⟨s₁, hprint, heq⟩ := Option.bind_eq_some_iff.1 h
  have hmode := kprint_mode hprint
  cases heq
  unfold ink
  dsimp only at hmode ⊢
  rw [hmode, if_neg hm', if_neg hm']

/-- **Coloured printing restores the colour** of the next character exactly in the graphical
mode, and in text mode if the colour was set after the last `screen_enter_vga`. In every run
from boot, and in text mode the call is always carried out. -/
theorem colour_restored_iff {bar0 : UInt32} (hrun : (boot bar0).bind (ops.foldlM ConsoleOp.apply) = some s)
    (cs : List UInt8) (fg bg : UInt32) :
    (s.mode = .vgaText → ∃ s', s.kprintColor cs fg bg = some s') ∧
    ∀ s', s.kprintColor cs fg bg = some s' → (s'.ink = s.ink ↔ s.mode = .vbe ∨ Recoloured ops) := by
  constructor
  · intro hm
    obtain ⟨s', hprint, -⟩ := (run_coupled hrun hm).text hm (.printColor cs fg bg)
    exact ⟨s', hprint⟩
  · intro s' hprint
    cases hm : s.mode with
    | vbe => exact iff_of_true (kprintColor_vbe hm hprint) (Or.inl rfl)
    | vgaText =>
      have hcoupled := run_coupled hrun hm
      have hbefore : s.ink = .attr s.vga.attr := if_pos hm
      rw [kprintColor_text hm hprint, hbefore, Ink.attr.injEq]
      by_cases hre : Recoloured ops
      · exact iff_of_true (hcoupled.set hre).symm (Or.inr hre)
      · -- white on black is not light grey on black
        obtain ⟨hattr, hfg, hbg⟩ := hcoupled.fresh hre
        rw [hattr, hfg, hbg]
        exact iff_of_false (by decide) (by simp [hre])

/-- After `screen_set_color`, printing in green leaves the colour. -/
theorem colour_restored_iff_set : ∃ s s', (boot 0).bind
    ([ConsoleOp.text (.setColor white black)].foldlM ConsoleOp.apply) = some s ∧
    s.kprintColor [0x41] 0x3FB950 black = some s' ∧ s'.ink = s.ink := by
  obtain ⟨vga, heq, -⟩ := enterVga_eq (static 0)
  set s₀ : Screen := { static 0 with mode := .vgaText, curFg := white, curBg := black, vga }
  have hrun : (boot 0).bind ([ConsoleOp.text (.setColor white black)].foldlM ConsoleOp.apply) =
      some (s₀.setColor white black) := by
    rw [boot, heq]
    rfl
  obtain ⟨hsome, hiff⟩ := colour_restored_iff hrun [0x41] 0x3FB950 black
  obtain ⟨s', hprint⟩ := hsome rfl
  exact ⟨_, s', hrun, hprint, (hiff s' hprint).2 (Or.inr ⟨[], _, [], rfl, trivial, List.not_mem_nil⟩)⟩

/-- **The banner leaks its colour**: after the first coloured text from boot, the next
character is white instead of light grey. -/
theorem colour_leaks : ∃ s s', boot 0 = some s ∧ s.kprintColor [] 0x56D364 black = some s' ∧
    s.ink = .attr 0x07 ∧ s'.ink = .attr 0x0F := by
  obtain ⟨vga, heq, hattr, -⟩ := enterVga_eq (static 0)
  set s₀ : Screen := { static 0 with mode := .vgaText, curFg := white, curBg := black, vga }
  have hprint : s₀.kprintColor [] 0x56D364 black = some { s₀ with vga := setAttr vga (rgbToAttr white black) } := rfl
  have hwhite : rgbToAttr white black = 0x0F := by decide
  exact ⟨s₀, _, heq, hprint, congrArg Ink.attr hattr,
    (kprintColor_text rfl hprint).trans (congrArg Ink.attr hwhite)⟩

end Screen

end DahleOS
