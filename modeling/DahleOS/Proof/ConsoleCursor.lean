import DahleOS.Proof.Pixels

/-!
# The cursor of the graphical console

The cursor stays on the grid of whole cells, for every geometry of at least one cell. So
each character is drawn inside the framebuffer, one scroll is enough after it, and nothing
outside the framebuffer is read or written.

* `Fits`: a framebuffer with room for its lines, of at least one cell.
* `OnGrid.kprintChar`, `OnGrid.step`: one character, and one call.
* `cursor_on_grid`: every sequence of calls after `screen_init`.
-/

namespace DahleOS

open CArray Codec PartialRun

variable {f : Framebuffer} {w h : UInt32}

/-! ## The framebuffer -/

namespace Framebuffer

/-- **A framebuffer with room for its lines**, of at least one cell. -/
structure Fits (f : Framebuffer) : Prop where
  wide : 8 ≤ f.w.toNat
  tall : 16 ≤ f.h.toNat
  pitch : 4 * f.w.toNat ≤ f.pitch.toNat
  small : f.pitch.toNat * f.h.toNat < 2 ^ 32
  mem : f.size = f.pitch.toNat * f.h.toNat

theorem Fits.roomy (hf : f.Fits) : f.Roomy := ⟨hf.pitch, hf.mem.ge, hf.mem ▸ hf.small.le⟩

theorem Fits.withMem (hf : f.Fits) (mem : Fin f.size → UInt8) : ({ f with mem } : Framebuffer).Fits :=
  ⟨hf.wide, hf.tall, hf.pitch, hf.small, hf.mem⟩

end Framebuffer

namespace Screen

open Framebuffer

variable {s : Screen} {n : ℕ}

/-- The bytes after the copy of a scroll. -/
def scrolled (f : Framebuffer) : Fin f.size → UInt8 := fun x =>
  if h : x.val < (f.h.toNat - 16) * f.pitch.toNat ∧ x.val + 16 * f.pitch.toNat < f.size then
    f.mem ⟨x.val + 16 * f.pitch.toNat, h.2⟩
  else f.mem x

/-- **A scroll** copies inside the framebuffer. -/
theorem scrollFb_eq (hf : f.Fits) (bg : UInt32) :
    scrollFb f bg = ({ f with mem := scrolled f } : Framebuffer).fillRect 0 (f.h - ch) f.w ch bg := by
  have htall := hf.tall
  have hsmall := hf.small
  have hpitch := hf.pitch
  have hwide := hf.wide
  have hsixteen : ch.toNat = 16 := rfl
  have hrest : (f.h - ch).toNat = f.h.toNat - 16 := UInt32.toNat_sub_of_le _ _ (UInt32.le_iff_toNat_le.2 htall)
  have hline : 16 * f.pitch.toNat ≤ f.pitch.toNat * f.h.toNat := by
    rw [Nat.mul_comm]
    exact Nat.mul_le_mul_left _ htall
  have hbody : (f.h.toNat - 16) * f.pitch.toNat + 16 * f.pitch.toNat = f.size := by
    rw [← Nat.add_mul, Nat.sub_add_cancel htall, Nat.mul_comm, hf.mem]
  have hsize := hf.mem
  have hsrc : (ch * f.pitch).toNat = 16 * f.pitch.toNat := by
    rw [UInt32.toNat_mul, hsixteen, Nat.mod_eq_of_lt (by omega)]
  have hbytes : ((f.h - ch) * f.pitch).toNat = (f.h.toNat - 16) * f.pitch.toNat := by
    rw [UInt32.toNat_mul, hrest, Nat.mod_eq_of_lt (by omega)]
  have hcopy : copyDown (16 * f.pitch.toNat) f.mem 0 ((f.h.toNat - 16) * f.pitch.toNat) = some (scrolled f) := by
    rw [copyDown_eq (by omega) _ _ _ (by omega), Nat.zero_add]
    simp only [Nat.zero_le, true_and]
    rfl
  unfold scrollFb
  rw [hsrc, hbytes, hcopy]
  rfl

theorem scrollFb_redraws (hf : f.Fits) (bg : UInt32) : f.Redraws (scrollFb f bg) := by
  rw [scrollFb_eq hf]
  exact ((hf.withMem (scrolled f)).roomy.fillRect_paints (f := { f with mem := scrolled f }) ..).redraws

/-! ## The grid -/

/-- **The cursor on the grid** of a framebuffer of `w` by `h` pixels, in the first `n` rows. -/
structure OnGrid (w h : UInt32) (n : ℕ) (s : Screen) : Prop where
  mode : s.mode = .vbe
  fits : s.fb.Fits
  width : s.fb.w = w
  height : s.fb.h = h
  col : s.curCol.toNat < w.toNat / 8
  row : s.curRow.toNat < n

theorem OnGrid.not_text (hs : OnGrid w h n s) : ¬ s.mode = .vgaText := by
  rw [hs.mode]
  decide

theorem OnGrid.withMem (hs : OnGrid w h n s) (mem : Fin s.fb.size → UInt8) :
    OnGrid w h n { s with fb := { s.fb with mem } } :=
  ⟨hs.mode, hs.fits.withMem mem, hs.width, hs.height, hs.col, hs.row⟩

theorem OnGrid.colours (hs : OnGrid w h n s) (fg bg : UInt32) : OnGrid w h n { s with curFg := fg, curBg := bg } :=
  ⟨hs.mode, hs.fits, hs.width, hs.height, hs.col, hs.row⟩

theorem OnGrid.wide (hs : OnGrid w h n s) : 0 < w.toNat / 8 := by
  have hwide := hs.fits.wide
  rw [hs.width] at hwide
  omega

theorem OnGrid.tall (hs : OnGrid w h n s) : 0 < h.toNat / 16 := by
  have htall := hs.fits.tall
  rw [hs.height] at htall
  omega

theorem toNat_pred {a : UInt32} (ha : 0 < a) : (a - 1).toNat = a.toNat - 1 :=
  UInt32.toNat_sub_of_le _ _ (UInt32.le_iff_toNat_le.2 (UInt32.lt_iff_toNat_lt.1 ha))

theorem tcols_toNat (s : Screen) : s.tcols.toNat = s.fb.w.toNat / 8 := UInt32.toNat_div ..

theorem trows_toNat (s : Screen) : s.trows.toNat = s.fb.h.toNat / 16 := UInt32.toNat_div ..

/-- The next row, which does not wrap. -/
theorem OnGrid.next_row (hs : OnGrid w h (h.toNat / 16) s) : (s.curRow + 1).toNat = s.curRow.toNat + 1 := by
  have hrow := hs.row
  have hlt := h.toNat_lt
  have hone : (1 : UInt32).toNat = 1 := rfl
  rw [UInt32.toNat_add, hone, Nat.mod_eq_of_lt (by omega)]

/-- Wherever a character leaves the column, the wrap brings it back. -/
theorem OnGrid.wrap (hs : OnGrid w h (h.toNat / 16) s) (col : UInt32) :
    OnGrid w h (h.toNat / 16 + 1) { s with curCol := col }.wrap := by
  have hrow := hs.row
  unfold Screen.wrap
  split
  · refine ⟨hs.mode, hs.fits, hs.width, hs.height, hs.wide, ?_⟩
    simp only [hs.next_row]
    omega
  next hlt =>
    refine ⟨hs.mode, hs.fits, hs.width, hs.height, ?_, by simp only; omega⟩
    have hcol := UInt32.lt_iff_toNat_lt.1 (UInt32.not_le.1 hlt)
    rw [tcols_toNat] at hcol
    rw [← hs.width]
    exact hcol

/-- **One character**, before the scroll. -/
theorem OnGrid.place (hs : OnGrid w h (h.toNat / 16) s) (c : UInt8) :
    ∃ s', s.place c = some s' ∧ OnGrid w h (h.toNat / 16 + 1) s' := by
  have hrow := hs.row
  unfold Screen.place
  split
  · refine ⟨_, rfl, hs.mode, hs.fits, hs.width, hs.height, hs.wide, ?_⟩
    simp only [hs.next_row]
    omega
  split
  · exact ⟨_, rfl, hs.mode, hs.fits, hs.width, hs.height, hs.wide, by simp only; omega⟩
  split
  · exact ⟨_, rfl, hs.wrap _⟩
  · obtain ⟨mem, hmem⟩ := (hs.fits.roomy.drawChar_paints (s.curCol * cw) (s.curRow * ch) c s.curFg s.curBg).redraws
    rw [hmem]
    exact ⟨_, rfl, (hs.withMem mem).wrap _⟩

/-- **One scroll is enough.** -/
theorem OnGrid.doScroll (hs : OnGrid w h (h.toNat / 16 + 1) s) (hbelow : s.trows ≤ s.curRow) :
    ∃ s', s.doScroll = some s' ∧ OnGrid w h (h.toNat / 16) s' := by
  have hrow := hs.row
  have htall := hs.tall
  have hle := UInt32.le_iff_toNat_le.1 hbelow
  rw [trows_toNat, hs.height] at hle
  obtain ⟨mem, hmem⟩ := scrollFb_redraws hs.fits s.curBg
  have hpos : 0 < s.curRow := UInt32.lt_iff_toNat_lt.2 (by simp only [UInt32.toNat_zero]; omega)
  unfold Screen.doScroll
  rw [hmem]
  refine ⟨_, rfl, hs.mode, hs.fits.withMem mem, hs.width, hs.height, hs.col, ?_⟩
  simp only [if_pos hpos, toNat_pred hpos]
  omega

/-- **One character.** -/
theorem OnGrid.kprintChar (hs : OnGrid w h (h.toNat / 16) s) (c : UInt8) :
    ∃ s', s.kprintChar c = some s' ∧ OnGrid w h (h.toNat / 16) s' := by
  obtain ⟨s₁, hplace, hs₁⟩ := hs.place c
  have hmode := hs.not_text
  unfold Screen.kprintChar
  rw [if_neg hmode, hplace]
  by_cases hbelow : s₁.trows ≤ s₁.curRow
  · obtain ⟨s₂, hscroll, hs₂⟩ := hs₁.doScroll hbelow
    exact ⟨s₂, (if_pos hbelow).trans hscroll, hs₂⟩
  · refine ⟨s₁, if_neg hbelow, hs₁.mode, hs₁.fits, hs₁.width, hs₁.height, hs₁.col, ?_⟩
    have hlt := UInt32.lt_iff_toNat_lt.1 (UInt32.not_le.1 hbelow)
    rwa [trows_toNat, hs₁.height] at hlt

theorem OnGrid.kprint (hs : OnGrid w h (h.toNat / 16) s) (cs : List UInt8) :
    ∃ s', s.kprint cs = some s' ∧ OnGrid w h (h.toNat / 16) s' :=
  foldlM_keeps hs fun c _ _ hs => hs.kprintChar c

theorem OnGrid.backspace (hs : OnGrid w h (h.toNat / 16) s) :
    ∃ s', s.backspace = some s' ∧ OnGrid w h (h.toNat / 16) s' := by
  have hmode := hs.not_text
  have hcol := hs.col
  have hrow := hs.row
  have hwide := hs.wide
  unfold Screen.backspace
  rw [if_neg hmode]
  -- where the cursor goes
  set s₁ : Screen :=
    if 0 < s.curCol then { s with curCol := s.curCol - 1 }
    else if 0 < s.curRow then { s with curRow := s.curRow - 1, curCol := s.tcols - 1 }
    else s with hs₁
  have hgrid : OnGrid w h (h.toNat / 16) s₁ := by
    rw [hs₁]
    split
    next hpos =>
      refine ⟨hs.mode, hs.fits, hs.width, hs.height, ?_, hs.row⟩
      simp only [toNat_pred hpos]
      omega
    split
    next hpos =>
      have hcols : 0 < s.tcols := by
        rw [UInt32.lt_iff_toNat_lt, tcols_toNat, hs.width]
        exact hwide
      refine ⟨hs.mode, hs.fits, hs.width, hs.height, ?_, ?_⟩
      · simp only [toNat_pred hcols, tcols_toNat, hs.width]
        omega
      · simp only [toNat_pred hpos]
        omega
    · exact hs
  obtain ⟨mem, hmem⟩ := (hgrid.fits.roomy.fillRect_paints (s₁.curCol * cw) (s₁.curRow * ch) cw ch s₁.curBg).redraws
  simp only [hmem]
  exact ⟨_, rfl, hgrid.withMem mem⟩

/-! ## Calls -/

/-- **One call.** -/
theorem OnGrid.step (hs : OnGrid w h (h.toNat / 16) s) (op : TextOp) :
    ∃ s', op.apply s = some s' ∧ OnGrid w h (h.toNat / 16) s' := by
  have hmode := hs.not_text
  cases op with
  | char c => exact hs.kprintChar c
  | print cs => exact hs.kprint cs
  | printColor cs fg bg =>
    obtain ⟨s', hprint, hs'⟩ := (hs.colours fg bg).kprint cs
    rw [TextOp.apply, Screen.kprintColor, if_neg hmode, hprint]
    exact ⟨_, rfl, hs'.colours _ _⟩
  | backspace => exact hs.backspace
  | setColor fg bg =>
    refine ⟨_, rfl, ?_⟩
    unfold Screen.setColor
    rw [if_neg hmode]
    exact hs.colours fg bg
  | clear =>
    obtain ⟨mem, hmem⟩ := (hs.fits.roomy.fillRect_paints 0 0 s.fb.w s.fb.h s.curBg).redraws
    rw [TextOp.apply, Screen.clear, if_neg hmode, hmem]
    exact ⟨_, rfl, hs.mode, hs.fits.withMem mem, hs.width, hs.height, hs.wide, hs.tall⟩

/-- The cell at the cursor lies inside the framebuffer, at the coordinates that the driver
computes. -/
def CellInside (s : Screen) : Prop :=
  (s.curCol * cw).toNat + 8 ≤ s.fb.w.toNat ∧ (s.curRow * ch).toNat + 16 ≤ s.fb.h.toNat

theorem OnGrid.cellInside (hs : OnGrid w h (h.toNat / 16) s) : s.CellInside := by
  have hcol := hs.col
  have hrow := hs.row
  have hw := w.toNat_lt
  have hh := h.toNat_lt
  have hcells : cw.toNat = 8 ∧ ch.toNat = 16 := ⟨rfl, rfl⟩
  unfold CellInside
  rw [UInt32.toNat_mul, UInt32.toNat_mul, hcells.1, hcells.2, hs.width, hs.height,
    Nat.mod_eq_of_lt (by omega), Nat.mod_eq_of_lt (by omega)]
  omega

/-- The characters that a call prints. -/
def TextOp.chars : TextOp → List UInt8
  | char c => [c]
  | print cs => cs
  | printColor cs _ _ => cs
  | _ => []

/-- The screen from which it prints them. -/
def TextOp.start (s : Screen) : TextOp → Screen
  | printColor _ fg bg => { s with curFg := fg, curBg := bg }
  | _ => s

/-- Where `screen_init` clears the screen. -/
theorem start_onGrid {width height pitch : UInt32} (s : Screen) (hmode : s.mode = .vbe)
    (mem : Fin (pitch.toNat * height.toNat) → UInt8) (hw : 8 ≤ width.toNat) (hh : 16 ≤ height.toNat)
    (hp : 4 * width.toNat ≤ pitch.toNat) (hsize : pitch.toNat * height.toNat < 2 ^ 32) :
    OnGrid width height (height.toNat / 16)
      { s with fb := ⟨_, mem, pitch, width, height⟩, curFg := white, curBg := black, curCol := 0, curRow := 0 } := by
  have hcol : (0 : UInt32).toNat < width.toNat / 8 := by rw [UInt32.toNat_zero]; omega
  have hrow : (0 : UInt32).toNat < height.toNat / 16 := by rw [UInt32.toNat_zero]; omega
  exact ⟨hmode, ⟨hw, hh, hp, hsize, rfl⟩, rfl, rfl, hcol, hrow⟩

/-- **The cursor stays on the grid.** For every geometry of at least one cell whose lines
fit into the pitch, with the framebuffer the only memory there is, and every sequence of
calls after `screen_init` in the graphical mode: all of them succeed, so none reads or
writes outside the framebuffer; the cursor is then on a whole cell; and so it is before each
character of the next call, whose cell is inside the framebuffer. -/
theorem cursor_on_grid {width height pitch : UInt32} (s : Screen) (hmode : s.mode = .vbe)
    (mem : Fin (pitch.toNat * height.toNat) → UInt8) (hw : 8 ≤ width.toNat) (hh : 16 ≤ height.toNat)
    (hp : 4 * width.toNat ≤ pitch.toNat) (hsize : pitch.toNat * height.toNat < 2 ^ 32) (ops : List TextOp) :
    ∃ s', (s.init _ mem pitch width height).bind (ops.foldlM TextOp.apply) = some s' ∧
      s'.curCol < width / 8 ∧ s'.curRow < height / 16 ∧
      ∀ (op : TextOp) (pre : List UInt8) (c : UInt8) (post : List UInt8), op.chars = pre ++ c :: post →
        ∃ s₁, (op.start s').kprint pre = some s₁ ∧ s₁.curCol < width / 8 ∧ s₁.curRow < height / 16 ∧ s₁.CellInside := by
  have hbound {s : Screen} (hs : OnGrid width height (height.toNat / 16) s) :
      s.curCol < width / 8 ∧ s.curRow < height / 16 := by
    rw [UInt32.lt_iff_toNat_lt, UInt32.lt_iff_toNat_lt, UInt32.toNat_div, UInt32.toNat_div]
    exact ⟨hs.col, hs.row⟩
  -- `screen_init`
  obtain ⟨s₀, hinit, hs₀⟩ := (start_onGrid s hmode mem hw hh hp hsize).step .clear
  obtain ⟨s', hrun, hs'⟩ := foldlM_keeps hs₀ (l := ops) fun op _ s hs => hs.step op
  refine ⟨s', ?_, (hbound hs').1, (hbound hs').2, ?_⟩
  · exact (congrArg (Option.bind · _) hinit).trans hrun
  · intro op pre c post _
    have hstart : OnGrid width height (height.toNat / 16) (op.start s') := by
      cases op with
      | printColor cs fg bg => exact hs'.colours fg bg
      | _ => exact hs'
    obtain ⟨s₁, hprint, hs₁⟩ := hstart.kprint pre
    exact ⟨s₁, hprint, (hbound hs₁).1, (hbound hs₁).2, hs₁.cellInside⟩

/-- More lines of text than the grid has rows, and one in another colour. -/
def manyLines : List TextOp := List.replicate 40 (.print [79, 75, 10]) ++ [.printColor [79, 75] black white]

/-- The geometry of `screen_enter_vbe`: the screen scrolls, and the next character has its cell. -/
theorem cursor_on_grid_svga : ∃ s' s₁,
    ((static 0).init ((3200 : UInt32).toNat * (600 : UInt32).toNat) (fun _ => 0) 3200 800 600).bind
      (manyLines.foldlM TextOp.apply) = some s' ∧ s'.curCol < 800 / 8 ∧ s'.curRow < 600 / 16 ∧
      s'.kprint [79] = some s₁ ∧ s₁.CellInside := by
  obtain ⟨s', hrun, hcol, hrow, hnext⟩ := @cursor_on_grid 800 600 3200 (static 0) rfl
    (fun _ => 0) (by decide) (by decide) (by decide) (by decide) manyLines
  obtain ⟨s₁, hprint, -, -, hcell⟩ := hnext (.print [79, 75]) [79] 75 [] rfl
  exact ⟨s', s₁, hrun, hcol, hrow, hprint, hcell⟩

end Screen

end DahleOS
