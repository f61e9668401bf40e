import DahleOS.Lib.Terminal
import DahleOS.Proof.ScrollRow

/-!
# The graphical console is a window

The framebuffer shows the last rows of a terminal without end, cell by cell, and the
background around them.

* `charPainting_glyph`: the pixels of a character.
* `cells_put`, `cells_scroll`: what drawing and scrolling do to the cells.
* `Pictured.char`, `Pictured.step`: one character, and one call.
* `graphical_console_refines`: every sequence of calls on one background.
-/

namespace DahleOS

open CArray Codec Framebuffer MachineWord Painting PartialRun Terminal

/-! ## Glyphs -/

/-- The picture of a cell. -/
abbrev Cell := Fin 8 → Fin 16 → UInt32

/-- A character: each row of its glyph is drawn twice. -/
def glyphCell (c : UInt8) (fg bg : UInt32) : Cell := fun dx dy =>
  if ((glyphOf c).get ⟨dy / 2, by omega⟩).toUInt32 &&& 1 <<< UInt32.ofNat dx ≠ 0 then fg else bg

namespace Framebuffer

variable {px py fg bg : UInt32}

/-- **The pixels of a character.** -/
theorem charPainting_glyph (hx : px.toNat + 8 ≤ 2 ^ 32) (hy : py.toNat + 16 ≤ 2 ^ 32) (hbg : bg ≠ transparent) (c : UInt8)
    (dx : Fin 8) (dy : Fin 16) : charPainting px py c fg bg (px.toNat + dx, py.toNat + dy) = some (glyphCell c fg bg dx dy) := by
  have hdx := dx.isLt
  have hdy := dy.isLt
  have hval : (UInt32.ofNat dx.val).toNat = dx.val := UInt32.toNat_ofNat_of_lt' (show dx.val < 2 ^ 32 by omega)
  have hbit : UInt32.ofNat dx.val ∈ upTo 0 8 := (mem_upTo (by omega)).2 (by omega)
  have hrow : dy.val / 2 < 8 := by omega
  -- which pixels a bit paints
  have hpixels (row : Fin 8) {bit : UInt32} (hbit : bit ∈ upTo 0 8) :
      (px.toNat + dx.val, py.toNat + dy.val) ∈ ({((px + bit).toNat, (py + UInt32.ofNat row * 2).toNat)} ∪
        {((px + bit).toNat, (py + UInt32.ofNat row * 2 + 1).toNat)} : Set (ℕ × ℕ)) ↔
      bit.toNat = dx.val ∧ row.val = dy.val / 2 := by
    obtain ⟨hcol, hfirst, hsecond⟩ := bit_toNat row hx hy ((mem_upTo (by omega)).1 hbit).2
    rw [hcol, hfirst, hsecond]
    simp only [Set.mem_union, Set.mem_singleton_iff, Prod.mk.injEq]
    omega
  have hpaint (row : Fin 8) {bit : UInt32} (hbit : bit ∈ upTo 0 8) :
      bitPainting px py fg bg ((glyphOf c).get row) (UInt32.ofNat row) bit (px.toNat + dx, py.toNat + dy) ≠ none →
      bit.toNat = dx.val ∧ row.val = dy.val / 2 := by
    intro hne
    by_contra hout
    have hnone (color : UInt32) := solid_of_notMem (c := color) (mt (hpixels row hbit).1 hout)
    refine hne ?_
    unfold bitPainting
    split
    · exact hnone fg
    · exact hnone bg
  unfold charPainting
  rw [stack_of_unique (List.mem_finRange ⟨dy / 2, hrow⟩), stack_of_unique hbit]
  · have hin := (hpixels ⟨dy / 2, hrow⟩ hbit).2 ⟨hval, rfl⟩
    unfold bitPainting glyphCell
    dsimp only
    rw [if_pos hbg]
    split
    · exact solid_of_mem hin
    · exact solid_of_mem hin
  · intro bit hbit' hne
    exact UInt32.toNat_inj.1 ((hpaint _ hbit' hne).1.trans hval.symm)
  · intro row _ hne
    by_contra hother
    refine hne (stack_none fun bit hbit => ?_)
    by_contra hne'
    exact hother (Fin.ext (hpaint row hbit hne').2)

end Framebuffer

namespace Screen

variable {w h b : UInt32} {f f' : Framebuffer}

/-! ## Cells -/

/-- The framebuffer, cell by cell. -/
def cellsOf (w h : UInt32) (f : Framebuffer) : Fin (h.toNat / 16 * (w.toNat / 8)) → Cell := fun i dx dy =>
  f.pixel (i % (w.toNat / 8) * 8 + dx) (i / (w.toNat / 8) * 16 + dy)

/-- The columns and lines that are no cells. -/
def Margin (w h : UInt32) (b : UInt32) (f : Framebuffer) : Prop :=
  ∀ px py, px < w.toNat → py < h.toNat → w.toNat / 8 * 8 ≤ px ∨ h.toNat / 16 * 16 ≤ py → f.pixel px py = b

theorem cell_bounds {rows cols n : ℕ} (h : n < rows * cols) : n % cols < cols ∧ n / cols < rows := by
  have hcols : 0 < cols := Nat.pos_of_ne_zero fun hzero => by simp [hzero] at h
  exact ⟨Nat.mod_lt _ hcols, Nat.div_lt_of_lt_mul (h.trans_eq (Nat.mul_comm ..))⟩

/-- **A drawing in one cell.** -/
theorem cells_update {r k : ℕ} (hr : r < h.toNat / 16) (hk : k < w.toNat / 8) {v : Cell}
    (hcell : ∀ (dx : Fin 8) (dy : Fin 16), f'.pixel (k * 8 + dx) (r * 16 + dy) = v dx dy)
    (hrest : ∀ px py, px < w.toNat → py < h.toNat → ¬ (px / 8 = k ∧ py / 16 = r) → f'.pixel px py = f.pixel px py) :
    ∃ hp : r * (w.toNat / 8) + k < h.toNat / 16 * (w.toNat / 8),
      cellsOf w h f' = Function.update (cellsOf w h f) ⟨r * (w.toNat / 8) + k, hp⟩ v ∧
      (Margin w h b f → Margin w h b f') := by
  have hp : r * (w.toNat / 8) + k < h.toNat / 16 * (w.toNat / 8) := by
    have hline := Nat.mul_le_mul_right (w.toNat / 8) (show r + 1 ≤ h.toNat / 16 from hr)
    rw [Nat.succ_mul] at hline
    omega
  refine ⟨hp, ?_, ?_⟩
  · funext i dx dy
    obtain ⟨hcol, hrow⟩ := cell_bounds i.isLt
    have hdx := dx.isLt
    have hdy := dy.isLt
    by_cases hi : i = ⟨r * (w.toNat / 8) + k, hp⟩
    · have hmod : (r * (w.toNat / 8) + k) % (w.toNat / 8) = k := by
        rw [Nat.mul_comm, Nat.mul_add_mod, Nat.mod_eq_of_lt hk]
      have hdiv : (r * (w.toNat / 8) + k) / (w.toNat / 8) = r := by
        rw [Nat.mul_comm, Nat.mul_add_div (by omega), Nat.div_eq_of_lt hk, Nat.add_zero]
      rw [hi, Function.update_self, ← hcell]
      unfold cellsOf
      rw [hmod, hdiv]
    · rw [Function.update_of_ne hi]
      refine hrest _ _ (by omega) (by omega) ?_
      rintro ⟨hxk, hyr⟩
      have hx : i.val % (w.toNat / 8) = k := by omega
      have hy : i.val / (w.toNat / 8) = r := by omega
      have hmul := Nat.div_add_mod i.val (w.toNat / 8)
      rw [hx, hy, Nat.mul_comm] at hmul
      exact hi (Fin.ext hmul.symm)
  · intro hmargin px py hx hy hout
    rw [hrest px py hx hy (by omega)]
    exact hmargin px py hx hy hout

/-- **A scroll** moves the cells by a row; what comes into the last row is background. -/
theorem cells_scroll (hview : ∀ px py, px < w.toNat → py < h.toNat → f'.pixel px py =
    if py + 16 < h.toNat then f.pixel px (py + 16) else b) (hmargin : Margin w h b f) :
    cellsOf w h f' = Terminal.scrolled (w.toNat / 8) (fun _ _ => b) (cellsOf w h f) ∧ Margin w h b f' := by
  constructor
  · funext i dx dy
    obtain ⟨hcol, hrow⟩ := cell_bounds i.isLt
    have hdx := dx.isLt
    have hdy := dy.isLt
    have hmul := Nat.div_add_mod i.val (w.toNat / 8)
    unfold Terminal.scrolled
    have hpixel : cellsOf w h f' i dx dy = _ := hview (i % (w.toNat / 8) * 8 + dx) (i / (w.toNat / 8) * 16 + dy) (by omega) (by omega)
    rw [hpixel]
    by_cases hin : i.val + w.toNat / 8 < h.toNat / 16 * (w.toNat / 8)
    · have hnext : i.val / (w.toNat / 8) + 1 < h.toNat / 16 := by
        rw [← Nat.add_div_right _ (by omega)]
        exact (cell_bounds hin).2
      rw [dif_pos hin, if_pos (by omega)]
      unfold cellsOf
      dsimp only
      rw [Nat.add_mod_right, Nat.add_div_right _ (by omega), Nat.succ_mul]
      congr 1
      omega
    · have hlast : h.toNat / 16 ≤ i.val / (w.toNat / 8) + 1 := by
        rw [← Nat.add_div_right _ (by omega), Nat.le_div_iff_mul_le (by omega)]
        exact Nat.not_lt.1 hin
      rw [dif_neg hin]
      split
      · exact hmargin _ _ (by omega) (by omega) (Or.inr (by omega))
      · rfl
  · intro px py hx hy hout
    rw [hview px py hx hy]
    split
    · exact hmargin _ _ hx (by omega) (by omega)
    · rfl

/-! ## One character -/

variable {n off : ℕ} {s s' : Screen} {t : Term Cell} {bg : UInt32}

/-- The rules of `kprint_char`, without scrolling. -/
def termChar (cols : ℕ) (cell : UInt8 → Cell) (t : Term Cell) (c : UInt8) : Term Cell :=
  if c = 10 then t.newline
  else if c = 13 then t.carriageReturn
  else if c = 9 then t.tab cols 8
  else t.put cols (cell c)

/-- **The framebuffer shows the terminal** from row `off` on. -/
structure Pictured (w h b : UInt32) (n : ℕ) (s : Screen) (t : Term Cell) (off : ℕ) : Prop where
  grid : OnGrid w h n s
  bg : s.curBg = b
  row : t.row = off + s.curRow.toNat
  col : t.col = s.curCol.toNat
  window : Window (fun _ _ => b) off t.cells (cellsOf w h s.fb)
  margin : Margin w h b s.fb

/-- The scrolling at the end of `kprint_char`. -/
theorem Pictured.settle (hs : Pictured w h b (h.toNat / 16 + 1) s t off) :
    ∃ s', (if s.trows ≤ s.curRow then s.doScroll else some s) = some s' ∧ s'.curFg = s.curFg ∧
      Pictured w h b (h.toNat / 16) s' t (max off (t.row + 1 - h.toNat / 16)) := by
  have hrow := hs.row
  have hlt := hs.grid.row
  have htall := hs.grid.tall
  by_cases hbelow : s.trows ≤ s.curRow
  · obtain ⟨s', hscroll, hgrid, hbg, hview⟩ := hs.grid.doScroll_pixel hbelow
    have hle := UInt32.le_iff_toNat_le.1 hbelow
    rw [trows_toNat, hs.grid.height] at hle
    have hpos : 0 < s.curRow := UInt32.lt_iff_toNat_lt.2 (by simp only [UInt32.toNat_zero]; omega)
    have hoff : max off (t.row + 1 - h.toNat / 16) = off + 1 := by omega
    rw [hs.bg] at hview
    obtain ⟨hcells, hmargin⟩ := cells_scroll hview hs.margin
    have hfields : s'.curFg = s.curFg ∧ s'.curCol = s.curCol ∧ s'.curRow = s.curRow - 1 := by
      obtain ⟨fb, -, h'⟩ := Option.bind_eq_some_iff.1 hscroll
      cases h'
      exact ⟨rfl, rfl, if_pos hpos⟩
    refine ⟨s', (if_pos hbelow).trans hscroll, hfields.1, ?_⟩
    rw [hoff]
    exact
      { grid := hgrid
        bg := hbg.trans hs.bg
        row := by rw [hfields.2.2, toNat_pred hpos]; omega
        col := by rw [hfields.2.1]; exact hs.col
        window := by rw [hcells]; exact hs.window.scroll
        margin := hmargin }
  · have hlt' := UInt32.lt_iff_toNat_lt.1 (UInt32.not_le.1 hbelow)
    rw [trows_toNat, hs.grid.height] at hlt'
    have hoff : max off (t.row + 1 - h.toNat / 16) = off := by omega
    refine ⟨s, if_neg hbelow, rfl, ?_⟩
    rw [hoff]
    exact
      { grid := ⟨hs.grid.mode, hs.grid.fits, hs.grid.width, hs.grid.height, hs.grid.col, hlt'⟩
        bg := hs.bg, row := hs.row, col := hs.col, window := hs.window, margin := hs.margin }

/-- The wrap, on both sides. -/
theorem Pictured.wrap (hs : Pictured w h b (h.toNat / 16) s t off) (col : UInt32) :
    Pictured w h b (h.toNat / 16 + 1) { s with curCol := col }.wrap ({ t with col := col.toNat }.wrap (w.toNat / 8)) off := by
  have hgrid := hs.grid.wrap col
  have htcols : ({ s with curCol := col } : Screen).tcols.toNat = w.toNat / 8 := by
    rw [tcols_toNat]
    exact congrArg (UInt32.toNat · / 8) hs.grid.width
  have hrow := hs.row
  unfold Screen.wrap at hgrid ⊢
  unfold Term.wrap
  by_cases hend : ({ s with curCol := col } : Screen).tcols ≤ col
  · have hle := UInt32.le_iff_toNat_le.1 hend
    rw [htcols] at hle
    rw [if_pos hend] at hgrid ⊢
    rw [if_pos hle]
    exact
      { grid := hgrid
        bg := hs.bg
        row := by simp only [Term.newline, hs.grid.next_row]; omega
        col := rfl
        window := hs.window
        margin := hs.margin }
  · have hle := mt UInt32.le_iff_toNat_le.2 hend
    rw [htcols] at hle
    rw [if_neg hend] at hgrid ⊢
    rw [if_neg hle]
    exact { grid := hgrid, bg := hs.bg, row := hs.row, col := rfl, window := hs.window, margin := hs.margin }

theorem wrap_fg (s : Screen) : s.wrap.curFg = s.curFg := by
  unfold wrap
  split
  · rfl
  · rfl

/-- To a multiple of 8, downwards. -/
theorem and_not_seven (x : UInt32) : (x &&& ~~~7).toNat = x.toNat - x.toNat % 8 := by
  have hlow : (x &&& 7).toNat = x.toNat % 8 := by
    rw [UInt32.toNat_and]
    exact Nat.and_two_pow_sub_one_eq_mod _ 3
  have hle : (x &&& ~~~7).toNat ≤ x.toNat := by
    rw [UInt32.toNat_and]
    exact Nat.and_le_left
  have hsum := congrArg UInt32.toNat (and_not_add_and x 7)
  rw [UInt32.toNat_add, hlow] at hsum
  have hx := x.toNat_lt
  omega

/-- The cell of the cursor, in pixels. -/
theorem OnGrid.cell_origin (hs : OnGrid w h (h.toNat / 16) s) : (s.curCol * cw).toNat = s.curCol.toNat * 8 ∧
    (s.curRow * ch).toNat = s.curRow.toNat * 16 ∧ s.curCol.toNat * 8 + 8 ≤ w.toNat ∧ s.curRow.toNat * 16 + 16 ≤ h.toNat := by
  have hcol := hs.col
  have hrow := hs.row
  have hw := w.toNat_lt
  have hh := h.toNat_lt
  exact ⟨toNat_mul_of_lt (show s.curCol.toNat * 8 < 2 ^ 32 by omega), toNat_mul_of_lt (show s.curRow.toNat * 16 < 2 ^ 32 by omega),
    by omega, by omega⟩

/-- **A drawing at the cursor** is a write to the terminal. -/
theorem Pictured.draw (hs : Pictured w h b (h.toNat / 16) s t off) {r : Option Framebuffer} {p : Painting (ℕ × ℕ) UInt32} {v : Cell}
    (hr : s.fb.Paints r p)
    (hin : ∀ (dx : Fin 8) (dy : Fin 16), p ((s.curCol * cw).toNat + dx, (s.curRow * ch).toNat + dy) = some (v dx dy))
    (hout : p.Within (box (s.curCol * cw).toNat ((s.curCol * cw).toNat + 8) (s.curRow * ch).toNat ((s.curRow * ch).toNat + 16))) :
    ∃ mem, r = some { s.fb with mem } ∧ Pictured w h b (h.toNat / 16) { s with fb := { s.fb with mem } }
      { t with cells := Function.update t.cells (t.pos (w.toNat / 8)) v } off := by
  obtain ⟨hx, hy, hright, hbottom⟩ := hs.grid.cell_origin
  obtain ⟨mem, hmem, hview⟩ := hr.result
  rw [hx, hy] at hout
  simp only [hx, hy] at hin
  have hview' : ∀ px py, px < w.toNat → py < h.toNat → ({ s.fb with mem } : Framebuffer).pixel px py =
      (p (px, py)).getD (s.fb.pixel px py) := fun px py hpx hpy =>
    hview px py (by rw [hs.grid.width]; exact hpx) (by rw [hs.grid.height]; exact hpy)
  have hcell : ∀ (dx : Fin 8) (dy : Fin 16), ({ s.fb with mem } : Framebuffer).pixel (s.curCol.toNat * 8 + dx)
      (s.curRow.toNat * 16 + dy) = v dx dy := fun dx dy => by
    rw [hview' _ _ (by omega) (by omega), hin, Option.getD_some]
  have hrest : ∀ px py, px < w.toNat → py < h.toNat → ¬ (px / 8 = s.curCol.toNat ∧ py / 16 = s.curRow.toNat) →
      ({ s.fb with mem } : Framebuffer).pixel px py = s.fb.pixel px py := fun px py hpx hpy hne => by
    rw [hview' px py hpx hpy, hout (px, py) (by rw [mem_box]; omega), Option.getD_none]
  obtain ⟨hp, hcells, hmargin⟩ := cells_update (b := b) hs.grid.row hs.grid.col hcell hrest
  have hpos : t.pos (w.toNat / 8) = off * (w.toNat / 8) + (s.curRow.toNat * (w.toNat / 8) + s.curCol.toNat) := by
    rw [Term.pos, hs.row, hs.col, Nat.add_mul, Nat.add_assoc]
  refine ⟨mem, hmem, ?_⟩
  exact
    { grid := hs.grid.withMem mem
      bg := hs.bg
      row := hs.row
      col := hs.col
      window := by rw [hcells, hpos]; exact hs.window.put ⟨_, hp⟩ v
      margin := hmargin hs.margin }

/-- **One character**, before the scroll. -/
theorem Pictured.place (hs : Pictured w h b (h.toNat / 16) s t off) (hb : b ≠ transparent) (c : UInt8) :
    ∃ s', s.place c = some s' ∧ s'.curFg = s.curFg ∧
      Pictured w h b (h.toNat / 16 + 1) s' (termChar (w.toNat / 8) (glyphCell · s.curFg b) t c) off := by
  have hrow := hs.row
  have hlt := hs.grid.row
  unfold Screen.place termChar
  by_cases hn : c = 10
  · simp only [if_pos hn]
    refine ⟨_, rfl, rfl, ⟨hs.grid.mode, hs.grid.fits, hs.grid.width, hs.grid.height, hs.grid.wide, ?_⟩, hs.bg, ?_, rfl, hs.window,
      hs.margin⟩
    · simp only [hs.grid.next_row]
      omega
    · simp only [Term.newline, hs.grid.next_row]
      omega
  by_cases hr : c = 13
  · simp only [if_neg hn, if_pos hr]
    exact ⟨_, rfl, rfl, ⟨hs.grid.mode, hs.grid.fits, hs.grid.width, hs.grid.height, hs.grid.wide, by simp only; omega⟩, hs.bg, hrow,
      rfl, hs.window, hs.margin⟩
  by_cases ht : c = 9
  · simp only [if_neg hn, if_neg hr, if_pos ht]
    refine ⟨_, rfl, wrap_fg _, ?_⟩
    have hstop : ((s.curCol + 8) &&& ~~~7).toNat = t.col + 8 - (t.col + 8) % 8 := by
      have hcol := hs.grid.col
      have hw := w.toNat_lt
      have height : (8 : UInt32).toNat = 8 := rfl
      rw [and_not_seven, toNat_add_of_lt (by rw [height]; omega), height, hs.col]
    have hwrap := hs.wrap ((s.curCol + 8) &&& ~~~7)
    rw [hstop] at hwrap
    exact hwrap
  · simp only [if_neg hn, if_neg hr, if_neg ht]
    obtain ⟨hx, hy, hright, hbottom⟩ := hs.grid.cell_origin
    have hw := w.toNat_lt
    have hh := h.toNat_lt
    obtain ⟨mem, hmem, hdrawn⟩ := hs.draw (hs.grid.fits.roomy.drawChar_paints _ _ c s.curFg s.curBg)
      (v := glyphCell c s.curFg b)
      (fun dx dy => by rw [hs.bg]; exact charPainting_glyph (by omega) (by omega) hb c dx dy)
      (charPainting_within (by omega) (by omega) c _ _)
    rw [hmem]
    refine ⟨_, rfl, wrap_fg _, ?_⟩
    have hnext : (s.curCol + 1).toNat = t.col + 1 := by
      have hcol := hs.grid.col
      have hone : (1 : UInt32).toNat = 1 := rfl
      rw [toNat_add_of_lt (by rw [hone]; omega), hone, hs.col]
    have hwrap := hdrawn.wrap (s.curCol + 1)
    rw [hnext] at hwrap
    exact hwrap

/-- **One character.** -/
theorem Pictured.char (hs : Pictured w h b (h.toNat / 16) s t off) (hb : b ≠ transparent) (c : UInt8) :
    ∃ s', s.kprintChar c = some s' ∧ s'.curFg = s.curFg ∧
      Pictured w h b (h.toNat / 16) s' (termChar (w.toNat / 8) (glyphCell · s.curFg b) t c)
        (max off ((termChar (w.toNat / 8) (glyphCell · s.curFg b) t c).row + 1 - h.toNat / 16)) := by
  obtain ⟨s₁, hplace, hfg₁, hs₁⟩ := hs.place hb c
  obtain ⟨s', hsettle, hfg, hs'⟩ := hs₁.settle
  refine ⟨s', ?_, hfg.trans hfg₁, hs'⟩
  unfold kprintChar
  rw [if_neg hs.grid.not_text, hplace]
  exact hsettle

/-! ## Calls -/

/-- **A terminal** without end, the first row that is shown, and the colour of the text. -/
structure Teletype where
  term : Term Cell
  top : ℕ
  fg : UInt32

variable {g : Teletype}

/-- A character. -/
def Teletype.char (rows cols : ℕ) (b : UInt32) (g : Teletype) (c : UInt8) : Teletype :=
  let term := termChar cols (glyphCell · g.fg b) g.term c
  { g with term, top := max g.top (term.row + 1 - rows) }

/-- A step back, unless the cursor is on the first cell that is shown, and a blank there. -/
def Teletype.erase (cols : ℕ) (b : UInt32) (g : Teletype) : Teletype :=
  if g.term.pos cols = g.top * cols then
    { g with term := { g.term with cells := Function.update g.term.cells (g.term.pos cols) fun _ _ => b } }
  else { g with term := g.term.backspace cols fun _ _ => b }

/-- The call on the terminal. -/
def Teletype.step (rows cols : ℕ) (b : UInt32) (g : Teletype) : TextOp → Teletype
  | .char c => g.char rows cols b c
  | .print cs => cs.foldl (Teletype.char rows cols b) g
  | .printColor cs fg _ => { cs.foldl (Teletype.char rows cols b) { g with fg } with fg := g.fg }
  | .backspace => g.erase cols b
  | .setColor fg _ => { g with fg }
  | .clear => { g with term := ⟨fun _ _ _ => b, 0, 0⟩, top := 0 }

/-- The call keeps the background. -/
def TextOp.Keeps (b : UInt32) : TextOp → Prop
  | printColor _ _ bg | setColor _ bg => bg = b
  | _ => True

/-- The framebuffer shows the terminal. -/
structure Teletype.ShownBy (w h b : UInt32) (g : Teletype) (s : Screen) : Prop where
  pictured : Pictured w h b (h.toNat / 16) s g.term g.top
  fg : s.curFg = g.fg

theorem Teletype.ShownBy.char (hg : g.ShownBy w h b s) (hb : b ≠ transparent) (c : UInt8) :
    ∃ s', s.kprintChar c = some s' ∧ (g.char (h.toNat / 16) (w.toNat / 8) b c).ShownBy w h b s' := by
  obtain ⟨s', hprint, hfg, hs'⟩ := hg.pictured.char hb c
  rw [hg.fg] at hs'
  exact ⟨s', hprint, hs', hfg.trans hg.fg⟩

theorem Teletype.ShownBy.print (hg : g.ShownBy w h b s) (hb : b ≠ transparent) (cs : List UInt8) :
    ∃ s', s.kprint cs = some s' ∧ (cs.foldl (Teletype.char (h.toNat / 16) (w.toNat / 8) b) g).ShownBy w h b s' := by
  induction cs generalizing g s with
  | nil => exact ⟨s, rfl, hg⟩
  | cons c cs ih =>
    obtain ⟨s₁, hprint, hg₁⟩ := hg.char hb c
    obtain ⟨s', hrest, hg'⟩ := ih hg₁
    refine ⟨s', ?_, hg'⟩
    rw [Screen.kprint, List.foldlM_cons, hprint]
    exact hrest

/-- **A blank** over the cell of the cursor. -/
theorem Pictured.blankCell (hs : Pictured w h b (h.toNat / 16) s t off) :
    ∃ mem, s.fb.fillRect (s.curCol * cw) (s.curRow * ch) cw ch s.curBg = some { s.fb with mem } ∧
      Pictured w h b (h.toNat / 16) { s with fb := { s.fb with mem } }
        { t with cells := Function.update t.cells (t.pos (w.toNat / 8)) fun _ _ => b } off := by
  obtain ⟨hx, hy, hright, hbottom⟩ := hs.grid.cell_origin
  have hw := w.toNat_lt
  have hh := h.toNat_lt
  have height : cw.toNat = 8 := rfl
  have hsixteen : ch.toNat = 16 := rfl
  have hx' : (s.curCol * cw + cw).toNat = (s.curCol * cw).toNat + 8 := toNat_add_of_lt (by rw [height]; omega)
  have hy' : (s.curRow * ch + ch).toNat = (s.curRow * ch).toNat + 16 := toNat_add_of_lt (by rw [hsixteen]; omega)
  have hpaints := hs.grid.fits.roomy.fillRect_paints (s.curCol * cw) (s.curRow * ch) cw ch s.curBg
  rw [hx', hy'] at hpaints
  exact hs.draw hpaints (v := fun _ _ => b) (fun dx dy => by rw [hs.bg]; exact solid_of_mem (mem_box.2 (by omega)))
    (within_solid _ _)

theorem Teletype.ShownBy.backspace (hg : g.ShownBy w h b s) :
    ∃ s', s.backspace = some s' ∧ (g.erase (w.toNat / 8) b).ShownBy w h b s' := by
  have hs := hg.pictured
  have hrow := hs.row
  have hcol := hs.col
  have hpos : g.term.pos (w.toNat / 8) = g.top * (w.toNat / 8) + (s.curRow.toNat * (w.toNat / 8) + s.curCol.toNat) := by
    rw [Term.pos, hrow, hcol, Nat.add_mul, Nat.add_assoc]
  have hwide := hs.grid.wide
  have hcolLt := hs.grid.col
  have hrowLt := hs.grid.row
  unfold Screen.backspace
  rw [if_neg hs.grid.not_text]
  by_cases hc : 0 < s.curCol
  · have hc' := UInt32.lt_iff_toNat_lt.1 hc
    rw [UInt32.toNat_zero] at hc'
    have hback : g.term.back (w.toNat / 8) = { g.term with col := g.term.col - 1 } := if_pos (by omega)
    have hs₁ : Pictured w h b (h.toNat / 16) { s with curCol := s.curCol - 1 } (g.term.back (w.toNat / 8)) g.top := by
      rw [hback]
      exact
        { grid := ⟨hs.grid.mode, hs.grid.fits, hs.grid.width, hs.grid.height, by simp only [toNat_pred hc]; omega, hrowLt⟩
          bg := hs.bg, row := hrow, col := by simp only [toNat_pred hc, hcol], window := by exact hs.window, margin := hs.margin }
    obtain ⟨mem, hmem, hs'⟩ := hs₁.blankCell
    rw [Term.back_cells] at hs'
    have herase : g.erase (w.toNat / 8) b = { g with term := g.term.backspace (w.toNat / 8) fun _ _ => b } := if_neg (by omega)
    rw [herase]
    simp only [if_pos hc, hmem]
    exact ⟨_, rfl, hs', hg.fg⟩
  · have hc' : s.curCol.toNat = 0 := by
      rw [UInt32.lt_iff_toNat_lt, UInt32.toNat_zero] at hc
      omega
    by_cases hr : 0 < s.curRow
    · have hr' := UInt32.lt_iff_toNat_lt.1 hr
      rw [UInt32.toNat_zero] at hr'
      have hline := Nat.mul_le_mul_right (w.toNat / 8) (show 1 ≤ s.curRow.toNat by omega)
      have htcols : 0 < s.tcols := by
        rw [UInt32.lt_iff_toNat_lt, tcols_toNat, hs.grid.width]
        exact hwide
      have hlast : (s.tcols - 1).toNat = w.toNat / 8 - 1 := by rw [toNat_pred htcols, tcols_toNat, hs.grid.width]
      have hback : g.term.back (w.toNat / 8) = { g.term with row := g.term.row - 1, col := w.toNat / 8 - 1 } := by
        unfold Term.back
        rw [if_neg (by omega), if_pos (by omega)]
      have hs₁ : Pictured w h b (h.toNat / 16) { s with curRow := s.curRow - 1, curCol := s.tcols - 1 }
          (g.term.back (w.toNat / 8)) g.top := by
        rw [hback]
        exact
          { grid := ⟨hs.grid.mode, hs.grid.fits, hs.grid.width, hs.grid.height, by simp only [hlast]; omega,
              by simp only [toNat_pred hr]; omega⟩
            bg := hs.bg, row := by simp only [toNat_pred hr]; omega, col := hlast.symm, window := by exact hs.window
            margin := hs.margin }
      obtain ⟨mem, hmem, hs'⟩ := hs₁.blankCell
      rw [Term.back_cells] at hs'
      have herase : g.erase (w.toNat / 8) b = { g with term := g.term.backspace (w.toNat / 8) fun _ _ => b } := if_neg (by omega)
      rw [herase]
      simp only [if_neg hc, if_pos hr, hmem]
      exact ⟨_, rfl, hs', hg.fg⟩
    · -- the first cell that is shown
      have hr' : s.curRow.toNat = 0 := by
        rw [UInt32.lt_iff_toNat_lt, UInt32.toNat_zero] at hr
        omega
      obtain ⟨mem, hmem, hs'⟩ := hs.blankCell
      have herase : g.erase (w.toNat / 8) b = { g with
          term := { g.term with cells := Function.update g.term.cells (g.term.pos (w.toNat / 8)) fun _ _ => b } } :=
        if_pos (by rw [hpos, hc', hr', Nat.zero_mul, Nat.add_zero])
      rw [herase]
      simp only [if_neg hc, if_neg hr, hmem]
      exact ⟨_, rfl, hs', hg.fg⟩

/-- A cleared screen shows an empty terminal, whatever was there. -/
theorem OnGrid.clear_shown (hs : OnGrid w h (h.toNat / 16) s) (hbg : s.curBg = b) :
    ∃ s', s.clear = some s' ∧ Teletype.ShownBy w h b ⟨⟨fun _ _ _ => b, 0, 0⟩, 0, s.curFg⟩ s' := by
  obtain ⟨s', hclear, hs'⟩ := hs.step .clear
  refine ⟨s', hclear, ?_⟩
  obtain ⟨mem, hmem, hview⟩ := (hs.fits.roomy.fillRect_paints 0 0 s.fb.w s.fb.h s.curBg).result
  rw [TextOp.apply, Screen.clear, if_neg hs.not_text, hmem] at hclear
  obtain rfl := Option.some.inj hclear
  have hpixel : ∀ px py, px < w.toNat → py < h.toNat → ({ s.fb with mem } : Framebuffer).pixel px py = b := by
    intro px py hx hy
    rw [← hs.width] at hx
    rw [← hs.height] at hy
    have hin : (px, py) ∈ box (0 : UInt32).toNat (0 + s.fb.w).toNat (0 : UInt32).toNat (0 + s.fb.h).toNat := by
      rw [mem_box, UInt32.zero_add, UInt32.zero_add, UInt32.toNat_zero]
      omega
    refine (hview px py hx hy).trans ?_
    rw [solid_of_mem hin, Option.getD_some, hbg]
  refine ⟨⟨hs', hbg, rfl, rfl, ⟨fun i => ?_, fun _ _ => rfl⟩, fun px py hx hy _ => hpixel px py hx hy⟩, rfl⟩
  funext dx dy
  have hi := cell_bounds i.isLt
  have hdx := dx.isLt
  have hdy := dy.isLt
  exact hpixel _ _ (by omega) (by omega)

/-- **One call.** -/
theorem Teletype.ShownBy.step (hg : g.ShownBy w h b s) (hb : b ≠ transparent) {op : TextOp} (hop : op.Keeps b) :
    ∃ s', op.apply s = some s' ∧ (g.step (h.toNat / 16) (w.toNat / 8) b op).ShownBy w h b s' := by
  have hs := hg.pictured
  have hmode := hs.grid.not_text
  cases op with
  | char c => exact hg.char hb c
  | print cs => exact hg.print hb cs
  | printColor cs fg bg =>
    obtain rfl : bg = b := hop
    have hstart : Teletype.ShownBy w h bg { g with fg } { s with curFg := fg, curBg := bg } :=
      ⟨⟨hs.grid.colours fg bg, rfl, hs.row, hs.col, hs.window, hs.margin⟩, rfl⟩
    obtain ⟨s', hprint, hg'⟩ := hstart.print hb cs
    have hs' := hg'.pictured
    rw [TextOp.apply, Screen.kprintColor, if_neg hmode, hprint]
    exact ⟨_, rfl, ⟨hs'.grid.colours _ _, hs.bg, hs'.row, hs'.col, hs'.window, hs'.margin⟩, hg.fg⟩
  | backspace => exact hg.backspace
  | setColor fg bg =>
    obtain rfl : bg = b := hop
    refine ⟨_, rfl, ?_⟩
    unfold Screen.setColor
    rw [if_neg hmode]
    exact ⟨⟨hs.grid.colours fg bg, rfl, hs.row, hs.col, hs.window, hs.margin⟩, rfl⟩
  | clear =>
    obtain ⟨s', hclear, hg'⟩ := hs.grid.clear_shown hs.bg
    refine ⟨s', hclear, ?_⟩
    rw [hg.fg] at hg'
    exact hg'

/-! ## The picture -/

theorem mod_eight_lt (n : ℕ) : n % 8 < 8 := Nat.mod_lt n (by decide)
theorem mod_sixteen_lt (n : ℕ) : n % 16 < 16 := Nat.mod_lt n (by decide)

/-- **The picture of a terminal**: its cells from the first row that is shown, and background. -/
def Teletype.picture (rows cols : ℕ) (b : UInt32) (g : Teletype) (px py : ℕ) : UInt32 :=
  if px / 8 < cols ∧ py / 16 < rows then
    g.term.cells ((g.top + py / 16) * cols + px / 8) ⟨px % 8, mod_eight_lt px⟩ ⟨py % 16, mod_sixteen_lt py⟩
  else b

theorem Teletype.ShownBy.pixel (hg : g.ShownBy w h b s) {px py : ℕ} (hx : px < w.toNat) (hy : py < h.toNat) :
    s.fb.pixel px py = g.picture (h.toNat / 16) (w.toNat / 8) b px py := by
  unfold Teletype.picture
  by_cases hin : px / 8 < w.toNat / 8 ∧ py / 16 < h.toNat / 16
  · obtain ⟨hcol, hrow⟩ := hin
    have hp : py / 16 * (w.toNat / 8) + px / 8 < h.toNat / 16 * (w.toNat / 8) := by
      have hline := Nat.mul_le_mul_right (w.toNat / 8) (show py / 16 + 1 ≤ h.toNat / 16 from hrow)
      rw [Nat.succ_mul] at hline
      omega
    have hmod : (py / 16 * (w.toNat / 8) + px / 8) % (w.toNat / 8) = px / 8 := by
      rw [Nat.mul_comm, Nat.mul_add_mod, Nat.mod_eq_of_lt hcol]
    have hdiv : (py / 16 * (w.toNat / 8) + px / 8) / (w.toNat / 8) = py / 16 := by
      rw [Nat.mul_comm, Nat.mul_add_div (by omega), Nat.div_eq_of_lt hcol, Nat.add_zero]
    have hcell := congrFun (congrFun (hg.pictured.window.inside ⟨_, hp⟩) ⟨px % 8, mod_eight_lt px⟩) ⟨py % 16, mod_sixteen_lt py⟩
    unfold cellsOf at hcell
    simp only [hmod, hdiv] at hcell
    have hpx : px / 8 * 8 + px % 8 = px := by omega
    have hpy : py / 16 * 16 + py % 16 = py := by omega
    rw [hpx, hpy] at hcell
    rw [if_pos ⟨hcol, hrow⟩, hcell, Nat.add_mul, Nat.add_assoc]
  · rw [if_neg hin]
    exact hg.pictured.margin px py hx hy (by omega)

/-- **A run of calls.** -/
theorem Teletype.ShownBy.run (hb : b ≠ transparent) : ∀ (ops : List TextOp) (g : Teletype) (s : Screen), (∀ op ∈ ops, op.Keeps b) →
    g.ShownBy w h b s → ∃ s', ops.foldlM TextOp.apply s = some s' ∧
      (ops.foldl (Teletype.step (h.toNat / 16) (w.toNat / 8) b) g).ShownBy w h b s' := by
  intro ops
  induction ops with
  | nil => exact fun g s _ hg => ⟨s, rfl, hg⟩
  | cons op ops ih =>
    intro g s hops hg
    obtain ⟨hop, hops⟩ := List.forall_mem_cons.1 hops
    obtain ⟨s₁, happly, hg₁⟩ := hg.step hb hop
    obtain ⟨s', hrest, hg'⟩ := ih _ s₁ hops hg₁
    refine ⟨s', ?_, hg'⟩
    rw [List.foldlM_cons, happly]
    exact hrest

/-- A clear in a new background shows an empty terminal. -/
theorem OnGrid.blanked (hs : OnGrid w h (h.toNat / 16) s) (fg b : UInt32) :
    ∃ s', [TextOp.setColor fg b, .clear].foldlM TextOp.apply s = some s' ∧
      Teletype.ShownBy w h b ⟨⟨fun _ _ _ => b, 0, 0⟩, 0, fg⟩ s' := by
  have hcolour : TextOp.apply s (.setColor fg b) = some { s with curFg := fg, curBg := b } := congrArg some (if_neg hs.not_text)
  obtain ⟨s', hclear, hg⟩ := (hs.colours fg b).clear_shown rfl
  have hclear' : TextOp.apply { s with curFg := fg, curBg := b } .clear = some s' := hclear
  refine ⟨s', ?_, hg⟩
  rw [List.foldlM_cons, hcolour, Option.bind_eq_bind, Option.bind_some, List.foldlM_cons, hclear']
  rfl

/-- **The graphical console refines a terminal without end**, for every geometry of at least one
cell and every sequence of calls after a clear that keeps the background, whatever was done
before it. Every pixel of the screen is that of the terminal's picture: the glyphs of its last
rows in the colours that they were printed in, and the background everywhere else; and the
cursor is where it is there. -/
theorem graphical_console_refines {width height pitch : UInt32} (s : Screen) (hmode : s.mode = .vbe)
    (mem : Fin (pitch.toNat * height.toNat) → UInt8) (hw : 8 ≤ width.toNat) (hh : 16 ≤ height.toNat)
    (hp : 4 * width.toNat ≤ pitch.toNat) (hsize : pitch.toNat * height.toNat < 2 ^ 32) (pre : List TextOp) (fg b : UInt32)
    (hb : b ≠ transparent) (ops : List TextOp) (hops : ∀ op ∈ ops, op.Keeps b) :
    let g := ops.foldl (Teletype.step (height.toNat / 16) (width.toNat / 8) b) ⟨⟨fun _ _ _ => b, 0, 0⟩, 0, fg⟩
    ∃ s', (s.init _ mem pitch width height).bind ((pre ++ [TextOp.setColor fg b, TextOp.clear] ++ ops).foldlM TextOp.apply) = some s' ∧
      s'.curRow.toNat = g.term.row - g.top ∧ s'.curCol.toNat = g.term.col ∧
      ∀ px py, px < width.toNat → py < height.toNat →
        s'.fb.pixel px py = g.picture (height.toNat / 16) (width.toNat / 8) b px py := by
  intro g
  obtain ⟨s₀, hinit, hs₀⟩ := (start_onGrid s hmode mem hw hh hp hsize).step .clear
  obtain ⟨s₁, hpre, hs₁⟩ := foldlM_keeps hs₀ (l := pre) fun op _ s hs => hs.step op
  obtain ⟨s₂, hset, hs₂⟩ := hs₁.blanked fg b
  obtain ⟨s', hops', hg'⟩ := Teletype.ShownBy.run hb ops _ s₂ hops hs₂
  have hrow : g.term.row = g.top + s'.curRow.toNat := hg'.pictured.row
  refine ⟨s', ?_, ?_, hg'.pictured.col.symm, fun px py hx hy => hg'.pixel hx hy⟩
  · have hinit' : s.init _ mem pitch width height = some s₀ := hinit
    rw [hinit', Option.bind_some, List.foldlM_append, List.foldlM_append, hpre, Option.bind_eq_bind, Option.bind_some, hset]
    exact hops'
  · omega

/-- The geometry of `screen_enter_vbe`, and the letter `A` in white on black. -/
theorem graphical_console_refines_a : ∃ s',
    ((static 0).init ((3200 : UInt32).toNat * (600 : UInt32).toNat) (fun _ => 0) 3200 800 600).bind
      ([TextOp.setColor white black, TextOp.clear, TextOp.char 65].foldlM TextOp.apply) = some s' ∧
    ∀ dx dy, dx < 8 → dy < 16 → s'.fb.pixel dx dy = glyphCell 65 white black (Fin.ofNat 8 dx) (Fin.ofNat 16 dy) := by
  obtain ⟨s', hrun, -, -, hpixel⟩ := @graphical_console_refines 800 600 3200 (static 0) rfl (fun _ => 0) (by decide) (by decide)
    (by decide) (by decide) [] white black (by decide) [.char 65] (by simp [TextOp.Keeps])
  refine ⟨s', hrun, fun dx dy hx hy => (hpixel dx dy (hx.trans (by decide)) (hy.trans (by decide))).trans ?_⟩
  have hx' : dx / 8 = 0 := Nat.div_eq_of_lt hx
  have hy' : dy / 16 = 0 := Nat.div_eq_of_lt hy
  -- the cell at the top on the left
  have hput : termChar 100 (glyphCell · white black) ⟨fun _ _ _ => black, 0, 0⟩ 65 =
      Term.put 100 (glyphCell 65 white black) ⟨fun _ _ _ => black, 0, 0⟩ := by
    unfold termChar
    rw [if_neg (by decide), if_neg (by decide), if_neg (by decide)]
  have hcells : (Teletype.step 37 100 black ⟨⟨fun _ _ _ => black, 0, 0⟩, 0, white⟩ (.char 65)).term.cells =
      Function.update (fun _ _ _ => black) 0 (glyphCell 65 white black) := by
    show (termChar 100 (glyphCell · white black) ⟨fun _ _ _ => black, 0, 0⟩ 65).cells = _
    rw [hput, Term.put_cells]
    rfl
  have htop : (Teletype.step 37 100 black ⟨⟨fun _ _ _ => black, 0, 0⟩, 0, white⟩ (.char 65)).top = 0 := by
    show max 0 ((termChar 100 (glyphCell · white black) ⟨fun _ _ _ => black, 0, 0⟩ 65).row + 1 - 37) = 0
    rw [hput]
    rfl
  unfold Teletype.picture
  rw [hx', hy', if_pos (by decide)]
  show (Teletype.step 37 100 black ⟨⟨fun _ _ _ => black, 0, 0⟩, 0, white⟩ (.char 65)).term.cells
    (((Teletype.step 37 100 black ⟨⟨fun _ _ _ => black, 0, 0⟩, 0, white⟩ (.char 65)).top + 0) * 100 + 0) _ _ = _
  rw [hcells, htop, Function.update_self]
  rfl

end Screen

end DahleOS
