import DahleOS.Proof.ConsoleCursor

/-!
# The row that a scroll exposes

A scroll moves the whole framebuffer up by one text row and fills its last 16 lines. Where
the height is no multiple of 16, the band below the last text row moves into that row.

* `scrollFb_pixel`: a scroll, pixel by pixel.
* `Banded`: the band below the text has the background of the last scroll or clear.
* `Banded.scroll_iff`: when the exposed row is in the current background.
* `scroll_row`: at 800 by 600, after every sequence of calls.
-/

namespace DahleOS

open CArray Codec Framebuffer MachineWord Painting PartialRun

namespace Screen

variable {f : Framebuffer} {s t : Screen} {w h b bg : UInt32} {c : UInt8}

/-! ## A scroll -/

/-- **The copy**: every line is that 16 lines below it. -/
theorem scrolled_pixel (hf : f.Fits) {px py : ℕ} (hx : px < f.w.toNat) (hy : py + 16 < f.h.toNat) :
    ({ f with mem := scrolled f } : Framebuffer).pixel px py = f.pixel px (py + 16) := by
  have hpitch := hf.pitch
  have htall := hf.tall
  -- the pixel is in the lines that are written
  have hline : py * f.pitch.toNat + f.pitch.toNat ≤ (f.h.toNat - 16) * f.pitch.toNat := by
    rw [← Nat.succ_mul]
    exact Nat.mul_le_mul_right _ (by omega)
  have hbody : (f.h.toNat - 16) * f.pitch.toNat + 16 * f.pitch.toNat = f.size := by
    rw [← Nat.add_mul, Nat.sub_add_cancel htall, Nat.mul_comm, hf.mem]
  refine congrArg word32.symm ?_
  funext i
  have hi := i.isLt
  have hsrc : (py + 16) * f.pitch.toNat + px * 4 + i.val = py * f.pitch.toNat + px * 4 + i.val + 16 * f.pitch.toNat := by
    rw [Nat.add_mul]
    omega
  unfold scrolled
  dsimp only
  rw [dif_pos (by omega), dif_pos (by omega), dif_pos (by omega)]
  exact congrArg f.mem (Fin.ext hsrc.symm)

/-- **A scroll** copies, and fills the last 16 lines. -/
theorem scrollFb_pixel (hf : f.Fits) (bg : UInt32) : ∃ mem, scrollFb f bg = some { f with mem } ∧
    ∀ px py, px < f.w.toNat → py < f.h.toNat → ({ f with mem } : Framebuffer).pixel px py =
      if py + 16 < f.h.toNat then f.pixel px (py + 16) else bg := by
  have htall := hf.tall
  have hsixteen : ch.toNat = 16 := rfl
  have hrest : (f.h - ch).toNat = f.h.toNat - 16 := UInt32.toNat_sub_of_le _ _ (UInt32.le_iff_toNat_le.2 htall)
  have hlast : (f.h - ch + ch).toNat = f.h.toNat := by
    rw [toNat_add_of_lt (by have := f.h.toNat_lt; omega), hrest, hsixteen, Nat.sub_add_cancel htall]
  obtain ⟨mem, heq, hview⟩ := ((hf.withMem (scrolled f)).roomy.fillRect_paints (f := { f with mem := scrolled f }) 0 (f.h - ch)
    f.w ch bg).result
  refine ⟨mem, (scrollFb_eq hf bg).trans heq, ?_⟩
  intro px py hpx hpy
  have hin : (px, py) ∈ box (0 : UInt32).toNat (0 + f.w).toNat (f.h - ch).toNat (f.h - ch + ch).toNat ↔
      ¬ py + 16 < f.h.toNat := by
    rw [mem_box, UInt32.zero_add, UInt32.toNat_zero, hrest, hlast]
    omega
  refine (hview px py hpx hpy).trans ((getD_solid hin _ _).trans ?_)
  by_cases hy : py + 16 < f.h.toNat
  · rw [if_neg (not_not.2 hy), if_pos hy]
    exact scrolled_pixel hf hpx hy
  · rw [if_pos hy, if_neg hy]

/-! ## The band -/

/-- **The band below the last text row** has the colour `b`. -/
structure Banded (w h b : UInt32) (s : Screen) : Prop where
  grid : OnGrid w h (h.toNat / 16) s
  band : ∀ px py, px < w.toNat → h.toNat / 16 * 16 ≤ py → py < h.toNat → s.fb.pixel px py = b

theorem wrap_fb (s : Screen) : s.wrap.fb = s.fb ∧ s.wrap.curBg = s.curBg := by
  unfold wrap
  split <;> exact ⟨rfl, rfl⟩

/-- **A character is drawn in its row**, so the band keeps its colour. -/
theorem Banded.place (hs : Banded w h b s) (c : UInt8) : ∃ t, s.place c = some t ∧ OnGrid w h (h.toNat / 16 + 1) t ∧
    t.curBg = s.curBg ∧ ∀ px py, px < w.toNat → h.toNat / 16 * 16 ≤ py → py < h.toNat → t.fb.pixel px py = b := by
  obtain ⟨t, hplace, ht⟩ := hs.grid.place c
  refine ⟨t, hplace, ht, ?_⟩
  unfold Screen.place at hplace
  split at hplace
  · obtain rfl := Option.some.inj hplace
    exact ⟨rfl, hs.band⟩
  split at hplace
  · obtain rfl := Option.some.inj hplace
    exact ⟨rfl, hs.band⟩
  split at hplace
  · obtain rfl := Option.some.inj hplace
    rw [(wrap_fb _).1, (wrap_fb _).2]
    exact ⟨rfl, hs.band⟩
  · -- the cell of the cursor ends above the band
    obtain ⟨hcol, -⟩ := hs.grid.cellInside
    have hrow := hs.grid.row
    have hheight := h.toNat_lt
    have hwidth := s.fb.w.toNat_lt
    have hline : (s.curRow * ch).toNat = s.curRow.toNat * 16 :=
      toNat_mul_of_lt (show s.curRow.toNat * 16 < 2 ^ 32 by omega)
    obtain ⟨fb, hdraw, hsame, hview⟩ := Canvas.Paints.unchanged
      (hs.grid.fits.roomy.drawChar_paints (s.curCol * cw) (s.curRow * ch) c s.curFg s.curBg)
      (charPainting_within (by omega) (by omega) c s.curFg s.curBg)
    rw [hdraw] at hplace
    obtain rfl := Option.some.inj hplace
    rw [(wrap_fb _).1, (wrap_fb _).2]
    refine ⟨rfl, fun px py hx hlo hhi => ?_⟩
    rw [← hs.band px py hx hlo hhi]
    refine hview (px, py) ⟨by rw [hs.grid.width]; exact hx, by rw [hs.grid.height]; exact hhi⟩ fun hin => ?_
    rw [mem_box, hline] at hin
    omega

/-- **A scroll**, with the background at hand. -/
theorem OnGrid.doScroll_pixel (ht : OnGrid w h (h.toNat / 16 + 1) t) (hbelow : t.trows ≤ t.curRow) :
    ∃ s', t.doScroll = some s' ∧ OnGrid w h (h.toNat / 16) s' ∧ s'.curBg = t.curBg ∧
      ∀ px py, px < w.toNat → py < h.toNat → s'.fb.pixel px py =
        if py + 16 < h.toNat then t.fb.pixel px (py + 16) else t.curBg := by
  obtain ⟨s', hscroll, hs'⟩ := ht.doScroll hbelow
  obtain ⟨mem, hmem, hview⟩ := scrollFb_pixel ht.fits t.curBg
  refine ⟨s', hscroll, hs', ?_⟩
  rw [Screen.doScroll, hmem] at hscroll
  obtain rfl := Option.some.inj hscroll
  rw [ht.width, ht.height] at hview
  exact ⟨rfl, hview⟩

/-! ## Calls -/

/-- The three calls. -/
inductive RowOp
  | char (c : UInt8)
  | setColor (fg bg : UInt32)
  | clear

def RowOp.apply (s : Screen) : RowOp → Option Screen
  | char c => s.kprintChar c
  | setColor fg bg => some (s.setColor fg bg)
  | clear => s.clear

/-- The character makes `kprint_char` scroll. -/
def scrolls (s : Screen) (c : UInt8) : Bool := (s.place c).any fun t => t.trows ≤ t.curRow

/-- The call fills the last lines of the framebuffer. -/
def RowOp.fills (s : Screen) : RowOp → Bool
  | char c => s.scrolls c
  | setColor _ _ => false
  | clear => true

/-- A call, and the background of the last one that filled the last lines. -/
def track (p : Screen × UInt32) (op : RowOp) : Option (Screen × UInt32) := do
  let s ← op.apply p.1
  return (s, if op.fills p.1 then p.1.curBg else p.2)

/-- The band after a scroll. -/
theorem Banded.char (hs : Banded w h b s) (c : UInt8) :
    ∃ s', s.kprintChar c = some s' ∧ Banded w h (if s.scrolls c then s.curBg else b) s' := by
  have hmode := hs.grid.not_text
  obtain ⟨t, hplace, ht, hbg, hband⟩ := hs.place c
  have hscrolls : s.scrolls c = decide (t.trows ≤ t.curRow) := by rw [scrolls, hplace, Option.any_some]
  unfold kprintChar
  rw [if_neg hmode, hplace, hscrolls]
  by_cases hbelow : t.trows ≤ t.curRow
  · obtain ⟨s', hscroll, hs', -, hview⟩ := ht.doScroll_pixel hbelow
    refine ⟨s', (if_pos hbelow).trans hscroll, hs', ?_⟩
    intro px py hx hlo hhi
    rw [hview px py hx hhi, if_neg (by omega), decide_eq_true hbelow, if_pos rfl, hbg]
  · refine ⟨t, if_neg hbelow, ⟨ht.mode, ht.fits, ht.width, ht.height, ht.col, ?_⟩, ?_⟩
    · have hlt := UInt32.lt_iff_toNat_lt.1 (UInt32.not_le.1 hbelow)
      rwa [trows_toNat, ht.height] at hlt
    · rw [decide_eq_false hbelow, if_neg Bool.false_ne_true]
      exact hband

/-- A cleared screen. -/
theorem Banded.clear (hs : OnGrid w h (h.toNat / 16) s) : ∃ s', s.clear = some s' ∧ s'.curRow = 0 ∧ s'.curBg = s.curBg ∧
    Banded w h s.curBg s' := by
  have hmode := hs.not_text
  obtain ⟨s', hclear, hs'⟩ := hs.step .clear
  refine ⟨s', hclear, ?_⟩
  obtain ⟨mem, hmem, hview⟩ := (hs.fits.roomy.fillRect_paints 0 0 s.fb.w s.fb.h s.curBg).result
  rw [TextOp.apply, Screen.clear, if_neg hmode, hmem] at hclear
  obtain rfl := Option.some.inj hclear
  refine ⟨rfl, rfl, hs', ?_⟩
  intro px py hx _ hy
  rw [hs.width, hs.height] at hview
  have hin : (px, py) ∈ box (0 : UInt32).toNat (0 + w).toNat (0 : UInt32).toNat (0 + h).toNat := by
    rw [mem_box, UInt32.zero_add, UInt32.zero_add, UInt32.toNat_zero]
    omega
  refine (hview px py hx hy).trans ?_
  rw [solid_of_mem hin, Option.getD_some]

/-- **One call.** -/
theorem Banded.step (hs : Banded w h b s) (op : RowOp) : ∃ s' b', track (s, b) op = some (s', b') ∧ Banded w h b' s' := by
  cases op with
  | char c =>
    obtain ⟨s', hprint, hs'⟩ := hs.char c
    exact ⟨s', _, by rw [track, RowOp.apply, hprint]; rfl, hs'⟩
  | setColor fg bg =>
    have hmode := hs.grid.not_text
    refine ⟨_, _, rfl, ?_⟩
    unfold Screen.setColor
    rw [if_neg hmode]
    exact ⟨hs.grid.colours fg bg, hs.band⟩
  | clear =>
    obtain ⟨s', hclear, -, -, hs'⟩ := Banded.clear hs.grid
    exact ⟨s', _, by rw [track, RowOp.apply, hclear]; rfl, hs'⟩

/-- **`screen_init`** clears the screen, in black. -/
theorem init_banded {pitch : UInt32} (s : Screen) (hmode : s.mode = .vbe) (mem : Fin (pitch.toNat * h.toNat) → UInt8)
    (hw : 8 ≤ w.toNat) (hh : 16 ≤ h.toNat) (hp : 4 * w.toNat ≤ pitch.toNat) (hsize : pitch.toNat * h.toNat < 2 ^ 32) :
    ∃ s', s.init _ mem pitch w h = some s' ∧ s'.curRow = 0 ∧ s'.curBg = black ∧ Banded w h black s' :=
  Banded.clear (start_onGrid s hmode mem hw hh hp hsize)

/-! ## The exposed row -/

/-- **The next scroll**: the rows move, and the last one is in the current background exactly if
there is no band, or the band has that colour. -/
theorem Banded.scroll_iff (hs : Banded w h b s) (hscrolls : s.scrolls c = true) :
    ∃ t s', s.place c = some t ∧ t.doScroll = some s' ∧ s.kprintChar c = some s' ∧
      (∀ px py, px < w.toNat → py + 16 < h.toNat / 16 * 16 → s'.fb.pixel px py = t.fb.pixel px (py + 16)) ∧
      ((∀ px py, px < w.toNat → (h.toNat / 16 - 1) * 16 ≤ py → py < h.toNat / 16 * 16 → s'.fb.pixel px py = s.curBg) ↔
        h.toNat % 16 = 0 ∨ s.curBg = b) := by
  have hmode := hs.grid.not_text
  have hwide := hs.grid.wide
  have htall := hs.grid.tall
  obtain ⟨t, hplace, ht, hbg, hband⟩ := hs.place c
  rw [scrolls, hplace, Option.any_some, decide_eq_true_iff] at hscrolls
  obtain ⟨s', hscroll, -, -, hview⟩ := ht.doScroll_pixel hscrolls
  refine ⟨t, s', hplace, hscroll, ?_, ?_, ?_⟩
  · unfold kprintChar
    rw [if_neg hmode, hplace]
    exact (if_pos hscrolls).trans hscroll
  · intro px py hx hy
    rw [hview px py hx (by omega), if_pos (by omega)]
  · rw [hbg] at hview
    constructor
    · intro hrow
      by_contra hnot
      -- the first line of the exposed row is the first one of the band
      have hfirst := hrow 0 ((h.toNat / 16 - 1) * 16) (by omega) le_rfl (by omega)
      rw [hview _ _ (by omega) (by omega), if_pos (by omega), hband _ _ (by omega) (by omega) (by omega)] at hfirst
      exact hnot (.inr hfirst.symm)
    · rintro hor px py hx hlo hhi
      rw [hview px py hx (by omega)]
      split
      next hin =>
        rcases hor with hzero | heq
        · omega
        · rw [hband px (py + 16) hx (by omega) hin, heq]
      · rfl

/-! ## Newlines -/

/-- A newline above the last row. -/
theorem Banded.newline (hs : Banded w h b s) (hrow : s.curRow.toNat + 1 < h.toNat / 16) :
    track (s, b) (.char 10) = some ({ s with curCol := 0, curRow := s.curRow + 1 }, b) ∧
      (s.curRow + 1).toNat = s.curRow.toNat + 1 := by
  have hmode := hs.grid.not_text
  have hnext := hs.grid.next_row
  have hplace : s.place 10 = some { s with curCol := 0, curRow := s.curRow + 1 } := if_pos rfl
  have habove : ¬ s.trows ≤ s.curRow + 1 := by
    rw [UInt32.le_iff_toNat_le, trows_toNat, hs.grid.height, hnext]
    omega
  have hscrolls : s.scrolls 10 = false := by
    rw [scrolls, hplace, Option.any_some]
    exact decide_eq_false habove
  have hprint : s.kprintChar 10 = some { s with curCol := 0, curRow := s.curRow + 1 } := by
    unfold kprintChar
    rw [if_neg hmode, hplace]
    exact if_neg habove
  refine ⟨?_, hnext⟩
  rw [track, RowOp.apply, hprint, RowOp.fills, hscrolls]
  rfl

/-- Newlines down to the last row. -/
theorem Banded.newlines (hs : Banded w h b s) {n : ℕ} (hn : s.curRow.toNat + n < h.toNat / 16) :
    ∃ s', (List.replicate n (RowOp.char 10)).foldlM track (s, b) = some (s', b) ∧ Banded w h b s' ∧ s'.curBg = s.curBg ∧
      s'.curRow.toNat = s.curRow.toNat + n := by
  induction n generalizing s with
  | zero => exact ⟨s, rfl, hs, rfl, rfl⟩
  | succ n ih =>
    obtain ⟨hstep, hnext⟩ := hs.newline (by omega)
    obtain ⟨s', b', hstep', hs'⟩ := hs.step (.char 10)
    obtain ⟨rfl, rfl⟩ := Prod.mk.inj (Option.some.inj (hstep.symm.trans hstep'))
    obtain ⟨s'', hrun, hs'', hbg, hrow⟩ := ih hs' (by rw [hnext]; omega)
    refine ⟨s'', ?_, hs'', hbg, by rw [hrow, hnext]; omega⟩
    rw [List.replicate_succ, List.foldlM_cons, hstep]
    exact hrun

/-- A newline on the last row scrolls. -/
theorem Banded.last_newline (hs : Banded w h b s) (hrow : s.curRow.toNat + 1 = h.toNat / 16) : s.scrolls 10 = true := by
  have hplace : s.place 10 = some { s with curCol := 0, curRow := s.curRow + 1 } := if_pos rfl
  have hbelow : s.trows ≤ s.curRow + 1 := by
    rw [UInt32.le_iff_toNat_le, trows_toNat, hs.grid.height, hs.grid.next_row]
    omega
  rw [scrolls, hplace, Option.any_some]
  exact decide_eq_true hbelow

/-! ## At 800 by 600 -/

/-- **`do_scroll` at 800 by 600**, for every pitch and every sequence of calls: the next scroll
moves the rows, and leaves row 36 in the current background exactly if that is the
background of the last scroll or clear before it. -/
theorem scroll_row {pitch : UInt32} (s : Screen) (hmode : s.mode = .vbe)
    (mem : Fin (pitch.toNat * (600 : UInt32).toNat) → UInt8) (hp : 3200 ≤ pitch.toNat) (hsize : pitch.toNat * 600 < 2 ^ 32)
    (ops : List RowOp) : ∃ s₀ s₁ b, s.init _ mem pitch 800 600 = some s₀ ∧ ops.foldlM track (s₀, black) = some (s₁, b) ∧
      ∀ c, s₁.scrolls c = true → ∃ t s₂, s₁.place c = some t ∧ t.doScroll = some s₂ ∧ s₁.kprintChar c = some s₂ ∧
        (∀ r < 36, ∀ i < 16, ∀ px < 800, s₂.fb.pixel px (r * 16 + i) = t.fb.pixel px ((r + 1) * 16 + i)) ∧
        ((∀ i < 16, ∀ px < 800, s₂.fb.pixel px (36 * 16 + i) = s₁.curBg) ↔ s₁.curBg = b) := by
  have hw : (800 : UInt32).toNat = 800 := rfl
  have hh : (600 : UInt32).toNat = 600 := rfl
  obtain ⟨s₀, hinit, -, -, hs₀⟩ := init_banded (w := 800) (h := 600) s hmode mem (by omega) (by omega) (by omega)
    (by rw [hh]; exact hsize)
  obtain ⟨⟨s₁, b⟩, hrun, hs₁⟩ := foldlM_keeps (P := fun p : Screen × UInt32 => Banded 800 600 p.2 p.1) (s := (s₀, black))
    (l := ops) hs₀ fun op _ p hp => by
      obtain ⟨s', b', htrack, hs'⟩ := hp.step op
      exact ⟨(s', b'), htrack, hs'⟩
  refine ⟨s₀, s₁, b, hinit, hrun, fun c hc => ?_⟩
  obtain ⟨t, s₂, hplace, hscroll, hprint, hrows, hlast⟩ := hs₁.scroll_iff hc
  refine ⟨t, s₂, hplace, hscroll, hprint, ?_, ?_⟩
  · intro r hr i hi px hx
    have hline : (r + 1) * 16 + i = r * 16 + i + 16 := by omega
    rw [hline]
    exact hrows px (r * 16 + i) (by omega) (by omega)
  · rw [hw, hh] at hlast
    refine Iff.trans ⟨fun h px py hx hlo hhi => ?_, fun h i hi px hx => h px _ hx (by omega) (by omega)⟩
      (hlast.trans (or_iff_right (by decide)))
    have hline : py = 36 * 16 + (py - 576) := by omega
    rw [hline]
    exact h (py - 576) (by omega) px hx

/-- 36 newlines and another one: the exposed row is black, as everything is. -/
theorem scroll_row_black : ∃ s₀ s₁ s₂, (static 0).init ((3200 : UInt32).toNat * (600 : UInt32).toNat) (fun _ => 0) 3200 800 600 =
    some s₀ ∧ (List.replicate 36 (RowOp.char 10)).foldlM track (s₀, black) = some (s₁, black) ∧
    s₁.kprintChar 10 = some s₂ ∧ ∀ i < 16, ∀ px < 800, s₂.fb.pixel px (36 * 16 + i) = black := by
  obtain ⟨s₀', s₁', b, hinit, hrun, hscroll⟩ := @scroll_row 3200 (static 0) rfl (fun _ => 0) (by decide) (by decide)
    (List.replicate 36 (.char 10))
  obtain ⟨s₀, hinit', hrow, hbg, hs₀⟩ := @init_banded 800 600 3200 (static 0) rfl (fun _ => 0)
    (by decide) (by decide) (by decide) (by decide)
  obtain rfl : s₀ = s₀' := Option.some.inj (hinit'.symm.trans hinit)
  obtain ⟨s₁, hrun', hs₁, hbg', hrow'⟩ := hs₀.newlines (n := 36) (by rw [hrow]; decide)
  obtain ⟨rfl, rfl⟩ := Prod.mk.inj (Option.some.inj (hrun'.symm.trans hrun))
  obtain ⟨-, s₂, -, -, hprint, -, hlast⟩ := hscroll 10 (hs₁.last_newline (by rw [hrow', hrow]; decide))
  have hblack := hbg'.trans hbg
  have hexposed := hlast.2 hblack
  refine ⟨s₀, s₁, s₂, hinit, hrun, hprint, ?_⟩
  intro i hi px hx
  have hpixel := hexposed i hi px hx
  exact hpixel.trans hblack

/-- With another background set before them, part of the exposed row stays black. -/
theorem scroll_row_stale : ∃ s₀ s₁ s₂, (static 0).init ((3200 : UInt32).toNat * (600 : UInt32).toNat) (fun _ => 0) 3200 800 600 =
    some s₀ ∧ (RowOp.setColor black white :: List.replicate 36 (RowOp.char 10)).foldlM track (s₀, black) = some (s₁, black) ∧
    s₁.scrolls 10 = true ∧ s₁.kprintChar 10 = some s₂ ∧
    ¬ ∀ i < 16, ∀ px < 800, s₂.fb.pixel px (36 * 16 + i) = s₁.curBg := by
  have hh : (600 : UInt32).toNat = 600 := rfl
  obtain ⟨s₀, hinit, hrow, -, hs₀⟩ := @init_banded 800 600 3200 (static 0) rfl (fun _ => 0)
    (by decide) (by decide) (by decide) (by decide)
  have hmode := hs₀.grid.not_text
  have hcolour : s₀.setColor black white = { s₀ with curFg := black, curBg := white } := if_neg hmode
  have hs : Banded 800 600 black { s₀ with curFg := black, curBg := white } := ⟨hs₀.grid.colours _ _, hs₀.band⟩
  have hrow₀ : ({ s₀ with curFg := black, curBg := white } : Screen).curRow.toNat = 0 := congrArg UInt32.toNat hrow
  obtain ⟨s₁, hrun, hs₁, hbg, hrow₁⟩ := hs.newlines (n := 36) (by omega)
  have hscrolls := hs₁.last_newline (by omega)
  obtain ⟨t, s₂, -, -, hprint, -, hlast⟩ := hs₁.scroll_iff hscrolls
  refine ⟨s₀, s₁, s₂, hinit, ?_, hscrolls, hprint, fun hall => ?_⟩
  · rw [List.foldlM_cons, track, RowOp.apply, hcolour]
    exact hrun
  have hblack : (600 : UInt32).toNat % 16 = 0 ∨ s₁.curBg = black := by
    refine hlast.1 fun px py hx hlo hhi => ?_
    have hline : py = 36 * 16 + (py - 576) := by omega
    rw [hline]
    exact hall (py - 576) (by omega) px hx
  rcases hblack with hzero | heq
  · exact absurd hzero (by decide)
  · have hwhite : s₁.curBg = white := hbg
    rw [hwhite] at heq
    exact absurd heq (by decide)

end Screen

end DahleOS
