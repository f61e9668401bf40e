import DahleOS.Model.Gui
import DahleOS.Proof.RoundedRect

/-!
# The input field

A text that is wider than the field loses its first characters, by a division that rounds
down; the cursor is drawn behind what is left, where a second test lets it.

* `KeepsCursor`: what the field promises.
* `shown_fits`, `shown_rounded`, `shown_long`: how much of the text is left.
* `inside_of_le`, `spills`, `cursor_iff`: the two inequalities, of the glyphs and of the cursor.
* `input_field`: the promise is kept exactly for a text that fits, and for the widths that
  leave 2, 3 or 4 modulo the width of a character.
-/

namespace DahleOS

namespace Framebuffer

variable {f : Framebuffer}

/-! ## No call leaves the memory -/

theorem Roomy.cornerPixels_redraws (hf : f.Roomy) (x y w h r color dy dx : UInt32) :
    f.Redraws (f.cornerPixels x y w h r color dy dx) := by
  have hput {f : Framebuffer} (hf : f.Roomy) (px py : UInt32) : f.Redraws (f.putPixel px py color) :=
    (hf.putPixel_paints px py color).redraws
  unfold Framebuffer.cornerPixels
  dsimp only
  split
  · exact (hput hf _ _).bind fun mem₁ => (hput (hf.withMem mem₁) _ _).bind fun mem₂ =>
      (hput (hf.withMem mem₂) _ _).bind fun mem₃ => hput (hf.withMem mem₃) _ _
  · exact .same f

theorem Roomy.fillRoundedRect_redraws (hf : f.Roomy) (x y w h r color : UInt32) :
    f.Redraws (f.fillRoundedRect x y w h r color) := by
  have hfill {f : Framebuffer} (hf : f.Roomy) (x y w h : UInt32) : f.Redraws (f.fillRect x y w h color) :=
    (hf.fillRect_paints x y w h color).redraws
  unfold Framebuffer.fillRoundedRect
  dsimp only
  refine (hfill hf _ _ _ _).bind fun mem₁ => (hfill (hf.withMem mem₁) _ _ _ _).bind fun mem₂ =>
    (hfill (hf.withMem mem₂) _ _ _ _).bind fun mem₃ => ?_
  exact Redraws.foldlM fun dy _ mem₄ => Redraws.foldlM fun dx _ mem₅ =>
    (hf.withMem mem₅).cornerPixels_redraws (f := { f with mem := mem₅ }) ..

/-- **Every widget draws**: its calls change pixels, and nothing else. -/
theorem Roomy.draw_redraws (hf : f.Roomy) (calls : List PixelCall) : f.Redraws (f.draw calls) := by
  refine Redraws.foldlM ?_
  intro call _ mem
  cases call with
  | roundedRect x y w h r color => exact (hf.withMem mem).fillRoundedRect_redraws (f := { f with mem }) ..
  | fillRect x y w h color => exact ((hf.withMem mem).fillRect_paints (f := { f with mem }) ..).redraws
  | str x y s fg bg => exact ((hf.withMem mem).drawStr_paints (f := { f with mem }) ..).redraws

end Framebuffer

namespace Gui

open Framebuffer MachineWord Painting Screen

variable {f : Framebuffer} {x y w : UInt32} {text s : Str}

/-- **The promise of the field**, drawn with the focus. -/
structure KeepsCursor (f : Framebuffer) (x y w : UInt32) (text : Str) : Prop where
  /-- What is shown is an end of the text. -/
  tail : ∀ tx ty s fg bg, PixelCall.str tx ty s fg bg ∈ inputField x y w (some text) true → s <:+ text
  /-- The glyphs change no column of the border, whatever is on the screen. -/
  inside : ∀ tx ty s fg bg, PixelCall.str tx ty s fg bg ∈ inputField x y w (some text) true → ∀ mem mem',
    ({ f with mem } : Framebuffer).drawStr tx ty s fg bg = some { f with mem := mem' } → ∀ px py, px < f.w.toNat →
    py < f.h.toNat → ({ f with mem := mem' } : Framebuffer).pixel px py ≠ ({ f with mem } : Framebuffer).pixel px py →
    x.toNat + 1 ≤ px ∧ px ≤ x.toNat + w.toNat - 2
  /-- The bar is drawn behind the last character. -/
  cursor : PixelCall.fillRect (x + 5 + UInt32.ofNat (inputShown w text).length * cw) (y + 4) 2 ch gcAccent ∈
    inputField x y w (some text) true

/-! ## The calls -/

theorem str_mem {tx ty fg bg : UInt32} : PixelCall.str tx ty s fg bg ∈ inputField x y w (some text) true ↔
    text ≠ [] ∧ tx = x + 5 ∧ ty = y + 4 ∧ s = inputShown w text ∧ fg = gcText ∧ bg = gcWinBg := by
  rw [inputField, if_pos rfl, Option.getD_some]
  unfold inputFrame inputText inputCursor
  dsimp only
  by_cases htext : text = []
  · split <;> simp [htext]
  · split <;> simp [htext]

theorem cursor_mem : PixelCall.fillRect (x + 5 + UInt32.ofNat (inputShown w text).length * cw) (y + 4) 2 ch gcAccent ∈
    inputField x y w (some text) true ↔
      x + 5 + UInt32.ofNat (inputShown w text).length * cw + 2 < x + w - 2 := by
  rw [inputField, if_pos rfl, Option.getD_some]
  unfold inputFrame inputText inputCursor
  dsimp only
  by_cases hcursor : x + 5 + UInt32.ofNat (inputShown w text).length * cw + 2 < x + w - 2
  · rw [if_pos hcursor]
    exact iff_of_true (List.mem_append_right _ List.mem_cons_self) hcursor
  · rw [if_neg hcursor]
    refine iff_of_false ?_ hcursor
    by_cases htext : text = []
    · simp [htext]
    · simp [htext]

theorem shown_suffix (w : UInt32) (text : Str) : inputShown w text <:+ text := by
  unfold inputShown
  dsimp only
  generalize (if 12 < w then w - 12 else 0) = innerW
  split
  · exact List.drop_suffix _ _
  · exact List.suffix_refl _

/-! ## How much is shown -/

/-- The width of the text, modulo 2^32, and the width for it. -/
theorem inputShown_length (hw : 24 ≤ w.toNat) : (inputShown w text).length =
    if w.toNat - 12 < 8 * text.length % 2 ^ 32 then text.length - (8 * text.length % 2 ^ 32 - (w.toNat - 12)) / 8
    else text.length := by
  have height : cw.toNat = 8 := rfl
  have htwelve : (12 : UInt32).toNat = 12 := rfl
  have hinner : (if 12 < w then w - 12 else 0) = w - 12 := if_pos (UInt32.lt_iff_toNat_lt.2 (by omega))
  have hval : (w - 12).toNat = w.toNat - 12 := UInt32.toNat_sub_of_le _ _ (UInt32.le_iff_toNat_le.2 (by omega))
  have hwidth : (UInt32.ofNat text.length * cw).toNat = 8 * text.length % 2 ^ 32 := by
    rw [UInt32.toNat_mul, UInt32.toNat_ofNat', height, Nat.mod_mul_mod, Nat.mul_comm]
  have hpos : 0 < w - 12 := UInt32.lt_iff_toNat_lt.2 (by rw [hval, UInt32.toNat_zero]; omega)
  unfold inputShown
  dsimp only
  rw [hinner]
  by_cases hlt : w - 12 < UInt32.ofNat text.length * cw
  · have hlt' := UInt32.lt_iff_toNat_lt.1 hlt
    rw [hval, hwidth] at hlt'
    rw [if_pos ⟨hlt, hpos⟩, if_pos hlt', List.length_drop, UInt32.toNat_div,
      UInt32.toNat_sub_of_le _ _ (UInt32.le_iff_toNat_le.2 (by omega)), hval, hwidth, height]
  · have hle := mt UInt32.lt_iff_toNat_lt.2 hlt
    rw [hval, hwidth] at hle
    rw [if_neg fun h => hlt h.1, if_neg hle]

/-- A text that fits is shown as it is. -/
theorem shown_fits (hw : 24 ≤ w.toNat) (hfit : 8 * text.length ≤ w.toNat - 12) :
    (inputShown w text).length = text.length := by
  rw [inputShown_length hw]
  exact if_neg (by have := w.toNat_lt; omega)

/-- Of a text that does not, as much as covers the width for it. -/
theorem shown_rounded (hw : 24 ≤ w.toNat) (hwide : w.toNat - 12 < 8 * text.length) (hlen : text.length < 2 ^ 29) :
    w.toNat - 12 ≤ 8 * (inputShown w text).length ∧ 8 * (inputShown w text).length < w.toNat - 4 := by
  rw [inputShown_length hw, Nat.mod_eq_of_lt (by omega), if_pos hwide]
  omega

/-- Of a text whose width is not a 32-bit number, too much. -/
theorem shown_long (hw : 24 ≤ w.toNat) (hlen : 2 ^ 29 ≤ text.length) : 2 ^ 29 ≤ (inputShown w text).length := by
  rw [inputShown_length hw]
  split <;> omega

/-! ## The border -/

/-- The columns of the text and of the cursor, on a screen that the field is on. -/
theorem columns_toNat (hf : f.Roomy) (hx : x.toNat + w.toNat ≤ f.w.toNat) (hw : 24 ≤ w.toNat) :
    x.toNat + w.toNat < 2 ^ 30 ∧ (x + 5).toNat = x.toNat + 5 ∧ (x + w - 2).toNat = x.toNat + w.toNat - 2 := by
  have hpitch := hf.pitch
  have hlt := f.pitch.toNat_lt
  have hfive : (5 : UInt32).toNat = 5 := rfl
  have htwo : (2 : UInt32).toNat = 2 := rfl
  have hsum : (x + w).toNat = x.toNat + w.toNat := toNat_add_of_lt (by omega)
  refine ⟨by omega, ?_, ?_⟩
  · rw [toNat_add_of_lt (by omega), hfive]
  · rw [UInt32.toNat_sub_of_le _ _ (UInt32.le_iff_toNat_le.2 (by omega)), hsum, htwo]

/-- The text is written on a background. -/
theorem gcWinBg_ne : gcWinBg ≠ transparent := by decide

/-- **The glyphs stay inside** when what is shown leaves six columns. -/
theorem inside_of_le (hf : f.Roomy) (hw : 24 ≤ w.toNat) (hx : x.toNat + w.toNat ≤ f.w.toNat)
    (hy : y.toNat + 24 ≤ f.h.toNat) (hlen : 8 * s.length ≤ w.toNat - 6) {mem mem' : Fin f.size → UInt8}
    (hdraw : ({ f with mem } : Framebuffer).drawStr (x + 5) (y + 4) s gcText gcWinBg = some { f with mem := mem' })
    {px py : ℕ} (hpx : px < f.w.toNat) (hpy : py < f.h.toNat)
    (hne : ({ f with mem := mem' } : Framebuffer).pixel px py ≠ ({ f with mem } : Framebuffer).pixel px py) :
    x.toNat + 1 ≤ px ∧ px ≤ x.toNat + w.toNat - 2 := by
  have hylt := f.h.toNat_lt
  have hfour : (4 : UInt32).toNat = 4 := rfl
  obtain ⟨hsmall, hcol, -⟩ := columns_toNat hf hx hw
  have hline : (y + 4).toNat = y.toNat + 4 := by rw [toNat_add_of_lt (by omega), hfour]
  have hpaint := (hf.withMem mem).drawStr_paints (f := { f with mem }) (x + 5) (y + 4) s gcText gcWinBg
  have hwithin : (strPainting (x + 5) (y + 4) s gcText gcWinBg).Within _ :=
    strPainting_within (by rw [hcol]; omega) (by rw [hline]; omega) gcText gcWinBg
  obtain ⟨f', heq, -, hview⟩ := Canvas.Paints.unchanged hpaint hwithin
  rw [hdraw] at heq
  obtain rfl := Option.some.inj heq
  have hin : (px, py) ∈ box (x + 5).toNat ((x + 5).toNat + 8 * s.length) (y + 4).toNat ((y + 4).toNat + 16) :=
    by_contra fun hout => hne (hview (px, py) ⟨hpx, hpy⟩ hout)
  rw [mem_box, hcol] at hin
  omega

/-- **They do not** when it leaves fewer: the last column of the field is written. -/
theorem spills (hf : f.Roomy) (hw : 24 ≤ w.toNat) (hx : x.toNat + w.toNat ≤ f.w.toNat) (hy : y.toNat + 24 ≤ f.h.toNat)
    (hlen : w.toNat - 6 < 8 * s.length) : ∃ mem mem',
      ({ f with mem } : Framebuffer).drawStr (x + 5) (y + 4) s gcText gcWinBg = some { f with mem := mem' } ∧
      ({ f with mem := mem' } : Framebuffer).pixel (x.toNat + w.toNat - 1) (y.toNat + 4) ≠
        ({ f with mem } : Framebuffer).pixel (x.toNat + w.toNat - 1) (y.toNat + 4) := by
  have hylt := f.h.toNat_lt
  have hfour : (4 : UInt32).toNat = 4 := rfl
  have hone : (1 : UInt32).toNat = 1 := rfl
  obtain ⟨hsmall, hcol, -⟩ := columns_toNat hf hx hw
  have hline : (y + 4).toNat = y.toNat + 4 := by rw [toNat_add_of_lt (by omega), hfour]
  have hlast : (x + w - 1).toNat = x.toNat + w.toNat - 1 := by
    rw [UInt32.toNat_sub_of_le _ _ (UInt32.le_iff_toNat_le.2 (by rw [toNat_add_of_lt (by omega)]; omega)),
      toNat_add_of_lt (by omega), hone]
  -- a screen with a black pixel there
  obtain ⟨mem, -, hblack⟩ := (hf.putPixel_paints (x + w - 1) (y + 4) 0).result
  obtain ⟨mem', hdraw, hview⟩ :=
    ((hf.withMem mem).drawStr_paints (f := { f with mem }) (x + 5) (y + 4) s gcText gcWinBg).result
  refine ⟨mem, mem', hdraw, ?_⟩
  rw [hview _ _ (by dsimp only; omega) (by dsimp only; omega), hblack _ _ (by omega) (by omega), hlast, hline,
    solid_of_mem (Set.mem_singleton _), Option.getD_some]
  -- the character whose cell holds the column
  have hi : (w.toNat - 6) / 8 < s.length := by omega
  have hcell : (x + 5 + UInt32.ofNat ((w.toNat - 6) / 8) * cw).toNat = x.toNat + 5 + 8 * ((w.toNat - 6) / 8) := by
    rw [cell_toNat (by rw [hcol]; omega), hcol]
  have hcover : strPainting (x + 5) (y + 4) s gcText gcWinBg (x.toNat + w.toNat - 1, y.toNat + 4) ≠ none := by
    refine stack_covers (List.mk_mem_zipIdx_iff_getElem?.2 (List.getElem?_eq_getElem hi)) ?_
    refine charPainting_covers (by rw [hcell]; omega) (by rw [hline]; omega) gcWinBg_ne _ ?_
    rw [mem_box, hcell, hline]
    omega
  obtain ⟨c, hc⟩ := Option.ne_none_iff_exists'.1 hcover
  rw [hc, Option.getD_some]
  have hpalette : c ∈ ({gcText, gcWinBg} : Set UInt32) :=
    palette_stack (fun _ _ => charPainting_palette _ _ _ _ _) (x.toNat + w.toNat - 1, y.toNat + 4) c hc
  rcases hpalette with rfl | rfl <;> decide

/-! ## The promise -/

/-- Where the cursor is drawn. -/
theorem cursor_iff (hf : f.Roomy) (hw : 24 ≤ w.toNat) (hx : x.toNat + w.toNat ≤ f.w.toNat)
    (hlen : 8 * (inputShown w text).length < w.toNat) :
    x + 5 + UInt32.ofNat (inputShown w text).length * cw + 2 < x + w - 2 ↔
      8 * (inputShown w text).length ≤ w.toNat - 10 := by
  have htwo : (2 : UInt32).toNat = 2 := rfl
  obtain ⟨hsmall, hcol, hend⟩ := columns_toNat hf hx hw
  have hcell : (x + 5 + UInt32.ofNat (inputShown w text).length * cw).toNat =
      x.toNat + 5 + 8 * (inputShown w text).length := by
    rw [cell_toNat (by rw [hcol]; omega), hcol]
  rw [UInt32.lt_iff_toNat_lt, toNat_add_of_lt (by omega), hcell, hend, htwo]
  omega

theorem keepsCursor_of_le (hf : f.Roomy) (hw : 24 ≤ w.toNat) (hx : x.toNat + w.toNat ≤ f.w.toNat)
    (hy : y.toNat + 24 ≤ f.h.toNat) (hlen : 8 * (inputShown w text).length ≤ w.toNat - 10) : KeepsCursor f x y w text := by
  refine ⟨?_, ?_, cursor_mem.2 ((cursor_iff hf hw hx (by omega)).2 hlen)⟩
  · intro tx ty s fg bg hcall
    obtain ⟨-, -, -, rfl, -, -⟩ := str_mem.1 hcall
    exact shown_suffix w text
  · intro tx ty s fg bg hcall mem mem' hdraw px py hpx hpy hne
    obtain ⟨-, rfl, rfl, rfl, rfl, rfl⟩ := str_mem.1 hcall
    exact inside_of_le hf hw hx hy (by omega) hdraw hpx hpy hne

/-- What the promise says of the length. -/
theorem KeepsCursor.le (h : KeepsCursor f x y w text) (hf : f.Roomy) (hw : 24 ≤ w.toNat) (hx : x.toNat + w.toNat ≤ f.w.toNat)
    (hy : y.toNat + 24 ≤ f.h.toNat) (htext : text ≠ []) : 8 * (inputShown w text).length ≤ w.toNat - 10 := by
  by_contra hgt
  by_cases hspill : w.toNat - 6 < 8 * (inputShown w text).length
  · obtain ⟨hsmall, -, -⟩ := columns_toNat hf hx hw
    obtain ⟨mem, mem', hdraw, hne⟩ := spills hf hw hx hy hspill
    have hcall : PixelCall.str (x + 5) (y + 4) (inputShown w text) gcText gcWinBg ∈ inputField x y w (some text) true :=
      str_mem.2 ⟨htext, rfl, rfl, rfl, rfl, rfl⟩
    have hin := (h.inside _ _ _ _ _ hcall mem mem' hdraw _ _ (by omega) (by omega) hne).2
    omega
  · exact hgt ((cursor_iff hf hw hx (by omega)).1 (cursor_mem.1 h.cursor))

/-- **When the promise is kept.** -/
theorem keepsCursor_iff (hf : f.Roomy) (hw : 24 ≤ w.toNat) (hx : x.toNat + w.toNat ≤ f.w.toNat)
    (hy : y.toNat + 24 ≤ f.h.toNat) : KeepsCursor f x y w text ↔ 8 * text.length ≤ w.toNat - 12 ∨
      text.length < 2 ^ 29 ∧ 2 ≤ w.toNat % 8 ∧ w.toNat % 8 ≤ 4 := by
  obtain ⟨hsmall, -, -⟩ := columns_toNat hf hx hw
  by_cases hfit : 8 * text.length ≤ w.toNat - 12
  · have hlen := shown_fits hw hfit
    exact iff_of_true (keepsCursor_of_le hf hw hx hy (by omega)) (.inl hfit)
  have htext : text ≠ [] := by
    rintro rfl
    exact hfit (Nat.zero_le _)
  by_cases hlen : text.length < 2 ^ 29
  · -- what is shown is the width for it, rounded up to whole characters
    obtain ⟨hlo, hhi⟩ := shown_rounded hw (by omega) hlen
    constructor
    · intro h
      have hle := h.le hf hw hx hy htext
      omega
    · rintro (h | ⟨-, hmod⟩)
      · exact absurd h hfit
      · exact keepsCursor_of_le hf hw hx hy (by omega)
  · have hlong := shown_long hw (Nat.le_of_not_lt hlen)
    constructor
    · intro h
      have hle := h.le hf hw hx hy htext
      omega
    · rintro (h | ⟨h, -⟩)
      · exact absurd h hfit
      · exact absurd h hlen

/-! ## The field -/

/-- **`gui_input_field` draws its field**, and keeps its promise for a text of at most `w - 12`
pixels; for a longer one, of less than 2^32 pixels, exactly if `w` leaves 2, 3 or 4
modulo 8. -/
theorem input_field (hf : f.Roomy) (x y w : UInt32) (text : Str) (hw : 24 ≤ w.toNat) (hx : x.toNat + w.toNat ≤ f.w.toNat)
    (hy : y.toNat + 24 ≤ f.h.toNat) : f.Redraws (f.draw (inputField x y w (some text) true)) ∧
      (KeepsCursor f x y w text ↔ 8 * text.length ≤ w.toNat - 12 ∨
        text.length < 2 ^ 29 ∧ 2 ≤ w.toNat % 8 ∧ w.toNat % 8 ≤ 4) :=
  ⟨hf.draw_redraws _, keepsCursor_iff hf hw hx hy⟩

/-- A field of 28 columns keeps the cursor behind three characters. -/
theorem input_field_kept : blackScreen.Redraws (blackScreen.draw (inputField 100 100 28 (some (str "abc")) true)) ∧
    KeepsCursor blackScreen 100 100 28 (str "abc") := by
  obtain ⟨hdraw, hkeeps⟩ := input_field blackScreen_roomy 100 100 28 (str "abc") (by decide) (by decide) (by decide)
  exact ⟨hdraw, hkeeps.2 (.inr (by decide))⟩

/-- One of 29 columns does not, and the third character is over its right border. -/
theorem input_field_spills : ¬ KeepsCursor blackScreen 100 100 29 (str "abc") ∧
    ¬ ∀ mem mem', ({ blackScreen with mem } : Framebuffer).drawStr 105 104 (inputShown 29 (str "abc")) gcText gcWinBg =
      some { blackScreen with mem := mem' } → ({ blackScreen with mem := mem' } : Framebuffer).pixel 128 104 =
        ({ blackScreen with mem } : Framebuffer).pixel 128 104 := by
  constructor
  · intro h
    exact absurd h.cursor (by decide)
  · intro h
    obtain ⟨mem, mem', hdraw, hne⟩ := spills (s := inputShown 29 (str "abc")) blackScreen_roomy (x := 100) (y := 100) (w := 29)
      (by decide) (by decide) (by decide) (by decide)
    exact hne (h mem mem' hdraw)

end Gui

end DahleOS
