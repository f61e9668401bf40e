import DahleOS.Model.Widgets
import DahleOS.Proof.RoundedRect

/-!
# Widgets stay in their places

What a call to the pixel layer paints does not depend on what is on the screen, and it stays
inside the rectangle that the call names. So a list of calls paints a painting, and a widget
changes nothing around it.

* `PixelCall.painting`, `Roomy.draw_paints`: what calls paint, wherever they are.
* `PixelCall.Inside`, `stack_within`: calls inside a rectangle paint inside it.
* `Widget.inside`, `widgets_stay`: the widgets, each with its extent.
-/

namespace DahleOS

namespace Framebuffer

open MachineWord Painting

variable {f : Framebuffer} {x y w h r dx dy color : UInt32} {x₀ x₁ y₀ y₁ : ℕ}

/-! ## Calls -/

/-- The four pixels of a step of the corner loops. -/
def cornerSet (x y w h dy dx : UInt32) : Set (ℕ × ℕ) :=
  {((x + dx).toNat, (y + dy).toNat)} ∪ ({((x + w - 1 - dx).toNat, (y + dy).toNat)} ∪
    ({((x + dx).toNat, (y + h - 1 - dy).toNat)} ∪ {((x + w - 1 - dx).toNat, (y + h - 1 - dy).toNat)}))

/-- What a step of the corner loops paints. -/
noncomputable def cornerPainting (x y w h r color dy dx : UInt32) : Painting (ℕ × ℕ) UInt32 :=
  let ipx := r.toInt32 - dx.toInt32 - 1
  let ipy := r.toInt32 - dy.toInt32 - 1
  if ipx * ipx + ipy * ipy ≤ (r * r).toInt32 then solid (cornerSet x y w h dy dx) color else blank

/-- What a rounded rectangle paints, wherever it is: three strips and the corners. -/
noncomputable def roundedPainting (x y w h radius color : UInt32) : Painting (ℕ × ℕ) UInt32 :=
  let r := clampRadius w h radius
  (solid (box (x + r).toNat (x + r + (w - 2 * r)).toNat y.toNat (y + h).toNat) color).layer
    ((solid (box x.toNat (x + r).toNat (y + r).toNat (y + r + (h - 2 * r)).toNat) color).layer
      ((solid (box (x + w - r).toNat (x + w - r + r).toNat (y + r).toNat (y + r + (h - 2 * r)).toNat) color).layer
        (stack (fun dy => stack (fun dx => cornerPainting x y w h r color dy dx) (upTo 0 r.toNat)) (upTo 0 r.toNat))))

theorem Roomy.corner_paints (hf : f.Roomy) (x y w h r color dy dx : UInt32) :
    f.Paints (f.cornerPixels x y w h r color dy dx) (cornerPainting x y w h r color dy dx) := by
  unfold cornerPixels cornerPainting
  dsimp only
  split
  · rw [cornerSet, ← solid_layer_solid, ← solid_layer_solid, ← solid_layer_solid]
    exact hf.bind (hf.putPixel_paints _ _ color) fun _ hf₁ _ _ =>
      hf₁.bind (hf₁.putPixel_paints _ _ color) fun _ hf₂ _ _ =>
        hf₂.bind (hf₂.putPixel_paints _ _ color) fun _ hf₃ _ _ => hf₃.putPixel_paints _ _ color
  · exact .blank canvas f

/-- **A rounded rectangle**, without a condition on its position or its size. -/
theorem Roomy.rounded_paints (hf : f.Roomy) (x y w h radius color : UInt32) :
    f.Paints (f.fillRoundedRect x y w h radius color) (roundedPainting x y w h radius color) := by
  unfold fillRoundedRect roundedPainting
  dsimp only
  generalize clampRadius w h radius = r
  exact hf.bind (hf.fillRect_paints (x + r) y (w - 2 * r) h color) fun _ hf₁ _ _ =>
    hf₁.bind (hf₁.fillRect_paints x (y + r) r (h - 2 * r) color) fun _ hf₂ _ _ =>
      hf₂.bind (hf₂.fillRect_paints (x + w - r) (y + r) r (h - 2 * r) color) fun _ hf₃ _ _ =>
        hf₃.foldlM fun _ _ _ hf₄ _ _ => hf₄.foldlM fun _ _ _ hf₅ _ _ => hf₅.corner_paints ..

/-- A step of the corner loops stays in the rectangle. -/
theorem cornerPainting_within (hx : x.toNat + w.toNat < 2 ^ 32) (hy : y.toNat + h.toNat < 2 ^ 32)
    (hdx : dx.toNat < w.toNat) (hdy : dy.toNat < h.toNat) (r color : UInt32) : (cornerPainting x y w h r color dy dx).Within
      (box x.toNat (x.toNat + w.toNat) y.toNat (y.toNat + h.toNat)) := by
  have hone : (1 : UInt32).toNat = 1 := rfl
  have hadd {a d n : UInt32} (hn : a.toNat + n.toNat < 2 ^ 32) (hd : d.toNat < n.toNat) :
      (a + d).toNat = a.toNat + d.toNat := toNat_add_of_lt (by omega)
  have hsub {a d n : UInt32} (hn : a.toNat + n.toNat < 2 ^ 32) (hd : d.toNat < n.toNat) :
      (a + n - 1 - d).toNat = a.toNat + n.toNat - 1 - d.toNat := by
    have hsum : (a + n).toNat = a.toNat + n.toNat := toNat_add_of_lt hn
    have hpred : (a + n - 1).toNat = a.toNat + n.toNat - 1 := by
      rw [UInt32.toNat_sub_of_le _ _ (UInt32.le_iff_toNat_le.2 (by omega)), hsum, hone]
    rw [UInt32.toNat_sub_of_le _ _ (UInt32.le_iff_toNat_le.2 (by omega)), hpred]
  unfold cornerPainting
  dsimp only
  split
  · refine (within_solid _ color).mono ?_
    rintro ⟨px, py⟩ hp
    simp only [cornerSet, Set.mem_union, Set.mem_singleton_iff, Prod.mk.injEq, hadd hx hdx, hsub hx hdx, hadd hy hdy,
      hsub hy hdy] at hp
    rw [mem_box]
    omega
  · exact within_blank _

theorem box_subset {a₀ a₁ b₀ b₁ : ℕ} (h : x₀ ≤ a₀ ∧ a₁ ≤ x₁ ∧ y₀ ≤ b₀ ∧ b₁ ≤ y₁) : box a₀ a₁ b₀ b₁ ⊆ box x₀ x₁ y₀ y₁ := by
  rintro ⟨px, py⟩ hp
  rw [mem_box] at hp ⊢
  omega

theorem roundedPainting_within (hx : x.toNat + w.toNat < 2 ^ 32) (hy : y.toNat + h.toNat < 2 ^ 32) (radius color : UInt32) :
    (roundedPainting x y w h radius color).Within (box x.toNat (x.toNat + w.toNat) y.toNat (y.toNat + h.toNat)) := by
  have hclamp := clampRadius_toNat w h radius
  unfold roundedPainting
  dsimp only
  generalize clampRadius w h radius = r at hclamp ⊢
  obtain ⟨hx₁, hx₂, hx₃, hx₄⟩ := strip_ends hx (show r.toNat ≤ w.toNat / 2 by omega)
  obtain ⟨hy₁, hy₂, -, -⟩ := strip_ends hy (show r.toNat ≤ h.toNat / 2 by omega)
  rw [hx₁, hx₂, hx₃, hx₄, hy₁, hy₂, toNat_add_of_lt hy]
  refine ((within_solid _ color).mono (box_subset (by omega))).layer
    (((within_solid _ color).mono (box_subset (by omega))).layer
      (((within_solid _ color).mono (box_subset (by omega))).layer ?_))
  refine within_stack fun dy hdy => within_stack fun dx hdx => ?_
  have hdy' := ((mem_upTo r.toNat_lt.le).1 hdy).2
  have hdx' := ((mem_upTo r.toNat_lt.le).1 hdx).2
  exact cornerPainting_within hx hy (by omega) (by omega) r color

end Framebuffer

open Framebuffer Painting

/-- What a call paints. -/
noncomputable def PixelCall.painting : PixelCall → Painting (ℕ × ℕ) UInt32
  | roundedRect x y w h r color => roundedPainting x y w h r color
  | fillRect x y w h color => solid (box x.toNat (x + w).toNat y.toNat (y + h).toNat) color
  | str x y s fg bg => strPainting x y s fg bg

/-- A place on the screen, from its first column and row up to behind its last ones. -/
structure Rect where
  left : ℕ
  right : ℕ
  top : ℕ
  bottom : ℕ

def Rect.points (r : Rect) : Set (ℕ × ℕ) := box r.left r.right r.top r.bottom

/-- The rectangle is one of 32-bit coordinates. -/
def Rect.Small (r : Rect) : Prop := r.right < 2 ^ 32 ∧ r.bottom < 2 ^ 32

/-- The call names points of the rectangle only. -/
def PixelCall.Inside (r : Rect) : PixelCall → Prop
  | roundedRect x y w h _ _ => r.left ≤ x.toNat ∧ x.toNat + w.toNat ≤ r.right ∧ r.top ≤ y.toNat ∧ y.toNat + h.toNat ≤ r.bottom
  | fillRect x y w h _ => r.left ≤ x.toNat ∧ x.toNat + w.toNat ≤ r.right ∧ r.top ≤ y.toNat ∧ y.toNat + h.toNat ≤ r.bottom
  | str x y s _ _ => r.left ≤ x.toNat ∧ x.toNat + 8 * s.length ≤ r.right ∧ r.top ≤ y.toNat ∧ y.toNat + 16 ≤ r.bottom

namespace PixelCall

variable {rect : Rect} {x y w h r color fg bg : UInt32} {s : Str}

@[simp] theorem inside_roundedRect : (roundedRect x y w h r color).Inside rect ↔
    rect.left ≤ x.toNat ∧ x.toNat + w.toNat ≤ rect.right ∧ rect.top ≤ y.toNat ∧ y.toNat + h.toNat ≤ rect.bottom := Iff.rfl

@[simp] theorem inside_fillRect : (fillRect x y w h color).Inside rect ↔
    rect.left ≤ x.toNat ∧ x.toNat + w.toNat ≤ rect.right ∧ rect.top ≤ y.toNat ∧ y.toNat + h.toNat ≤ rect.bottom := Iff.rfl

@[simp] theorem inside_str : (str x y s fg bg).Inside rect ↔
    rect.left ≤ x.toNat ∧ x.toNat + 8 * s.length ≤ rect.right ∧ rect.top ≤ y.toNat ∧ y.toNat + 16 ≤ rect.bottom := Iff.rfl

end PixelCall

namespace Framebuffer

variable {f : Framebuffer} {rect : Rect} {call : PixelCall} {calls : List PixelCall}

theorem Roomy.call_paints (hf : f.Roomy) (call : PixelCall) : f.Paints (call.apply f) call.painting := by
  cases call with
  | roundedRect x y w h r color => exact hf.rounded_paints x y w h r color
  | fillRect x y w h color => exact hf.fillRect_paints x y w h color
  | str x y s fg bg => exact hf.drawStr_paints x y s fg bg

/-- **A list of calls** paints a painting. -/
theorem Roomy.draw_paints (hf : f.Roomy) (calls : List PixelCall) :
    f.Paints (f.draw calls) (stack PixelCall.painting calls) :=
  hf.foldlM fun call _ _ hf' _ _ => hf'.call_paints call

theorem painting_within (h : call.Inside rect) (hrect : rect.Small) : call.painting.Within rect.points := by
  obtain ⟨hright, hbottom⟩ := hrect
  cases call with
  | roundedRect x y w h r color =>
    obtain ⟨hx₀, hx₁, hy₀, hy₁⟩ := h
    exact (roundedPainting_within (by omega) (by omega) r color).mono (box_subset ⟨hx₀, hx₁, hy₀, hy₁⟩)
  | fillRect x y w h color =>
    obtain ⟨hx₀, hx₁, hy₀, hy₁⟩ := h
    refine (within_solid _ color).mono (box_subset ?_)
    rw [MachineWord.toNat_add_of_lt (show x.toNat + w.toNat < 2 ^ 32 by omega),
      MachineWord.toNat_add_of_lt (show y.toNat + h.toNat < 2 ^ 32 by omega)]
    exact ⟨hx₀, hx₁, hy₀, hy₁⟩
  | str x y s fg bg =>
    obtain ⟨hx₀, hx₁, hy₀, hy₁⟩ := h
    exact (strPainting_within (by omega) (by omega) fg bg).mono (box_subset ⟨hx₀, hx₁, hy₀, hy₁⟩)

/-- **Calls inside a rectangle** paint inside it. -/
theorem stack_within (h : ∀ call ∈ calls, call.Inside rect) (hrect : rect.Small) :
    (stack PixelCall.painting calls).Within rect.points :=
  within_stack fun call hcall => painting_within (h call hcall) hrect

end Framebuffer

namespace Gui

open MachineWord

variable {x y w h fg bg : UInt32} {text : Str} {rect : Rect}

/-! ## Widgets -/

/-- The width of a text, when it is a 32-bit number. -/
theorem textW_toNat (h : 8 * text.length < 2 ^ 32) : (textW text).toNat = 8 * text.length := by
  have height : Screen.cw.toNat = 8 := rfl
  have hval : (UInt32.ofNat text.length).toNat = text.length := UInt32.toNat_ofNat_of_lt' (show text.length < 2 ^ 32 by omega)
  rw [textW, toNat_mul_of_lt (by rw [hval, height]; omega), hval, height, Nat.mul_comm]

theorem labelCentered_inside (hcol : rect.left ≤ x.toNat ∧ x.toNat + max w.toNat (8 * text.length) ≤ rect.right)
    (hrow : rect.top ≤ y.toNat ∧ y.toNat + 16 ≤ rect.bottom) (hrect : rect.Small) (fg bg : UInt32) :
    ∀ call ∈ labelCentered x y w text fg bg, call.Inside rect := by
  obtain ⟨hright, hbottom⟩ := hrect
  have hwidth : (textW text).toNat = 8 * text.length := textW_toNat (by omega)
  have htwo : (2 : UInt32).toNat = 2 := rfl
  have hstart : (x + if textW text < w then (w - textW text) / 2 else 0).toNat =
      x.toNat + (w.toNat - 8 * text.length) / 2 := by
    split
    next hlt =>
      have hlt' := UInt32.lt_iff_toNat_lt.1 hlt
      have hrest : ((w - textW text) / 2).toNat = (w.toNat - 8 * text.length) / 2 := by
        rw [UInt32.toNat_div, UInt32.toNat_sub_of_le _ _ (UInt32.le_iff_toNat_le.2 hlt'.le), hwidth, htwo]
      rw [toNat_add_of_lt (by omega), hrest]
    next hge =>
      have hge' := UInt32.le_iff_toNat_le.1 (UInt32.not_lt.1 hge)
      rw [UInt32.add_zero]
      omega
  refine List.forall_mem_singleton.2 ⟨?_, ?_, hrow⟩
  · rw [hstart]
    omega
  · rw [hstart]
    omega

theorem panel_inside (hw : 2 ≤ w.toNat) (hh : 2 ≤ h.toNat) (hcol : rect.left ≤ x.toNat ∧ x.toNat + w.toNat ≤ rect.right)
    (hrow : rect.top ≤ y.toNat ∧ y.toNat + h.toNat ≤ rect.bottom) (hrect : rect.Small) :
    ∀ call ∈ panel x y w h, call.Inside rect := by
  obtain ⟨hright, hbottom⟩ := hrect
  simp only [panel, List.forall_mem_cons, PixelCall.inside_roundedRect, UInt32.toNat_add, UInt32.toNat_sub, UInt32.reduceToNat]
  exact ⟨by omega, by omega, fun _ h => nomatch h⟩

/-- **A window** stays in its rectangle and its shadow. -/
theorem window_inside (hw : 8 * text.length + 2 ≤ w.toNat) (hh : 24 ≤ h.toNat)
    (hcol : rect.left ≤ x.toNat ∧ x.toNat + w.toNat + 4 ≤ rect.right)
    (hrow : rect.top ≤ y.toNat ∧ y.toNat + h.toNat + 5 ≤ rect.bottom) (hrect : rect.Small) :
    ∀ call ∈ window x y w h text, call.Inside rect := by
  have hpanel : ∀ call ∈ panel x y w h, call.Inside rect :=
    panel_inside (by omega) (by omega) (by omega) (by omega) hrect
  obtain ⟨hright, hbottom⟩ := hrect
  have htitle : ∀ call ∈ labelCentered (x + 1) (y + 1 + 3) (w - 2) text gcText gcWinTitle, call.Inside rect := by
    refine labelCentered_inside ?_ ?_ ⟨hright, hbottom⟩ _ _
    · simp only [UInt32.toNat_add, UInt32.toNat_sub, UInt32.reduceToNat]
      omega
    · simp only [UInt32.toNat_add, UInt32.reduceToNat]
      omega
  have hline : (titleH - Screen.ch) / 2 = 3 := rfl
  have htall : winR - 1 < titleH := by decide
  unfold window fillTopRounded
  rw [hline, if_pos htall]
  simp only [List.forall_mem_append, List.forall_mem_cons, List.cons_append, PixelCall.inside_roundedRect,
    PixelCall.inside_fillRect, winR, titleH, UInt32.toNat_add, UInt32.toNat_sub, UInt32.reduceToNat, UInt32.reduceSub]
  exact ⟨by omega, ⟨hpanel, by omega, by omega, fun _ h => nomatch h⟩, by omega, htitle⟩

theorem button_inside (hw : 8 * text.length + 2 ≤ w.toNat) (hh : 17 ≤ h.toNat)
    (hcol : rect.left ≤ x.toNat ∧ x.toNat + w.toNat ≤ rect.right)
    (hrow : rect.top ≤ y.toNat ∧ y.toNat + h.toNat ≤ rect.bottom) (hrect : rect.Small) :
    ∀ call ∈ button x y w h text, call.Inside rect := by
  obtain ⟨hright, hbottom⟩ := id hrect
  have hsixteen : Screen.ch = 16 := rfl
  -- the first row of the text
  have hline : (y + 1 + if Screen.ch < h - 2 then (h - 2 - Screen.ch) / 2 else 0).toNat = y.toNat + 1 + (h.toNat - 18) / 2 := by
    rw [hsixteen]
    split
    next hlt =>
      rw [UInt32.lt_iff_toNat_lt] at hlt
      simp only [UInt32.toNat_add, UInt32.toNat_sub, UInt32.toNat_div, UInt32.reduceToNat] at hlt ⊢
      omega
    next hge =>
      rw [UInt32.lt_iff_toNat_lt] at hge
      simp only [UInt32.toNat_add, UInt32.toNat_sub, UInt32.reduceToNat] at hge ⊢
      omega
  have hlabel : ∀ call ∈ labelCentered (x + 1) (y + 1 + if Screen.ch < h - 2 then (h - 2 - Screen.ch) / 2 else 0) (w - 2) text
      gcText gcBtn, call.Inside rect := by
    refine labelCentered_inside ?_ (by rw [hline]; omega) hrect gcText gcBtn
    simp only [UInt32.toNat_add, UInt32.toNat_sub, UInt32.reduceToNat]
    omega
  simp only [button, List.forall_mem_cons, PixelCall.inside_roundedRect, UInt32.toNat_add, UInt32.toNat_sub, UInt32.reduceToNat]
  exact ⟨by omega, by omega, hlabel⟩

theorem badge_inside (hcol : rect.left ≤ x.toNat ∧ x.toNat + 8 * text.length + 10 ≤ rect.right)
    (hrow : rect.top ≤ y.toNat ∧ y.toNat + 22 ≤ rect.bottom) (hrect : rect.Small) (fg bg : UInt32) :
    ∀ call ∈ badge x y text fg bg, call.Inside rect := by
  obtain ⟨hright, hbottom⟩ := hrect
  have hwidth : (textW text).toNat = 8 * text.length := textW_toNat (by omega)
  have hsixteen : Screen.ch = 16 := rfl
  simp only [badge, List.forall_mem_cons, PixelCall.inside_roundedRect, PixelCall.inside_str, UInt32.toNat_add, hwidth, hsixteen,
    UInt32.reduceToNat]
  exact ⟨by omega, by omega, fun _ h => nomatch h⟩

theorem statusbar_inside {sw sh : UInt32} {left right : Option Str} (hh : 20 ≤ sh.toNat)
    (hleft : ∀ text ∈ left, 8 * text.length + 10 ≤ sw.toNat) (hright : ∀ text ∈ right, 8 * text.length + 10 ≤ sw.toNat) :
    ∀ call ∈ statusbar sw sh left right, call.Inside ⟨0, sw.toNat, sh.toNat - 20, sh.toNat⟩ := by
  have hsw := sw.toNat_lt
  have hsh := sh.toNat_lt
  have htwenty : sbH.toNat = 20 := rfl
  have htop : (sh - sbH).toNat = sh.toNat - 20 :=
    (UInt32.toNat_sub_of_le _ _ (UInt32.le_iff_toNat_le.2 (by omega))).trans (by rw [htwenty])
  have hline : (sh - sbH + (sbH - Screen.ch) / 2).toNat = sh.toNat - 18 := by
    have htwo : ((sbH - Screen.ch) / 2).toNat = 2 := rfl
    rw [toNat_add_of_lt (by omega), htop, htwo]
    omega
  have hten : pad.toNat = 10 := rfl
  have hone : (1 : UInt32).toNat = 1 := rfl
  have hzero : (0 : UInt32).toNat = 0 := rfl
  simp only [statusbar, List.forall_mem_append, List.forall_mem_cons, List.forall_mem_map, Option.mem_toList,
    PixelCall.inside_fillRect, PixelCall.inside_str, htop, hline, htwenty, hten, hone, hzero]
  refine ⟨⟨⟨by omega, by omega, fun _ h => nomatch h⟩, ?_⟩, ?_⟩
  · intro text htext
    have hfit := hleft text htext
    omega
  · intro text htext
    have hfit := hright text htext
    have hwidth : (textW text).toNat = 8 * text.length := textW_toNat (by omega)
    have hstart : (sw - textW text - pad).toNat = sw.toNat - 8 * text.length - 10 := by
      rw [UInt32.toNat_sub, UInt32.toNat_sub, hwidth, hten]
      omega
    rw [hstart]
    omega

/-- The bar is not longer than its track, also where the product wraps. -/
theorem progressFilled_le (hw : 2 ≤ w.toNat) (pct : UInt32) : (progressFilled w pct).toNat ≤ w.toNat - 2 := by
  have hhundred : (100 : UInt32).toNat = 100 := rfl
  have hpct : (if 100 < pct then 100 else pct).toNat ≤ 100 := by
    split
    next => exact hhundred.le
    next hle => exact UInt32.le_iff_toNat_le.1 (UInt32.not_lt.1 hle)
  have hwidth : (w - 2).toNat = w.toNat - 2 := UInt32.toNat_sub_of_le _ _ (UInt32.le_iff_toNat_le.2 hw)
  rw [progressFilled, UInt32.toNat_div, UInt32.toNat_mul, hwidth, hhundred]
  calc (w.toNat - 2) * (if 100 < pct then 100 else pct).toNat % 2 ^ 32 / 100
      ≤ (w.toNat - 2) * 100 / 100 := Nat.div_le_div_right ((Nat.mod_le _ _).trans (Nat.mul_le_mul_left _ hpct))
    _ = w.toNat - 2 := Nat.mul_div_cancel _ (by decide)

theorem progressBar_inside (hw : 2 ≤ w.toNat) (hcol : rect.left ≤ x.toNat ∧ x.toNat + w.toNat ≤ rect.right)
    (hrow : rect.top ≤ y.toNat ∧ y.toNat + 14 ≤ rect.bottom) (hrect : rect.Small) (pct color : UInt32) :
    ∀ call ∈ progressBar x y w pct color, call.Inside rect := by
  obtain ⟨hright, hbottom⟩ := hrect
  have hfilled := progressFilled_le hw pct
  have hbar : ∀ call ∈ (if 3 ≤ progressFilled w pct then
      [PixelCall.roundedRect (x + 1) (y + 1) (progressFilled w pct) (progressH - 2) 2 color] else []), call.Inside rect := by
    split
    next =>
      simp only [List.forall_mem_cons, PixelCall.inside_roundedRect, progressH, UInt32.toNat_add, UInt32.reduceSub,
        UInt32.reduceToNat]
      exact ⟨by omega, fun _ h => nomatch h⟩
    next => exact fun _ h => nomatch h
  simp only [progressBar, List.cons_append, List.nil_append, List.forall_mem_cons, PixelCall.inside_roundedRect, progressH,
    UInt32.toNat_add, UInt32.toNat_sub, UInt32.reduceSub, UInt32.reduceToNat]
  exact ⟨by omega, by omega, hbar⟩

theorem checkbox_inside {label : Option Str} (hcol : rect.left ≤ x.toNat ∧ x.toNat + 14 ≤ rect.right)
    (hrow : rect.top ≤ y.toNat ∧ y.toNat + 14 ≤ rect.bottom)
    (htext : label.getD [] ≠ [] → x.toNat + 20 + 8 * (label.getD []).length ≤ rect.right ∧ y.toNat + 16 ≤ rect.bottom)
    (hrect : rect.Small) (checked : Bool) :
    ∀ call ∈ checkbox x y label checked, call.Inside rect := by
  obtain ⟨hright, hbottom⟩ := hrect
  have hmark : ∀ call ∈ (if checked then [PixelCall.roundedRect (x + 3) (y + 3) (checkSz - 6) (checkSz - 6) 1 gcText] else []),
      call.Inside rect := by
    split
    next =>
      simp only [List.forall_mem_cons, PixelCall.inside_roundedRect, checkSz, UInt32.toNat_add, UInt32.reduceSub,
        UInt32.reduceToNat]
      exact ⟨by omega, fun _ h => nomatch h⟩
    next => exact fun _ h => nomatch h
  have hline : (if Screen.ch < checkSz then (checkSz - Screen.ch) / 2 else 0) = 0 := rfl
  have hlabel : ∀ call ∈ (if label.getD [] = [] then [] else
      [PixelCall.str (x + checkSz + 6) (y + 0) (label.getD []) gcText Framebuffer.transparent]), call.Inside rect := by
    split
    next => exact fun _ h => nomatch h
    next hne =>
      obtain ⟨hfit, hlow⟩ := htext hne
      simp only [List.forall_mem_cons, PixelCall.inside_str, checkSz, UInt32.toNat_add, UInt32.reduceToNat]
      exact ⟨by omega, fun _ h => nomatch h⟩
  unfold checkbox
  dsimp only
  rw [hline]
  simp only [List.forall_mem_append, List.forall_mem_cons, PixelCall.inside_roundedRect, checkSz, UInt32.toNat_add,
    UInt32.reduceSub, UInt32.reduceToNat]
  exact ⟨⟨⟨by omega, by omega, fun _ h => nomatch h⟩, hmark⟩, hlabel⟩

theorem toggle_inside (hcol : rect.left ≤ x.toNat ∧ x.toNat + 34 ≤ rect.right)
    (hrow : rect.top ≤ y.toNat ∧ y.toNat + 14 ≤ rect.bottom) (hrect : rect.Small) (on : Bool) :
    ∀ call ∈ toggle x y on, call.Inside rect := by
  obtain ⟨hright, hbottom⟩ := hrect
  cases on with
  | true =>
    simp only [toggle, if_true, List.forall_mem_cons, PixelCall.inside_roundedRect, toggleW, toggleH, UInt32.toNat_add, UInt32.toNat_sub,
      UInt32.reduceToNat]
    exact ⟨by omega, by omega, fun _ h => nomatch h⟩
  | false =>
    simp only [toggle, Bool.false_eq_true, if_false, List.forall_mem_cons, PixelCall.inside_roundedRect, toggleW, toggleH, UInt32.toNat_add,
      UInt32.reduceToNat]
    exact ⟨by omega, by omega, fun _ h => nomatch h⟩

/-- The input field, with a text that fits. -/
theorem inputField_inside {text : Option Str} (hw : 8 * (text.getD []).length + 12 ≤ w.toNat)
    (hcol : rect.left ≤ x.toNat ∧ x.toNat + w.toNat ≤ rect.right)
    (hrow : rect.top ≤ y.toNat ∧ y.toNat + 24 ≤ rect.bottom) (hrect : rect.Small) (focused : Bool) :
    ∀ call ∈ inputField x y w text focused, call.Inside rect := by
  obtain ⟨hright, hbottom⟩ := hrect
  have hsixteen : Screen.ch = 16 := rfl
  have hwidth : (textW (text.getD [])).toNat = 8 * (text.getD []).length := textW_toNat (by omega)
  have hinner : (if 12 < w then w - 12 else 0).toNat = w.toNat - 12 := by
    split
    next hlt => exact UInt32.toNat_sub_of_le _ _ (UInt32.le_iff_toNat_le.2 (UInt32.lt_iff_toNat_lt.1 hlt).le)
    next hge =>
      have hge' := UInt32.le_iff_toNat_le.1 (UInt32.not_lt.1 hge)
      have htwelve : (12 : UInt32).toNat = 12 := rfl
      rw [UInt32.toNat_zero]
      omega
  have hshown : inputShown w (text.getD []) = text.getD [] := by
    refine if_neg fun h => ?_
    have hlt := UInt32.lt_iff_toNat_lt.1 h.1
    rw [hinner] at hlt
    change w.toNat - 12 < (textW (text.getD [])).toNat at hlt
    omega
  have hframe : ∀ call ∈ inputFrame x y w focused, call.Inside rect := by
    simp only [inputFrame, List.forall_mem_cons, PixelCall.inside_roundedRect, hsixteen, UInt32.toNat_add, UInt32.toNat_sub,
      UInt32.reduceAdd, UInt32.reduceToNat]
    exact ⟨by omega, by omega, fun _ h => nomatch h⟩
  have htext : ∀ call ∈ inputText x y w (text.getD []), call.Inside rect := by
    unfold inputText
    split
    next => exact fun _ h => nomatch h
    next =>
      simp only [hshown, List.forall_mem_cons, PixelCall.inside_str, UInt32.toNat_add, UInt32.reduceToNat]
      exact ⟨by omega, fun _ h => nomatch h⟩
  have hcursor : ∀ call ∈ (if focused then inputCursor x y w (text.getD []) else []), call.Inside rect := by
    split
    next =>
      unfold inputCursor
      dsimp only
      rw [hshown]
      split
      next hlt =>
        have hlt' := UInt32.lt_iff_toNat_lt.1 hlt
        change (x + 5 + textW (text.getD []) + 2).toNat < _ at hlt'
        change ∀ call ∈ [PixelCall.fillRect (x + 5 + textW (text.getD [])) (y + 4) 2 Screen.ch gcAccent], _
        simp only [List.forall_mem_cons, PixelCall.inside_fillRect, hsixteen, UInt32.toNat_add, UInt32.toNat_sub, hwidth,
          UInt32.reduceToNat] at hlt' ⊢
        exact ⟨by omega, fun _ h => nomatch h⟩
      next => exact fun _ h => nomatch h
    next => exact fun _ h => nomatch h
  unfold inputField
  simp only [List.forall_mem_append]
  exact ⟨⟨hframe, htext⟩, hcursor⟩

/-- A widget of `gui.h`, with its arguments. -/
inductive Widget
  | window (x y w h : UInt32) (title : Str)
  | panel (x y w h : UInt32)
  | button (x y w h : UInt32) (text : Str)
  | label (x y : UInt32) (text : Str) (fg bg : UInt32)
  | labelCentered (x y w : UInt32) (text : Str) (fg bg : UInt32)
  | separator (x y w : UInt32)
  | statusbar (left right : Option Str)
  | badge (x y : UInt32) (text : Str) (fg bg : UInt32)
  | progressBar (x y w pct color : UInt32)
  | checkbox (x y : UInt32) (text : Option Str) (checked : Bool)
  | toggle (x y : UInt32) (on : Bool)
  | inputField (x y w : UInt32) (text : Option Str) (focused : Bool)

namespace Widget

variable {sw sh : UInt32}

def calls (sw sh : UInt32) : Widget → List PixelCall
  | window x y w h title => Gui.window x y w h title
  | panel x y w h => Gui.panel x y w h
  | button x y w h text => Gui.button x y w h text
  | label x y text fg bg => Gui.label x y text fg bg
  | labelCentered x y w text fg bg => Gui.labelCentered x y w text fg bg
  | separator x y w => Gui.separator x y w
  | statusbar left right => Gui.statusbar sw sh left right
  | badge x y text fg bg => Gui.badge x y text fg bg
  | progressBar x y w pct color => Gui.progressBar x y w pct color
  | checkbox x y text checked => Gui.checkbox x y text checked
  | toggle x y on => Gui.toggle x y on
  | inputField x y w text focused => Gui.inputField x y w text focused

/-- **The place of a widget.** A window has its shadow. The box of a checkbox has 14 rows and its
text 16, from the same row on, so the text ends two rows below the box. -/
def extent (sw sh : UInt32) : Widget → Rect
  | window x y w h _ => ⟨x.toNat, x.toNat + w.toNat + 4, y.toNat, y.toNat + h.toNat + 5⟩
  | panel x y w h => ⟨x.toNat, x.toNat + w.toNat, y.toNat, y.toNat + h.toNat⟩
  | button x y w h _ => ⟨x.toNat, x.toNat + w.toNat, y.toNat, y.toNat + h.toNat⟩
  | label x y text _ _ => ⟨x.toNat, x.toNat + 8 * text.length, y.toNat, y.toNat + 16⟩
  | labelCentered x y w text _ _ => ⟨x.toNat, x.toNat + max w.toNat (8 * text.length), y.toNat, y.toNat + 16⟩
  | separator x y w => ⟨x.toNat, x.toNat + w.toNat, y.toNat, y.toNat + 1⟩
  | statusbar _ _ => ⟨0, sw.toNat, sh.toNat - 20, sh.toNat⟩
  | badge x y text _ _ => ⟨x.toNat, x.toNat + 8 * text.length + 10, y.toNat, y.toNat + 22⟩
  | progressBar x y w _ _ => ⟨x.toNat, x.toNat + w.toNat, y.toNat, y.toNat + 14⟩
  | checkbox x y text _ =>
    if text.getD [] = [] then ⟨x.toNat, x.toNat + 14, y.toNat, y.toNat + 14⟩
    else ⟨x.toNat, x.toNat + 20 + 8 * (text.getD []).length, y.toNat, y.toNat + 16⟩
  | toggle x y _ => ⟨x.toNat, x.toNat + 34, y.toNat, y.toNat + 14⟩
  | inputField x y w _ _ => ⟨x.toNat, x.toNat + w.toNat, y.toNat, y.toNat + 24⟩

/-- **The sizes that a widget needs**: room for its text and for its border. -/
def Fits (sw sh : UInt32) : Widget → Prop
  | window _ _ w h title => 8 * title.length + 2 ≤ w.toNat ∧ 24 ≤ h.toNat
  | panel _ _ w h => 2 ≤ w.toNat ∧ 2 ≤ h.toNat
  | button _ _ w h text => 8 * text.length + 2 ≤ w.toNat ∧ 17 ≤ h.toNat
  | statusbar left right => 20 ≤ sh.toNat ∧ (∀ text ∈ left, 8 * text.length + 10 ≤ sw.toNat) ∧
      ∀ text ∈ right, 8 * text.length + 10 ≤ sw.toNat
  | progressBar _ _ w _ _ => 2 ≤ w.toNat
  | inputField _ _ w text _ => 8 * (text.getD []).length + 12 ≤ w.toNat
  | _ => True

theorem inside (wg : Widget) (hfit : wg.Fits sw sh) (hsmall : (wg.extent sw sh).Small) :
    ∀ call ∈ wg.calls sw sh, call.Inside (wg.extent sw sh) := by
  cases wg with
  | window x y w h title => exact window_inside hfit.1 hfit.2 ⟨le_rfl, le_rfl⟩ ⟨le_rfl, le_rfl⟩ hsmall
  | panel x y w h => exact panel_inside hfit.1 hfit.2 ⟨le_rfl, le_rfl⟩ ⟨le_rfl, le_rfl⟩ hsmall
  | button x y w h text => exact button_inside hfit.1 hfit.2 ⟨le_rfl, le_rfl⟩ ⟨le_rfl, le_rfl⟩ hsmall
  | label x y text fg bg => exact List.forall_mem_singleton.2 ⟨le_rfl, le_rfl, le_rfl, le_rfl⟩
  | labelCentered x y w text fg bg => exact labelCentered_inside ⟨le_rfl, le_rfl⟩ ⟨le_rfl, le_rfl⟩ hsmall fg bg
  | separator x y w => exact List.forall_mem_singleton.2 ⟨le_rfl, le_rfl, le_rfl, le_rfl⟩
  | statusbar left right => exact statusbar_inside hfit.1 hfit.2.1 hfit.2.2
  | badge x y text fg bg => exact badge_inside ⟨le_rfl, le_rfl⟩ ⟨le_rfl, le_rfl⟩ hsmall fg bg
  | progressBar x y w pct color => exact progressBar_inside hfit ⟨le_rfl, le_rfl⟩ ⟨le_rfl, le_rfl⟩ hsmall pct color
  | checkbox x y text checked =>
    by_cases htext : text.getD [] = []
    · have hextent : (checkbox x y text checked).extent sw sh = ⟨x.toNat, x.toNat + 14, y.toNat, y.toNat + 14⟩ := if_pos htext
      rw [hextent] at hsmall ⊢
      exact checkbox_inside ⟨le_rfl, le_rfl⟩ ⟨le_rfl, le_rfl⟩ (fun hne => absurd htext hne) hsmall checked
    · have hextent : (checkbox x y text checked).extent sw sh =
          ⟨x.toNat, x.toNat + 20 + 8 * (text.getD []).length, y.toNat, y.toNat + 16⟩ := if_neg htext
      rw [hextent] at hsmall ⊢
      exact checkbox_inside ⟨le_rfl, by dsimp only; omega⟩ ⟨le_rfl, by dsimp only; omega⟩ (fun _ => ⟨le_rfl, le_rfl⟩)
        hsmall checked
  | toggle x y on => exact toggle_inside ⟨le_rfl, le_rfl⟩ ⟨le_rfl, le_rfl⟩ hsmall on
  | inputField x y w text focused => exact inputField_inside hfit ⟨le_rfl, le_rfl⟩ ⟨le_rfl, le_rfl⟩ hsmall focused

/-- What a widget paints. -/
noncomputable def painting (sw sh : UInt32) (wg : Widget) : Painting (ℕ × ℕ) UInt32 :=
  stack PixelCall.painting (wg.calls sw sh)

theorem painting_within (wg : Widget) (hfit : wg.Fits sw sh) (hsmall : (wg.extent sw sh).Small) :
    (wg.painting sw sh).Within (wg.extent sw sh).points :=
  stack_within (wg.inside hfit hsmall) hsmall

/-- A list of widgets, one after the other. -/
theorem draw_paints {f : Framebuffer} (hf : f.Roomy) (l : List Widget) :
    f.Paints (f.draw (l.flatMap (calls f.w f.h))) (stack (painting f.w f.h) l) := by
  rw [show stack (painting f.w f.h) l = stack PixelCall.painting (l.flatMap (calls f.w f.h)) from (stack_flatMap ..).symm]
  exact hf.draw_paints _

end Widget

variable {f : Framebuffer}

/-- **A widget stays in its place.** On every framebuffer, every widget whose sizes hold its
text and border, at any position whose coordinates do not wrap, on the screen or partly off
it: it is drawn, and no pixel outside its extent changes. -/
theorem widgets_stay (hf : f.Roomy) (wg : Widget) (hfit : wg.Fits f.w f.h) (hsmall : (wg.extent f.w f.h).Small) :
    ∃ mem, f.draw (wg.calls f.w f.h) = some { f with mem } ∧ ∀ px py, px < f.w.toNat → py < f.h.toNat →
      (px, py) ∉ (wg.extent f.w f.h).points → ({ f with mem } : Framebuffer).pixel px py = f.pixel px py := by
  obtain ⟨mem, hdraw, hview⟩ := (hf.draw_paints (wg.calls f.w f.h)).result
  refine ⟨mem, hdraw, ?_⟩
  intro px py hx hy hout
  have hnone : stack PixelCall.painting (wg.calls f.w f.h) (px, py) = none := wg.painting_within hfit hsmall _ hout
  rw [hview px py hx hy, hnone, Option.getD_none]

/-- A checkbox at the right side of the screen: the pixel before it. -/
theorem widgets_stay_checkbox : ∃ mem, blackScreen.draw (checkbox 780 20 (some (str "on")) true) = some { blackScreen with mem } ∧
    ({ blackScreen with mem } : Framebuffer).pixel 779 20 = blackScreen.pixel 779 20 := by
  obtain ⟨mem, hdraw, hkeep⟩ := widgets_stay blackScreen_roomy (.checkbox 780 20 (some (str "on")) true) trivial
    (by unfold Rect.Small; decide)
  exact ⟨mem, hdraw, hkeep 779 20 (by decide) (by decide) fun hin => absurd hin.1 (by decide)⟩

/-- **Widgets in any order.** A screen of widgets whose places are pairwise apart looks the same in
whatever order they are drawn. -/
theorem widgets_any_order (hf : f.Roomy) {l l' : List Widget} (hfit : ∀ wg ∈ l, wg.Fits f.w f.h ∧ (wg.extent f.w f.h).Small)
    (hdisj : l.Pairwise fun a b => Apart (a.extent f.w f.h).points (b.extent f.w f.h).points) (hperm : l.Perm l') :
    ∃ mem mem', f.draw (l.flatMap (Widget.calls f.w f.h)) = some { f with mem } ∧
      f.draw (l'.flatMap (Widget.calls f.w f.h)) = some { f with mem := mem' } ∧ ∀ px py, px < f.w.toNat → py < f.h.toNat →
      ({ f with mem } : Framebuffer).pixel px py = ({ f with mem := mem' } : Framebuffer).pixel px py := by
  obtain ⟨mem, hdraw, hview⟩ := (Widget.draw_paints hf l).result
  obtain ⟨mem', hdraw', hview'⟩ := (Widget.draw_paints hf l').result
  refine ⟨mem, mem', hdraw, hdraw', ?_⟩
  intro px py hx hy
  have heq := stack_perm (fun wg hwg => wg.painting_within (hfit wg hwg).1 (hfit wg hwg).2) hdisj hperm
  rw [hview px py hx hy, hview' px py hx hy, heq]

/-- A switch and a progress bar next to it. -/
theorem widgets_any_order_two : ∃ mem mem', blackScreen.draw (toggle 10 10 true ++ progressBar 100 10 60 50 7) = some { blackScreen with mem } ∧
    blackScreen.draw (progressBar 100 10 60 50 7 ++ toggle 10 10 true) = some { blackScreen with mem := mem' } ∧
    ({ blackScreen with mem } : Framebuffer).pixel 110 12 = ({ blackScreen with mem := mem' } : Framebuffer).pixel 110 12 := by
  have hfit : ∀ wg ∈ [Widget.toggle 10 10 true, .progressBar 100 10 60 50 7],
      wg.Fits blackScreen.w blackScreen.h ∧ (wg.extent blackScreen.w blackScreen.h).Small := by
    simp only [List.forall_mem_cons, Widget.Fits, Widget.extent, Rect.Small]
    exact ⟨by decide, by decide, fun _ h => nomatch h⟩
  have hdisj : [Widget.toggle 10 10 true, .progressBar 100 10 60 50 7].Pairwise fun a b =>
      Apart (a.extent blackScreen.w blackScreen.h).points (b.extent blackScreen.w blackScreen.h).points := by
    refine List.pairwise_pair.2 ?_
    rintro ⟨px, py⟩ ha hb
    have hright : px < 44 := ha.2.1
    have hleft : 100 ≤ px := hb.1
    omega
  obtain ⟨mem, mem', hdraw, hdraw', hsame⟩ := widgets_any_order blackScreen_roomy hfit hdisj (.swap _ _ [])
  exact ⟨mem, mem', hdraw, hdraw', hsame 110 12 (by decide) (by decide)⟩

end Gui

end DahleOS
