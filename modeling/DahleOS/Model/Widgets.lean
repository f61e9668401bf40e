import DahleOS.Model.Gui

/-!
# The widgets (`drivers/gui.c`)

The widgets besides the input field, as lists of calls to the pixel layer. Sizes and
positions are machine words and wrap.
-/

namespace DahleOS

namespace Gui

open Screen (cw ch)

/-- `WIN_R`, `BTN_R`. -/
def winR : UInt32 := 6
def btnR : UInt32 := 4

/-- `GUI_TITLE_H`, `GUI_PAD`, `GUI_SB_H`, and the sizes of the controls. -/
def titleH : UInt32 := 22
def pad : UInt32 := 10
def sbH : UInt32 := 20
def progressH : UInt32 := 14
def checkSz : UInt32 := 14
def toggleW : UInt32 := 34
def toggleH : UInt32 := 14

/-- The `GC_` colours. -/
def gcDesktopTop : UInt32 := rgb 18 26 48
def gcDesktopBot : UInt32 := rgb 10 14 22
def gcWinTitle : UInt32 := rgb 0 120 140
def gcBtn : UInt32 := rgb 33 39 46
def gcBtnBorder : UInt32 := rgb 0 180 180
def gcTextDim : UInt32 := rgb 139 148 158
def gcSep : UInt32 := rgb 48 54 61
def gcStatusbar : UInt32 := rgb 13 17 23
def gcSuccess : UInt32 := rgb 63 185 80

/-- `strlen(text) * screen_char_w()`. -/
def textW (text : Str) : UInt32 := UInt32.ofNat text.length * cw

/-- `fill_top_rounded`. -/
def fillTopRounded (x y w h r color : UInt32) : List PixelCall :=
  .roundedRect x y w h r color :: if r < h then [.fillRect x (y + h - r) w r color] else []

/-- `gui_desktop`. -/
def desktop (f : Framebuffer) : Option Framebuffer := f.fillGradientV 0 0 f.w f.h gcDesktopTop gcDesktopBot

/-- `gui_label`. -/
def label (x y : UInt32) (text : Str) (fg bg : UInt32) : List PixelCall := [.str x y text fg bg]

/-- `gui_label_centered`. -/
def labelCentered (x y w : UInt32) (text : Str) (fg bg : UInt32) : List PixelCall :=
  let tw := textW text
  [.str (x + if tw < w then (w - tw) / 2 else 0) y text fg bg]

/-- `gui_panel`. -/
def panel (x y w h : UInt32) : List PixelCall :=
  [.roundedRect x y w h winR gcWinBorder, .roundedRect (x + 1) (y + 1) (w - 2) (h - 2) (winR - 1) gcWinBg]

/-- `gui_window`: the shadow, the border and the body, the title bar, the line below it, and the
title. -/
def window (x y w h : UInt32) (title : Str) : List PixelCall :=
  .roundedRect (x + 4) (y + 5) w h winR (rgb 0 0 0) :: panel x y w h ++
    fillTopRounded (x + 1) (y + 1) (w - 2) titleH (winR - 1) gcWinTitle ++
    .fillRect (x + 1) (y + 1 + titleH) (w - 2) 1 gcWinBorder ::
      labelCentered (x + 1) (y + 1 + (titleH - ch) / 2) (w - 2) title gcText gcWinTitle

/-- `gui_button`. -/
def button (x y w h : UInt32) (text : Str) : List PixelCall :=
  let ty := y + 1 + if ch < h - 2 then (h - 2 - ch) / 2 else 0
  .roundedRect x y w h btnR gcBtnBorder :: .roundedRect (x + 1) (y + 1) (w - 2) (h - 2) (btnR - 1) gcBtn ::
    labelCentered (x + 1) ty (w - 2) text gcText gcBtn

/-- `gui_separator`. -/
def separator (x y w : UInt32) : List PixelCall := [.fillRect x y w 1 gcSep]

/-- `gui_statusbar`, on a screen of `sw` by `sh` pixels. -/
def statusbar (sw sh : UInt32) (left right : Option Str) : List PixelCall :=
  let sy := sh - sbH
  let ty := sy + (sbH - ch) / 2
  [.fillRect 0 sy sw sbH gcStatusbar, .fillRect 0 sy sw 1 gcWinBorder] ++
    (left.toList.map fun text => .str pad ty text gcText gcStatusbar) ++
    right.toList.map fun text => .str (sw - textW text - pad) ty text gcTextDim gcStatusbar

/-- `gui_badge`. -/
def badge (x y : UInt32) (text : Str) (fg bg : UInt32) : List PixelCall :=
  [.roundedRect x y (textW text + 10) (ch + 6) 3 bg, .str (x + 5) (y + 3) text fg bg]

/-- `filled`. -/
def progressFilled (w pct : UInt32) : UInt32 := (w - 2) * (if 100 < pct then 100 else pct) / 100

/-- `gui_progress_bar`. -/
def progressBar (x y w pct color : UInt32) : List PixelCall :=
  let filled := progressFilled w pct
  [.roundedRect x y w progressH 3 gcWinBorder, .roundedRect (x + 1) (y + 1) (w - 2) (progressH - 2) 2 gcWinBg] ++
    if 3 ≤ filled then [.roundedRect (x + 1) (y + 1) filled (progressH - 2) 2 color] else []

/-- `gui_checkbox`. -/
def checkbox (x y : UInt32) (text : Option Str) (checked : Bool) : List PixelCall :=
  let s := checkSz
  let ty := y + if ch < s then (s - ch) / 2 else 0
  [.roundedRect x y s s 2 gcWinBorder, .roundedRect (x + 1) (y + 1) (s - 2) (s - 2) 1 (if checked then gcAccent else gcWinBg)] ++
    (if checked then [.roundedRect (x + 3) (y + 3) (s - 6) (s - 6) 1 gcText] else []) ++
    if text.getD [] = [] then [] else [.str (x + s + 6) ty (text.getD []) gcText Framebuffer.transparent]

/-- `gui_toggle`. -/
def toggle (x y : UInt32) (on : Bool) : List PixelCall :=
  [.roundedRect x y toggleW toggleH 7 (if on then gcSuccess else gcWinBorder),
    .roundedRect (if on then x + toggleW - 12 else x + 2) (y + 2) 10 10 5 gcText]

end Gui

end DahleOS
