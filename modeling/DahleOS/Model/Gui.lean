import DahleOS.Model.Drawing

/-!
# The input field (`drivers/gui.c`)

A widget is the list of the calls that it makes to the pixel layer. It reads nothing from
the screen. A text is `none` when the caller passes no string.
-/

namespace DahleOS

/-- The calls of `screen.h` that the widget makes. -/
inductive PixelCall
  | roundedRect (x y w h r color : UInt32)
  | fillRect (x y w h color : UInt32)
  | str (x y : UInt32) (s : Str) (fg bg : UInt32)
  deriving DecidableEq

def PixelCall.apply (f : Framebuffer) : PixelCall → Option Framebuffer
  | roundedRect x y w h r color => f.fillRoundedRect x y w h r color
  | fillRect x y w h color => f.fillRect x y w h color
  | str x y s fg bg => f.drawStr x y s fg bg

/-- The calls, one after the other. -/
def Framebuffer.draw (f : Framebuffer) (calls : List PixelCall) : Option Framebuffer := calls.foldlM PixelCall.apply f

namespace Gui

open Screen (cw ch)

/-- `RGB`. -/
def rgb (r g b : UInt32) : UInt32 := (r <<< 16) ||| (g <<< 8) ||| b

/-- `GC_WIN_BG`, `GC_WIN_BORDER`, `GC_TEXT`, `GC_ACCENT`. -/
def gcWinBg : UInt32 := rgb 22 27 34
def gcWinBorder : UInt32 := rgb 48 54 61
def gcText : UInt32 := rgb 240 246 252
def gcAccent : UInt32 := rgb 0 180 180

/-- The border and the body of the field, `h = screen_char_h() + 8`. -/
def inputFrame (x y w : UInt32) (focused : Bool) : List PixelCall :=
  let h := ch + 8
  [.roundedRect x y w h 3 (if focused then gcAccent else gcWinBorder),
    .roundedRect (x + 1) (y + 1) (w - 2) (h - 2) 2 gcWinBg]

/-- `text` after `text += skip`. -/
def inputShown (w : UInt32) (text : Str) : Str :=
  let innerW := if 12 < w then w - 12 else 0
  let tw := UInt32.ofNat text.length * cw
  if innerW < tw ∧ 0 < innerW then text.drop ((tw - innerW) / cw).toNat else text

/-- The call that draws the text, if there is any. -/
def inputText (x y w : UInt32) (text : Str) : List PixelCall :=
  if text = [] then [] else [.str (x + 5) (y + 4) (inputShown w text) gcText gcWinBg]

/-- The bar of the cursor, where it fits. -/
def inputCursor (x y w : UInt32) (text : Str) : List PixelCall :=
  let cx := x + 5 + UInt32.ofNat (inputShown w text).length * cw
  if cx + 2 < x + w - 2 then [.fillRect cx (y + 4) 2 ch gcAccent] else []

/-- `gui_input_field`. -/
def inputField (x y w : UInt32) (text : Option Str) (focused : Bool) : List PixelCall :=
  inputFrame x y w focused ++ inputText x y w (text.getD []) ++
    if focused then inputCursor x y w (text.getD []) else []

end Gui

end DahleOS
