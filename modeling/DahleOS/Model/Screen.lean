import DahleOS.Lib.Codec
import DahleOS.Model.Font
import DahleOS.Model.VgaText

/-!
# The console (`drivers/screen.c`)

One console over two displays: a linear framebuffer, into which characters are drawn, and
the text buffer of `Model.VgaText`. Coordinates and offsets into the framebuffer are
machine words and wrap. An access outside the memory of the framebuffer is `none`.

`screen_enter_vbe` and `vbe.c` are modelled by what the card gives back: its base address,
found at boot, and the virtual width and the memory of each entry.
-/

namespace DahleOS

open CArray Codec

/-! ## Pixels -/

/-- `fb`, `fb_pitch`, `fb_w`, `fb_h`, and the bytes behind `fb`. -/
structure Framebuffer where
  size : ℕ
  mem : Fin size → UInt8
  pitch : UInt32
  w : UInt32
  h : UInt32

namespace Framebuffer

/-- `*(uint32_t *)(fb + off) = v`. -/
def store (f : Framebuffer) (off v : UInt32) : Option Framebuffer :=
  if off.toNat + 4 ≤ f.size then
    some { f with mem := fun i =>
      if h : off.toNat ≤ i.val ∧ i.val < off.toNat + 4 then word32 v ⟨i.val - off.toNat, by omega⟩ else f.mem i }
  else none

/-- `put_pixel`. -/
def putPixel (f : Framebuffer) (x y color : UInt32) : Option Framebuffer :=
  if f.w ≤ x ∨ f.h ≤ y then some f else f.store (y * f.pitch + x * 4) color

/-- The values of the counter in `for (i = a; i < b; i++)`. -/
def upTo (a b : ℕ) : List UInt32 := (List.range' a (b - a)).map UInt32.ofNat

/-- The inner loop of `screen_fill_rect`. -/
def fillRow (f : Framebuffer) (ry x w color : UInt32) : Option Framebuffer :=
  (upTo x.toNat (min (x + w).toNat f.w.toNat)).foldlM (fun f rx => f.store (ry * f.pitch + rx * 4) color) f

/-- `screen_fill_rect`. -/
def fillRect (f : Framebuffer) (x y w h color : UInt32) : Option Framebuffer :=
  (upTo y.toNat (min (y + h).toNat f.h.toNat)).foldlM (fun f ry => f.fillRow ry x w color) f

/-- `TRANSPARENT`. -/
def transparent : UInt32 := 0xFF000000

/-- One bit of a glyph: a pixel, and the one below it. -/
def drawBit (f : Framebuffer) (px py fg bg : UInt32) (bits : UInt8) (row bit : UInt32) : Option Framebuffer := do
  if bits.toUInt32 &&& 1 <<< bit ≠ 0 then
    let f ← f.putPixel (px + bit) (py + row * 2) fg
    f.putPixel (px + bit) (py + row * 2 + 1) fg
  else if bg ≠ transparent then
    let f ← f.putPixel (px + bit) (py + row * 2) bg
    f.putPixel (px + bit) (py + row * 2 + 1) bg
  else some f

/-- `screen_draw_char_px`. -/
def drawChar (f : Framebuffer) (px py : UInt32) (c : UInt8) (fg bg : UInt32) : Option Framebuffer :=
  (List.finRange 8).foldlM (fun f row =>
    (upTo 0 8).foldlM (fun f bit =>
      f.drawBit px py fg bg ((glyphOf c).get row) (UInt32.ofNat row) bit) f) f

end Framebuffer

/-! ## State -/

/-- `SCREEN_VBE`, `SCREEN_VGA_TEXT`. -/
inductive ScreenMode
  | vbe | vgaText
  deriving DecidableEq

/-- The static state of `screen.c`, the text buffer, and `saved_bar0` of `vbe.c`. -/
structure Screen where
  mode : ScreenMode
  fb : Framebuffer
  curCol : UInt32
  curRow : UInt32
  curFg : UInt32
  curBg : UInt32
  vga : VgaText
  bar0 : UInt32

namespace Screen

/-- `CW`, `CH`. -/
def cw : UInt32 := 8
def ch : UInt32 := 16

/-- `BLACK`, which is also `GUI_DESKTOP`, and `WHITE`. -/
def black : UInt32 := 0x0D1117
def white : UInt32 := 0xF0F6FC

def tcols (s : Screen) : UInt32 := s.fb.w / cw
def trows (s : Screen) : UInt32 := s.fb.h / ch

/-- What `do_scroll` does to the framebuffer. -/
def scrollFb (f : Framebuffer) (bg : UInt32) : Option Framebuffer := do
  let mem ← copyDown (ch * f.pitch).toNat f.mem 0 ((f.h - ch) * f.pitch).toNat
  ({ f with mem } : Framebuffer).fillRect 0 (f.h - ch) f.w ch bg

/-- `do_scroll`. -/
def doScroll (s : Screen) : Option Screen := do
  let fb ← scrollFb s.fb s.curBg
  return { s with fb, curRow := if 0 < s.curRow then s.curRow - 1 else s.curRow }

/-! ## Colours of the text buffer -/

/-- `rgb_to_vga4`: each colour of `screen.h` to its nearest index. -/
def rgbToVga4 (rgb : UInt32) : UInt8 :=
  let palette : List (UInt32 × UInt8) :=
    [(0x0D1117, 0x0), (0x388BFD, 0x9), (0x3FB950, 0x2), (0x39C5CF, 0x3), (0xF85149, 0x4), (0xBC8CFF, 0xD),
      (0xD29922, 0x6), (0x8B949E, 0x7), (0x21262D, 0x8), (0x79C0FF, 0x1), (0x56D364, 0xA), (0x56D4DD, 0xB),
      (0xFF7B72, 0xC), (0xD2A8FF, 0x5), (0xE3B341, 0xE), (0xF0F6FC, 0xF), (0x161B22, 0x0), (0x30363D, 0x8),
      (0x1C2128, 0x0)]
  (palette.lookup rgb).getD 0x7

/-- `vga_text_rgb_to_attr`. -/
def rgbToAttr (fg bg : UInt32) : UInt8 := (rgbToVga4 bg <<< 4) ||| rgbToVga4 fg

/-- `vga_text_set_attr`. -/
def setAttr (v : VgaText) (attr : UInt8) : VgaText := { v with attr }

/-- `vga_text_init`. -/
def vgaTextInit (v : VgaText) : Option VgaText := vgaTextClear (setAttr v 0x07)

/-! ## The text API -/

/-- `screen_clear`. -/
def clear (s : Screen) : Option Screen := do
  if s.mode = .vgaText then
    let vga ← vgaTextClear s.vga
    return { s with vga }
  else
    let fb ← s.fb.fillRect 0 0 s.fb.w s.fb.h s.curBg
    return { s with fb, curCol := 0, curRow := 0 }

/-- `screen_init`. -/
def init (s : Screen) (size : ℕ) (mem : Fin size → UInt8) (pitch width height : UInt32) : Option Screen :=
  { s with
    fb := ⟨size, mem, pitch, width, height⟩
    curFg := white
    curBg := black
    curCol := 0
    curRow := 0 }.clear

/-- `screen_set_color`. -/
def setColor (s : Screen) (fg bg : UInt32) : Screen :=
  let s := { s with curFg := fg, curBg := bg }
  if s.mode = .vgaText then { s with vga := setAttr s.vga (rgbToAttr fg bg) } else s

/-- `if (cur_col >= cols) { cur_col = 0; cur_row++; }`. -/
def wrap (s : Screen) : Screen :=
  if s.tcols ≤ s.curCol then { s with curCol := 0, curRow := s.curRow + 1 } else s

/-- What `kprint_char` does to a framebuffer and the cursor before it scrolls. -/
def place (s : Screen) (c : UInt8) : Option Screen :=
  if c = 10 then some { s with curCol := 0, curRow := s.curRow + 1 }
  else if c = 13 then some { s with curCol := 0 }
  else if c = 9 then some { s with curCol := (s.curCol + 8) &&& ~~~7 }.wrap
  else do
    let fb ← s.fb.drawChar (s.curCol * cw) (s.curRow * ch) c s.curFg s.curBg
    return { s with fb, curCol := s.curCol + 1 }.wrap

/-- `kprint_char`. -/
def kprintChar (s : Screen) (c : UInt8) : Option Screen := do
  if s.mode = .vgaText then
    let vga ← vgaTextPutchar s.vga c
    return { s with vga }
  else
    let s ← s.place c
    if s.trows ≤ s.curRow then s.doScroll else return s

/-- `kprint`. -/
def kprint (s : Screen) (cs : List UInt8) : Option Screen := cs.foldlM kprintChar s

/-- `kprint_color`. The text buffer's attribute is restored from `cur_fg` and `cur_bg`. -/
def kprintColor (s : Screen) (cs : List UInt8) (fg bg : UInt32) : Option Screen := do
  if s.mode = .vgaText then
    let saved := rgbToAttr s.curFg s.curBg
    let vga ← vgaTextPrint (setAttr s.vga (rgbToAttr fg bg)) cs
    return { s with vga := setAttr vga saved }
  else
    let s' ← { s with curFg := fg, curBg := bg }.kprint cs
    return { s' with curFg := s.curFg, curBg := s.curBg }

/-- `screen_backspace`. -/
def backspace (s : Screen) : Option Screen := do
  if s.mode = .vgaText then
    let vga ← vgaTextBackspace s.vga
    return { s with vga }
  else
    let s :=
      if 0 < s.curCol then { s with curCol := s.curCol - 1 }
      else if 0 < s.curRow then { s with curRow := s.curRow - 1, curCol := s.tcols - 1 }
      else s
    let fb ← s.fb.fillRect (s.curCol * cw) (s.curRow * ch) cw ch s.curBg
    return { s with fb }

/-- The calls of the text API. -/
inductive TextOp
  | char (c : UInt8)
  | print (cs : List UInt8)
  | printColor (cs : List UInt8) (fg bg : UInt32)
  | backspace
  | setColor (fg bg : UInt32)
  | clear

def TextOp.apply (s : Screen) : TextOp → Option Screen
  | char c => s.kprintChar c
  | print cs => s.kprint cs
  | printColor cs fg bg => s.kprintColor cs fg bg
  | backspace => s.backspace
  | setColor fg bg => some (s.setColor fg bg)
  | clear => s.clear

/-! ## The displays -/

/-- `vbe_pitch` after `vbe_enable`, by the virtual width that the card reads back. -/
def vbePitch (vw : UInt16) : UInt32 := if vw ≠ 0 then vw.toUInt32 * 4 else 800 * 4

/-- `screen_enter_vbe`. -/
def enterVbe (s : Screen) (vw : UInt16) (size : ℕ) (mem : Fin size → UInt8) : Option Screen :=
  if s.bar0 = 0 then some s else { s with mode := .vbe }.init size mem (vbePitch vw) 800 600

/-- `screen_enter_vga`. -/
def enterVga (s : Screen) : Option Screen := do
  let vga ← vgaTextInit s.vga
  return { s with mode := .vgaText, curFg := white, curBg := black, vga }

/-- The static state, with what `vbe_init` found. -/
def static (bar0 : UInt32) : Screen :=
  ⟨.vbe, ⟨0, Fin.elim0, 0, 0, 0⟩, 0, 0, 0, 0, ⟨fun _ => 0, 0, 0, 0x07⟩, bar0⟩

/-- The console when `kmain` prints its banner. -/
def boot (bar0 : UInt32) : Option Screen := (static bar0).enterVga

/-- The calls of the text API and the switches of the mode. -/
inductive ConsoleOp
  | text (op : TextOp)
  | enterVbe (vw : UInt16) (size : ℕ) (mem : Fin size → UInt8)
  | enterVga

def ConsoleOp.apply (s : Screen) : ConsoleOp → Option Screen
  | text op => op.apply s
  | enterVbe vw size mem => s.enterVbe vw size mem
  | enterVga => s.enterVga

end Screen

end DahleOS
