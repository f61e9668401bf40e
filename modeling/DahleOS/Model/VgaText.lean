import DahleOS.Lib.CArray

/-!
# The VGA text driver (`drivers/vga_text.c`)

The text buffer, 25 rows of 80 cells, and where the next character goes. The hardware
cursor follows it and is left out.

In text mode `kprint_char` is `vga_text_putchar` and `screen_backspace` is
`vga_text_backspace`.
-/

namespace DahleOS

open CArray

/-- `VGA_BUF`, `vga_row`, `vga_col`, `vga_attr`. -/
structure VgaText where
  buf : Fin (25 * 80) → UInt16
  row : ℕ
  col : ℕ
  attr : UInt8

/-- A character with an attribute. -/
def vgaCell (attr c : UInt8) : UInt16 := attr.toUInt16 <<< 8 ||| c.toUInt16

/-- `blank`: a space. -/
def VgaText.blank (s : VgaText) : UInt16 := vgaCell s.attr 32

/-- `do_scroll`. -/
def doScroll (s : VgaText) : Option VgaText := do
  let buf ← copyDown 80 s.buf 0 (24 * 80)
  let buf ← fill s.blank buf (24 * 80) 80
  return { s with buf, row := s.row - 1 }

/-- `vga_text_clear`. -/
def vgaTextClear (s : VgaText) : Option VgaText := do
  let buf ← fill s.blank s.buf 0 (25 * 80)
  return { s with buf, row := 0, col := 0 }

/-- `if (vga_col >= VGA_TEXT_COLS) { vga_col = 0; vga_row++; }`. -/
def VgaText.wrap (s : VgaText) : VgaText := if 80 ≤ s.col then { s with row := s.row + 1, col := 0 } else s

/-- `vga_text_putchar`. -/
def vgaTextPutchar (s : VgaText) (c : UInt8) : Option VgaText := do
  let s ←
    if c = 10 then some { s with row := s.row + 1, col := 0 }
    else if c = 13 then some { s with col := 0 }
    else if c = 9 then
      -- `(vga_col + 8u) & ~7u`
      some { s with col := s.col + 8 - (s.col + 8) % 8 }.wrap
    else do
      let buf ← wr s.buf (s.row * 80 + s.col : ℕ) (vgaCell s.attr c)
      some { s with buf, col := s.col + 1 }.wrap
  if 25 ≤ s.row then doScroll s else return s

/-- `vga_text_print`. -/
def vgaTextPrint (s : VgaText) (cs : List UInt8) : Option VgaText := cs.foldlM vgaTextPutchar s

/-- `vga_text_backspace`. -/
def vgaTextBackspace (s : VgaText) : Option VgaText := do
  let s :=
    if 0 < s.col then { s with col := s.col - 1 }
    else if 0 < s.row then { s with row := s.row - 1, col := 80 - 1 }
    else s
  let buf ← wr s.buf (s.row * 80 + s.col : ℕ) s.blank
  return { s with buf }

end DahleOS
