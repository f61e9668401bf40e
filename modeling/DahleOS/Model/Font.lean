import Mathlib.Data.Nat.Init

/-!
# The bitmap font (`drivers/font.c`)

A glyph is eight rows, one byte each, for every character from the space (`FONT_FIRST`) to
the tilde (`FONT_LAST`). The driver takes the low bit as the leftmost pixel.
-/

namespace DahleOS

/-- `font8x8`, from `FONT_FIRST` on. -/
def font8x8 : Vector (Vector UInt8 8) 95 := #v[
  #v[0x00, 0x00, 0x00, 0x00, 0x00, 0x00, 0x00, 0x00],
  #v[0x18, 0x18, 0x18, 0x18, 0x18, 0x00, 0x18, 0x00],
  #v[0x66, 0x66, 0x24, 0x00, 0x00, 0x00, 0x00, 0x00],
  #v[0x36, 0x36, 0x7F, 0x36, 0x7F, 0x36, 0x36, 0x00],
  #v[0x0C, 0x3F, 0x03, 0x1E, 0x30, 0x3F, 0x0C, 0x00],
  #v[0x63, 0x33, 0x18, 0x0C, 0x06, 0x33, 0x63, 0x00],
  #v[0x1C, 0x36, 0x1C, 0x6E, 0x3B, 0x33, 0x6E, 0x00],
  #v[0x18, 0x18, 0x0C, 0x00, 0x00, 0x00, 0x00, 0x00],
  #v[0x18, 0x0C, 0x06, 0x06, 0x06, 0x0C, 0x18, 0x00],
  #v[0x06, 0x0C, 0x18, 0x18, 0x18, 0x0C, 0x06, 0x00],
  #v[0x00, 0x66, 0x3C, 0xFF, 0x3C, 0x66, 0x00, 0x00],
  #v[0x00, 0x18, 0x18, 0x7E, 0x18, 0x18, 0x00, 0x00],
  #v[0x00, 0x00, 0x00, 0x00, 0x18, 0x18, 0x0C, 0x00],
  #v[0x00, 0x00, 0x00, 0x7E, 0x00, 0x00, 0x00, 0x00],
  #v[0x00, 0x00, 0x00, 0x00, 0x00, 0x18, 0x18, 0x00],
  #v[0x60, 0x30, 0x18, 0x0C, 0x06, 0x03, 0x01, 0x00],
  #v[0x3E, 0x63, 0x73, 0x7B, 0x6F, 0x67, 0x3E, 0x00],
  #v[0x0C, 0x0E, 0x0C, 0x0C, 0x0C, 0x0C, 0x3F, 0x00],
  #v[0x1E, 0x33, 0x30, 0x1C, 0x06, 0x33, 0x3F, 0x00],
  #v[0x1E, 0x33, 0x30, 0x1C, 0x30, 0x33, 0x1E, 0x00],
  #v[0x38, 0x3C, 0x36, 0x33, 0x7F, 0x30, 0x30, 0x00],
  #v[0x3F, 0x03, 0x1F, 0x30, 0x30, 0x33, 0x1E, 0x00],
  #v[0x1C, 0x06, 0x03, 0x1F, 0x33, 0x33, 0x1E, 0x00],
  #v[0x3F, 0x33, 0x30, 0x18, 0x0C, 0x0C, 0x0C, 0x00],
  #v[0x1E, 0x33, 0x33, 0x1E, 0x33, 0x33, 0x1E, 0x00],
  #v[0x1E, 0x33, 0x33, 0x3E, 0x30, 0x18, 0x0E, 0x00],
  #v[0x00, 0x18, 0x18, 0x00, 0x18, 0x18, 0x00, 0x00],
  #v[0x00, 0x18, 0x18, 0x00, 0x18, 0x18, 0x0C, 0x00],
  #v[0x18, 0x0C, 0x06, 0x03, 0x06, 0x0C, 0x18, 0x00],
  #v[0x00, 0x00, 0x3F, 0x00, 0x3F, 0x00, 0x00, 0x00],
  #v[0x06, 0x0C, 0x18, 0x30, 0x18, 0x0C, 0x06, 0x00],
  #v[0x1E, 0x33, 0x30, 0x18, 0x0C, 0x00, 0x0C, 0x00],
  #v[0x3E, 0x63, 0x7B, 0x7B, 0x7B, 0x03, 0x1E, 0x00],
  #v[0x0C, 0x1E, 0x33, 0x33, 0x3F, 0x33, 0x33, 0x00],
  #v[0x3F, 0x66, 0x66, 0x3E, 0x66, 0x66, 0x3F, 0x00],
  #v[0x3C, 0x66, 0x03, 0x03, 0x03, 0x66, 0x3C, 0x00],
  #v[0x1F, 0x36, 0x66, 0x66, 0x66, 0x36, 0x1F, 0x00],
  #v[0x7F, 0x46, 0x16, 0x1E, 0x16, 0x46, 0x7F, 0x00],
  #v[0x7F, 0x46, 0x16, 0x1E, 0x16, 0x06, 0x0F, 0x00],
  #v[0x3C, 0x66, 0x03, 0x03, 0x73, 0x66, 0x7C, 0x00],
  #v[0x33, 0x33, 0x33, 0x3F, 0x33, 0x33, 0x33, 0x00],
  #v[0x1E, 0x0C, 0x0C, 0x0C, 0x0C, 0x0C, 0x1E, 0x00],
  #v[0x78, 0x30, 0x30, 0x30, 0x33, 0x33, 0x1E, 0x00],
  #v[0x67, 0x66, 0x36, 0x1E, 0x36, 0x66, 0x67, 0x00],
  #v[0x0F, 0x06, 0x06, 0x06, 0x46, 0x66, 0x7F, 0x00],
  #v[0x63, 0x77, 0x7F, 0x7F, 0x6B, 0x63, 0x63, 0x00],
  #v[0x63, 0x67, 0x6F, 0x7B, 0x73, 0x63, 0x63, 0x00],
  #v[0x1C, 0x36, 0x63, 0x63, 0x63, 0x36, 0x1C, 0x00],
  #v[0x3F, 0x66, 0x66, 0x3E, 0x06, 0x06, 0x0F, 0x00],
  #v[0x1E, 0x33, 0x33, 0x33, 0x3B, 0x1E, 0x38, 0x00],
  #v[0x3F, 0x66, 0x66, 0x3E, 0x36, 0x66, 0x67, 0x00],
  #v[0x1E, 0x33, 0x07, 0x0E, 0x38, 0x33, 0x1E, 0x00],
  #v[0x3F, 0x2D, 0x0C, 0x0C, 0x0C, 0x0C, 0x1E, 0x00],
  #v[0x33, 0x33, 0x33, 0x33, 0x33, 0x33, 0x3F, 0x00],
  #v[0x33, 0x33, 0x33, 0x33, 0x33, 0x1E, 0x0C, 0x00],
  #v[0x63, 0x63, 0x63, 0x6B, 0x7F, 0x77, 0x63, 0x00],
  #v[0x63, 0x63, 0x36, 0x1C, 0x1C, 0x36, 0x63, 0x00],
  #v[0x33, 0x33, 0x33, 0x1E, 0x0C, 0x0C, 0x1E, 0x00],
  #v[0x7F, 0x63, 0x31, 0x18, 0x4C, 0x66, 0x7F, 0x00],
  #v[0x1E, 0x06, 0x06, 0x06, 0x06, 0x06, 0x1E, 0x00],
  #v[0x03, 0x06, 0x0C, 0x18, 0x30, 0x60, 0x40, 0x00],
  #v[0x1E, 0x18, 0x18, 0x18, 0x18, 0x18, 0x1E, 0x00],
  #v[0x08, 0x1C, 0x36, 0x63, 0x00, 0x00, 0x00, 0x00],
  #v[0x00, 0x00, 0x00, 0x00, 0x00, 0x00, 0x00, 0xFF],
  #v[0x0C, 0x0C, 0x18, 0x00, 0x00, 0x00, 0x00, 0x00],
  #v[0x00, 0x00, 0x1E, 0x30, 0x3E, 0x33, 0x6E, 0x00],
  #v[0x07, 0x06, 0x06, 0x3E, 0x66, 0x66, 0x3B, 0x00],
  #v[0x00, 0x00, 0x1E, 0x33, 0x03, 0x33, 0x1E, 0x00],
  #v[0x38, 0x30, 0x30, 0x3E, 0x33, 0x33, 0x6E, 0x00],
  #v[0x00, 0x00, 0x1E, 0x33, 0x3F, 0x03, 0x1E, 0x00],
  #v[0x1C, 0x36, 0x06, 0x0F, 0x06, 0x06, 0x0F, 0x00],
  #v[0x00, 0x00, 0x6E, 0x33, 0x33, 0x3E, 0x30, 0x1F],
  #v[0x07, 0x06, 0x36, 0x6E, 0x66, 0x66, 0x67, 0x00],
  #v[0x0C, 0x00, 0x0E, 0x0C, 0x0C, 0x0C, 0x1E, 0x00],
  #v[0x30, 0x00, 0x30, 0x30, 0x30, 0x33, 0x33, 0x1E],
  #v[0x07, 0x06, 0x66, 0x36, 0x1E, 0x36, 0x67, 0x00],
  #v[0x0E, 0x0C, 0x0C, 0x0C, 0x0C, 0x0C, 0x1E, 0x00],
  #v[0x00, 0x00, 0x33, 0x7F, 0x7F, 0x6B, 0x63, 0x00],
  #v[0x00, 0x00, 0x1F, 0x33, 0x33, 0x33, 0x33, 0x00],
  #v[0x00, 0x00, 0x1E, 0x33, 0x33, 0x33, 0x1E, 0x00],
  #v[0x00, 0x00, 0x3B, 0x66, 0x66, 0x3E, 0x06, 0x0F],
  #v[0x00, 0x00, 0x6E, 0x33, 0x33, 0x3E, 0x30, 0x78],
  #v[0x00, 0x00, 0x3B, 0x6E, 0x66, 0x06, 0x0F, 0x00],
  #v[0x00, 0x00, 0x3E, 0x03, 0x1E, 0x30, 0x1F, 0x00],
  #v[0x08, 0x0C, 0x3E, 0x0C, 0x0C, 0x2C, 0x18, 0x00],
  #v[0x00, 0x00, 0x33, 0x33, 0x33, 0x33, 0x6E, 0x00],
  #v[0x00, 0x00, 0x33, 0x33, 0x33, 0x1E, 0x0C, 0x00],
  #v[0x00, 0x00, 0x63, 0x6B, 0x7F, 0x3E, 0x36, 0x00],
  #v[0x00, 0x00, 0x63, 0x36, 0x1C, 0x36, 0x63, 0x00],
  #v[0x00, 0x00, 0x33, 0x33, 0x3E, 0x30, 0x1F, 0x00],
  #v[0x00, 0x00, 0x3F, 0x19, 0x0C, 0x26, 0x3F, 0x00],
  #v[0x38, 0x0C, 0x0C, 0x07, 0x0C, 0x0C, 0x38, 0x00],
  #v[0x18, 0x18, 0x18, 0x00, 0x18, 0x18, 0x18, 0x00],
  #v[0x07, 0x0C, 0x0C, 0x38, 0x0C, 0x0C, 0x07, 0x00],
  #v[0x6E, 0x3B, 0x00, 0x00, 0x00, 0x00, 0x00, 0x00]]

theorem glyph_lt {c : UInt8} (h : c ≤ 0x7E) : c.toNat - 0x20 < 95 := by
  have hle := UInt8.le_iff_toNat_le.1 h
  have hlast : (0x7E : UInt8).toNat = 126 := rfl
  omega

/-- The glyph of a character; `?` stands for the ones that the font lacks. -/
def glyphOf (c : UInt8) : Vector UInt8 8 :=
  if h : 0x20 ≤ c ∧ c ≤ 0x7E then font8x8.get ⟨c.toNat - 0x20, glyph_lt h.2⟩
  else font8x8.get ⟨0x3F - 0x20, by decide⟩

end DahleOS
