import DahleOS.Model.Libc
import DahleOS.Model.Screen

/-!
# The pixel layer (`drivers/screen.c`)

`screen_fill_gradient_h`, `screen_fill_gradient_v`, `screen_fill_rounded_rect` and
`screen_draw_str_px`, over the framebuffer of `Model.Screen`. All of the arithmetic is in
32 bits.
-/

namespace DahleOS

namespace Framebuffer

/-! ## Gradients -/

/-- One channel of a gradient at `t`. -/
def gradientChannel (a b t : UInt32) : UInt32 := (a * (255 - t) + b * t) / 255

/-- The colour of line `i` of a gradient; both functions compute it alike. -/
def gradientColor (col₀ col₁ denom i : UInt32) : UInt32 :=
  let t := i * 255 / denom
  let r := gradientChannel ((col₀ >>> 16) &&& 0xFF) ((col₁ >>> 16) &&& 0xFF) t
  let g := gradientChannel ((col₀ >>> 8) &&& 0xFF) ((col₁ >>> 8) &&& 0xFF) t
  let b := gradientChannel (col₀ &&& 0xFF) (col₁ &&& 0xFF) t
  (r <<< 16) ||| (g <<< 8) ||| b

/-- `denom`. -/
def gradientDenom (len : UInt32) : UInt32 := if 1 < len then len - 1 else 1

/-- The values of the counter in `for (i = 0; i < len && (start + i) < limit; i++)`. -/
def clipped (start len limit : UInt32) : List UInt32 :=
  (upTo 0 len.toNat).takeWhile fun i => start + i < limit

/-- `screen_fill_gradient_h`. -/
def fillGradientH (f : Framebuffer) (x y w h colL colR : UInt32) : Option Framebuffer :=
  (clipped x w f.w).foldlM (fun f cx =>
    (upTo y.toNat (min (y + h).toNat f.h.toNat)).foldlM (fun f ry =>
      f.putPixel (x + cx) ry (gradientColor colL colR (gradientDenom w) cx)) f) f

/-- `screen_fill_gradient_v`. Its inner loop is that of `screen_fill_rect`. -/
def fillGradientV (f : Framebuffer) (x y w h colTop colBot : UInt32) : Option Framebuffer :=
  (clipped y h f.h).foldlM (fun f cy =>
    f.fillRow (y + cy) x w (gradientColor colTop colBot (gradientDenom h) cy)) f

/-! ## Rounded rectangles -/

/-- The four pixels of one step of the corner loops. -/
def cornerPixels (f : Framebuffer) (x y w h r color dy dx : UInt32) : Option Framebuffer := do
  let ipx := r.toInt32 - dx.toInt32 - 1
  let ipy := r.toInt32 - dy.toInt32 - 1
  if ipx * ipx + ipy * ipy ≤ (r * r).toInt32 then
    let f ← f.putPixel (x + dx) (y + dy) color
    let f ← f.putPixel (x + w - 1 - dx) (y + dy) color
    let f ← f.putPixel (x + dx) (y + h - 1 - dy) color
    f.putPixel (x + w - 1 - dx) (y + h - 1 - dy) color
  else some f

/-- The radius that is used. -/
def clampRadius (w h r : UInt32) : UInt32 :=
  let r := if w / 2 < r then w / 2 else r
  if h / 2 < r then h / 2 else r

/-- `screen_fill_rounded_rect`. -/
def fillRoundedRect (f : Framebuffer) (x y w h r color : UInt32) : Option Framebuffer := do
  let r := clampRadius w h r
  let f ← f.fillRect (x + r) y (w - 2 * r) h color
  let f ← f.fillRect x (y + r) r (h - 2 * r) color
  let f ← f.fillRect (x + w - r) (y + r) r (h - 2 * r) color
  (upTo 0 r.toNat).foldlM (fun f dy =>
    (upTo 0 r.toNat).foldlM (fun f dx => f.cornerPixels x y w h r color dy dx) f) f

/-! ## Text -/

/-- `screen_draw_str_px`. -/
def drawStr (f : Framebuffer) (x y : UInt32) (s : Str) (fg bg : UInt32) : Option Framebuffer :=
  s.zipIdx.foldlM (fun f c => f.drawChar (x + UInt32.ofNat c.2 * Screen.cw) y c.1.val fg bg) f

end Framebuffer

end DahleOS
