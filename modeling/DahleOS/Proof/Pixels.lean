import DahleOS.Lib.MachineWord
import DahleOS.Lib.Painting
import DahleOS.Lib.PartialRun
import DahleOS.Model.Drawing

/-!
# What is painted

The framebuffer as a picture: the pixels inside it, 32 bits each. The drawing routines of
`screen.c` change it by paintings.

* `Roomy`: the lines of the framebuffer do not overlap, and its memory holds them.
* `Roomy.store_paints`: a pixel's bytes are its own.
* `Roomy.fillRect_paints`: a filled rectangle, clipped.
* `Roomy.drawChar_paints`, `Roomy.drawStr_paints`: a character, and a string.
* `charPainting_within`, `charPainting_covers`: a character paints its cell.
-/

namespace DahleOS

open CArray Codec MachineWord Painting PartialRun

variable {f : Framebuffer} {r : Option Framebuffer} {x y w h color fg bg : UInt32} {p q : Painting (ℕ × ℕ) UInt32}

namespace Framebuffer

/-! ## Loops -/

theorem mem_upTo {a b : ℕ} {i : UInt32} (hb : b ≤ 2 ^ 32) : i ∈ upTo a b ↔ a ≤ i.toNat ∧ i.toNat < b := by
  constructor
  · intro h
    obtain ⟨j, hj, rfl⟩ := List.mem_map.1 h
    obtain ⟨hlo, hhi⟩ := List.mem_range'_1.1 hj
    have hval : (UInt32.ofNat j).toNat = j := UInt32.toNat_ofNat_of_lt' (show j < 2 ^ 32 by omega)
    omega
  · intro h
    exact List.mem_map.2 ⟨i.toNat, List.mem_range'_1.2 (by omega), UInt32.ofNat_toNat⟩

/-- The counter of a loop takes every value of the range. -/
theorem exists_upTo {a b : ℕ} (hb : b ≤ 2 ^ 32) {P : ℕ → Prop} :
    (∃ i ∈ upTo a b, P i.toNat) ↔ ∃ n, (a ≤ n ∧ n < b) ∧ P n := by
  constructor
  · rintro ⟨i, hi, h⟩
    exact ⟨i.toNat, (mem_upTo hb).1 hi, h⟩
  · rintro ⟨n, hn, h⟩
    have hval : (UInt32.ofNat n).toNat = n := UInt32.toNat_ofNat_of_lt' (show n < 2 ^ 32 by omega)
    exact ⟨UInt32.ofNat n, (mem_upTo hb).2 (by rwa [hval]), by rwa [hval]⟩

/-! ## The picture -/

/-- A pixel. -/
def pixel (f : Framebuffer) (x y : ℕ) : UInt32 :=
  word32.symm fun i => if h : y * f.pitch.toNat + x * 4 + i.val < f.size then f.mem ⟨_, h⟩ else 0

/-- **The framebuffer as a picture.** Drawing changes its bytes only. -/
def canvas : Canvas Framebuffer (ℕ × ℕ) UInt32 where
  view f p := f.pixel p.1 p.2
  area f := {p | p.1 < f.w.toNat ∧ p.2 < f.h.toNat}
  same f f' := ∃ mem, f' = { f with mem }
  refl f := ⟨f.mem, rfl⟩
  trans := by
    rintro f _ _ ⟨mem, rfl⟩ ⟨mem', rfl⟩
    exact ⟨mem', rfl⟩
  area_eq := by
    rintro f _ ⟨mem, rfl⟩
    rfl

/-- A routine changes the framebuffer by a painting. -/
abbrev Paints (f : Framebuffer) (r : Option Framebuffer) (p : Painting (ℕ × ℕ) UInt32) : Prop := canvas.Paints f r p

/-- **A framebuffer**: its lines do not overlap, and are in its memory, which is in the
address space. -/
structure Roomy (f : Framebuffer) : Prop where
  pitch : 4 * f.w.toNat ≤ f.pitch.toNat
  mem : f.pitch.toNat * f.h.toNat ≤ f.size
  small : f.size ≤ 2 ^ 32

/-- The result is the framebuffer, with other bytes. -/
def Redraws (f : Framebuffer) (r : Option Framebuffer) : Prop := ∃ mem, r = some { f with mem }

theorem Redraws.same (f : Framebuffer) : f.Redraws (some f) := ⟨f.mem, rfl⟩

theorem Redraws.bind {k : Framebuffer → Option Framebuffer} (hr : f.Redraws r)
    (hk : ∀ mem, ({ f with mem } : Framebuffer).Redraws (k { f with mem })) : f.Redraws (r.bind k) := by
  obtain ⟨mem, rfl⟩ := hr
  obtain ⟨mem', hmem'⟩ := hk mem
  exact ⟨mem', hmem'⟩

theorem Redraws.foldlM {α : Type*} {step : Framebuffer → α → Option Framebuffer} {l : List α}
    (h : ∀ a ∈ l, ∀ mem, ({ f with mem } : Framebuffer).Redraws (step { f with mem } a)) :
    f.Redraws (l.foldlM step f) := by
  obtain ⟨f', hf', mem, rfl⟩ := foldlM_keeps (P := fun f' => ∃ mem, f' = { f with mem }) (s := f) ⟨f.mem, rfl⟩
    (fun a ha _ hs => by
      obtain ⟨mem, rfl⟩ := hs
      obtain ⟨mem', hmem'⟩ := h a ha mem
      exact ⟨_, hmem', mem', rfl⟩)
  exact ⟨mem, hf'⟩

/-- The screen of `screen_enter_vbe` over zeroed memory. -/
def blackScreen : Framebuffer := ⟨3200 * 600, fun _ => 0, 3200, 800, 600⟩

theorem blackScreen_roomy : blackScreen.Roomy := ⟨by decide, by decide, by decide⟩

theorem blackScreen_pixel (x y : ℕ) : blackScreen.pixel x y = 0 := by
  have hbytes : (fun i : Fin 4 => if h : y * blackScreen.pitch.toNat + x * 4 + i.val < blackScreen.size then
      blackScreen.mem ⟨_, h⟩ else 0) = fun _ => 0 := by
    funext i
    split <;> rfl
  rw [pixel, hbytes]
  decide

theorem Roomy.withMem (hf : f.Roomy) (mem : Fin f.size → UInt8) : ({ f with mem } : Framebuffer).Roomy :=
  ⟨hf.pitch, hf.mem, hf.small⟩

theorem Roomy.same {f' : Framebuffer} (hf : f.Roomy) (h : canvas.same f f') : f'.Roomy ∧ f'.w = f.w ∧ f'.h = f.h := by
  obtain ⟨mem, rfl⟩ := h
  exact ⟨hf.withMem mem, rfl, rfl⟩

/-- **One routine after the other.** -/
theorem Roomy.bind {k : Framebuffer → Option Framebuffer} (hf : f.Roomy) (hr : f.Paints r p)
    (hk : ∀ f' : Framebuffer, f'.Roomy → f'.w = f.w → f'.h = f.h → f'.Paints (k f') q) : f.Paints (r.bind k) (p.layer q) :=
  Canvas.Paints.bind hr fun f' h' => by
    obtain ⟨hf', hw, hh⟩ := hf.same h'
    exact hk f' hf' hw hh

/-- **A loop.** -/
theorem Roomy.foldlM {α : Type*} {step : Framebuffer → α → Option Framebuffer} {paint : α → Painting (ℕ × ℕ) UInt32}
    {l : List α} (hf : f.Roomy) (h : ∀ a ∈ l, ∀ f' : Framebuffer, f'.Roomy → f'.w = f.w → f'.h = f.h →
      f'.Paints (step f' a) (paint a)) : f.Paints (l.foldlM step f) (stack paint l) :=
  Canvas.Paints.foldlM fun a ha f' h' => by
    obtain ⟨hf', hw, hh⟩ := hf.same h'
    exact h a ha f' hf' hw hh

/-- A loop in one colour fills the union of what its rounds fill. -/
theorem Roomy.fill_upTo {step : Framebuffer → UInt32 → Option Framebuffer} {S : ℕ → Set (ℕ × ℕ)} {a b : ℕ} (hf : f.Roomy)
    (hb : b ≤ 2 ^ 32) (h : ∀ i : UInt32, a ≤ i.toNat → i.toNat < b → ∀ f' : Framebuffer, f'.Roomy → f'.w = f.w → f'.h = f.h →
      f'.Paints (step f' i) (solid (S i.toNat) color)) :
    f.Paints ((upTo a b).foldlM step f) (solid {p | ∃ n, (a ≤ n ∧ n < b) ∧ p ∈ S n} color) := by
  have hloop := hf.foldlM (l := upTo a b) fun i hi => h i ((mem_upTo hb).1 hi).1 ((mem_upTo hb).1 hi).2
  refine Canvas.Paints.congr hloop ?_
  intro p _
  rw [stack_solid fun i : UInt32 => S i.toNat]
  exact solid_congr (exists_upTo (P := fun n => p ∈ S n) hb)

/-- The result of a painting, pixel by pixel. -/
theorem Paints.result (h : f.Paints r p) : ∃ mem, r = some { f with mem } ∧ ∀ px py, px < f.w.toNat →
    py < f.h.toNat → ({ f with mem } : Framebuffer).pixel px py = (p (px, py)).getD (f.pixel px py) := by
  obtain ⟨_, hr, ⟨mem, rfl⟩, hview⟩ := h
  exact ⟨mem, hr, fun px py hx hy => hview (px, py) ⟨hx, hy⟩⟩

theorem Paints.redraws (h : f.Paints r p) : f.Redraws r := by
  obtain ⟨mem, hr, -⟩ := h.result
  exact ⟨mem, hr⟩

/-! ## Pixels -/

/-- The offset of a pixel does not wrap, and its four bytes are there. -/
theorem Roomy.offset (hf : f.Roomy) (hx : x.toNat < f.w.toNat) (hy : y.toNat < f.h.toNat) :
    (y * f.pitch + x * 4).toNat = y.toNat * f.pitch.toNat + x.toNat * 4 ∧
      y.toNat * f.pitch.toNat + x.toNat * 4 + 4 ≤ f.size := by
  have hp := hf.pitch
  have hmem := hf.mem
  have hsmall := hf.small
  -- the line ends by the end of the memory
  have hline : y.toNat * f.pitch.toNat + f.pitch.toNat ≤ f.pitch.toNat * f.h.toNat := by
    calc y.toNat * f.pitch.toNat + f.pitch.toNat = f.pitch.toNat * (y.toNat + 1) := by
          rw [Nat.mul_succ, Nat.mul_comm]
      _ ≤ f.pitch.toNat * f.h.toNat := Nat.mul_le_mul_left _ hy
  have hfour : (4 : UInt32).toNat = 4 := rfl
  rw [UInt32.toNat_add, UInt32.toNat_mul, UInt32.toNat_mul, hfour,
    Nat.mod_eq_of_lt (show y.toNat * f.pitch.toNat < 2 ^ 32 by omega),
    Nat.mod_eq_of_lt (show x.toNat * 4 < 2 ^ 32 by omega), Nat.mod_eq_of_lt (by omega)]
  omega

/-- Two pixels have no byte in common. -/
theorem pixels_disjoint {pitch w a b c d : ℕ} (hp : 4 * w ≤ pitch) (ha : a < w) (hc : c < w)
    (hne : (a, b) ≠ (c, d)) : b * pitch + a * 4 + 4 ≤ d * pitch + c * 4 ∨ d * pitch + c * 4 + 4 ≤ b * pitch + a * 4 := by
  rcases Nat.lt_trichotomy b d with hlt | rfl | hgt
  · have hline := Nat.mul_le_mul_right pitch hlt
    rw [Nat.succ_mul] at hline
    omega
  · have hne' : a ≠ c := fun h => hne (by rw [h])
    omega
  · have hline := Nat.mul_le_mul_right pitch hgt
    rw [Nat.succ_mul] at hline
    omega

/-- **A store to a pixel** changes that pixel. -/
theorem Roomy.store_paints (hf : f.Roomy) (hx : x.toNat < f.w.toNat) (hy : y.toNat < f.h.toNat) (v : UInt32) :
    f.Paints (f.store (y * f.pitch + x * 4) v) (solid {(x.toNat, y.toNat)} v) := by
  obtain ⟨heq, hle⟩ := hf.offset hx hy
  refine ⟨_, if_pos (by rw [heq]; exact hle), ⟨_, rfl⟩, ?_⟩
  rintro ⟨px, py⟩ ⟨hpx, -⟩
  by_cases hp : (px, py) = (x.toNat, y.toNat)
  · -- the four bytes are those of the word
    have hin : (px, py) ∈ ({(x.toNat, y.toNat)} : Set (ℕ × ℕ)) := hp
    obtain ⟨rfl, rfl⟩ := Prod.mk.inj hp
    rw [on_of_some (solid_of_mem hin)]
    refine (congrArg word32.symm ?_).trans (word32.symm_apply_apply v)
    funext i
    have hi := i.isLt
    dsimp only
    rw [dif_pos (by omega), dif_pos (by rw [heq]; omega)]
    refine congrArg (word32 v) (Fin.ext ?_)
    dsimp only
    rw [heq]
    omega
  · have hout : (px, py) ∉ ({(x.toNat, y.toNat)} : Set (ℕ × ℕ)) := hp
    have hdisj := pixels_disjoint hf.pitch hpx hx hp
    rw [on_of_none (solid_of_notMem hout)]
    refine congrArg word32.symm ?_
    funext i
    have hi := i.isLt
    dsimp only
    by_cases hsize : py * f.pitch.toNat + px * 4 + i.val < f.size
    · rw [dif_pos hsize, dif_pos hsize, dif_neg (by rw [heq]; omega)]
    · rw [dif_neg hsize, dif_neg hsize]

/-- A pixel, clipped. -/
theorem Roomy.putPixel_paints (hf : f.Roomy) (x y color : UInt32) :
    f.Paints (f.putPixel x y color) (solid {(x.toNat, y.toNat)} color) := by
  unfold putPixel
  split
  next hout =>
    refine (Canvas.Paints.blank canvas f).congr ?_
    rintro ⟨px, py⟩ ⟨hx, hy⟩
    refine (solid_of_notMem ?_).symm
    intro heq
    obtain ⟨rfl, rfl⟩ := Prod.mk.inj heq
    rw [UInt32.le_iff_toNat_le, UInt32.le_iff_toNat_le] at hout
    omega
  next hin =>
    obtain ⟨hx, hy⟩ := not_or.1 hin
    exact hf.store_paints (UInt32.lt_iff_toNat_lt.1 (UInt32.not_le.1 hx)) (UInt32.lt_iff_toNat_lt.1 (UInt32.not_le.1 hy)) color

/-! ## Rectangles -/

/-- The points of a rectangle, from its first column and row up to behind its last ones. -/
def box (x₀ x₁ y₀ y₁ : ℕ) : Set (ℕ × ℕ) := {p | x₀ ≤ p.1 ∧ p.1 < x₁ ∧ y₀ ≤ p.2 ∧ p.2 < y₁}

theorem mem_box {x₀ x₁ y₀ y₁ px py : ℕ} : (px, py) ∈ box x₀ x₁ y₀ y₁ ↔ x₀ ≤ px ∧ px < x₁ ∧ y₀ ≤ py ∧ py < y₁ :=
  Iff.rfl

theorem Roomy.fillRow_paints (hf : f.Roomy) {ry : UInt32} (hy : ry.toNat < f.h.toNat) (x w color : UInt32) :
    f.Paints (f.fillRow ry x w color) (solid (box x.toNat (x + w).toNat ry.toNat (ry.toNat + 1)) color) := by
  have hlimit : min (x + w).toNat f.w.toNat ≤ 2 ^ 32 := (min_le_right _ _).trans f.w.toNat_lt.le
  have hloop : f.Paints (f.fillRow ry x w color) _ := hf.fill_upTo (S := fun n => {(n, ry.toNat)}) hlimit
    fun rx _ hx f' hf' hw hh => hf'.store_paints (by rw [hw]; omega) (by rw [hh]; exact hy) color
  refine hloop.congr ?_
  rintro ⟨px, py⟩ ⟨hpx, -⟩
  refine solid_congr ?_
  simp only [mem_box, Set.mem_ofPred_eq, Set.mem_singleton_iff, Prod.mk.injEq]
  constructor
  · rintro ⟨n, hn, rfl, rfl⟩
    omega
  · intro hin
    exact ⟨px, by omega⟩

/-- **A filled rectangle**, clipped at the right and at the bottom. -/
theorem Roomy.fillRect_paints (hf : f.Roomy) (x y w h color : UInt32) :
    f.Paints (f.fillRect x y w h color) (solid (box x.toNat (x + w).toNat y.toNat (y + h).toNat) color) := by
  have hlimit : min (y + h).toNat f.h.toNat ≤ 2 ^ 32 := (min_le_right _ _).trans f.h.toNat_lt.le
  have hloop : f.Paints (f.fillRect x y w h color) _ := hf.fill_upTo
    (S := fun n => box x.toNat (x + w).toNat n (n + 1)) hlimit fun ry _ hy f' hf' _ hh =>
      hf'.fillRow_paints (by rw [hh]; omega) x w color
  refine hloop.congr ?_
  rintro ⟨px, py⟩ ⟨-, hpy⟩
  refine solid_congr ?_
  simp only [mem_box, Set.mem_ofPred_eq]
  constructor
  · rintro ⟨n, hn, hin⟩
    omega
  · intro hin
    exact ⟨py, by omega⟩

/-! ## Characters -/

/-- What one bit of a glyph paints. -/
noncomputable def bitPainting (px py fg bg : UInt32) (bits : UInt8) (row bit : UInt32) : Painting (ℕ × ℕ) UInt32 :=
  let S : Set (ℕ × ℕ) := {((px + bit).toNat, (py + row * 2).toNat)} ∪ {((px + bit).toNat, (py + row * 2 + 1).toNat)}
  if bits.toUInt32 &&& 1 <<< bit ≠ 0 then solid S fg else if bg ≠ transparent then solid S bg else blank

/-- What a character paints. -/
noncomputable def charPainting (px py : UInt32) (c : UInt8) (fg bg : UInt32) : Painting (ℕ × ℕ) UInt32 :=
  stack (fun row : Fin 8 => stack (fun bit => bitPainting px py fg bg ((glyphOf c).get row) (UInt32.ofNat row) bit)
    (upTo 0 8)) (List.finRange 8)

/-- What a string paints. -/
noncomputable def strPainting (x y : UInt32) (s : Str) (fg bg : UInt32) : Painting (ℕ × ℕ) UInt32 :=
  stack (fun c : Ch × ℕ => charPainting (x + UInt32.ofNat c.2 * Screen.cw) y c.1.val fg bg) s.zipIdx

theorem Roomy.drawBit_paints (hf : f.Roomy) (px py fg bg : UInt32) (bits : UInt8) (row bit : UInt32) :
    f.Paints (f.drawBit px py fg bg bits row bit) (bitPainting px py fg bg bits row bit) := by
  have htwo (color : UInt32) : f.Paints ((f.putPixel (px + bit) (py + row * 2) color).bind fun f =>
      f.putPixel (px + bit) (py + row * 2 + 1) color)
      (solid ({((px + bit).toNat, (py + row * 2).toNat)} ∪ {((px + bit).toNat, (py + row * 2 + 1).toNat)}) color) := by
    rw [← solid_layer_solid]
    exact hf.bind (hf.putPixel_paints _ _ _) fun f' hf' _ _ => hf'.putPixel_paints _ _ _
  unfold drawBit bitPainting
  dsimp only
  split
  · exact htwo fg
  split
  · exact htwo bg
  · exact .blank canvas f

theorem Roomy.drawChar_paints (hf : f.Roomy) (px py : UInt32) (c : UInt8) (fg bg : UInt32) :
    f.Paints (f.drawChar px py c fg bg) (charPainting px py c fg bg) :=
  hf.foldlM fun _ _ _ hf _ _ => hf.foldlM fun _ _ _ hf _ _ => hf.drawBit_paints ..

theorem Roomy.drawStr_paints (hf : f.Roomy) (x y : UInt32) (s : Str) (fg bg : UInt32) :
    f.Paints (f.drawStr x y s fg bg) (strPainting x y s fg bg) :=
  hf.foldlM fun _ _ _ hf _ _ => hf.drawChar_paints ..

/-! ## Cells -/

variable {px py : UInt32}

/-- The column of the character `i` of a string. -/
theorem cell_toNat {i : ℕ} (h : x.toNat + 8 * i < 2 ^ 32) : (x + UInt32.ofNat i * Screen.cw).toNat = x.toNat + 8 * i := by
  have height : Screen.cw.toNat = 8 := rfl
  have hval : (UInt32.ofNat i).toNat = i := UInt32.toNat_ofNat_of_lt' (show i < 2 ^ 32 by omega)
  have hmul : (UInt32.ofNat i * Screen.cw).toNat = 8 * i := by
    rw [toNat_mul_of_lt (by rw [hval, height]; omega), hval, height, Nat.mul_comm]
  rw [toNat_add_of_lt (by omega), hmul]

/-- The pixels of a bit, in a cell that does not wrap. -/
theorem bit_toNat (row : Fin 8) {bit : UInt32} (hx : px.toNat + 8 ≤ 2 ^ 32) (hy : py.toNat + 16 ≤ 2 ^ 32)
    (hbit : bit.toNat < 8) : (px + bit).toNat = px.toNat + bit.toNat ∧
      (py + UInt32.ofNat row * 2).toNat = py.toNat + 2 * row.val ∧
      (py + UInt32.ofNat row * 2 + 1).toNat = py.toNat + 2 * row.val + 1 := by
  have hrow := row.isLt
  have htwo : (2 : UInt32).toNat = 2 := rfl
  have hone : (1 : UInt32).toNat = 1 := rfl
  have hval : (UInt32.ofNat row.val).toNat = row.val := UInt32.toNat_ofNat_of_lt' (show row.val < 2 ^ 32 by omega)
  have hdouble : (UInt32.ofNat row.val * 2).toNat = 2 * row.val := by
    rw [toNat_mul_of_lt (by rw [hval, htwo]; omega), hval, htwo, Nat.mul_comm]
  have hfirst : (py + UInt32.ofNat row.val * 2).toNat = py.toNat + 2 * row.val := by
    rw [toNat_add_of_lt (by omega), hdouble]
  refine ⟨toNat_add_of_lt (by omega), hfirst, ?_⟩
  rw [toNat_add_of_lt (by omega), hfirst, hone]

theorem charPainting_within (hx : px.toNat + 8 ≤ 2 ^ 32) (hy : py.toNat + 16 ≤ 2 ^ 32) (c : UInt8) (fg bg : UInt32) :
    (charPainting px py c fg bg).Within (box px.toNat (px.toNat + 8) py.toNat (py.toNat + 16)) := by
  refine within_stack fun row _ => within_stack fun bit hbit => ?_
  have hbit' := ((mem_upTo (by omega)).1 hbit).2
  obtain ⟨hcol, hfirst, hsecond⟩ := bit_toNat row hx hy hbit'
  have hrow := row.isLt
  have hpixels (color : UInt32) : (solid ({((px + bit).toNat, (py + UInt32.ofNat row * 2).toNat)} ∪
      {((px + bit).toNat, (py + UInt32.ofNat row * 2 + 1).toNat)}) color).Within
      (box px.toNat (px.toNat + 8) py.toNat (py.toNat + 16)) := by
    rw [hcol, hfirst, hsecond]
    refine (within_solid _ color).mono ?_
    rintro _ (rfl | rfl)
    · exact mem_box.2 (by omega)
    · exact mem_box.2 (by omega)
  unfold bitPainting
  dsimp only
  split
  · exact hpixels fg
  split
  · exact hpixels bg
  · exact within_blank _

/-- On a background that is not transparent, a character covers its cell. -/
theorem charPainting_covers (hx : px.toNat + 8 ≤ 2 ^ 32) (hy : py.toNat + 16 ≤ 2 ^ 32) (hbg : bg ≠ transparent) (c : UInt8)
    {qx qy : ℕ} (hq : (qx, qy) ∈ box px.toNat (px.toNat + 8) py.toNat (py.toNat + 16)) :
    charPainting px py c fg bg (qx, qy) ≠ none := by
  rw [mem_box] at hq
  -- the row and the bit of the pixel
  obtain ⟨bit, hbit, hcol⟩ : ∃ bit ∈ upTo 0 8, bit.toNat = qx - px.toNat :=
    (exists_upTo (P := (· = qx - px.toNat)) (by omega)).2 ⟨_, by omega, rfl⟩
  have hrow : (qy - py.toNat) / 2 < 8 := by omega
  refine stack_covers (List.mem_finRange ⟨(qy - py.toNat) / 2, hrow⟩) (stack_covers hbit ?_)
  obtain ⟨hx', hy₁, hy₂⟩ := bit_toNat ⟨(qy - py.toNat) / 2, hrow⟩ hx hy (show bit.toNat < 8 by omega)
  have hmem : (qx, qy) ∈ ({((px + bit).toNat, (py + UInt32.ofNat ((qy - py.toNat) / 2) * 2).toNat)} ∪
      {((px + bit).toNat, (py + UInt32.ofNat ((qy - py.toNat) / 2) * 2 + 1).toNat)} : Set (ℕ × ℕ)) := by
    rw [hx', hy₁, hy₂]
    simp only [Set.mem_union, Set.mem_singleton_iff, Prod.mk.injEq]
    omega
  unfold bitPainting
  dsimp only
  rw [if_pos hbg]
  split
  · rw [solid_of_mem hmem]
    exact Option.some_ne_none _
  · rw [solid_of_mem hmem]
    exact Option.some_ne_none _

theorem charPainting_palette (px py : UInt32) (c : UInt8) (fg bg : UInt32) : (charPainting px py c fg bg).Palette {fg, bg} := by
  refine palette_stack fun row _ => palette_stack fun bit _ => ?_
  unfold bitPainting
  dsimp only
  split
  · exact palette_solid _ (Set.mem_insert fg {bg})
  split
  · exact palette_solid _ (Set.mem_insert_of_mem fg rfl)
  · exact palette_blank _

/-- A string stays in the cells of its characters. -/
theorem strPainting_within {s : Str} (hx : x.toNat + 8 * s.length ≤ 2 ^ 32) (hy : y.toNat + 16 ≤ 2 ^ 32) (fg bg : UInt32) :
    (strPainting x y s fg bg).Within (box x.toNat (x.toNat + 8 * s.length) y.toNat (y.toNat + 16)) := by
  refine within_stack ?_
  rintro ⟨c, i⟩ hc
  have hi : i < s.length := (List.getElem?_eq_some_iff.1 (List.mk_mem_zipIdx_iff_getElem?.1 hc)).1
  have hcol : (x + UInt32.ofNat i * Screen.cw).toNat = x.toNat + 8 * i := cell_toNat (by omega)
  refine (charPainting_within (by rw [hcol]; omega) hy c.val fg bg).mono ?_
  rintro ⟨qx, qy⟩ hq
  rw [mem_box, hcol] at hq
  exact mem_box.2 (by omega)

end Framebuffer

end DahleOS
