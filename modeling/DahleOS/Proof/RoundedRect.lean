import DahleOS.Lib.MachineWord
import DahleOS.Proof.Pixels

/-!
# Rounded rectangles

Three strips and four corner loops make up the shape, for every size and radius, on the
screen and partly off it.

* `corner_test`: the signed test of the corner loops.
* `cornerPixels_paints`, `corners_paint`: the corners.
* `rounded_rect`: the shape, and nothing else.
-/

namespace DahleOS

namespace Framebuffer

open MachineWord Painting

variable {f : Framebuffer} {x y w h r dx dy : UInt32}

/-- **The shape**: the rectangle without what is outside the quarter discs in its corners.
`dx` and `dy` are the distances to the nearest sides. -/
def InRounded (x y w h r px py : ℕ) : Prop :=
  let dx := min (px - x) (x + w - 1 - px)
  let dy := min (py - y) (y + h - 1 - py)
  (x ≤ px ∧ px < x + w ∧ y ≤ py ∧ py < y + h) ∧ ¬ (dx < r ∧ dy < r ∧ r ^ 2 < (r - 1 - dx) ^ 2 + (r - 1 - dy) ^ 2)

instance (x y w h r px py : ℕ) : Decidable (InRounded x y w h r px py) := inferInstanceAs (Decidable (_ ∧ _))

theorem clampRadius_toNat (w h r : UInt32) :
    (clampRadius w h r).toNat = min r.toNat (min (w.toNat / 2) (h.toNat / 2)) := by
  have hmin (a b : UInt32) : (if b < a then b else a).toNat = min a.toNat b.toNat := by
    split
    next hlt =>
      rw [UInt32.lt_iff_toNat_lt] at hlt
      omega
    next hge =>
      rw [UInt32.lt_iff_toNat_lt] at hge
      omega
  have htwo : (2 : UInt32).toNat = 2 := rfl
  unfold clampRadius
  dsimp only
  rw [hmin, hmin, UInt32.toNat_div, UInt32.toNat_div, htwo, Nat.min_assoc]

/-! ## The corners -/

/-- The point is inside the quarter disc. -/
def InDisc (r dx dy : ℕ) : Prop := (r - 1 - dx) ^ 2 + (r - 1 - dy) ^ 2 ≤ r ^ 2

instance (r dx dy : ℕ) : Decidable (InDisc r dx dy) := inferInstanceAs (Decidable (_ ≤ _))

/-- **The test of the corner loops** does not overflow. -/
theorem corner_test (hr : r.toNat ≤ 32767) (hdx : dx.toNat < r.toNat) (hdy : dy.toNat < r.toNat) :
    (let ipx := r.toInt32 - dx.toInt32 - 1
     let ipy := r.toInt32 - dy.toInt32 - 1
     ipx * ipx + ipy * ipy ≤ (r * r).toInt32) ↔ InDisc r.toNat dx.toNat dy.toNat := by
  have hone : (1 : Int32).toInt = 1 := rfl
  have hleg {d : UInt32} (hd : d.toNat < r.toNat) :
      (r.toInt32 - d.toInt32 - 1).toInt = ((r.toNat - 1 - d.toNat : ℕ) : ℤ) := by
    have hr' := toInt_toInt32 (x := r) (by omega)
    have hd' := toInt_toInt32 (x := d) (by omega)
    have hdiff : (r.toInt32 - d.toInt32).toInt = r.toNat - d.toNat := by
      rw [toInt_sub_of_le (by omega) (by omega), hr', hd']
    rw [toInt_sub_of_le (by omega) (by omega), hdiff, hone]
    omega
  -- the squares are below 2^30
  have hrr : r.toNat * r.toNat ≤ 32767 * 32767 := Nat.mul_le_mul hr hr
  have hsquares {d : UInt32} (hd : d.toNat < r.toNat) :
      (r.toNat - 1 - d.toNat) * (r.toNat - 1 - d.toNat) ≤ 32766 * 32766 :=
    Nat.mul_le_mul (by omega) (by omega)
  have hx := hsquares hdx
  have hy := hsquares hdy
  have hsum := toInt_add_nat (toInt_mul_nat (hleg hdx) (hleg hdx) (by omega))
    (toInt_mul_nat (hleg hdy) (hleg hdy) (by omega)) (by omega)
  have hradius := toInt_toInt32 (x := r * r) (by rw [toNat_mul_of_lt (by omega)]; omega)
  rw [toNat_mul_of_lt (by omega)] at hradius
  unfold InDisc
  dsimp only
  rw [Int32.le_iff_toInt_le, hsum, hradius, Nat.pow_two, Nat.pow_two, Nat.pow_two, Int.ofNat_le]

/-- The points of one step of the corner loops. -/
def cornerPoints (x y w h dx dy : ℕ) : Set (ℕ × ℕ) :=
  {p | (p.1 = x + dx ∨ p.1 = x + w - 1 - dx) ∧ (p.2 = y + dy ∨ p.2 = y + h - 1 - dy)}

/-- **One step of the corner loops.** -/
theorem Roomy.cornerPixels_paints (hf : f.Roomy) (hx : x.toNat + w.toNat < 2 ^ 32) (hy : y.toNat + h.toNat < 2 ^ 32)
    (hr : r.toNat ≤ 32767) (hrw : r.toNat ≤ w.toNat / 2) (hrh : r.toNat ≤ h.toNat / 2) (hdx : dx.toNat < r.toNat)
    (hdy : dy.toNat < r.toNat) (color : UInt32) : f.Paints (f.cornerPixels x y w h r color dy dx)
      (solid {p | InDisc r.toNat dx.toNat dy.toNat ∧ p ∈ cornerPoints x.toNat y.toNat w.toNat h.toNat dx.toNat dy.toNat}
        color) := by
  have htest := corner_test hr hdx hdy
  have hone : (1 : UInt32).toNat = 1 := rfl
  -- the coordinates
  have hadd {a d n : UInt32} (hn : a.toNat + n.toNat < 2 ^ 32) (hd : d.toNat < n.toNat) :
      (a + d).toNat = a.toNat + d.toNat := toNat_add_of_lt (by omega)
  have hsub {a d n : UInt32} (hn : a.toNat + n.toNat < 2 ^ 32) (hd : d.toNat < n.toNat) :
      (a + n - 1 - d).toNat = a.toNat + n.toNat - 1 - d.toNat := by
    have hsum : (a + n).toNat = a.toNat + n.toNat := toNat_add_of_lt hn
    have hpred : (a + n - 1).toNat = a.toNat + n.toNat - 1 := by
      rw [UInt32.toNat_sub_of_le _ _ (UInt32.le_iff_toNat_le.2 (by omega)), hsum, hone]
    rw [UInt32.toNat_sub_of_le _ _ (UInt32.le_iff_toNat_le.2 (by omega)), hpred]
  have hleft := hadd hx (show dx.toNat < w.toNat by omega)
  have hright := hsub hx (show dx.toNat < w.toNat by omega)
  have htop := hadd hy (show dy.toNat < h.toNat by omega)
  have hbottom := hsub hy (show dy.toNat < h.toNat by omega)
  unfold cornerPixels
  dsimp only
  by_cases hin : InDisc r.toNat dx.toNat dy.toNat
  · rw [if_pos (htest.2 hin)]
    refine Canvas.Paints.congr (hf.bind (hf.putPixel_paints _ _ color) fun _ hf₁ _ _ =>
      hf₁.bind (hf₁.putPixel_paints _ _ color) fun _ hf₂ _ _ =>
        hf₂.bind (hf₂.putPixel_paints _ _ color) fun _ hf₃ _ _ => hf₃.putPixel_paints _ _ color) ?_
    rintro ⟨px, py⟩ -
    rw [solid_layer_solid, solid_layer_solid, solid_layer_solid]
    refine solid_congr ?_
    simp only [Set.mem_union, Set.mem_singleton_iff, Set.mem_ofPred_eq, cornerPoints, Prod.mk.injEq, hleft, hright, htop,
      hbottom, hin, true_and]
    omega
  · rw [if_neg fun h => hin (htest.1 h)]
    refine (Canvas.Paints.blank canvas f).congr ?_
    intro p _
    exact (solid_of_notMem fun h => hin h.1).symm

/-- **The corner loops.** -/
theorem Roomy.corners_paint (hf : f.Roomy) (hx : x.toNat + w.toNat < 2 ^ 32) (hy : y.toNat + h.toNat < 2 ^ 32)
    (hr : r.toNat ≤ 32767) (hrw : r.toNat ≤ w.toNat / 2) (hrh : r.toNat ≤ h.toNat / 2) (color : UInt32) :
    f.Paints ((upTo 0 r.toNat).foldlM (fun f dy =>
        (upTo 0 r.toNat).foldlM (fun f dx => f.cornerPixels x y w h r color dy dx) f) f)
      (solid {p | ∃ dy < r.toNat, ∃ dx < r.toNat, InDisc r.toNat dx dy ∧
        p ∈ cornerPoints x.toNat y.toNat w.toNat h.toNat dx dy} color) := by
  have hlimit : r.toNat ≤ 2 ^ 32 := r.toNat_lt.le
  have hloops : f.Paints ((upTo 0 r.toNat).foldlM (fun f dy =>
      (upTo 0 r.toNat).foldlM (fun f dx => f.cornerPixels x y w h r color dy dx) f) f) _ :=
    hf.fill_upTo (S := fun dy => {p | ∃ dx, (0 ≤ dx ∧ dx < r.toNat) ∧ InDisc r.toNat dx dy ∧
      p ∈ cornerPoints x.toNat y.toNat w.toNat h.toNat dx dy}) hlimit fun dy _ hdy _ hf₁ _ _ =>
    hf₁.fill_upTo (S := fun dx => {p | InDisc r.toNat dx dy.toNat ∧
      p ∈ cornerPoints x.toNat y.toNat w.toNat h.toNat dx dy.toNat}) hlimit fun dx _ hdx _ hf₂ _ _ =>
    hf₂.cornerPixels_paints hx hy hr hrw hrh hdx hdy color
  refine hloops.congr ?_
  intro p _
  refine solid_congr ?_
  simp only [Set.mem_ofPred_eq, Nat.zero_le, true_and]

/-! ## The shape -/

/-- **The strips and the corners make up the shape.** -/
theorem inRounded_iff {x y w h r px py : ℕ} (hrw : r ≤ w / 2) (hrh : r ≤ h / 2) : InRounded x y w h r px py ↔
    (px, py) ∈ box (x + r) (x + r + (w - 2 * r)) y (y + h) ∨ (px, py) ∈ box x (x + r) (y + r) (y + r + (h - 2 * r)) ∨
      (px, py) ∈ box (x + w - r) (x + w - r + r) (y + r) (y + r + (h - 2 * r)) ∨
      ∃ dy < r, ∃ dx < r, InDisc r dx dy ∧ (px, py) ∈ cornerPoints x y w h dx dy := by
  have hcorners : (∃ dy < r, ∃ dx < r, InDisc r dx dy ∧ (px, py) ∈ cornerPoints x y w h dx dy) ↔
      (x ≤ px ∧ px < x + w ∧ y ≤ py ∧ py < y + h) ∧ min (px - x) (x + w - 1 - px) < r ∧
        min (py - y) (y + h - 1 - py) < r ∧
        InDisc r (min (px - x) (x + w - 1 - px)) (min (py - y) (y + h - 1 - py)) := by
    constructor
    · rintro ⟨dy, hdy, dx, hdx, hdisc, hpx, hpy⟩
      dsimp only at hpx hpy
      obtain rfl : min (px - x) (x + w - 1 - px) = dx := by omega
      obtain rfl : min (py - y) (y + h - 1 - py) = dy := by omega
      exact ⟨by omega, hdx, hdy, hdisc⟩
    · rintro ⟨hin, hdx, hdy, hdisc⟩
      refine ⟨_, hdy, _, hdx, hdisc, ?_, ?_⟩
      · dsimp only
        omega
      · dsimp only
        omega
  rw [hcorners]
  unfold InRounded InDisc
  simp only [mem_box]
  generalize (r - 1 - min (px - x) (x + w - 1 - px)) ^ 2 + (r - 1 - min (py - y) (y + h - 1 - py)) ^ 2 = d
  generalize r ^ 2 = rr
  omega

/-- The ends of the strips do not wrap. -/
theorem strip_ends {a n : UInt32} (ha : a.toNat + n.toNat < 2 ^ 32) (hr : r.toNat ≤ n.toNat / 2) :
    (a + r).toNat = a.toNat + r.toNat ∧ (a + r + (n - 2 * r)).toNat = a.toNat + r.toNat + (n.toNat - 2 * r.toNat) ∧
      (a + n - r).toNat = a.toNat + n.toNat - r.toNat ∧ (a + n - r + r).toNat = a.toNat + n.toNat - r.toNat + r.toNat := by
  have htwo : (2 * r).toNat = 2 * r.toNat := toNat_mul_of_lt (show 2 * r.toNat < 2 ^ 32 by omega)
  have hinner : (n - 2 * r).toNat = n.toNat - 2 * r.toNat := by
    rw [UInt32.toNat_sub_of_le _ _ (UInt32.le_iff_toNat_le.2 (by omega)), htwo]
  have hfirst : (a + r).toNat = a.toNat + r.toNat := toNat_add_of_lt (by omega)
  have hsum : (a + n).toNat = a.toNat + n.toNat := toNat_add_of_lt ha
  have hlast : (a + n - r).toNat = a.toNat + n.toNat - r.toNat := by
    rw [UInt32.toNat_sub_of_le _ _ (UInt32.le_iff_toNat_le.2 (by omega)), hsum]
  refine ⟨hfirst, ?_, hlast, ?_⟩
  · rw [toNat_add_of_lt (a := a + r) (by omega), hfirst, hinner]
  · rw [toNat_add_of_lt (a := a + n - r) (by omega), hlast]

/-- **`screen_fill_rounded_rect` fills the shape.** On every framebuffer, for every rectangle
that ends below 2^32 and every radius of which at most 32767 is used: the pixels of the
shape get the colour, and no other pixel changes. -/
theorem rounded_rect (hf : f.Roomy) (x y w h radius color : UInt32) (hx : x.toNat + w.toNat < 2 ^ 32)
    (hy : y.toNat + h.toNat < 2 ^ 32) (hr : min radius.toNat (min (w.toNat / 2) (h.toNat / 2)) ≤ 32767) :
    ∃ mem, f.fillRoundedRect x y w h radius color = some { f with mem } ∧ ∀ px py, px < f.w.toNat → py < f.h.toNat →
      ({ f with mem } : Framebuffer).pixel px py =
        if InRounded x.toNat y.toNat w.toNat h.toNat (min radius.toNat (min (w.toNat / 2) (h.toNat / 2))) px py
        then color else f.pixel px py := by
  have hclamp := clampRadius_toNat w h radius
  rw [← hclamp] at hr ⊢
  unfold fillRoundedRect
  dsimp only
  generalize clampRadius w h radius = r at hr hclamp ⊢
  have hrw : r.toNat ≤ w.toNat / 2 := by omega
  have hrh : r.toNat ≤ h.toNat / 2 := by omega
  have hpaint : f.Paints _ _ := hf.bind (hf.fillRect_paints (x + r) y (w - 2 * r) h color) fun _ hf₁ _ _ =>
    hf₁.bind (hf₁.fillRect_paints x (y + r) r (h - 2 * r) color) fun _ hf₂ _ _ =>
      hf₂.bind (hf₂.fillRect_paints (x + w - r) (y + r) r (h - 2 * r) color) fun _ hf₃ _ _ =>
        hf₃.corners_paint hx hy hr hrw hrh color
  obtain ⟨mem, heq, hview⟩ := hpaint.result
  refine ⟨mem, heq, ?_⟩
  intro px py hpx hpy
  rw [hview px py hpx hpy, solid_layer_solid, solid_layer_solid, solid_layer_solid]
  refine getD_solid ?_ _ _
  obtain ⟨hx₁, hx₂, hx₃, hx₄⟩ := strip_ends hx hrw
  obtain ⟨hy₁, hy₂, -, -⟩ := strip_ends hy hrh
  rw [inRounded_iff hrw hrh, hx₁, hx₂, hx₃, hx₄, hy₁, hy₂, toNat_add_of_lt hy]
  rfl

/-- A disc at the right side of the screen: a point of it, one in its corner, and one behind the
side. -/
theorem rounded_rect_disc : ∃ mem, blackScreen.fillRoundedRect 790 200 20 20 10 7 = some { blackScreen with mem } ∧
    ({ blackScreen with mem } : Framebuffer).pixel 790 210 = 7 ∧ ({ blackScreen with mem } : Framebuffer).pixel 790 200 = 0 ∧
    ({ blackScreen with mem } : Framebuffer).pixel 0 211 = 0 := by
  obtain ⟨mem, heq, hview⟩ := rounded_rect blackScreen_roomy 790 200 20 20 10 7 (by decide) (by decide) (by decide)
  refine ⟨mem, heq, ?_, ?_, ?_⟩
  · exact (hview 790 210 (by decide) (by decide)).trans (if_pos (by decide))
  · exact (hview 790 200 (by decide) (by decide)).trans ((if_neg (by decide)).trans (blackScreen_pixel 790 200))
  · exact (hview 0 211 (by decide) (by decide)).trans ((if_neg (by decide)).trans (blackScreen_pixel 0 211))

end Framebuffer

end DahleOS
