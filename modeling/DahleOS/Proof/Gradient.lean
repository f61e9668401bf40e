import DahleOS.Lib.Interpolation
import DahleOS.Lib.MachineWord
import DahleOS.Proof.Pixels

/-!
# Gradients

Three channels, each interpolated by two divisions and packed into a colour again.

* `gradientChannel_toNat`, `gradientColor_channel`: a channel of a line is a place of a walk
  from the one end value to the other.
* `gradientColor_gradient`: the law of a gradient.
* `gradients`: what the two functions paint.
-/

namespace DahleOS

namespace Framebuffer

open Interpolation MachineWord Painting

variable {f : Framebuffer} {a b t c c₀ c₁ denom i len : UInt32}

/-! ## Channels -/

inductive Channel
  | red
  | green
  | blue

namespace Channel

def shift : Channel → UInt32
  | red => 16
  | green => 8
  | blue => 0

/-- A channel of a colour. -/
def of (ch : Channel) (c : UInt32) : UInt32 := (c >>> ch.shift) &&& 0xFF

theorem shift_lt (ch : Channel) : ch.shift.toNat < 32 := by cases ch <;> decide

theorem of_toNat (ch : Channel) (c : UInt32) : (ch.of c).toNat = c.toNat / 2 ^ ch.shift.toNat % 256 := by
  have hmask : (0xFF : UInt32).toNat = 2 ^ 8 - 1 := rfl
  rw [of, UInt32.toNat_and, hmask, Nat.and_two_pow_sub_one_eq_mod, UInt32.toNat_shiftRight,
    Nat.mod_eq_of_lt ch.shift_lt, Nat.shiftRight_eq_div_pow]

theorem of_le (ch : Channel) (c : UInt32) : (ch.of c).toNat ≤ 255 := by
  rw [of_toNat]
  omega

theorem blue_of (c : UInt32) : blue.of c = c &&& 0xFF := by
  refine congrArg (· &&& (0xFF : UInt32)) ?_
  exact UInt32.shiftRight_zero

end Channel

/-- **Channels do not carry** into each other. -/
theorem pack_toNat {r g b : UInt32} (hr : r.toNat ≤ 255) (hg : g.toNat ≤ 255) (hb : b.toNat ≤ 255) :
    ((r <<< 16) ||| (g <<< 8) ||| b).toNat = r.toNat * 65536 + g.toNat * 256 + b.toNat := by
  have hshift {v s : UInt32} (hs : s.toNat ≤ 16) (hv : v.toNat ≤ 255) : (v <<< s).toNat = v.toNat <<< s.toNat := by
    have hlt : v.toNat <<< s.toNat < 2 ^ 32 := by
      rw [Nat.shiftLeft_eq]
      calc v.toNat * 2 ^ s.toNat ≤ 255 * 2 ^ 16 := Nat.mul_le_mul hv (Nat.pow_le_pow_right (by omega) hs)
        _ < 2 ^ 32 := by omega
    rw [UInt32.toNat_shiftLeft, Nat.mod_eq_of_lt (show s.toNat < 32 by omega), Nat.mod_eq_of_lt hlt]
  have hsixteen : (16 : UInt32).toNat = 8 + 8 := rfl
  have height : (8 : UInt32).toNat = 8 := rfl
  rw [UInt32.toNat_or, UInt32.toNat_or, hshift (by decide) hr, hshift (by decide) hg, hsixteen, height,
    Nat.shiftLeft_add, ← Nat.shiftLeft_or_distrib, ← Nat.shiftLeft_add_eq_or_of_lt (show g.toNat < 2 ^ 8 by omega),
    ← Nat.shiftLeft_add_eq_or_of_lt (show b.toNat < 2 ^ 8 by omega), Nat.shiftLeft_eq, Nat.shiftLeft_eq]
  omega

/-- A colour is made of its channels. -/
theorem color_ext {c d : UInt32} (hc : c.toNat < 2 ^ 24) (hd : d.toNat < 2 ^ 24) (h : ∀ ch : Channel, ch.of c = ch.of d) :
    c = d := by
  have hchannel (ch : Channel) : c.toNat / 2 ^ ch.shift.toNat % 256 = d.toNat / 2 ^ ch.shift.toNat % 256 := by
    rw [← ch.of_toNat, ← ch.of_toNat, h]
  have hred : c.toNat / 65536 % 256 = d.toNat / 65536 % 256 := hchannel .red
  have hgreen : c.toNat / 256 % 256 = d.toNat / 256 % 256 := hchannel .green
  have hblue : c.toNat / 1 % 256 = d.toNat / 1 % 256 := hchannel .blue
  exact UInt32.toNat_inj.1 (by omega)

/-- The low 24 bits keep the channels. -/
theorem low_channels (c : UInt32) : (c &&& 0xFFFFFF).toNat < 2 ^ 24 ∧ ∀ ch : Channel, ch.of (c &&& 0xFFFFFF) = ch.of c := by
  have hmask : (0xFFFFFF : UInt32).toNat = 2 ^ 24 - 1 := rfl
  have hmod : (c &&& 0xFFFFFF).toNat = c.toNat % 2 ^ 24 := by
    rw [UInt32.toNat_and, hmask, Nat.and_two_pow_sub_one_eq_mod]
  refine ⟨by omega, fun ch => UInt32.toNat_inj.1 ?_⟩
  rw [ch.of_toNat, ch.of_toNat, hmod]
  cases ch with
  | red =>
    show c.toNat % 2 ^ 24 / 65536 % 256 = c.toNat / 65536 % 256
    omega
  | green =>
    show c.toNat % 2 ^ 24 / 256 % 256 = c.toNat / 256 % 256
    omega
  | blue =>
    show c.toNat % 2 ^ 24 / 1 % 256 = c.toNat / 1 % 256
    omega

/-! ## The colour of a line -/

/-- **One channel**: the arithmetic does not overflow. -/
theorem gradientChannel_toNat (ha : a.toNat ≤ 255) (hb : b.toNat ≤ 255) (ht : t.toNat ≤ 255) :
    (gradientChannel a b t).toNat = mix 255 a.toNat b.toNat t.toNat := by
  have hfull : (255 : UInt32).toNat = 255 := rfl
  have hrest : (255 - t).toNat = 255 - t.toNat := by
    rw [UInt32.toNat_sub_of_le _ _ (UInt32.le_iff_toNat_le.2 ht), hfull]
  have hleft : a.toNat * (255 - t.toNat) ≤ 255 * 255 := Nat.mul_le_mul ha (Nat.sub_le _ _)
  have hright : b.toNat * t.toNat ≤ 255 * 255 := Nat.mul_le_mul hb ht
  have hmul₁ : (a * (255 - t)).toNat = a.toNat * (255 - t.toNat) := by
    rw [toNat_mul_of_lt (by rw [hrest]; omega), hrest]
  have hmul₂ : (b * t).toNat = b.toNat * t.toNat := toNat_mul_of_lt (by omega)
  rw [gradientChannel, UInt32.toNat_div, hfull, toNat_add_of_lt (by omega), hmul₁, hmul₂, mix]

/-- The weight of a line. -/
theorem weight_toNat (hi : i.toNat ≤ 65535) : (i * 255 / denom).toNat = i.toNat * 255 / denom.toNat := by
  have hfull : (255 : UInt32).toNat = 255 := rfl
  rw [UInt32.toNat_div, toNat_mul_of_lt (by rw [hfull]; omega), hfull]

theorem gradientDenom_toNat (len : UInt32) : (gradientDenom len).toNat = max 1 (len.toNat - 1) := by
  have hone : (1 : UInt32).toNat = 1 := rfl
  unfold gradientDenom
  split
  next hlt =>
    rw [UInt32.lt_iff_toNat_lt] at hlt
    rw [UInt32.toNat_sub_of_le _ _ (UInt32.le_iff_toNat_le.2 (by omega))]
    omega
  next hle =>
    rw [UInt32.lt_iff_toNat_lt] at hle
    omega

/-- A channel of a line is a place of the walk between the end values. -/
theorem gradientColor_channel (c₀ c₁ : UInt32) (hi : i.toNat ≤ 65535) (hd : i.toNat ≤ denom.toNat) (ch : Channel) :
    (ch.of (gradientColor c₀ c₁ denom i)).toNat = ramp 255 (ch.of c₀).toNat (ch.of c₁).toNat denom.toNat i.toNat ∧
      (gradientColor c₀ c₁ denom i).toNat < 2 ^ 24 := by
  have hweight : (i * 255 / denom).toNat = i.toNat * 255 / denom.toNat := weight_toNat hi
  have hle := weight_le (n := 255) hd
  have hramp (ch : Channel) : (gradientChannel (ch.of c₀) (ch.of c₁) (i * 255 / denom)).toNat =
      ramp 255 (ch.of c₀).toNat (ch.of c₁).toNat denom.toNat i.toNat := by
    rw [gradientChannel_toNat (ch.of_le c₀) (ch.of_le c₁) (by omega), hweight, ramp]
  have hbound (ch : Channel) : (gradientChannel (ch.of c₀) (ch.of c₁) (i * 255 / denom)).toNat ≤ 255 := by
    have hmax := (ramp_between (a := (ch.of c₀).toNat) (b := (ch.of c₁).toNat) (show 0 < 255 by omega) hd).2
    have h₀ := ch.of_le c₀
    have h₁ := ch.of_le c₁
    rw [hramp]
    omega
  -- the packed colour, with the three channels as numbers
  have hblue : gradientChannel (c₀ &&& 0xFF) (c₁ &&& 0xFF) (i * 255 / denom) =
      gradientChannel (Channel.blue.of c₀) (Channel.blue.of c₁) (i * 255 / denom) := by
    rw [Channel.blue_of, Channel.blue_of]
  have hpack : (gradientColor c₀ c₁ denom i).toNat = _ :=
    pack_toNat (hbound .red) (hbound .green) (by rw [hblue]; exact hbound .blue)
  rw [hblue, hramp .blue] at hpack
  have hr := hbound .red
  have hg := hbound .green
  have hb := hbound .blue
  rw [hramp] at hr hg hb
  change (gradientColor c₀ c₁ denom i).toNat = (gradientChannel (Channel.red.of c₀) (Channel.red.of c₁) _).toNat * 65536 +
    (gradientChannel (Channel.green.of c₀) (Channel.green.of c₁) _).toNat * 256 + _ at hpack
  rw [hramp, hramp] at hpack
  refine ⟨?_, by omega⟩
  rw [ch.of_toNat]
  cases ch with
  | red =>
    change (gradientColor c₀ c₁ denom i).toNat / 65536 % 256 = _
    omega
  | green =>
    change (gradientColor c₀ c₁ denom i).toNat / 256 % 256 = _
    omega
  | blue =>
    change (gradientColor c₀ c₁ denom i).toNat / 1 % 256 = _
    omega

/-! ## The law -/

/-- **A gradient** from one colour to another over `len` lines, the first `n` of which are drawn. -/
structure Gradient (c₀ c₁ : UInt32) (len n : ℕ) (colour : ℕ → UInt32) : Prop where
  first : 0 < n → colour 0 = c₀ &&& 0xFFFFFF
  last : 2 ≤ len → n = len → colour (len - 1) = c₁ &&& 0xFFFFFF
  /-- The channels are all there is. -/
  low : ∀ i < n, (colour i).toNat < 2 ^ 24
  rising : ∀ ch : Channel, ch.of c₀ ≤ ch.of c₁ → ∀ i j, i ≤ j → j < n → ch.of (colour i) ≤ ch.of (colour j)
  falling : ∀ ch : Channel, ch.of c₁ ≤ ch.of c₀ → ∀ i j, i ≤ j → j < n → ch.of (colour j) ≤ ch.of (colour i)
  between : ∀ ch : Channel, ∀ i < n, min (ch.of c₀).toNat (ch.of c₁).toNat ≤ (ch.of (colour i)).toNat ∧
    (ch.of (colour i)).toNat ≤ max (ch.of c₀).toNat (ch.of c₁).toNat

/-- **The colours of the lines** obey the law, as many as fit on 65535. -/
theorem gradientColor_gradient {n : ℕ} (hn : n ≤ 65535) (hlen : n ≤ len.toNat) : Gradient c₀ c₁ len.toNat n
    fun i => gradientColor c₀ c₁ (gradientDenom len) (UInt32.ofNat i) := by
  have hdenom := gradientDenom_toNat len
  have hval {i : ℕ} (hi : i < n) : (UInt32.ofNat i).toNat = i := UInt32.toNat_ofNat_of_lt' (show i < 2 ^ 32 by omega)
  have hline {i : ℕ} (hi : i < n) (ch : Channel) :
      (ch.of (gradientColor c₀ c₁ (gradientDenom len) (UInt32.ofNat i))).toNat =
          ramp 255 (ch.of c₀).toNat (ch.of c₁).toNat (gradientDenom len).toNat i ∧
        (gradientColor c₀ c₁ (gradientDenom len) (UInt32.ofNat i)).toNat < 2 ^ 24 := by
    have hweight : (UInt32.ofNat i).toNat ≤ (gradientDenom len).toNat := by
      rw [hval hi]
      omega
    have hline := gradientColor_channel c₀ c₁ (by rw [hval hi]; omega) hweight ch
    rwa [hval hi] at hline
  -- an end is exact when each of its channels is
  have hend {i : ℕ} {c : UInt32} (hi : i < n)
      (h : ∀ ch : Channel, ramp 255 (ch.of c₀).toNat (ch.of c₁).toNat (gradientDenom len).toNat i = (ch.of c).toNat) :
      gradientColor c₀ c₁ (gradientDenom len) (UInt32.ofNat i) = c &&& 0xFFFFFF := by
    obtain ⟨hlow, hchannels⟩ := low_channels c
    refine color_ext (hline hi .red).2 hlow fun ch => UInt32.toNat_inj.1 ?_
    rw [(hline hi ch).1, h, hchannels]
  constructor
  case first =>
    intro h
    exact hend h fun ch => ramp_zero (by omega)
  case last =>
    rintro h rfl
    refine hend (by omega) fun ch => ?_
    rw [hdenom, max_eq_right (by omega)]
    exact ramp_end (by omega) (by omega)
  case low => exact fun i hi => (hline hi .red).2
  case rising =>
    intro ch hch i j hij hj
    rw [UInt32.le_iff_toNat_le] at hch ⊢
    rw [(hline (by omega) ch).1, (hline hj ch).1]
    exact ramp_mono hch hij (by omega)
  case falling =>
    intro ch hch i j hij hj
    rw [UInt32.le_iff_toNat_le] at hch ⊢
    rw [(hline hj ch).1, (hline (by omega) ch).1]
    exact ramp_anti hch hij (by omega)
  case between =>
    intro ch i hi
    rw [(hline hi ch).1]
    exact ramp_between (by omega) (by omega)

/-! ## The lines -/

/-- The lines that are drawn are those before the limit. -/
theorem takeWhile_range' {p : ℕ → Bool} {m : ℕ} (n : ℕ) : ∀ a, (∀ i, a ≤ i → i < a + n → (p i = true ↔ i < m)) →
    (List.range' a n).takeWhile p = List.range' a (min n (m - a)) := by
  induction n with
  | zero =>
    intro a _
    rw [Nat.zero_min]
    rfl
  | succ n ih =>
    intro a h
    rw [List.range'_succ]
    by_cases ha : a < m
    · have hmin : min (n + 1) (m - a) = min n (m - (a + 1)) + 1 := by omega
      rw [List.takeWhile_cons_of_pos ((h a le_rfl (by omega)).2 ha), hmin, List.range'_succ]
      rw [ih (a + 1) fun i hlo hhi => h i (by omega) (by omega)]
    · have hmin : min (n + 1) (m - a) = 0 := by omega
      rw [List.takeWhile_cons_of_neg (mt (h a le_rfl (by omega)).1 ha), hmin]
      rfl

theorem clipped_eq {start len limit : UInt32} (h : start.toNat + len.toNat < 2 ^ 32) :
    clipped start len limit = upTo 0 (min len.toNat (limit.toNat - start.toNat)) := by
  unfold clipped upTo
  rw [List.takeWhile_map, takeWhile_range' (m := limit.toNat - start.toNat) _ 0, Nat.sub_zero, Nat.sub_zero, Nat.sub_zero]
  intro i _ hi
  have hval : (UInt32.ofNat i).toNat = i := UInt32.toNat_ofNat_of_lt' (show i < 2 ^ 32 by omega)
  rw [Function.comp_apply, decide_eq_true_iff, UInt32.lt_iff_toNat_lt, toNat_add_of_lt (by omega), hval]
  omega

/-- A list of lines, each in its colour, fills the rectangle. `S` is the set of a line and `k` the
line of a point. -/
theorem stack_lines {S : UInt32 → Set (ℕ × ℕ)} {colour : UInt32 → UInt32} {m k : ℕ} {p : ℕ × ℕ} {P : Prop} [Decidable P]
    (hm : m ≤ 2 ^ 32) (hS : ∀ i : UInt32, i.toNat < m → (p ∈ S i ↔ P ∧ i.toNat = k)) (hP : P → k < m) (v : UInt32) :
    (stack (fun i => solid (S i) (colour i)) (upTo 0 m) p).getD v = if P then colour (UInt32.ofNat k) else v := by
  by_cases hp : P
  · obtain ⟨i, hi, heq⟩ := (exists_upTo (P := (· = k)) hm).2 ⟨k, ⟨Nat.zero_le k, hP hp⟩, rfl⟩
    have hk : UInt32.ofNat k = i := by rw [← heq, UInt32.ofNat_toNat]
    have hin : p ∈ S i := (hS i ((mem_upTo hm).1 hi).2).2 ⟨hp, heq⟩
    rw [if_pos hp, stack_of_mem hi hin, hk, Option.getD_some]
    intro i' hi' hin'
    have heq' := ((hS i' ((mem_upTo hm).1 hi').2).1 hin').2
    exact UInt32.toNat_inj.1 (heq'.trans heq.symm)
  · rw [if_neg hp, stack_none, Option.getD_none]
    intro i hi
    exact solid_of_notMem fun hin => hp ((hS i ((mem_upTo hm).1 hi).2).1 hin).1

/-- One column of `screen_fill_gradient_h`. -/
theorem Roomy.column_paints (hf : f.Roomy) (rx y h color : UInt32) :
    f.Paints ((upTo y.toNat (min (y + h).toNat f.h.toNat)).foldlM (fun f ry => f.putPixel rx ry color) f)
      (solid (box rx.toNat (rx.toNat + 1) y.toNat (y + h).toNat) color) := by
  have hlimit : min (y + h).toNat f.h.toNat ≤ 2 ^ 32 := (min_le_right _ _).trans f.h.toNat_lt.le
  have hloop : f.Paints ((upTo y.toNat (min (y + h).toNat f.h.toNat)).foldlM (fun f ry => f.putPixel rx ry color) f) _ :=
    hf.fill_upTo (S := fun n => {(rx.toNat, n)}) hlimit fun ry _ _ _ hf' _ _ => hf'.putPixel_paints rx ry color
  refine hloop.congr ?_
  rintro ⟨px, py⟩ ⟨-, hpy⟩
  refine solid_congr ?_
  simp only [mem_box, Set.mem_ofPred_eq, Set.mem_singleton_iff, Prod.mk.injEq]
  constructor
  · rintro ⟨n, hn, rfl, rfl⟩
    omega
  · intro hin
    exact ⟨py, by omega⟩

/-! ## The two functions -/

theorem gradient_v (hf : f.Roomy) (hsize : f.h.toNat ≤ 65535) (x y w h c₀ c₁ : UInt32) (hx : x.toNat + w.toNat < 2 ^ 32)
    (hy : y.toNat + h.toNat < 2 ^ 32) : ∃ mem colour, f.fillGradientV x y w h c₀ c₁ = some { f with mem } ∧
      Gradient c₀ c₁ h.toNat (min h.toNat (f.h.toNat - y.toNat)) colour ∧
      ∀ px py, px < f.w.toNat → py < f.h.toNat → ({ f with mem } : Framebuffer).pixel px py =
        if x.toNat ≤ px ∧ px < x.toNat + w.toNat ∧ y.toNat ≤ py ∧ py < y.toNat + h.toNat
        then colour (py - y.toNat) else f.pixel px py := by
  have hlimit : min h.toNat (f.h.toNat - y.toNat) ≤ 2 ^ 32 := (min_le_left _ _).trans h.toNat_lt.le
  have hline {cy : UInt32} (hcy : cy.toNat < min h.toNat (f.h.toNat - y.toNat)) :
      (y + cy).toNat = y.toNat + cy.toNat := toNat_add_of_lt (by omega)
  have hpaint : f.Paints (f.fillGradientV x y w h c₀ c₁) _ := hf.foldlM fun cy hcy f' hf' _ hh => by
    rw [clipped_eq hy] at hcy
    have hin := ((mem_upTo hlimit).1 hcy).2
    exact hf'.fillRow_paints (show (y + cy).toNat < f'.h.toNat by rw [hline hin, hh]; omega) x w _
  obtain ⟨mem, heq, hview⟩ := hpaint.result
  refine ⟨mem, _, heq, gradientColor_gradient (by omega) (min_le_left _ _), ?_⟩
  intro px py hpx hpy
  rw [hview px py hpx hpy, clipped_eq hy]
  refine stack_lines hlimit ?_ (fun hin => by omega) _
  intro cy hcy
  rw [mem_box, hline hcy, toNat_add_of_lt hx]
  omega

theorem gradient_h (hf : f.Roomy) (hsize : f.w.toNat ≤ 65535) (x y w h c₀ c₁ : UInt32) (hx : x.toNat + w.toNat < 2 ^ 32)
    (hy : y.toNat + h.toNat < 2 ^ 32) : ∃ mem colour, f.fillGradientH x y w h c₀ c₁ = some { f with mem } ∧
      Gradient c₀ c₁ w.toNat (min w.toNat (f.w.toNat - x.toNat)) colour ∧
      ∀ px py, px < f.w.toNat → py < f.h.toNat → ({ f with mem } : Framebuffer).pixel px py =
        if x.toNat ≤ px ∧ px < x.toNat + w.toNat ∧ y.toNat ≤ py ∧ py < y.toNat + h.toNat
        then colour (px - x.toNat) else f.pixel px py := by
  have hlimit : min w.toNat (f.w.toNat - x.toNat) ≤ 2 ^ 32 := (min_le_left _ _).trans w.toNat_lt.le
  have hline {cx : UInt32} (hcx : cx.toNat < min w.toNat (f.w.toNat - x.toNat)) :
      (x + cx).toNat = x.toNat + cx.toNat := toNat_add_of_lt (by omega)
  have hpaint : f.Paints (f.fillGradientH x y w h c₀ c₁) _ := hf.foldlM fun cx _ _ hf' _ _ =>
    hf'.column_paints (x + cx) y h _
  obtain ⟨mem, heq, hview⟩ := hpaint.result
  refine ⟨mem, _, heq, gradientColor_gradient (by omega) (min_le_left _ _), ?_⟩
  intro px py hpx hpy
  rw [hview px py hpx hpy, clipped_eq hx]
  refine stack_lines hlimit ?_ (fun hin => by omega) _
  intro cx hcx
  rw [mem_box, hline hcx, toNat_add_of_lt hy]
  omega

/-- **Both functions paint a gradient.** On every framebuffer of at most 65535 by 65535 pixels
and for every rectangle that ends below 2^32: the pixels of the rectangle get the colour of
their row, or of their column, and no other pixel changes. -/
theorem gradients (hf : f.Roomy) (hfw : f.w.toNat ≤ 65535) (hfh : f.h.toNat ≤ 65535) (x y w h c₀ c₁ : UInt32)
    (hx : x.toNat + w.toNat < 2 ^ 32) (hy : y.toNat + h.toNat < 2 ^ 32) :
    (∃ mem colour, f.fillGradientV x y w h c₀ c₁ = some { f with mem } ∧
      Gradient c₀ c₁ h.toNat (min h.toNat (f.h.toNat - y.toNat)) colour ∧
      ∀ px py, px < f.w.toNat → py < f.h.toNat → ({ f with mem } : Framebuffer).pixel px py =
        if x.toNat ≤ px ∧ px < x.toNat + w.toNat ∧ y.toNat ≤ py ∧ py < y.toNat + h.toNat
        then colour (py - y.toNat) else f.pixel px py) ∧
    ∃ mem colour, f.fillGradientH x y w h c₀ c₁ = some { f with mem } ∧
      Gradient c₀ c₁ w.toNat (min w.toNat (f.w.toNat - x.toNat)) colour ∧
      ∀ px py, px < f.w.toNat → py < f.h.toNat → ({ f with mem } : Framebuffer).pixel px py =
        if x.toNat ≤ px ∧ px < x.toNat + w.toNat ∧ y.toNat ≤ py ∧ py < y.toNat + h.toNat
        then colour (px - x.toNat) else f.pixel px py :=
  ⟨gradient_v hf hfh x y w h c₀ c₁ hx hy, gradient_h hf hfw x y w h c₀ c₁ hx hy⟩

/-- From red to blue, and the column before. -/
theorem gradients_red_blue : ∃ mem, blackScreen.fillGradientV 10 20 30 40 0xFF0000 0x0000FF = some { blackScreen with mem } ∧
    ({ blackScreen with mem } : Framebuffer).pixel 10 20 = 0xFF0000 ∧
    ({ blackScreen with mem } : Framebuffer).pixel 39 59 = 0x0000FF ∧
    ({ blackScreen with mem } : Framebuffer).pixel 9 20 = 0 := by
  obtain ⟨mem, colour, heq, hcolour, hview⟩ := (gradients blackScreen_roomy (by decide) (by decide) 10 20 30 40 0xFF0000
    0x0000FF (by decide) (by decide)).1
  refine ⟨mem, heq, ?_, ?_, ?_⟩
  · exact (hview 10 20 (by decide) (by decide)).trans ((if_pos (by decide)).trans (hcolour.first (by decide)))
  · exact (hview 39 59 (by decide) (by decide)).trans ((if_pos (by decide)).trans (hcolour.last (by decide) (by decide)))
  · exact (hview 9 20 (by decide) (by decide)).trans ((if_neg (by decide)).trans (blackScreen_pixel 9 20))

end Framebuffer

end DahleOS
