import DahleOS.Lib.Tokens
import DahleOS.Model.Desktop
import DahleOS.Proof.ConsolePicture
import DahleOS.Proof.Gradient
import DahleOS.Proof.Numerals
import DahleOS.Proof.Widgets

/-!
# The desktop shows the windows

The windows are tokens on a grid, each with its own limits, and the screen is a picture of
them: whatever was drawn before, a redraw covers it.

* `Windows`, `Scene`, `Wm`: the window manager without a screen.
* `press_shows`: Tab and the arrows move the focused token.
* `redraw_paints`: what a redraw paints, and that it paints everywhere.
* `ShownBy.step`: one key.
* `desktop_refines`: every sequence of keys.
-/

namespace DahleOS

namespace Dahle

open CArray Framebuffer Gui MachineWord Painting PartialRun Screen

/-! ## Windows on a grid -/

inductive Axis
  | x
  | y
  deriving DecidableEq

instance : Fintype Axis := ⟨{.x, .y}, fun a => by cases a <;> simp⟩

/-- The number of steps that a window can go. -/
def gridLimit : Axis → Fin 3 → ℕ
  | .x, i => if i.val = 2 then 99 else 98
  | .y, _ => 69

/-- The first column and row of a window's grid. -/
def gridBase : Axis → Fin 3 → ℕ
  | .x, i => if i.val = 2 then 2 else 6
  | .y, _ => 6

/-- Where the windows are, in steps of `MOVE_STEP`. -/
abbrev Windows := Tokens Axis 3 gridLimit

/-- The first pixel of a window. -/
def Windows.coord (t : Windows) (a : Axis) (i : Fin 3) : ℕ := gridBase a i + 8 * t.pos a i

def startPos : Axis → Fin 3 → ℕ
  | .x, i => if i.val = 0 then 3 else if i.val = 1 then 43 else 76
  | .y, _ => 8

theorem zero_lt_three : 0 < 3 := by decide

theorem startPos_le : ∀ a i, startPos a i ≤ gridLimit a i := by decide

/-- The windows as `cmd_dahle` places them. -/
def Windows.start : Windows := ⟨⟨0, zero_lt_three⟩, startPos, startPos_le⟩

/-- What a key means. -/
def moveOf (c : UInt8) : Option (Move Axis) :=
  if c = 9 then some .next
  else if c = 0x11 then some (.back .y)
  else if c = 0x12 then some (.ahead .y)
  else if c = 0x13 then some (.back .x)
  else if c = 0x14 then some (.ahead .x)
  else none

def Windows.press (t : Windows) (c : UInt8) : Windows := (moveOf c).elim t t.step

/-- The arrays hold the coordinates of the windows. -/
structure Desk.Shows (d : Desk) (t : Windows) : Prop where
  focus : d.wfocus.toInt = t.focus.val
  x : ∀ i, (d.wposX i).toNat = t.coord .x i
  y : ∀ i, (d.wposY i).toNat = t.coord .y i

variable {d : Desk} {t : Windows} {wpos : Fin 3 → UInt32} {wfocus : Int32}

/-- The windows stay on the screen. -/
theorem coord_bounds (t : Windows) (i : Fin 3) :
    (2 ≤ t.coord .x i ∧ t.coord .x i < 798) ∧ 2 ≤ t.coord .y i ∧ t.coord .y i < 560 := by
  have hx := t.le .x i
  have hy := t.le .y i
  unfold Windows.coord
  unfold gridLimit at hx hy
  unfold gridBase
  dsimp only at hx hy ⊢
  split at hx
  next h => rw [if_pos h]; omega
  next h => rw [if_neg h]; omega

/-- The coordinates after a token is placed. -/
theorem coord_place {a : Axis} {i : Fin 3} {v : ℕ} (hv : v ≤ gridLimit a i) (b : Axis) (j : Fin 3) :
    Windows.coord (t.place a i v hv) b j = if b = a ∧ j = i then gridBase a i + 8 * v else t.coord b j := by
  unfold Windows.coord Tokens.place Tokens.placed
  dsimp only
  split
  next heq => rw [heq.1, heq.2]
  next => rfl

/-- The coordinates after a step back. -/
theorem coord_back (t : Windows) (a b : Axis) (i : Fin 3) : Windows.coord (t.step (.back a)) b i =
    if b = a ∧ i = t.focus then gridBase a t.focus + 8 * (t.pos a t.focus - 1) else t.coord b i :=
  coord_place (t.pred_le a t.focus) b i

/-- The coordinates after a step ahead. -/
theorem coord_ahead (t : Windows) (a b : Axis) (i : Fin 3) : Windows.coord (t.step (.ahead a)) b i =
    if b = a ∧ i = t.focus then gridBase a t.focus + 8 * min (t.pos a t.focus + 1) (gridLimit a t.focus) else t.coord b i :=
  coord_place (Nat.min_le_right _ _) b i

theorem gridBase_cases (a : Axis) (i : Fin 3) : gridBase a i = 2 ∨ gridBase a i = 6 := by
  cases a with
  | x => exact ite_eq_or_eq _ _ _
  | y => exact .inr rfl

/-- **A step back**, which stays at the first place of the line. -/
theorem moveDown_shows (a : Axis) (hfocus : wfocus.toInt = t.focus.val) (hpos : ∀ i, (wpos i).toNat = t.coord a i) :
    ∃ wpos', moveDown wpos wfocus = some wpos' ∧ ∀ i, (wpos' i).toNat = Windows.coord (t.step (.back a)) a i := by
  have hstep : (moveStep + 2).toNat = 10 := rfl
  have height : moveStep.toNat = 8 := rfl
  have hbase := gridBase_cases a t.focus
  have hv : (wpos t.focus).toNat = gridBase a t.focus + 8 * t.pos a t.focus := hpos t.focus
  unfold moveDown
  rw [hfocus, rd_val, Option.bind_eq_bind, Option.bind_some]
  split
  next hle =>
    rw [UInt32.le_iff_toNat_le, hstep] at hle
    refine ⟨_, wr_val .., fun i => ?_⟩
    rw [coord_back]
    by_cases hi : i = t.focus
    · rw [if_pos ⟨rfl, hi⟩, hi, Function.update_self, UInt32.toNat_sub_of_le _ _ (UInt32.le_iff_toNat_le.2 (by omega)), height]
      omega
    · rw [if_neg fun h => hi h.2, Function.update_of_ne hi, hpos i]
  next hgt =>
    rw [UInt32.le_iff_toNat_le, hstep] at hgt
    refine ⟨wpos, rfl, fun i => ?_⟩
    rw [coord_back]
    by_cases hi : i = t.focus
    · rw [if_pos ⟨rfl, hi⟩, hi]
      omega
    · rw [if_neg fun h => hi h.2, hpos i]

/-- The bound that the code tests. -/
def stepLimit : Axis → UInt32
  | .x => 798
  | .y => 560

theorem stepLimit_iff (a : Axis) (i : Fin 3) (p : ℕ) :
    gridBase a i + 8 * p + 8 < (stepLimit a).toNat ↔ p + 1 ≤ gridLimit a i := by
  have hx : (stepLimit .x).toNat = 798 := rfl
  have hy : (stepLimit .y).toNat = 560 := rfl
  cases a with
  | x =>
    rw [hx]
    unfold gridBase gridLimit
    dsimp only
    split <;> omega
  | y =>
    rw [hy]
    unfold gridBase gridLimit
    dsimp only
    omega

/-- **A step ahead**, which stays at the last place of the line. -/
theorem moveUp_shows (a : Axis) (hfocus : wfocus.toInt = t.focus.val) (hpos : ∀ i, (wpos i).toNat = t.coord a i) :
    ∃ wpos', moveUp (stepLimit a) wpos wfocus = some wpos' ∧ ∀ i, (wpos' i).toNat = Windows.coord (t.step (.ahead a)) a i := by
  have height : moveStep.toNat = 8 := rfl
  have hle := t.le a t.focus
  have hiff := stepLimit_iff a t.focus (t.pos a t.focus)
  have hv : (wpos t.focus).toNat = gridBase a t.focus + 8 * t.pos a t.focus := hpos t.focus
  have hsmall : (wpos t.focus).toNat < 798 := by
    obtain ⟨hx, hy⟩ := coord_bounds t t.focus
    rw [hpos]
    cases a <;> omega
  have hsum : (wpos t.focus + moveStep).toNat = gridBase a t.focus + 8 * t.pos a t.focus + 8 := by
    rw [toNat_add_of_lt (by omega), hv, height]
  unfold moveUp
  rw [hfocus, rd_val, Option.bind_eq_bind, Option.bind_some]
  split
  next hlt =>
    rw [UInt32.lt_iff_toNat_lt, hsum, hiff] at hlt
    refine ⟨_, wr_val .., fun i => ?_⟩
    rw [coord_ahead]
    by_cases hi : i = t.focus
    · rw [if_pos ⟨rfl, hi⟩, hi, Function.update_self, hsum]
      omega
    · rw [if_neg fun h => hi h.2, Function.update_of_ne hi, hpos i]
  next hge =>
    rw [UInt32.lt_iff_toNat_lt, hsum, hiff] at hge
    refine ⟨wpos, rfl, fun i => ?_⟩
    rw [coord_ahead]
    by_cases hi : i = t.focus
    · rw [if_pos ⟨rfl, hi⟩, hi]
      omega
    · rw [if_neg fun h => hi h.2, hpos i]

/-- The focus goes round. -/
theorem focus_next {i : Fin 3} (h : wfocus.toInt = i.val) : ((wfocus + 1) % 3).toInt = (Tokens.nextOf i).val := by
  have hi := i.isLt
  have hone : (1 : Int32).toInt = 1 := rfl
  have hthree : (3 : Int32).toInt = 3 := rfl
  have hsum : (wfocus + 1).toInt = ((i.val + 1 : ℕ) : ℤ) := toInt_add_nat h hone (by omega)
  rw [Int32.toInt_mod, hsum, hthree, Int.tmod_eq_emod_of_nonneg (Int.natCast_nonneg _)]
  exact (Int.natCast_mod (i.val + 1) 3).symm

/-- **Tab and the arrows** do to the arrays what they do to the tokens. -/
theorem press_shows (hd : d.Shows t) (c : UInt8) : ∃ d', d.press c = some d' ∧ d'.Shows (t.press c) := by
  have hback (a b : Axis) (hab : b ≠ a) (i : Fin 3) : t.coord b i = Windows.coord (t.step (.back a)) b i := by
    rw [coord_back, if_neg fun h => hab h.1]
  have hahead (a b : Axis) (hab : b ≠ a) (i : Fin 3) : t.coord b i = Windows.coord (t.step (.ahead a)) b i := by
    rw [coord_ahead, if_neg fun h => hab h.1]
  unfold Desk.press Windows.press moveOf
  split
  next => exact ⟨_, rfl, focus_next hd.focus, hd.x, hd.y⟩
  split
  next =>
    obtain ⟨wposY, hmove, hy⟩ := moveDown_shows .y hd.focus hd.y
    rw [hmove]
    exact ⟨_, rfl, hd.focus, fun i => (hd.x i).trans (hback .y .x (by decide) i), hy⟩
  split
  next =>
    obtain ⟨wposY, hmove, hy⟩ := moveUp_shows .y hd.focus hd.y
    change moveUp 560 d.wposY d.wfocus = _ at hmove
    rw [hmove]
    exact ⟨_, rfl, hd.focus, fun i => (hd.x i).trans (hahead .y .x (by decide) i), hy⟩
  split
  next =>
    obtain ⟨wposX, hmove, hx⟩ := moveDown_shows .x hd.focus hd.x
    rw [hmove]
    exact ⟨_, rfl, hd.focus, hx, fun i => (hd.y i).trans (hback .x .y (by decide) i)⟩
  split
  next =>
    obtain ⟨wposX, hmove, hx⟩ := moveUp_shows .x hd.focus hd.x
    change moveUp 798 d.wposX d.wfocus = _ at hmove
    rw [hmove]
    exact ⟨_, rfl, hd.focus, hx, fun i => (hd.y i).trans (hahead .x .y (by decide) i)⟩
  next => exact ⟨d, rfl, hd⟩

/-! ## Texts -/

theorem length_decDigits_of_lt (fuel : ℕ) : ∀ {n k : ℕ}, n < 10 ^ k → (decDigits fuel n).length ≤ k := by
  induction fuel with
  | zero => exact fun _ => Nat.zero_le _
  | succ fuel ih =>
    intro n k hn
    cases n with
    | zero => exact Nat.zero_le _
    | succ n =>
      cases k with
      | zero => simp at hn
      | succ k =>
        have hrest := ih (n := (n + 1) / 10) (k := k) (by rw [Nat.pow_succ] at hn; omega)
        rw [decDigits_succ, List.length_append, List.length_singleton]
        omega

/-- A numeral fits into 12 bytes. -/
theorem intToStr_length (n : Int32) : (intToStr n).length ≤ 11 := by
  have hone : (str "0").length = 1 := by decide
  have hminus : (str "-").length = 1 := by decide
  unfold intToStr
  dsimp only
  split
  · omega
  · generalize (if n < 0 then -n else n) = m
    have hsign : (if n < 0 then str "-" else []).length ≤ 1 := by
      split
      · exact hminus.le
      · exact Nat.zero_le _
    have hdigits : (if 0 < m then decDigits 10 m.toInt.toNat else []).length ≤ 10 := by
      split
      · exact length_decDigits 10 _
      · exact Nat.zero_le _
    rw [List.length_append]
    omega

/-- A number of at most `k` digits. -/
theorem intToStr_small {u : UInt32} {k : ℕ} (hk : 1 ≤ k) (hu : u.toNat < 10 ^ k) (hsmall : u.toNat < 2 ^ 31) :
    (intToStr u.toInt32).length ≤ k := by
  have hone : (str "0").length = 1 := by decide
  have hval := toInt_toInt32 hsmall
  have hpos : ¬ u.toInt32 < 0 := by
    rw [Int32.lt_iff_toInt_lt, hval, Int32.toInt_zero]
    omega
  unfold intToStr
  dsimp only
  rw [if_neg hpos, if_neg hpos]
  split
  · omega
  · have hdigits := length_decDigits_of_lt 10 hu
    rw [hval, Int.toNat_natCast]
    split
    · exact hdigits
    · exact Nat.zero_le _

theorem intToStrIn_of_le {cap k : ℕ} {n : Int32} (h : (intToStr n).length ≤ k) (hk : k < cap) :
    intToStrIn cap n = some (intToStr n) := if_pos (by omega)

/-- **The time fits** into its arrays. -/
theorem uptime_fits (ticks : UInt32) : ∃ ustr, uptime ticks = some ustr ∧ ustr.length ≤ 13 := by
  have hlen := intToStr_length (ticks / 100).toInt32
  have hunit : (str " s").length = 2 := by decide
  have hfirst : strcat 20 [] (intToStr (ticks / 100).toInt32) = some (intToStr (ticks / 100).toInt32) :=
    if_pos (by rw [List.length_nil]; omega)
  refine ⟨intToStr (ticks / 100).toInt32 ++ str " s", ?_, by rw [List.length_append]; omega⟩
  unfold uptime
  rw [intToStrIn_of_le hlen (by omega), Option.bind_eq_bind, Option.bind_some, hfirst, Option.bind_some]
  exact if_pos (by omega)

/-- Texts that fit together. -/
theorem strcat_all {cap : ℕ} (l : List Str) : ∀ d : Str, d.length + (l.map List.length).sum < cap →
    l.foldlM (strcat cap) d = some (d ++ l.flatten) := by
  induction l with
  | nil =>
    intro d _
    rw [List.flatten_nil, List.append_nil]
    rfl
  | cons s l ih =>
    intro d h
    rw [List.map_cons, List.sum_cons] at h
    have hcat : strcat cap d s = some (d ++ s) := if_pos (by omega)
    rw [List.foldlM_cons, hcat, Option.bind_eq_bind, Option.bind_some, ih, List.flatten_cons, List.append_assoc]
    rw [List.length_append]
    omega

/-- So do those of the system monitor, up to the last tick that is counted. -/
theorem sysmonTexts_fit (ticks : UInt32) : ∃ texts, sysmonTexts ticks = some texts := by
  have hlt := ticks.toNat_lt
  have hhundred : (100 : UInt32).toNat = 100 := rfl
  have hsixty : (60 : UInt32).toNat = 60 := rfl
  have hsecs : (ticks / 100).toNat = ticks.toNat / 100 := UInt32.toNat_div ..
  have hmins : (ticks / 100 / 60).toNat = ticks.toNat / 100 / 60 := by rw [UInt32.toNat_div, hsecs, hsixty]
  have hhrs : (ticks / 100 / 60 / 60).toNat = ticks.toNat / 100 / 60 / 60 := by rw [UInt32.toNat_div, hmins, hsixty]
  have hs := intToStr_small (k := 5) (u := ticks / 100 / 60 / 60) (by omega) (by omega) (by omega)
  have hrest {u : UInt32} : (u % 60).toNat < 60 := by
    rw [UInt32.toNat_mod, hsixty]
    omega
  have ms := intToStr_small (k := 2) (u := ticks / 100 / 60 % 60) (by omega) (hrest.trans (by decide)) (hrest.trans (by decide))
  have ss := intToStr_small (k := 2) (u := ticks / 100 % 60) (by omega) (hrest.trans (by decide)) (hrest.trans (by decide))
  have hh : (str "h  ").length = 3 := by decide
  have hm : (str "m  ").length = 3 := by decide
  have hs' : (str "s").length = 1 := by decide
  have hts := intToStr_length ticks.toInt32
  unfold sysmonTexts
  simp only [intToStrIn_of_le hs (show 5 < 8 by omega), intToStrIn_of_le ms (show 2 < 8 by omega),
    intToStrIn_of_le ss (show 2 < 8 by omega), intToStrIn_of_le hts (show 11 < 12 by omega), Option.bind_eq_bind, Option.bind_some]
  rw [strcat_all]
  · exact ⟨_, rfl⟩
  · simp only [List.map_cons, List.map_nil, List.sum_cons, List.sum_nil, List.length_nil]
    omega

/-! ## Pictures -/

variable {f : Framebuffer} {P q : Painting (ℕ × ℕ) UInt32}

/-- The picture of a framebuffer is this painting, all of it. -/
def Looks (P : Painting (ℕ × ℕ) UInt32) (f : Framebuffer) : Prop :=
  ∀ px py, px < f.w.toNat → py < f.h.toNat → P (px, py) = some (f.pixel px py)

/-- The painting covers a screen. -/
def Covers (w h : UInt32) (P : Painting (ℕ × ℕ) UInt32) : Prop := ∀ px py, px < w.toNat → py < h.toNat → P (px, py) ≠ none

theorem Covers.layer {w h : UInt32} (hP : Covers w h P) (q : Painting (ℕ × ℕ) UInt32) : Covers w h (P.layer q) := by
  intro px py hx hy hnone
  exact hP px py hx hy (Option.or_eq_none_iff.1 hnone).2

/-- **What covers the screen** is all that is seen, whatever was there. -/
theorem looks_of_covers {r : Option Framebuffer} (hP : f.Paints r P) (hcover : Covers f.w f.h P) :
    ∃ mem, r = some { f with mem } ∧ Looks P { f with mem } := by
  obtain ⟨mem, hr, hview⟩ := hP.result
  refine ⟨mem, hr, ?_⟩
  intro px py hx hy
  obtain ⟨c, hc⟩ := Option.ne_none_iff_exists'.1 (hcover px py hx hy)
  rw [hview px py hx hy, hc, Option.getD_some]

/-- A drawing over a known picture. -/
theorem Looks.layer {r : Option Framebuffer} (hf : Looks P f) (hq : f.Paints r q) :
    ∃ mem, r = some { f with mem } ∧ Looks (P.layer q) { f with mem } := by
  obtain ⟨mem, hr, hview⟩ := hq.result
  refine ⟨mem, hr, ?_⟩
  intro px py hx hy
  rw [hview px py hx hy, Painting.layer, hf px py hx hy]
  cases q (px, py) with
  | none => rfl
  | some c => rfl

/-- Two framebuffers with one picture. -/
theorem Looks.same {g : Framebuffer} (hf : Looks P f) (hg : Looks P g) (hw : g.w = f.w) (hh : g.h = f.h) {px py : ℕ}
    (hx : px < f.w.toNat) (hy : py < f.h.toNat) : f.pixel px py = g.pixel px py :=
  Option.some.inj ((hf px py hx hy).symm.trans (hg px py (by rwa [hw]) (by rwa [hh])))

/-- What `gui_desktop` paints. -/
noncomputable def background (w h : UInt32) : Painting (ℕ × ℕ) UInt32 :=
  stack (fun cy : UInt32 => solid (box (0 : UInt32).toNat (0 + w).toNat (0 + cy).toNat ((0 + cy).toNat + 1))
    (gradientColor gcDesktopTop gcDesktopBot (gradientDenom h) cy)) (clipped 0 h h)

theorem mem_clipped {h cy : UInt32} : cy ∈ clipped 0 h h ↔ cy.toNat < h.toNat := by
  have hh := h.toNat_lt
  rw [clipped_eq (by rw [UInt32.toNat_zero]; omega), mem_upTo (by omega), UInt32.toNat_zero]
  omega

theorem background_paints (hf : f.Roomy) : f.Paints (desktop f) (background f.w f.h) :=
  hf.foldlM fun cy hcy f' hf' _ hh => by
    have hrow : (0 + cy).toNat < f'.h.toNat := by
      rw [UInt32.zero_add, hh]
      exact mem_clipped.1 hcy
    exact hf'.fillRow_paints hrow 0 f.w _

/-- The gradient is everywhere. -/
theorem background_covers (w h : UInt32) : Covers w h (background w h) := by
  intro px py hx hy
  have hval : (UInt32.ofNat py).toNat = py := UInt32.toNat_ofNat_of_lt' (show py < 2 ^ 32 by have := h.toNat_lt; omega)
  refine stack_covers (b := UInt32.ofNat py) (mem_clipped.2 (by rw [hval]; exact hy)) ?_
  rw [solid_of_mem]
  · exact Option.some_ne_none _
  · rw [mem_box, UInt32.zero_add, UInt32.zero_add, hval, UInt32.toNat_zero]
    omega

/-- The calls of one window. -/
def windowCalls (d : Desk) (ustr : Str) (i : Fin 3) : List PixelCall :=
  if i.val = 0 then sysinfoCalls (d.wposX i) (d.wposY i) (d.wfocus = 0) ustr
  else if i.val = 1 then welcomeWindow (d.wposX i) (d.wposY i) (d.wfocus = 1)
  else controlsWindow (d.wposX i) (d.wposY i) (d.wfocus = 2)

/-- The calls before and behind those of the windows. -/
def barCalls (w h : UInt32) : List PixelCall :=
  statusbar w h (some (str "DahleOS  v2.3.0")) (some (str "Tab  Arrows  ESC  S+ESC"))

def hintCalls (w h : UInt32) : List PixelCall :=
  labelCentered 0 (h - sbH - ch - 20) w
    (str "Tab  next window  |  Arrows  move  |  ESC  exit  |  Shift+ESC  apps") gcTextDim Framebuffer.transparent

theorem scene_eq (w h : UInt32) (d : Desk) {ticks : UInt32} {ustr : Str} (hu : uptime ticks = some ustr) :
    scene w h d ticks = some (barCalls w h ++ (List.finRange 3).flatMap (windowCalls d ustr) ++ hintCalls w h) := by
  have h₀ (a : Fin 3 → UInt32) : rd a 0 = some (a 0) := rd_nat a (i := 0) (by decide)
  have h₁ (a : Fin 3 → UInt32) : rd a 1 = some (a 1) := rd_nat a (i := 1) (by decide)
  have h₂ (a : Fin 3 → UInt32) : rd a 2 = some (a 2) := rd_nat a (i := 2) (by decide)
  have hwindows : (List.finRange 3).flatMap (windowCalls d ustr) =
      sysinfoCalls (d.wposX 0) (d.wposY 0) (d.wfocus = 0) ustr ++ (welcomeWindow (d.wposX 1) (d.wposY 1) (d.wfocus = 1) ++
        (controlsWindow (d.wposX 2) (d.wposY 2) (d.wfocus = 2) ++ [])) := rfl
  unfold scene sysinfoWindow
  simp only [h₀, h₁, h₂, hu, Option.bind_eq_bind, Option.bind_some]
  rw [hwindows, List.append_nil]
  simp only [List.append_assoc]
  rfl

/-- What a redraw paints. -/
noncomputable def deskPainting (w h : UInt32) (d : Desk) (ustr : Str) : Painting (ℕ × ℕ) UInt32 :=
  (background w h).layer (stack PixelCall.painting
    (barCalls w h ++ (List.finRange 3).flatMap (windowCalls d ustr) ++ hintCalls w h))

/-- **What a redraw paints** does not depend on what is on the screen, and it paints everywhere. -/
theorem redraw_paints (hf : f.Roomy) (d : Desk) {ticks : UInt32} {ustr : Str} (hu : uptime ticks = some ustr) :
    f.Paints (redraw f d ticks) (deskPainting f.w f.h d ustr) ∧ Covers f.w f.h (deskPainting f.w f.h d ustr) := by
  refine ⟨?_, (background_covers f.w f.h).layer _⟩
  unfold redraw
  rw [scene_eq f.w f.h d hu, Option.bind_eq_bind, Option.bind_some]
  exact hf.bind (background_paints hf) fun f' hf' hw hh => hf'.draw_paints _

/-! ## The window manager -/

/-- **What is shown**: the desktop as it was drawn at a tick, the launcher over it, or an app over
both. Or `cmd_dahle` has returned. -/
inductive Scene
  | desktop (ticks : UInt32)
  | launcher (ticks : UInt32)
  | sysmon (ticks now : UInt32)
  | about (ticks : UInt32)
  | left

def Scene.mode : Scene → Mode
  | desktop _ => .desktop
  | launcher _ => .launcher
  | sysmon _ _ => .app
  | about _ => .app
  | left => .left

/-- The window manager, without a screen. -/
structure Wm where
  windows : Windows
  scene : Scene

def Wm.start (ticks : UInt32) : Wm := ⟨.start, .desktop ticks⟩

def Wm.step (w : Wm) (k : Key) : Wm :=
  match w.scene with
  | .desktop ticks =>
    if k.c = 27 then ⟨w.windows, if k.shift then .launcher ticks else .left⟩
    else ⟨w.windows.press k.c, .desktop k.ticks⟩
  | .launcher ticks =>
    ⟨w.windows, if k.c = 49 then .sysmon ticks k.ticks else if k.c = 50 then .about ticks else .desktop k.ticks⟩
  | .sysmon _ _ => ⟨w.windows, .desktop k.ticks⟩
  | .about _ => ⟨w.windows, .desktop k.ticks⟩
  | .left => w

/-- **A scene drawn from nothing**: one redraw, and the launcher and the app over it. -/
def Scene.drawOn (f : Framebuffer) (d : Desk) : Scene → Option Framebuffer
  | desktop ticks => redraw f d ticks
  | launcher ticks => do
    let f ← redraw f d ticks
    f.draw (Dahle.launcher f.w f.h)
  | sysmon ticks now => do
    let f ← redraw f d ticks
    let f ← f.draw (Dahle.launcher f.w f.h)
    let calls ← appSysmon f.w f.h now
    f.draw calls
  | about ticks => do
    let f ← redraw f d ticks
    let f ← f.draw (Dahle.launcher f.w f.h)
    f.draw (appAbout f.w f.h)
  | left => some f

/-- The painting of a scene. -/
noncomputable def Scene.painting (w h : UInt32) (d : Desk) : Scene → Painting (ℕ × ℕ) UInt32
  | desktop ticks => deskPainting w h d ((uptime ticks).getD [])
  | launcher ticks => (deskPainting w h d ((uptime ticks).getD [])).layer (stack PixelCall.painting (Dahle.launcher w h))
  | sysmon ticks now => (deskPainting w h d ((uptime ticks).getD [])).layer
      ((stack PixelCall.painting (Dahle.launcher w h)).layer (stack PixelCall.painting ((appSysmon w h now).getD [])))
  | about ticks => (deskPainting w h d ((uptime ticks).getD [])).layer
      ((stack PixelCall.painting (Dahle.launcher w h)).layer (stack PixelCall.painting (appAbout w h)))
  | left => blank

theorem uptime_getD (ticks : UInt32) : uptime ticks = some ((uptime ticks).getD []) := by
  obtain ⟨ustr, hu, -⟩ := uptime_fits ticks
  rw [hu, Option.getD_some]

theorem appSysmon_getD (w h ticks : UInt32) : appSysmon w h ticks = some ((appSysmon w h ticks).getD []) := by
  obtain ⟨texts, htexts⟩ := sysmonTexts_fit ticks
  unfold appSysmon
  rw [htexts]
  rfl

/-- **A scene is drawn on any framebuffer**, over anything. -/
theorem drawOn_paints (hf : f.Roomy) (d : Desk) {scene : Scene} (hscene : scene ≠ .left) :
    f.Paints (scene.drawOn f d) (scene.painting f.w f.h d) ∧ Covers f.w f.h (scene.painting f.w f.h d) := by
  cases scene with
  | desktop ticks => exact redraw_paints hf d (uptime_getD ticks)
  | launcher ticks =>
    obtain ⟨hpaint, hcover⟩ := redraw_paints hf d (uptime_getD ticks)
    refine ⟨hf.bind hpaint fun f₁ hf₁ hw₁ hh₁ => ?_, hcover.layer _⟩
    rw [← hw₁, ← hh₁]
    exact hf₁.draw_paints _
  | sysmon ticks now =>
    obtain ⟨hpaint, hcover⟩ := redraw_paints hf d (uptime_getD ticks)
    refine ⟨hf.bind hpaint fun f₁ hf₁ hw₁ hh₁ => ?_, hcover.layer _⟩
    rw [← hw₁, ← hh₁]
    refine hf₁.bind (hf₁.draw_paints _) fun f₂ hf₂ hw₂ hh₂ => ?_
    rw [← hw₂, ← hh₂, appSysmon_getD]
    exact hf₂.draw_paints _
  | about ticks =>
    obtain ⟨hpaint, hcover⟩ := redraw_paints hf d (uptime_getD ticks)
    refine ⟨hf.bind hpaint fun f₁ hf₁ hw₁ hh₁ => ?_, hcover.layer _⟩
    rw [← hw₁, ← hh₁]
    refine hf₁.bind (hf₁.draw_paints _) fun f₂ hf₂ hw₂ hh₂ => ?_
    rw [← hw₂, ← hh₂]
    exact hf₂.draw_paints _
  | left => exact absurd rfl hscene

/-- The teletype at the end of `cmd_dahle`: an empty one, and the banner. -/
def bannerTeletype : Teletype :=
  farewell.foldl (Teletype.step ((600 : UInt32).toNat / 16) ((800 : UInt32).toNat / 8) black) ⟨⟨fun _ _ _ => black, 0, 0⟩, 0, white⟩

/-- **The machine shows the window manager**: the arrays hold the windows, and the screen is the
picture of the scene, all of it. -/
structure Wm.ShownBy (w : Wm) (d : Dahle) : Prop where
  grid : OnGrid 800 600 ((600 : UInt32).toNat / 16) d.screen
  desk : d.desk.Shows w.windows
  mode : d.mode = w.scene.mode
  picture : w.scene ≠ .left → Looks (w.scene.painting 800 600 d.desk) d.screen.fb
  console : w.scene = .left → bannerTeletype.ShownBy 800 600 black d.screen

variable {w : Wm} {m : Dahle}

theorem refresh_shown (hgrid : OnGrid 800 600 ((600 : UInt32).toNat / 16) m.screen) (hd : m.desk.Shows t) (ticks : UInt32) :
    ∃ m', m.refresh ticks = some m' ∧ (⟨t, .desktop ticks⟩ : Wm).ShownBy m' := by
  obtain ⟨hpaint, hcover⟩ := redraw_paints hgrid.fits.roomy m.desk (uptime_getD ticks)
  obtain ⟨mem, hdraw, hlooks⟩ := looks_of_covers hpaint hcover
  have hsize : deskPainting m.screen.fb.w m.screen.fb.h m.desk ((uptime ticks).getD []) =
      deskPainting 800 600 m.desk ((uptime ticks).getD []) := by rw [hgrid.width, hgrid.height]
  rw [hsize] at hlooks
  unfold refresh
  rw [hdraw]
  exact ⟨_, rfl, hgrid.withMem mem, hd, rfl, fun _ => hlooks, fun h => absurd h (by simp)⟩

/-- A drawing over the scene. -/
theorem display_shown (hw : w.ShownBy m) (hscene : w.scene ≠ .left) (calls : List PixelCall) (mode : Mode) :
    ∃ mem, m.display calls mode = some { m with screen := { m.screen with fb := { m.screen.fb with mem } }, mode } ∧
      Looks ((w.scene.painting 800 600 m.desk).layer (stack PixelCall.painting calls)) { m.screen.fb with mem } := by
  obtain ⟨mem, hdraw, hlooks⟩ := (hw.picture hscene).layer (hw.grid.fits.roomy.draw_paints calls)
  refine ⟨mem, ?_, hlooks⟩
  unfold display
  rw [hdraw]
  rfl

/-- **One key.** -/
theorem Wm.ShownBy.step (hw : w.ShownBy m) (k : Key) : ∃ m', Dahle.step m k = some m' ∧ (w.step k).ShownBy m' := by
  have hwidth := hw.grid.width
  have hheight := hw.grid.height
  have hmode := hw.mode
  obtain ⟨t, scene⟩ := w
  cases scene with
  | desktop ticks =>
    change m.mode = .desktop at hmode
    unfold Dahle.step Wm.step
    simp only [hmode]
    split
    · split
      · -- Shift+ESC
        obtain ⟨mem, hdisplay, hlooks⟩ := display_shown hw (by simp) (Dahle.launcher 800 600) .launcher
        rw [hwidth, hheight, hdisplay]
        exact ⟨_, rfl, hw.grid.withMem mem, hw.desk, rfl, fun _ => hlooks, fun h => absurd h (by simp)⟩
      · -- ESC
        obtain ⟨s₁, hclear, hs₁⟩ := hw.grid.blanked white black
        have hkeep : ∀ op ∈ farewell, op.Keeps black := by simp [farewell, TextOp.Keeps]
        obtain ⟨s₂, hprint, hs₂⟩ := Teletype.ShownBy.run (by decide) farewell _ s₁ hkeep hs₁
        have hall : ([TextOp.setColor white black, .clear] ++ farewell).foldlM TextOp.apply m.screen = some s₂ := by
          rw [List.foldlM_append, hclear]
          exact hprint
        rw [hall]
        exact ⟨_, rfl, hs₂.pictured.grid, hw.desk, rfl, fun h => absurd rfl h, fun _ => hs₂⟩
    · obtain ⟨d', hpress, hd'⟩ := press_shows hw.desk k.c
      rw [hpress]
      exact refresh_shown (m := { m with desk := d' }) hw.grid hd' k.ticks
  | launcher ticks =>
    change m.mode = .launcher at hmode
    unfold Dahle.step Wm.step
    simp only [hmode]
    split
    · obtain ⟨mem, hdisplay, hlooks⟩ := display_shown hw (by simp) ((appSysmon 800 600 k.ticks).getD []) .app
      rw [hwidth, hheight, appSysmon_getD, Option.bind_eq_bind, Option.bind_some, hdisplay]
      refine ⟨_, rfl, hw.grid.withMem mem, hw.desk, rfl, fun _ => ?_, fun h => absurd h (by simp)⟩
      unfold Scene.painting at hlooks ⊢
      rw [layer_assoc] at hlooks
      exact hlooks
    split
    · obtain ⟨mem, hdisplay, hlooks⟩ := display_shown hw (by simp) (appAbout 800 600) .app
      rw [hwidth, hheight, hdisplay]
      refine ⟨_, rfl, hw.grid.withMem mem, hw.desk, rfl, fun _ => ?_, fun h => absurd h (by simp)⟩
      unfold Scene.painting at hlooks ⊢
      rw [layer_assoc] at hlooks
      exact hlooks
    · exact refresh_shown hw.grid hw.desk k.ticks
  | sysmon ticks now =>
    change m.mode = .app at hmode
    unfold Dahle.step Wm.step
    simp only [hmode]
    exact refresh_shown hw.grid hw.desk k.ticks
  | about ticks =>
    change m.mode = .app at hmode
    unfold Dahle.step Wm.step
    simp only [hmode]
    exact refresh_shown hw.grid hw.desk k.ticks
  | left =>
    change m.mode = .left at hmode
    unfold Dahle.step Wm.step
    simp only [hmode]
    exact ⟨m, rfl, hw⟩

/-! ## Runs -/

theorem vbePitch_bounds {vw : UInt16} (hvw : vw = 0 ∨ 800 ≤ vw.toNat) :
    3200 ≤ (vbePitch vw).toNat ∧ (vbePitch vw).toNat ≤ 262140 := by
  have hlt := vw.toNat_lt
  have hfour : (4 : UInt32).toNat = 4 := rfl
  unfold vbePitch
  split
  next hne =>
    have hwide := hvw.resolve_left hne
    rw [toNat_mul_of_lt (by rw [UInt16.toNat_toUInt32, hfour]; omega), UInt16.toNat_toUInt32, hfour]
    omega
  next => decide

theorem start_desk : Desk.Shows ⟨fun i => if i.val = 0 then 30 else if i.val = 1 then 350 else 610, fun _ => 70, 0⟩ .start :=
  ⟨by decide, by decide, by decide⟩

/-- `cmd_dahle`, up to the first key. -/
theorem start_shown (s : Screen) (hbar : s.bar0 ≠ 0) {vw : UInt16} (hvw : vw = 0 ∨ 800 ≤ vw.toNat)
    (mem : Fin ((vbePitch vw).toNat * 600) → UInt8) (ticks : UInt32) :
    ∃ m, start s vw _ mem ticks = some m ∧ (Wm.start ticks).ShownBy m := by
  obtain ⟨hlo, hhi⟩ := vbePitch_bounds hvw
  obtain ⟨s₀, hinit, hs₀⟩ := (@start_onGrid 800 600 (vbePitch vw) { s with mode := .vbe } rfl mem (by decide) (by decide)
    hlo (show (vbePitch vw).toNat * 600 < 2 ^ 32 by omega)).step .clear
  have henter : s.enterVbe vw _ mem = some s₀ := (if_neg hbar).trans hinit
  unfold start
  rw [henter]
  exact refresh_shown (m := ⟨s₀, _, .desktop⟩) hs₀ start_desk ticks

/-- The state after some keys. -/
def Wm.after (ticks : UInt32) (keys : List Key) : Wm := keys.foldl Wm.step (Wm.start ticks)

theorem run_shown (s : Screen) (hbar : s.bar0 ≠ 0) {vw : UInt16} (hvw : vw = 0 ∨ 800 ≤ vw.toNat)
    (mem : Fin ((vbePitch vw).toNat * 600) → UInt8) (ticks : UInt32) (keys : List Key) :
    ∃ m, (start s vw _ mem ticks).bind (keys.foldlM Dahle.step) = some m ∧ (Wm.after ticks keys).ShownBy m := by
  obtain ⟨m₀, hstart, hm₀⟩ := start_shown s hbar hvw mem ticks
  rw [hstart, Option.bind_some]
  unfold Wm.after
  generalize Wm.start ticks = w at hm₀
  clear hstart
  induction keys generalizing w m₀ with
  | nil => exact ⟨m₀, rfl, hm₀⟩
  | cons k keys ih =>
    obtain ⟨m₁, hstep, hm₁⟩ := hm₀.step k
    rw [List.foldlM_cons, hstep]
    exact ih m₁ _ hm₁

/-- **The desktop shows the window manager**, after every sequence of keys, at any times, on any
card with lines of at least 800 pixels. No access leaves an array or the framebuffer; the
arrays hold the windows of the manager, and the code waits where it does. Until it returns,
every pixel is as if the scene had just been drawn on any other framebuffer: nothing of what
was shown before is left. Then the console shows the banner, and nothing else. -/
theorem desktop_refines (s : Screen) (hbar : s.bar0 ≠ 0) {vw : UInt16} (hvw : vw = 0 ∨ 800 ≤ vw.toNat)
    (mem : Fin ((vbePitch vw).toNat * 600) → UInt8) (ticks : UInt32) (keys : List Key) :
    ∃ m, (start s vw _ mem ticks).bind (keys.foldlM Dahle.step) = some m ∧
      m.desk.Shows (Wm.after ticks keys).windows ∧ m.mode = (Wm.after ticks keys).scene.mode ∧
      ((Wm.after ticks keys).scene ≠ .left → ∀ f : Framebuffer, f.Roomy → f.w = 800 → f.h = 600 →
        ∃ f', (Wm.after ticks keys).scene.drawOn f m.desk = some f' ∧
          ∀ px py, px < 800 → py < 600 → m.screen.fb.pixel px py = f'.pixel px py) ∧
      ((Wm.after ticks keys).scene = .left → ∀ px py, px < 800 → py < 600 →
        m.screen.fb.pixel px py = bannerTeletype.picture 37 100 black px py) := by
  obtain ⟨m, hrun, hm⟩ := run_shown s hbar hvw mem ticks keys
  refine ⟨m, hrun, hm.desk, hm.mode, ?_, ?_⟩
  · intro hscene f hf hw hh
    obtain ⟨hpaint, hcover⟩ := drawOn_paints hf m.desk hscene
    obtain ⟨mem', hdraw, hlooks⟩ := looks_of_covers hpaint hcover
    have hsize : (Wm.after ticks keys).scene.painting f.w f.h m.desk =
        (Wm.after ticks keys).scene.painting 800 600 m.desk := by rw [hw, hh]
    rw [hsize] at hlooks
    refine ⟨_, hdraw, fun px py hx hy => (hm.picture hscene).same hlooks ?_ ?_ ?_ ?_⟩
    · exact hw.trans hm.grid.width.symm
    · exact hh.trans hm.grid.height.symm
    · rw [hm.grid.width]
      exact hx
    · rw [hm.grid.height]
      exact hy
  · intro hscene px py hx hy
    exact (hm.console hscene).pixel hx hy

/-- Tab, an arrow, Shift+ESC and `1`. -/
def monitorKeys : List Key := [⟨9, false, 10⟩, ⟨0x14, false, 20⟩, ⟨27, true, 30⟩, ⟨49, false, 40⟩]

/-- They open the system monitor, and the second window has moved. -/
theorem desktop_refines_monitor : ∃ m, (start (static 1) 0 ((vbePitch 0).toNat * 600) (fun _ => 0) 0).bind
    (monitorKeys.foldlM Dahle.step) = some m ∧ m.mode = .app ∧
      ∀ i, (m.desk.wposX i).toNat = if i.val = 0 then 30 else if i.val = 1 then 358 else 610 := by
  obtain ⟨m, hrun, hdesk, hmode, -, -⟩ := @desktop_refines (static 1) (by decide) 0 (.inl rfl) (fun _ => 0) 0 monitorKeys
  refine ⟨m, hrun, hmode, fun i => (hdesk.x i).trans ?_⟩
  revert i
  decide

end Dahle

end DahleOS
