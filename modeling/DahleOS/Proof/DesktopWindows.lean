import DahleOS.Proof.Desktop

/-!
# The windows of the desktop

Where they can be, and what moving one of them changes on the screen.

* `layouts_reachable`: the layouts that some keys lead to.
* `windowCalls_inside`: a window draws inside its frame.
* `redraw_damage`: a key changes the pixels of the windows that it is about, and of the clock.
-/

namespace DahleOS

namespace Dahle

open Framebuffer Gui MachineWord Painting Screen

variable {d d' : Desk} {t : Windows} {x y : UInt32} {rect : Rect}

/-! ## Layouts -/

/-- The key of a move. -/
def keyOf : Move Axis → Key
  | .next => ⟨9, false, 0⟩
  | .back .y => ⟨0x11, false, 0⟩
  | .ahead .y => ⟨0x12, false, 0⟩
  | .back .x => ⟨0x13, false, 0⟩
  | .ahead .x => ⟨0x14, false, 0⟩

theorem keyOf_press (t : Windows) (move : Move Axis) : (keyOf move).c ≠ 27 ∧ t.press (keyOf move).c = t.step move := by
  cases move with
  | next => exact ⟨by decide, rfl⟩
  | back a => cases a <;> exact ⟨by decide, rfl⟩
  | ahead a => cases a <;> exact ⟨by decide, rfl⟩

/-- Keys move the windows of the desktop as their moves do. -/
theorem foldl_keyOf (moves : List (Move Axis)) : ∀ (t : Windows) (ticks : UInt32),
    ∃ ticks', (moves.map keyOf).foldl Wm.step ⟨t, .desktop ticks⟩ = ⟨moves.foldl Tokens.step t, .desktop ticks'⟩ := by
  induction moves with
  | nil => exact fun t ticks => ⟨ticks, rfl⟩
  | cons move moves ih =>
    intro t ticks
    obtain ⟨hne, hpress⟩ := keyOf_press t move
    have hstep : Wm.step ⟨t, .desktop ticks⟩ (keyOf move) = ⟨t.step move, .desktop (keyOf move).ticks⟩ := by
      unfold Wm.step
      dsimp only
      rw [if_neg hne, hpress]
    rw [List.map_cons, List.foldl_cons, List.foldl_cons, hstep]
    exact ih _ _

theorem coord_grid (t : Windows) (a : Axis) (i : Fin 3) : t.coord a i % 8 = Windows.start.coord a i % 8 := by
  unfold Windows.coord
  omega

theorem start_mod (a : Axis) (i : Fin 3) : Windows.start.coord a i % 8 = gridBase a i := by
  have hbase := gridBase_cases a i
  unfold Windows.coord
  omega

/-- The place of a coordinate on the grid. -/
def gridPos (x y : Fin 3 → ℕ) : Axis → Fin 3 → ℕ
  | .x, i => (x i - gridBase .x i) / 8
  | .y, i => (y i - gridBase .y i) / 8

theorem gridPos_le {x y : Fin 3 → ℕ} (hx : ∀ i, x i < 798) (hy : ∀ i, y i < 560) : ∀ a i, gridPos x y a i ≤ gridLimit a i := by
  intro a i
  have hxi := hx i
  have hyi := hy i
  cases a with
  | x =>
    unfold gridPos gridBase gridLimit
    dsimp only
    split <;> omega
  | y =>
    unfold gridPos gridBase gridLimit
    dsimp only
    omega

/-- **The layouts of the desktop.** After `cmd_dahle` starts, some keys lead to a layout and a
focus exactly if every window is on its grid of `MOVE_STEP` pixels, with its first pixel
between 2 and 797 across and between 2 and 559 down. -/
theorem layouts_reachable (s : Screen) (hbar : s.bar0 ≠ 0) {vw : UInt16} (hvw : vw = 0 ∨ 800 ≤ vw.toNat)
    (mem : Fin ((vbePitch vw).toNat * 600) → UInt8) (ticks : UInt32) (x y : Fin 3 → ℕ) (focus : Fin 3) :
    (∃ (keys : List Key) (m : Dahle), (start s vw _ mem ticks).bind (keys.foldlM Dahle.step) = some m ∧ m.mode = .desktop ∧
      m.desk.wfocus.toInt = focus.val ∧ ∀ i, (m.desk.wposX i).toNat = x i ∧ (m.desk.wposY i).toNat = y i) ↔
    ∀ i, (2 ≤ x i ∧ x i < 798 ∧ x i % 8 = Windows.start.coord .x i % 8) ∧
      2 ≤ y i ∧ y i < 560 ∧ y i % 8 = Windows.start.coord .y i % 8 := by
  constructor
  · rintro ⟨keys, m, hrun, -, -, hpos⟩ i
    obtain ⟨m', hrun', hm⟩ := run_shown s hbar hvw mem ticks keys
    obtain rfl := Option.some.inj (hrun.symm.trans hrun')
    obtain ⟨hx, hy⟩ := hpos i
    obtain ⟨hbx, hby⟩ := coord_bounds (Wm.after ticks keys).windows i
    have hgx := coord_grid (Wm.after ticks keys).windows .x i
    have hgy := coord_grid (Wm.after ticks keys).windows .y i
    rw [← hm.desk.x i, hx] at hbx hgx
    rw [← hm.desk.y i, hy] at hby hgy
    exact ⟨⟨hbx.1, hbx.2, hgx⟩, hby.1, hby.2, hgy⟩
  · intro h
    -- the layout as tokens, and the moves that lead there
    have hle := gridPos_le (fun i => (h i).1.2.1) fun i => (h i).2.2.1
    obtain ⟨moves, hmoves⟩ := Tokens.reaches Windows.start ⟨focus, gridPos x y, hle⟩
    obtain ⟨ticks', hafter⟩ := foldl_keyOf moves Windows.start ticks
    have hwm : Wm.after ticks (moves.map keyOf) = ⟨moves.foldl Tokens.step Windows.start, .desktop ticks'⟩ := hafter
    obtain ⟨m, hrun, hm⟩ := run_shown s hbar hvw mem ticks (moves.map keyOf)
    rw [hwm, hmoves] at hm
    refine ⟨moves.map keyOf, m, hrun, hm.mode, hm.desk.focus, fun i => ?_⟩
    obtain ⟨⟨hx₀, -, hgx⟩, hy₀, -, hgy⟩ := h i
    rw [start_mod] at hgx hgy
    have hx : (m.desk.wposX i).toNat = gridBase .x i + 8 * ((x i - gridBase .x i) / 8) := hm.desk.x i
    have hy : (m.desk.wposY i).toNat = gridBase .y i + 8 * ((y i - gridBase .y i) / 8) := hm.desk.y i
    omega

/-- The windows on one pile in the corner, the second one with the focus. -/
theorem layouts_reachable_pile : ∃ (keys : List Key) (m : Dahle),
    (start (static 1) 0 ((vbePitch 0).toNat * 600) (fun _ => 0) 0).bind (keys.foldlM Dahle.step) = some m ∧ m.mode = .desktop ∧
      m.desk.wfocus.toInt = 1 ∧ ∀ i, (m.desk.wposX i).toNat = (if i.val = 2 then 2 else 6) ∧ (m.desk.wposY i).toNat = 6 :=
  (@layouts_reachable (static 1) (by decide) 0 (.inl rfl) (fun _ => 0) 0 (fun i => if i.val = 2 then 2 else 6) (fun _ => 6) 1).2
    (by decide)

/-! ## Frames -/

/-- The sizes of the windows. -/
def winW (i : Fin 3) : ℕ := if i.val = 0 then 300 else if i.val = 1 then 240 else 160
def winH (i : Fin 3) : ℕ := if i.val = 0 then 185 else 135

/-- **The frame of a window**: its rectangle, its shadow, and the glow of the focus. -/
def frame (d : Desk) (i : Fin 3) : Rect :=
  ⟨(d.wposX i).toNat - 2, (d.wposX i).toNat + winW i + 4, (d.wposY i).toNat - 2, (d.wposY i).toNat + winH i + 5⟩

/-- A place for a window of `w` by `h` pixels at a point. -/
structure Holds (rect : Rect) (x y w h : UInt32) : Prop where
  left : rect.left + 2 ≤ x.toNat
  top : rect.top + 2 ≤ y.toNat
  right : x.toNat + w.toNat + 4 ≤ rect.right
  bottom : y.toNat + h.toNat + 5 ≤ rect.bottom
  small : rect.Small

variable {w h line color fg bg : UInt32} {text key val : Str}

theorem Holds.glow (hr : Holds rect x y w h) (focused : Bool) :
    ∀ call ∈ (if focused then focusGlow x y w h else []), call.Inside rect := by
  obtain ⟨hleft, htop, hright, hbottom, hsmall₁, hsmall₂⟩ := hr
  unfold focusGlow
  split
  · split
    · exact fun _ h => nomatch h
    · simp only [List.forall_mem_cons, PixelCall.inside_roundedRect, UInt32.toNat_add, UInt32.toNat_sub, UInt32.reduceToNat]
      exact ⟨by omega, fun _ h => nomatch h⟩
  · exact fun _ h => nomatch h

theorem lineY_toNat (h : y.toNat + 24 + 20 * line.toNat < 2 ^ 32) : (lineY y line).toNat = y.toNat + 24 + 20 * line.toNat := by
  have hfirst : titleH.toNat = 22 ∧ (2 : UInt32).toNat = 2 := ⟨rfl, rfl⟩
  have hstep : (ch + lineGap).toNat = 20 := rfl
  have hmul : (line * (ch + lineGap)).toNat = 20 * line.toNat := by
    rw [toNat_mul_of_lt (by rw [hstep]; omega), hstep, Nat.mul_comm]
  unfold lineY
  rw [UInt32.toNat_add, UInt32.toNat_add, UInt32.toNat_add, hfirst.1, hfirst.2, hmul]
  omega

theorem Holds.wtext (hr : Holds rect x y w h) (htext : 8 * text.length + 10 ≤ w.toNat) (hline : 40 + 20 * line.toNat ≤ h.toNat)
    (color : UInt32) : ∀ call ∈ wtext x y line text color, call.Inside rect := by
  obtain ⟨hleft, htop, hright, hbottom, hsmall₁, hsmall₂⟩ := hr
  have hten : pad.toNat = 10 := rfl
  have hcol : (x + pad).toNat = x.toNat + 10 := toNat_add_of_lt (by omega)
  have hrow : (lineY y line).toNat = y.toNat + 24 + 20 * line.toNat := lineY_toNat (by omega)
  refine List.forall_mem_singleton.2 ⟨?_, ?_, ?_, ?_⟩
  · rw [hcol]; omega
  · rw [hcol]; omega
  · rw [hrow]; omega
  · rw [hrow]; omega

theorem Holds.wkv (hr : Holds rect x y w h) (hkey : 8 * key.length + 10 ≤ w.toNat) (hval : 8 * val.length + 82 ≤ w.toNat)
    (hline : 40 + 20 * line.toNat ≤ h.toNat) : ∀ call ∈ wkv x y line key val, call.Inside rect := by
  have hkeys : ∀ call ∈ Dahle.wtext x y line key gcTextDim, call.Inside rect := hr.wtext hkey hline gcTextDim
  obtain ⟨hleft, htop, hright, hbottom, hsmall₁, hsmall₂⟩ := hr
  have hoffset : (pad + 9 * cw).toNat = 82 := rfl
  have hcol : (x + pad + 9 * cw).toNat = x.toNat + 82 := by
    rw [UInt32.add_assoc, toNat_add_of_lt (by omega), hoffset]
  have hrow : (lineY y line).toNat = y.toNat + 24 + 20 * line.toNat := lineY_toNat (by omega)
  refine List.forall_mem_append.2 ⟨hkeys, List.forall_mem_singleton.2 ⟨?_, ?_, ?_, ?_⟩⟩
  · rw [hcol]; omega
  · rw [hcol]; omega
  · rw [hrow]; omega
  · rw [hrow]; omega

theorem Holds.window (hr : Holds rect x y w h) (htitle : 8 * text.length + 2 ≤ w.toNat) (hh : 24 ≤ h.toNat) :
    ∀ call ∈ window x y w h text, call.Inside rect := by
  obtain ⟨hleft, htop, hright, hbottom, hsmall⟩ := hr
  exact window_inside htitle hh ⟨by omega, hright⟩ ⟨by omega, hbottom⟩ hsmall

/-- `gui_badge` and `gui_separator` at the left side of a window's contents. -/
theorem Holds.badge (hr : Holds rect x y w h) (htext : 8 * text.length + 20 ≤ w.toNat) (hline : 46 + 20 * line.toNat ≤ h.toNat)
    (fg bg : UInt32) : ∀ call ∈ badge (x + pad) (lineY y line) text fg bg, call.Inside rect := by
  obtain ⟨hleft, htop, hright, hbottom, hsmall⟩ := hr
  have hsmall₁ := hsmall.1
  have hsmall₂ := hsmall.2
  have hten : pad.toNat = 10 := rfl
  have hcol : (x + pad).toNat = x.toNat + 10 := toNat_add_of_lt (by omega)
  have hrow : (lineY y line).toNat = y.toNat + 24 + 20 * line.toNat := lineY_toNat (by omega)
  exact badge_inside (by rw [hcol]; omega) (by rw [hrow]; omega) hsmall fg bg

theorem Holds.separator (hr : Holds rect x y w h) (hw : 20 ≤ w.toNat) (hline : 25 + 20 * line.toNat ≤ h.toNat) :
    ∀ call ∈ separator (x + pad) (lineY y line) (w - 2 * pad), call.Inside rect := by
  obtain ⟨hleft, htop, hright, hbottom, hsmall₁, hsmall₂⟩ := hr
  have hten : pad.toNat = 10 := rfl
  have hone : (1 : UInt32).toNat = 1 := rfl
  have htwenty : (2 * pad).toNat = 20 := rfl
  have hcol : (x + pad).toNat = x.toNat + 10 := toNat_add_of_lt (by omega)
  have hwidth : (w - 2 * pad).toNat = w.toNat - 20 := UInt32.toNat_sub_of_le _ _ (UInt32.le_iff_toNat_le.2 hw)
  have hrow : (lineY y line).toNat = y.toNat + 24 + 20 * line.toNat := lineY_toNat (by omega)
  refine List.forall_mem_singleton.2 ⟨?_, ?_, ?_, ?_⟩
  · rw [hcol]; omega
  · rw [hcol, hwidth]; omega
  · rw [hrow]; omega
  · rw [hrow, hone]; omega

/-! ## The three windows -/

theorem sysinfo_inside (hr : Holds rect x y sysinfoW sysinfoH) (focused : Bool) {ustr : Str} (hu : ustr.length ≤ 13) :
    ∀ call ∈ sysinfoCalls x y focused ustr, call.Inside rect := by
  have hw : sysinfoW.toNat = 300 := rfl
  have hh : sysinfoH.toNat = 185 := rfl
  have hvalue : 8 * ustr.length + 82 ≤ sysinfoW.toNat := by omega
  unfold sysinfoCalls
  simp only [List.forall_mem_append]
  exact ⟨⟨⟨⟨⟨⟨⟨⟨hr.glow focused, hr.window (by decide) (by decide)⟩, hr.wkv (by decide) (by decide) (by decide)⟩,
    hr.wkv (by decide) (by decide) (by decide)⟩, hr.wkv (by decide) (by decide) (by decide)⟩,
    hr.wkv (by decide) (by decide) (by decide)⟩, hr.wkv (by decide) (by decide) (by decide)⟩,
    hr.wkv (by decide) hvalue (by decide)⟩, hr.badge (by decide) (by decide) gcWinBg gcSuccess⟩

theorem welcome_inside (hr : Holds rect x y welcomeW welcomeH) (focused : Bool) :
    ∀ call ∈ welcomeWindow x y focused, call.Inside rect := by
  unfold welcomeWindow
  simp only [List.forall_mem_append]
  exact ⟨⟨⟨⟨⟨hr.glow focused, hr.window (by decide) (by decide)⟩, hr.wtext (by decide) (by decide) gcText⟩,
    hr.wtext (by decide) (by decide) gcTextDim⟩, hr.separator (by decide) (by decide)⟩,
    hr.wtext (by decide) (by decide) gcTextDim⟩

theorem controls_inside (hr : Holds rect x y controlsW controlsH) (focused : Bool) :
    ∀ call ∈ controlsWindow x y focused, call.Inside rect := by
  unfold controlsWindow
  simp only [List.forall_mem_append]
  exact ⟨⟨⟨⟨⟨hr.glow focused, hr.window (by decide) (by decide)⟩, hr.wtext (by decide) (by decide) gcText⟩,
    hr.wtext (by decide) (by decide) gcText⟩, hr.wtext (by decide) (by decide) gcText⟩,
    hr.wtext (by decide) (by decide) gcText⟩

theorem win_le : ∀ i, winW i ≤ 300 ∧ winH i ≤ 185 := by decide

theorem frame_holds (hd : d.Shows t) {w h : UInt32} (i : Fin 3) (hw : w.toNat = winW i) (hh : h.toNat = winH i) :
    Holds (frame d i) (d.wposX i) (d.wposY i) w h := by
  obtain ⟨hx, hy⟩ := coord_bounds t i
  rw [← hd.x i] at hx
  rw [← hd.y i] at hy
  obtain ⟨hwidth, hheight⟩ := win_le i
  unfold frame
  constructor
  · dsimp only; omega
  · dsimp only; omega
  · dsimp only; omega
  · dsimp only; omega
  · unfold Rect.Small
    dsimp only
    omega

/-- **A window draws inside its frame.** -/
theorem windowCalls_inside (hd : d.Shows t) {ustr : Str} (hu : ustr.length ≤ 13) (i : Fin 3) :
    ∀ call ∈ windowCalls d ustr i, call.Inside (frame d i) := by
  unfold windowCalls
  split
  next h₀ =>
    obtain rfl : i = 0 := Fin.ext h₀
    exact sysinfo_inside (frame_holds hd 0 rfl rfl) _ hu
  split
  next h₁ =>
    obtain rfl : i = 1 := Fin.ext h₁
    exact welcome_inside (frame_holds hd 1 rfl rfl) _
  next h₀ h₁ =>
    obtain rfl : i = 2 := by omega
    exact controls_inside (frame_holds hd 2 rfl rfl) _

/-! ## Damage -/

variable {p : ℕ × ℕ} {u u' : Str} {i : Fin 3}

/-- Outside its frame, a window paints nothing. -/
theorem window_none (hd : d.Shows t) (hu : u.length ≤ 13) (hp : p ∉ (frame d i).points) :
    stack PixelCall.painting (windowCalls d u i) p = none := by
  obtain ⟨hx, hy⟩ := coord_bounds t i
  obtain ⟨hwidth, hheight⟩ := win_le i
  rw [← hd.x i] at hx
  rw [← hd.y i] at hy
  refine stack_within (windowCalls_inside hd hu i) ?_ p hp
  unfold Rect.Small frame
  dsimp only
  omega

/-- A window that has neither moved nor to do with the focus is drawn as before. -/
theorem windowCalls_congr (hx : d'.wposX i = d.wposX i) (hy : d'.wposY i = d.wposY i) (hf : d.wfocus.toInt ≠ i.val)
    (hf' : d'.wfocus.toInt ≠ i.val) (hu : i.val = 0 → u' = u) : windowCalls d' u' i = windowCalls d u i := by
  have hdecide {n : Int32} (hn : n.toInt = i.val) : decide (d'.wfocus = n) = decide (d.wfocus = n) := by
    rw [decide_eq_false fun h => hf' (by rw [h, hn]), decide_eq_false fun h => hf (by rw [h, hn])]
  unfold windowCalls
  split
  next h₀ =>
    have hzero : (0 : Int32).toInt = i.val := by rw [h₀]; rfl
    rw [hx, hy, hu h₀, hdecide hzero]
  split
  next h₁ =>
    have hone : (1 : Int32).toInt = i.val := by rw [h₁]; rfl
    rw [hx, hy, hdecide hone]
  next h₀ h₁ =>
    have htwo : (2 : Int32).toInt = i.val := by
      have hi : i.val = 2 := by omega
      rw [hi]
      rfl
    rw [hx, hy, hdecide htwo]

theorem deskPainting_congr (w h : UInt32) (hp : ∀ i, stack PixelCall.painting (windowCalls d' u' i) p =
    stack PixelCall.painting (windowCalls d u i) p) : deskPainting w h d' u' p = deskPainting w h d u p := by
  have hwindows : stack (fun i => stack PixelCall.painting (windowCalls d' u' i)) (List.finRange 3) p =
      stack (fun i => stack PixelCall.painting (windowCalls d u i)) (List.finRange 3) p := stack_congr fun i _ => hp i
  unfold deskPainting
  rw [stack_append, stack_append, stack_append, stack_append, stack_flatMap, stack_flatMap]
  simp only [Painting.layer, hwindows]

/-- The clock shows seconds. -/
theorem uptime_congr {ticks ticks' : UInt32} (h : ticks' / 100 = ticks / 100) : uptime ticks' = uptime ticks := by
  unfold uptime
  rw [h]

/-- Where a key does not move a window, it stays. -/
theorem press_coord (t : Windows) (c : UInt8) (a : Axis) (hi : i ≠ t.focus) : (t.press c).coord a i = t.coord a i := by
  unfold Windows.press
  cases moveOf c with
  | none => rfl
  | some move =>
    cases move with
    | next => rfl
    | back b => exact (coord_back t b a i).trans (if_neg fun h => hi h.2)
    | ahead b => exact (coord_ahead t b a i).trans (if_neg fun h => hi h.2)

/-- **What a key changes.** On the desktop, after every sequence of keys, every key but ESC changes
only pixels in the frames, before or after it, of the window that had the focus, of the one
that has it now, and of the one with the clock if a second has passed. -/
theorem redraw_damage (s : Screen) (hbar : s.bar0 ≠ 0) {vw : UInt16} (hvw : vw = 0 ∨ 800 ≤ vw.toNat)
    (mem : Fin ((vbePitch vw).toNat * 600) → UInt8) (ticks : UInt32) (keys : List Key) {shown : UInt32}
    (hscene : (Wm.after ticks keys).scene = .desktop shown) (k : Key) (hk : k.c ≠ 27) :
    ∃ m m', (start s vw _ mem ticks).bind (keys.foldlM Dahle.step) = some m ∧ Dahle.step m k = some m' ∧
      ∀ px py, px < 800 → py < 600 → m'.screen.fb.pixel px py ≠ m.screen.fb.pixel px py →
        ∃ i : Fin 3, (m.desk.wfocus.toInt = i.val ∨ m'.desk.wfocus.toInt = i.val ∨ i.val = 0 ∧ shown / 100 ≠ k.ticks / 100) ∧
          ((px, py) ∈ (frame m.desk i).points ∨ (px, py) ∈ (frame m'.desk i).points) := by
  obtain ⟨m, hrun, hm⟩ := run_shown s hbar hvw mem ticks keys
  obtain ⟨m', hstep, hm'⟩ := hm.step k
  refine ⟨m, m', hrun, hstep, ?_⟩
  have hnext : (Wm.after ticks keys).step k = ⟨(Wm.after ticks keys).windows.press k.c, .desktop k.ticks⟩ := by
    unfold Wm.step
    rw [hscene]
    exact if_neg hk
  rw [hnext] at hm'
  -- the two pictures
  have hbefore := hm.picture (by simp [hscene])
  have hafter := hm'.picture (by simp)
  rw [hscene] at hbefore
  obtain ⟨u, hu, hlen⟩ := uptime_fits shown
  obtain ⟨u', hu', hlen'⟩ := uptime_fits k.ticks
  have hdesk := hm.desk
  have hdesk' := hm'.desk
  intro px py hx hy hne
  by_contra hout
  push Not at hout
  have hsame (i : Fin 3) : stack PixelCall.painting (windowCalls m'.desk u' i) (px, py) =
      stack PixelCall.painting (windowCalls m.desk u i) (px, py) := by
    by_cases hi : m.desk.wfocus.toInt = i.val ∨ m'.desk.wfocus.toInt = i.val ∨ i.val = 0 ∧ shown / 100 ≠ k.ticks / 100
    · obtain ⟨hp, hp'⟩ := hout i hi
      rw [window_none hdesk hlen hp, window_none hdesk' hlen' hp']
    · obtain ⟨hf, hf', hclock⟩ : m.desk.wfocus.toInt ≠ i.val ∧ m'.desk.wfocus.toInt ≠ i.val ∧
          (i.val = 0 → shown / 100 = k.ticks / 100) := by
        refine ⟨fun h => hi (.inl h), fun h => hi (.inr (.inl h)), fun h₀ => ?_⟩
        by_contra hsecs
        exact hi (.inr (.inr ⟨h₀, hsecs⟩))
      have hfocus : i ≠ (Wm.after ticks keys).windows.focus := by
        rintro rfl
        exact hf hdesk.focus
      have hx' : m'.desk.wposX i = m.desk.wposX i :=
        UInt32.toNat_inj.1 (by rw [hdesk.x, hdesk'.x]; exact press_coord _ _ .x hfocus)
      have hy' : m'.desk.wposY i = m.desk.wposY i :=
        UInt32.toNat_inj.1 (by rw [hdesk.y, hdesk'.y]; exact press_coord _ _ .y hfocus)
      have hclock' (h₀ : i.val = 0) : u' = u :=
        Option.some.inj (by rw [← hu, ← hu']; exact uptime_congr (hclock h₀).symm)
      rw [windowCalls_congr hx' hy' hf hf' hclock']
  have hpaint := deskPainting_congr 800 600 hsame
  have hpixel := hbefore px py (by rw [hm.grid.width]; exact hx) (by rw [hm.grid.height]; exact hy)
  have hpixel' := hafter px py (by rw [hm'.grid.width]; exact hx) (by rw [hm'.grid.height]; exact hy)
  unfold Scene.painting at hpixel hpixel'
  dsimp only at hpixel hpixel'
  rw [hu, Option.getD_some] at hpixel
  rw [hu', Option.getD_some, hpaint, hpixel] at hpixel'
  exact hne (Option.some.inj hpixel').symm

/-- The first arrow key, within the first second: what is far from the first window stays. -/
theorem redraw_damage_right : ∃ m m', (start (static 1) 0 ((vbePitch 0).toNat * 600) (fun _ => 0) 0).bind
      (([] : List Key).foldlM Dahle.step) = some m ∧ Dahle.step m ⟨0x14, false, 99⟩ = some m' ∧
    m'.screen.fb.pixel 400 100 = m.screen.fb.pixel 400 100 := by
  obtain ⟨m, m', hrun, hstep, hdamage⟩ := @redraw_damage (static 1) (by decide) 0 (.inl rfl) (fun _ => 0) 0 [] 0 rfl
    ⟨0x14, false, 99⟩ (by decide)
  refine ⟨m, m', hrun, hstep, ?_⟩
  by_contra hne
  obtain ⟨i, hi, hin⟩ := hdamage 400 100 (by decide) (by decide) hne
  -- where the windows are
  obtain ⟨m₁, hrun₁, hm⟩ := @run_shown (static 1) (by decide) 0 (.inl rfl) (fun _ => 0) 0 []
  obtain rfl := Option.some.inj (hrun.symm.trans hrun₁)
  obtain ⟨m₂, hstep₂, hm'⟩ := hm.step ⟨0x14, false, 99⟩
  obtain rfl := Option.some.inj (hstep.symm.trans hstep₂)
  have hfocus : m.desk.wfocus.toInt = 0 := hm.desk.focus
  have hfocus' : m'.desk.wfocus.toInt = 0 := hm'.desk.focus
  have hx : (m.desk.wposX 0).toNat = 30 := hm.desk.x 0
  have hx' : (m'.desk.wposX 0).toNat = 38 := hm'.desk.x 0
  obtain rfl : i = 0 := by
    rcases hi with hi | hi | ⟨hi, -⟩
    · exact Fin.ext (by omega)
    · exact Fin.ext (by omega)
    · exact Fin.ext hi
  rcases hin with ⟨-, hright, -, -⟩ | ⟨-, hright, -, -⟩
  · change 400 < (m.desk.wposX 0).toNat + 300 + 4 at hright
    omega
  · change 400 < (m'.desk.wposX 0).toNat + 300 + 4 at hright
    omega

end Dahle

end DahleOS
