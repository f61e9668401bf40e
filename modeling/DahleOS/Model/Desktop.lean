import DahleOS.Lib.CArray
import DahleOS.Model.Widgets

/-!
# The desktop (`cmd_dahle` of `shell/commands.c`)

Three windows, a focus, and a loop that takes a key and draws everything again. Wherever
the code waits for a key it is in one of three loops or calls (`Mode`); `Dahle.step` is what
it does with the key until it waits again. A key comes with what `keyboard_shift_held()` and
`timer_ticks()` give when they are asked after it. An access outside an array or a buffer is
`none`.
-/

namespace DahleOS

namespace Dahle

open CArray Gui Screen

/-! ## Contents of windows -/

/-- `LINE_GAP`, and the first row of a line of text. -/
def lineGap : UInt32 := 4
def lineY (wy line : UInt32) : UInt32 := wy + titleH + 2 + line * (ch + lineGap)

/-- `dahle_wtext`. -/
def wtext (wx wy line : UInt32) (text : Str) (color : UInt32) : List PixelCall :=
  [.str (wx + pad) (lineY wy line) text color gcWinBg]

/-- `dahle_wkv`. -/
def wkv (wx wy line : UInt32) (key val : Str) : List PixelCall :=
  wtext wx wy line key gcTextDim ++ [.str (wx + pad + 9 * cw) (lineY wy line) val gcText gcWinBg]

/-- `dahle_focus_glow`. -/
def focusGlow (x y w h : UInt32) : List PixelCall :=
  if x < 2 ∨ y < 2 then [] else [.roundedRect (x - 2) (y - 2) (w + 4) (h + 4) 8 gcAccent]

/-- `int_to_str(n, buf)` into an array of `cap` bytes. -/
def intToStrIn (cap : ℕ) (n : Int32) : Option Str :=
  if (intToStr n).length < cap then some (intToStr n) else none

/-! ## The windows -/

/-- `SYSINFO_W`, `SYSINFO_H`, and those of the others. -/
def sysinfoW : UInt32 := 300
def sysinfoH : UInt32 := 185
def welcomeW : UInt32 := 240
def welcomeH : UInt32 := 135
def controlsW : UInt32 := 160
def controlsH : UInt32 := 135

/-- The text behind `Uptime:`, in `ubuf[12]` and `ustr[20]`. -/
def uptime (ticks : UInt32) : Option Str := do
  let ubuf ← intToStrIn 12 (ticks / 100).toInt32
  let ustr ← strcat 20 [] ubuf
  strcat 20 ustr (str " s")

/-- The calls of `dahle_sysinfo_window`, with the text in `ustr`. -/
def sysinfoCalls (x y : UInt32) (focused : Bool) (ustr : Str) : List PixelCall :=
  (if focused then focusGlow x y sysinfoW sysinfoH else []) ++
    window x y sysinfoW sysinfoH (str "System Information") ++
    wkv x y 0 (str "OS:     ") (str "DahleOS v2.3.0") ++
    wkv x y 1 (str "Arch:   ") (str "x86  32-bit Protected Mode") ++
    wkv x y 2 (str "Video:  ") (str "800x600x32  VESA") ++
    wkv x y 3 (str "Timer:  ") (str "PIT  100 Hz") ++
    wkv x y 4 (str "Shell:  ") (str "DahleOS interactive shell") ++
    wkv x y 5 (str "Uptime: ") ustr ++
    badge (x + pad) (lineY y 6) (str "ONLINE") gcWinBg gcSuccess

/-- `dahle_sysinfo_window`. -/
def sysinfoWindow (x y : UInt32) (focused : Bool) (ticks : UInt32) : Option (List PixelCall) := do
  let ustr ← uptime ticks
  return sysinfoCalls x y focused ustr

/-- `dahle_welcome_window`. -/
def welcomeWindow (x y : UInt32) (focused : Bool) : List PixelCall :=
  (if focused then focusGlow x y welcomeW welcomeH else []) ++
    window x y welcomeW welcomeH (str "Welcome") ++
    wtext x y 0 (str "DahleOS Graphical Shell") gcText ++
    wtext x y 1 (str "Powered by VESA framebuffer") gcTextDim ++
    separator (x + pad) (lineY y 2) (welcomeW - 2 * pad) ++
    wtext x y 3 (str "v2.3.0  x86 Protected Mode") gcTextDim

/-- `dahle_controls_window`. -/
def controlsWindow (x y : UInt32) (focused : Bool) : List PixelCall :=
  (if focused then focusGlow x y controlsW controlsH else []) ++
    window x y controlsW controlsH (str "Controls") ++
    wtext x y 0 (str "Tab    focus") gcText ++
    wtext x y 1 (str "Arrows  move") gcText ++
    wtext x y 2 (str "ESC     exit") gcText ++
    wtext x y 3 (str "S+ESC   apps") gcText

/-- `wpos_x`, `wpos_y`, `wfocus`. -/
structure Desk where
  wposX : Fin 3 → UInt32
  wposY : Fin 3 → UInt32
  wfocus : Int32

/-- What `dahle_redraw` puts on the background of the desktop. -/
def scene (sw sh : UInt32) (d : Desk) (ticks : UInt32) : Option (List PixelCall) := do
  let sysinfo ← sysinfoWindow (← rd d.wposX 0) (← rd d.wposY 0) (d.wfocus = 0) ticks
  let welcome := welcomeWindow (← rd d.wposX 1) (← rd d.wposY 1) (d.wfocus = 1)
  let controls := controlsWindow (← rd d.wposX 2) (← rd d.wposY 2) (d.wfocus = 2)
  return statusbar sw sh (some (str "DahleOS  v2.3.0")) (some (str "Tab  Arrows  ESC  S+ESC")) ++
    sysinfo ++ welcome ++ controls ++
    labelCentered 0 (sh - sbH - ch - 20) sw
      (str "Tab  next window  |  Arrows  move  |  ESC  exit  |  Shift+ESC  apps") gcTextDim Framebuffer.transparent

/-- `dahle_redraw`. -/
def redraw (f : Framebuffer) (d : Desk) (ticks : UInt32) : Option Framebuffer := do
  let calls ← scene f.w f.h d ticks
  let f ← desktop f
  f.draw calls

/-! ## Apps -/

/-- `dahle_modal_scrim`. -/
def modalScrim (sw sh : UInt32) : List PixelCall := [.fillRect 0 0 sw (sh - sbH) (rgb 6 9 14)]

/-- The line below an app. -/
def closeHint (sw y : UInt32) : List PixelCall :=
  labelCentered 0 y sw (str "Press any key to close...") gcTextDim Framebuffer.transparent

/-- The texts behind `Uptime:` and `Ticks:`, in `hs[8]`, `ms[8]`, `ss[8]`, `ts[12]` and `upstr[32]`. -/
def sysmonTexts (ticks : UInt32) : Option (Str × Str) := do
  let secs := ticks / 100
  let mins := secs / 60
  let hrs := mins / 60
  let hs ← intToStrIn 8 hrs.toInt32
  let ms ← intToStrIn 8 (mins % 60).toInt32
  let ss ← intToStrIn 8 (secs % 60).toInt32
  let ts ← intToStrIn 12 ticks.toInt32
  let upstr ← [hs, str "h  ", ms, str "m  ", ss, str "s"].foldlM (strcat 32) []
  return (upstr, ts)

/-- What `dahle_app_sysmon` draws. -/
def appSysmon (sw sh ticks : UInt32) : Option (List PixelCall) := do
  let aw : UInt32 := 380
  let ah : UInt32 := 220
  let ax := (800 - aw) / 2
  let ay := (600 - ah) / 2
  let (upstr, ts) ← sysmonTexts ticks
  return modalScrim sw sh ++ window ax ay aw ah (str "System Monitor") ++
    wkv ax ay 0 (str "OS:      ") (str "DahleOS v2.3.0") ++
    wkv ax ay 1 (str "Arch:    ") (str "x86  32-bit Protected Mode") ++
    wkv ax ay 2 (str "Video:   ") (str "800x600x32  VESA framebuffer") ++
    wkv ax ay 3 (str "Timer:   ") (str "PIT  100 Hz") ++
    wkv ax ay 4 (str "Uptime:  ") upstr ++
    wkv ax ay 5 (str "Ticks:   ") ts ++
    badge (ax + pad) (lineY ay 7) (str "ONLINE") gcWinBg gcSuccess ++
    closeHint sw (ay + ah + 14)

/-- What `dahle_app_about` draws. -/
def appAbout (sw sh : UInt32) : List PixelCall :=
  let aw : UInt32 := 340
  let ah : UInt32 := 185
  let ax := (800 - aw) / 2
  let ay := (600 - ah) / 2
  modalScrim sw sh ++ window ax ay aw ah (str "About DahleOS") ++
    wtext ax ay 0 (str "DahleOS  v2.3.0") gcText ++
    wtext ax ay 1 (str "A 32-bit bare-metal OS") gcTextDim ++
    separator (ax + pad) (lineY ay 2) (aw - 2 * pad) ++
    wtext ax ay 3 (str "Architecture: x86 Protected Mode") gcTextDim ++
    wtext ax ay 4 (str "Display:  VESA 800x600x32 bpp") gcTextDim ++
    wtext ax ay 5 (str "Runtime:  QEMU i386") gcTextDim ++
    closeHint sw (ay + ah + 14)

/-- What `dahle_launcher` draws. -/
def launcher (sw sh : UInt32) : List PixelCall :=
  let lw : UInt32 := 280
  let lh : UInt32 := 155
  let lx := (800 - lw) / 2
  let ly := (600 - lh) / 2
  modalScrim sw sh ++ window lx ly lw lh (str "App Launcher") ++
    wtext lx ly 0 (str "[1]  System Monitor") gcText ++
    wtext lx ly 1 (str "[2]  About DahleOS") gcText ++
    separator (lx + pad) (lineY ly 2) (lw - 2 * pad) ++
    wtext lx ly 3 (str "[ESC]  Close") gcTextDim

/-! ## The loop -/

/-- `MOVE_STEP`. -/
def moveStep : UInt32 := 8

/-- `if (wpos[wfocus] >= MOVE_STEP + 2u) wpos[wfocus] -= MOVE_STEP;`. -/
def moveDown (wpos : Fin 3 → UInt32) (wfocus : Int32) : Option (Fin 3 → UInt32) := do
  let v ← rd wpos wfocus.toInt
  if moveStep + 2 ≤ v then wr wpos wfocus.toInt (v - moveStep) else return wpos

/-- `if (wpos[wfocus] + MOVE_STEP < limit) wpos[wfocus] += MOVE_STEP;`. -/
def moveUp (limit : UInt32) (wpos : Fin 3 → UInt32) (wfocus : Int32) : Option (Fin 3 → UInt32) := do
  let v ← rd wpos wfocus.toInt
  if v + moveStep < limit then wr wpos wfocus.toInt (v + moveStep) else return wpos

/-- What a key that is not ESC does to the windows: Tab, or an arrow. -/
def Desk.press (d : Desk) (c : UInt8) : Option Desk := do
  if c = 9 then
    return { d with wfocus := (d.wfocus + 1) % 3 }
  else if c = 0x11 then
    let wposY ← moveDown d.wposY d.wfocus
    return { d with wposY }
  else if c = 0x12 then
    let wposY ← moveUp 560 d.wposY d.wfocus
    return { d with wposY }
  else if c = 0x13 then
    let wposX ← moveDown d.wposX d.wfocus
    return { d with wposX }
  else if c = 0x14 then
    let wposX ← moveUp 798 d.wposX d.wfocus
    return { d with wposX }
  else return d

/-- Where the code waits for a key: in the loop, in the launcher, or in an app. Or `cmd_dahle` has
returned. -/
inductive Mode
  | desktop
  | launcher
  | app
  | left
  deriving DecidableEq

/-- A key. -/
structure Key where
  c : UInt8
  shift : Bool
  ticks : UInt32

end Dahle

/-- The screen, the windows, and where the code waits. -/
structure Dahle where
  screen : Screen
  desk : Dahle.Desk
  mode : Dahle.Mode

namespace Dahle

open Screen

/-- What is printed at the end of `cmd_dahle`. -/
def farewell : List TextOp :=
  [.printColor ((str "\n  DahleOS  v2.3.0\n").map Subtype.val) 0x56D364 black,
    .printColor ((str "  ----------------\n\n").map Subtype.val) 0x8B949E black,
    .printColor ((str "  All systems nominal.\n\n").map Subtype.val) 0x3FB950 black]

/-- A redraw, after which the code waits in the loop. -/
def refresh (d : Dahle) (ticks : UInt32) : Option Dahle := do
  let fb ← redraw d.screen.fb d.desk ticks
  return { d with screen := { d.screen with fb }, mode := .desktop }

/-- Calls to the pixel layer, after which the code waits in `mode`. -/
def display (d : Dahle) (calls : List PixelCall) (mode : Mode) : Option Dahle := do
  let fb ← d.screen.fb.draw calls
  return { d with screen := { d.screen with fb }, mode }

/-- `cmd_dahle`, up to the first key. -/
def start (s : Screen) (vw : UInt16) (size : ℕ) (mem : Fin size → UInt8) (ticks : UInt32) : Option Dahle := do
  let screen ← s.enterVbe vw size mem
  let wposX : Fin 3 → UInt32 := fun i => if i.val = 0 then 30 else if i.val = 1 then 350 else 610
  refresh ⟨screen, ⟨wposX, fun _ => 70, 0⟩, .desktop⟩ ticks

/-- `cmd_dahle`, from one key to the next. -/
def step (d : Dahle) (k : Key) : Option Dahle := do
  let sw := d.screen.fb.w
  let sh := d.screen.fb.h
  match d.mode with
  | .desktop =>
    if k.c = 27 then
      if k.shift then d.display (launcher sw sh) .launcher
      else
        let screen ← ([TextOp.setColor white black, .clear] ++ farewell).foldlM TextOp.apply d.screen
        return { d with screen, mode := .left }
    else
      let desk ← d.desk.press k.c
      refresh { d with desk } k.ticks
  | .launcher =>
    if k.c = 49 then
      let calls ← appSysmon sw sh k.ticks
      d.display calls .app
    else if k.c = 50 then d.display (appAbout sw sh) .app
    else d.refresh k.ticks
  | .app => d.refresh k.ticks
  | .left => return d

end Dahle

end DahleOS
