import DahleOS.Model.Commands
import DahleOS.Model.VgaText

/-!
# The input line (`shell/shell.c`)

What `shell_run` does with a key, in text mode: the line, its history, and the screen that
it is shown on. `histN` counts lines and has no end here.
-/

namespace DahleOS

open CArray

/-- `line`, `len`, `hist`, `hist_n`, `hist_i`, `live`, with `LINE_MAX` = 256 and
`HISTORY_MAX` = 20. -/
structure Editor where
  line : Fin 256 → UInt8
  len : ℤ
  hist : Fin 20 → Fin 256 → UInt8
  histN : Int32
  histI : ℤ
  live : Fin 256 → UInt8

/-- The state at the first prompt. -/
def Editor.init : Editor := ⟨fun _ => 0, 0, fun _ _ => 0, 0, -1, fun _ => 0⟩

/-- The editor, and the screen behind it. -/
structure Console extends Editor where
  screen : VgaText

/-! ## History -/

/-- `hist_n && strcmp(hist[(hist_n - 1) % HISTORY_MAX], s) == 0`. -/
def histRepeats (e : Editor) (s : Str) : Option Bool := do
  if e.histN = 0 then return false
  let last ← cstr (← rd e.hist ((e.histN - 1) % 20).toInt)
  return strcmp last s = 0

/-- `hist_push`. -/
def histPush (e : Editor) (s : Str) : Option Editor := do
  if s = [] then return e
  if ← histRepeats e s then return e
  let entry ← rd e.hist (e.histN % 20).toInt
  let hist ← wr e.hist (e.histN % 20).toInt (strncpy entry s 255)
  return { e with hist, histN := e.histN + 1 }

/-- `hist_get`. At offset 0 it is the entry that will be written next. -/
def histGet (e : Editor) (offset : ℤ) : Option (Option (Fin 256 → UInt8)) := do
  let idx : ℤ := e.histN.toInt - offset
  if idx < 0 ∨ e.histN.toInt < offset then return none
  let entry ← rd e.hist (idx % 20)
  return some entry

/-! ## The line on the screen -/

/-- `kprint`. -/
def kprint (s : VgaText) (text : Str) : Option VgaText := vgaTextPrint s (text.map Subtype.val)

/-- `while (len-- > 0) screen_backspace();`. -/
def eraseChars : ℕ → VgaText → Option VgaText
  | 0, s => some s
  | n + 1, s => do eraseChars n (← vgaTextBackspace s)

/-- `redraw_line`. -/
def redrawLine (st : Console) (buf : Fin 256 → UInt8) : Option Console := do
  let screen ← eraseChars st.len.toNat st.screen
  let s ← cstr buf
  let line ← wr (strncpy st.line s 255) 255 0
  let text ← cstr line
  let screen ← kprint screen text
  return { st with line, len := text.length, screen }

/-- `line[len++] = c; kprint_char(c);`, if there is room. -/
def appendChar (st : Console) (c : UInt8) : Option Console := do
  if st.len < 255 then
    let line ← wr st.line st.len c
    let screen ← vgaTextPutchar st.screen c
    return { st with line, len := st.len + 1, screen }
  else return st

/-- The loop that completes a name. -/
def completeLoop : Str → Console → Option Console
  | [], st => some st
  | c :: rest, st => if st.len < 255 then do completeLoop rest (← appendChar st c) else some st

/-! ## Keys -/

/-- What `shell_run` does with a key that is not Enter. -/
def shellKey (st : Console) (c : UInt8) : Option Console := do
  -- Backspace
  if c = 8 then
    if 0 < st.len then
      let line ← wr st.line (st.len - 1) 0
      let screen ← vgaTextBackspace st.screen
      return { st with line, len := st.len - 1, screen }
    else return st
  -- Tab
  else if c = 9 then
    let text ← cstr st.line
    match cmdTable.find? fun e => strncmp st.len.toNat e.1 text = 0 with
    | none => return st
    | some (name, _) =>
      if (name.length : ℤ) < st.len then none else completeLoop (name.drop st.len.toNat) st
  -- Ctrl-P
  else if c = 0x10 then
    let next := st.histI + 1
    match ← histGet st.toEditor next with
    | none => return st
    | some entry =>
      let live ← if st.histI = -1 then do some (strncpy st.live (← cstr st.line) 255) else some st.live
      redrawLine { st with live, histI := next } entry
  -- Ctrl-N
  else if c = 0x0E then
    if 1 < st.histI then
      let st := { st with histI := st.histI - 1 }
      match ← histGet st.toEditor st.histI with
      | none => return st
      | some entry => redrawLine st entry
    else if st.histI = 1 then redrawLine { st with histI := -1 } st.live
    else return st
  else if 32 ≤ c ∧ c < 127 then appendChar st c
  else return st

/-- What Enter does to the editor, with the line that is run. -/
def shellEnter (e : Editor) : Option (Str × Editor) := do
  let line ← wr e.line e.len 0
  let s ← cstr line
  let e ← histPush { e with line } s
  return (s, { e with histI := -1, line := fun _ => 0, len := 0 })

/-- The loop of `shell_run` over what `keyboard_getchar` returns, up to the line that is run. -/
def shellRead (st : Console) : List UInt8 → Option (Str × Console)
  | [] => none
  | c :: cs =>
    if c = 10 then do
      let screen ← vgaTextPutchar st.screen 10
      let (s, e) ← shellEnter st.toEditor
      return (s, { e with screen })
    else do shellRead (← shellKey st c) cs

end DahleOS
