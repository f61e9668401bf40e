import DahleOS.Lib.Expander
import DahleOS.Model.Commands

/-!
# The shell (`shell/shell.c`)

`run` takes a line: the trapdoor sees it first, then come the hidden console, the command
table and the alias table. An alias is expanded into a line that is run in turn, and
`repeat` runs a line several times over; both go through `run` again. `run_depth` guards
the expansions.

`run` is the dispatcher of `Expander`, with what `shellAction` says about a line and the
guard of the source. Fuel stands for the time it may take.
-/

namespace DahleOS

open Expander

/-- What an alias is expanded with: its value, and the remaining arguments. -/
abbrev Expansion := Str × Str

/-- A command returns, or it does not. -/
def finish : Except Stop Machine → Action Machine Str Expansion Stop
  | .ok m => .done m
  | .error why => .stop why

/-- One call of `run`, up to the calls it makes in turn. -/
def shellAction (m : Machine) (input : Str) : Action Machine Str Expansion Stop :=
  let input := skipSpaces input
  if input = [] then .done m
  else
    let (consumed, m) := ddfTrySecret m input
    if consumed then .done m
    else
      let name := word 63 input
      let args := skipSpaces (input.drop name.length)
      if strcmp name (str "ddf") = 0 then finish (ddfCommand m args)
      else match cmdTable.find? fun e => strcmp e.1 name = 0 with
        | some (_, .loop) => match repeatArgs args with
          | some (count, subcmd) => .loop m count subcmd
          | none => .done m
        | some (_, c) => finish (c.exec m args)
        | none => match aliasResolve m.aliases name with
          | some (some expanded) => .expand m (expanded, args)
          | some none => .done m
          | none => .stop .fault

/-- The line put together in `full[256]`: the value, cut to 254 characters, and the
arguments behind a space; `none` if it does not fit. -/
def aliasLine (x : Expansion) : Option Str := do
  let full ← cstr (strncpy (fun _ : Fin 256 => 0) x.1 254)
  if x.2 = [] then return full
  let full ← strcat 256 full [sp]
  strcat 256 full x.2

/-- The guard of `run`: an expansion is refused when `run_depth > 8`, and `run_depth` is
set to 0 then. -/
def runPolicy : Policy Str Expansion := ⟨fun _ => 0, aliasLine⟩

/-- `run`, from a `run_depth`. -/
def run (fuel : ℕ) (depth : ℤ) (m : Machine) (line : Str) : Result Machine Stop :=
  dispatch shellAction runPolicy 8 fuel 0 depth m line

/-! ## The main loop -/

/-- The start of `shell_run`: the saved state if there is one, else the default tree. -/
def shellBoot (w : World) : Option World := do
  let w := { w with fs := fsInitEmpty }
  let (saved, w) := persistProbe w
  if saved then
    let (_, w) := persistLoadAliases w
    let (r, w) := persistLoadFs w
    if r ≠ .ok then return { w with fs := ← fsInit }
    return w
  else return { w with fs := ← fsInit }

/-- The machine after the start. -/
def Machine.boot (w : World) : Option Machine := do
  let toWorld ← shellBoot w
  return ⟨toWorld, false, false, 0⟩

/-- `print_prompt`: the path it shows. -/
def prompt (m : Machine) : Option Str := fsPwdStr m.fs

/-- A line typed at the prompt is run, and returns. -/
def Returns (depth : ℤ) (m : Machine) (line : Str) (depth' : ℤ) (m' : Machine) : Prop :=
  ∃ fuel, (run fuel depth m line).ending = .returned m' depth'

/-- **A session**: what was typed so far, each line with the machine and the `run_depth`
it was typed at, and where that led. Latest line first. -/
inductive Session (m₀ : Machine) : List (Machine × ℤ × Str) → Machine → ℤ → Prop
  | start : Session m₀ [] m₀ 0
  | line {typed m d l m' d'} : Session m₀ typed m d → Returns d m l d' m' →
    Session m₀ ((m, d, l) :: typed) m' d'

end DahleOS
