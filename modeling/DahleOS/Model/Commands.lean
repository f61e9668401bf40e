import DahleOS.Model.Persist

/-!
# The commands of the shell (`shell/commands.c`)

The commands that change what the shell keeps, or that may not return. A command that
only prints or draws changes nothing here (`Builtin.quiet`); the variables of `matrix`
and the seed of `scp` are read by no other command and are no part of the state here.

A command that does not return stops the machine: it halts it, divides in a way the CPU
traps, or leaves the bounds of an array.
-/

namespace DahleOS

open CArray

/-- The state of the commands: what is saved, and the trapdoor. -/
structure Machine extends World where
  ddfUnlocked : Bool
  ddfWaitingSecret : Bool
  ddfLastNumerator : Int32

/-- Why a command does not return. -/
inductive Stop
  | halted
  | divideError
  | fault
  deriving DecidableEq

/-! ## Aliases -/

/-- The loop over the table that `alias_resolve` and `cmd_alias` share. -/
def AliasTable.find (t : AliasTable) (name : Str) : Option (Option ℕ) :=
  let test (a : Alias) : Option Bool := do
    let s ← cstr a.name
    return strcmp s name = 0
  findSlot t.table test 0 t.count.toInt.toNat

/-- `alias_resolve`: the value, if there is an alias of that name. -/
def aliasResolve (t : AliasTable) (name : Str) : Option (Option Str) := do
  match ← t.find name with
  | none => return none
  | some i =>
    let a ← rd t.table i
    let value ← cstr a.value
    return some value

/-- What `cmd_alias` prints. -/
inductive AliasMsg
  | none
  | listing (entries : List (Str × Str))
  | usage
  | updated
  | full
  | added

/-- The listing of `cmd_alias`, from slot `i` on with `todo` rounds left. -/
def aliasListFrom (t : AliasTable) : (i todo : ℕ) → Option (List (Str × Str))
  | _, 0 => some []
  | i, todo + 1 => do
    let a ← rd t.table i
    let name ← cstr a.name
    let value ← cstr a.value
    let rest ← aliasListFrom t (i + 1) todo
    return (name, value) :: rest

/-- Name and value in the arguments of `cmd_alias`. -/
def aliasArgs (args : Str) : Str × Str :=
  let name := word 31 args
  (name, skipSpaces (args.drop name.length))

/-- The change `cmd_alias` makes to the table: `none` in the second place if it makes
none. -/
def aliasSet (t : AliasTable) (args : Str) : Option (AliasMsg × Option AliasTable) := do
  let (name, value) := aliasArgs args
  if name = [] ∨ value = [] then return (.usage, none)
  match ← t.find name with
  | some i =>
    let a ← rd t.table i
    -- the name stays as it is
    let table ← wr t.table i { a with value := strncpy a.value value 127 }
    return (.updated, some { t with table })
  | none =>
    if 16 ≤ t.count then return (.full, none)
    let a ← rd t.table t.count.toInt
    let table ← wr t.table t.count.toInt ⟨strncpy a.name name 31, strncpy a.value value 127⟩
    return (.added, some ⟨table, t.count + 1⟩)

/-- `cmd_alias`. Every change is followed by a save, whose result is not looked at. -/
def cmdAlias (w : World) (args : Str) : Option (AliasMsg × World) :=
  if args = [] then do
    if w.aliases.count = 0 then return (.none, w)
    let entries ← aliasListFrom w.aliases 0 w.aliases.count.toInt.toNat
    return (.listing entries, w)
  else do
    match ← aliasSet w.aliases args with
    | (msg, none) => return (msg, w)
    | (msg, some aliases) => return (msg, (persistSaveAliases { w with aliases }).2)

/-! ## The filesystem -/

/-- `cmd_mkdir`, `cmd_touch`, `cmd_rm`, `cmd_cd`, `cmd_ls`, `cmd_cat`, `cmd_pwd`, with the
save at their ends. -/
def cmdFs (cmd : FsCmd) (w : World) (args : Str) : Option (Option FsMsg × World) := do
  let r ← cmd.exec w.fs args
  let w := { w with fs := r.fs }
  return (r.msg, if r.save then (persistSaveFs w).2 else w)

/-! ## Persistence -/

/-- `cmd_save`: whether it reports success. -/
def cmdSave (w : World) : Bool × World :=
  let (r1, w) := persistSaveAliases w
  let (r2, w) := persistSaveFs w
  (r1 = .ok ∧ r2 = .ok, w)

/-- `cmd_load`: whether it reports success. The second category is loaded whatever became
of the first. -/
def cmdLoad (w : World) : Bool × World :=
  let (r1, w) := persistLoadAliases w
  let (r2, w) := persistLoadFs w
  (r1 = .ok ∧ r2 = .ok, w)

/-- `savelist_names`. -/
def Category.name : Category → Str
  | .aliases => str "aliases"
  | .fs => str "fs"

/-- What `cmd_savelist` prints. -/
inductive SavelistMsg
  | current (categories : List Category)
  | usage
  | missingCategory
  | unknownCategory (args : Str)
  | alreadyIn (c : Category)
  | notIn (c : Category)
  | added (c : Category)
  | removed (c : Category)

/-- The category whose name the arguments start with, as a word. -/
def savelistFind (args : Str) : Option Category :=
  [Category.aliases, Category.fs].find? fun c =>
    c.name <+: args ∧ (args.drop c.name.length = [] ∨ (args.drop c.name.length).head? = some sp)

/-- `cmd_savelist`. -/
def cmdSavelist (w : World) (args : Str) : SavelistMsg × World :=
  let sl := w.savelistFlags
  if args = [] ∨ str "sh" <+: args then
    (.current ([Category.aliases, Category.fs].filter fun c => sl &&& c.bit ≠ 0), w)
  else if str "add" <+: args ∨ str "rem" <+: args then
    let rest := skipSpaces (args.dropWhile (· ≠ sp))
    if rest = [] then (.missingCategory, w)
    else match savelistFind rest with
      | none => (.unknownCategory rest, w)
      | some c =>
        if str "add" <+: args then
          if sl &&& c.bit ≠ 0 then (.alreadyIn c, w)
          else (.added c, persistSavelistSet w (sl ||| c.bit))
        else
          if sl &&& c.bit = 0 then (.notIn c, w)
          else (.removed c, persistSavelistSet w (sl &&& ~~~c.bit))
  else (.usage, w)

/-! ## Arithmetic and the trapdoor -/

/-- The tokenizer of `cmd_alu`: `n` words at most, each cut to 19 characters; what is cut
off starts the next. -/
def aluTokens : (n : ℕ) → Str → List Str
  | 0, _ => []
  | n + 1, p =>
    -- the rest of a longer word is a token of its own
    let p := skipSpaces p
    let tok := word 19 p
    if tok = [] then [] else tok :: aluTokens n (p.drop tok.length)

/-- The loop of `bin_to_int`. -/
def binToIntLoop : Str → Int32 → Int32
  | [], result => result
  | c :: cs, result =>
    if c.val = 48 then binToIntLoop cs (result <<< 1)
    else if c.val = 49 then binToIntLoop cs (result <<< 1 ||| 1)
    else -1

/-- `bin_to_int`. -/
def binToInt (s : Str) : Int32 := if s = [] then -1 else binToIntLoop s 0

/-- `parse_operand`. -/
def parseOperand (s : Str) : Option Int32 :=
  if s = [] then none
  else if str "0b" <+: s ∨ str "0B" <+: s then
    let v := binToInt (s.drop 2)
    if v < 0 then none else some v
  else some (strToInt s)

/-- What `cmd_alu` prints. -/
inductive AluMsg
  | usage
  | invalidOperand
  | notANumber
  | unknownOperator
  | result (a b : Int32) (op : Str) (value : Int32)

/-- `cmd_alu`. Dividing by zero arms the trapdoor; `INT_MIN / -1` traps. -/
def cmdAlu (m : Machine) (args : Str) : Except Stop (AluMsg × Machine) :=
  match aluTokens 3 args with
  | [ta, tb, op] =>
    match parseOperand ta, parseOperand tb with
    | some a, some b =>
      let result (value : Int32) : Except Stop (AluMsg × Machine) := .ok (.result a b op value, m)
      match op.head?.map Subtype.val with
      | some 43 => result (a + b)
      | some 45 => result (a - b)
      | some 42 => result (a * b)
      | some 47 =>
        if b = 0 then .ok (.notANumber, { m with ddfLastNumerator := a, ddfWaitingSecret := true })
        else if a = Int32.minValue ∧ b = -1 then .error .divideError
        else result (a / b)
      | _ => .ok (.unknownOperator, m)
    | _, _ => .ok (.invalidOperand, m)
  | _ => .ok (.usage, m)

/-- The sentence `ddf_try_secret` waits for. -/
def ddfExpect (n : Int32) : Str :=
  str "actually " ++ intToStr n ++ str " divided by 0 is " ++ str (if n = 0 then "indeterminate" else "undefined")

/-- `ddf_try_secret`: whether the line was consumed. One line only is checked. -/
def ddfTrySecret (m : Machine) (input : Str) : Bool × Machine :=
  if !m.ddfWaitingSecret then (false, m)
  else
    let m := { m with ddfWaitingSecret := false }
    if strcmp input (ddfExpect m.ddfLastNumerator) ≠ 0 then (false, m)
    else (true, { m with ddfUnlocked := true })

/-- `ddf_command`: `panic` ends in a reboot. -/
def ddfCommand (m : Machine) (args : Str) : Except Stop Machine :=
  if !m.ddfUnlocked then .ok m
  else if strcmp args (str "lock") = 0 then .ok { m with ddfUnlocked := false }
  else if strcmp args (str "panic") = 0 then .error .halted
  else .ok m

/-- The range that `cmd_scp` passes to `rand_range`, in 32-bit arithmetic; `none` where it
prints its usage. -/
def scpRange (args : Str) : Option Int32 :=
  let a := word 11 args
  let b := word 11 (skipSpaces (args.drop a.length))
  if a = [] ∨ b = [] then none
  else
    let lo := strToInt a
    let hi := strToInt b
    some (if hi < lo then lo - hi + 1 else hi - lo + 1)

/-- `cmd_scp`: the range is a divisor. -/
def cmdScp (m : Machine) (args : Str) : Except Stop Machine :=
  if scpRange args = some 0 then .error .divideError else .ok m

/-! ## The command table -/

/-- What a table entry does. -/
inductive Builtin
  | quiet
  | stop
  | scp
  | loop
  | fs (cmd : FsCmd)
  | alu
  | aliasCmd
  | save
  | load
  | savelist
  deriving DecidableEq

/-- `cmd_table`. -/
def cmdTable : List (Str × Builtin) :=
  [(str "help", .quiet), (str "clear", .quiet), (str "echo", .quiet), (str "color", .quiet),
    (str "uptime", .quiet), (str "info", .quiet), (str "reboot", .stop), (str "halt", .stop),
    (str "scp", .scp), (str "dahle", .quiet), (str "kernelpanic", .stop), (str "repeat", .loop),
    (str "about", .quiet), (str "pwd", .fs .pwd), (str "ls", .fs .ls), (str "mkdir", .fs .mkdir),
    (str "touch", .fs .touch), (str "rm", .fs .rm), (str "cd", .fs .cd), (str "cat", .fs .cat),
    (str "alu", .alu), (str "upper", .quiet), (str "lower", .quiet), (str "alias", .aliasCmd),
    (str "save", .save), (str "load", .load), (str "savelist", .savelist), (str "matrix", .quiet),
    (str "boolean", .quiet), (str "graphics", .quiet)]

/-- An array access that fails stops the machine. -/
def orFault (m : Machine) : Option World → Except Stop Machine
  | none => .error .fault
  | some toWorld => .ok { m with toWorld }

/-- `cmd_table[c].fn(args)`, what it prints left out. The runs that `repeat` asks for are
the shell's to make. -/
def Builtin.exec (m : Machine) (args : Str) : Builtin → Except Stop Machine
  | quiet => .ok m
  | stop => .error .halted
  | scp => cmdScp m args
  | loop => .ok m
  | fs cmd => orFault m ((cmdFs cmd m.toWorld args).map Prod.snd)
  | alu => (cmdAlu m args).map Prod.snd
  | aliasCmd => orFault m ((cmdAlias m.toWorld args).map Prod.snd)
  | save => .ok { m with toWorld := (cmdSave m.toWorld).2 }
  | load => .ok { m with toWorld := (cmdLoad m.toWorld).2 }
  | savelist => .ok { m with toWorld := (cmdSavelist m.toWorld args).2 }

/-- The count and the line of `cmd_repeat`; `none` where it prints its usage or an
error. -/
def repeatArgs (args : Str) : Option (ℕ × Str) :=
  let countStr := word 11 args
  let subcmd := skipSpaces (args.drop countStr.length)
  if subcmd = [] then none
  else
    let count := strToInt countStr
    if count ≤ 0 ∨ 100 < count then none else some (count.toInt.toNat, subcmd)

end DahleOS
