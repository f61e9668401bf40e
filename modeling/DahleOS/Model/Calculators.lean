import DahleOS.Model.Commands

/-!
# What the calculators print (`shell/commands.c`)

`cmd_boolean`, and the output of `cmd_alu` and `cmd_scp`.
-/

namespace DahleOS

open CArray

/-! ## `boolean` -/

/-- `parse_bool`. -/
def parseBool (token : Str) : Int32 :=
  if token = str "1" then 1
  else if token = str "0" then 0
  else if strcmp token (str "true") = 0 then 1
  else if strcmp token (str "false") = 0 then 0
  else -1

/-- The tokenizer of `cmd_boolean`, for `n` tokens at most. It ends a token with a NUL in
place of the space behind it. -/
def booleanTokens : (n : ℕ) → Str → List Str
  | 0, _ => []
  | n + 1, p =>
    let p := skipSpaces p
    if p = [] then []
    else
      let tok := p.takeWhile (· ≠ sp)
      tok :: booleanTokens n (p.drop tok.length).tail

/-- What `cmd_boolean` prints. -/
inductive BooleanMsg
  | usage
  | invalidValue
  | expected
  | invalidFirst
  | invalidSecond
  | unknownOperation (op : Str)
  | result (value : Int32)

/-- The text of it. -/
def BooleanMsg.text : BooleanMsg → Str
  | usage => str "Usage:\n" ++ str " boolean <first> <second> <op>\n" ++
      str "Operations: and, or, not (first is computed only), xor, nand, nor\n" ++ str "Example: boolean 1 0 and\n"
  | invalidValue => str "Error: invalid boolean value\n"
  | expected => str "Error: expected <first> <second> <op>\n"
  | invalidFirst => str "Error: invalid first value\n"
  | invalidSecond => str "Error: invalid second value\n"
  | unknownOperation op => str "Error: unknown operation '" ++ op ++ str "'\n"
  | result value => intToStr value ++ str "\n"

/-- `!a`. -/
def logicalNot (a : Int32) : Int32 := if a = 0 then 1 else 0

/-- `cmd_boolean`, with what `buf` held before. -/
def cmdBoolean (buf : Fin 64 → UInt8) (args : Str) : Option BooleanMsg := do
  if args = [] then return .usage
  let buf ← wr (strncpy buf args 63) 63 0
  match booleanTokens 3 (← cstr buf) with
  | [first, second, op] =>
    let a := parseBool first
    let b := parseBool second
    if a = -1 then return .invalidFirst
    if b = -1 then return .invalidSecond
    if strcmp op (str "and") = 0 then return .result (a &&& b)
    else if strcmp op (str "or") = 0 then return .result (a ||| b)
    else if strcmp op (str "xor") = 0 then return .result (a ^^^ b)
    else if strcmp op (str "nand") = 0 then return .result (logicalNot (a &&& b))
    else if strcmp op (str "nor") = 0 then return .result (logicalNot (a ||| b))
    else return .unknownOperation op
  | [first, second] =>
    if strcmp second (str "not") = 0 then
      let a := parseBool first
      if a = -1 then return .invalidValue
      return .result (logicalNot a)
    else return .expected
  | _ => return .expected

/-! ## `alu` -/

/-- The digits of `u` in base 2, most significant first; `fuel` bounds their number. -/
def binDigits : (fuel u : ℕ) → Str
  | 0, _ => []
  | _ + 1, 0 => []
  | fuel + 1, u => binDigits fuel (u / 2) ++ [digitCh (u % 2)]

/-- `int_to_bin`. The bits are those of the number without its sign, as an unsigned one. -/
def intToBin (n : Int32) : Str :=
  if n = 0 then str "0"
  else
    let m := if n < 0 then -n else n
    (if n < 0 then str "-" else []) ++ binDigits 32 m.toUInt32.toNat

/-- The text that `cmd_alu` prints. -/
def aluText (args : Str) : AluMsg → Str
  | .usage => str "Usage: alu <a> <b> <+|-|*|/>\n" ++
      if args = [] then str "  Operands can be decimal or binary with 0b prefix.\n" ++
        str "  Example: alu 5 8 +   or   alu 0b0101 0b1000 +\n" else []
  | .invalidOperand => str "Error: invalid operand\n"
  | .notANumber => str "Not a number.\n"
  | .unknownOperator => str "Error: unknown operator (use +, -, *, /)\n"
  | .result a b op value => str "=" ++ intToStr value ++ str "\n" ++
      str "  bin: 0b" ++ intToBin a ++ str " " ++ op ++ str " 0b" ++ intToBin b ++ str " = 0b" ++ intToBin value ++
      str "\n"

/-! ## `scp` -/

/-- `rand_range`, with its `seed` and what `timer_ticks` returns: the number and the next
seed. `none` is the remainder by zero. -/
def randRange (seed ticks : UInt32) (range : Int32) : Option (Int32 × UInt32) :=
  let seed := if seed = 0 then ticks + 1 else seed
  let seed := seed * 1664525 + 1013904223
  if range.toUInt32 = 0 then none else some (((seed >>> 1) % range.toUInt32).toInt32, seed)

/-- The two ends that `cmd_scp` reads, in order; `none` where it prints its usage. -/
def scpEnds (args : Str) : Option (Int32 × Int32) :=
  let a := word 11 args
  let b := word 11 (skipSpaces (args.drop a.length))
  if a = [] ∨ b = [] then none
  else
    let lo := strToInt a
    let hi := strToInt b
    some (if hi < lo then (hi, lo) else (lo, hi))

/-- What `cmd_scp` prints, and the seed behind it. -/
def scpText (seed ticks : UInt32) (args : Str) : Except Stop (Str × UInt32) :=
  match scpEnds args with
  | none => .ok (str "Usage: scp <a> <b>\n" ++
      if args = [] then str "Prints a random integer between a and b (inclusive).\n" else [], seed)
  | some (lo, hi) =>
    match randRange seed ticks (hi - lo + 1) with
    | none => .error .divideError
    | some (r, seed) => .ok (str "Random [" ++ intToStr lo ++ str ", " ++ intToStr hi ++ str "] -> " ++
        str "SCP " ++ intToStr (lo + r) ++ str "\n", seed)

end DahleOS
