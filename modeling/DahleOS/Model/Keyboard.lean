import DahleOS.Lib.CArray

/-!
# The keyboard driver (`drivers/keyboard.c`)

The interrupt handler, with its scancode tables and its ring of characters, and the three
steps of `keyboard_getchar` that an interrupt can come between.
-/

namespace DahleOS

open CArray

/-- `buf`, `head`, `tail`, `shift`, `caps`, `ext`, with `BUF` = 256. -/
structure Kbd where
  buf : Fin 256 → UInt8
  head : ℤ
  tail : ℤ
  shift : Bool
  caps : Bool
  ext : Bool

/-- The state at power-on. -/
def Kbd.init : Kbd := ⟨fun _ => 0, 0, 0, false, false, false⟩

/-- The bytes of characters. -/
def chars (s : String) : List UInt8 := s.toList.map fun c => UInt8.ofNat c.toNat

/-- `norm`. -/
def norm : List UInt8 :=
  [0, 27] ++ chars "1234567890-=" ++ [8] ++
  [9] ++ chars "qwertyuiop[]" ++ [10] ++
  [0] ++ chars "asdfghjkl;" ++ [39, 96] ++
  [0, 92] ++ chars "zxcvbnm,./" ++ [0] ++ chars "*" ++ [0] ++ chars " "

/-- `shft`. -/
def shft : List UInt8 :=
  [0, 27] ++ chars "!@#$%^&*()_+" ++ [8] ++
  [9] ++ chars "QWERTYUIOP" ++ [123, 125, 10] ++
  [0] ++ chars "ASDFGHJKL:" ++ [34, 126] ++
  [0, 124] ++ chars "ZXCVBNM<>?" ++ [0] ++ chars "*" ++ [0] ++ chars " "

/-- The arrow keys, as private control characters. -/
def arrow (sc : UInt8) : UInt8 :=
  if sc = 0x48 then 0x11
  else if sc = 0x50 then 0x12
  else if sc = 0x4B then 0x13
  else if sc = 0x4D then 0x14
  else 0

/-- `(shift ^ caps) ? shft : norm`. -/
def Kbd.table (k : Kbd) : List UInt8 := if k.shift ^^ k.caps then shft else norm

/-- What a scancode does to the flags, and the character it makes; 0 is none. -/
def kbdDecode (k : Kbd) (sc : UInt8) : Option (UInt8 × Kbd) :=
  if sc = 0xE0 then some (0, { k with ext := true })
  else if sc = 0x2A ∨ sc = 0x36 then some (0, { k with shift := true, ext := false })
  else if sc = 0xAA ∨ sc = 0xB6 then some (0, { k with shift := false, ext := false })
  else if sc = 0x3A then some (0, { k with caps := !k.caps, ext := false })
  else if sc &&& 0x80 ≠ 0 then some (0, { k with ext := false })
  else if k.ext then some (arrow sc, { k with ext := false })
  else if sc.toNat < norm.length then do
    let c ← k.table[sc.toNat]?
    return (c, k)
  else some (0, k)

/-- The character goes into the ring, if there is room. -/
def kbdEnqueue (k : Kbd) (c : UInt8) : Option Kbd :=
  let next := (k.head + 1) % 256
  if next ≠ k.tail then do
    let buf ← wr k.buf k.head c
    return { k with buf, head := next }
  else some k

/-- `kbd_handler`. -/
def kbdHandler (k : Kbd) (sc : UInt8) : Option Kbd := do
  let (c, k) ← kbdDecode k sc
  if c = 0 then return k
  kbdEnqueue k c

/-- Where `keyboard_getchar` is: before the test of `head` against `tail`, before the read
of `buf[tail]`, or before the advance of `tail`, with what was read. -/
inductive Getchar
  | test
  | read
  | advance (c : UInt8)

/-- One step of `keyboard_getchar`, with what it returns. -/
def keyboardGetchar (k : Kbd) : Getchar → Option (Getchar × Kbd × Option UInt8)
  | .test => some (if k.head = k.tail then .test else .read, k, none)
  | .read => do
    let c ← rd k.buf k.tail
    return (.advance c, k, none)
  | .advance c => some (.test, { k with tail := (k.tail + 1) % 256 }, some c)

/-- `keyboard_poll`. -/
def keyboardPoll (k : Kbd) : Bool := k.head ≠ k.tail

/-- `keyboard_shift_held`. -/
def keyboardShiftHeld (k : Kbd) : Bool := k.shift

end DahleOS
