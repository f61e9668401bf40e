import DahleOS.Lib.CArray
import DahleOS.Model.Libc

/-!
# Numerals in buffers (`libc/string.c`, `shell/commands.c`)

`int_to_str` and `int_to_bin` as they write: digits into a scratch array, the last one
first, and from there into the buffer of the caller. The scratch arrays, `t[12]` and
`tmp[33]`, hold anything at first. An access outside an array is `none`.
-/

namespace DahleOS

open CArray

theorem tenth_toNat {n : Int32} (h : 0 < n) : (n / 10).toInt.toNat = n.toInt.toNat / 10 := by
  have hpos := Int32.lt_iff_toInt_lt.1 h
  have hten : (10 : Int32).toInt = 10 := rfl
  rw [Int32.toInt_zero] at hpos
  rw [Int32.toInt_div_of_ne_right n 10 (by decide), hten, Int.tdiv_eq_ediv_of_nonneg hpos.le]
  omega

/-- A tenth of a number is smaller. -/
theorem tenth_lt {n : Int32} (h : 0 < n) : (n / 10).toInt.toNat < n.toInt.toNat := by
  have hpos := Int32.lt_iff_toInt_lt.1 h
  rw [Int32.toInt_zero] at hpos
  rw [tenth_toNat h]
  omega

/-- `while (n > 0) { t[i++] = '0' + (n % 10); n /= 10; }`: the array, and `i`. -/
def decLoop {k : ℕ} (n : Int32) (t : Fin k → UInt8) (i : ℕ) : Option ((Fin k → UInt8) × ℕ) :=
  if _h : 0 < n then do
    let t ← wr t i (48 + n % 10).toUInt32.toUInt8
    decLoop (n / 10) t (i + 1)
  else some (t, i)
termination_by n.toInt.toNat
decreasing_by exact tenth_lt _h

/-- `int_to_str`, into `buf`. -/
def intToStrBuf {k N : ℕ} (n : Int32) (t : Fin k → UInt8) (buf : Fin N → UInt8) : Option (Fin N → UInt8) := do
  if n = 0 then
    let buf ← wr buf 0 48
    wr buf 1 0
  else
    let neg : Bool := n < 0
    let n := if neg then -n else n
    let (t, i) ← decLoop n t 0
    let (t, i) ← if neg then (wr t i 45).map (·, i + 1) else some (t, i)
    let (buf, j) ← copyBack t i buf 0
    wr buf j 0

theorem half_toNat (u : UInt32) : (u >>> 1).toNat = u.toNat / 2 := by
  have hone : (1 : UInt32).toNat % 32 = 1 := rfl
  rw [UInt32.toNat_shiftRight, hone, Nat.shiftRight_eq_div_pow, Nat.pow_one]

/-- Half of a word is smaller. -/
theorem half_lt {u : UInt32} (h : u ≠ 0) : (u >>> 1).toNat < u.toNat := by
  have hpos : u.toNat ≠ 0 := fun hz => h (UInt32.toNat_inj.1 hz)
  rw [half_toNat]
  omega

/-- `while (u) { tmp[i++] = (char)('0' + (u & 1)); u >>= 1; }`: the array, and `i`. -/
def binLoop {k : ℕ} (u : UInt32) (tmp : Fin k → UInt8) (i : ℕ) : Option ((Fin k → UInt8) × ℕ) :=
  if _h : u ≠ 0 then do
    let tmp ← wr tmp i (48 + (u &&& 1)).toUInt8
    binLoop (u >>> 1) tmp (i + 1)
  else some (tmp, i)
termination_by u.toNat
decreasing_by exact half_lt _h

/-- `int_to_bin`, into `buf`. -/
def intToBinBuf {k N : ℕ} (n : Int32) (tmp : Fin k → UInt8) (buf : Fin N → UInt8) : Option (Fin N → UInt8) := do
  if n = 0 then
    let buf ← wr buf 0 48
    wr buf 1 0
  else
    let neg : Bool := n < 0
    let n := if neg then -n else n
    let (tmp, i) ← binLoop n.toUInt32 tmp 0
    let (buf, out) ← if neg then (wr buf 0 45).map (·, 1) else some (buf, 0)
    let (buf, out) ← copyBack tmp i buf out
    wr buf out 0

end DahleOS
