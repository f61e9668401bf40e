import DahleOS.Lib.Codec
import Mathlib.Data.Fin.VecNotation

/-!
# Descriptors of the x86

The entries of the two descriptor tables, eight bytes each, as the processor reads them.

* `Gate`: an entry of the interrupt descriptor table.
* `Segment`: an entry of the global descriptor table, with `Segment.last` the last address of
  the segment.
* `word16`, `half`: words of 16 bits and their two bytes; `ofBytes_halves` puts two of them
  together.
-/

namespace Descriptor

open Codec

/-! ## Half words -/

/-- A 16-bit word from its low and its high byte. -/
def word16 (lo hi : UInt8) : UInt16 := UInt16.ofNat (lo.toNat + 256 * hi.toNat)

/-- The bytes of a 16-bit word, the low one first. -/
def half (w : UInt16) (i : Fin 2) : UInt8 := UInt8.ofNat (w.toNat / 256 ^ i.val)

@[simp] theorem word16_half (w : UInt16) : word16 (half w 0) (half w 1) = w := by
  have hw := w.toNat_lt
  apply UInt16.toNat_inj.1
  simp only [word16, half, UInt16.toNat_ofNat', UInt8.toNat_ofNat']
  simp
  omega

theorem half_toNat (w : UInt16) (i : Fin 2) : (half w i).toNat = w.toNat / 256 ^ i.val % 256 := UInt8.toNat_ofNat' ..

/-- A word from its bytes, given by their values. -/
theorem ofBytes_eq {b : Fin 4 → UInt8} {w : UInt32} (h : ∀ i, (b i).toNat = w.toNat / 256 ^ i.val % 256) : ofBytes b = w := by
  have hbytes : b = byteAt w := by
    funext i
    apply UInt8.toNat_inj.1
    rw [h, byteAt, UInt8.toNat_ofNat']
  rw [hbytes, ofBytes_byteAt]

/-- The low 16 bits. -/
theorem low_toNat (w : UInt32) : (w &&& 0xFFFF).toUInt16.toNat = w.toNat % 2 ^ 16 := by
  have hand : (w &&& 0xFFFF).toNat = w.toNat % 2 ^ 16 := by
    rw [UInt32.toNat_and]
    exact Nat.and_two_pow_sub_one_eq_mod _ 16
  rw [UInt32.toNat_toUInt16, hand, Nat.mod_mod]

/-- A byte of the low half. -/
theorem half_low_toNat (w : UInt32) (i : Fin 2) : (half (w &&& 0xFFFF).toUInt16 i).toNat = w.toNat / 256 ^ i.val % 256 := by
  rw [half_toNat, low_toNat]
  fin_cases i <;> simp
  omega

/-- **Two halves of a word**, the low one cut off and the high one shifted down. -/
theorem ofBytes_halves (w : UInt32) : ofBytes ![half (w &&& 0xFFFF).toUInt16 0, half (w &&& 0xFFFF).toUInt16 1,
    half ((w >>> 16) &&& 0xFFFF).toUInt16 0, half ((w >>> 16) &&& 0xFFFF).toUInt16 1] = w := by
  have hhigh : (w >>> 16).toNat = w.toNat / 2 ^ 16 := by
    rw [UInt32.toNat_shiftRight, Nat.shiftRight_eq_div_pow]
    rfl
  refine ofBytes_eq fun i => ?_
  fin_cases i
  · exact half_low_toNat w 0
  · exact half_low_toNat w 1
  · exact (half_low_toNat _ 0).trans (by rw [hhigh]; simp)
  · exact (half_low_toNat _ 1).trans (by rw [hhigh]; simp; omega)

/-! ## Gates -/

/-- **A gate**: where the code is, and whether and how it is entered. -/
structure Gate where
  offset : UInt32
  selector : UInt16
  present : Bool
  privilege : UInt8
  kind : UInt8

/-- The kind of a gate to 32-bit code that is entered with interrupts off. -/
def Gate.interrupt32 : UInt8 := 0x0E

/-- The gate in an entry. -/
def Gate.ofBytes (b : Fin 8 → UInt8) : Gate where
  offset := Codec.ofBytes ![b 0, b 1, b 6, b 7]
  selector := word16 (b 2) (b 3)
  present := b 5 &&& 0x80 ≠ 0
  privilege := b 5 >>> 5 &&& 3
  kind := b 5 &&& 0x1F

/-! ## Segments -/

/-- **A segment**: its base, its limit of 20 bits, and what may be done with it. -/
structure Segment where
  base : UInt32
  limit : UInt32
  access : UInt8
  flags : UInt8
  deriving DecidableEq

/-- The segment in an entry. -/
def Segment.ofBytes (b : Fin 8 → UInt8) : Segment where
  base := Codec.ofBytes ![b 2, b 3, b 4, b 7]
  limit := Codec.ofBytes ![b 0, b 1, b 6 &&& 0x0F, 0]
  access := b 5
  flags := b 6 >>> 4

/-- A present segment of code. -/
def Segment.executable (s : Segment) : Bool := s.access &&& 0x98 = 0x98

/-- The last address: the limit counts bytes, or pages of 4096 of them. -/
def Segment.last (s : Segment) : UInt32 :=
  s.base + if s.flags &&& 8 ≠ 0 then s.limit <<< 12 ||| 0xFFF else s.limit

end Descriptor
