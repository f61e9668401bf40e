import Mathlib.Algebra.Group.Nat.Defs
import Mathlib.Algebra.Ring.Int.Defs
import Mathlib.Data.List.TakeWhile
import DahleOS.Model.Libc

/-!
# Numerals

`int_to_str` and `str_to_int` against the decimal numerals of the integers.

* `decDigits_eq`: the digit loop prints a positive number.
* `intToStr_eq`: `int_to_str` prints every number but `INT_MIN`, of which it prints the
  sign alone.
* `Denotes`: the numerals of an integer; `strToInt_denotes`: `str_to_int` reads them modulo
  2^32.
* `denotes_toString`: the canonical numeral is one.
-/

namespace DahleOS

theorem str_append (s t : String) : str (s ++ t) = str s ++ str t := by
  unfold str
  rw [String.toList_append, List.filterMap_append]

/-- A digit is printed as itself. -/
theorem digitCh_eq {d : ℕ} (hd : d < 10) : str (String.ofList [d.digitChar]) = [digitCh d] := by
  have h : ∀ d : Fin 10, str (String.ofList [d.val.digitChar]) = [digitCh d.val] := by decide
  exact h ⟨d, hd⟩

/-- One round of the digit loop. -/
theorem decDigits_succ (fuel n : ℕ) :
    decDigits (fuel + 1) (n + 1) = decDigits fuel ((n + 1) / 10) ++ [digitCh ((n + 1) % 10)] := rfl

theorem decDigits_eq {fuel n : ℕ} (hpos : 0 < n) (hlt : n < 10 ^ fuel) : decDigits fuel n = str (toString n) := by
  induction fuel generalizing n with
  | zero => omega
  | succ fuel ih =>
    obtain ⟨k, rfl⟩ : ∃ k, n = k + 1 := ⟨n - 1, by omega⟩
    rw [decDigits_succ, Nat.toString_eq_ofList_toDigits]
    have hdigit := digitCh_eq (Nat.mod_lt (k + 1) (show 0 < 10 by decide))
    by_cases hlast : (k + 1) / 10 = 0
    · -- one digit
      have hsmall : k + 1 < 10 := by omega
      have hnil : ∀ fuel, decDigits fuel 0 = [] := fun fuel => by cases fuel <;> rfl
      rw [hlast, hnil, List.nil_append, Nat.toDigits_of_lt_base hsmall, ← hdigit, Nat.mod_eq_of_lt hsmall]
    · have hsplit := Nat.toDigits_append_toDigits (b := 10) (by decide) (Nat.pos_of_ne_zero hlast)
        (Nat.mod_lt (k + 1) (by decide))
      rw [Nat.div_add_mod, Nat.toDigits_of_lt_base (Nat.mod_lt (k + 1) (by decide))] at hsplit
      rw [ih (Nat.pos_of_ne_zero hlast) (by omega), ← hsplit, String.ofList_append, str_append, hdigit,
        Nat.toString_eq_ofList_toDigits]

/-- **`int_to_str` prints in decimal**, but for `INT_MIN`. -/
theorem intToStr_eq {n : Int32} (hn : n ≠ Int32.minValue) : intToStr n = str (toString n.toInt) := by
  have hlo := n.le_toInt
  have hhi := n.toInt_lt
  have hmin : n.toInt ≠ -2 ^ 31 := fun h => hn (Int32.toInt_inj.1 (h.trans Int32.toInt_minValue.symm))
  have hzero : n = 0 ↔ n.toInt = 0 := by rw [← Int32.toInt_inj, Int32.toInt_zero]
  have hneg : n < 0 ↔ n.toInt < 0 := by rw [Int32.lt_iff_toInt_lt, Int32.toInt_zero]
  unfold intToStr
  by_cases h0 : n = 0
  · rw [if_pos h0, hzero.1 h0]
    rfl
  rw [if_neg h0]
  rw [hzero] at h0
  dsimp only
  by_cases hn0 : n < 0
  · rw [if_pos hn0, if_pos hn0]
    rw [hneg] at hn0
    have hm : (-n).toInt = -n.toInt := by
      rw [Int32.toInt_neg, Int.bmod_eq_of_le (by omega) (by omega)]
    obtain ⟨k, hk⟩ : ∃ k : ℕ, n.toInt = -((k + 1 : ℕ) : ℤ) := ⟨(-n.toInt).toNat - 1, by omega⟩
    have hpos : 0 < -n := by
      rw [Int32.lt_iff_toInt_lt, hm, Int32.toInt_zero]
      omega
    have hstring : toString n.toInt = "-" ++ toString (k + 1) := by
      rw [hk]
      rfl
    rw [if_pos hpos, hm, hstring, str_append, decDigits_eq (by omega) (by omega)]
    congr 3
    omega
  · rw [if_neg hn0, if_neg hn0]
    rw [hneg] at hn0
    obtain ⟨k, hk⟩ : ∃ k : ℕ, n.toInt = (k : ℤ) := ⟨n.toInt.toNat, by omega⟩
    have hpos : 0 < n := by
      rw [Int32.lt_iff_toInt_lt, Int32.toInt_zero]
      omega
    have hstring : toString n.toInt = toString k := by
      rw [hk]
      rfl
    rw [if_pos hpos, hstring, List.nil_append, decDigits_eq (by omega) (by omega)]
    congr 2
    omega

/-! ## Reading -/

/-- `'-'`. -/
def minus : Ch := ⟨45, by decide⟩

/-- The value of a digit, and 0 of anything else. -/
def digitVal (c : Ch) : ℕ := (digit? c).getD 0

/-- The value of a string of digits. -/
def natValue (s : Str) : ℕ := s.foldl (fun n c => n * 10 + digitVal c) 0

/-- The digits that a string starts with. -/
def leadDigits (s : Str) : Str := s.takeWhile fun c => (digit? c).isSome

/-- **The integer that a string starts with**: a sign, if there is one, and the digits
behind it. -/
def leadInt (s : Str) : ℤ :=
  if s.head? = some minus then -natValue (leadDigits s.tail) else natValue (leadDigits s)

/-- A string of digits, not empty. -/
def Digits (s : Str) : Prop := s ≠ [] ∧ ∀ c ∈ s, (digit? c).isSome

instance : DecidablePred Digits := fun _ => inferInstanceAs (Decidable (_ ∧ _))

/-- **The decimal numerals** of an integer, leading zeros allowed. -/
def Denotes (s : Str) (z : ℤ) : Prop :=
  Digits s ∧ z = natValue s ∨ ∃ t, s = minus :: t ∧ Digits t ∧ z = -natValue t

theorem strToIntLoop_eq (s : Str) (n : ℕ) : strToIntLoop s (Int32.ofNat n) =
    Int32.ofNat ((leadDigits s).foldl (fun n c => n * 10 + digitVal c) n) := by
  induction s generalizing n with
  | nil => rfl
  | cons c s ih =>
    cases hd : digit? c with
    | none => simp [strToIntLoop, leadDigits, hd]
    | some d =>
      have hround : Int32.ofNat n * 10 + Int32.ofNat d = Int32.ofNat (n * 10 + digitVal c) := by
        rw [Int32.ofNat_add, Int32.ofNat_mul, digitVal, hd]
        rfl
      simp only [strToIntLoop, leadDigits, hd, Option.isSome_some, List.takeWhile_cons_of_pos, List.foldl_cons,
        hround]
      exact ih _

/-- **`str_to_int` reads the integer that a string starts with**, modulo 2^32. -/
theorem strToInt_eq (s : Str) : strToInt s = Int32.ofInt (leadInt s) := by
  have hloop (t : Str) : strToIntLoop t 0 = Int32.ofInt (natValue (leadDigits t)) := by
    rw [Int32.ofInt_eq_ofNat]
    exact strToIntLoop_eq t 0
  cases s with
  | nil => rfl
  | cons c s =>
    have hsign : c.val = 45 ↔ (c :: s).head? = some minus := by
      rw [List.head?_cons, Option.some.injEq, Subtype.ext_iff]
      rfl
    unfold strToInt leadInt
    dsimp only
    by_cases h : c.val = 45
    · rw [if_pos h, if_pos (hsign.1 h), hloop, Int32.ofInt_neg]
      rfl
    · rw [if_neg h, if_neg (mt hsign.2 h), hloop]

theorem digit_minus : digit? minus = none := rfl

variable {s t : Str} {z : ℤ}

theorem leadDigits_of_digits (h : ∀ c ∈ s, (digit? c).isSome) : leadDigits s = s :=
  List.takeWhile_eq_self_iff.mpr h

theorem Digits.head_ne (h : Digits s) : s.head? ≠ some minus := by
  intro hhead
  have hdigit := h.2 _ (List.mem_of_mem_head? hhead)
  rw [digit_minus] at hdigit
  cases hdigit

/-- **A numeral is read whole.** -/
theorem Denotes.leadInt (h : Denotes s z) : leadInt s = z := by
  rcases h with ⟨hs, rfl⟩ | ⟨t, rfl, ht, rfl⟩
  · rw [DahleOS.leadInt, if_neg hs.head_ne, leadDigits_of_digits hs.2]
  · rw [DahleOS.leadInt, if_pos List.head?_cons, List.tail_cons, leadDigits_of_digits ht.2]

theorem strToInt_denotes (h : Denotes s z) : strToInt s = Int32.ofInt z := by
  rw [strToInt_eq, h.leadInt]

/-- The characters of a numeral. -/
theorem Denotes.chars (h : Denotes s z) : ∀ c ∈ s, (digit? c).isSome ∨ c = minus := by
  rcases h with ⟨hs, -⟩ | ⟨t, rfl, ht, -⟩
  · exact fun c hc => Or.inl (hs.2 c hc)
  · intro c hc
    rcases List.mem_cons.1 hc with rfl | hc
    · exact Or.inr rfl
    · exact Or.inl (ht.2 c hc)

theorem Denotes.notMem (h : Denotes s z) {c : Ch} (hc : ¬ ((digit? c).isSome ∨ c = minus)) : c ∉ s :=
  fun hmem => hc (h.chars c hmem)

/-- An integer that 32 bits hold. -/
def InRange (z : ℤ) : Prop := -2 ^ 31 ≤ z ∧ z < 2 ^ 31

instance : DecidablePred InRange := fun _ => inferInstanceAs (Decidable (_ ∧ _))

/-! ## Canonical numerals -/

theorem digit_digitCh {d : ℕ} (hd : d < 10) : digit? (digitCh d) = some d := by
  have h : ∀ d : Fin 10, digit? (digitCh d.val) = some d.val := by decide
  exact h ⟨d, hd⟩

theorem natValue_snoc (s : Str) (c : Ch) : natValue (s ++ [c]) = natValue s * 10 + digitVal c := by
  rw [natValue, List.foldl_append]
  rfl

theorem decDigits_value {fuel n : ℕ} (hlt : n < 10 ^ fuel) :
    natValue (decDigits fuel n) = n ∧ ∀ c ∈ decDigits fuel n, (digit? c).isSome := by
  induction fuel generalizing n with
  | zero =>
    obtain rfl : n = 0 := by simpa using hlt
    exact ⟨rfl, by simp [decDigits]⟩
  | succ fuel ih =>
    cases n with
    | zero => exact ⟨rfl, by simp [decDigits]⟩
    | succ n =>
      obtain ⟨hvalue, hdigits⟩ := ih (show (n + 1) / 10 < 10 ^ fuel by omega)
      have hlast := digit_digitCh (Nat.mod_lt (n + 1) (show 0 < 10 by decide))
      rw [decDigits_succ, natValue_snoc, hvalue, digitVal, hlast]
      refine ⟨Nat.div_add_mod' (n + 1) 10, ?_⟩
      intro c hc
      rcases List.mem_append.1 hc with hc | hc
      · exact hdigits c hc
      · rw [List.mem_singleton.1 hc, hlast]
        rfl

theorem str_toString_nat (n : ℕ) : Digits (str (toString n)) ∧ natValue (str (toString n)) = n := by
  rcases Nat.eq_zero_or_pos n with rfl | hpos
  · decide +kernel
  · have hlt : n < 10 ^ n := Nat.lt_pow_self (by decide)
    obtain ⟨hvalue, hdigits⟩ := decDigits_value hlt
    rw [← decDigits_eq hpos hlt]
    refine ⟨⟨?_, hdigits⟩, hvalue⟩
    intro hnil
    rw [hnil] at hvalue
    exact hpos.ne hvalue

theorem str_negSucc (n : ℕ) : str (toString (Int.negSucc n)) = minus :: str (toString (n + 1)) := by
  rw [show toString (Int.negSucc n) = "-" ++ toString (n + 1) from rfl, str_append]
  rfl

/-- **The canonical numeral** denotes its integer. -/
theorem denotes_toString (z : ℤ) : Denotes (str (toString z)) z := by
  cases z with
  | ofNat n =>
    obtain ⟨hdigits, hvalue⟩ := str_toString_nat n
    exact Or.inl ⟨hdigits, congrArg Int.ofNat hvalue.symm⟩
  | negSucc n =>
    obtain ⟨hdigits, hvalue⟩ := str_toString_nat (n + 1)
    exact Or.inr ⟨_, str_negSucc n, hdigits, by rw [hvalue]; rfl⟩

theorem length_decDigits (fuel n : ℕ) : (decDigits fuel n).length ≤ fuel := by
  induction fuel generalizing n with
  | zero => exact Nat.le_refl 0
  | succ fuel ih =>
    cases n with
    | zero => exact Nat.zero_le _
    | succ n =>
      rw [decDigits_succ, List.length_append]
      exact Nat.succ_le_succ (ih _)

/-- **A canonical numeral of 32 bits** has at most 11 characters. -/
theorem length_canonical {z : ℤ} (hz : InRange z) : (str (toString z)).length ≤ 11 := by
  have hnat (n : ℕ) (hn : n < 10 ^ 10) : (str (toString n)).length ≤ 10 := by
    rcases Nat.eq_zero_or_pos n with rfl | hpos
    · decide
    · rw [← decDigits_eq hpos hn]
      exact length_decDigits 10 n
  obtain ⟨hlo, hhi⟩ := hz
  cases z with
  | ofNat n =>
    have hn : n < 10 ^ 10 := by
      have : (n : ℤ) < 2 ^ 31 := hhi
      omega
    exact (hnat n hn).trans (by decide)
  | negSucc n =>
    have hn : n + 1 < 10 ^ 10 := by omega
    rw [str_negSucc, List.length_cons]
    exact Nat.succ_le_succ (hnat (n + 1) hn)

/-- What `int_to_str` prints, `INT_MIN` included. -/
theorem intToStr_chars (n : Int32) : ∀ c ∈ intToStr n, (digit? c).isSome ∨ c = minus := by
  by_cases hn : n = Int32.minValue
  · subst hn
    decide +kernel
  · rw [intToStr_eq hn]
    exact (denotes_toString _).chars

theorem intToStr_notMem (n : Int32) {c : Ch} (hc : ¬ ((digit? c).isSome ∨ c = minus)) : c ∉ intToStr n :=
  fun hmem => hc (intToStr_chars n c hmem)

/-- **What `int_to_str` prints is a canonical numeral** unless it prints `INT_MIN`. -/
theorem intToStr_iff (n : Int32) {v : ℤ} : str (toString v) = intToStr n ↔ n.toInt = v ∧ v ≠ -2 ^ 31 := by
  by_cases hn : n = Int32.minValue
  · -- the sign is no numeral
    subst hn
    refine iff_of_false ?_ fun h => h.2 h.1.symm
    intro h
    have hminus : intToStr Int32.minValue = [minus] := by decide
    rw [hminus] at h
    rcases denotes_toString v with ⟨hd, -⟩ | ⟨t, ht, hd, -⟩
    · rw [h] at hd
      exact hd.head_ne rfl
    · rw [h] at ht
      exact hd.1 (List.cons.inj ht).2.symm
  · have hne : n.toInt ≠ -2 ^ 31 := fun h => hn (Int32.toInt_inj.1 (h.trans Int32.toInt_minValue.symm))
    rw [intToStr_eq hn]
    constructor
    · intro h
      have hv := (denotes_toString v).leadInt
      rw [h, (denotes_toString n.toInt).leadInt] at hv
      exact ⟨hv, hv ▸ hne⟩
    · rintro ⟨rfl, -⟩
      rfl

end DahleOS
