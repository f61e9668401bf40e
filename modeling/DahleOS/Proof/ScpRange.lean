import DahleOS.Lib.MachineWord
import DahleOS.Lib.Words
import DahleOS.Model.Calculators
import DahleOS.Proof.Numerals

/-!
# The numbers of `scp`

The size of the range is computed in 32 bits, and the generator gives 31.

* `randRange_spec`, `randRange_all`: the numbers of `rand_range`.
* `scp_draw`, `scp_draws`: what is added to the lower end, and that all of it is.
* `scpEnds_eq`: the ends that are read.
* `scp_range_iff`: when every number is printed, and lies between the two that were asked
  for.
-/

namespace DahleOS

open MachineWord Words

variable {args A B text : Str} {a b r : ℤ} {lo hi : Int32}

/-! ## The generator -/

/-- Every seed follows one. -/
theorem seed_surj (y : UInt32) : ∃ x, x * 1664525 + 1013904223 = y := by
  refine ⟨(y - 1013904223) * 4276115653, ?_⟩
  have hinv : (4276115653 * 1664525 : UInt32) = 1 := rfl
  rw [UInt32.mul_assoc, hinv, UInt32.mul_one, UInt32.sub_add_cancel]

theorem toNat_half (s : UInt32) : (s >>> 1).toNat = s.toNat / 2 := by
  rw [UInt32.toNat_shiftRight]
  exact Nat.shiftRight_eq_div_pow _ 1

theorem randRange_none (seed ticks : UInt32) (range : Int32) :
    randRange seed ticks range = none ↔ range.toUInt32 = 0 := by
  unfold randRange
  dsimp only
  split_ifs with h <;> simp [h]

/-- **The numbers of `rand_range`** are below the range, and below 2^31. -/
theorem randRange_spec {range : Int32} (h : range.toUInt32 ≠ 0) (seed ticks : UInt32) :
    ∃ r seed', randRange seed ticks range = some (r, seed') ∧ 0 ≤ r.toInt ∧
      r.toInt < range.toUInt32.toNat ∧ r.toInt < 2 ^ 31 := by
  unfold randRange
  dsimp only
  rw [if_neg h]
  refine ⟨_, _, rfl, ?_⟩
  generalize (if seed = 0 then ticks + 1 else seed) * 1664525 + 1013904223 = s
  have hs := s.toNat_lt
  have hpos : 0 < range.toUInt32.toNat := Nat.pos_of_ne_zero fun h0 => h (UInt32.toNat_inj.1 h0)
  have hmod : ((s >>> 1) % range.toUInt32).toNat = s.toNat / 2 % range.toUInt32.toNat := by
    rw [UInt32.toNat_mod, toNat_half]
  have hle := Nat.mod_le (s.toNat / 2) range.toUInt32.toNat
  have hlt := Nat.mod_lt (s.toNat / 2) hpos
  rw [toInt_toInt32 (by omega), hmod]
  omega

/-- **Every such number** comes out. -/
theorem randRange_all {range : Int32} {t : ℕ} (hlt : t < range.toUInt32.toNat) (hlt' : t < 2 ^ 31) :
    ∃ ticks r seed', randRange 0 ticks range = some (r, seed') ∧ r.toInt = t := by
  obtain ⟨x, hx⟩ := seed_surj (UInt32.ofNat (2 * t))
  have h0 : range.toUInt32 ≠ 0 := by
    intro h
    rw [h] at hlt
    exact Nat.not_lt_zero t hlt
  refine ⟨x - 1, ((UInt32.ofNat (2 * t) >>> 1) % range.toUInt32).toInt32, UInt32.ofNat (2 * t), ?_, ?_⟩
  · unfold randRange
    dsimp only
    rw [if_pos rfl, if_neg h0, UInt32.sub_add_cancel, hx]
  · have hmod : ((UInt32.ofNat (2 * t) >>> 1) % range.toUInt32).toNat = t := by
      rw [UInt32.toNat_mod, toNat_half, UInt32.toNat_ofNat_of_lt' (by simp [UInt32.size]; omega),
        Nat.mul_div_cancel_left _ (by decide), Nat.mod_eq_of_lt hlt]
    rw [toInt_toInt32 (by omega), hmod]

/-! ## The draw -/

/-- **The size of the range**, of which 2^32 comes out as 0. -/
theorem range_size (lo hi : Int32) :
    ((hi - lo + 1).toUInt32.toNat : ℤ) = (hi.toInt - lo.toInt + 1) % 2 ^ 32 := by
  have hone : (1 : Int32).toInt = 1 := rfl
  rw [toNat_toUInt32, Int32.toInt_add, Int32.toInt_sub, hone]
  rw [show (2 : ℤ) ^ 32 = ((2 ^ 32 : ℕ) : ℤ) from rfl, Int.bmod_emod, Int.add_emod, Int.bmod_emod, ← Int.add_emod]

/-- The text in front of the number. -/
def scpFront (lo hi : Int32) : Str := str "Random [" ++ intToStr lo ++ str ", " ++ intToStr hi ++ str "] -> "

/-- The number is printed at the end, canonically. -/
def Draws (text : Str) (r : ℤ) : Prop := ∃ front, text = front ++ str "SCP " ++ str (toString r) ++ str "\n"

theorem scpText_eq (h : scpEnds args = some (lo, hi)) (seed ticks : UInt32) :
    scpText seed ticks args = match randRange seed ticks (hi - lo + 1) with
      | none => .error .divideError
      | some (r, seed) => .ok (scpFront lo hi ++ str "SCP " ++ intToStr (lo + r) ++ str "\n", seed) := by
  cases hr : randRange seed ticks (hi - lo + 1) with
  | none => simp only [scpText, h, hr]
  | some p => simp only [scpText, scpFront, h, hr, List.append_assoc]

/-- The number at the end of a text. -/
theorem last_number (front w : Str) (hw : sp ∉ w) :
    ((front ++ str "SCP " ++ w ++ str "\n").reverse.drop 1).takeWhile (· ≠ sp) = w.reverse := by
  have hrev : (front ++ str "SCP " ++ w ++ str "\n").reverse.drop 1 =
      w.reverse ++ sp :: (str "PCS" ++ front.reverse) := by
    simp only [List.reverse_append, List.append_assoc]
    rfl
  rw [hrev, takeWhile_word (by simpa using hw) (.cons _)]

theorem not_numeral_sp : ¬ ((digit? sp).isSome ∨ sp = minus) := by decide

theorem Draws.last (h : Draws text r) : (text.reverse.drop 1).takeWhile (· ≠ sp) = (str (toString r)).reverse := by
  obtain ⟨front, rfl⟩ := h
  exact last_number front _ ((denotes_toString r).notMem not_numeral_sp)

/-- **The number that is printed** is the one that is drawn, unless that is `INT_MIN`. -/
theorem draws_iff (front : Str) (n : Int32) (r : ℤ) :
    Draws (front ++ str "SCP " ++ intToStr n ++ str "\n") r ↔ n.toInt = r ∧ r ≠ -2 ^ 31 := by
  rw [← intToStr_iff]
  constructor
  · intro h
    have hlast := h.last
    rw [last_number _ _ (intToStr_notMem n not_numeral_sp)] at hlast
    exact (List.reverse_injective hlast).symm
  · intro h
    exact ⟨front, by rw [h]⟩

/-- A run of `scp` that prints a number between two bounds. -/
def DrawsWithin (args : Str) (seed ticks : UInt32) (least most : ℤ) : Prop :=
  ∃ text seed' r, scpText seed ticks args = .ok (text, seed') ∧ Draws text r ∧ least ≤ r ∧ r ≤ most

/-- **Every number between the ends is in range**, and as long as 31 random bits reach it is
printed. -/
theorem draws_within_iff (h : scpEnds args = some (lo, hi)) (hle : lo.toInt ≤ hi.toInt) (least most : ℤ) :
    (∀ seed ticks, DrawsWithin args seed ticks least most) ↔
      lo.toInt ≠ -2 ^ 31 ∧ least ≤ lo.toInt ∧ min hi.toInt (lo.toInt + 2 ^ 31 - 1) ≤ most := by
  have hlo := lo.le_toInt
  have hhi := hi.toInt_lt
  have hsize := range_size lo hi
  have hsum {r : Int32} (h0 : 0 ≤ r.toInt) (hr : lo.toInt + r.toInt ≤ hi.toInt) :
      (lo + r).toInt = lo.toInt + r.toInt := by
    rw [Int32.toInt_add, Int.bmod_eq_of_le (by omega) (by omega)]
  constructor
  · intro hall
    have hne : (hi - lo + 1).toUInt32 ≠ 0 := by
      intro h0
      obtain ⟨text, seed', r, htext, -⟩ := hall 0 0
      rw [scpText_eq h, randRange] at htext
      simp only [h0, if_true] at htext
      cases htext
    have hpos : (hi - lo + 1).toUInt32.toNat ≠ 0 := fun h0 => hne (UInt32.toNat_inj.1 h0)
    -- the size did not come out as 0
    have hexact : ((hi - lo + 1).toUInt32.toNat : ℤ) = hi.toInt - lo.toInt + 1 := by
      omega
    have hreach (t : ℕ) (hlt : t < (hi - lo + 1).toUInt32.toNat) (hlt' : t < 2 ^ 31) :
        least ≤ lo.toInt + t ∧ lo.toInt + t ≤ most ∧ lo.toInt + t ≠ -2 ^ 31 := by
      obtain ⟨ticks, r, seed', hr, hrt⟩ := randRange_all hlt hlt'
      obtain ⟨text, seed'', z, htext, hdraws, hmin, hmax⟩ := hall 0 ticks
      rw [scpText_eq h, hr, Except.ok.injEq, Prod.mk.injEq] at htext
      obtain ⟨rfl, -⟩ := htext
      obtain ⟨rfl, hz⟩ := (draws_iff _ _ z).1 hdraws
      rw [hsum (by omega) (by omega), hrt] at hmin hmax hz
      exact ⟨hmin, hmax, hz⟩
    have hfirst := hreach 0 (by omega) (by decide)
    have hlast := hreach (min (hi.toInt - lo.toInt) (2 ^ 31 - 1)).toNat (by omega) (by omega)
    omega
  · rintro ⟨hmin, hleast, hmost⟩ seed ticks
    have hne : (hi - lo + 1).toUInt32 ≠ 0 := by
      intro h0
      rw [h0] at hsize
      simp at hsize
      omega
    obtain ⟨r, seed', hr, h0, hlt, hlt'⟩ := randRange_spec hne seed ticks
    have hv := hsum h0 (by omega)
    refine ⟨_, seed', (lo + r).toInt, ?_, (draws_iff (scpFront lo hi) (lo + r) _).2 ⟨rfl, ?_⟩, ?_, ?_⟩
    · rw [scpText_eq h, hr]
    · omega
    · omega
    · omega

/-! ## The ends -/

/-- The text of the second end: what was cut off from the first, if anything was. -/
def scpSecond (A B : Str) : Str := if A.length ≤ 11 then B.take 11 else (A.drop 11).take 11

/-- **The ends that are read**, in 32 bits. -/
def scpRead (A B : Str) : ℤ × ℤ :=
  ((leadInt (A.take 11)).bmod (2 ^ 32), (leadInt (scpSecond A B)).bmod (2 ^ 32))

theorem scpEnds_space (hhead : args.head? = some sp) : scpEnds args = none := by
  obtain ⟨s, rfl⟩ := List.head?_eq_some_iff.1 hhead
  rfl

/-- **What `cmd_scp` reads** in a line that starts with two words. -/
theorem scpEnds_words {more : List Str} (hwords : words sp args = A :: B :: more) (hhead : args.head? ≠ some sp) :
    word 11 args = A.take 11 ∧ word 11 (skipSpaces (args.drop (A.take 11).length)) = scpSecond A B ∧
      A.take 11 ≠ [] ∧ scpSecond A B ≠ [] := by
  obtain ⟨k, tail, rfl, hA, hAne, ht, htail⟩ := words_cons hwords
  obtain ⟨j, rest, rfl, hB, hBne, hr, -⟩ := words_cons htail
  obtain rfl : k = 0 := by
    by_contra hk
    obtain ⟨i, rfl⟩ := Nat.exists_eq_succ_of_ne_zero hk
    exact hhead rfl
  rw [List.replicate_zero, List.nil_append]
  refine ⟨by rw [word, takeWhile_word hA ht], ?_, by simpa using hAne, ?_⟩
  · rw [drop_length_take, word, scpSecond]
    by_cases hl : A.length ≤ 11
    · -- the second word
      have hskip : skipSpaces (List.replicate j sp ++ (B ++ rest)) = B ++ rest := skip_word j hB hBne rest
      rw [if_pos hl, List.drop_eq_nil_of_le hl, List.nil_append, hskip, takeWhile_word hB hr]
    · -- the rest of the first
      have hcut : sp ∉ A.drop 11 := fun h => hA (List.mem_of_mem_drop h)
      have hskip : skipSpaces (A.drop 11 ++ (List.replicate j sp ++ (B ++ rest))) =
          A.drop 11 ++ (List.replicate j sp ++ (B ++ rest)) := skip_word 0 hcut (by simpa using hl) _
      rw [if_neg hl, hskip, takeWhile_word hcut ht]
  · unfold scpSecond
    split_ifs with hl
    · simpa using hBne
    · simpa using hl

theorem scpEnds_eq {more : List Str} (hwords : words sp args = A :: B :: more) (hhead : args.head? ≠ some sp) :
    ∃ lo hi, scpEnds args = some (lo, hi) ∧ lo.toInt = min (scpRead A B).1 (scpRead A B).2 ∧
      hi.toInt = max (scpRead A B).1 (scpRead A B).2 := by
  obtain ⟨hA, hB, hAne, hBne⟩ := scpEnds_words hwords hhead
  have htoInt (s : Str) : (strToInt s).toInt = (leadInt s).bmod (2 ^ 32) := by
    rw [strToInt_eq, Int32.toInt_ofInt]
    rfl
  have h₁ : (strToInt (A.take 11)).toInt = (scpRead A B).1 := htoInt _
  have h₂ : (strToInt (scpSecond A B)).toInt = (scpRead A B).2 := htoInt _
  unfold scpEnds
  dsimp only
  rw [hA, hB, if_neg (not_or.2 ⟨hAne, hBne⟩), ← h₁, ← h₂]
  split_ifs with hlt <;> rw [Int32.lt_iff_toInt_lt] at hlt
  · exact ⟨_, _, rfl, by omega, by omega⟩
  · exact ⟨_, _, rfl, by omega, by omega⟩

/-- The division of `cmd_scp` traps where its text stops. -/
theorem cmdScp_iff (m : Machine) (args : Str) (seed ticks : UInt32) :
    cmdScp m args = .error .divideError ↔ scpText seed ticks args = .error .divideError := by
  have hrange : scpRange args = (scpEnds args).map fun p => p.2 - p.1 + 1 := by
    unfold scpRange scpEnds
    dsimp only
    split_ifs <;> rfl
  unfold cmdScp
  rw [hrange]
  cases h : scpEnds args with
  | none => simp [scpText, h]
  | some p =>
    obtain ⟨lo, hi⟩ := p
    rw [scpText_eq h]
    have hzero : hi - lo + 1 = 0 ↔ (hi - lo + 1).toUInt32 = 0 := by
      refine ⟨fun h => by rw [h]; rfl, ?_⟩
      intro h0
      have hback : (hi - lo + 1).toUInt32.toInt32 = hi - lo + 1 := rfl
      rw [← hback, h0]
      rfl
    simp only [Option.map_some, Option.some.injEq]
    cases hr : randRange seed ticks (hi - lo + 1) with
    | none =>
      rw [if_pos (hzero.2 ((randRange_none _ _ _).1 hr))]
      exact iff_of_true rfl rfl
    | some p =>
      have hne : ¬ hi - lo + 1 = 0 := by
        intro h0
        rw [(randRange_none _ _ _).2 (hzero.1 h0)] at hr
        cases hr
      rw [if_neg hne]
      exact iff_of_false (by simp) (by simp)

/-- The ends that are read keep to two integers: the lower one is not `INT_MIN` nor below
both, and what 31 bits reach from it towards the upper one is not above both. -/
def ReadsWithin (A B : Str) (a b : ℤ) : Prop :=
  let lo := min (scpRead A B).1 (scpRead A B).2
  let hi := max (scpRead A B).1 (scpRead A B).2
  lo ≠ -2 ^ 31 ∧ min a b ≤ lo ∧ min hi (lo + 2 ^ 31 - 1) ≤ max a b

/-- **When `scp` keeps to its range.** For every line that starts with the numerals of two
32-bit integers: `scp` prints a number between the two, for every seed, exactly if the line
does not start with a space, and neither integer is `INT_MIN`, or else, where a numeral has
more than 11 characters, the ends that are read keep to the two. -/
theorem scp_range_iff {more : List Str} (hwords : words sp args = A :: B :: more) (hA : Denotes A a)
    (hB : Denotes B b) (ha : InRange a) (hb : InRange b) :
    (∀ seed ticks, DrawsWithin args seed ticks (min a b) (max a b)) ↔
      args.head? ≠ some sp ∧ if A.length ≤ 11 ∧ B.length ≤ 11 then min a b ≠ -2 ^ 31 else ReadsWithin A B a b := by
  by_cases hhead : args.head? = some sp
  · -- the usage is printed
    refine iff_of_false ?_ fun h => h.1 hhead
    intro hall
    obtain ⟨text, seed', r, htext, hdraws, -⟩ := hall 0 0
    have hne : args ≠ [] := by
      rintro rfl
      cases hhead
    rw [scpText, scpEnds_space hhead] at htext
    simp only [if_neg hne, List.append_nil, Except.ok.injEq, Prod.mk.injEq] at htext
    have hlast := hdraws.last
    rw [← htext.1] at hlast
    -- the last word of it is no numeral
    have husage : ((str "Usage: scp <a> <b>\n").reverse.drop 1).takeWhile (· ≠ sp) = (str "<b>").reverse := by decide
    have hchars := (denotes_toString r).chars
    rw [← List.reverse_injective (husage.symm.trans hlast)] at hchars
    exact absurd hchars (by decide)
  · obtain ⟨lo, hi, hends, hlo, hhi⟩ := scpEnds_eq hwords hhead
    rw [draws_within_iff hends (by omega), hlo, hhi]
    split_ifs with hl
    · -- the ends are read whole
      have hread : scpRead A B = (a, b) := by
        rw [scpRead, scpSecond, if_pos hl.1, List.take_of_length_le hl.1, List.take_of_length_le hl.2, hA.leadInt,
          hB.leadInt, Int.bmod_eq_of_le (by have := ha.1; omega) (by have := ha.2; omega),
          Int.bmod_eq_of_le (by have := hb.1; omega) (by have := hb.2; omega)]
      rw [hread]
      exact ⟨fun h => ⟨hhead, h.1⟩, fun h => ⟨h.2, le_rfl, min_le_left _ _⟩⟩
    · exact ⟨fun h => ⟨hhead, h⟩, fun h => h.2⟩

/-- `scp 5 -3` prints a number from -3 to 5. -/
theorem scp_range_iff_five : DrawsWithin (str "5 -3") 0 7 (min 5 (-3)) (max 5 (-3)) := by
  have hwords : words sp (str "5 -3") = [str "5", str "-3"] := by decide
  have h := scp_range_iff hwords (Or.inl (by decide +kernel)) (Or.inr ⟨str "3", by decide +kernel⟩)
    (show InRange 5 by decide)
    (show InRange (-3) by decide)
  exact h.2 ⟨by decide, by rw [if_pos (by decide)]; decide⟩ 0 7

/-- **The whole range of the integers** has the size 0, and the division by it traps. -/
theorem scp_whole_range : words sp (str "-2147483648 2147483647") = [str "-2147483648", str "2147483647"] ∧
    Denotes (str "-2147483648") (-2147483648) ∧ Denotes (str "2147483647") 2147483647 ∧
    scpText 0 0 (str "-2147483648 2147483647") = .error .divideError := by
  refine ⟨by decide, Or.inr ⟨str "2147483648", by decide +kernel⟩, Or.inl (by decide +kernel), ?_⟩
  rfl

end DahleOS
