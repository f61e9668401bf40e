import DahleOS.Lib.Words
import DahleOS.Model.Commands
import DahleOS.Proof.Numerals

/-!
# The division of `alu`

`cmd_alu` tests the divisor for 0 before it divides. The quotient of `INT_MIN` by -1 is not
representable, and the CPU traps that division as well.

* `aluTokens_eq`: the tokens are the words, cut into pieces of 19 characters.
* `parseOperand_neg`: what is read as a negative number.
* `alu_no_fault_iff`: the lines on which the division traps.
-/

namespace DahleOS

open Words

variable {args s w : Str}

/-! ## Tokens -/

/-- The words of a line, each cut into pieces of 19 characters. -/
def aluPieces (args : Str) : List Str := (words sp args).flatMap (cuts 19)

theorem aluPieces_append {tail : Str} (hw : sp ∉ w) (ht : Ends sp tail) :
    aluPieces (w ++ tail) = cuts 19 w ++ aluPieces tail := by
  by_cases hne : w = []
  · subst hne
    rw [List.nil_append, cuts_nil (by decide), List.nil_append]
  · rw [aluPieces, words_append hw hne ht, List.flatMap_cons]
    rfl

/-- **The tokenizer of `cmd_alu`** finds the first pieces. -/
theorem aluTokens_eq (n : ℕ) (args : Str) : aluTokens n args = (aluPieces args).take n := by
  induction n generalizing args with
  | zero => rfl
  | succ n ih =>
    have hskip : aluPieces args = aluPieces (skipSpaces args) := by
      unfold aluPieces skipSpaces
      rw [words_skip]
    rw [hskip]
    unfold aluTokens
    have hhead : (skipSpaces args).head? ≠ some sp := head?_skip sp args
    generalize skipSpaces args = s at hhead ⊢
    obtain ⟨w, tail, rfl, hw, ht⟩ := exists_word sp s
    dsimp only
    rw [word, takeWhile_word hw ht, aluPieces_append hw ht]
    by_cases hne : w = []
    · -- nothing is left
      subst hne
      rcases ht.cases with rfl | ⟨s, rfl⟩
      · rfl
      · exact absurd rfl hhead
    · have htake : w.take 19 ≠ [] := by simpa using hne
      rw [if_neg htake, drop_length_take, ih, aluPieces_append (fun h => hw (List.mem_of_mem_drop h)) ht,
        cuts_cons (by decide) hne, List.cons_append, List.take_succ_cons]

/-! ## Operands -/

/-- A text with the prefix of the binary numerals. -/
def Binary (s : Str) : Prop := str "0b" <+: s ∨ str "0B" <+: s

instance : DecidablePred Binary := fun _ => inferInstanceAs (Decidable (_ ∨ _))

theorem Binary.ne_nil (h : Binary s) : s ≠ [] := by
  rintro rfl
  revert h
  decide

theorem parseOperand_binary (h : Binary s) :
    parseOperand s = if binToInt (s.drop 2) < 0 then none else some (binToInt (s.drop 2)) := by
  unfold parseOperand
  rw [if_neg h.ne_nil, if_pos (show str "0b" <+: s ∨ str "0B" <+: s from h)]

theorem parseOperand_decimal (hs : s ≠ []) (h : ¬ Binary s) : parseOperand s = some (Int32.ofInt (leadInt s)) := by
  unfold parseOperand
  rw [if_neg hs, if_neg (show ¬ (str "0b" <+: s ∨ str "0B" <+: s) from h), strToInt_eq]

/-- **What is read as a negative number** is read in decimal, modulo 2^32. -/
theorem parseOperand_neg {v : ℤ} (hlo : -2 ^ 31 ≤ v) (hv : v < 0) :
    parseOperand s = some (Int32.ofInt v) ↔ ¬ Binary s ∧ (leadInt s).bmod (2 ^ 32) = v := by
  have htoInt : (Int32.ofInt v).toInt = v := Int32.toInt_ofInt_of_le hlo (by omega)
  by_cases hs : s = []
  · subst hs
    refine iff_of_false (by simp [parseOperand]) ?_
    rintro ⟨-, h⟩
    have hzero : (leadInt []).bmod (2 ^ 32) = 0 := rfl
    omega
  by_cases hb : Binary s
  · -- a binary numeral is not negative
    rw [parseOperand_binary hb]
    refine iff_of_false ?_ fun h => h.1 hb
    split_ifs with hneg
    · simp
    · rw [Option.some.injEq]
      intro h
      rw [h, Int32.lt_iff_toInt_lt, htoInt, Int32.toInt_zero] at hneg
      exact hneg hv
  · rw [parseOperand_decimal hs hb, Option.some.injEq, ← Int32.toInt_inj, htoInt, Int32.toInt_ofInt]
    exact ⟨fun h => ⟨hb, h⟩, fun h => h.2⟩

/-! ## The division -/

/-- A line that divides `INT_MIN` by -1: its first three pieces are two decimal numerals
with these values in 32 bits, and a division. -/
def DividesMin (args : Str) : Prop :=
  ∃ ta tb op more, aluPieces args = ta :: tb :: op :: more ∧ op.head? = some slash ∧
    (¬ Binary ta ∧ (leadInt ta).bmod (2 ^ 32) = -2 ^ 31) ∧ ¬ Binary tb ∧ (leadInt tb).bmod (2 ^ 32) = -1

/-- **When `alu` comes back.** In every state and for every argument string, `cmd_alu`
executes no division that traps, exactly if the line does not divide `INT_MIN` by -1. -/
theorem alu_no_fault_iff (m : Machine) (args : Str) : (∃ r, cmdAlu m args = .ok r) ↔ ¬ DividesMin args := by
  have hmin (s : Str) : parseOperand s = some Int32.minValue ↔ ¬ Binary s ∧ (leadInt s).bmod (2 ^ 32) = -2 ^ 31 :=
    parseOperand_neg (v := -2 ^ 31) le_rfl (by decide)
  have hone (s : Str) : parseOperand s = some (-1) ↔ ¬ Binary s ∧ (leadInt s).bmod (2 ^ 32) = -1 :=
    parseOperand_neg (v := -1) (by decide) (by decide)
  constructor
  · rintro ⟨r, hr⟩ ⟨ta, tb, op, more, hp, hop, ha, hb⟩
    rw [← hmin] at ha
    rw [← hone] at hb
    have htokens : aluTokens 3 args = [ta, tb, op] := by
      rw [aluTokens_eq, hp]
      rfl
    unfold cmdAlu at hr
    simp only [htokens, ha, hb, hop] at hr
    cases hr
  · intro hno
    unfold cmdAlu
    split
    swap
    · exact ⟨_, rfl⟩
    rename_i ta tb op htokens
    split
    swap
    · exact ⟨_, rfl⟩
    rename_i a b ha hb
    dsimp only
    split
    · exact ⟨_, rfl⟩
    · exact ⟨_, rfl⟩
    · exact ⟨_, rfl⟩
    · -- the division
      rename_i hop
      by_cases hz : b = 0
      · rw [if_pos hz]
        exact ⟨_, rfl⟩
      rw [if_neg hz]
      by_cases htrap : a = Int32.minValue ∧ b = -1
      · obtain ⟨rfl, rfl⟩ := htrap
        rw [hmin] at ha
        rw [hone] at hb
        rw [aluTokens_eq] at htokens
        have hp := List.take_append_drop 3 (aluPieces args)
        rw [htokens] at hp
        obtain ⟨c, hc, hslash⟩ := Option.map_eq_some_iff.1 hop
        refine absurd ⟨ta, tb, op, _, hp.symm, ?_, ha, hb⟩ hno
        rw [hc]
        exact congrArg some (Subtype.ext hslash)
      · rw [if_neg htrap]
        exact ⟨_, rfl⟩
    · exact ⟨_, rfl⟩

/-- A machine that nothing was typed into. -/
def idle : Machine := ⟨World.cleared ⟨fun _ => 0, fun _ _ => .timeout⟩, false, false, 0⟩

/-- **`alu -2147483648 -1 /`** divides, and the division traps. -/
theorem alu_min_traps : cmdAlu idle (str "-2147483648 -1 /") = .error .divideError := by
  have ha : parseOperand (str "-2147483648") = some Int32.minValue := by decide
  have hb : parseOperand (str "-1") = some (-1) := by decide
  have htokens : aluTokens 3 (str "-2147483648 -1 /") = [str "-2147483648", str "-1", str "/"] := by decide
  unfold cmdAlu
  rw [htokens]
  dsimp only
  rw [ha, hb]
  rfl

end DahleOS
