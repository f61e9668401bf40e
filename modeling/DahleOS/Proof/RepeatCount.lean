import DahleOS.Lib.Words
import DahleOS.Model.Shell
import DahleOS.Proof.Numerals

/-!
# The count of `repeat`

The count is read from 11 characters at most, modulo 2^32, and tested then.

* `repeatArgs_cut`: what `cmd_repeat` reads.
* `repeat_count_iff`: when it runs the command as often as the numeral says.
* `repeat_wraps`: a count above 2^32 that is taken for 1.
-/

namespace DahleOS

open Words

variable {N cmd : Str}

/-- The calls of `shell_execute` in `cmd_repeat`, in order. -/
def repeatCalls (args : Str) : List Str :=
  match repeatArgs args with
  | none => []
  | some (count, subcmd) => List.replicate count subcmd

/-- A count, some spaces and a command. -/
def repeatLine (N : Str) (k : ℕ) (cmd : Str) : Str := N ++ List.replicate (k + 1) sp ++ cmd

theorem Digits.sp_notMem (h : Digits N) : sp ∉ N := Denotes.notMem (Or.inl ⟨h, rfl⟩) (by decide)

/-- **What `cmd_repeat` reads**: the numeral is cut to 11 characters, and the command starts
where it was cut. -/
theorem repeatArgs_cut (hN : sp ∉ N) (k : ℕ) (hcmd : cmd ≠ []) (hhead : cmd.head? ≠ some sp) :
    repeatArgs (repeatLine N k cmd) =
      if strToInt (N.take 11) ≤ 0 ∨ 100 < strToInt (N.take 11) then none
      else some ((strToInt (N.take 11)).toInt.toNat,
        if N.length ≤ 11 then cmd else repeatLine (N.drop 11) k cmd) := by
  have htail : Ends sp (List.replicate (k + 1) sp ++ cmd) := by
    rw [List.replicate_succ, List.cons_append]
    exact .cons _
  have hword : word 11 (repeatLine N k cmd) = N.take 11 := by
    rw [word, repeatLine, List.append_assoc, takeWhile_word hN htail]
  have hrest : skipSpaces ((repeatLine N k cmd).drop (N.take 11).length) =
      if N.length ≤ 11 then cmd else repeatLine (N.drop 11) k cmd := by
    rw [repeatLine, List.append_assoc, drop_length_take]
    by_cases hl : N.length ≤ 11
    · rw [if_pos hl, List.drop_eq_nil_of_le hl, List.nil_append]
      exact dropWhile_seps (k + 1) hhead
    · -- the first digit that was cut off is no space
      rw [if_neg hl, repeatLine, List.append_assoc]
      exact skip_word 0 (fun h => hN (List.mem_of_mem_drop h)) (by simpa using hl) _
  have hne : (if N.length ≤ 11 then cmd else repeatLine (N.drop 11) k cmd) ≠ [] := by
    split_ifs
    · exact hcmd
    · simp [repeatLine, hcmd]
  unfold repeatArgs
  dsimp only
  rw [hword, hrest, if_neg hne]

/-- The number that is read: the value of the first 11 digits, in 32 bits. -/
def readCount (N : Str) : ℤ := (natValue (N.take 11) : ℤ).bmod (2 ^ 32)

theorem repeatCalls_eq (hN : Digits N) (k : ℕ) (hcmd : cmd ≠ []) (hhead : cmd.head? ≠ some sp) :
    repeatCalls (repeatLine N k cmd) =
      if 1 ≤ readCount N ∧ readCount N ≤ 100 then
        List.replicate (readCount N).toNat (if N.length ≤ 11 then cmd else repeatLine (N.drop 11) k cmd)
      else [] := by
  have htake : Digits (N.take 11) := by
    refine ⟨?_, fun c hc => hN.2 c (List.mem_of_mem_take hc)⟩
    have hpos := List.length_pos_iff.2 hN.1
    rw [← List.length_pos_iff, List.length_take]
    omega
  have hcount : (strToInt (N.take 11)).toInt = readCount N := by
    rw [strToInt_denotes (Or.inl ⟨htake, Eq.refl _⟩), Int32.toInt_ofInt]
    rfl
  unfold repeatCalls
  rw [repeatArgs_cut hN.sp_notMem k hcmd hhead]
  simp only [Int32.le_iff_toInt_le, Int32.lt_iff_toInt_lt, hcount, Int32.toInt_zero]
  have h100 : (100 : Int32).toInt = 100 := rfl
  rw [h100]
  by_cases hin : 1 ≤ readCount N ∧ readCount N ≤ 100
  · rw [if_pos hin, if_neg (by omega)]
  · rw [if_neg hin, if_pos (by omega)]

theorem readCount_small (hl : N.length ≤ 11) (hn : natValue N ≤ 100) : readCount N = natValue N := by
  unfold readCount
  rw [List.take_of_length_le hl]
  generalize natValue N = n at hn
  exact Int.bmod_eq_of_le (by omega) (by omega)

/-- **When `repeat` counts right.** For every string of digits, any number of spaces and
every command: `cmd_repeat` runs the command as often as the numeral says if it says 1 to
100, and nothing otherwise, exactly if in the first case the numeral has at most 11 digits,
and in the second its first 11 digits do not come out as 1 to 100 in 32 bits. -/
theorem repeat_count_iff (hN : Digits N) (k : ℕ) (hcmd : cmd ≠ []) (hhead : cmd.head? ≠ some sp) :
    repeatCalls (repeatLine N k cmd) =
        (if 1 ≤ natValue N ∧ natValue N ≤ 100 then List.replicate (natValue N) cmd else []) ↔
      if 1 ≤ natValue N ∧ natValue N ≤ 100 then N.length ≤ 11 else ¬ (1 ≤ readCount N ∧ readCount N ≤ 100) := by
  rw [repeatCalls_eq hN k hcmd hhead]
  by_cases hn : 1 ≤ natValue N ∧ natValue N ≤ 100
  · rw [if_pos hn, if_pos hn]
    by_cases hl : N.length ≤ 11
    · rw [readCount_small hl hn.2, if_pos (by omega), if_pos hl, Int.toNat_natCast]
      exact iff_of_true rfl hl
    · -- the command is run with digits in front, or not at all
      refine iff_of_false ?_ hl
      rw [if_neg hl]
      obtain ⟨n, hn'⟩ : ∃ n, natValue N = n + 1 := ⟨natValue N - 1, by omega⟩
      intro heq
      have hmem : cmd ∈ List.replicate (natValue N) cmd := by simp [hn']
      rw [← heq] at hmem
      split_ifs at hmem
      · have hsame := congrArg List.length (List.eq_of_mem_replicate hmem)
        simp only [repeatLine, List.length_append, List.length_replicate] at hsame
        omega
      · cases hmem
  · rw [if_neg hn, if_neg hn]
    by_cases hin : 1 ≤ readCount N ∧ readCount N ≤ 100
    · refine iff_of_false ?_ (not_not.2 hin)
      rw [if_pos hin, List.replicate_eq_nil_iff]
      omega
    · rw [if_neg hin]
      exact iff_of_true rfl hin

/-- `repeat 5 echo` runs `echo` five times. -/
theorem repeat_count_iff_echo : repeatCalls (str "5 echo") = List.replicate 5 (str "echo") := by
  have h := repeat_count_iff (show Digits (str "5") by decide +kernel) 0 (show str "echo" ≠ [] by decide) (by decide)
  exact h.2 (by decide)

/-- **A count of 4294967297 is taken for 1.** -/
theorem repeat_wraps : Digits (str "4294967297") ∧ natValue (str "4294967297") = 4294967297 ∧
    repeatCalls (str "4294967297 echo") = [str "echo"] := by
  decide +kernel

end DahleOS
