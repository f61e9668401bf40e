import DahleOS.Model.Calculators
import DahleOS.Proof.AluFault

/-!
# The answers of `alu`

`cmd_alu` reads tokens of 19 characters, computes in 32 bits and prints the result with
`int_to_str`.

* `Operand`: the numerals of the operands, `parseOperand_operand` what is read for them.
* `cmdAlu_result`: the result is exact where the exact one has 32 bits.
* `says_result`: a result is printed unless it is `INT_MIN`.
* `alu_prints_iff`: when the answer is printed, and when the usage is.
-/

namespace DahleOS

open Words

variable {args A B s t w ta tb : Str} {m : Machine} {a b v z : ℤ} {op : Ch}

/-! ## Binary numerals -/

/-- A binary digit. -/
def IsBit (c : Ch) : Prop := c.val = 48 ∨ c.val = 49

instance : DecidablePred IsBit := fun _ => inferInstanceAs (Decidable (_ ∨ _))

/-- The value of a string of binary digits. -/
def binValue (s : Str) : ℕ := s.foldl (fun n c => n * 2 + digitVal c) 0

theorem IsBit.digit {c : Ch} (h : IsBit c) : digit? c = some 0 ∨ digit? c = some 1 := by
  unfold digit?
  rcases h with h | h <;> rw [h]
  · exact Or.inl rfl
  · exact Or.inr rfl

theorem shiftLeft_one (x : Int32) : x <<< 1 = x * 2 := by
  apply Int32.toBitVec_inj.1
  have h : x.toBitVec <<< 1 = x.toBitVec * 2 := by bv_omega
  simpa using h

theorem shiftLeft_one_or (x : Int32) : x <<< 1 ||| 1 = x * 2 + 1 := by
  rw [← shiftLeft_one]
  apply Int32.toBitVec_inj.1
  rw [Int32.toBitVec_or, Int32.toBitVec_add, BitVec.add_eq_or_of_and_eq_zero]
  -- the lowest bit is free
  simp only [Int32.toBitVec_shiftLeft]
  ext i hi
  simp
  omega

theorem binToIntLoop_eq (h : ∀ c ∈ s, IsBit c) (n : ℕ) :
    binToIntLoop s (Int32.ofNat n) = Int32.ofNat (s.foldl (fun n c => n * 2 + digitVal c) n) := by
  induction s generalizing n with
  | nil => rfl
  | cons c s ih =>
    have ih := ih fun c hc => h c (List.mem_cons_of_mem _ hc)
    have htwo : Int32.ofNat n * 2 = Int32.ofNat (n * 2) := by
      rw [Int32.ofNat_mul]
      rfl
    rw [List.foldl_cons, ← ih]
    rcases h c List.mem_cons_self with h0 | h1
    · have hval : digitVal c = 0 := by simp [digitVal, digit?, h0]
      rw [binToIntLoop, if_pos h0, shiftLeft_one, htwo, hval, Nat.add_zero]
    · have hval : digitVal c = 1 := by simp [digitVal, digit?, h1]
      have hne : ¬ c.val = 48 := by rw [h1]; decide
      rw [binToIntLoop, if_neg hne, if_pos h1, shiftLeft_one_or, htwo, hval, Int32.ofNat_add]
      rfl

/-- **`bin_to_int` reads binary digits**, in 32 bits. -/
theorem binToInt_eq (hne : t ≠ []) (h : ∀ c ∈ t, IsBit c) : binToInt t = Int32.ofNat (binValue t) := by
  rw [binToInt, if_neg hne]
  exact binToIntLoop_eq h 0

theorem binValue_lt (h : ∀ c ∈ t, IsBit c) : binValue t < 2 ^ t.length := by
  have hloop (s : Str) (hs : ∀ c ∈ s, IsBit c) (n : ℕ) :
      s.foldl (fun n c => n * 2 + digitVal c) n < (n + 1) * 2 ^ s.length := by
    induction s generalizing n with
    | nil => simp
    | cons c s ih =>
      have hc : digitVal c ≤ 1 := by
        rcases (hs c List.mem_cons_self).digit with h | h <;> simp [digitVal, h]
      refine (ih (fun c hc => hs c (List.mem_cons_of_mem _ hc)) _).trans_le ?_
      rw [List.length_cons, pow_succ', ← Nat.mul_assoc]
      have hn : n * 2 + digitVal c + 1 ≤ (n + 1) * 2 := by omega
      exact Nat.mul_le_mul_right _ hn
  simpa [binValue] using hloop t h 0

/-! ## Operands -/

/-- **The operands**: decimal numerals of 32-bit integers, and binary numerals, with their
prefix, of those that are not negative. -/
def Operand (w : Str) (z : ℤ) : Prop :=
  (Denotes w z ∧ InRange z) ∨
    ∃ t, w = str "0b" ++ t ∧ t ≠ [] ∧ (∀ c ∈ t, IsBit c) ∧ z = binValue t ∧ z < 2 ^ 31

/-- The integer that a token starts with. -/
def tokenInt (w : Str) : ℤ := if Binary w then binValue (w.drop 2) else leadInt w

/-- A decimal text has no prefix. -/
theorem not_binary (h : ∀ c ∈ s, (digit? c).isSome ∨ c = minus) : ¬ Binary s := by
  have hno : ∀ p ∈ [str "0b", str "0B"], ∃ c ∈ p, ¬ ((digit? c).isSome ∨ c = minus) := by decide
  rintro (⟨r, rfl⟩ | ⟨r, rfl⟩)
  · obtain ⟨c, hc, hne⟩ := hno (str "0b") (by simp)
    exact hne (h c (List.mem_append_left r hc))
  · obtain ⟨c, hc, hne⟩ := hno (str "0B") (by simp)
    exact hne (h c (List.mem_append_left r hc))

theorem binary_append (t : Str) : Binary (str "0b" ++ t) := Or.inl (List.prefix_append ..)

/-- The value of an operand that is read whole. -/
theorem Operand.tokenInt (h : Operand w z) : tokenInt w = z := by
  rcases h with ⟨hw, -, -⟩ | ⟨t, rfl, -, -, rfl, -⟩
  · rw [DahleOS.tokenInt, if_neg (not_binary hw.chars), hw.leadInt]
  · rw [DahleOS.tokenInt, if_pos (binary_append t)]
    rfl

theorem Operand.ne_nil (h : Operand w z) : w ≠ [] := by
  rcases h with ⟨⟨hw, -⟩ | ⟨t, rfl, -⟩, -⟩ | ⟨t, rfl, -⟩
  · exact hw.1
  · exact List.cons_ne_nil _ _
  · exact List.cons_ne_nil _ _

/-- **What is read for an operand**: the integer that its first 19 characters start with. -/
theorem parseOperand_operand (h : Operand w z) :
    parseOperand (w.take 19) = some (Int32.ofInt (DahleOS.tokenInt (w.take 19))) := by
  have htake : w.take 19 ≠ [] := by simpa using h.ne_nil
  rcases h with ⟨hw, -, -⟩ | ⟨t, rfl, hne, ht, -, -⟩
  · have hb : ¬ Binary (w.take 19) := not_binary fun c hc => hw.chars c (List.mem_of_mem_take hc)
    rw [parseOperand_decimal htake hb, DahleOS.tokenInt, if_neg hb]
  · have hcut : (str "0b" ++ t).take 19 = str "0b" ++ t.take 17 := rfl
    have hbits : ∀ c ∈ t.take 17, IsBit c := fun c hc => ht c (List.mem_of_mem_take hc)
    have hdrop : (str "0b" ++ t.take 17).drop 2 = t.take 17 := rfl
    have hread : binToInt (t.take 17) = Int32.ofInt (binValue (t.take 17)) := by
      rw [binToInt_eq (by simpa using hne) hbits, Int32.ofInt_eq_ofNat]
    -- 17 binary digits leave the sign alone
    have hpos : ¬ Int32.ofInt (binValue (t.take 17)) < 0 := by
      have hlt := (binValue_lt hbits).trans_le
        (Nat.pow_le_pow_right (by decide) (show (t.take 17).length ≤ 17 by simp))
      generalize binValue (t.take 17) = k at hlt
      rw [Int32.lt_iff_toInt_lt, Int32.toInt_zero, Int32.toInt_ofInt_of_le (by omega) (by omega)]
      omega
    rw [hcut, parseOperand_binary (binary_append _), DahleOS.tokenInt, if_pos (binary_append _), hdrop, hread,
      if_neg hpos]

theorem Operand.drop_digits (h : Operand w z) : ∀ c ∈ w.drop 2, (digit? c).isSome := by
  intro c hc
  rcases h with ⟨⟨hw, -⟩ | ⟨t, rfl, ht, -⟩, -⟩ | ⟨t, rfl, -, ht, -⟩
  · exact hw.2 c (List.mem_of_mem_drop hc)
  · exact ht.2 c (List.mem_of_mem_drop hc)
  · rcases (ht c hc).digit with h | h <;> rw [h] <;> rfl

/-- What is cut off from an operand are digits. -/
theorem Operand.drop (h : Operand w z) {n : ℕ} (hn : 2 ≤ n) (hl : n < w.length) : Digits (w.drop n) := by
  refine ⟨by simpa using hl, ?_⟩
  intro c hc
  refine h.drop_digits c (List.mem_of_mem_drop (i := n - 2) ?_)
  rwa [List.drop_drop, Nat.add_sub_cancel' hn]

theorem Operand.head (h : Operand w z) : w.head? = some minus ∨ ∃ c, w.head? = some c ∧ (digit? c).isSome := by
  rcases h with ⟨⟨hw, -⟩ | ⟨t, rfl, -⟩, -⟩ | ⟨t, rfl, -⟩
  · obtain ⟨c, more, rfl⟩ := List.exists_cons_of_ne_nil hw.1
    exact Or.inr ⟨c, rfl, hw.2 c List.mem_cons_self⟩
  · exact Or.inl rfl
  · exact Or.inr ⟨_, rfl, rfl⟩

theorem parseOperand_digits (h : Digits s) : parseOperand s = some (Int32.ofInt (natValue s)) := by
  rw [parseOperand_decimal h.1 (not_binary fun c hc => Or.inl (h.2 c hc))]
  exact congrArg (fun z => some (Int32.ofInt z)) (Denotes.leadInt (Or.inl ⟨h, rfl⟩))

/-! ## Operations -/

/-- The exact result of an operation. -/
def aluOp (op : Ch) (a b : ℤ) : Option ℤ :=
  if op.val = 43 then some (a + b)
  else if op.val = 45 then some (a - b)
  else if op.val = 42 then some (a * b)
  else if op.val = 47 ∧ b ≠ 0 then some (a.tdiv b)
  else none

theorem aluOp_cases (h : aluOp op a b = some v) :
    (op.val = 43 ∧ v = a + b) ∨ (op.val = 45 ∧ v = a - b) ∨ (op.val = 42 ∧ v = a * b) ∨
      (op.val = 47 ∧ b ≠ 0 ∧ v = a.tdiv b) := by
  unfold aluOp at h
  split_ifs at h with h43 h45 h42 h47 <;> rw [Option.some.injEq] at h
  · exact Or.inl ⟨h43, h.symm⟩
  · exact Or.inr (Or.inl ⟨h45, h.symm⟩)
  · exact Or.inr (Or.inr (Or.inl ⟨h42, h.symm⟩))
  · exact Or.inr (Or.inr (Or.inr ⟨h47.1, h47.2, h.symm⟩))

/-- **The result is exact** if the exact one has 32 bits. -/
theorem cmdAlu_result {more : Str} (m : Machine) (htokens : aluTokens 3 args = [ta, tb, op :: more])
    (ha : parseOperand ta = some (Int32.ofInt a)) (hb : parseOperand tb = some (Int32.ofInt b)) (har : InRange a)
    (hbr : InRange b) (hop : aluOp op a b = some v) (hv : InRange v) :
    cmdAlu m args = .ok (.result (Int32.ofInt a) (Int32.ofInt b) (op :: more) (Int32.ofInt v), m) := by
  have htoInt {z : ℤ} (hz : InRange z) : (Int32.ofInt z).toInt = z := Int32.toInt_ofInt_of_le hz.1 hz.2
  unfold cmdAlu
  rw [htokens]
  dsimp only
  rw [ha, hb]
  dsimp only [List.head?_cons, Option.map_some]
  rcases aluOp_cases hop with ⟨h, rfl⟩ | ⟨h, rfl⟩ | ⟨h, rfl⟩ | ⟨h, hb0, rfl⟩ <;> rw [h]
  · rw [Int32.ofInt_add]
    rfl
  · rw [Int32.ofInt_sub]
    rfl
  · rw [Int32.ofInt_mul]
    rfl
  · have hzero : Int32.ofInt b ≠ 0 := by
      rw [Ne, ← Int32.toInt_inj, htoInt hbr]
      exact hb0
    -- the quotient that does not fit
    have hmin : ¬ (Int32.ofInt a = Int32.minValue ∧ Int32.ofInt b = -1) := by
      rintro ⟨h₁, h₂⟩
      rw [← Int32.toInt_inj, htoInt har] at h₁
      rw [← Int32.toInt_inj, htoInt hbr] at h₂
      subst h₁ h₂
      exact absurd hv.2 (by decide)
    rw [if_neg hzero, if_neg hmin, Int32.ofInt_tdiv har.1 (Int.le_sub_one_of_lt har.2) hbr.1 (Int.le_sub_one_of_lt hbr.2)]
    rfl

/-! ## What is printed -/

/-- **The answer** is printed: `=`, the canonical numeral and the end of the line. -/
def Says (m : Machine) (args : Str) (v : ℤ) : Prop :=
  ∃ msg m', cmdAlu m args = .ok (msg, m') ∧ str "=" ++ str (toString v) ++ str "\n" <+: aluText args msg

/-- `'\n'`. -/
def newline : Ch := ⟨10, by decide⟩

/-- The first line of a result. -/
theorem aluText_result (args : Str) (a b : Int32) (op : Str) (value : Int32) :
    ∃ rest, aluText args (.result a b op value) = str "=" ++ intToStr value ++ str "\n" ++ rest := by
  refine ⟨str "  bin: 0b" ++ intToBin a ++ str " " ++ op ++ str " 0b" ++ intToBin b ++ str " = 0b" ++
    intToBin value ++ str "\n", ?_⟩
  rw [aluText]
  simp only [List.append_assoc]

/-- **A result is printed** unless it is `INT_MIN`. -/
theorem says_result {a b value : Int32} {op : Str} {m' : Machine} (h : cmdAlu m args = .ok (.result a b op value, m')) :
    Says m args v ↔ value.toInt = v ∧ v ≠ -2 ^ 31 := by
  obtain ⟨rest, htext⟩ := aluText_result args a b op value
  rw [← intToStr_iff]
  constructor
  · rintro ⟨msg, m'', hmsg, more, hmore⟩
    rw [h, Except.ok.injEq, Prod.mk.injEq] at hmsg
    obtain ⟨rfl, -⟩ := hmsg
    rw [htext] at hmore
    -- both are read up to the end of the line
    have hline (t rest : Str) : str "=" ++ t ++ str "\n" ++ rest = str "=" ++ (t ++ newline :: rest) := by
      rw [List.append_assoc, List.append_assoc]
      rfl
    rw [hline, hline] at hmore
    have hno : ¬ ((digit? newline).isSome ∨ newline = minus) := by decide
    have hread := congrArg (List.takeWhile (· ≠ newline)) (List.append_cancel_left hmore)
    rwa [takeWhile_word ((denotes_toString v).notMem hno) (.cons more),
      takeWhile_word (intToStr_notMem value hno) (.cons rest)] at hread
  · intro heq
    refine ⟨_, _, h, rest, ?_⟩
    rw [htext, heq]

/-- A third token that starts with a digit is no operation. -/
theorem cmdAlu_digit {op : Str} {c : Ch} (m : Machine) (htokens : aluTokens 3 args = [ta, tb, op])
    (hhead : op.head? = some c) (hc : (digit? c).isSome) :
    ∃ msg, cmdAlu m args = .ok (msg, m) ∧ (msg = .invalidOperand ∨ msg = .unknownOperator) := by
  have hno (n : UInt8) (hn : ∀ h : n ≠ 0, digit? ⟨n, h⟩ = none) : c.val ≠ n := by
    rintro rfl
    rw [hn c.property] at hc
    cases hc
  unfold cmdAlu
  rw [htokens]
  dsimp only
  rw [hhead, Option.map_some]
  split
  swap
  · exact ⟨_, rfl, Or.inl rfl⟩
  split
  · rename_i h
    exact absurd (Option.some.inj h) (hno 43 (by decide))
  · rename_i h
    exact absurd (Option.some.inj h) (hno 45 (by decide))
  · rename_i h
    exact absurd (Option.some.inj h) (hno 42 (by decide))
  · rename_i h
    exact absurd (Option.some.inj h) (hno 47 (by decide))
  · exact ⟨_, rfl, Or.inr rfl⟩

theorem not_says_digit {op : Str} {c : Ch} (htokens : aluTokens 3 args = [ta, tb, op]) (hhead : op.head? = some c)
    (hc : (digit? c).isSome) : ¬ Says m args v := by
  obtain ⟨msg, hcmd, hmsg⟩ := cmdAlu_digit m htokens hhead hc
  rintro ⟨msg', m', hcmd', hprefix⟩
  rw [hcmd, Except.ok.injEq, Prod.mk.injEq] at hcmd'
  obtain ⟨rfl, -⟩ := hcmd'
  rw [List.append_assoc] at hprefix
  have hequals := (List.prefix_append ..).trans hprefix
  have hfirst {text : String} (h : aluText args msg = str text) (hne : ¬ str "=" <+: str text) : False :=
    hne (h ▸ hequals)
  rcases hmsg with rfl | rfl
  · exact hfirst rfl (by decide)
  · exact hfirst rfl (by decide)

/-! ## The answers -/

/-- **The operands that are read right**: both have at most 19 characters, or the first has
up to 38, the second starts with a sign, and the two parts of the first differ by just the
result. -/
def Fits (A B : Str) (v : ℤ) : Prop :=
  (A.length ≤ 19 ∧ B.length ≤ 19) ∨
    (19 < A.length ∧ A.length ≤ 38 ∧ B.head? = some minus ∧
      (tokenInt (A.take 19) - natValue (A.drop 19)).bmod (2 ^ 32) = v)

/-- The tokens of three words. -/
theorem aluTokens_words (hA : A ≠ []) (hB : B ≠ []) (hwords : words sp args = [A, B, [op]]) :
    aluTokens 3 args =
      if A.length ≤ 19 then
        if B.length ≤ 19 then [A, B, [op]] else [A, B.take 19, (B.drop 19).take 19]
      else if A.length ≤ 38 then [A.take 19, A.drop 19, B.take 19]
      else [A.take 19, (A.drop 19).take 19, (A.drop 38).take 19] := by
  have hop : cuts 19 [op] = [[op]] := cuts_short (by decide) (List.cons_ne_nil _ _) (by simp)
  rw [aluTokens_eq, aluPieces, hwords, List.flatMap_cons, List.flatMap_cons, List.flatMap_cons, List.flatMap_nil, hop]
  split_ifs with hl₁ hl₂ hl₃
  · rw [cuts_short (by decide) hA hl₁, cuts_short (by decide) hB hl₂]
    rfl
  · rw [cuts_short (by decide) hA hl₁, cuts_cons (by decide) hB, cuts_cons (by decide) (by simpa using hl₂)]
    rfl
  · rw [cuts_cons (by decide) hA, cuts_short (by decide) (by simpa using hl₁) (by simp; omega),
      cuts_cons (by decide) hB]
    rfl
  · rw [cuts_cons (by decide) hA, cuts_cons (by decide) (by simpa using hl₁), List.drop_drop,
      cuts_cons (by decide) (by simpa using hl₃)]
    rfl

theorem Operand.inRange (h : Operand w z) : InRange z := by
  rcases h with ⟨-, hz⟩ | ⟨t, -, -, -, rfl, hz⟩
  · exact hz
  · exact ⟨by omega, hz⟩

theorem Digits.take_head (h : Digits s) : ∃ c, (s.take 19).head? = some c ∧ (digit? c).isSome := by
  obtain ⟨c, more, rfl⟩ := List.exists_cons_of_ne_nil h.1
  exact ⟨c, rfl, h.2 c List.mem_cons_self⟩

/-- **A first operand of 20 to 38 characters** is taken for both, and the second for the
operation, which it is if it starts with a sign. -/
theorem says_first_cut (htokens : aluTokens 3 args = [A.take 19, A.drop 19, B.take 19]) (hA : Operand A a)
    (hB : Operand B b) (hl : 19 < A.length) : Says m args v ↔ v ≠ -2 ^ 31 ∧ B.head? = some minus ∧
      (tokenInt (A.take 19) - natValue (A.drop 19)).bmod (2 ^ 32) = v := by
  have hrest := parseOperand_digits (hA.drop (show 2 ≤ 19 by decide) hl)
  rcases hB.head with hhead | ⟨c, hhead, hc⟩
  · obtain ⟨more, rfl⟩ := List.head?_eq_some_iff.1 hhead
    have hcmd : cmdAlu m args = .ok (.result (Int32.ofInt (tokenInt (A.take 19))) (Int32.ofInt (natValue (A.drop 19)))
        (minus :: more.take 18) (Int32.ofInt (tokenInt (A.take 19) - natValue (A.drop 19))), m) := by
      unfold cmdAlu
      rw [htokens]
      dsimp only
      rw [parseOperand_operand hA, hrest, Int32.ofInt_sub]
      rfl
    rw [says_result hcmd, Int32.toInt_ofInt]
    exact ⟨fun h => ⟨h.2, hhead, h.1⟩, fun h => ⟨h.2.2, h.1⟩⟩
  · -- a digit is no operation
    have htake : (B.take 19).head? = some c := by
      rw [List.head?_take, if_neg (by decide)]
      exact hhead
    refine iff_of_false (not_says_digit htokens htake hc) ?_
    rintro ⟨-, h, -⟩
    rw [hhead, Option.some.injEq] at h
    rw [h, digit_minus] at hc
    cases hc

/-- **When the result of three words is printed.** -/
theorem says_iff (m : Machine) (hwords : words sp args = [A, B, [op]]) (hA : Operand A a) (hB : Operand B b)
    (hop : aluOp op a b = some v) (hv : InRange v) : Says m args v ↔ v ≠ -2 ^ 31 ∧ Fits A B v := by
  have htokens := aluTokens_words hA.ne_nil hB.ne_nil hwords
  by_cases hl₁ : A.length ≤ 19
  · rw [if_pos hl₁] at htokens
    by_cases hl₂ : B.length ≤ 19
    · -- the tokens are the words
      rw [if_pos hl₂] at htokens
      have ha := parseOperand_operand hA
      have hb := parseOperand_operand hB
      rw [List.take_of_length_le hl₁, hA.tokenInt] at ha
      rw [List.take_of_length_le hl₂, hB.tokenInt] at hb
      rw [says_result (cmdAlu_result m htokens ha hb hA.inRange hB.inRange hop hv),
        Int32.toInt_ofInt_of_le hv.1 hv.2]
      exact ⟨fun h => ⟨h.2, Or.inl ⟨hl₁, hl₂⟩⟩, fun h => ⟨rfl, h.1⟩⟩
    · -- the rest of the second operand is taken for the operation
      rw [if_neg hl₂] at htokens
      obtain ⟨c, hhead, hc⟩ := (hB.drop (show 2 ≤ 19 by decide) (by omega)).take_head
      refine iff_of_false (not_says_digit htokens hhead hc) ?_
      rintro ⟨-, ⟨-, h⟩ | ⟨h, -⟩⟩
      · exact hl₂ h
      · omega
  · rw [if_neg hl₁] at htokens
    by_cases hl₃ : A.length ≤ 38
    · -- the first operand is taken for both
      rw [if_pos hl₃] at htokens
      rw [says_first_cut htokens hA hB (by omega)]
      refine and_congr_right fun _ => ⟨fun h => Or.inr ⟨by omega, hl₃, h⟩, ?_⟩
      rintro (⟨h, -⟩ | ⟨-, -, h⟩)
      · exact absurd h hl₁
      · exact h
    · rw [if_neg hl₃] at htokens
      obtain ⟨c, hhead, hc⟩ := (hA.drop (show 2 ≤ 38 by decide) (by omega)).take_head
      refine iff_of_false (not_says_digit htokens hhead hc) ?_
      rintro ⟨-, ⟨h, -⟩ | ⟨-, h, -⟩⟩
      · exact hl₁ h
      · exact hl₃ h

theorem cmdAlu_usage_iff (m : Machine) (args : Str) :
    cmdAlu m args = .ok (.usage, m) ↔ (aluPieces args).length < 3 := by
  have hlen : (aluTokens 3 args).length = min 3 (aluPieces args).length := by
    rw [aluTokens_eq, List.length_take]
  unfold cmdAlu
  split
  · -- three tokens get another answer
    rename_i ta tb op htokens
    rw [htokens] at hlen
    refine iff_of_false ?_ (by simp at hlen; omega)
    dsimp only
    intro h
    split at h
    · split at h
      · cases h
      · cases h
      · cases h
      · split_ifs at h <;> cases h
      · cases h
    · cases h
  · rename_i hne
    refine iff_of_true rfl ?_
    by_contra hge
    obtain ⟨ta, tb, op, h⟩ := List.length_eq_three.1 (show (aluTokens 3 args).length = 3 by omega)
    exact hne ta tb op h

/-- **When `alu` answers right.** In every state and for every argument string: for two
operands and an operation whose exact result has 32 bits, the result is printed exactly if
it is not `INT_MIN` and the operands are read right; and fewer than three words are
answered with the usage exactly if their pieces are fewer than three as well. -/
theorem alu_prints_iff (m : Machine) (args : Str) :
    (∀ A B op a b v, words sp args = [A, B, [op]] → Operand A a → Operand B b → aluOp op a b = some v →
      InRange v → (Says m args v ↔ v ≠ -2 ^ 31 ∧ Fits A B v)) ∧
    ((words sp args).length < 3 → (cmdAlu m args = .ok (.usage, m) ↔ (aluPieces args).length < 3)) :=
  ⟨fun _ _ _ _ _ _ hwords hA hB hop hv => says_iff m hwords hA hB hop hv, fun _ => cmdAlu_usage_iff m args⟩

/-- `alu 0b111 -2 /` prints -3, and `alu 7 -2` the usage. -/
theorem alu_prints_iff_seven :
    Says idle (str "0b111 -2 /") (-3) ∧ cmdAlu idle (str "7 -2") = .ok (.usage, idle) := by
  constructor
  · have h := (alu_prints_iff idle (str "0b111 -2 /")).1 (str "0b111") (str "-2") slash 7 (-2) (-3) (by decide)
      (Or.inr ⟨str "111", by decide +kernel⟩) (Or.inl ⟨Or.inr ⟨str "2", by decide +kernel⟩, by decide⟩) (by decide)
      ⟨by decide, by decide⟩
    exact h.2 ⟨by decide, Or.inl (by decide)⟩
  · exact ((alu_prints_iff idle (str "7 -2")).2 (by decide)).2 (by decide)

/-- **`alu -2147483647 1 -`** prints a sign without a number. -/
theorem alu_min_prints : words sp (str "-2147483647 1 -") = [str "-2147483647", str "1", [minus]] ∧
    Denotes (str "-2147483647") (-2147483647) ∧ Denotes (str "1") 1 ∧
    aluOp minus (-2147483647) 1 = some (-2147483648) ∧ ¬ Says idle (str "-2147483647 1 -") (-2147483648) ∧
    ∃ msg, cmdAlu idle (str "-2147483647 1 -") = .ok (msg, idle) ∧
      aluText (str "-2147483647 1 -") msg = str "=-\n  bin: 0b-" ++ str "1111111111111111111111111111111 - 0b1 = 0b-" ++
        str "10000000000000000000000000000000\n" := by
  have hcmd : cmdAlu idle (str "-2147483647 1 -") = .ok (.result (-2147483647) 1 [minus] Int32.minValue, idle) := rfl
  refine ⟨by decide, Or.inr ⟨str "2147483647", by decide +kernel⟩, Or.inl (by decide +kernel), by decide, ?_, _,
    hcmd, ?_⟩
  · exact fun h => ((says_result hcmd).1 h).2 (by decide)
  · decide

end DahleOS
