import DahleOS.Lib.Words
import DahleOS.Model.Calculators
import DahleOS.Proof.Numerals

/-!
# Reading `boolean`

`cmd_boolean` copies its arguments into 64 bytes and splits them there. The reference reads
the words of the whole text.

* `booleanTokens_eq`: the tokenizer finds the first words.
* `cmdBoolean_cut`: the command prints what the reference reads in the first 63 characters.
* `booleanRef_extend`: two accepted texts, one of which goes on, have the same value.
* `boolean_words`: the command on every text.
-/

namespace DahleOS

open CArray Words

variable {args w : Str} {text : Str} {r r' : Option Bool}

/-! ## The reference -/

/-- A boolean word. -/
def boolOf (w : Str) : Option Bool :=
  if w = str "1" ∨ w = str "true" then some true
  else if w = str "0" ∨ w = str "false" then some false
  else none

/-- An operation on two booleans. -/
def boolOp (w : Str) : Option (Bool → Bool → Bool) :=
  if w = str "and" then some fun a b => a && b
  else if w = str "or" then some fun a b => a || b
  else if w = str "xor" then some fun a b => a ^^ b
  else if w = str "nand" then some fun a b => !(a && b)
  else if w = str "nor" then some fun a b => !(a || b)
  else none

/-- The reading of a list of words. -/
def readWords : List Str → Option Bool
  | [x, y] => if y = str "not" then (boolOf x).map not else none
  | x :: y :: z :: _ => do return (← boolOp z) (← boolOf x) (← boolOf y)
  | _ => none

/-- **The reading by words.** -/
def booleanRef (args : Str) : Option Bool := readWords (words sp args)

/-- What is printed for a reading: its value, or an error. -/
def Prints (text : Str) : Option Bool → Prop
  | some b => text = str (if b then "1\n" else "0\n")
  | none => str "Error" <+: text ∨ str "Usage" <+: text

theorem Prints.unique (h : Prints text r) (h' : Prints text r') : r = r' := by
  have herr (b : Bool) : ¬ Prints (str (if b then "1\n" else "0\n")) none := by
    cases b <;> unfold Prints <;> decide
  cases r with
  | none =>
    cases r' with
    | none => rfl
    | some b => exact absurd (h' ▸ h) (herr b)
  | some b =>
    cases r' with
    | none => exact absurd (h ▸ h') (herr b)
    | some b' =>
      have heq : str (if b then "1\n" else "0\n") = str (if b' then "1\n" else "0\n") := h.symm.trans h'
      revert heq
      cases b <;> cases b' <;> decide

/-! ## The command -/

/-- **The tokenizer** finds the first words. -/
theorem booleanTokens_eq (n : ℕ) (p : Str) : booleanTokens n p = (words sp p).take n := by
  induction n generalizing p with
  | zero => rfl
  | succ n ih =>
    rw [← words_skip]
    unfold booleanTokens skipSpaces
    have hhead := head?_skip sp p
    generalize p.dropWhile (· = sp) = s at hhead ⊢
    obtain ⟨w, tail, rfl, hw, ht⟩ := exists_word sp s
    dsimp only
    rw [takeWhile_word hw ht, List.drop_left, ih]
    by_cases hne : w ++ tail = []
    · rw [if_pos hne, hne, words_nil]
      rfl
    · -- the text starts with a word
      have hword : w ≠ [] := by
        rintro rfl
        rcases ht.cases with rfl | ⟨s, rfl⟩
        · exact hne rfl
        · exact hhead rfl
      rw [if_neg hne, words_append hw hword ht, List.take_succ_cons]
      rcases ht.cases with rfl | ⟨s, rfl⟩
      · rfl
      · rw [List.tail_cons, words_sep]

/-- The number of a boolean. -/
def bit (b : Bool) : Int32 := if b then 1 else 0

theorem bit_and (a b : Bool) : bit a &&& bit b = bit (a && b) := by revert a b; decide

theorem bit_or (a b : Bool) : bit a ||| bit b = bit (a || b) := by revert a b; decide

theorem bit_xor (a b : Bool) : bit a ^^^ bit b = bit (a ^^ b) := by revert a b; decide

theorem bit_not (a : Bool) : logicalNot (bit a) = bit !a := by revert a; decide

theorem bit_ne (b : Bool) : bit b ≠ -1 := by revert b; decide

/-- `parse_bool` in terms of the reference. -/
theorem parseBool_eq (w : Str) : parseBool w = ((boolOf w).map bit).getD (-1) := by
  unfold parseBool boolOf
  simp only [strcmp_eq_zero]
  by_cases h₁ : w = str "1"
  · simp [h₁, bit]
  by_cases h₀ : w = str "0"
  · subst h₀
    decide
  by_cases ht : w = str "true"
  · subst ht
    decide
  by_cases hf : w = str "false"
  · subst hf
    decide
  · simp [h₁, h₀, ht, hf]

/-- A number that is printed for a boolean. -/
theorem prints_bit (b : Bool) : Prints (BooleanMsg.result (bit b)).text (some b) := by
  cases b <;> unfold Prints <;> decide

/-- What the command does with the words of the text in its buffer. -/
theorem cmdBoolean_eq {buf : Fin 64 → UInt8} (hne : args ≠ []) {ws : List Str}
    (hws : words sp (args.take 63) = ws) :
    ∃ msg, cmdBoolean buf args = some msg ∧ Prints msg.text (readWords ws) := by
  have h63 : wr (strncpy buf args 63) 63 0 = some (Function.update (strncpy buf args 63) ⟨63, by decide⟩ 0) :=
    wr_nat _ (by decide) 0
  have herror {msg : BooleanMsg} (h : str "Error" <+: msg.text) : Prints msg.text none := Or.inl h
  unfold cmdBoolean
  rw [if_neg hne, h63]
  simp only [Option.bind_eq_bind, Option.bind_some, cstr_strncpy_nul, booleanTokens_eq, hws, strcmp_eq_zero]
  match ws with
  | [] => exact ⟨_, rfl, herror (by decide)⟩
  | [x] => exact ⟨_, rfl, herror (by decide)⟩
  | [x, y] =>
    have htake : [x, y].take 3 = [x, y] := rfl
    rw [htake]
    dsimp only [readWords]
    by_cases hnot : y = str "not"
    · rw [if_pos hnot, if_pos hnot, parseBool_eq]
      cases boolOf x with
      | none => exact ⟨_, rfl, herror (by decide)⟩
      | some b =>
        rw [Option.map_some, Option.getD_some, if_neg (bit_ne b), bit_not]
        exact ⟨_, rfl, prints_bit !b⟩
    · rw [if_neg hnot, if_neg hnot]
      exact ⟨_, rfl, herror (by decide)⟩
  | x :: y :: z :: more =>
    have htake : (x :: y :: z :: more).take 3 = [x, y, z] := rfl
    rw [htake]
    dsimp only [readWords]
    rw [parseBool_eq, parseBool_eq]
    cases boolOf x with
    | none =>
      refine ⟨.invalidFirst, rfl, ?_⟩
      cases boolOp z <;> exact herror (by decide)
    | some a =>
    rw [Option.map_some, Option.getD_some, if_neg (bit_ne a)]
    cases boolOf y with
    | none =>
      refine ⟨.invalidSecond, rfl, ?_⟩
      cases boolOp z <;> exact herror (by decide)
    | some b =>
    rw [Option.map_some, Option.getD_some, if_neg (bit_ne b), bit_and, bit_or, bit_xor, bit_not, bit_not]
    -- the operations in the order of the code
    by_cases hand : z = str "and"
    · subst hand
      exact ⟨_, rfl, prints_bit (a && b)⟩
    by_cases hor : z = str "or"
    · subst hor
      exact ⟨_, rfl, prints_bit (a || b)⟩
    by_cases hxor : z = str "xor"
    · subst hxor
      exact ⟨_, rfl, prints_bit (a ^^ b)⟩
    by_cases hnand : z = str "nand"
    · subst hnand
      exact ⟨_, rfl, prints_bit !(a && b)⟩
    by_cases hnor : z = str "nor"
    · subst hnor
      exact ⟨_, rfl, prints_bit !(a || b)⟩
    · have hop : boolOp z = none := by simp [boolOp, hand, hor, hxor, hnand, hnor]
      rw [if_neg hand, if_neg hor, if_neg hxor, if_neg hnand, if_neg hnor, hop]
      refine ⟨_, rfl, herror ?_⟩
      rw [BooleanMsg.text, List.append_assoc, ← List.take_append_drop 5 (str "Error: unknown operation '"),
        List.append_assoc]
      exact List.prefix_append ..

/-- **The command prints what the reference reads** in the first 63 characters. -/
theorem cmdBoolean_cut (buf : Fin 64 → UInt8) (args : Str) :
    ∃ msg, cmdBoolean buf args = some msg ∧ Prints msg.text (booleanRef (args.take 63)) := by
  by_cases hne : args = []
  · subst hne
    exact ⟨.usage, rfl, Or.inr (by decide)⟩
  · exact cmdBoolean_eq hne rfl

/-! ## Texts that go on -/

/-- No boolean starts with `not`. -/
theorem boolOf_not (t : Str) : boolOf (str "not" ++ t) = none := by
  have hno : ∀ w ∈ [str "1", str "true", str "0", str "false"], ¬ str "not" <+: w := by decide
  have hne (w : Str) (hw : w ∈ [str "1", str "true", str "0", str "false"]) : str "not" ++ t ≠ w :=
    fun h => hno w hw ⟨t, h⟩
  unfold boolOf
  rw [if_neg (not_or.2 ⟨hne _ (by simp), hne _ (by simp)⟩), if_neg (not_or.2 ⟨hne _ (by simp), hne _ (by simp)⟩)]

theorem boolOp_mem (h : (boolOp w).isSome) : w ∈ [str "and", str "or", str "xor", str "nand", str "nor"] := by
  unfold boolOp at h
  split_ifs at h <;> simp_all

/-- No operation goes on to another one. -/
theorem boolOp_extend {y : Str} (h : (boolOp w).isSome) (h' : (boolOp (w ++ y)).isSome) : y = [] := by
  have hno : ∀ u ∈ [str "and", str "or", str "xor", str "nand", str "nor"],
      ∀ v ∈ [str "and", str "or", str "xor", str "nand", str "nor"], u <+: v → u = v := by decide
  have hsame := hno _ (boolOp_mem h) _ (boolOp_mem h') (List.prefix_append ..)
  simpa using hsame

theorem readWords_two {x y : Str} {b : Bool} (h : readWords [x, y] = some b) : y = str "not" := by
  by_contra hy
  simp [readWords, hy] at h

theorem readWords_three {x y z : Str} {more : List Str} {b : Bool} (h : readWords (x :: y :: z :: more) = some b) :
    (boolOf y).isSome ∧ (boolOp z).isSome := by
  rw [readWords] at h
  cases hz : boolOp z <;> cases hx : boolOf x <;> cases hy : boolOf y <;> simp_all

/-- **A longer text has the same value**, if it has one. -/
theorem booleanRef_extend {p q : Str} {b b' : Bool} (h : booleanRef p = some b) (h' : booleanRef (p ++ q) = some b') :
    b = b' := by
  unfold booleanRef at h h'
  rcases words_extend sp p q with ⟨r, hr⟩ | ⟨l, x, y, r, hy, hp, hpq⟩
  · -- more words
    rw [hr] at h'
    generalize words sp p = ws at h h'
    match ws with
    | [] => cases h
    | [x] => cases h
    | [x, y] =>
      cases r with
      | nil => exact Option.some.inj (h.symm.trans h')
      | cons z r =>
        obtain rfl := readWords_two h
        have hnone := (readWords_three h').1
        rw [← List.append_nil (str "not"), boolOf_not] at hnone
        cases hnone
    | x :: y :: z :: more => exact Option.some.inj (h.symm.trans h')
  · -- the last word goes on
    rw [hp] at h
    rw [hpq] at h'
    match l with
    | [] => cases h
    | [v] =>
      obtain rfl := readWords_two h
      cases r with
      | nil => exact absurd (readWords_two h') (by simpa using hy)
      | cons z r =>
        have hnone := (readWords_three h').1
        rw [boolOf_not] at hnone
        cases hnone
    | [v, w] => exact absurd (boolOp_extend (readWords_three h).2 (readWords_three h').2) hy
    | v :: w :: z :: more => exact Option.some.inj (h.symm.trans h')

theorem booleanRef_same (args : Str) : booleanRef args = booleanRef (args.take 63) ↔
    ((booleanRef args).isSome ↔ (booleanRef (args.take 63)).isSome) := by
  refine ⟨fun h => by rw [h], ?_⟩
  intro h
  cases hcut : booleanRef (args.take 63) with
  | none => simpa [hcut] using h
  | some b =>
    obtain ⟨b', hb'⟩ := Option.isSome_iff_exists.1 (h.2 (by rw [hcut]; rfl))
    have hargs : args.take 63 ++ args.drop 63 = args := List.take_append_drop 63 args
    rw [hb', booleanRef_extend hcut (hargs.symm ▸ hb')]

/-! ## Agreement -/

/-- **`boolean` reads by words**, in the first 63 characters. For every argument string,
whatever the buffer held: the command prints the value that the words of its first 63
characters have, or an error if they have none. That is what the words of the whole string
say exactly if both have a value or both have none. -/
theorem boolean_words (args : Str) :
    (∀ buf, ∃ msg, cmdBoolean buf args = some msg ∧ Prints msg.text (booleanRef (args.take 63))) ∧
    ((∀ buf, ∃ msg, cmdBoolean buf args = some msg ∧ Prints msg.text (booleanRef args)) ↔
      ((booleanRef args).isSome ↔ (booleanRef (args.take 63)).isSome)) := by
  refine ⟨fun buf => cmdBoolean_cut buf args, ?_⟩
  rw [← booleanRef_same]
  constructor
  · intro h
    obtain ⟨msg, hmsg, hprints⟩ := h fun _ => 0
    obtain ⟨msg', hmsg', hcut⟩ := cmdBoolean_cut (fun _ => 0) args
    rw [hmsg, Option.some.injEq] at hmsg'
    exact hprints.unique (hmsg' ▸ hcut)
  · intro h buf
    rw [h]
    exact cmdBoolean_cut buf args

/-- **Words beyond the buffer are not read**: the operation is missed. -/
theorem boolean_cut_error :
    booleanRef (str "1" ++ List.replicate 60 sp ++ str "0 and") = some false ∧
      (cmdBoolean (fun _ => 0) (str "1" ++ List.replicate 60 sp ++ str "0 and")).map BooleanMsg.text =
        some (str "Error: expected <first> <second> <op>\n") := by
  decide

end DahleOS
