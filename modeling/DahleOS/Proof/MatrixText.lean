import DahleOS.Lib.Words
import DahleOS.Model.Matrix
import DahleOS.Proof.Determinant
import DahleOS.Proof.Numerals

/-!
# Reading a matrix back

A matrix is written as its dimension and its elements, row by row, in canonical decimal with
spaces between. `matrix_parse_inline` reads tokens of 11 characters, as many as the longest
such numeral has.

* `read_token`: one token.
* `matrixElements_text`: the loop over the elements, from any of them on.
* `matrix_round_trip`: the whole text, with what follows it.
-/

namespace DahleOS

open CArray Words

/-! ## The text -/

/-- The elements from number `e` on, `todo` of them, and the text behind them. Spaces are in
front of each: `gap e` and one more. -/
def elementsText (n : ℕ) (data : Fin 4 → Fin 4 → Int32) (gap : ℕ → ℕ) (tail : Str) : (e todo : ℕ) → Str
  | _, 0 => tail
  | e, todo + 1 => List.replicate (gap e + 1) sp ++
      (str (toString (entry data (e / n) (e % n)).toInt) ++ elementsText n data gap tail (e + 1) todo)

/-- **The text of a matrix** with `n` rows, and the text behind it. -/
def matrixText (n : ℕ) (data : Fin 4 → Fin 4 → Int32) (gap : ℕ → ℕ) (tail : Str) : Str :=
  str (toString n) ++ elementsText n data gap tail 0 (n * n)

theorem inRange_toInt (x : Int32) : InRange x.toInt := ⟨x.le_toInt, x.toInt_lt⟩

theorem sp_notMem_canonical (z : ℤ) : sp ∉ str (toString z) := (denotes_toString z).notMem (by decide)

variable {n : ℕ} {data : Fin 4 → Fin 4 → Int32} {gap : ℕ → ℕ} {tail rest : Str}

theorem Denotes.ne_nil {s : Str} {z : ℤ} (h : Denotes s z) : s ≠ [] := by
  rcases h with ⟨h, -⟩ | ⟨t, rfl, -⟩
  · exact h.1
  · exact List.cons_ne_nil _ _

theorem elementsText_ends (ht : Ends sp tail) (e todo : ℕ) : Ends sp (elementsText n data gap tail e todo) := by
  cases todo with
  | zero => exact ht
  | succ todo => exact .cons _

/-! ## Reading it -/

/-- **A token**, and where the next one starts. -/
theorem read_token {w : Str} (hw : sp ∉ w) (hl : w.length ≤ 11) (ht : Ends sp tail) :
    word 11 (w ++ tail) = w ∧ (w ++ tail).drop w.length = tail := by
  refine ⟨?_, List.drop_left⟩
  rw [word, takeWhile_word hw ht, List.take_of_length_le hl]

theorem strToInt_canonical (x : Int32) : strToInt (str (toString x.toInt)) = x := by
  rw [strToInt_denotes (denotes_toString _), Int32.ofInt_toInt]

/-- **The loop** reads the elements that are left. -/
theorem matrixElements_text (hn : n ≤ 4) (ht : Ends sp tail) (hrest : skipSpaces tail = rest) (todo : ℕ) :
    ∀ e (m : MatrixT), e + todo = n * n →
      matrixElements n e todo (skipSpaces (elementsText n data gap tail e todo)) m =
        some (some ({ m with data := fun r c =>
          if r.val < n ∧ c.val < n ∧ e ≤ r.val * n + c.val then data r c else m.data r c }, rest)) := by
  induction todo with
  | zero =>
    intro e m he
    have hnone (r c : Fin 4) : ¬ (r.val < n ∧ c.val < n ∧ e ≤ r.val * n + c.val) := by
      rintro ⟨hr, hc, hle⟩
      have hmul : (r.val + 1) * n ≤ n * n := Nat.mul_le_mul_right n hr
      rw [Nat.succ_mul] at hmul
      omega
    simp only [matrixElements, elementsText, hrest, hnone, if_false]
  | succ todo ih =>
    intro e m he
    obtain ⟨hrow, hcol⟩ := row_col_lt (show e < n * n by omega)
    obtain ⟨w, hw⟩ : ∃ w, w = str (toString (entry data (e / n) (e % n)).toInt) := ⟨_, rfl⟩
    have hnum := denotes_toString (entry data (e / n) (e % n)).toInt
    have hsp := sp_notMem_canonical (entry data (e / n) (e % n)).toInt
    have hlen := length_canonical (inRange_toInt (entry data (e / n) (e % n)))
    have hvalue := strToInt_canonical (entry data (e / n) (e % n))
    rw [← hw] at hnum hsp hlen hvalue
    have hends : Ends sp (elementsText n data gap tail (e + 1) todo) := elementsText_ends ht (e + 1) todo
    obtain ⟨hword, hdrop⟩ := read_token hsp hlen hends
    rw [elementsText, ← hw, skipSpaces, skip_word _ hsp hnum.ne_nil, matrixElements,
      hword, hdrop, if_neg hnum.ne_nil, hvalue, wr2_nat m.data (by omega) (by omega)]
    simp only [Option.bind_eq_bind, Option.bind_some]
    rw [ih (e + 1) _ (by omega)]
    congr 4
    funext r c
    dsimp only
    by_cases hnow : r.val = e / n ∧ c.val = e % n
    · -- the element that was just read
      have hindex := (row_col_iff (show c.val < n by omega)).1 hnow
      rw [if_neg (by omega), if_pos hnow, if_pos (by omega), ← hnow.1, ← hnow.2, entry_val]
    · rw [if_neg hnow]
      refine if_congr ⟨fun h => ⟨h.1, h.2.1, by omega⟩, ?_⟩ rfl rfl
      rintro ⟨hr, hc, hle⟩
      exact ⟨hr, hc, Nat.lt_of_le_of_ne hle fun h => hnow ((row_col_iff hc).2 h.symm)⟩

/-- **Parsing undoes printing.** For every matrix of 1 to 4 rows and as many columns, whatever
its elements, with one or more spaces between the tokens and in front of a rest that does
not start with a space itself: `matrix_parse_inline` returns the matrix, in whatever
`matrix_t` it is given, and the rest. -/
theorem matrix_round_trip (h1 : 1 ≤ n) (h4 : n ≤ 4) (M m : MatrixT) (hrows : M.rows.toInt = n) (hcols : M.cols = M.rows)
    (gap : ℕ → ℕ) {k : ℕ} (hrest : rest.head? ≠ some sp) (hk : 0 < k ∨ rest = []) :
    matrixParseInline (matrixText n M.data gap (List.replicate k sp ++ rest)) m =
      some (some (⟨M.rows, M.cols, fun r c => if r.val < n ∧ c.val < n then M.data r c else m.data r c⟩, rest)) := by
  have ht : Ends sp (List.replicate k sp ++ rest) := by
    rcases hk with hk | rfl
    · obtain ⟨j, rfl⟩ := Nat.exists_eq_succ_of_ne_zero hk.ne'
      exact .cons _
    · cases k with
      | zero => exact .nil
      | succ j => exact .cons _
  have hdim : strToInt (str (toString n)) = M.rows := by
    have hnat : str (toString n) = str (toString (n : ℤ)) := rfl
    rw [hnat, strToInt_denotes (denotes_toString _), ← hrows, Int32.ofInt_toInt]
  have hends : Ends sp (elementsText n M.data gap (List.replicate k sp ++ rest) 0 (n * n)) :=
    elementsText_ends ht 0 (n * n)
  have hlen : (str (toString n)).length ≤ 11 := length_canonical (z := n) ⟨by omega, by omega⟩
  obtain ⟨hword, hdrop⟩ := read_token (w := str (toString n)) (sp_notMem_canonical n) hlen hends
  have hne : matrixText n M.data gap (List.replicate k sp ++ rest) ≠ [] :=
    List.append_ne_nil_of_left_ne_nil (str_toString_nat n).1.1 _
  have hrange : ¬ (M.rows < 1 ∨ 4 < M.rows) := by
    rw [dimension_test, not_not, hrows]
    omega
  have hcount : M.rows.toInt.toNat = n := by rw [hrows]; rfl
  have hloop := @matrixElements_text n M.data gap _ _ h4 ht (dropWhile_seps k hrest) (n * n) 0
    { m with rows := M.rows, cols := M.rows } (by omega)
  unfold matrixParseInline
  rw [if_neg hne]
  unfold matrixText
  dsimp only
  rw [hword, hdrop, hdim, if_neg hrange, hcount, hloop, hcols]
  simp

/-- A matrix with `INT_MIN` in it, two spaces between the tokens, and `det` behind it. -/
theorem matrix_round_trip_min :
    matrixParseInline (matrixText 2 (fun r c => if r = c then Int32.minValue else 7) (fun _ => 1)
        (List.replicate 1 sp ++ str "det")) .zero =
      some (some (⟨2, 2, fun r c => if r.val < 2 ∧ c.val < 2 then (if r = c then Int32.minValue else 7) else 0⟩,
        str "det")) :=
  matrix_round_trip (by decide) (by decide) ⟨2, 2, fun r c => if r = c then Int32.minValue else 7⟩ .zero rfl rfl
    (fun _ => 1) (by decide) (Or.inl Nat.one_pos)

end DahleOS
