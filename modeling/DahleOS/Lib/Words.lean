import Mathlib.Data.List.Basic
import Mathlib.Data.List.TakeWhile

/-!
# Words between separators

A scanner that skips separators and then reads up to the next one, against the list of the
words of a text.

* `words`: what stands between the separators, where something does.
* `words_append`: a word, and what follows it.
* `words_skip`: separators at the front do not matter.
* `words_extend`: the words of a text that goes on.
* `cuts`: a word cut into pieces of bounded length.
* `takeWhile_word`, `drop_length_take`: what a scanner reads, and what it leaves.
-/

namespace Words

variable {α : Type} {sep : α} {s w tail : List α}

/-- A text at whose front a word ends: it is empty, or starts with a separator. -/
def Ends (sep : α) (tail : List α) : Prop := ∀ a ∈ tail.head?, a = sep

theorem Ends.nil : Ends sep [] := by simp [Ends]

theorem Ends.cons (s : List α) : Ends sep (sep :: s) := by simp [Ends]

theorem Ends.cases (h : Ends sep tail) : tail = [] ∨ ∃ s, tail = sep :: s := by
  cases tail with
  | nil => exact Or.inl rfl
  | cons a s => exact Or.inr ⟨s, by rw [h a rfl]⟩

/-! ## Scanning -/

/-- What a scanner leaves that stops in the word after `n` characters. -/
theorem drop_length_take (n : ℕ) (w tail : List α) : (w ++ tail).drop (w.take n).length = w.drop n ++ tail := by
  rw [List.length_take, List.drop_append]
  rcases Nat.lt_or_ge n w.length with hlt | hge
  · rw [Nat.min_eq_left hlt.le, Nat.sub_eq_zero_of_le hlt.le, List.drop_zero]
  · rw [Nat.min_eq_right hge, Nat.sub_self, List.drop_zero, List.drop_length, List.drop_eq_nil_of_le hge]

variable [DecidableEq α]

theorem takeWhile_word (hw : sep ∉ w) (ht : Ends sep tail) : (w ++ tail).takeWhile (· ≠ sep) = w := by
  rw [List.takeWhile_append_of_pos (fun a ha => by simpa using fun h : a = sep => hw (h ▸ ha))]
  rcases ht.cases with rfl | ⟨s, rfl⟩ <;> simp

/-- Every text is a word, which may be empty, and what follows it. -/
theorem exists_word (sep : α) (s : List α) : ∃ w tail, s = w ++ tail ∧ sep ∉ w ∧ Ends sep tail := by
  refine ⟨s.takeWhile (· ≠ sep), s.dropWhile (· ≠ sep), List.takeWhile_append_dropWhile.symm, ?_, ?_⟩
  · intro hmem
    simpa using List.mem_takeWhile_imp hmem
  · intro a ha
    have hhead := List.head?_dropWhile_not (· ≠ sep) s
    rw [Option.mem_def.1 ha] at hhead
    simpa using hhead

/-- Separators at the front are skipped. -/
theorem dropWhile_seps (k : ℕ) (h : s.head? ≠ some sep) :
    (List.replicate k sep ++ s).dropWhile (· = sep) = s := by
  rw [List.dropWhile_append_of_pos (fun a ha => by simpa using List.eq_of_mem_replicate ha)]
  cases s with
  | nil => rfl
  | cons a s => exact List.dropWhile_cons_of_neg (by simpa using h)

/-- A scanner that skips separators stops at a word. -/
theorem skip_word (k : ℕ) (hw : sep ∉ w) (hne : w ≠ []) (tail : List α) :
    (List.replicate k sep ++ (w ++ tail)).dropWhile (· = sep) = w ++ tail := by
  refine dropWhile_seps k ?_
  obtain ⟨a, w, rfl⟩ := List.exists_cons_of_ne_nil hne
  rw [List.cons_append, List.head?_cons, Ne, Option.some.injEq]
  exact fun h => hw (h ▸ List.mem_cons_self)

theorem head?_skip (sep : α) (s : List α) : (s.dropWhile (· = sep)).head? ≠ some sep := by
  intro h
  have hhead := List.head?_dropWhile_not (· = sep) s
  rw [h] at hhead
  simp at hhead

/-! ## The words -/

/-- **The words of a text.** -/
def words (sep : α) (s : List α) : List (List α) := (s.splitOn sep).filter (· ≠ [])

@[simp] theorem words_nil : words sep [] = [] := by simp [words]

theorem words_sep (s : List α) : words sep (sep :: s) = words sep s := by
  have hsplit := List.splitOn_append_cons_self_of_not_mem (List.not_mem_nil (a := sep)) s
  rw [List.nil_append] at hsplit
  simp [words, hsplit]

theorem words_skip (s : List α) : words sep (s.dropWhile (· = sep)) = words sep s := by
  induction s with
  | nil => rfl
  | cons a s ih =>
    by_cases ha : a = sep
    · subst ha
      rw [List.dropWhile_cons_of_pos (by simp), ih, words_sep]
    · rw [List.dropWhile_cons_of_neg (by simpa using ha)]

/-- **A word and what follows it.** -/
theorem words_append (hw : sep ∉ w) (hne : w ≠ []) (ht : Ends sep tail) :
    words sep (w ++ tail) = w :: words sep tail := by
  rcases ht.cases with rfl | ⟨s, rfl⟩
  · simp [words, List.splitOn_eq_singleton hw, hne]
  · rw [words_sep, words, List.splitOn_append_cons_self_of_not_mem hw s]
    simp [words, hne]

/-- **Where the first word stands.** -/
theorem words_cons {ws : List (List α)} (h : words sep s = w :: ws) :
    ∃ k tail, s = List.replicate k sep ++ (w ++ tail) ∧ sep ∉ w ∧ w ≠ [] ∧ Ends sep tail ∧ words sep tail = ws := by
  induction s with
  | nil => simp at h
  | cons a s ih =>
    by_cases ha : a = sep
    · subst ha
      rw [words_sep] at h
      obtain ⟨k, tail, rfl, hrest⟩ := ih h
      exact ⟨k + 1, tail, rfl, hrest⟩
    · obtain ⟨v, tail, rfl, hv, ht⟩ := exists_word sep s
      have hav : sep ∉ a :: v := by simp [hv, Ne.symm ha]
      rw [← List.cons_append, words_append hav (List.cons_ne_nil a v) ht, List.cons.injEq] at h
      obtain ⟨rfl, rfl⟩ := h
      exact ⟨0, tail, rfl, hav, List.cons_ne_nil a v, ht, rfl⟩

/-! ## A text that goes on -/

/-- **The words of a longer text** begin with those of the shorter one, of which the last
may go on. -/
theorem words_extend (sep : α) (p q : List α) : (∃ r, words sep (p ++ q) = words sep p ++ r) ∨
    ∃ l x y r, y ≠ [] ∧ words sep p = l ++ [x] ∧ words sep (p ++ q) = l ++ (x ++ y) :: r := by
  induction hn : p.length using Nat.strong_induction_on generalizing p with
  | _ n ih =>
  cases p with
  | nil => exact Or.inl ⟨words sep q, by simp⟩
  | cons a p =>
    by_cases ha : a = sep
    · subst ha
      rw [List.cons_append, words_sep, words_sep]
      exact ih p.length (by rw [← hn, List.length_cons]; omega) p rfl
    obtain ⟨w, tail, rfl, hw, ht⟩ := exists_word sep p
    have haw : sep ∉ a :: w := by simp [hw, Ne.symm ha]
    rw [← List.cons_append, words_append haw (List.cons_ne_nil a w) ht]
    rcases ht.cases with rfl | ⟨rest, rfl⟩
    · -- the word is the last one of the shorter text
      obtain ⟨v, tail, rfl, hv, ht⟩ := exists_word sep q
      rw [List.append_nil, ← List.append_assoc, words_append (by simp_all) (by simp) ht]
      by_cases hv : v = []
      · exact Or.inl ⟨words sep tail, by simp [hv]⟩
      · exact Or.inr ⟨[], a :: w, v, words sep tail, hv, by simp, rfl⟩
    · have hlong : words sep (a :: w ++ sep :: rest ++ q) = (a :: w) :: words sep (rest ++ q) := by
        rw [List.append_assoc, ← words_sep (rest ++ q)]
        exact words_append haw (List.cons_ne_nil a w) (.cons _)
      rw [hlong, words_sep]
      rcases ih rest.length (by rw [← hn]; simp; omega) rest rfl with ⟨r, hr⟩ | ⟨l, x, y, r, hy, hp, hpq⟩
      · exact Or.inl ⟨r, by rw [hr, List.cons_append]⟩
      · exact Or.inr ⟨(a :: w) :: l, x, y, r, hy, by rw [hp, List.cons_append], by rw [hpq, List.cons_append]⟩

/-! ## Cutting a word -/

omit [DecidableEq α]

/-- The pieces of a word, of `n` characters each but for the last. -/
def cuts (n : ℕ) (w : List α) : List (List α) :=
  (List.range ((w.length + n - 1) / n)).map fun i => (w.drop (n * i)).take n

variable {n : ℕ}

theorem length_cuts (n : ℕ) (w : List α) : (cuts n w).length = (w.length + n - 1) / n := by
  simp [cuts]

theorem cuts_nil (hn : 0 < n) : cuts n ([] : List α) = [] := by
  have hlen := length_cuts n ([] : List α)
  rw [List.length_nil, Nat.div_eq_of_lt (by omega)] at hlen
  exact List.length_eq_zero_iff.1 hlen

/-- **The first piece** and those behind it. -/
theorem cuts_cons (hn : 0 < n) (hne : w ≠ []) : cuts n w = w.take n :: cuts n (w.drop n) := by
  have hpos := List.length_pos_iff.2 hne
  have hcount : (w.length + n - 1) / n = ((w.drop n).length + n - 1) / n + 1 := by
    rw [List.length_drop]
    rcases Nat.lt_or_ge n w.length with hlt | hge
    · rw [← Nat.add_div_right _ hn]
      congr 1
      omega
    · rw [Nat.sub_eq_zero_of_le hge, Nat.div_eq_of_lt (show 0 + n - 1 < n by omega)]
      exact Nat.div_eq_of_lt_le (by omega) (by omega)
  unfold cuts
  rw [hcount, List.range_succ_eq_map, List.map_cons, List.map_map]
  congr 1
  apply List.map_congr_left
  intro i _
  rw [Function.comp_apply, List.drop_drop, Nat.mul_succ, Nat.add_comm]

theorem cuts_short (hn : 0 < n) (hne : w ≠ []) (hl : w.length ≤ n) : cuts n w = [w] := by
  rw [cuts_cons hn hne, List.take_of_length_le hl, List.drop_eq_nil_of_le hl, cuts_nil hn]

end Words
