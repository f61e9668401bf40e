import Mathlib.Data.List.Basic
import Mathlib.Data.List.OfFn
import Mathlib.Logic.Function.Basic
import Mathlib.Tactic.Set

/-!
# Fixed-size arrays with checked accesses

A C array `T a[n]` is a function `Fin n → α`. Reading and writing go through an
`Int` index and are partial: `none` stands for an access outside the array.

* `rd`, `wr`: one access.
* `findSlot`: the loop `for (i = 0; i < count; i++) if (test(a[i])) return i;`.
* `shiftLeft`: the loop `for (j = i; j < count - 1; j++) a[j] = a[j + 1];`.
* `rd2`, `wr2`: the accesses `a[i][j]` and `a[i][j] = v`.
* `copyDown`, `fill`: the loops `a[i] = a[i + k];` and `a[i] = v;` over a range.
* `copyBack`: the loop `while (i > 0) b[j++] = a[--i];`.
* `slots a k`: the first `k` elements as a list. Through it the two loops and the
  write at `k` are `List.findIdx?`, `List.eraseIdx` and `++ [v]`
  (`findSlot_eq`, `slots_shifted`, `slots_push`).
-/

namespace CArray

variable {α : Type} {n : ℕ}

/-- `a[i]`. -/
def rd (a : Fin n → α) (i : ℤ) : Option α :=
  if h : 0 ≤ i ∧ i < n then some (a ⟨i.toNat, by omega⟩) else none

/-- `a[i] = v`. -/
def wr (a : Fin n → α) (i : ℤ) (v : α) : Option (Fin n → α) :=
  if h : 0 ≤ i ∧ i < n then some (Function.update a ⟨i.toNat, by omega⟩ v) else none

@[simp] theorem rd_val (a : Fin n → α) (k : Fin n) : rd a (k : ℕ) = some (a k) := by
  have h : (0 : ℤ) ≤ (k : ℕ) ∧ ((k : ℕ) : ℤ) < n := ⟨by omega, by exact_mod_cast k.isLt⟩
  simp [rd]

@[simp] theorem wr_val (a : Fin n → α) (k : Fin n) (v : α) :
    wr a (k : ℕ) v = some (Function.update a k v) := by
  have h : (0 : ℤ) ≤ (k : ℕ) ∧ ((k : ℕ) : ℤ) < n := ⟨by omega, by exact_mod_cast k.isLt⟩
  simp [wr]

theorem rd_nat (a : Fin n → α) {i : ℕ} (h : i < n) : rd a (i : ℤ) = some (a ⟨i, h⟩) :=
  rd_val a ⟨i, h⟩

theorem wr_nat (a : Fin n → α) {i : ℕ} (h : i < n) (v : α) :
    wr a (i : ℤ) v = some (Function.update a ⟨i, h⟩ v) :=
  wr_val a ⟨i, h⟩ v

/-- An access succeeds only inside the array. -/
theorem rd_eq_some {a : Fin n → α} {i : ℤ} {v : α} (h : rd a i = some v) :
    ∃ k : Fin n, i = (k : ℕ) ∧ a k = v := by
  unfold rd at h
  split at h
  · rename_i hi
    exact ⟨⟨i.toNat, by omega⟩, by simp [hi.1], by simpa using h⟩
  · cases h

theorem wr_eq_some {a b : Fin n → α} {i : ℤ} {v : α} (h : wr a i v = some b) :
    ∃ k : Fin n, i = (k : ℕ) ∧ Function.update a k v = b := by
  unfold wr at h
  split at h
  · rename_i hi
    exact ⟨⟨i.toNat, by omega⟩, by simp [hi.1], by simpa using h⟩
  · cases h

/-! ## Two dimensions -/

section Grid

variable {k : ℕ}

/-- `a[i][j]`. -/
def rd2 (a : Fin n → Fin k → α) (i j : ℤ) : Option α := do
  let row ← rd a i
  rd row j

/-- `a[i][j] = v`. -/
def wr2 (a : Fin n → Fin k → α) (i j : ℤ) (v : α) : Option (Fin n → Fin k → α) := do
  let row ← rd a i
  let row ← wr row j v
  wr a i row

theorem rd2_nat (a : Fin n → Fin k → α) {i j : ℕ} (hi : i < n) (hj : j < k) :
    rd2 a (i : ℤ) (j : ℤ) = some (a ⟨i, hi⟩ ⟨j, hj⟩) := by
  simp [rd2, rd_nat _ hi, rd_nat _ hj]

/-- A write changes one element. -/
theorem wr2_nat (a : Fin n → Fin k → α) {i j : ℕ} (hi : i < n) (hj : j < k) (v : α) :
    wr2 a (i : ℤ) (j : ℤ) v = some fun r c => if r.val = i ∧ c.val = j then v else a r c := by
  simp only [wr2, rd_nat _ hi, wr_nat _ hj, wr_nat _ hi, Option.bind_eq_bind, Option.bind_some, Option.some.injEq]
  funext r c
  by_cases hr : r = ⟨i, hi⟩
  · subst hr
    rw [Function.update_self]
    by_cases hc : c = ⟨j, hj⟩
    · subst hc
      rw [Function.update_self, if_pos ⟨rfl, rfl⟩]
    · rw [Function.update_of_ne hc, if_neg fun h => hc (Fin.ext h.2)]
  · rw [Function.update_of_ne hr, if_neg fun h => hr (Fin.ext h.1)]

/-- The row and the column of an element of a square that is filled row by row. -/
theorem row_col_lt {e n : ℕ} (he : e < n * n) : e / n < n ∧ e % n < n := by
  have hn : 0 < n := Nat.pos_of_ne_zero (by rintro rfl; exact absurd he (Nat.not_lt_zero e))
  exact ⟨Nat.div_lt_of_lt_mul he, Nat.mod_lt e hn⟩

theorem row_col_iff {r c e n : ℕ} (hc : c < n) : r = e / n ∧ c = e % n ↔ r * n + c = e := by
  rw [eq_comm, @eq_comm _ c, Nat.div_mod_unique (Nat.zero_lt_of_lt hc), and_iff_left hc, Nat.add_comm, Nat.mul_comm]

end Grid

/-! ## The filled prefix -/

/-- The first `k` elements of the array, as a list. -/
def slots (a : Fin n → α) (k : ℕ) : List α := (List.ofFn a).take k

@[simp] theorem slots_zero (a : Fin n → α) : slots a 0 = [] := by simp [slots]

theorem length_slots (a : Fin n → α) {k : ℕ} (h : k ≤ n) : (slots a k).length = k := by
  simp [slots, h]

theorem getElem_slots (a : Fin n → α) {k i : ℕ} (h : i < (slots a k).length) :
    (slots a k)[i] = a ⟨i, by simp [slots] at h; omega⟩ := by
  simp [slots]

theorem getElem?_slots (a : Fin n → α) {k i : ℕ} (hi : i < k) (hk : k ≤ n) :
    (slots a k)[i]? = some (a ⟨i, by omega⟩) := by
  have h : i < (slots a k).length := by rw [length_slots a hk]; exact hi
  rw [List.getElem?_eq_getElem h, getElem_slots]

theorem mem_slots {a : Fin n → α} {k : ℕ} {v : α} (h : v ∈ slots a k) :
    ∃ i : Fin n, i.val < k ∧ a i = v := by
  obtain ⟨i, hi, hv⟩ := List.getElem_of_mem h
  have hl : i < k ∧ i < n := by simpa [slots] using hi
  exact ⟨⟨i, hl.2⟩, hl.1, by rw [← hv, getElem_slots]⟩

theorem mem_slots_of (a : Fin n → α) {k : ℕ} (i : Fin n) (h : i.val < k) : a i ∈ slots a k := by
  have hl : i.val < (slots a k).length := by simp [slots, h, i.isLt]
  have := List.getElem_mem hl
  rwa [getElem_slots] at this

/-- Writing behind the prefix and counting it in appends. -/
theorem slots_push (a : Fin n → α) {k : ℕ} (h : k < n) (v : α) :
    slots (Function.update a ⟨k, h⟩ v) (k + 1) = slots a k ++ [v] := by
  apply List.ext_getElem
  · rw [length_slots _ h, List.length_append, length_slots a h.le]; rfl
  · intro i hi _
    rw [length_slots _ h] at hi
    rw [getElem_slots]
    -- an old element, or the new one
    rcases Nat.lt_or_eq_of_le (Nat.le_of_lt_succ hi) with hlt | rfl
    · rw [List.getElem_append_left (by rw [length_slots a h.le]; exact hlt), getElem_slots,
        Function.update_of_ne (by simp [Fin.ext_iff]; omega)]
    · rw [List.getElem_append_right (by rw [length_slots a h.le])]
      simp

/-- Writing inside the prefix. -/
theorem slots_update (a : Fin n → α) (i : Fin n) (k : ℕ) (v : α) :
    slots (Function.update a i v) k = (slots a k).set i.val v := by
  apply List.ext_getElem
  · simp [slots]
  · intro j h1 h2
    rw [getElem_slots, List.getElem_set, getElem_slots]
    by_cases hij : i.val = j
    · rw [if_pos hij]
      subst hij
      exact Function.update_self i v a
    · rw [if_neg hij, Function.update_of_ne (by simp [Fin.ext_iff]; omega)]

/-! ## The search loop -/

/-- `for (i = 0; i < count; i++) if (test(a[i])) return i;`, from `i` on with `todo`
rounds left. The outer `none` is an access outside the array or inside `test`. -/
def findSlot (a : Fin n → α) (test : α → Option Bool) : (i todo : ℕ) → Option (Option ℕ)
  | _, 0 => some none
  | i, todo + 1 => do
    let v ← rd a i
    if ← test v then return some i
    findSlot a test (i + 1) todo

theorem findSlot_go {a : Fin n → α} {test : α → Option Bool} {p : α → Bool} {k : ℕ} (hk : k ≤ n)
    (hp : ∀ v ∈ slots a k, test v = some (p v)) :
    ∀ todo i, i + todo = k →
      findSlot a test i todo = some ((((slots a k).drop i).findIdx? p).map (· + i)) := by
  intro todo
  induction todo with
  | zero =>
    intro i hi
    have : (slots a k).drop i = [] := by
      rw [List.drop_eq_nil_iff, length_slots a hk]; omega
    simp [findSlot, this]
  | succ todo ih =>
    intro i hi
    have hin : i < n := by omega
    have hil : i < (slots a k).length := by rw [length_slots a hk]; omega
    have hmem := mem_slots_of a (k := k) ⟨i, hin⟩ (by simp; omega)
    -- the element at `i` is the head of what is left to search
    rw [List.drop_eq_getElem_cons hil, getElem_slots]
    simp only [findSlot, rd_nat a hin, hp _ hmem, Option.bind_eq_bind, Option.bind_some,
      List.findIdx?_cons]
    by_cases hc : p (a ⟨i, hin⟩) = true
    · simp [hc]
    · rw [ih (i + 1) (by omega)]
      have hshift : (fun x => x + (i + 1)) = (fun x => x + i) ∘ (fun x => x + 1) := by
        funext x; simp only [Function.comp_apply]; omega
      simp [hc, hshift]

/-- **The search loop is `List.findIdx?`** on the filled prefix. -/
theorem findSlot_eq {a : Fin n → α} {test : α → Option Bool} {p : α → Bool} {k : ℕ} (hk : k ≤ n)
    (hp : ∀ v ∈ slots a k, test v = some (p v)) :
    findSlot a test 0 k = some ((slots a k).findIdx? p) := by
  rw [findSlot_go hk hp k 0 (by omega)]
  simp

/-! ## The compaction loop -/

/-- `for (j = i; j < count - 1; j++) a[j] = a[j + 1];`, from `j` on with `todo`
rounds left. -/
def shiftLeft : (a : Fin n → α) → (j todo : ℕ) → Option (Fin n → α)
  | a, _, 0 => some a
  | a, j, todo + 1 => do
    let v ← rd a (j + 1 : ℕ)
    let a ← wr a j v
    shiftLeft a (j + 1) todo

/-- The array after the compaction loop. -/
def shifted (a : Fin n → α) (j todo : ℕ) : Fin n → α := fun x =>
  if h : j ≤ x.val ∧ x.val < j + todo ∧ x.val + 1 < n then a ⟨x.val + 1, h.2.2⟩ else a x

theorem shifted_in (a : Fin n → α) {j todo x : ℕ} (hx : x + 1 < n) (h1 : j ≤ x) (h2 : x < j + todo) :
    shifted a j todo ⟨x, by omega⟩ = a ⟨x + 1, hx⟩ :=
  dif_pos ⟨h1, h2, hx⟩

theorem shifted_out (a : Fin n → α) {j todo : ℕ} {x : Fin n} (h : x.val < j ∨ j + todo ≤ x.val) :
    shifted a j todo x = a x :=
  dif_neg (by omega)

theorem shiftLeft_eq : ∀ (todo j : ℕ) (a : Fin n → α), j + todo < n →
    shiftLeft a j todo = some (shifted a j todo) := by
  intro todo
  induction todo with
  | zero =>
    intro j a _
    simp only [shiftLeft, Option.some.injEq]
    funext x
    exact (shifted_out a (by omega)).symm
  | succ todo ih =>
    intro j a hj
    have h1 : j + 1 < n := by omega
    simp only [shiftLeft, rd_nat a h1, Option.bind_eq_bind, Option.bind_some,
      wr_nat a (show j < n by omega), ih (j + 1) _ (show j + 1 + todo < n by omega),
      Option.some.injEq]
    funext x
    -- below `j` nothing moves, `j` gets its neighbour, above it the later rounds decide
    rcases Nat.lt_trichotomy x.val j with hx | rfl | hx
    · rw [shifted_out _ (by omega), shifted_out _ (by omega),
        Function.update_of_ne (by simp [Fin.ext_iff]; omega)]
    · rw [shifted_out _ (by omega), Function.update_self, shifted_in a h1 (le_refl _) (by omega)]
    · by_cases hr : x.val < j + 1 + todo
      · rw [shifted_in _ (show x.val + 1 < n by omega) (by omega) hr,
          shifted_in a (show x.val + 1 < n by omega) (by omega) (by omega),
          Function.update_of_ne (by simp [Fin.ext_iff]; omega)]
      · rw [shifted_out _ (by omega), shifted_out _ (by omega),
          Function.update_of_ne (by simp [Fin.ext_iff]; omega)]

/-- **Compaction deletes one element** of the filled prefix and keeps the order of the
rest. -/
theorem slots_shifted (a : Fin n → α) {k i : ℕ} (hi : i < k) (hk : k ≤ n) :
    slots (shifted a i (k - 1 - i)) (k - 1) = (slots a k).eraseIdx i := by
  have hl : (slots a k).length = k := length_slots a hk
  apply List.ext_getElem
  · rw [length_slots _ (by omega), List.length_eraseIdx_of_lt (by rw [hl]; exact hi), hl]
  · intro j hj _
    rw [length_slots _ (by omega)] at hj
    rw [getElem_slots, List.getElem_eraseIdx]
    by_cases hji : j < i
    · rw [dif_pos hji, getElem_slots, shifted_out a (Or.inl hji)]
    · rw [dif_neg hji, getElem_slots, shifted_in a (by omega) (by omega) (by omega)]

/-! ## Block moves -/

/-- `a[i] = a[i + k];` from `i` on, `todo` times. -/
def copyDown (k : ℕ) : (a : Fin n → α) → (i todo : ℕ) → Option (Fin n → α)
  | a, _, 0 => some a
  | a, i, todo + 1 => do
    let v ← rd a (i + k : ℕ)
    let a ← wr a i v
    copyDown k a (i + 1) todo

/-- `a[i] = v;` from `i` on, `todo` times. -/
def fill (v : α) : (a : Fin n → α) → (i todo : ℕ) → Option (Fin n → α)
  | a, _, 0 => some a
  | a, i, todo + 1 => do
    let a ← wr a i v
    fill v a (i + 1) todo

/-- `while (i > 0) b[j++] = a[--i];`: the array `b`, and `j`. -/
def copyBack {k : ℕ} (a : Fin k → α) : (i : ℕ) → (b : Fin n → α) → (j : ℕ) → Option ((Fin n → α) × ℕ)
  | 0, b, j => some (b, j)
  | i + 1, b, j => do
    let v ← rd a i
    let b ← wr b j v
    copyBack a i b (j + 1)

/-- **A copy downwards** reads no element that it has written. -/
theorem copyDown_eq {k : ℕ} (hk : 0 < k) : ∀ (todo i : ℕ) (a : Fin n → α), i + todo + k ≤ n →
    copyDown k a i todo = some fun x =>
      if h : i ≤ x.val ∧ x.val < i + todo ∧ x.val + k < n then a ⟨x.val + k, h.2.2⟩ else a x := by
  intro todo
  induction todo with
  | zero =>
    intro i a _
    simp only [copyDown, Option.some.injEq]
    funext x
    rw [dif_neg (by omega)]
  | succ todo ih =>
    intro i a hi
    simp only [copyDown, rd_nat a (show i + k < n by omega), Option.bind_eq_bind, Option.bind_some,
      wr_nat a (show i < n by omega), ih (i + 1) _ (show i + 1 + todo + k ≤ n by omega), Option.some.injEq]
    funext x
    by_cases hx : x.val = i
    · -- written now, and not again
      subst hx
      rw [dif_neg (by omega), dif_pos (by omega)]
      exact Function.update_self ..
    · rw [Function.update_of_ne (by simpa [Fin.ext_iff] using hx)]
      by_cases hr : i + 1 ≤ x.val ∧ x.val < i + 1 + todo ∧ x.val + k < n
      · rw [dif_pos hr, dif_pos (by omega), Function.update_of_ne (by simp [Fin.ext_iff]; omega)]
      · rw [dif_neg hr, dif_neg (by omega)]

theorem fill_eq (v : α) : ∀ (todo i : ℕ) (a : Fin n → α), i + todo ≤ n →
    fill v a i todo = some fun x => if i ≤ x.val ∧ x.val < i + todo then v else a x := by
  intro todo
  induction todo with
  | zero =>
    intro i a _
    simp only [fill, Option.some.injEq]
    funext x
    rw [if_neg (by omega)]
  | succ todo ih =>
    intro i a hi
    simp only [fill, Option.bind_eq_bind, wr_nat a (show i < n by omega), Option.bind_some,
      ih (i + 1) _ (show i + 1 + todo ≤ n by omega), Option.some.injEq]
    funext x
    by_cases hx : x.val = i
    · subst hx
      rw [if_neg (by omega), if_pos (by omega)]
      exact Function.update_self ..
    · rw [Function.update_of_ne (by simpa [Fin.ext_iff] using hx)]
      by_cases hr : i + 1 ≤ x.val ∧ x.val < i + 1 + todo
      · rw [if_pos hr, if_pos (by omega)]
      · rw [if_neg hr, if_neg (by omega)]

/-- The first `i + 1` elements, the last one first. -/
theorem reverse_slots_succ {k : ℕ} (a : Fin k → α) {i : ℕ} (hi : i < k) :
    (slots a (i + 1)).reverse = a ⟨i, hi⟩ :: (slots a i).reverse := by
  have hlen : i < (List.ofFn a).length := by rw [List.length_ofFn]; exact hi
  rw [slots, slots, List.take_succ_eq_append_getElem hlen, List.reverse_append, List.getElem_ofFn]
  rfl

/-- **A copy backwards** appends the reversed elements, and leaves what is behind them. -/
theorem copyBack_eq {k i : ℕ} (a : Fin k → α) (hi : i ≤ k) {b : Fin n → α} {j : ℕ} (hj : j + i ≤ n) :
    ∃ b', copyBack a i b j = some (b', j + i) ∧ slots b' (j + i) = slots b j ++ (slots a i).reverse ∧
      ∀ x : Fin n, j + i ≤ x.val → b' x = b x := by
  induction i generalizing b j with
  | zero => exact ⟨b, rfl, by rw [slots_zero, List.reverse_nil, List.append_nil]; rfl, fun _ _ => rfl⟩
  | succ i ih =>
    obtain ⟨b', hcopy, hslots, hbehind⟩ := ih (by omega) (b := Function.update b ⟨j, by omega⟩ (a ⟨i, hi⟩)) (j := j + 1) (by omega)
    have hcount : j + 1 + i = j + (i + 1) := by omega
    rw [hcount] at hcopy hslots hbehind
    refine ⟨b', ?_, ?_, ?_⟩
    · rw [copyBack, rd_nat a hi, Option.bind_eq_bind, Option.bind_some, wr_nat b (show j < n by omega)]
      exact hcopy
    · rw [hslots, slots_push b (show j < n by omega), reverse_slots_succ a hi, List.append_assoc]
      rfl
    · intro x hx
      rw [hbehind x hx, Function.update_of_ne]
      exact fun h => absurd (congrArg Fin.val h) (by dsimp only; omega)

end CArray
