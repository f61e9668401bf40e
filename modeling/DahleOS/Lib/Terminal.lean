import Mathlib.Algebra.Group.Nat.Defs
import Mathlib.Data.Nat.Basic
import Mathlib.Logic.Function.Basic

/-!
# A terminal without end, and a window on it

A terminal of `cols` columns and no last row: the cells in row-major order, and a cursor.

* `newline`, `carriageReturn`, `tab`, `put`, `backspace`: what characters do.
* `Ends t l`: the cells right before the cursor hold `l`. Printing appends to it and
  backspacing takes its last element.
* `Window`: `rows` rows of the cells, from row `off` on. Scrolling moves it down by a row.
-/

namespace Terminal

variable {α : Type}

/-- The cells in row-major order, and the cursor. -/
structure Term (α : Type) where
  cells : ℕ → α
  row : ℕ
  col : ℕ

namespace Term

/-- The cell in a row and column. -/
def cellAt (cols : ℕ) (t : Term α) (r c : ℕ) : α := t.cells (r * cols + c)

/-- The cell under the cursor. -/
def pos (cols : ℕ) (t : Term α) : ℕ := t.row * cols + t.col

def newline (t : Term α) : Term α := { t with row := t.row + 1, col := 0 }

def carriageReturn (t : Term α) : Term α := { t with col := 0 }

/-- The cursor goes to the start of the next row when it is past the last column. -/
def wrap (cols : ℕ) (t : Term α) : Term α := if cols ≤ t.col then t.newline else t

/-- To the next multiple of `stop`. -/
def tab (cols stop : ℕ) (t : Term α) : Term α :=
  { t with col := t.col + stop - (t.col + stop) % stop }.wrap cols

def put (cols : ℕ) (v : α) (t : Term α) : Term α :=
  { t with cells := Function.update t.cells (t.pos cols) v, col := t.col + 1 }.wrap cols

/-- One column back, or to the end of the row above. -/
def back (cols : ℕ) (t : Term α) : Term α :=
  if 0 < t.col then { t with col := t.col - 1 }
  else if 0 < t.row then { t with row := t.row - 1, col := cols - 1 }
  else t

/-- A step back, and a blank there. -/
def backspace (cols : ℕ) (blank : α) (t : Term α) : Term α :=
  { t.back cols with cells := Function.update t.cells ((t.back cols).pos cols) blank }

variable {cols : ℕ} {t : Term α}

theorem wrap_pos (h : t.col ≤ cols) : (t.wrap cols).pos cols = t.pos cols := by
  unfold wrap
  split
  · -- the end of a row is the start of the next
    have hc : t.col = cols := by omega
    simp only [pos, newline, hc, Nat.succ_mul, Nat.add_zero]
  · rfl

@[simp] theorem wrap_cells (t : Term α) : (t.wrap cols).cells = t.cells := by
  unfold wrap
  split <;> rfl

@[simp] theorem back_cells (t : Term α) : (t.back cols).cells = t.cells := by
  unfold back
  split_ifs
  · rfl
  · rfl
  · rfl

theorem row_le_wrap (cols : ℕ) (t : Term α) : t.row ≤ (t.wrap cols).row := by
  unfold wrap
  split
  · exact Nat.le_succ _
  · exact le_refl _

theorem row_le_put (t : Term α) (v : α) : t.row ≤ (t.put cols v).row := by
  unfold put
  exact row_le_wrap cols { t with cells := Function.update t.cells (t.pos cols) v, col := t.col + 1 }

theorem row_le_tab (stop : ℕ) (t : Term α) : t.row ≤ (t.tab cols stop).row := by
  unfold tab
  exact row_le_wrap cols { t with col := t.col + stop - (t.col + stop) % stop }

theorem put_pos (h : t.col < cols) (v : α) : (t.put cols v).pos cols = t.pos cols + 1 :=
  wrap_pos (t := { t with cells := Function.update t.cells (t.pos cols) v, col := t.col + 1 }) h

theorem put_cells (v : α) : (t.put cols v).cells = Function.update t.cells (t.pos cols) v := wrap_cells _

theorem back_pos (hp : 0 < t.pos cols) : (t.back cols).pos cols = t.pos cols - 1 := by
  unfold back
  split_ifs with h₁ h₂
  · simp only [pos]
    omega
  · obtain ⟨r, hr⟩ : ∃ r, t.row = r + 1 := ⟨t.row - 1, by omega⟩
    have h0 : t.col = 0 := by omega
    have hcols : 0 < cols := by
      rcases Nat.eq_zero_or_pos cols with hc | hc
      · simp [pos, h0, hc] at hp
      · exact hc
    simp only [pos, hr, h0, Nat.succ_mul, Nat.add_sub_cancel]
    omega
  · simp [pos, Nat.eq_zero_of_not_pos h₁, Nat.eq_zero_of_not_pos h₂] at hp

theorem backspace_cells (hp : 0 < t.pos cols) (blank : α) :
    (t.backspace cols blank).cells = Function.update t.cells (t.pos cols - 1) blank := by
  rw [← back_pos hp]
  rfl

theorem backspace_pos (hp : 0 < t.pos cols) (blank : α) :
    (t.backspace cols blank).pos cols = t.pos cols - 1 := back_pos hp

/-! ## What stands before the cursor -/

/-- The cells right before the cursor hold `l`. -/
structure Ends (cols : ℕ) (t : Term α) (l : List α) : Prop where
  fits : l.length ≤ t.pos cols
  cell : ∀ i (h : i < l.length), t.cells (t.pos cols - l.length + i) = l[i]

theorem Ends.nil (t : Term α) : t.Ends cols [] := ⟨Nat.zero_le _, fun i h => absurd h (Nat.not_lt_zero i)⟩

/-- **Printing appends.** -/
theorem Ends.put {l : List α} (h : t.Ends cols l) (hc : t.col < cols) (v : α) :
    (t.put cols v).Ends cols (l ++ [v]) := by
  have hfits := h.fits
  refine ⟨?_, ?_⟩
  · rw [put_pos hc, List.length_append, List.length_singleton]
    omega
  · intro i hi
    rw [put_pos hc, put_cells, List.length_append, List.length_singleton]
    rw [List.length_append, List.length_singleton] at hi
    by_cases hlast : i = l.length
    · subst hlast
      rw [show t.pos cols + 1 - (l.length + 1) + l.length = t.pos cols by omega, Function.update_self]
      simp
    · rw [Function.update_of_ne (by omega), List.getElem_append_left (by omega),
        show t.pos cols + 1 - (l.length + 1) + i = t.pos cols - l.length + i by omega]
      exact h.cell i (by omega)

/-- **Backspacing takes the last cell.** -/
theorem Ends.backspace {l : List α} (h : t.Ends cols l) (hl : l ≠ []) (blank : α) :
    (t.backspace cols blank).Ends cols l.dropLast := by
  have hpos : 0 < l.length := List.length_pos_iff.2 hl
  have hfits := h.fits
  refine ⟨?_, ?_⟩
  · rw [backspace_pos (by omega), List.length_dropLast]
    omega
  · intro i hi
    rw [List.length_dropLast] at hi
    rw [backspace_pos (by omega), backspace_cells (by omega), List.length_dropLast,
      Function.update_of_ne (by omega), List.getElem_dropLast,
      show t.pos cols - 1 - (l.length - 1) + i = t.pos cols - l.length + i by omega]
    exact h.cell i (by omega)

end Term

/-! ## Windows -/

/-- The screen shows the rows from `off` on, and there is nothing below it. -/
structure Window {rows cols : ℕ} (blank : α) (off : ℕ) (cells : ℕ → α) (screen : Fin (rows * cols) → α) :
    Prop where
  inside : ∀ i, screen i = cells (off * cols + i.val)
  below : ∀ i, (off + rows) * cols ≤ i → cells i = blank

/-- The screen moved up by `k` cells. -/
def scrolled {n : ℕ} (k : ℕ) (blank : α) (screen : Fin n → α) : Fin n → α := fun i =>
  if h : i.val + k < n then screen ⟨i.val + k, h⟩ else blank

variable {rows cols off : ℕ} {blank : α} {cells : ℕ → α} {screen : Fin (rows * cols) → α}

/-- A write to the screen is a write to the terminal. -/
theorem Window.put (h : Window blank off cells screen) (p : Fin (rows * cols)) (v : α) :
    Window blank off (Function.update cells (off * cols + p.val) v) (Function.update screen p v) := by
  refine ⟨?_, ?_⟩
  · intro i
    by_cases hip : i = p
    · rw [hip, Function.update_self, Function.update_self]
    · rw [Function.update_of_ne hip, Function.update_of_ne (by simpa [Fin.ext_iff] using hip), h.inside]
  · intro i hi
    have hp := p.isLt
    rw [Nat.add_mul] at hi
    rw [Function.update_of_ne (by omega)]
    exact h.below i (by rw [Nat.add_mul]; exact hi)

/-- **Scrolling** moves the window down by a row. -/
theorem Window.scroll (h : Window blank off cells screen) :
    Window blank (off + 1) cells (scrolled cols blank screen) := by
  refine ⟨?_, fun i hi => h.below i ?_⟩
  · intro i
    unfold scrolled
    split
    · rw [h.inside, Nat.succ_mul]
      congr 1
      simp only
      omega
    · refine (h.below _ ?_).symm
      rw [Nat.add_mul, Nat.succ_mul]
      omega
  · rw [Nat.add_mul] at hi ⊢
    rw [Nat.succ_mul] at hi
    omega

/-- Whatever is on a screen is a window on some terminal. -/
theorem exists_window (blank : α) (screen : Fin (rows * cols) → α) : ∃ cells, Window blank 0 cells screen := by
  refine ⟨fun i => if h : i < rows * cols then screen ⟨i, h⟩ else blank, ?_, ?_⟩
  · intro i
    simp
  · intro i hi
    rw [Nat.zero_add] at hi
    exact dif_neg (by omega)

end Terminal
