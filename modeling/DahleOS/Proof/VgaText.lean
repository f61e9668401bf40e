import DahleOS.Lib.Terminal
import DahleOS.Model.VgaText

/-!
# The screen is a window

The text buffer shows 25 rows of a terminal without end (`Shows`), on which the characters
do what the driver makes them do (`termPutchar`).

* `putchar_shows`, `backspace_shows`: one call of the driver.
* `vga_text_refines`: after a clear, any output is shown by its last 25 rows.
-/

namespace DahleOS

open CArray Terminal

variable {s s' : VgaText} {t : Term UInt16} {off : ℕ}

/-- The rules of `vga_text_putchar`, without scrolling. -/
def termPutchar (attr : UInt8) (t : Term UInt16) (c : UInt8) : Term UInt16 :=
  if c = 10 then t.newline
  else if c = 13 then t.carriageReturn
  else if c = 9 then t.tab 80 8
  else t.put 80 (vgaCell attr c)

/-- **The screen shows the terminal** from row `off` on. -/
structure Shows (s : VgaText) (t : Term UInt16) (off : ℕ) : Prop where
  row : t.row = off + s.row
  col : t.col = s.col
  row_lt : s.row < 25
  col_lt : s.col < 80
  window : Window s.blank off t.cells s.buf

theorem Shows.pos (h : Shows s t off) : t.pos 80 = off * 80 + (s.row * 80 + s.col) := by
  simp only [Term.pos, h.row, h.col, Nat.add_mul]
  omega

/-- The character of a cell is its low byte. -/
theorem vgaCell_toUInt8 (attr c : UInt8) : (vgaCell attr c).toUInt8 = c := by
  apply UInt8.toNat_inj.1
  have hc := c.toNat_lt
  have hhigh : attr.toNat <<< 8 % 2 ^ 16 % 2 ^ 8 = 0 := by
    rw [Nat.shiftLeft_eq]
    omega
  unfold vgaCell
  rw [UInt16.toNat_toUInt8, UInt16.toNat_or, UInt16.toNat_shiftLeft, UInt8.toNat_toUInt16, UInt8.toNat_toUInt16,
    Nat.or_mod_two_pow]
  show attr.toNat <<< 8 % 2 ^ 16 % 2 ^ 8 ||| c.toNat % 2 ^ 8 = c.toNat
  rw [hhigh, Nat.zero_or, Nat.mod_eq_of_lt hc]

theorem doScroll_eq (s : VgaText) :
    doScroll s = some { s with buf := scrolled 80 s.blank s.buf, row := s.row - 1 } := by
  unfold doScroll
  simp only [copyDown_eq (show 0 < 80 by decide) (24 * 80) 0 s.buf (by decide), Option.bind_eq_bind,
    Option.bind_some, fill_eq s.blank 80 (24 * 80) _ (le_refl (25 * 80)), Option.pure_def, Option.some.injEq,
    VgaText.mk.injEq, and_true]
  funext i
  have hi := i.isLt
  unfold scrolled
  by_cases hlast : 24 * 80 ≤ i.val
  · -- the last row
    rw [if_pos (by omega), dif_neg (by omega)]
  · rw [if_neg (by omega), dif_pos (by omega), dif_pos (by omega)]

/-- The scrolling at the end of `vga_text_putchar`. -/
theorem settle_shows (hrow : t.row = off + s.row) (hcol : t.col = s.col) (hle : s.row ≤ 25) (hlt : s.col < 80)
    (hw : Window s.blank off t.cells s.buf) :
    ∃ s', (if 25 ≤ s.row then doScroll s else some s) = some s' ∧ s'.attr = s.attr ∧
      Shows s' t (max off (t.row - 24)) := by
  by_cases hs : 25 ≤ s.row
  · have hoff : max off (t.row - 24) = off + 1 := by omega
    refine ⟨{ s with buf := scrolled 80 s.blank s.buf, row := s.row - 1 }, by rw [if_pos hs, doScroll_eq], rfl, ?_⟩
    rw [hoff]
    exact
      { row := by simp only; omega
        col := hcol
        row_lt := by simp only; omega
        col_lt := hlt
        window := hw.scroll }
  · have hoff : max off (t.row - 24) = off := by omega
    refine ⟨s, if_neg hs, rfl, ?_⟩
    rw [hoff]
    exact { row := hrow, col := hcol, row_lt := by omega, col_lt := hlt, window := hw }

/-- The wrap, on both sides. -/
theorem wrap_shows (hrow : t.row = off + s.row) (hcol : t.col = s.col) (hlt : s.row < 25)
    (hw : Window s.blank off t.cells s.buf) :
    (t.wrap 80).row = off + s.wrap.row ∧ (t.wrap 80).col = s.wrap.col ∧ s.wrap.row ≤ 25 ∧ s.wrap.col < 80 ∧
      s.wrap.attr = s.attr ∧ Window s.wrap.blank off (t.wrap 80).cells s.wrap.buf := by
  unfold Term.wrap VgaText.wrap
  by_cases h : 80 ≤ s.col
  · rw [if_pos (by omega), if_pos h]
    refine ⟨?_, rfl, hlt, Nat.succ_pos 79, rfl, hw⟩
    simp only [Term.newline, hrow]
    omega
  · rw [if_neg (by omega), if_neg h]
    exact ⟨hrow, hcol, by omega, by omega, rfl, hw⟩

/-- **One character** is shown where the terminal has it. -/
theorem putchar_shows (h : Shows s t off) (c : UInt8) : ∃ s', vgaTextPutchar s c = some s' ∧ s'.attr = s.attr ∧
    Shows s' (termPutchar s.attr t c) (max off ((termPutchar s.attr t c).row - 24)) := by
  have hrow := h.row
  have hlt := h.row_lt
  unfold vgaTextPutchar termPutchar
  by_cases hn : c = 10
  · simp only [hn, if_true]
    refine settle_shows (s := { s with row := s.row + 1, col := 0 }) ?_ rfl (by simp only; omega) (Nat.succ_pos 79)
      h.window
    simp only [Term.newline, hrow]
    omega
  by_cases hr : c = 13
  · simp only [hr, if_neg (show ¬ (13 : UInt8) = 10 by decide), if_true]
    exact settle_shows (s := { s with col := 0 }) hrow rfl (by simp only; omega) (Nat.succ_pos 79) h.window
  by_cases ht : c = 9
  · simp only [ht, if_neg (show ¬ (9 : UInt8) = 10 by decide), if_neg (show ¬ (9 : UInt8) = 13 by decide), if_true]
    have hcol : t.col + 8 - (t.col + 8) % 8 = s.col + 8 - (s.col + 8) % 8 := by rw [h.col]
    obtain ⟨h₁, h₂, h₃, h₄, h₅, h₆⟩ := wrap_shows
      (s := { s with col := s.col + 8 - (s.col + 8) % 8 })
      (t := { t with col := t.col + 8 - (t.col + 8) % 8 }) hrow hcol hlt h.window
    obtain ⟨s', hs', hattr, hshows⟩ := settle_shows h₁ h₂ h₃ h₄ h₆
    exact ⟨s', hs', hattr.trans h₅, hshows⟩
  · simp only [hn, hr, ht, if_false]
    have hp : s.row * 80 + s.col < 25 * 80 := by
      have := h.col_lt
      omega
    have hpos := h.pos
    have hw := h.window.put ⟨s.row * 80 + s.col, hp⟩ (vgaCell s.attr c)
    rw [← hpos] at hw
    have hcol : t.col + 1 = s.col + 1 := by rw [h.col]
    obtain ⟨h₁, h₂, h₃, h₄, h₅, h₆⟩ := wrap_shows
      (s := { s with
        buf := Function.update s.buf ⟨s.row * 80 + s.col, hp⟩ (vgaCell s.attr c), col := s.col + 1 })
      (t := { t with cells := Function.update t.cells (t.pos 80) (vgaCell s.attr c), col := t.col + 1 })
      hrow hcol hlt hw
    obtain ⟨s', hs', hattr, hshows⟩ := settle_shows h₁ h₂ h₃ h₄ h₆
    refine ⟨s', ?_, hattr.trans h₅, hshows⟩
    rw [wr_nat s.buf hp]
    exact hs'

/-- **One backspace**, where the screen has a cell before the cursor. -/
theorem backspace_shows (h : Shows s t off) (hp : off * 80 < t.pos 80) : ∃ s', vgaTextBackspace s = some s' ∧
    s'.attr = s.attr ∧ Shows s' (t.backspace 80 s.blank) off := by
  have hpos := h.pos
  have hrow := h.row
  have hcol := h.col
  have hlt := h.row_lt
  have hclt := h.col_lt
  unfold vgaTextBackspace
  by_cases hc : 0 < s.col
  · have hback : t.back 80 = { t with col := t.col - 1 } := if_pos (by omega)
    have hcell : s.row * 80 + (s.col - 1) < 25 * 80 := by omega
    have hw := h.window.put ⟨s.row * 80 + (s.col - 1), hcell⟩ s.blank
    have hidx : off * 80 + (s.row * 80 + (s.col - 1)) = (t.back 80).pos 80 := by
      rw [hback]
      simp only [Term.pos] at hpos ⊢
      omega
    rw [hidx] at hw
    simp only [if_pos hc, wr_nat s.buf hcell, Option.bind_eq_bind, Option.bind_some]
    refine ⟨_, rfl, rfl, { row := ?_, col := ?_, row_lt := hlt, col_lt := ?_, window := hw }⟩
    · simp only [Term.backspace, hback]
      exact hrow
    · simp only [Term.backspace, hback]
      omega
    · simp only
      omega
  · -- the last cell of the row above
    have hr : 0 < s.row := by omega
    have hback : t.back 80 = { t with row := t.row - 1, col := 80 - 1 } := by
      unfold Term.back
      rw [if_neg (by omega), if_pos (by omega)]
    have hcell : (s.row - 1) * 80 + (80 - 1) < 25 * 80 := by omega
    have hw := h.window.put ⟨(s.row - 1) * 80 + (80 - 1), hcell⟩ s.blank
    have hidx : off * 80 + ((s.row - 1) * 80 + (80 - 1)) = (t.back 80).pos 80 := by
      rw [hback]
      simp only [Term.pos] at hpos ⊢
      omega
    rw [hidx] at hw
    simp only [if_neg hc, if_pos hr, wr_nat s.buf hcell, Option.bind_eq_bind, Option.bind_some]
    refine ⟨_, rfl, rfl, { row := ?_, col := ?_, row_lt := ?_, col_lt := ?_, window := hw }⟩
    · simp only [Term.backspace, hback]
      omega
    · simp only [Term.backspace, hback]
    · simp only
      omega
    · simp only
      decide

theorem termPutchar_row (attr : UInt8) (t : Term UInt16) (c : UInt8) : t.row ≤ (termPutchar attr t c).row := by
  unfold termPutchar
  split_ifs
  · exact Nat.le_succ _
  · exact le_refl _
  · exact t.row_le_tab _
  · exact t.row_le_put _

/-- **Any output** is shown by the last 25 rows, or the first if there are no more. -/
theorem print_shows (h : Shows s t (t.row - 24)) (cs : List UInt8) : ∃ s', vgaTextPrint s cs = some s' ∧
    Shows s' (cs.foldl (termPutchar s.attr) t) ((cs.foldl (termPutchar s.attr) t).row - 24) := by
  induction cs generalizing s t with
  | nil => exact ⟨s, rfl, h⟩
  | cons c cs ih =>
    obtain ⟨s₁, hs₁, hattr, h₁⟩ := putchar_shows h c
    have hmono := termPutchar_row s.attr t c
    rw [show max (t.row - 24) ((termPutchar s.attr t c).row - 24) = (termPutchar s.attr t c).row - 24 by omega] at h₁
    obtain ⟨s', hs', h'⟩ := ih h₁
    rw [hattr] at h'
    refine ⟨s', ?_, h'⟩
    simp only [vgaTextPrint, List.foldlM_cons, hs₁, Option.bind_eq_bind, Option.bind_some]
    exact hs'

theorem clear_shows (s : VgaText) : ∃ s', vgaTextClear s = some s' ∧ s'.attr = s.attr ∧
    Shows s' ⟨fun _ => s.blank, 0, 0⟩ 0 := by
  refine ⟨⟨fun _ => s.blank, 0, 0, s.attr⟩, ?_, rfl, ?_⟩
  · unfold vgaTextClear
    rw [fill_eq s.blank (25 * 80) 0 s.buf (by omega)]
    simp
  · exact
      { row := rfl
        col := rfl
        row_lt := by simp
        col_lt := by simp
        window := { inside := fun _ => rfl, below := fun _ _ => rfl } }

/-- **The driver refines a terminal without end.** After a clear, with a fixed attribute,
every sequence of characters is printed without an access outside the buffer. Let `G` be the
terminal that the same characters leave: the screen shows it from row `R - 24` on, or from
the top, and the cursor is where it is there. -/
theorem vga_text_refines (s : VgaText) (cs : List UInt8) :
    let G := cs.foldl (termPutchar s.attr) ⟨fun _ => s.blank, 0, 0⟩
    ∃ s', (vgaTextClear s).bind (vgaTextPrint · cs) = some s' ∧
      s'.row = G.row - (G.row - 24) ∧ s'.col = G.col ∧
      ∀ r c, r < 25 → c < 80 →
        rd s'.buf (r * 80 + c : ℕ) = some (G.cellAt 80 (r + (G.row - 24)) c) := by
  intro G
  obtain ⟨s₁, hs₁, hattr, h₁⟩ := clear_shows s
  obtain ⟨s', hs', h'⟩ := print_shows h₁ cs
  rw [hattr] at h'
  refine ⟨s', by rw [hs₁, Option.bind_some, hs'], ?_, h'.col.symm, ?_⟩
  · have hrow : G.row = G.row - 24 + s'.row := h'.row
    omega
  · intro r c hr hc
    have hp : r * 80 + c < 25 * 80 := by omega
    have hcell := h'.window.inside ⟨r * 80 + c, hp⟩
    have hidx : (r + (G.row - 24)) * 80 + c = (G.row - 24) * 80 + (r * 80 + c) := by
      rw [Nat.add_mul]
      omega
    rw [rd_nat s'.buf hp, hcell, Term.cellAt, hidx]

end DahleOS
