import DahleOS.Lib.MachineWord
import DahleOS.Model.LineEditor
import DahleOS.Proof.VgaText

/-!
# What you see is what you run

The screen shows a terminal without end, on which the line stands right before the cursor.

* `OnScreen`: that it does; printing appends to it and backspacing takes its last character.
* `Shown`: the line is in the buffer and on the screen, and every text in the history can be
  printed.
* `Shown.key`, `Shown.entered`: keys keep it so.
* `Shown.enter`: Enter runs the line, as long as `hist_n` is not negative.
* `line_shown`: so it is at every key of every session, and Enter runs what is shown.
-/

namespace DahleOS

open CArray MachineWord Terminal

/-! ## Texts on the screen -/

/-- The text stands on the screen, right before the cursor. -/
def OnScreen (s : VgaText) (text : Str) : Prop :=
  ∃ t off, Shows s t off ∧ t.Ends 80 (text.map fun ch => vgaCell s.attr ch.val) ∧
    off * 80 + text.length ≤ t.pos 80

/-- Characters that are shown as they are. -/
def Printable (text : Str) : Prop := ∀ ch ∈ text, 32 ≤ ch.val ∧ ch.val < 127

variable {s : VgaText} {text : Str}

theorem OnScreen.nil (hr : s.row < 25) (hc : s.col < 80) : OnScreen s [] := by
  obtain ⟨cells, hw⟩ := exists_window s.blank s.buf
  have hshows : Shows s ⟨cells, s.row, s.col⟩ 0 :=
    { row := (Nat.zero_add _).symm, col := rfl, row_lt := hr, col_lt := hc, window := hw }
  exact ⟨_, 0, hshows, .nil _, by simp⟩

/-- A printable character is printed. -/
theorem termPutchar_printable {attr c : UInt8} (h : 32 ≤ c) (t : Term UInt16) :
    termPutchar attr t c = t.put 80 (vgaCell attr c) := by
  have hne (d : UInt8) (hd : d < 32) : c ≠ d := by
    rintro rfl
    exact absurd h (UInt8.not_le.2 hd)
  unfold termPutchar
  rw [if_neg (hne 10 (by decide)), if_neg (hne 13 (by decide)), if_neg (hne 9 (by decide))]

theorem OnScreen.putchar (h : OnScreen s text) (hl : text.length < 255) {ch : Ch} (hch : 32 ≤ ch.val) :
    ∃ s', vgaTextPutchar s ch.val = some s' ∧ OnScreen s' (text ++ [ch]) := by
  obtain ⟨t, off, hshows, hends, hin⟩ := h
  obtain ⟨s', hs', hattr, hshows'⟩ := putchar_shows hshows ch.val
  rw [termPutchar_printable hch] at hshows'
  have hclt : t.col < 80 := hshows.col ▸ hshows.col_lt
  have hpos := Term.put_pos hclt (vgaCell s.attr ch.val)
  refine ⟨s', hs', _, _, hshows', ?_, ?_⟩
  · rw [hattr, List.map_append]
    exact hends.put hclt _
  · -- the window moved down by a row at most, and holds far more than a line
    have hrow : (t.put 80 (vgaCell s.attr ch.val)).row * 80 ≤ (t.put 80 (vgaCell s.attr ch.val)).pos 80 :=
      Nat.le_add_right _ _
    rw [List.length_append, List.length_singleton]
    omega

theorem OnScreen.backspace (h : OnScreen s text) (hne : text ≠ []) :
    ∃ s', vgaTextBackspace s = some s' ∧ OnScreen s' text.dropLast := by
  obtain ⟨t, off, hshows, hends, hin⟩ := h
  have hpos : 0 < text.length := List.length_pos_iff.2 hne
  obtain ⟨s', hs', hattr, hshows'⟩ := backspace_shows hshows (by omega)
  refine ⟨s', hs', _, off, hshows', ?_, ?_⟩
  · rw [hattr, List.map_dropLast]
    exact hends.backspace (by rwa [Ne, List.map_eq_nil_iff]) s.blank
  · rw [Term.backspace_pos (by omega), List.length_dropLast]
    omega

theorem OnScreen.erase : ∀ {text : Str} {s : VgaText}, OnScreen s text →
    ∃ s', eraseChars text.length s = some s' ∧ OnScreen s' [] := by
  intro text
  induction hn : text.length generalizing text with
  | zero =>
    intro s h
    obtain rfl : text = [] := List.eq_nil_of_length_eq_zero hn
    exact ⟨s, rfl, h⟩
  | succ n ih =>
    intro s h
    have hne : text ≠ [] := by
      rintro rfl
      simp at hn
    obtain ⟨s₁, hs₁, h₁⟩ := h.backspace hne
    obtain ⟨s', hs', h'⟩ := ih (by rw [List.length_dropLast, hn]; rfl) h₁
    exact ⟨s', by simp [eraseChars, hs₁, hs'], h'⟩

theorem OnScreen.kprint {more : Str} (h : OnScreen s text) (hl : text.length + more.length ≤ 255)
    (hp : Printable more) : ∃ s', DahleOS.kprint s more = some s' ∧ OnScreen s' (text ++ more) := by
  induction more generalizing s text with
  | nil => exact ⟨s, rfl, by rwa [List.append_nil]⟩
  | cons ch more ih =>
    obtain ⟨hch, hp⟩ := List.forall_mem_cons.1 hp
    rw [List.length_cons] at hl
    obtain ⟨s₁, hs₁, h₁⟩ := h.putchar (by omega) hch.1
    obtain ⟨s', hs', h'⟩ := ih h₁ (by rw [List.length_append, List.length_singleton]; omega) hp
    refine ⟨s', ?_, by rwa [List.append_assoc] at h'⟩
    unfold DahleOS.kprint vgaTextPrint at hs' ⊢
    rw [List.map_cons, List.foldlM_cons, hs₁]
    exact hs'

/-! ## Texts in buffers -/

/-- The buffer holds the text, and zeros behind it. -/
structure HoldsText (buf : Fin 256 → UInt8) (text : Str) : Prop where
  length : text.length ≤ 255
  byte : ∀ i : Fin 256, buf i = (text[i.val]?.map Subtype.val).getD 0

variable {buf : Fin 256 → UInt8}

theorem HoldsText.nil : HoldsText (fun _ => 0) [] := ⟨by simp, fun _ => rfl⟩

theorem HoldsText.last (h : HoldsText buf text) : buf ⟨255, by decide⟩ = 0 := by
  rw [h.byte, List.getElem?_eq_none (by simpa using h.length)]
  rfl

theorem HoldsText.cstr (h : HoldsText buf text) : DahleOS.cstr buf = some text := by
  have hl := h.length
  refine cstr_eq_some (by omega) ?_ ?_
  · intro i hi
    simp [h.byte, hi]
  · simp [h.byte]

/-- `strncpy` with 255 fills the buffer. -/
theorem HoldsText.strncpy (h : buf ⟨255, by decide⟩ = 0) (hl : text.length ≤ 255) :
    HoldsText (DahleOS.strncpy buf text 255) text := by
  refine ⟨hl, ?_⟩
  intro i
  by_cases hi : i.val < 255
  · exact if_pos hi
  · have hlast : i = ⟨255, by decide⟩ := Fin.ext (by have := i.isLt; simp only; omega)
    rw [strncpy_of_ge _ _ (by omega), hlast, h, List.getElem?_eq_none (by simpa using hl)]
    rfl

theorem HoldsText.append (h : HoldsText buf text) (hl : text.length < 255) (ch : Ch) :
    HoldsText (Function.update buf ⟨text.length, by omega⟩ ch.val) (text ++ [ch]) := by
  refine ⟨by rw [List.length_append, List.length_singleton]; omega, ?_⟩
  intro i
  rcases Nat.lt_trichotomy i.val text.length with hlt | heq | hgt
  · rw [Function.update_of_ne (by simp [Fin.ext_iff]; omega), h.byte, List.getElem?_append_left hlt]
  · have hi : i = ⟨text.length, by omega⟩ := Fin.ext heq
    rw [hi, Function.update_self]
    simp
  · rw [Function.update_of_ne (by simp [Fin.ext_iff]; omega), h.byte, List.getElem?_eq_none hgt.le,
      List.getElem?_eq_none (by rw [List.length_append, List.length_singleton]; exact hgt)]

theorem HoldsText.dropLast (h : HoldsText buf text) (hne : text ≠ []) :
    HoldsText (Function.update buf ⟨text.length - 1, by have := h.length; omega⟩ 0) text.dropLast := by
  have hl := h.length
  have hpos : 0 < text.length := List.length_pos_iff.2 hne
  refine ⟨by rw [List.length_dropLast]; omega, ?_⟩
  intro i
  rcases Nat.lt_trichotomy i.val (text.length - 1) with hlt | heq | hgt
  · rw [Function.update_of_ne (by simp [Fin.ext_iff]; omega), h.byte, List.getElem?_dropLast, if_pos hlt]
  · have hi : i = ⟨text.length - 1, by omega⟩ := Fin.ext heq
    rw [hi, Function.update_self, List.getElem?_eq_none (by rw [List.length_dropLast])]
    rfl
  · rw [Function.update_of_ne (by simp [Fin.ext_iff]; omega), h.byte, List.getElem?_eq_none (by omega),
      List.getElem?_eq_none (by rw [List.length_dropLast]; omega)]

/-- The buffer holds some text that can be printed. -/
def HoldsPrintable (buf : Fin 256 → UInt8) : Prop := ∃ text, HoldsText buf text ∧ Printable text

theorem HoldsPrintable.zero : HoldsPrintable fun _ => 0 := ⟨[], .nil, by simp [Printable]⟩

/-! ## The line -/

/-- **The line is on the screen**, and so could every text of the history be. -/
structure Shown (st : Console) (text : Str) : Prop where
  len : st.len = text.length
  line : HoldsText st.line text
  printable : Printable text
  screen : OnScreen st.screen text
  hist : ∀ k, HoldsPrintable (st.hist k)
  live : HoldsPrintable st.live

variable {st st' : Console}

theorem Shown.append (h : Shown st text) {ch : Ch} (hch : 32 ≤ ch.val ∧ ch.val < 127) :
    ∃ st' text', appendChar st ch.val = some st' ∧ Shown st' text' := by
  have hlen := h.len
  unfold appendChar
  by_cases hl : st.len < 255
  · have hlt : text.length < 255 := by omega
    obtain ⟨screen, hs, hon⟩ := h.screen.putchar hlt hch.1
    have hw := wr_nat st.line (show text.length < 256 by omega) ch.val
    rw [← hlen] at hw
    refine ⟨_, text ++ [ch], by rw [if_pos hl, hw, Option.bind_eq_bind, Option.bind_some, hs]; rfl, ?_⟩
    exact
      { len := by simp [hlen]
        line := h.line.append hlt ch
        printable := by
          intro c hc
          rcases List.mem_append.1 hc with hc | hc
          · exact h.printable c hc
          · rw [List.mem_singleton.1 hc]; exact hch
        screen := hon
        hist := h.hist
        live := h.live }
  · exact ⟨st, text, if_neg hl, h⟩

theorem Shown.complete {rest : Str} (h : Shown st text) (hp : Printable rest) :
    ∃ st' text', completeLoop rest st = some st' ∧ Shown st' text' := by
  induction rest generalizing st text with
  | nil => exact ⟨st, text, rfl, h⟩
  | cons ch rest ih =>
    obtain ⟨hch, hp⟩ := List.forall_mem_cons.1 hp
    unfold completeLoop
    by_cases hl : st.len < 255
    · obtain ⟨st₁, text₁, hs₁, h₁⟩ := h.append hch
      obtain ⟨st', text', hs', h'⟩ := ih h₁ hp
      exact ⟨st', text', by rw [if_pos hl, hs₁]; exact hs', h'⟩
    · exact ⟨st, text, if_neg hl, h⟩

/-- **A redraw** takes the line off the screen and puts the other text there. -/
theorem Shown.redraw_text (h : Shown st text) {buf : Fin 256 → UInt8} {entry : Str} (hbuf : HoldsText buf entry)
    (hp : Printable entry) : ∃ line screen,
      redrawLine st buf = some { st with line, len := entry.length, screen } ∧
      Shown { st with line, len := entry.length, screen } entry := by
  have hlen := h.len
  have hline := HoldsText.strncpy h.line.last hbuf.length
  obtain ⟨s₁, hs₁, h₁⟩ := h.screen.erase
  obtain ⟨s', hs', h'⟩ := h₁.kprint (by simpa using hbuf.length) hp
  have htoNat : st.len.toNat = text.length := by omega
  -- the last byte was zero
  have hw : wr (strncpy st.line entry 255) 255 0 = some (strncpy st.line entry 255) := by
    have h255 := wr_nat (strncpy st.line entry 255) (show 255 < 256 by decide) 0
    rw [← hline.last, Function.update_eq_self] at h255
    rw [← hline.last]
    exact h255
  refine ⟨strncpy st.line entry 255, s', ?_, ?_⟩
  · unfold redrawLine
    simp [htoNat, hs₁, hbuf.cstr, hw, hline.cstr, hs']
  · exact
      { len := rfl
        line := hline
        printable := hp
        screen := h'
        hist := h.hist
        live := h.live }

theorem Shown.redraw (h : Shown st text) {buf : Fin 256 → UInt8} (hb : HoldsPrintable buf) :
    ∃ st' text', redrawLine st buf = some st' ∧ Shown st' text' := by
  obtain ⟨entry, hbuf, hp⟩ := hb
  obtain ⟨line, screen, hredraw, h'⟩ := h.redraw_text hbuf hp
  exact ⟨_, entry, hredraw, h'⟩

/-- What is in the history can be printed. -/
theorem Shown.histGet (h : Shown st text) (offset : ℤ) : DahleOS.histGet st.toEditor offset = some none ∨
    ∃ buf, DahleOS.histGet st.toEditor offset = some (some buf) ∧ HoldsPrintable buf := by
  unfold DahleOS.histGet
  by_cases hidx : st.histN.toInt - offset < 0 ∨ st.histN.toInt < offset
  · exact Or.inl (if_pos hidx)
  · obtain ⟨k, hk⟩ : ∃ k : Fin 20, (st.histN.toInt - offset) % 20 = (k : ℕ) :=
      ⟨⟨((st.histN.toInt - offset) % 20).toNat, by omega⟩, by simp only; omega⟩
    exact Or.inr ⟨st.hist k, by simp only [if_neg hidx, hk, rd_val]; rfl, h.hist k⟩

/-- Moving in the history leaves the line alone. -/
theorem Shown.move (h : Shown st text) (histI : ℤ) {live : Fin 256 → UInt8} (hl : HoldsPrintable live) :
    Shown { st with histI, live } text :=
  { len := h.len, line := h.line, printable := h.printable, screen := h.screen, hist := h.hist, live := hl }

theorem cmdTable_printable : ∀ e ∈ cmdTable, Printable e.1 := by
  unfold Printable
  decide +kernel

/-- Backspace takes the last character off the line and off the screen. -/
theorem Shown.eraseLast (h : Shown st text) (hpos : 0 < st.len) : ∃ line screen,
    wr st.line (st.len - 1) 0 = some line ∧ vgaTextBackspace st.screen = some screen ∧
      Shown { st with line, len := st.len - 1, screen } text.dropLast := by
  have hlen := h.len
  have hne : text ≠ [] := by
    rintro rfl
    simp [hlen] at hpos
  have hpos' : 0 < text.length := List.length_pos_iff.2 hne
  obtain ⟨screen, hs, hon⟩ := h.screen.backspace hne
  have hl := h.line.length
  have hw := wr_nat st.line (show text.length - 1 < 256 by omega) 0
  rw [show ((text.length - 1 : ℕ) : ℤ) = st.len - 1 by omega] at hw
  refine ⟨_, screen, hw, hs, ?_⟩
  exact
    { len := by simp only [List.length_dropLast, hlen]; omega
      line := h.line.dropLast hne
      printable := fun ch hch => h.printable ch (List.dropLast_subset _ hch)
      screen := hon
      hist := h.hist
      live := h.live }

/-- Tab completes the line to a name that it is the start of. -/
theorem Shown.completeName {name : Str} (h : Shown st text) (hp : Printable name) (hpre : text <+: name) :
    ∃ st' text', (if (name.length : ℤ) < st.len then none else completeLoop (name.drop st.len.toNat) st) = some st' ∧
      Shown st' text' := by
  have hlen := h.len
  have hle := hpre.length_le
  have htoNat : st.len.toNat = text.length := by omega
  rw [if_neg (by omega), htoNat]
  exact h.complete fun ch hch => hp ch (List.drop_subset _ _ hch)

/-- The line is kept in `live`, to come back to. -/
theorem Shown.keepLive (h : Shown st text) : HoldsPrintable (strncpy st.live text 255) := by
  obtain ⟨old, hold, -⟩ := h.live
  exact ⟨text, HoldsText.strncpy hold.last h.line.length, h.printable⟩

theorem Shown.keyBackspace (h : Shown st text) : ∃ st' text', shellKey st 8 = some st' ∧ Shown st' text' := by
  unfold shellKey
  rw [if_pos rfl]
  by_cases hpos : 0 < st.len
  · obtain ⟨line, screen, hw, hs, h'⟩ := h.eraseLast hpos
    exact ⟨_, _, by rw [if_pos hpos, hw, Option.bind_eq_bind, Option.bind_some, hs]; rfl, h'⟩
  · exact ⟨st, text, if_neg hpos, h⟩

theorem Shown.keyTab (h : Shown st text) : ∃ st' text', shellKey st 9 = some st' ∧ Shown st' text' := by
  unfold shellKey
  rw [if_neg (by decide), if_pos rfl]
  simp only [h.line.cstr, Option.bind_eq_bind, Option.bind_some]
  have htoNat : st.len.toNat = text.length := by rw [h.len, Int.toNat_natCast]
  cases hfind : cmdTable.find? fun e => decide (strncmp st.len.toNat e.1 text = 0) with
  | none => exact ⟨st, text, rfl, h⟩
  | some e =>
    -- the line is the start of the name
    obtain ⟨name, b⟩ := e
    have hpre : text <+: name := strncmp_length_eq_zero.1 (by simpa [htoNat] using List.find?_some hfind)
    exact h.completeName (cmdTable_printable _ (List.mem_of_find?_eq_some hfind)) hpre

/-- Ctrl-P at an offset that the history has. -/
theorem Shown.upTo (h : Shown st text) {buf : Fin 256 → UInt8} {entry : Str}
    (hget : DahleOS.histGet st.toEditor (st.histI + 1) = some (some buf)) (hbuf : HoldsText buf entry)
    (hp : Printable entry) : ∃ st', shellKey st 0x10 = some st' ∧ Shown st' entry ∧ st'.histI = st.histI + 1 := by
  unfold shellKey
  rw [if_neg (by decide), if_neg (by decide), if_pos rfl]
  by_cases hlive : st.histI = -1
  · obtain ⟨line, screen, hredraw, h'⟩ := (h.move (st.histI + 1) h.keepLive).redraw_text hbuf hp
    refine ⟨_, ?_, h', rfl⟩
    simp only [hget, Option.bind_eq_bind, Option.bind_some, if_pos hlive, h.line.cstr]
    exact hredraw
  · obtain ⟨line, screen, hredraw, h'⟩ := (h.move (st.histI + 1) h.live).redraw_text hbuf hp
    refine ⟨_, ?_, h', rfl⟩
    simp only [hget, Option.bind_eq_bind, Option.bind_some, if_neg hlive]
    exact hredraw

theorem Shown.keyUp (h : Shown st text) : ∃ st' text', shellKey st 0x10 = some st' ∧ Shown st' text' := by
  rcases h.histGet (st.histI + 1) with hg | ⟨buf, hg, entry, hbuf, hp⟩
  · refine ⟨st, text, ?_, h⟩
    unfold shellKey
    rw [if_neg (by decide), if_neg (by decide), if_pos rfl]
    dsimp only
    rw [hg]
    rfl
  · obtain ⟨st', hkey, h', -⟩ := h.upTo hg hbuf hp
    exact ⟨st', entry, hkey, h'⟩

theorem Shown.keyDown (h : Shown st text) : ∃ st' text', shellKey st 0x0E = some st' ∧ Shown st' text' := by
  unfold shellKey
  rw [if_neg (by decide), if_neg (by decide), if_neg (by decide), if_pos rfl]
  by_cases hnewer : 1 < st.histI
  · simp only [if_pos hnewer]
    have hmove := h.move (st.histI - 1) h.live
    rcases hmove.histGet (st.histI - 1) with hg | ⟨buf, hg, hbuf⟩
    · exact ⟨_, text, by rw [hg]; rfl, hmove⟩
    · obtain ⟨st', text', hs', h'⟩ := hmove.redraw hbuf
      exact ⟨st', text', by rw [hg]; exact hs', h'⟩
  · rw [if_neg hnewer]
    by_cases hlast : st.histI = 1
    · rw [if_pos hlast]
      exact (h.move (-1) h.live).redraw h.live
    · exact ⟨st, text, if_neg hlast, h⟩

/-- **One key.** -/
theorem Shown.key (h : Shown st text) (c : UInt8) :
    ∃ st' text', shellKey st c = some st' ∧ Shown st' text' := by
  by_cases hbs : c = 8
  · exact hbs ▸ h.keyBackspace
  by_cases htab : c = 9
  · exact htab ▸ h.keyTab
  by_cases hup : c = 0x10
  · exact hup ▸ h.keyUp
  by_cases hdown : c = 0x0E
  · exact hdown ▸ h.keyDown
  unfold shellKey
  rw [if_neg hbs, if_neg htab, if_neg hup, if_neg hdown]
  by_cases hch : 32 ≤ c ∧ c < 127
  · rw [if_pos hch]
    have hne : c ≠ 0 := by
      rintro rfl
      exact absurd hch.1 (by decide)
    have hc : 32 ≤ (⟨c, hne⟩ : Ch).val ∧ (⟨c, hne⟩ : Ch).val < 127 := hch
    exact h.append hc
  · exact ⟨st, text, if_neg hch, h⟩

/-- A printable character is put behind the line. -/
theorem Shown.type (h : Shown st text) (hl : text.length < 255) {ch : Ch} (hch : 32 ≤ ch.val ∧ ch.val < 127) :
    ∃ st', shellKey st ch.val = some st' ∧ Shown st' (text ++ [ch]) ∧ st'.histI = st.histI := by
  have hne (d : UInt8) (hd : d < 32) : ch.val ≠ d := fun heq => absurd hch.1 (UInt8.not_le.2 (heq ▸ hd))
  have hkey : shellKey st ch.val = appendChar st ch.val := by
    unfold shellKey
    rw [if_neg (hne 8 (by decide)), if_neg (hne 9 (by decide)), if_neg (hne 0x10 (by decide)), if_neg (hne 0x0E (by decide)),
      if_pos hch]
  obtain ⟨st', text', happend, h'⟩ := h.append hch
  have hlt : st.len < 255 := by rw [h.len]; omega
  have hw := wr_nat st.line (show text.length < 256 by omega) ch.val
  rw [← h.len] at hw
  refine ⟨st', hkey.trans happend, ?_⟩
  unfold appendChar at happend
  rw [if_pos hlt, hw, Option.bind_eq_bind, Option.bind_some] at happend
  obtain ⟨screen, -, happend⟩ := Option.bind_eq_some_iff.1 happend
  cases happend
  -- the line says which text it is
  have htext : some text' = some (text ++ [ch]) := h'.line.cstr.symm.trans (h.line.append hl ch).cstr
  exact ⟨Option.some.inj htext ▸ h', rfl⟩

/-! ## The history -/

variable {e e' : Editor} {n : ℕ}

/-- The slot of a count that has not wrapped. -/
theorem slot_toInt {i : Int32} (h : i.toInt = n) : (i % 20).toInt = (Fin.ofNat 20 n : ℕ) := toInt_mod_nat h rfl

/-- The last line that was recorded is looked at. -/
theorem histRepeats_last (hn : e.histN.toInt = (n + 1 : ℕ)) (s : Str) :
    histRepeats e s = (cstr (e.hist (Fin.ofNat 20 n))).map fun last => decide (strcmp last s = 0) := by
  have hzero : e.histN ≠ 0 := by
    intro h
    rw [h, Int32.toInt_zero] at hn
    omega
  have hlast : (e.histN - 1).toInt = n := by
    rw [toInt_sub_of_le] <;> rw [hn, Int32.toInt_one] <;> have := e.histN.toInt_lt <;> omega
  unfold histRepeats
  rw [if_neg hzero, slot_toInt hlast, rd_val, Option.bind_eq_bind, Option.bind_some]
  exact (Option.map_eq_bind ..).symm

/-- A line that does not repeat is copied to the next slot. -/
theorem histPush_new (hn : e.histN.toInt = n) {s : Str} (hne : s ≠ []) (hnew : histRepeats e s = some false) :
    histPush e s = some { e with
      hist := Function.update e.hist (Fin.ofNat 20 n) (strncpy (e.hist (Fin.ofNat 20 n)) s 255)
      histN := e.histN + 1 } := by
  unfold histPush
  rw [if_neg hne, hnew, slot_toInt hn]
  simp only [Option.bind_eq_bind, Option.bind_some, rd_val, wr_val]
  rfl

theorem Shown.repeats (h : Shown st text) (hn : st.histN.toInt = n) : ∃ b, histRepeats st.toEditor text = some b := by
  cases n with
  | zero =>
    have hzero : st.histN = 0 := Int32.toInt_inj.1 hn
    exact ⟨false, if_pos hzero⟩
  | succ n =>
    obtain ⟨last, hlast, -⟩ := h.hist (Fin.ofNat 20 n)
    exact ⟨_, by rw [histRepeats_last hn, hlast.cstr, Option.map_some]⟩

/-- **The line goes into the history**, as long as the count has not wrapped. -/
theorem Shown.push (h : Shown st text) (hn : 0 ≤ st.histN) : ∃ e', histPush st.toEditor text = some e' := by
  obtain ⟨n, hn⟩ := Int.eq_ofNat_of_zero_le (Int32.le_iff_toInt_le.1 hn)
  by_cases hempty : text = []
  · exact ⟨st.toEditor, if_pos hempty⟩
  obtain ⟨b, hb⟩ := h.repeats hn
  cases b with
  | true => exact ⟨st.toEditor, by unfold histPush; rw [if_neg hempty, hb]; rfl⟩
  | false => exact ⟨_, histPush_new hn hempty hb⟩

/-- What a push leaves can be printed, whatever the count is. -/
theorem Shown.pushed (h : Shown st text) (hpush : histPush st.toEditor text = some e') :
    (∀ k, HoldsPrintable (e'.hist k)) ∧ e'.live = st.live := by
  unfold histPush at hpush
  split at hpush
  · cases hpush
    exact ⟨h.hist, rfl⟩
  obtain ⟨b, -, hpush⟩ := Option.bind_eq_some_iff.1 hpush
  cases b with
  | true =>
    cases hpush
    exact ⟨h.hist, rfl⟩
  | false =>
    obtain ⟨entry, hentry, hpush⟩ := Option.bind_eq_some_iff.1 hpush
    obtain ⟨hist, hwr, hpush⟩ := Option.bind_eq_some_iff.1 hpush
    cases hpush
    obtain ⟨k, -, rfl⟩ := rd_eq_some hentry
    obtain ⟨k', -, rfl⟩ := wr_eq_some hwr
    -- the oldest entry gives way
    obtain ⟨old, hold, -⟩ := h.hist k
    have hcopy : HoldsPrintable (strncpy (st.hist k) text 255) :=
      ⟨text, HoldsText.strncpy hold.last h.line.length, h.printable⟩
    refine ⟨fun i => ?_, rfl⟩
    dsimp only
    by_cases hi : i = k'
    · rw [hi, Function.update_self]; exact hcopy
    · rw [Function.update_of_ne hi]; exact h.hist i

/-- Enter runs the line and starts a new one. -/
theorem Shown.enter_eq (h : Shown st text) : shellEnter st.toEditor =
    (histPush st.toEditor text).map fun e => (text, { e with histI := -1, line := fun _ => 0, len := 0 }) := by
  have hl := h.line.length
  have hw := wr_nat st.line (show text.length < 256 by omega) 0
  have hzero : st.line ⟨text.length, by omega⟩ = 0 := by
    rw [h.line.byte, List.getElem?_eq_none le_rfl]
    rfl
  -- the terminator is there already
  rw [← h.len, ← hzero, Function.update_eq_self, hzero] at hw
  unfold shellEnter
  simp only [hw, Option.bind_eq_bind, Option.bind_some, h.line.cstr]
  exact (Option.map_eq_bind ..).symm

/-- **Enter** runs the line that is shown, and the next one starts empty. -/
theorem Shown.entered (h : Shown st text) {l : Str} (henter : shellEnter st.toEditor = some (l, e')) :
    l = text ∧ ∀ screen : VgaText, screen.row < 25 → screen.col < 80 → Shown ⟨e', screen⟩ [] := by
  rw [h.enter_eq] at henter
  obtain ⟨e, hpush, heq⟩ := Option.map_eq_some_iff.1 henter
  cases heq
  obtain ⟨hhist, hlive⟩ := h.pushed hpush
  refine ⟨rfl, fun screen hr hc => ?_⟩
  exact
    { len := rfl
      line := .nil
      printable := by simp [Printable]
      screen := .nil hr hc
      hist := hhist
      live := hlive.symm ▸ h.live }

theorem Shown.enter (h : Shown st text) (hn : 0 ≤ st.histN) : ∃ e', shellEnter st.toEditor = some (text, e') := by
  obtain ⟨e', hpush⟩ := h.push hn
  exact ⟨_, by rw [h.enter_eq, hpush, Option.map_some]⟩

/-- A console at the start of a line, on a screen of any content with the cursor anywhere. -/
theorem Shown.init (screen : VgaText) (hr : screen.row < 25) (hc : screen.col < 80) :
    Shown ⟨Editor.init, screen⟩ [] :=
  { len := rfl
    line := .nil
    printable := by simp [Printable]
    screen := .nil hr hc
    hist := fun _ => .zero
    live := .zero }

/-! ## Sessions -/

/-- **The consoles of the main loop**: keys, and Enter, after which the line that was run
and the prompt leave any screen. -/
inductive Typing : Console → Prop
  | start (screen : VgaText) : screen.row < 25 → screen.col < 80 → Typing ⟨Editor.init, screen⟩
  | key {st₁ st₂ : Console} (c : UInt8) : Typing st₁ → c ≠ 10 → shellKey st₁ c = some st₂ → Typing st₂
  | enter {st₁ : Console} {l : Str} {e : Editor} (screen : VgaText) : Typing st₁ →
    shellEnter st₁.toEditor = some (l, e) → screen.row < 25 → screen.col < 80 → Typing ⟨e, screen⟩

theorem Typing.shown (h : Typing st) : ∃ text, Shown st text := by
  induction h with
  | start screen hr hc => exact ⟨[], .init screen hr hc⟩
  | key c _ _ hkey ih =>
    obtain ⟨text, h⟩ := ih
    obtain ⟨st', text', hst', h'⟩ := h.key c
    obtain rfl := Option.some.inj (hst'.symm.trans hkey)
    exact ⟨text', h'⟩
  | enter screen _ henter hr hc ih =>
    obtain ⟨text, h⟩ := ih
    exact ⟨[], (h.entered henter).2 screen hr hc⟩

/-- The text in the cells before the cursor. -/
theorem OnScreen.cells (h : OnScreen s text) : s.row < 25 ∧ s.col < 80 ∧ text.length ≤ s.row * 80 + s.col ∧
    ∀ i (hi : i < text.length), ∃ cell,
      rd s.buf (s.row * 80 + s.col - text.length + i : ℕ) = some cell ∧ cell.toUInt8 = text[i].val := by
  obtain ⟨t, off, hshows, hends, hin⟩ := h
  have hpos := hshows.pos
  have hr := hshows.row_lt
  have hc := hshows.col_lt
  refine ⟨hr, hc, by omega, ?_⟩
  intro i hi
  have hp : s.row * 80 + s.col - text.length + i < 25 * 80 := by omega
  have hcell : t.cells (t.pos 80 - text.length + i) = vgaCell s.attr text[i].val := by
    have := hends.cell i (by rw [List.length_map]; exact hi)
    simpa only [List.getElem_map, List.length_map] using this
  have hidx : t.pos 80 - text.length + i = off * 80 + (s.row * 80 + s.col - text.length + i) := by omega
  refine ⟨_, rd_nat s.buf hp, ?_⟩
  rw [hshows.window.inside, ← hidx, hcell, vgaCell_toUInt8]

/-- **What you see is what you run.** At every key of the main loop, whatever was typed and
run before and wherever the cursor was behind the prompt, the buffer holds a line of `len`
characters, 255 at most, and zeros behind it, and the `len` cells right before the cursor
show these characters. Every key is taken without an access outside the arrays, and Enter
runs that line, as long as `hist_n` has not wrapped: that takes 2^31 recorded lines
(`Recording.records`). -/
theorem line_shown (h : Typing st) : ∃ text : Str,
    cstr st.line = some text ∧ st.len = text.length ∧ text.length ≤ 255 ∧
    (∀ i : Fin 256, text.length ≤ i.val → st.line i = 0) ∧
    (st.screen.row < 25 ∧ st.screen.col < 80 ∧ text.length ≤ st.screen.row * 80 + st.screen.col ∧
      ∀ i (hi : i < text.length), ∃ cell,
        rd st.screen.buf (st.screen.row * 80 + st.screen.col - text.length + i : ℕ) = some cell ∧
        cell.toUInt8 = text[i].val) ∧
    (∀ c, ∃ st', shellKey st c = some st') ∧ (0 ≤ st.histN → ∃ e, shellEnter st.toEditor = some (text, e)) := by
  obtain ⟨text, hshown⟩ := h.shown
  refine ⟨text, hshown.line.cstr, hshown.len, hshown.line.length, ?_, hshown.screen.cells, ?_, hshown.enter⟩
  · intro i hi
    rw [hshown.line.byte, List.getElem?_eq_none hi]
    rfl
  · intro c
    obtain ⟨st', -, hst', -⟩ := hshown.key c
    exact ⟨st', hst'⟩

/-- A blank screen, with the cursor behind a prompt. -/
def promptScreen : VgaText := ⟨fun _ => vgaCell 7 32, 0, 12, 7⟩

/-- `l` and Tab show `ls`, and Enter runs it. -/
theorem line_shown_ls : ∃ st₁ st₂, shellKey ⟨Editor.init, promptScreen⟩ 108 = some st₁ ∧
    shellKey st₁ 9 = some st₂ ∧ cstr st₂.line = some (str "ls") ∧ st₂.len = 2 ∧
    (∃ cell, rd st₂.screen.buf (st₂.screen.row * 80 + st₂.screen.col - 2 + 0 : ℕ) = some cell ∧
      cell.toUInt8 = 108) ∧ ∃ e, shellEnter st₂.toEditor = some (str "ls", e) := by
  have h₀ : Typing ⟨Editor.init, promptScreen⟩ := .start promptScreen (by decide) (by decide)
  obtain ⟨-, -, -, -, -, -, hkey, -⟩ := line_shown h₀
  obtain ⟨st₁, h₁⟩ := hkey 108
  have ht₁ : Typing st₁ := .key 108 h₀ (by decide) h₁
  obtain ⟨-, -, -, -, -, -, hkey, -⟩ := line_shown ht₁
  obtain ⟨st₂, h₂⟩ := hkey 9
  obtain ⟨text, hline, hlen, -, -, ⟨-, -, -, hcells⟩, -, henter⟩ := line_shown (.key 9 ht₁ (by decide) h₂)
  have htext : ((shellKey ⟨Editor.init, promptScreen⟩ 108).bind fun st => shellKey st 9).any
      (fun st => cstr st.line = some (str "ls") ∧ 0 ≤ st.histN) = true := by decide +kernel
  obtain ⟨rfl, hn⟩ : text = str "ls" ∧ 0 ≤ st₂.histN := by simpa [h₁, h₂, hline] using htext
  exact ⟨st₁, st₂, h₁, h₂, hline, hlen, hcells 0 (by decide), henter hn⟩

end DahleOS
