import DahleOS.Lib.PartialRun
import DahleOS.Lib.RingLog
import DahleOS.Proof.LineEditor

/-!
# Scrolling in the history

`hist_get` counts from 1 for the newest entry. Ctrl-P starts from `hist_i` = -1 and asks for
offset 0 first, which is the slot that the next line goes to.

* `Recording.records`: the slots hold the last recorded lines, in every session, as long as
  the count of them is an `int`.
* `ups`: what Ctrl-P shows.
* `history_round_trip_iff`: it is what the history says, and Ctrl-N goes back, only by a
  coincidence of three lines.
* `history_ls`: one recorded line, which Ctrl-P does not show.
-/

namespace DahleOS

open CArray MachineWord PartialRun RingLog

variable {st st' : Console} {e e' : Editor} {text l : Str} {E : List Str} {c : UInt8} {j : ℕ}

/-! ## The recorded lines -/

/-- What Enter records: no empty line, and no line twice in a row. -/
def record (E : List Str) (l : Str) : List Str := if l = [] ∨ E.getLast? = some l then E else E ++ [l]

/-- The lines that are recorded of some lines. -/
def recorded (lines : List Str) : List Str := lines.foldl record []

theorem length_le_record (E : List Str) (l : Str) : E.length ≤ (record E l).length := by
  unfold record
  split
  · exact le_rfl
  · rw [List.length_append]
    exact Nat.le_add_right ..

theorem length_record_le (E : List Str) (l : Str) : (record E l).length ≤ E.length + 1 := by
  unfold record
  split
  · exact Nat.le_add_right ..
  · rw [List.length_append, List.length_singleton]

/-- **The slots hold the last recorded lines**, and the count has not wrapped. -/
structure Records (e : Editor) (E : List Str) : Prop where
  count : e.histN.toInt = E.length
  logs : Logs HoldsText [] e.hist E
  nonempty : ∀ t ∈ E, t ≠ []
  distinct : ∀ i t, E.reverse[i]? = some t → E.reverse[i + 1]? ≠ some t

theorem Records.init : Records Editor.init [] :=
  { count := rfl
    logs := .start fun _ => .nil
    nonempty := by simp
    distinct := by simp }

theorem Records.congr (h : Records e E) (hhist : e'.hist = e.hist) (hn : e'.histN = e.histN) : Records e' E :=
  { count := hn ▸ h.count, logs := hhist ▸ h.logs, nonempty := h.nonempty, distinct := h.distinct }

theorem HoldsText.unique {buf : Fin 256 → UInt8} {t t' : Str} (h : HoldsText buf t) (h' : HoldsText buf t') : t = t' :=
  Option.some.inj (h.cstr.symm.trans h'.cstr)

/-- A line repeats if it is the last one recorded. -/
theorem Records.repeats (h : Records e E) (l : Str) : histRepeats e l = some (decide (E.getLast? = some l)) := by
  have hcount := h.count
  rcases E.eq_nil_or_concat with rfl | ⟨before, last, rfl⟩
  · have hzero : e.histN = 0 := Int32.toInt_inj.1 hcount
    unfold histRepeats
    rw [if_pos hzero]
    rfl
  · have hheld := h.logs.recent le_rfl (by simp) (by decide) (b := last) (by simp)
    rw [List.concat_eq_append, List.length_append, List.length_singleton] at hcount
    rw [List.concat_eq_append, List.length_append, List.length_singleton, Nat.add_sub_cancel] at hheld
    rw [histRepeats_last hcount, hheld.cstr, Option.map_some]
    simp [strcmp_eq_zero]

/-- **Recording a line.** -/
theorem Records.push (h : Records e E) (hl : l.length ≤ 255) (hroom : (record E l).length < 2 ^ 31) :
    ∃ e', histPush e l = some e' ∧ Records e' (record E l) := by
  unfold record at hroom ⊢
  by_cases hempty : l = []
  · exact ⟨e, if_pos hempty, by rwa [if_pos (Or.inl hempty)]⟩
  by_cases hlast : E.getLast? = some l
  · have hrepeats : histRepeats e l = some true := by rw [h.repeats l, decide_eq_true hlast]
    exact ⟨e, by unfold histPush; rw [if_neg hempty, hrepeats]; rfl, by rwa [if_pos (Or.inr hlast)]⟩
  rw [if_neg (not_or.2 ⟨hempty, hlast⟩)] at hroom ⊢
  rw [List.length_append, List.length_singleton] at hroom
  have hnew : histRepeats e l = some false := by rw [h.repeats l, decide_eq_false hlast]
  obtain ⟨old, hold⟩ := h.logs.held (Fin.ofNat 20 E.length)
  have hentry := HoldsText.strncpy hold.last hl
  refine ⟨_, histPush_new h.count hempty hnew, ?_⟩
  refine { count := ?_, logs := ?_, nonempty := ?_, distinct := ?_ }
  · rw [List.length_append, List.length_singleton]
    exact toInt_add_nat h.count Int32.toInt_one hroom
  · exact h.logs.push hentry
  · intro t ht
    rcases List.mem_append.1 ht with ht | ht
    · exact h.nonempty t ht
    · rw [List.mem_singleton.1 ht]; exact hempty
  · intro i t hi
    rw [List.reverse_append, List.reverse_singleton, List.singleton_append] at hi ⊢
    cases i with
    | zero =>
      obtain rfl : l = t := by simpa using hi
      rw [List.getElem?_cons_succ, ← List.head?_eq_getElem?, List.head?_reverse]
      exact hlast
    | succ i =>
      rw [List.getElem?_cons_succ] at hi ⊢
      exact h.distinct i t hi

/-! ## Sessions -/

/-- **The consoles of the main loop**, with the lines that were recorded so far. -/
inductive Recording : Console → List Str → Prop
  | start (screen : VgaText) : screen.row < 25 → screen.col < 80 → Recording ⟨Editor.init, screen⟩ []
  | key {st₁ st₂ : Console} {E : List Str} (c : UInt8) : Recording st₁ E → c ≠ 10 → shellKey st₁ c = some st₂ →
    Recording st₂ E
  | enter {st₁ : Console} {E : List Str} {l : Str} {e : Editor} (screen : VgaText) : Recording st₁ E →
    shellEnter st₁.toEditor = some (l, e) → screen.row < 25 → screen.col < 80 → Recording ⟨e, screen⟩ (record E l)

theorem Recording.typing (h : Recording st E) : Typing st := by
  induction h with
  | start screen hr hc => exact .start screen hr hc
  | key c _ hc hkey ih => exact .key c ih hc hkey
  | enter screen _ henter hr hc ih => exact .enter screen ih henter hr hc

/-- The recorded lines are the same. -/
def SameHist (st st' : Console) : Prop := st'.hist = st.hist ∧ st'.histN = st.histN

theorem SameHist.rfl : SameHist st st := ⟨Eq.refl _, Eq.refl _⟩

theorem SameHist.trans {st'' : Console} (h : SameHist st st') (h' : SameHist st' st'') : SameHist st st'' :=
  ⟨h'.1.trans h.1, h'.2.trans h.2⟩

theorem appendChar_hist (h : appendChar st c = some st') : SameHist st st' := by
  unfold appendChar at h
  split at h
  · obtain ⟨line, -, h⟩ := Option.bind_eq_some_iff.1 h
    obtain ⟨screen, -, h⟩ := Option.bind_eq_some_iff.1 h
    cases h
    exact .rfl
  · cases h
    exact .rfl

theorem completeLoop_hist {rest : Str} (h : completeLoop rest st = some st') : SameHist st st' := by
  induction rest generalizing st with
  | nil =>
    cases h
    exact .rfl
  | cons ch rest ih =>
    unfold completeLoop at h
    split at h
    · obtain ⟨st₁, happend, h⟩ := Option.bind_eq_some_iff.1 h
      exact (appendChar_hist happend).trans (ih h)
    · cases h
      exact .rfl

theorem redrawLine_hist {buf : Fin 256 → UInt8} (h : redrawLine st buf = some st') : SameHist st st' := by
  unfold redrawLine at h
  obtain ⟨s₁, -, h⟩ := Option.bind_eq_some_iff.1 h
  obtain ⟨s, -, h⟩ := Option.bind_eq_some_iff.1 h
  obtain ⟨line, -, h⟩ := Option.bind_eq_some_iff.1 h
  obtain ⟨text, -, h⟩ := Option.bind_eq_some_iff.1 h
  obtain ⟨s₂, -, h⟩ := Option.bind_eq_some_iff.1 h
  cases h
  exact .rfl

/-- **A key records nothing.** -/
theorem shellKey_hist (h : shellKey st c = some st') : SameHist st st' := by
  unfold shellKey at h
  split at h
  · split at h
    · obtain ⟨line, -, h⟩ := Option.bind_eq_some_iff.1 h
      obtain ⟨screen, -, h⟩ := Option.bind_eq_some_iff.1 h
      cases h
      exact .rfl
    · cases h
      exact .rfl
  split at h
  · obtain ⟨text, -, h⟩ := Option.bind_eq_some_iff.1 h
    split at h
    · cases h
      exact .rfl
    · split at h
      · cases h
      · exact completeLoop_hist h
  split at h
  · obtain ⟨entry, -, h⟩ := Option.bind_eq_some_iff.1 h
    split at h
    · cases h
      exact .rfl
    · split at h
      · obtain ⟨text, -, h⟩ := Option.bind_eq_some_iff.1 h
        have hredraw := redrawLine_hist h
        exact ⟨hredraw.1, hredraw.2⟩
      · have hredraw := redrawLine_hist h
        exact ⟨hredraw.1, hredraw.2⟩
  split at h
  · split at h
    · obtain ⟨entry, -, h⟩ := Option.bind_eq_some_iff.1 h
      split at h
      · cases h
        exact .rfl
      · have hredraw := redrawLine_hist h
        exact ⟨hredraw.1, hredraw.2⟩
    · split at h
      · have hredraw := redrawLine_hist h
        exact ⟨hredraw.1, hredraw.2⟩
      · cases h
        exact .rfl
  split at h
  · exact appendChar_hist h
  · cases h
    exact .rfl

/-- **The slots hold the last recorded lines**, in every session that records less than 2^31. -/
theorem Recording.records (h : Recording st E) (hE : E.length < 2 ^ 31) : Records st.toEditor E := by
  induction h with
  | start => exact .init
  | key c _ _ hkey ih => exact (ih hE).congr (shellKey_hist hkey).1 (shellKey_hist hkey).2
  | @enter st₁ E l e screen hses henter hr hc ih =>
    obtain ⟨text, hshown⟩ := hses.typing.shown
    obtain ⟨rfl, -⟩ := hshown.entered henter
    obtain ⟨e', hpush, hrec⟩ := (ih ((length_le_record E l).trans_lt hE)).push hshown.line.length hE
    rw [hshown.enter_eq, hpush] at henter
    cases henter
    exact hrec.congr rfl rfl

/-- Typing a text records nothing. -/
theorem Recording.type {more : Str} (h : Recording st E) (hshown : Shown st text) (hp : Printable more)
    (hl : text.length + more.length ≤ 255) :
    ∃ st', Recording st' E ∧ Shown st' (text ++ more) ∧ st'.histI = st.histI := by
  induction more generalizing st text with
  | nil => exact ⟨st, h, by rwa [List.append_nil], rfl⟩
  | cons ch more ih =>
    obtain ⟨hch, hp⟩ := List.forall_mem_cons.1 hp
    rw [List.length_cons] at hl
    obtain ⟨st₁, hkey, hshown₁, hi⟩ := hshown.type (by omega) hch
    have hne : ch.val ≠ 10 := fun heq => absurd hch.1 (by rw [heq]; decide)
    obtain ⟨st', h', hshown', hi'⟩ := ih (.key ch.val h hne hkey) hshown₁ hp (by
      rw [List.length_append, List.length_singleton]
      omega)
    exact ⟨st', h', by rwa [List.append_assoc] at hshown', hi'.trans hi⟩

/-- Enter records the line that is shown. -/
theorem Recording.run (h : Recording st E) (hshown : Shown st l) (hbound : E.length < 2 ^ 31) :
    ∃ st', Recording st' (record E l) ∧ Shown st' [] ∧ st'.histI = -1 := by
  have hn : 0 ≤ st.histN := Int32.le_iff_toInt_le.2 ((h.records hbound).count ▸ Int.natCast_nonneg _)
  obtain ⟨e, hpush⟩ := hshown.push hn
  have henter := hshown.enter_eq
  rw [hpush, Option.map_some] at henter
  exact ⟨_, .enter promptScreen h henter (by decide) (by decide),
    (hshown.entered henter).2 promptScreen (by decide) (by decide), rfl⟩

/-- **Any lines can be typed and run**, one after the other. -/
theorem Recording.runs {lines : List Str} (h : Recording st E) (hshown : Shown st []) (hi : st.histI = -1)
    (hlines : ∀ l ∈ lines, Printable l ∧ l.length ≤ 255) (hbound : E.length + lines.length < 2 ^ 31) :
    ∃ st', Recording st' (lines.foldl record E) ∧ Shown st' [] ∧ st'.histI = -1 := by
  induction lines generalizing st E with
  | nil => exact ⟨st, h, hshown, hi⟩
  | cons l lines ih =>
    obtain ⟨⟨hp, hl⟩, hlines⟩ := List.forall_mem_cons.1 hlines
    rw [List.length_cons] at hbound
    have hrecord := length_record_le E l
    obtain ⟨st₁, h₁, hshown₁, -⟩ := h.type hshown hp (by rwa [List.length_nil, Nat.zero_add])
    obtain ⟨st₂, h₂, hshown₂, hi₂⟩ := h₁.run hshown₁ (by omega)
    exact ih h₂ hshown₂ hi₂ hlines (by omega)

/-! ## Ctrl-P and Ctrl-N -/

theorem histGet_nat {k n : ℕ} (hn : e.histN.toInt = n) (hk : k ≤ n) :
    histGet e k = some (some (e.hist (Fin.ofNat 20 (n - k)))) := by
  have hidx : ((n : ℤ) - k) % 20 = (Fin.ofNat 20 (n - k) : ℕ) := by rw [Fin.val_ofNat]; omega
  unfold histGet
  rw [hn, if_neg (by omega), hidx, rd_val]
  rfl

/-- **Ctrl-P** shows the slot at the next offset. -/
theorem Shown.up (h : Shown st text) {k n : ℕ} (hi : st.histI + 1 = k) (hn : st.histN.toInt = n) (hk : k ≤ n) :
    ∃ st' entry, shellKey st 0x10 = some st' ∧ Shown st' entry ∧ st'.histI = k ∧
      HoldsText (st.hist (Fin.ofNat 20 (n - k))) entry := by
  obtain ⟨entry, hbuf, hp⟩ := h.hist (Fin.ofNat 20 (n - k))
  have hget := histGet_nat hn hk
  rw [← hi] at hget
  obtain ⟨st', hkey, h', hi'⟩ := h.upTo hget hbuf hp
  exact ⟨st', entry, hkey, h', hi'.trans hi, hbuf⟩

/-- At offset 0, Ctrl-N does nothing. -/
theorem down_zero (h : st.histI = 0) : shellKey st 0x0E = some st := by
  unfold shellKey
  rw [if_neg (by decide), if_neg (by decide), if_neg (by decide), if_pos rfl, h]
  rfl

/-- The same key, `j` times. -/
def press (c : UInt8) (j : ℕ) (st : Console) : Option Console := (List.replicate j c).foldlM shellKey st

theorem press_succ : press c (j + 1) st = some st' ↔ ∃ st₁, press c j st = some st₁ ∧ shellKey st₁ c = some st' := by
  unfold press
  rw [List.replicate_succ', foldlM_snoc]

theorem press_one : press c 1 st = shellKey st c := by
  simp [press]

/-- **What Ctrl-P shows**: the first time the slot that is written next, and then the lines
from the newest one on. -/
theorem ups (h : Shown st text) (hlive : st.histI = -1) {k n : ℕ} (hn : st.histN.toInt = n) (hk : k ≤ n) :
    ∃ st' entry, press 0x10 (k + 1) st = some st' ∧ Shown st' entry ∧ st'.histI = k ∧ SameHist st st' ∧
      HoldsText (st.hist (Fin.ofNat 20 (n - k))) entry := by
  induction k with
  | zero =>
    obtain ⟨st', entry, hkey, h', hi, hbuf⟩ := h.up (k := 0) (by rw [hlive]; rfl) hn hk
    exact ⟨st', entry, press_one.trans hkey, h', hi, shellKey_hist hkey, hbuf⟩
  | succ k ih =>
    obtain ⟨st₁, _, hpress, h₁, hi₁, hsame, -⟩ := ih (by omega)
    obtain ⟨st', entry, hkey, h', hi, hbuf⟩ := h₁.up (k := k + 1) (by rw [hi₁]; rfl) (hsame.2 ▸ hn) hk
    rw [hsame.1] at hbuf
    exact ⟨st', entry, press_succ.2 ⟨st₁, hpress, hkey⟩, h', hi, hsame.trans (shellKey_hist hkey), hbuf⟩

/-! ## Round trips -/

/-- The line is the text, and the cells before the cursor show it. -/
def Displays (st : Console) (text : Str) : Prop :=
  cstr st.line = some text ∧ st.len = text.length ∧ text.length ≤ st.screen.row * 80 + st.screen.col ∧
    ∀ i (hi : i < text.length), ∃ cell,
      rd st.screen.buf (st.screen.row * 80 + st.screen.col - text.length + i : ℕ) = some cell ∧
      cell.toUInt8 = text[i].val

theorem Shown.displays (h : Shown st text) : Displays st text := by
  obtain ⟨-, -, hroom, hcells⟩ := h.screen.cells
  exact ⟨h.line.cstr, h.len, hroom, hcells⟩

theorem Shown.displays_eq (h : Shown st text) (h' : Displays st l) : text = l :=
  Option.some.inj (h.line.cstr.symm.trans h'.1)

/-- `j` times Ctrl-P shows the `j`-th most recent recorded line, and `j` times Ctrl-N then
brings the text back. -/
def RoundTrips (st : Console) (E : List Str) (text : Str) (j : ℕ) : Prop :=
  ∃ st₁ st₂ entry, press 0x10 j st = some st₁ ∧ E.reverse[j - 1]? = some entry ∧ Displays st₁ entry ∧
    press 0x0E j st₁ = some st₂ ∧ Displays st₂ text

/-- The first Ctrl-P shows the slot that is written next, and Ctrl-N stays there. -/
theorem Recording.first_up (h : Recording st E) (hlive : st.histI = -1) (hbound : E.length < 2 ^ 31) : ∃ st₁ entry,
    press 0x10 1 st = some st₁ ∧ Shown st₁ entry ∧ press 0x0E 1 st₁ = some st₁ ∧
    HoldsText (st.hist (Fin.ofNat 20 E.length)) entry := by
  obtain ⟨text, hshown⟩ := h.typing.shown
  obtain ⟨st₁, entry, hpress, h₁, hi, -, hbuf⟩ := ups hshown hlive (h.records hbound).count (Nat.zero_le _)
  rw [Nat.sub_zero] at hbuf
  exact ⟨st₁, entry, hpress, h₁, press_one.trans (down_zero hi), hbuf⟩

/-- **From the second time on, Ctrl-P shows the line after the one it should.** -/
theorem Recording.next_up (h : Recording st E) (hlive : st.histI = -1) (hbound : E.length < 2 ^ 31) {k : ℕ}
    (hpos : 1 ≤ k) (hE : k ≤ E.length) (hk : k ≤ 20) : ∃ st₁ entry, press 0x10 (k + 1) st = some st₁ ∧ Shown st₁ entry ∧
      E.reverse[k - 1]? = some entry := by
  obtain ⟨text, hshown⟩ := h.typing.shown
  have hrec := h.records hbound
  obtain ⟨st₁, entry, hpress, h₁, -, -, hbuf⟩ := ups hshown hlive hrec.count hE
  obtain ⟨t, ht⟩ : ∃ t, E.reverse[k - 1]? = some t :=
    ⟨_, List.getElem?_eq_getElem (by rw [List.length_reverse]; omega)⟩
  have hheld := hrec.logs.recent hpos hE hk ht
  exact ⟨st₁, entry, hpress, h₁, hbuf.unique hheld ▸ ht⟩

/-- **When scrolling round-trips.** From a live line, `j` times Ctrl-P and `j` times Ctrl-N
never do what the history says, but by a coincidence: one key each way, with the line, the
last recorded line and the 20th from the end all the same. The recorded lines are less than
2^31. -/
theorem history_round_trip_iff (h : Recording st E) (hbound : E.length < 2 ^ 31) (hlive : st.histI = -1)
    (htext : cstr st.line = some text) (hpos : 1 ≤ j) (hE : j ≤ E.length) (hj : j ≤ 20) : RoundTrips st E text j ↔
      j = 1 ∧ E.reverse[19]? = some text ∧ E.reverse[0]? = some text := by
  have hrec := h.records hbound
  constructor
  · rintro ⟨st₁, st₂, entry, hup, hentry, hshows, hdown, hback⟩
    rcases Nat.eq_or_lt_of_le hpos with rfl | hlt
    · obtain ⟨st', first, hpress, h', hstay, hbuf⟩ := h.first_up hlive hbound
      obtain rfl := Option.some.inj (hpress.symm.trans hup)
      obtain rfl := Option.some.inj (hstay.symm.trans hdown)
      obtain rfl := h'.displays_eq hshows
      obtain rfl := h'.displays_eq hback
      by_cases hn : E.length < 20
      · -- the slot is blank
        have hempty : first = [] := hbuf.unique (hrec.logs.next_unused hn)
        exact absurd hempty (hrec.nonempty _ (List.mem_reverse.1 (List.mem_of_getElem? hentry)))
      · obtain ⟨oldest, holdest⟩ : ∃ t, E.reverse[19]? = some t :=
          ⟨_, List.getElem?_eq_getElem (by rw [List.length_reverse]; omega)⟩
        have heq : first = oldest := hbuf.unique (hrec.logs.next_oldest (Nat.le_of_not_lt hn) holdest)
        exact ⟨rfl, heq ▸ holdest, hentry⟩
    · -- two lines in a row differ
      obtain ⟨k, rfl⟩ : ∃ k, j = k + 1 + 1 := ⟨j - 2, by omega⟩
      obtain ⟨st', newer, hpress, h', hnewer⟩ := h.next_up hlive hbound (show 1 ≤ k + 1 by omega) (by omega) (by omega)
      obtain rfl := Option.some.inj (hpress.symm.trans hup)
      obtain rfl := h'.displays_eq hshows
      exact absurd hentry (hrec.distinct k _ hnewer)
  · rintro ⟨rfl, holdest, hnewest⟩
    have hn : 19 < E.reverse.length := (List.getElem?_eq_some_iff.1 holdest).1
    rw [List.length_reverse] at hn
    obtain ⟨st₁, first, hpress, h₁, hstay, hbuf⟩ := h.first_up hlive hbound
    obtain rfl : first = text := hbuf.unique (hrec.logs.next_oldest hn holdest)
    exact ⟨st₁, st₁, first, hpress, hnewest, h₁.displays, hstay, h₁.displays⟩

/-- A session from the first prompt that runs these lines. -/
theorem recording_lines {lines : List Str} (hlines : ∀ l ∈ lines, Printable l ∧ l.length ≤ 255)
    (hbound : lines.length < 2 ^ 31) : ∃ st, Recording st (recorded lines) ∧ Shown st [] ∧ st.histI = -1 := by
  have hstart : Recording ⟨Editor.init, promptScreen⟩ [] := .start promptScreen (by decide) (by decide)
  exact hstart.runs (.init promptScreen (by decide) (by decide)) rfl hlines (by simpa using hbound)

/-- Lines of one to 19 characters, and again from one: 21 in all. -/
def circling : List Str := (List.range 21).map fun i => List.replicate (i % 19 + 1) slash

/-- After 21 lines one key each way does not come back to an empty line; but it does to the
line that was run last, which is also the oldest one kept. -/
theorem history_round_trip_iff_circling : ∃ st st', Recording st circling ∧ cstr st.line = some [] ∧
    ¬ RoundTrips st circling [] 1 ∧ Recording st' circling ∧ cstr st'.line = some [slash, slash] ∧
    RoundTrips st' circling [slash, slash] 1 := by
  have hslash (k : ℕ) : Printable (List.replicate k slash) := fun ch hch => (List.mem_replicate.1 hch).2 ▸ by decide
  obtain ⟨st, h, hshown, hi⟩ := @recording_lines circling (by
    intro l hl
    obtain ⟨i, -, rfl⟩ := List.mem_map.1 hl
    exact ⟨hslash _, by rw [List.length_replicate]; omega⟩) (by decide)
  rw [show recorded circling = circling by decide] at h
  obtain ⟨st', h', hshown', hi'⟩ := h.type hshown (hslash 2) (by decide)
  refine ⟨st, st', h, hshown.line.cstr, ?_, h', hshown'.line.cstr, ?_⟩
  · rw [history_round_trip_iff h (by decide) hi hshown.line.cstr le_rfl (by decide) (by decide)]
    decide
  · exact (history_round_trip_iff h' (by decide) (hi'.trans hi) hshown'.line.cstr le_rfl (by decide) (by decide)).2
      (by decide)

/-- **Ctrl-P does not show the line that was just run.** It shows an empty one, and Ctrl-N
leaves it there. -/
theorem history_ls : ∃ st st₁, Recording st [str "ls"] ∧ st.histI = -1 ∧ cstr st.line = some [] ∧
    press 0x10 1 st = some st₁ ∧ Displays st₁ [] ∧ ¬ Displays st₁ (str "ls") ∧ press 0x0E 1 st₁ = some st₁ := by
  obtain ⟨st, h, hshown, hlive⟩ := @recording_lines [str "ls"] (by
    rw [List.forall_mem_singleton]
    exact ⟨List.forall_mem_cons.2 ⟨by decide, List.forall_mem_singleton.2 (by decide)⟩, by decide⟩) (by decide)
  rw [show recorded [str "ls"] = [str "ls"] by decide] at h
  obtain ⟨st₁, first, hpress, h₁, hstay, hbuf⟩ := h.first_up hlive (by decide)
  obtain rfl : first = [] := hbuf.unique ((h.records (by decide)).logs.next_unused (by decide))
  refine ⟨st, st₁, h, hlive, hshown.line.cstr, hpress, h₁.displays, ?_, hstay⟩
  intro hls
  exact absurd (h₁.displays_eq hls) (by decide)

end DahleOS
