import DahleOS.Proof.HistoryKeys

/-!
# The history ring

`hist_get` against the list of the recorded lines. Its range test is on the number of lines
recorded, not on the number of slots.

* `records_push_all`: what any sequence of `hist_push` leaves.
* `hist_get_iff`: `hist_get` is right up to offset 20, and behind the first line.
* `hist_get_wraps`: at offset 21 it returns the newest line.
-/

namespace DahleOS

open CArray RingLog PartialRun

variable {e : Editor} {E calls : List Str} {k : ℕ}

theorem length_le_foldl_record (E calls : List Str) : E.length ≤ (calls.foldl record E).length := by
  induction calls generalizing E with
  | nil => exact le_rfl
  | cons s calls ih => exact (length_le_record E s).trans (ih _)

/-- **Any sequence of `hist_push`** keeps the last lines that it records, if these are less
than 2^31. -/
theorem records_push_all (h : Records e E) (hl : ∀ s ∈ calls, s.length ≤ 255)
    (hbound : (calls.foldl record E).length < 2 ^ 31) :
    ∃ e', calls.foldlM histPush e = some e' ∧ Records e' (calls.foldl record E) := by
  induction calls generalizing e E with
  | nil => exact ⟨e, rfl, h⟩
  | cons s calls ih =>
    obtain ⟨hs, hcalls⟩ := List.forall_mem_cons.1 hl
    obtain ⟨e₁, hpush, h₁⟩ := h.push hs ((length_le_foldl_record _ calls).trans_lt hbound)
    obtain ⟨e', hrun, h'⟩ := ih h₁ hcalls hbound
    refine ⟨e', ?_, h'⟩
    rw [List.foldlM_cons, hpush]
    exact hrun

/-- What `hist_get` should return: the `k`-th most recent line that is kept, or NULL. -/
def GetsRecent (e : Editor) (E : List Str) (k : ℕ) : Prop :=
  if k ≤ min E.length 20 then
    ∃ buf text, histGet e k = some (some buf) ∧ cstr buf = some text ∧ E.reverse[k - 1]? = some text
  else histGet e k = some none

theorem Records.getsRecent_iff (h : Records e E) (hk : 1 ≤ k) :
    GetsRecent e E k ↔ ¬ (20 < k ∧ k ≤ E.length) := by
  have hcount := h.count
  unfold GetsRecent
  by_cases hkept : k ≤ min E.length 20
  · rw [if_pos hkept]
    refine iff_of_true ?_ (by omega)
    obtain ⟨text, htext⟩ : ∃ text, E.reverse[k - 1]? = some text :=
      ⟨_, List.getElem?_eq_getElem (by rw [List.length_reverse]; omega)⟩
    have hholds := h.logs.recent hk (by omega) (by omega) htext
    exact ⟨_, text, histGet_nat hcount (by omega), hholds.cstr, htext⟩
  rw [if_neg hkept]
  by_cases hin : k ≤ E.length
  · -- the slot was written again
    refine iff_of_false ?_ (by omega)
    rw [histGet_nat hcount hin]
    simp
  · refine iff_of_true ?_ (by omega)
    exact if_pos (by omega)

/-- **When `hist_get` is right.** After any sequence of `hist_push` calls with lines of at
most 255 characters, less than 2^31 of them recorded: for every offset but those above 20 that
are not above the number of recorded lines. -/
theorem hist_get_iff (hl : ∀ s ∈ calls, s.length ≤ 255) (hbound : (recorded calls).length < 2 ^ 31) :
    ∃ e, calls.foldlM histPush Editor.init = some e ∧
    ∀ k, 1 ≤ k → (GetsRecent e (recorded calls) k ↔ ¬ (20 < k ∧ k ≤ (recorded calls).length)) := by
  obtain ⟨e, hrun, h⟩ := records_push_all .init hl hbound
  exact ⟨e, hrun, fun k hk => h.getsRecent_iff hk⟩

/-- Lines of one to 21 characters. -/
def growing : List Str := (List.range 21).map fun i => List.replicate (i + 1) slash

theorem recorded_growing : recorded growing = growing := by decide

/-- Of 21 lines the 20th from the end is there, the 21st is not, and there is no 22nd. -/
theorem hist_get_iff_growing : ∃ e, growing.foldlM histPush Editor.init = some e ∧ GetsRecent e growing 20 ∧
    ¬ GetsRecent e growing 21 ∧ GetsRecent e growing 22 := by
  obtain ⟨e, hrun, hiff⟩ := @hist_get_iff growing (by decide) (by decide)
  rw [recorded_growing] at hiff
  exact ⟨e, hrun, (hiff 20 (by decide)).2 (by decide), mt (hiff 21 (by decide)).1 (by decide),
    (hiff 22 (by decide)).2 (by decide)⟩

/-- **Of 21 lines 20 are kept, and `hist_get` of 21 is not NULL**: it returns the newest. -/
theorem hist_get_wraps : recorded growing = growing ∧ ∃ e buf, growing.foldlM histPush Editor.init = some e ∧
    histGet e 21 = some (some buf) ∧ cstr buf = growing.getLast? := by
  have hlast : growing.reverse[0]? = some (List.replicate 21 slash) := by decide
  obtain ⟨e, hrun, h⟩ := records_push_all .init (show ∀ s ∈ growing, s.length ≤ 255 by decide) (by decide)
  have hgrow : Records e growing := recorded_growing ▸ h
  have hholds := hgrow.logs.recent le_rfl (by decide) (by decide) hlast
  exact ⟨recorded_growing, e, _, hrun, histGet_nat hgrow.count le_rfl, hholds.cstr⟩

end DahleOS
