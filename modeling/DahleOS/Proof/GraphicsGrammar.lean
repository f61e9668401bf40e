import DahleOS.Lib.Words
import DahleOS.Model.GraphicsParse

/-!
# The grammar of `graphics`

* `graphicsParse_set`, `graphicsParse_other`: what the parser returns.
* `classified`: it accepts exactly its grammar.
* `graphics_parse_iff`: it keeps what its comment says about `*mode_out`, but on lines that
  set a known mode.
-/

namespace DahleOS

open Words

variable {s t : Str} {k : ℕ} {args : Option Str}

theorem gfxStreq_eq : gfxStreq s t = true ↔ s = t := by
  induction s generalizing t with
  | nil => cases t <;> simp [gfxStreq]
  | cons a s ih =>
    cases t with
    | nil => simp [gfxStreq]
    | cons b t =>
      by_cases hab : a = b
      · simp [gfxStreq, hab, ih]
      · simp [gfxStreq, hab]

/-- `set`, some spaces and a text. -/
def setLine (k : ℕ) (t : Str) : Str := str "set" ++ List.replicate (k + 1) sp ++ t

theorem setLine_eq (k : ℕ) (t : Str) : setLine k t = str "set " ++ (List.replicate k sp ++ t) := by
  rw [setLine, List.replicate_succ, List.append_assoc, List.cons_append]
  rfl

/-- A line that starts with `set` and a space. -/
theorem exists_setLine (h : str "set " <+: s) : ∃ k t, t.head? ≠ some sp ∧ s = setLine k t := by
  obtain ⟨rest, rfl⟩ := h
  have hspaces : ∀ c ∈ rest.takeWhile (· = sp), c = sp := fun c hc => by simpa using List.mem_takeWhile_imp hc
  refine ⟨(rest.takeWhile (· = sp)).length, rest.dropWhile (· = sp), head?_skip sp rest, ?_⟩
  rw [setLine_eq, ← List.eq_replicate_of_mem hspaces, List.takeWhile_append_dropWhile]

theorem setLine_starts (k : ℕ) (t : Str) : str "set " <+: setLine k t := by
  rw [setLine_eq]
  exact List.prefix_append _ _

/-- The text behind `set` and the spaces. -/
theorem skip_setLine (ht : t.head? ≠ some sp) : skipSpaces ((setLine k t).drop 4) = t := by
  rw [setLine_eq, show 4 = (str "set ").length from rfl, List.drop_left]
  exact dropWhile_seps k ht

/-- It is the same whichever way the line is read. -/
theorem setLine_inj {k' : ℕ} {t' : Str} (ht : t.head? ≠ some sp) (ht' : t'.head? ≠ some sp)
    (h : setLine k t = setLine k' t') : t = t' := by
  have hskip : skipSpaces ((setLine k t).drop 4) = skipSpaces ((setLine k' t').drop 4) := by rw [h]
  rwa [skip_setLine ht, skip_setLine ht'] at hskip

theorem setLine_head (k : ℕ) (t : Str) : (setLine k t).take 4 = str "set " := by
  rw [setLine_eq, show 4 = (str "set ").length from rfl, List.take_left]

/-! ## What the parser returns -/

/-- **On a line that sets a mode.** -/
theorem graphicsParse_set (ht : t.head? ≠ some sp) : graphicsParse (some (setLine k t)) =
    (if t = str "vbe" then .setVbe else if t = str "vga" then .setVga else .setUnknown, some t) := by
  have hne : setLine k t ≠ [] := by
    intro h
    have hhead := setLine_head k t
    rw [h] at hhead
    exact absurd hhead (by decide)
  have hother (s : Str) (hs : s.take 4 ≠ str "set ") : ¬ gfxStreq (setLine k t) s = true := by
    rw [gfxStreq_eq]
    intro h
    exact hs (h ▸ setLine_head k t)
  unfold graphicsParse
  dsimp only
  rw [if_neg hne, if_neg (hother (str "status") (by decide)), if_neg (hother (str "test") (by decide)),
    if_pos (setLine_starts k t), skip_setLine ht]
  simp only [gfxStreq_eq]
  split_ifs <;> rfl

/-- **On any other line.** -/
theorem graphicsParse_other (hs : ¬ str "set " <+: s) : graphicsParse (some s) =
    (if s = str "status" then .status else if s = str "test" then .test else .usage, none) := by
  unfold graphicsParse
  dsimp only
  by_cases hempty : s = []
  · subst hempty
    decide
  · rw [if_neg hempty, if_neg hs]
    simp only [gfxStreq_eq]
    split_ifs <;> rfl

/-! ## The grammar -/

/-- The arguments set the mode `t`. -/
def Sets (t : Str) (args : Option Str) : Prop := ∃ k, args = some (setLine k t)

/-- **The parser accepts exactly its grammar**, and on an unknown mode returns the text of
it. -/
structure Classified (args : Option Str) (r : GfxAction × Option Str) : Prop where
  status : r.1 = .status ↔ args = some (str "status")
  test : r.1 = .test ↔ args = some (str "test")
  setVbe : r.1 = .setVbe ↔ Sets (str "vbe") args
  setVga : r.1 = .setVga ↔ Sets (str "vga") args
  setUnknown : r.1 = .setUnknown ↔ (∃ t, Sets t args) ∧ ¬ Sets (str "vbe") args ∧ ¬ Sets (str "vga") args
  usage : r.1 = .usage ↔ args ≠ some (str "status") ∧ args ≠ some (str "test") ∧ ¬ ∃ t, Sets t args
  mode : r.1 = .setUnknown → ∃ t, t.head? ≠ some sp ∧ Sets t args ∧ r.2 = some t

theorem not_sets (hs : ¬ str "set " <+: s) (t : Str) : ¬ Sets t (some s) := by
  rintro ⟨k, h⟩
  rw [Option.some.inj h] at hs
  exact hs (setLine_starts k t)

theorem classified (args : Option Str) : Classified args (graphicsParse args) := by
  cases args with
  | none => constructor <;> simp [graphicsParse, Sets]
  | some s =>
    by_cases hs : str "set " <+: s
    · obtain ⟨k, t, ht, rfl⟩ := exists_setLine hs
      have hsets {t' : Str} (ht' : t'.head? ≠ some sp) : Sets t' (some (setLine k t)) ↔ t = t' := by
        constructor
        · rintro ⟨_, h⟩
          exact setLine_inj ht ht' (Option.some.inj h)
        · rintro rfl
          exact ⟨k, rfl⟩
      have hany : ∃ t', Sets t' (some (setLine k t)) := ⟨t, k, rfl⟩
      have hother (s : Str) (h4 : s.take 4 ≠ str "set ") : some (setLine k t) ≠ some s :=
        fun h => h4 (Option.some.inj h ▸ setLine_head k t)
      have hstatus := hother (str "status") (by decide)
      have htest := hother (str "test") (by decide)
      have hvbe := hsets (show (str "vbe").head? ≠ some sp by decide)
      have hvga := hsets (show (str "vga").head? ≠ some sp by decide)
      rw [graphicsParse_set ht]
      by_cases h₁ : t = str "vbe"
      · have h₂ : t ≠ str "vga" := fun h => absurd (h₁.symm.trans h) (by decide)
        rw [if_pos h₁]
        constructor <;> simp [hstatus, htest, hvbe.2 h₁, mt hvga.1 h₂, hany]
      rw [if_neg h₁]
      by_cases h₂ : t = str "vga"
      · rw [if_pos h₂]
        constructor <;> simp [hstatus, htest, mt hvbe.1 h₁, hvga.2 h₂, hany]
      · rw [if_neg h₂]
        constructor <;> simp [hstatus, htest, mt hvbe.1 h₁, mt hvga.1 h₂, hany]
        exact ⟨ht, k, rfl⟩
    · have hset := not_sets hs
      rw [graphicsParse_other hs]
      by_cases h₁ : s = str "status"
      · have h₂ : s ≠ str "test" := fun h => absurd (h₁.symm.trans h) (by decide)
        rw [if_pos h₁]
        constructor <;> simp [hset, eq_true h₁, h₂]
      rw [if_neg h₁]
      by_cases h₂ : s = str "test"
      · rw [if_pos h₂]
        constructor <;> simp [hset, h₁, eq_true h₂]
      · rw [if_neg h₂]
        constructor <;> simp [hset, h₁, h₂]

/-- **When the parser keeps its contract.** For every argument string, NULL included: the
code is the one of the grammar, the text of an unknown mode is returned, and NULL with every
other code, exactly if the arguments do not set a known mode. -/
theorem graphics_parse_iff (args : Option Str) :
    (Classified args (graphicsParse args) ∧
        ((graphicsParse args).1 ≠ .setUnknown → (graphicsParse args).2 = none)) ↔
      ¬ (Sets (str "vbe") args ∨ Sets (str "vga") args) := by
  have hclass := classified args
  constructor
  · rintro ⟨-, hnull⟩ hsets
    have hmode {t : Str} (ht : t.head? ≠ some sp) (hset : Sets t args) : (graphicsParse args).2 = some t := by
      obtain ⟨k, rfl⟩ := hset
      rw [graphicsParse_set ht]
    rcases hsets with h | h
    · rw [hmode (by decide) h] at hnull
      exact absurd (hnull (by rw [hclass.setVbe.2 h]; decide)) (Option.some_ne_none _)
    · rw [hmode (by decide) h] at hnull
      exact absurd (hnull (by rw [hclass.setVga.2 h]; decide)) (Option.some_ne_none _)
  · intro hno
    rw [not_or] at hno
    refine ⟨hclass, ?_⟩
    intro hne
    cases args with
    | none => rfl
    | some s =>
      by_cases hs : str "set " <+: s
      · obtain ⟨k, t, -, rfl⟩ := exists_setLine hs
        exact absurd (hclass.setUnknown.2 ⟨⟨t, k, rfl⟩, hno⟩) hne
      · rw [graphicsParse_other hs]

/-- **`set vbe` leaves a pointer to `vbe` behind.** -/
theorem graphics_parse_vbe : graphicsParse (some (str "set vbe")) = (.setVbe, some (str "vbe")) := by decide

end DahleOS
