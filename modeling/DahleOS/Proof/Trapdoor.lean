import DahleOS.Proof.Boot
import DahleOS.Proof.Numerals
import Mathlib.Data.List.Chain

/-!
# The trapdoor

A division by zero arms the trapdoor with its numerator, and the next line that is run has
to be the sentence for it. The next line *run* need not be the next line typed: an alias or
`repeat` runs lines within a line.

* `ddfExpect_eq`: the sentence has the numerator in decimal, `INT_MIN` apart.
* `shellAction_trap`: what one line run does to the trapdoor.
* `Session.trap_iff`: at the prompt it is armed exactly if the last typed line that is not
  blank ended with a division by zero.
* `ddf_gated_iff`: when only the sentence, typed after that line, unlocks the console.
-/

namespace DahleOS

open Expander

/-! ## The sentence -/

/-- **The sentence** that answers a division of `n` by zero. -/
def secret (n : Int32) : Str :=
  str "actually " ++ str (toString n.toInt) ++ str " divided by 0 is " ++
    str (if n = 0 then "indeterminate" else "undefined")

theorem ddfExpect_eq {n : Int32} (hn : n ≠ Int32.minValue) : ddfExpect n = secret n := by
  unfold ddfExpect secret
  rw [intToStr_eq hn]

/-- For `INT_MIN` another sentence is expected. -/
theorem ddfExpect_minValue : ddfExpect Int32.minValue = str "actually - divided by 0 is undefined" ∧
    ddfExpect Int32.minValue ≠ secret Int32.minValue := by
  decide +kernel

theorem ddfExpect_ne_nil (n : Int32) : ddfExpect n ≠ [] := by
  unfold ddfExpect
  simp [str]

theorem word_ddfExpect (n : Int32) : word 63 (ddfExpect n) = str "actually" := by
  unfold ddfExpect
  simp only [List.append_assoc]
  rfl

/-! ## One line run -/

/-- The numerator that the trapdoor is armed with. -/
def Machine.trap (m : Machine) : Option Int32 := if m.ddfWaitingSecret then some m.ddfLastNumerator else none

/-- The line is `alu`, dividing `n` by zero. -/
def Divides (line : Str) (n : Int32) : Prop :=
  let input := skipSpaces line
  let name := word 63 input
  name = str "alu" ∧ DividesByZero (skipSpaces (input.drop name.length)) n

theorem cmdAlu_divides {m : Machine} {args : Str} {n : Int32} (h : DividesByZero args n) :
    cmdAlu m args = .ok (.notANumber, { m with ddfLastNumerator := n, ddfWaitingSecret := true }) := by
  obtain ⟨ta, tb, op, htok, ha, hb, hop⟩ := h
  unfold cmdAlu
  simp only [htok, ha, hb, hop, if_true]

/-- What `alu` does to the trapdoor. -/
theorem cmdAlu_trap {m m' : Machine} {args : Str} {msg : AluMsg} (hm : m.trap = none)
    (h : cmdAlu m args = .ok (msg, m')) :
    (∀ n, m'.trap = some n ↔ DividesByZero args n) ∧ m'.ddfUnlocked = m.ddfUnlocked := by
  rcases cmdAlu_cases h with rfl | ⟨a, ha, rfl⟩
  · refine ⟨fun n => ⟨?_, ?_⟩, rfl⟩
    · intro ht
      rw [hm] at ht
      cases ht
    · intro hd
      -- a division by zero would have armed it
      have heq := cmdAlu_divides (m := m') hd
      rw [h, Except.ok.injEq, Prod.mk.injEq] at heq
      have hw : m'.ddfWaitingSecret = true := by rw [heq.2]
      rw [Machine.trap, if_pos hw] at hm
      cases hm
  · refine ⟨fun n => ⟨?_, ?_⟩, rfl⟩
    · intro ht
      cases ht
      exact ha
    · intro hd
      have heq := cmdAlu_divides (m := m) hd
      rw [h, Except.ok.injEq, Prod.mk.injEq] at heq
      rw [heq.2]
      rfl

/-- No other command touches it. -/
theorem exec_trap {m m' : Machine} {args : Str} {c : Builtin} (hc : c ≠ .alu) (h : c.exec m args = .ok m') :
    m'.trap = m.trap ∧ m'.ddfUnlocked = m.ddfUnlocked := by
  have hfault {r : Option World} (h : orFault m r = .ok m') : m'.trap = m.trap ∧ m'.ddfUnlocked = m.ddfUnlocked := by
    cases r with
    | none => cases h
    | some w => cases h; exact ⟨rfl, rfl⟩
  cases c with
  | quiet => cases h; exact ⟨rfl, rfl⟩
  | stop => cases h
  | scp =>
    unfold Builtin.exec cmdScp at h
    split_ifs at h
    cases h
    exact ⟨rfl, rfl⟩
  | loop => cases h; exact ⟨rfl, rfl⟩
  | fs cmd => exact hfault h
  | alu => exact absurd rfl hc
  | aliasCmd => exact hfault h
  | save => cases h; exact ⟨rfl, rfl⟩
  | load => cases h; exact ⟨rfl, rfl⟩
  | savelist => cases h; exact ⟨rfl, rfl⟩

theorem ddfCommand_trap {m m' : Machine} {args : Str} (h : ddfCommand m args = .ok m') :
    m'.trap = m.trap ∧ (m'.ddfUnlocked = true → m.ddfUnlocked = true) := by
  unfold ddfCommand at h
  split_ifs at h
  · cases h; exact ⟨rfl, id⟩
  · cases h; exact ⟨rfl, fun h => by cases h⟩
  · cases h; exact ⟨rfl, id⟩

/-- **The trapdoor is asked first**: it is disarmed, and unlocks on the sentence only. -/
theorem ddfTrySecret_cases (m : Machine) (input : Str) :
    (∃ n, m.trap = some n ∧ input = ddfExpect n ∧
      ddfTrySecret m input = (true, { m with ddfWaitingSecret := false, ddfUnlocked := true })) ∨
    (∀ n, m.trap = some n → input ≠ ddfExpect n) ∧
      ddfTrySecret m input = (false, { m with ddfWaitingSecret := false }) := by
  unfold ddfTrySecret Machine.trap
  cases hw : m.ddfWaitingSecret with
  | false =>
    refine Or.inr ⟨fun n hn => (by cases hn), ?_⟩
    simp only [Bool.not_false, if_true, Prod.mk.injEq, true_and]
    rw [← hw]
  | true =>
    simp only [Bool.not_true, if_true, Option.some.injEq]
    by_cases heq : input = ddfExpect m.ddfLastNumerator
    · refine Or.inl ⟨_, rfl, heq, ?_⟩
      rw [if_neg (by decide), if_neg (not_not.2 (strcmp_eq_zero.2 heq))]
    · refine Or.inr ⟨fun n hn => hn ▸ heq, ?_⟩
      rw [if_neg (by decide), if_pos (fun h => heq (strcmp_eq_zero.1 h))]

/-- The table has one entry for `alu`. -/
theorem mem_alu {name : Str} {c : Builtin} (h : (name, c) ∈ cmdTable) : c = .alu ↔ name = str "alu" := by
  have hall : ∀ e ∈ cmdTable, e.2 = .alu ↔ e.1 = str "alu" := by decide +kernel
  exact hall _ h

theorem mem_alu_self : (str "alu", Builtin.alu) ∈ cmdTable := by decide +kernel

/-- A command other than `alu` leaves the trapdoor as it is. -/
theorem commandAction_other {m m' : Machine} {name args : Str} {a : Action Machine Str Expansion Stop}
    (h : CommandAction m name args a) (hname : name ≠ str "alu") (hs : a.state = some m') :
    m'.trap = m.trap ∧ (m'.ddfUnlocked = true → m.ddfUnlocked = true) := by
  cases h with
  | ddf _ =>
    cases hr : ddfCommand m args with
    | error why => rw [hr] at hs; cases hs
    | ok m₁ => rw [hr] at hs; cases hs; exact ddfCommand_trap hr
  | @builtin c hmem _ =>
    cases hr : c.exec m args with
    | error why => rw [hr] at hs; cases hs
    | ok m₁ =>
      rw [hr] at hs
      cases hs
      obtain ⟨htrap, hunlocked⟩ := exec_trap (fun hc => hname ((mem_alu hmem).1 hc)) hr
      exact ⟨htrap, fun hu => hunlocked ▸ hu⟩
  | loop _ _ => cases hs; exact ⟨rfl, id⟩
  | usage _ => cases hs; exact ⟨rfl, id⟩
  | expand _ _ => cases hs; exact ⟨rfl, id⟩
  | unknown _ => cases hs; exact ⟨rfl, id⟩
  | fault _ => cases hs

/-- `alu` is run as it is. -/
theorem commandAction_alu {m : Machine} {args : Str} {a : Action Machine Str Expansion Stop}
    (h : CommandAction m (str "alu") args a) (hs : a.state = some m') :
    ∃ msg, cmdAlu m args = .ok (msg, m') := by
  cases h with
  | ddf hname => exact absurd hname (by decide)
  | @builtin c hmem _ =>
    obtain rfl := (mem_alu hmem).2 rfl
    cases hr : cmdAlu m args with
    | error why => rw [Builtin.exec, hr] at hs; cases hs
    | ok r =>
      rw [Builtin.exec, hr] at hs
      cases hs
      exact ⟨r.1, rfl⟩
  | loop hname _ => exact absurd hname (by decide)
  | usage hname => exact absurd hname (by decide)
  | expand hnone _ => exact absurd mem_alu_self (hnone .alu)
  | unknown hnone => exact absurd mem_alu_self (hnone .alu)
  | fault _ => cases hs

/-- **A line that is run** leaves the trapdoor armed exactly if it divides by zero, and
unlocks the console only if it is the sentence for which the trapdoor was armed. -/
theorem shellAction_trap {m m' : Machine} {line : Str} (hne : skipSpaces line ≠ [])
    (h : (shellAction m line).state = some m') :
    (∀ n, m'.trap = some n ↔ Divides line n) ∧
      (m'.ddfUnlocked = true → m.ddfUnlocked = true ∨ ∃ n, m.trap = some n ∧ skipSpaces line = ddfExpect n) := by
  have hcases := shellAction_cases m hne
  rcases ddfTrySecret_cases m (skipSpaces line) with ⟨n, hn, heq, htry⟩ | ⟨-, htry⟩
  · -- the sentence is consumed, and is no division
    rw [htry] at hcases
    rw [(hcases.resolve_right fun h => Bool.noConfusion h.1).2] at h
    cases h
    refine ⟨fun k => ⟨fun hk => (by cases hk), ?_⟩, fun _ => Or.inr ⟨n, hn, heq⟩⟩
    intro hk
    have hword : word 63 (skipSpaces line) = str "alu" := hk.1
    rw [heq, word_ddfExpect] at hword
    exact absurd hword (by decide)
  rw [htry] at hcases
  have haction := (hcases.resolve_left fun h => Bool.noConfusion h.1).2
  have hdisarmed : Machine.trap { m with ddfWaitingSecret := false } = none := rfl
  unfold Divides
  dsimp only at haction ⊢
  generalize word 63 (skipSpaces line) = name at haction ⊢
  generalize skipSpaces ((skipSpaces line).drop name.length) = args at haction ⊢
  by_cases hname : name = str "alu"
  · subst hname
    obtain ⟨msg, halu⟩ := commandAction_alu haction h
    obtain ⟨htrap, hunlocked⟩ := cmdAlu_trap hdisarmed halu
    exact ⟨fun n => by rw [htrap, and_iff_right rfl], fun hu => Or.inl (hunlocked ▸ hu)⟩
  · obtain ⟨htrap, hunlocked⟩ := commandAction_other haction hname h
    refine ⟨fun n => ⟨?_, fun hn => absurd hn.1 hname⟩, fun hu => Or.inl (hunlocked hu)⟩
    intro hn
    rw [htrap, hdisarmed] at hn
    cases hn

/-- The sentence is consumed. -/
theorem shellAction_secret {m : Machine} {line : Str} {n : Int32} (ht : m.trap = some n)
    (heq : skipSpaces line = ddfExpect n) :
    shellAction m line = .done { m with ddfWaitingSecret := false, ddfUnlocked := true } := by
  have hne : skipSpaces line ≠ [] := by
    rw [heq]
    exact ddfExpect_ne_nil n
  have hcases := shellAction_cases m hne
  rcases ddfTrySecret_cases m (skipSpaces line) with ⟨k, -, -, htry⟩ | ⟨hno, -⟩
  · rw [htry] at hcases
    exact (hcases.resolve_right fun h => Bool.noConfusion h.1).2
  · exact absurd heq (hno n ht)

/-- The console is locked, and the line unlocks it. -/
def Unlocks (c : Machine × Str) : Prop :=
  c.1.ddfUnlocked = false ∧ (shellAction c.1 c.2).state.any Machine.ddfUnlocked = true

instance (c : Machine × Str) : Decidable (Unlocks c) := inferInstanceAs (Decidable (_ ∧ _))

theorem unlocks_iff {c : Machine × Str} :
    Unlocks c ↔ c.1.ddfUnlocked = false ∧ ∃ n, c.1.trap = some n ∧ skipSpaces c.2 = ddfExpect n := by
  unfold Unlocks
  refine and_congr_right fun hlocked => ⟨?_, ?_⟩
  · intro h
    obtain ⟨m', hs, hu⟩ := (Option.any_eq_true _ _).1 h
    by_cases hb : skipSpaces c.2 = []
    · rw [shellAction_blank hb] at hs
      cases hs
      rw [hlocked] at hu
      cases hu
    · rcases (shellAction_trap hb hs).2 hu with h | h
      · rw [hlocked] at h
        cases h
      · exact h
  · rintro ⟨n, ht, heq⟩
    rw [shellAction_secret ht heq]
    rfl

/-! ## The lines that a line runs -/

/-- The calls with a line that is not blank. -/
def notBlank (cs : List (Machine × Str)) : List (Machine × Str) := cs.filter fun c => skipSpaces c.2 ≠ []

/-- From one line that is run to the next, the trapdoor is armed by the first. -/
def Arms (c c' : Machine × Str) : Prop := ∀ n, c'.1.trap = some n ↔ Divides c.2 n

theorem notBlank_cons {c : Machine × Str} {cs : List (Machine × Str)} (hc : skipSpaces c.2 ≠ []) :
    notBlank (c :: cs) = c :: notBlank cs := List.filter_cons_of_pos (by simpa using hc)

theorem notBlank_cons_blank {c : Machine × Str} {cs : List (Machine × Str)} (hc : skipSpaces c.2 = []) :
    notBlank (c :: cs) = notBlank cs := List.filter_cons_of_neg (by simpa using hc)

/-- **Along a trace** each line finds the trapdoor as the line before it left it. -/
theorem trace_trap {m : Machine} {cs : List (Machine × Str)} {o : Option Machine} (h : Trace shellAction m cs o) :
    (∀ c ∈ (notBlank cs).head?, c.1.trap = m.trap) ∧ (notBlank cs).IsChain Arms ∧
      ∀ m', o = some m' → ∀ n, m'.trap = some n ↔ match (notBlank cs).getLast? with
        | none => m.trap = some n
        | some c => Divides c.2 n := by
  induction h with
  | nil m => exact ⟨fun c hc => (by cases hc), .nil, fun m' hm' n => by cases hm'; rfl⟩
  | cut m => exact ⟨fun c hc => (by cases hc), .nil, fun m' hm' => by cases hm'⟩
  | @stop m line hs =>
    by_cases hb : skipSpaces line = []
    · rw [shellAction_blank hb] at hs
      cases hs
    · rw [notBlank_cons hb]
      exact ⟨fun c hc => (by cases hc; rfl), .singleton _, fun m' hm' => by cases hm'⟩
  | @cons m line m₁ cs o hs _ ih =>
    obtain ⟨hhead, hchain, hlast⟩ := ih
    by_cases hb : skipSpaces line = []
    · rw [notBlank_cons_blank hb]
      rw [shellAction_blank hb] at hs
      cases hs
      exact ⟨hhead, hchain, hlast⟩
    · have htrap := (shellAction_trap hb hs).1
      rw [notBlank_cons hb]
      refine ⟨fun c hc => (by cases hc; rfl), hchain.cons ?_, ?_⟩
      · intro c hc n
        rw [hhead c hc, htrap]
      · intro m' hm' n
        rw [hlast m' hm', List.getLast?_cons]
        cases (notBlank cs).getLast? with
        | none => exact htrap n
        | some c => exact Iff.rfl

/-! ## The lines typed -/

/-- A line as it is typed: the machine and the `run_depth` it meets, and its text. -/
abbrev Typed := Machine × ℤ × Str

/-- The lines that a typed line runs, itself first, that are not blank. -/
def runs (fuel : ℕ) (p : Typed) : List (Machine × Str) :=
  notBlank (calls shellAction runPolicy 8 fuel 0 p.2.1 p.1 p.2.2)

/-- The line before, blank ones aside. -/
def lastLine (typed : List Typed) : Option Typed := typed.find? fun p => skipSpaces p.2.2 ≠ []

/-- The last line that a typed line ran divided `n` by zero. -/
def EndsDividing (p : Typed) (n : Int32) : Prop :=
  ∃ fuel m' d', (run fuel p.2.1 p.1 p.2.2).ending = .returned m' d' ∧
    ∃ c, (runs fuel p).getLast? = some c ∧ Divides c.2 n

/-- The line before ended with a division by zero, and this is the sentence for it. -/
def Answers (typed : List Typed) (line : Str) : Prop :=
  ∃ prev n, lastLine typed = some prev ∧ EndsDividing prev n ∧ skipSpaces line = secret n

/-- **The console is gated** against a line: it is unlocked by the answer only, and the
trapdoor is disarmed, unless the line itself ends with a division by zero. -/
def Gated (typed : List Typed) (p : Typed) : Prop :=
  (∀ fuel, ∀ c ∈ calls shellAction runPolicy 8 fuel 0 p.2.1 p.1 p.2.2, Unlocks c → Answers typed p.2.2) ∧
    ∀ d' m', Returns p.2.1 p.1 p.2.2 d' m' → skipSpaces p.2.2 ≠ [] → m'.ddfWaitingSecret = true →
      ∃ n, EndsDividing p n

theorem runs_cons (fuel : ℕ) (m : Machine) (d : ℤ) {line : Str} (hne : skipSpaces line ≠ []) :
    ∃ cs, runs (fuel + 1) (m, d, line) = (m, line) :: cs := by
  unfold runs
  rw [calls]
  exact ⟨_, notBlank_cons hne⟩

/-- After a line that is not blank, the trapdoor is armed by the last line it ran. -/
theorem run_trap {m m' : Machine} {d d' : ℤ} {line : Str} {fuel : ℕ} (hne : skipSpaces line ≠ [])
    (h : (run fuel d m line).ending = .returned m' d') (n : Int32) :
    m'.trap = some n ↔ ∃ c, (runs fuel (m, d, line)).getLast? = some c ∧ Divides c.2 n := by
  have htrace : Trace shellAction m (calls shellAction runPolicy 8 fuel 0 d m line) (run fuel d m line).ending.state :=
    dispatch_trace fuel 0 d m line
  rw [(trace_trap htrace).2.2 m' (by rw [h]; rfl) n]
  cases fuel with
  | zero => cases h
  | succ fuel =>
    obtain ⟨cs, hcs⟩ := runs_cons fuel m d hne
    have hlast : (runs (fuel + 1) (m, d, line)).getLast? = some (cs.getLast?.getD (m, line)) := by
      rw [hcs, List.getLast?_cons]
    unfold runs at hlast
    unfold runs
    dsimp only at hlast ⊢
    rw [hlast]
    simp only [Option.some.injEq, exists_eq_left']

theorem Returns.trap_iff {m m' : Machine} {d d' : ℤ} {line : Str} (hne : skipSpaces line ≠ [])
    (h : Returns d m line d' m') (n : Int32) : m'.trap = some n ↔ EndsDividing (m, d, line) n := by
  obtain ⟨fuel, hf⟩ := h
  constructor
  · intro ht
    exact ⟨fuel, m', d', hf, (run_trap hne hf n).1 ht⟩
  · rintro ⟨fuel', m'', d'', hf', hlast⟩
    have huniq : run fuel d m line = run fuel' d m line :=
      dispatch_unique (by change (run fuel d m line).ending ≠ _; rw [hf]; exact fun h => by cases h)
        (by change (run fuel' d m line).ending ≠ _; rw [hf']; exact fun h => by cases h)
    rw [huniq, hf'] at hf
    cases hf
    exact (run_trap hne hf' n).2 hlast

/-- A blank line changes nothing. -/
theorem Returns.blank {m m' : Machine} {d d' : ℤ} {line : Str} (hb : skipSpaces line = [])
    (h : Returns d m line d' m') : m' = m := by
  obtain ⟨fuel, hf⟩ := h
  cases fuel with
  | zero => cases hf
  | succ fuel =>
    rw [run, dispatch, shellAction_blank hb] at hf
    cases hf
    rfl

/-- **At the prompt** the trapdoor is armed exactly if the line before, blank ones aside,
ended with a division by zero. -/
theorem Session.trap_iff {m₀ m : Machine} {typed : List Typed} {d : ℤ} (h₀ : m₀.trap = none)
    (h : Session m₀ typed m d) (n : Int32) :
    m.trap = some n ↔ ∃ prev, lastLine typed = some prev ∧ EndsDividing prev n := by
  induction h with
  | start =>
    rw [h₀]
    constructor
    · intro h; cases h
    · rintro ⟨prev, hprev, -⟩; cases hprev
  | @line typed m d line m' d' _ hr ih =>
    unfold lastLine
    by_cases hb : skipSpaces line = []
    · rw [List.find?_cons_of_neg (by simpa using hb), hr.blank hb]
      exact ih
    · rw [List.find?_cons_of_pos (by simpa using hb), hr.trap_iff hb]
      simp only [Option.some.injEq, exists_eq_left']

/-! ## What is gated -/

/-- A line after the first has a line before it. -/
theorem exists_before {α : Type} {a b : α} {l : List α} (hb : b ∈ l) : ∃ c, [c, b] <:+: a :: l := by
  obtain ⟨l₁, l₂, rfl⟩ := List.append_of_mem hb
  rcases List.eq_nil_or_concat l₁ with rfl | ⟨l', c, rfl⟩
  · exact ⟨a, [], l₂, rfl⟩
  · exact ⟨c, a :: l', l₂, by simp⟩

/-- No line that a typed line runs is the sentence for a division by zero that the line run
before it made, at least while the console is locked. -/
def NoneAnswers (p : Typed) : Prop :=
  ∀ fuel c c', [c, c'] <:+: runs fuel p → ∀ n, Divides c.2 n → skipSpaces c'.2 = ddfExpect n →
    c'.1.ddfUnlocked = true

/-- The line before ended with a division of `INT_MIN` by zero. -/
def AfterMin (typed : List Typed) : Prop := ∃ prev, lastLine typed = some prev ∧ EndsDividing prev Int32.minValue

/-- Two lines that a typed line runs, one after the other. -/
theorem runs_pair {fuel : ℕ} {p : Typed} {c c' : Machine × Str} (h : [c, c'] <:+: runs fuel p) :
    Arms c c' ∧ c' ∈ calls shellAction runPolicy 8 fuel 0 p.2.1 p.1 p.2.2 := by
  have htrace : Trace shellAction p.1 (calls shellAction runPolicy 8 fuel 0 p.2.1 p.1 p.2.2) _ :=
    dispatch_trace fuel 0 p.2.1 p.1 p.2.2
  obtain ⟨l₁, l₂, heq⟩ := h
  have hchain := (trace_trap htrace).2.1
  have hmem : c' ∈ runs fuel p := by
    rw [← heq]
    simp
  rw [show notBlank _ = l₁ ++ c :: c' :: l₂ by simpa [runs] using heq.symm, List.isChain_append_cons_cons] at hchain
  exact ⟨hchain.2.1, (List.mem_filter.1 hmem).1⟩

/-- The sentence runs nothing further. -/
theorem runs_secret {m : Machine} {d : ℤ} {line : Str} {n : Int32} (ht : m.trap = some n)
    (heq : skipSpaces line = ddfExpect n) (fuel : ℕ) {c c' : Machine × Str} :
    ¬ [c, c'] <:+: runs fuel (m, d, line) := by
  intro h
  have hlen := h.length_le
  have hle : (runs fuel (m, d, line)).length ≤ 1 := by
    refine (List.length_filter_le _ _).trans ?_
    cases fuel with
    | zero => exact Nat.zero_le _
    | succ fuel =>
      rw [calls, shellAction_secret ht heq]
      exact le_rfl
  rw [List.length_cons, List.length_singleton] at hlen
  omega

/-- A call that unlocks the console is the typed line, or answers the call before it. -/
theorem unlocks_cases {fuel : ℕ} {m : Machine} {d : ℤ} {line : Str} {c : Machine × Str}
    (hc : c ∈ calls shellAction runPolicy 8 fuel 0 d m line) (h : Unlocks c) :
    c = (m, line) ∨ ∃ c₀ n, [c₀, c] <:+: runs fuel (m, d, line) ∧ Divides c₀.2 n ∧ skipSpaces c.2 = ddfExpect n := by
  obtain ⟨-, n, ht, heq⟩ := unlocks_iff.1 h
  have hcne : skipSpaces c.2 ≠ [] := by
    rw [heq]
    exact ddfExpect_ne_nil n
  have hruns : c ∈ runs fuel (m, d, line) := List.mem_filter.2 ⟨hc, by simpa using hcne⟩
  cases fuel with
  | zero => cases hc
  | succ fuel =>
    by_cases hne : skipSpaces line = []
    · -- a blank line runs nothing
      rw [calls, shellAction_blank hne, List.mem_singleton] at hc
      exact Or.inl hc
    obtain ⟨cs, hcs⟩ := runs_cons fuel m d hne
    rw [hcs, List.mem_cons] at hruns
    rcases hruns with rfl | hin
    · exact Or.inl rfl
    · obtain ⟨c₀, hpair⟩ := exists_before (a := (m, line)) hin
      rw [← hcs] at hpair
      exact Or.inr ⟨c₀, n, hpair, ((runs_pair hpair).1 n).1 ht, heq⟩

theorem boot_trap {w : World} {m₀ : Machine} (hb : Machine.boot w = some m₀) : m₀.trap = none := by
  obtain ⟨w', -, hm⟩ := Option.bind_eq_some_iff.1 hb
  cases hm
  rfl

/-- The answer, told by the trapdoor. -/
theorem Session.answers_iff {m₀ m : Machine} {typed : List Typed} {d : ℤ} (h₀ : m₀.trap = none)
    (h : Session m₀ typed m d) (line : Str) :
    Answers typed line ↔ ∃ n, m.trap = some n ∧ skipSpaces line = secret n := by
  constructor
  · rintro ⟨prev, n, hprev, hends, heq⟩
    exact ⟨n, (h.trap_iff h₀ n).2 ⟨prev, hprev, hends⟩, heq⟩
  · rintro ⟨n, ht, heq⟩
    obtain ⟨prev, hprev, hends⟩ := (h.trap_iff h₀ n).1 ht
    exact ⟨prev, n, hprev, hends, heq⟩

/-- **What the trapdoor guards.** At any prompt, the console is gated against a line
exactly if no line that it runs answers the one run before it, and it is not the sentence
without the number that `INT_MIN` is printed as; or if it is the sentence with that
number, which does not unlock. -/
theorem ddf_gated_iff {w : World} {m₀ m : Machine} {typed : List Typed} {d : ℤ} (hb : Machine.boot w = some m₀)
    (hs : Session m₀ typed m d) (line : Str) :
    Gated typed (m, d, line) ↔
      (NoneAnswers (m, d, line) ∧
        ¬ (m.ddfUnlocked = false ∧ AfterMin typed ∧ skipSpaces line = ddfExpect Int32.minValue)) ∨
      (AfterMin typed ∧ skipSpaces line = secret Int32.minValue) := by
  have hmin : AfterMin typed ↔ m.trap = some Int32.minValue := (hs.trap_iff (boot_trap hb) _).symm
  unfold Gated
  rw [hs.answers_iff (boot_trap hb), hmin]
  constructor
  · rintro ⟨hgate, -⟩
    by_cases hcorner : m.trap = some Int32.minValue ∧ skipSpaces line = secret Int32.minValue
    · exact Or.inr hcorner
    refine Or.inl ⟨?_, ?_⟩
    · intro fuel c c' hpair n hdiv heq
      by_contra hlocked
      obtain ⟨harms, hmem⟩ := runs_pair hpair
      have hunlocks : Unlocks c' := unlocks_iff.2 ⟨by simpa using hlocked, n, (harms n).2 hdiv, heq⟩
      obtain ⟨k, ht, hline⟩ := hgate fuel c' hmem hunlocks
      -- the typed line is the sentence, and is consumed
      have hk : k ≠ Int32.minValue := by
        rintro rfl
        exact hcorner ⟨ht, hline⟩
      exact runs_secret ht (hline.trans (ddfExpect_eq hk).symm) fuel hpair
    · rintro ⟨hlocked, ht, heq⟩
      have hunlocks : Unlocks (m, line) := unlocks_iff.2 ⟨hlocked, _, ht, heq⟩
      obtain ⟨k, hk, hline⟩ := hgate 1 (m, line) List.mem_cons_self hunlocks
      rw [ht, Option.some.injEq] at hk
      subst hk
      exact ddfExpect_minValue.2 (heq.symm.trans hline)
  · intro hclear
    refine ⟨fun fuel c hc hunlocks => ?_, fun d' m' hr hne hw => ?_⟩
    swap
    · exact ⟨m'.ddfLastNumerator, (hr.trap_iff hne _).1 (if_pos hw)⟩
    rcases hclear with ⟨hnone, hnomin⟩ | hcorner
    swap
    · exact ⟨_, hcorner⟩
    obtain ⟨hlocked, n, ht, heq⟩ := unlocks_iff.1 hunlocks
    rcases unlocks_cases hc hunlocks with rfl | ⟨c₀, k, hpair, hdiv, hk⟩
    · refine ⟨n, ht, heq.trans (ddfExpect_eq ?_)⟩
      rintro rfl
      exact hnomin ⟨hlocked, ht, heq⟩
    · rw [hnone _ _ _ hpair k hdiv hk] at hlocked
      cases hlocked

/-- The answer to a division of 5 unlocks the console, and that is all right. -/
theorem ddf_gated_five : ∃ m₀ typed m, bareBoot = some m₀ ∧ Session m₀ typed m 0 ∧
    linesOf typed = [str "alu 5 0 /"] ∧ Unlocks (m, str "actually 5 divided by 0 is undefined") ∧
    Gated typed (m, 0, str "actually 5 divided by 0 is undefined") := by
  have h : (bareAfter 2 [str "alu 5 0 /"]).any (fun p => p.2 = 0 ∧ p.1.trap = some 5 ∧
      Unlocks (p.1, str "actually 5 divided by 0 is undefined")) = true := by decide +kernel
  obtain ⟨m₀, typed, m, d, hb, hs, hl, hp⟩ := bareAfter_session h
  obtain ⟨rfl, ht, hunlocks⟩ := of_decide_eq_true hp
  have hline : skipSpaces (str "actually 5 divided by 0 is undefined") = ddfExpect 5 := by decide +kernel
  have hnone : NoneAnswers (m, 0, str "actually 5 divided by 0 is undefined") :=
    fun fuel c c' hpair => absurd hpair (runs_secret ht hline fuel)
  have hnomin : skipSpaces (str "actually 5 divided by 0 is undefined") ≠ ddfExpect Int32.minValue := by
    decide +kernel
  exact ⟨m₀, typed, m, hb, hs, hl, hunlocks, (ddf_gated_iff hb hs _).2 (Or.inl ⟨hnone, fun h => hnomin h.2.2⟩)⟩

/-- **A line that is no answer unlocks the console**: its first round divides by zero, and
its second is the sentence. -/
theorem ddf_unlocked_within : ∃ m₀ typed m, bareBoot = some m₀ ∧ Session m₀ typed m 0 ∧
    linesOf typed = [str "alias actually alu 5 0 /"] ∧
    ¬ Gated typed (m, 0, str "repeat 2 actually 5 divided by 0 is undefined") := by
  have h : (bareAfter 2 [str "alias actually alu 5 0 /"]).any (fun p => p.2 = 0 ∧
      ∃ c ∈ calls shellAction runPolicy 8 4 0 0 p.1 (str "repeat 2 actually 5 divided by 0 is undefined"),
        Unlocks c) = true := by decide +kernel
  obtain ⟨m₀, typed, m, d, hb, hs, hl, hp⟩ := bareAfter_session h
  obtain ⟨rfl, c, hc, hunlocks⟩ := of_decide_eq_true hp
  refine ⟨m₀, typed, m, hb, hs, hl, ?_⟩
  intro hgated
  obtain ⟨_, n, -, -, heq⟩ := hgated.1 4 c hc hunlocks
  have heq : skipSpaces (str "repeat 2 actually 5 divided by 0 is undefined") = secret n := heq
  -- the sentence does not start with an r
  have hhead : (secret n).head? = (str "actually").head? := rfl
  rw [← heq] at hhead
  exact absurd hhead (by decide)

end DahleOS
