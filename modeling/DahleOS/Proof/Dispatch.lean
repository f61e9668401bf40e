import DahleOS.Lib.Policies
import DahleOS.Model.Shell

/-!
# Alias expansion

What the guard of `run` achieves. It is compared with a guard that leaves `run_depth` alone
when it refuses (`keepRun`).

* `shellAction_cases`: what one call of `run` can do.
* `keepRun_ends`: with that guard, every line ends, with at most 9 active expansions.
* `run_bounded_iff`: when `run` does.
* `run_depth_restored_iff`: when `run_depth` is what it was.
-/

namespace DahleOS

open Expander

/-- The guard without its assignment. -/
def keepPolicy : Policy Str Expansion := ⟨id, aliasLine⟩

/-- `run` with that guard. -/
def keepRun (fuel : ℕ) (depth : ℤ) (m : Machine) (line : Str) : Result Machine Stop :=
  dispatch shellAction keepPolicy 8 fuel 0 depth m line

/-! ## Lines -/

theorem length_skipSpaces_le (s : Str) : (skipSpaces s).length ≤ s.length :=
  (List.dropWhile_suffix _).length_le

theorem ddfTrySecret_toWorld (m : Machine) (input : Str) : (ddfTrySecret m input).2.toWorld = m.toWorld := by
  unfold ddfTrySecret
  dsimp only
  split_ifs <;> rfl

/-- What `repeat` repeats is shorter than its arguments. -/
theorem length_of_repeatArgs {args subcmd : Str} {n : ℕ} (h : repeatArgs args = some (n, subcmd)) :
    subcmd.length ≤ args.length := by
  unfold repeatArgs at h
  simp only at h
  split_ifs at h
  simp only [Option.some.injEq, Prod.mk.injEq] at h
  rw [← h.2]
  exact le_trans (length_skipSpaces_le _) (by simp)

/-- A command is found under its own name. -/
theorem mem_of_find_cmd {name n : Str} {c : Builtin}
    (h : (cmdTable.find? fun e => strcmp e.1 name = 0) = some (n, c)) : (name, c) ∈ cmdTable := by
  have hn := List.find?_some h
  obtain rfl : n = name := strcmp_eq_zero.1 (by simpa using hn)
  exact List.mem_of_find?_eq_some h

theorem mem_loop {name : Str} (h : (name, Builtin.loop) ∈ cmdTable) : name = str "repeat" := by
  simpa [cmdTable] using h

theorem mem_load {name : Str} (h : (name, Builtin.load) ∈ cmdTable) : name = str "load" := by
  simpa [cmdTable] using h

/-- **What a command does**, its name and arguments taken apart, once the trapdoor has let
the line through. -/
inductive CommandAction (m : Machine) (name args : Str) : Action Machine Str Expansion Stop → Prop
  | ddf : name = str "ddf" → CommandAction m name args (finish (ddfCommand m args))
  | builtin {c : Builtin} : (name, c) ∈ cmdTable → c ≠ .loop → CommandAction m name args (finish (c.exec m args))
  | loop {n : ℕ} {subcmd : Str} : name = str "repeat" → repeatArgs args = some (n, subcmd) →
    CommandAction m name args (.loop m n subcmd)
  | usage : name = str "repeat" → CommandAction m name args (.done m)
  | expand {value : Str} : (∀ c, (name, c) ∉ cmdTable) → aliasResolve m.aliases name = some (some value) →
    CommandAction m name args (.expand m (value, args))
  | unknown : (∀ c, (name, c) ∉ cmdTable) → CommandAction m name args (.done m)
  | fault : aliasResolve m.aliases name = none → CommandAction m name args (.stop .fault)

/-- **One call of `run`** with a line that is not blank. -/
theorem shellAction_cases (m : Machine) {line : Str} (hne : skipSpaces line ≠ []) :
    ((ddfTrySecret m (skipSpaces line)).1 = true ∧
      shellAction m line = .done (ddfTrySecret m (skipSpaces line)).2) ∨
    ((ddfTrySecret m (skipSpaces line)).1 = false ∧
      CommandAction (ddfTrySecret m (skipSpaces line)).2 (word 63 (skipSpaces line))
        (skipSpaces ((skipSpaces line).drop (word 63 (skipSpaces line)).length)) (shellAction m line)) := by
  unfold shellAction
  dsimp only
  rw [if_neg hne]
  generalize ddfTrySecret m (skipSpaces line) = tried
  obtain ⟨consumed, m'⟩ := tried
  dsimp only
  cases consumed with
  | true => exact Or.inl ⟨rfl, rfl⟩
  | false =>
    refine Or.inr ⟨rfl, ?_⟩
    rw [if_neg (by decide)]
    split
    · rename_i hddf
      exact .ddf (strcmp_eq_zero.1 hddf)
    · split
      · rename_i hfind
        have hname := mem_loop (mem_of_find_cmd hfind)
        split
        · exact .loop hname ‹_›
        · exact .usage hname
      · rename_i c hloop hfind
        exact .builtin (mem_of_find_cmd hfind) hloop
      · rename_i hfind
        have hnone : ∀ c, (word 63 (skipSpaces line), c) ∉ cmdTable := by
          intro c hc
          have hno := List.find?_eq_none.1 hfind _ hc
          simp only [decide_eq_true_eq] at hno
          exact hno (strcmp_eq_zero.2 rfl)
        split
        · exact .expand hnone ‹_›
        · exact .unknown hnone
        · exact .fault ‹_›

theorem shellAction_blank {line : Str} (hb : skipSpaces line = []) (m : Machine) : shellAction m line = .done m := by
  unfold shellAction
  dsimp only
  rw [if_pos hb]

theorem finish_ne_loop (r : Except Stop Machine) {m : Machine} {n : ℕ} {line : Str} :
    finish r ≠ .loop m n line := by
  cases r <;> exact fun h => by cases h

/-- A line that is run again is shorter than the line that asks for it. -/
theorem length_of_loop {m m' : Machine} {line subcmd : Str} {n : ℕ}
    (h : shellAction m line = .loop m' n subcmd) : subcmd.length < line.length := by
  by_cases hblank : skipSpaces line = []
  · rw [shellAction_blank hblank] at h
    cases h
  rcases shellAction_cases m hblank with ⟨-, hdone⟩ | ⟨-, haction⟩
  · rw [hdone] at h
    cases h
  generalize shellAction m line = action at haction h
  cases haction with
  | ddf _ => exact absurd h (finish_ne_loop _)
  | builtin _ _ => exact absurd h (finish_ne_loop _)
  | loop hword hargs =>
    cases h
    -- the word `repeat` is gone, and nothing was put in its place
    have h1 := length_of_repeatArgs hargs
    have h2 := length_skipSpaces_le ((skipSpaces line).drop (word 63 (skipSpaces line)).length)
    have h3 := length_skipSpaces_le line
    have h4 : (str "repeat").length = 6 := by decide
    have h5 : 0 < (skipSpaces line).length := List.length_pos_iff.2 hblank
    rw [List.length_drop, hword, h4] at h2
    rw [hword, h4] at h1
    omega
  | usage _ => cases h
  | expand _ _ => cases h
  | unknown _ => cases h
  | fault _ => cases h

/-! ## Sessions -/

/-- `run_depth` only ever sinks. -/
theorem Returns.depth_le {d d' : ℤ} {m m' : Machine} {line : Str} (h : Returns d m line d' m') : d' ≤ d := by
  obtain ⟨fuel, hf⟩ := h
  have := depth_resets (P := runPolicy) (fun _ => rfl) hf
  have : (0 : ℤ) ≤ (8 + 1) * ((dispatch shellAction runPolicy 8 fuel 0 d m line).refused : ℤ) := by positivity
  omega

theorem Session.depth_nonpos {m₀ m : Machine} {typed : List (Machine × ℤ × Str)} {d : ℤ}
    (h : Session m₀ typed m d) : d ≤ 0 := by
  induction h with
  | start => exact le_rfl
  | line _ hr ih => exact le_trans hr.depth_le ih

/-- The lines that were typed. -/
def linesOf (typed : List (Machine × ℤ × Str)) : List Str := typed.map fun p => p.2.2

/-- A session evaluated, with the same fuel for every line. -/
def typeLines (fuel : ℕ) : List Str → Machine → ℤ → Option (Machine × ℤ)
  | [], m, d => some (m, d)
  | line :: lines, m, d => match (run fuel d m line).ending with
    | .returned m d => typeLines fuel lines m d
    | _ => none

theorem Session.typeLines {m₀ : Machine} {fuel : ℕ} {lines : List Str} {typed : List (Machine × ℤ × Str)}
    {m m' : Machine} {d d' : ℤ} (h : Session m₀ typed m d) (hl : typeLines fuel lines m d = some (m', d')) :
    ∃ typed', Session m₀ typed' m' d' ∧ linesOf typed' = lines.reverse ++ linesOf typed := by
  induction lines generalizing typed m d with
  | nil =>
    simp only [DahleOS.typeLines, Option.some.injEq, Prod.mk.injEq] at hl
    obtain ⟨rfl, rfl⟩ := hl
    exact ⟨typed, h, rfl⟩
  | cons line lines ih =>
    simp only [DahleOS.typeLines] at hl
    cases hr : (run fuel d m line).ending with
    | returned m₁ d₁ =>
      rw [hr] at hl
      obtain ⟨typed', hs, ht⟩ := ih (h.line ⟨fuel, hr⟩) hl
      exact ⟨typed', hs, by rw [ht]; simp [linesOf]⟩
    | stopped why => rw [hr] at hl; cases hl
    | overflow => rw [hr] at hl; cases hl
    | outOfFuel => rw [hr] at hl; cases hl

/-- A machine without a drive, switched on. -/
def bareBoot : Option Machine := Machine.boot (World.cleared ⟨fun _ => 0, fun _ _ => .timeout⟩)

/-- That machine, with its `run_depth`, after some lines. -/
def bareAfter (fuel : ℕ) (lines : List Str) : Option (Machine × ℤ) :=
  bareBoot.bind fun m => typeLines fuel lines m 0

theorem bareAfter_session {fuel : ℕ} {lines : List Str} {p : Machine × ℤ → Bool}
    (h : (bareAfter fuel lines).any p = true) : ∃ m₀ typed m d, bareBoot = some m₀ ∧
      Session m₀ typed m d ∧ linesOf typed = lines.reverse ∧ p (m, d) = true := by
  obtain ⟨⟨m, d⟩, hm, hp⟩ := (Option.any_eq_true _ _).1 h
  obtain ⟨m₀, hb, ht⟩ := Option.bind_eq_some_iff.1 hm
  obtain ⟨typed, hs, hl⟩ := Session.start.typeLines ht
  exact ⟨m₀, typed, m, d, hb, hs, by simpa [linesOf] using hl, hp⟩

/-! ## Termination -/

/-- **With a guard that keeps `run_depth`, every line ends.** -/
theorem keepRun_ends (d : ℤ) (m : Machine) (line : Str) : ∃ fuel, (keepRun fuel d m line).ending ≠ .outOfFuel :=
  keeps_terminates (fun _ => rfl) List.length (fun _ _ _ _ _ => length_of_loop) 0 d m line

theorem keepRun_peak (fuel : ℕ) (m : Machine) (line : Str) : (keepRun fuel 0 m line).peak ≤ 9 := by
  have h : ((keepRun fuel 0 m line).peak : ℤ) ≤ 8 + 1 := peak_keeps (fun _ => rfl) rfl (by decide)
  exact_mod_cast h

/-- **When a line ends with at most 9 active expansions**: the guard that keeps
`run_depth` has at most one expansion to refuse; none, if `run_depth` has drifted already.
`ok` says which stops count as an end. -/
theorem run_bounded_iff {m₀ m : Machine} {typed : List (Machine × ℤ × Str)} {d : ℤ} (h : Session m₀ typed m d)
    (ok : Stop → Prop) (line : Str) :
    (∃ fuel, (run fuel d m line).ending.Ends ok ∧ (run fuel d m line).peak ≤ 9) ↔
      ∃ fuel, (keepRun fuel 0 m line).ending.Ends ok ∧
        (keepRun fuel 0 m line).refused ≤ if d = 0 then 1 else 0 := by
  unfold run keepRun
  rw [← resets_bounded_iff (P := runPolicy) (Q := keepPolicy) (fun _ => rfl) (fun _ => rfl) rfl (by decide)
    h.depth_nonpos]
  refine exists_congr fun fuel => and_congr_right ?_
  intro _
  exact_mod_cast Iff.rfl

/-- Two aliases that expand to each other are stopped in time. -/
theorem run_bounded_mutual : ∃ m₀ typed m, bareBoot = some m₀ ∧ Session m₀ typed m 0 ∧
    linesOf typed = [str "alias b a", str "alias a b"] ∧
    ∃ fuel, (run fuel 0 m (str "a")).ending.Ends (fun _ => False) ∧ (run fuel 0 m (str "a")).peak ≤ 9 := by
  have h : (bareAfter 2 [str "alias a b", str "alias b a"]).any (fun p => p.2 = 0 ∧
      (keepRun 12 0 p.1 (str "a")).ending.Ends (fun _ => False) ∧
      (keepRun 12 0 p.1 (str "a")).refused ≤ 1) = true := by decide +kernel
  obtain ⟨m₀, typed, m, d, hb, hs, hl, hp⟩ := bareAfter_session h
  obtain ⟨rfl, hk⟩ := of_decide_eq_true hp
  exact ⟨m₀, typed, m, hb, hs, hl, (run_bounded_iff hs _ _).2 ⟨12, hk⟩⟩

/-- **An alias that repeats itself is not**: the first refusal clears the counter, and the
second round starts again from there. -/
theorem run_unbounded : ∃ m₀ typed m, bareBoot = some m₀ ∧ Session m₀ typed m 0 ∧
    linesOf typed = [str "alias a repeat 2 a"] ∧
    ¬ ∃ fuel, (run fuel 0 m (str "a")).ending.Ends (fun _ => True) ∧ (run fuel 0 m (str "a")).peak ≤ 9 := by
  have h : (bareAfter 2 [str "alias a repeat 2 a"]).any
      (fun p => p.2 = 0 ∧ 9 < (run 24 0 p.1 (str "a")).peak) = true := by decide +kernel
  obtain ⟨m₀, typed, m, d, hb, hs, hl, hp⟩ := bareAfter_session h
  obtain ⟨rfl, hdeep⟩ := of_decide_eq_true hp
  refine ⟨m₀, typed, m, hb, hs, hl, ?_⟩
  rintro ⟨fuel, hends, hle⟩
  -- a run that ends is at least as deep as any run cut short
  have hmono : (run 24 0 m (str "a")).peak ≤ (run fuel 0 m (str "a")).peak :=
    peak_le_of_ends hends.ne_outOfFuel
  exact absurd (lt_of_lt_of_le hdeep (le_trans hmono hle)) (lt_irrefl 9)

/-! ## The counter -/

theorem run_eq_keepRun {fuel : ℕ} {d : ℤ} {m : Machine} {line : Str} (h : (keepRun fuel d m line).refused = 0) :
    run fuel d m line = keepRun fuel d m line := by
  have heq : run fuel d m line = (keepRun fuel d m line).shift (d - d) :=
    dispatch_shift (P := runPolicy) (Q := keepPolicy) rfl fuel 0 m line le_rfl h
  rwa [sub_self, shift_zero] at heq

theorem refused_run_iff {fuel : ℕ} {d : ℤ} {m : Machine} {line : Str} :
    (run fuel d m line).refused = 0 ↔ (keepRun fuel d m line).refused = 0 :=
  refused_zero_iff (P := runPolicy) (Q := keepPolicy) rfl fuel 0 d m line

/-- The line has no expansion to refuse. -/
def Unrefused (d : ℤ) (m : Machine) (line : Str) : Prop :=
  ∃ fuel, (keepRun fuel d m line).ending ≠ .outOfFuel ∧ (keepRun fuel d m line).refused = 0

/-- One line leaves `run_depth` as it was exactly if nothing is refused. -/
theorem Returns.depth_eq_iff {d d' : ℤ} {m m' : Machine} {line : Str} (h : Returns d m line d' m') :
    d' = d ↔ Unrefused d m line := by
  obtain ⟨fuel, hf⟩ := h
  have hends : (run fuel d m line).ending ≠ .outOfFuel := by rw [hf]; exact fun h => by cases h
  -- every refusal costs the counter nine
  have hcost : d' + (8 + 1) * ((run fuel d m line).refused : ℤ) ≤ d := depth_resets (fun _ => rfl) hf
  constructor
  · rintro rfl
    have h0 := refused_run_iff.1 (show (run fuel d' m line).refused = 0 by omega)
    exact ⟨fuel, by rwa [← run_eq_keepRun h0], h0⟩
  · -- the guards agree where neither refuses, and a line that ends has one run only
    rintro ⟨fuel', hends', h0⟩
    have heq := run_eq_keepRun h0
    have huniq : run fuel d m line = run fuel' d m line := dispatch_unique hends (by
      change (run fuel' d m line).ending ≠ .outOfFuel
      rwa [heq])
    refine depth_of_refused_zero hf ?_
    change (run fuel d m line).refused = 0
    rwa [huniq, heq]

/-- **When `run_depth` is what it was**: after a line, exactly if the guard that keeps it
has nothing to refuse in that line; at every prompt of a session, exactly if it has nothing
to refuse in any line typed. -/
theorem run_depth_restored_iff (m : Machine) (d : ℤ) :
    (∀ line d' m', Returns d m line d' m' → (d' = d ↔ Unrefused d m line)) ∧
    ∀ m₀ typed, Session m₀ typed m d →
      ((d = 0 ∧ ∀ p ∈ typed, p.2.1 = 0) ↔ ∀ p ∈ typed, Unrefused p.2.1 p.1 p.2.2) := by
  refine ⟨fun line d' m' h => h.depth_eq_iff, ?_⟩
  intro m₀ typed h
  induction h with
  | start => simp
  | line _ hr ih =>
    simp only [List.forall_mem_cons]
    rw [← hr.depth_eq_iff]
    constructor
    · rintro ⟨rfl, rfl, hall⟩
      exact ⟨rfl, ih.1 ⟨rfl, hall⟩⟩
    · rintro ⟨rfl, hall⟩
      obtain ⟨rfl, hz⟩ := ih.2 hall
      exact ⟨rfl, rfl, hz⟩

/-- Defining an alias refuses nothing. -/
theorem run_depth_restored_alias : ∃ m₀ m typed, bareBoot = some m₀ ∧ Session m₀ typed m 0 ∧
    linesOf typed = [str "alias a a"] ∧ Unrefused 0 m₀ (str "alias a a") ∧ ∀ p ∈ typed, p.2.1 = 0 := by
  have h : bareBoot.any (fun m => ∃ m', (run 2 0 m (str "alias a a")).ending = .returned m' 0) = true := by
    decide +kernel
  obtain ⟨m₀, hb, hp⟩ := (Option.any_eq_true _ _).1 h
  obtain ⟨m, hr⟩ := of_decide_eq_true hp
  have hret : Returns 0 m₀ (str "alias a a") 0 m := ⟨2, hr⟩
  have hs : Session m₀ [(m₀, 0, str "alias a a")] m 0 := .line .start hret
  have hu := ((run_depth_restored_iff m₀ 0).1 _ _ _ hret).1 rfl
  exact ⟨m₀, m, _, hb, hs, rfl, hu, (((run_depth_restored_iff m 0).2 _ _ hs).2 (by simpa using hu)).2⟩

/-- **A loop leaves `run_depth` behind**: it is cleared by the refusal, and counted down
nine times on the way out. -/
theorem run_depth_drifts : ∃ m₀ typed m m', bareBoot = some m₀ ∧ Session m₀ typed m 0 ∧
    linesOf typed = [str "alias a a"] ∧ Returns 0 m (str "a") (-9) m' := by
  have h : (bareAfter 2 [str "alias a a"]).any
      (fun p => p.2 = 0 ∧ ∃ m', (run 12 0 p.1 (str "a")).ending = .returned m' (-9)) = true := by decide +kernel
  obtain ⟨m₀, typed, m, d, hb, hs, hl, hp⟩ := bareAfter_session h
  obtain ⟨rfl, m', hr⟩ := of_decide_eq_true hp
  exact ⟨m₀, typed, m, m', hb, hs, hl, 12, hr⟩

end DahleOS
