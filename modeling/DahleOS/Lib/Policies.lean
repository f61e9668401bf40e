import DahleOS.Lib.Expander

/-!
# Policies compared

The same lines under two policies of the depth guard.

* `dispatch_shift`: without a refusal, policies agree, also from a lower counter.
* `resets_bounded_iff`: when a resetting policy ends within the limit.
* `overflow_iff`, `Foresees.never_overflow_iff`: when an expansion fails, told by the calls
  of a run and by a condition on those that are no expansions.
* `Foresees.never_overflow_iff_of_extends`: by the calls under a policy whose expansions do
  not fail.
-/

namespace Expander

variable {σ τ ξ ρ : Type} {act : σ → τ → Action σ τ ξ ρ} {P Q : Policy τ ξ} {limit : ℤ}

/-! ## Refusals -/

theorem iterate_shift {active : ℕ} {f g : σ → ℤ → Result σ ρ} {c e : ℤ}
    (h : ∀ s, (g s e).refused = 0 → f s c = (g s e).shift (c - e))
    (hk : ∀ s s' d', (g s e).ending = .returned s' d' → (g s e).refused = 0 → d' = e) :
    ∀ n s, (iterate active g n s e).refused = 0 →
      iterate active f n s c = (iterate active g n s e).shift (c - e) := by
  intro n
  induction n with
  | zero =>
    intro s _
    simp [iterate, Result.shift, Ending.shift]
  | succ n ih =>
    intro s h0
    simp only [iterate] at h0 ⊢
    have h0' : (g s e).refused = 0 := Nat.le_zero.1 (h0 ▸ refused_le_andThen _ _)
    rw [h s h0']
    rcases returned_or (g s e) with ⟨s', d', hr⟩ | hr
    · obtain rfl := hk s s' d' hr h0'
      rw [andThen_of_returned hr, combine_refused] at h0
      rw [andThen_of_returned hr, shift_andThen_of_returned hr, add_sub_cancel, ih s' (by omega), combine_shift]
    · rw [shift_andThen_of_not_returned hr, andThen_of_not_returned hr]

/-- **Without a refusal, policies agree**, also from a lower counter. -/
theorem dispatch_shift (hPQ : P.assemble = Q.assemble) : ∀ fuel active {c e : ℤ} (s : σ) (line : τ), c ≤ e →
    (dispatch act Q limit fuel active e s line).refused = 0 →
    dispatch act P limit fuel active c s line = (dispatch act Q limit fuel active e s line).shift (c - e) := by
  intro fuel
  induction fuel with
  | zero => intro active c e s line _ _; rfl
  | succ fuel ih =>
    intro active c e s line hce h0
    rw [dispatch] at h0 ⊢
    rw [dispatch]
    cases ha : act s line with
    | done s => simp [Result.shift, Ending.shift]
    | stop why => rfl
    | loop s n line =>
      rw [ha] at h0
      exact iterate_shift (g := fun s d => dispatch act Q limit fuel active d s line)
        (fun s => ih active s line hce) (fun s s' d' => depth_of_refused_zero) n s h0
    | expand s x =>
      rw [ha] at h0
      simp only at h0 ⊢
      split_ifs at h0 ⊢ with hq hp
      · omega
      · rw [hPQ]
        cases hx : Q.assemble x with
        | none => rfl
        | some line =>
          rw [hx] at h0
          simp only at h0 ⊢
          rw [ih (active + 1) s line (show c + 1 ≤ e + 1 by omega) h0]
          simp only [Result.shift, Ending.shift_shift, Result.mk.injEq, and_true]
          congr 1; omega

/-- What a bounded run avoids. -/
def Within (limit : ℤ) (r : Result σ ρ) : Prop := r.ending ≠ .overflow ∧ (r.peak : ℤ) ≤ limit + 1

theorem Within.left {r r' : Result σ ρ} {s : σ} {d : ℤ} (hr : r.ending = .returned s d)
    (h : Within limit (r.combine r')) : Within limit r :=
  ⟨by rw [hr]; simp, le_trans (Nat.cast_le.2 (le_max_left _ _)) h.2⟩

theorem Within.right {r r' : Result σ ρ} (h : Within limit (r.combine r')) : Within limit r' :=
  ⟨h.1, le_trans (Nat.cast_le.2 (le_max_right _ _)) h.2⟩

theorem Within.first {r : Result σ ρ} {f : σ → ℤ → Result σ ρ} (h : Within limit (r.andThen f)) :
    Within limit r := by
  rcases returned_or r with ⟨s, d, hr⟩ | hr
  · rw [andThen_of_returned hr] at h
    exact h.left hr
  · rwa [andThen_of_not_returned hr] at h

theorem iterate_behind {active : ℕ} {f g : σ → ℤ → Result σ ρ} {c e : ℤ}
    (h : ∀ s, Within limit (f s c) → (g s e).refused = 0)
    (hs : ∀ s, (g s e).refused = 0 → f s c = (g s e).shift (c - e))
    (hk : ∀ s s' d', (g s e).ending = .returned s' d' → d' = e) :
    ∀ n s, Within limit (iterate active f n s c) → (iterate active g n s e).refused = 0 := by
  intro n
  induction n with
  | zero => intro s _; rfl
  | succ n ih =>
    intro s hw
    simp only [iterate] at hw ⊢
    have h0 := h s hw.first
    rw [hs s h0] at hw
    rcases returned_or (g s e) with ⟨s', d', hr⟩ | hr
    · obtain rfl := hk s s' d' hr
      rw [shift_andThen_of_returned hr, add_sub_cancel] at hw
      rw [andThen_of_returned hr, combine_refused, h0, ih s' hw.right]
    · rw [andThen_of_not_returned hr, h0]

/-- A counter that lags behind the number of active expansions never refuses in time: a
bounded run is one in which a keeping policy has nothing to refuse. -/
theorem refused_zero_of_behind (hQ : ∀ d, Q.refuse d = d) (hPQ : P.assemble = Q.assemble) :
    ∀ fuel (active : ℕ) {c : ℤ} (s : σ) (line : τ), c < active → (active : ℤ) ≤ limit + 1 →
    Within limit (dispatch act P limit fuel active c s line) →
    (dispatch act Q limit fuel active active s line).refused = 0 := by
  intro fuel
  induction fuel with
  | zero => intro active c s line _ _ _; rfl
  | succ fuel ih =>
    intro active c s line hc hl hw
    rw [dispatch] at hw ⊢
    cases ha : act s line with
    | done s => rfl
    | stop why => rfl
    | loop s n line =>
      rw [ha] at hw
      exact iterate_behind (fun s => ih active s line hc hl)
        (fun s => dispatch_shift hPQ fuel active s line hc.le) (fun s s' d' => depth_keeps hQ) n s hw
    | expand s x =>
      rw [ha] at hw
      simp only at hw ⊢
      rw [if_neg (by omega), hPQ] at hw
      cases hx : Q.assemble x with
      | none => rw [hx] at hw; exact absurd rfl hw.1
      | some line =>
        rw [hx] at hw
        -- at the limit the counter lags, and one expansion too many is made
        have hpeak : ((active + 1 : ℕ) : ℤ) ≤ limit + 1 :=
          le_trans (Nat.cast_le.2 (active_le_peak fuel (active + 1) (c + 1) s line)) hw.2
        push_cast at hpeak
        rw [if_neg (by omega)]
        have := ih (active + 1) (c := c + 1) s line (by push_cast; omega) (by push_cast; omega)
          ⟨fun h => hw.1 (Ending.shift_eq_overflow.2 h), hw.2⟩
        push_cast at this
        exact this

theorem iterate_once {active : ℕ} {f g : σ → ℤ → Result σ ρ} {e k : ℤ}
    (h0 : ∀ s, (g s e).refused = 0 → f s e = g s e)
    (h1 : ∀ s, (g s e).refused = 1 → f s e = (g s e).shift (-k))
    (hb : ∀ n s, (iterate active g n s e).refused = 0 →
      iterate active f n s (e - k) = (iterate active g n s e).shift (-k))
    (hk : ∀ s s' d', (g s e).ending = .returned s' d' → d' = e) :
    ∀ n s, (iterate active g n s e).refused = 1 →
      iterate active f n s e = (iterate active g n s e).shift (-k) := by
  intro n
  induction n with
  | zero => intro s h; cases h
  | succ n ih =>
    intro s h
    simp only [iterate] at h ⊢
    rcases returned_or (g s e) with ⟨s', d', hr⟩ | hr
    · obtain rfl := hk s s' d' hr
      rw [andThen_of_returned hr] at h ⊢
      rw [combine_refused] at h
      rcases Nat.eq_zero_or_pos (g s d').refused with hz | hz
      · rw [h0 s hz, andThen_of_returned hr, ih s' (by omega)]
        rfl
      · -- the refusal is in the first run: the others start `k` lower
        rw [h1 s (by omega), shift_andThen_of_returned hr, ← sub_eq_add_neg, hb n s' (by omega), combine_shift]
    · rw [andThen_of_not_returned hr] at h ⊢
      rw [h1 s h, shift_andThen_of_not_returned hr]

/-- The first refusal of a resetting policy puts the counter behind by more than the
limit, and changes nothing else. -/
theorem dispatch_once (hP : ∀ d, P.refuse d = 0) (hQ : ∀ d, Q.refuse d = d) (hPQ : P.assemble = Q.assemble)
    (hl : 0 ≤ limit) : ∀ fuel active {e : ℤ} (s : σ) (line : τ), e ≤ limit + 1 →
    (dispatch act Q limit fuel active e s line).refused = 1 →
    dispatch act P limit fuel active e s line =
      (dispatch act Q limit fuel active e s line).shift (-(limit + 1)) := by
  intro fuel
  induction fuel with
  | zero => intro active e s line _ h; cases h
  | succ fuel ih =>
    intro active e s line he h
    rw [dispatch] at h ⊢
    rw [dispatch]
    cases ha : act s line with
    | done s => rw [ha] at h; cases h
    | stop why => rw [ha] at h; cases h
    | loop s n line =>
      rw [ha] at h
      -- before the refusal the policies agree, behind it the counter is lower
      refine iterate_once ?_ (fun s => ih active s line he) ?_
        (fun s s' d' => depth_keeps hQ) n s h
      · intro s h0
        have := dispatch_shift hPQ fuel active s line le_rfl h0
        simpa using this
      · intro n s h0
        have hle : e - (limit + 1) ≤ e := by omega
        have := iterate_shift (f := fun s d => dispatch act P limit fuel active d s line)
          (g := fun s d => dispatch act Q limit fuel active d s line)
          (fun s h0 => dispatch_shift hPQ fuel active s line hle h0)
          (fun s s' d' => depth_of_refused_zero) n s h0
        rwa [show e - (limit + 1) - e = -(limit + 1) by omega] at this
    | expand s x =>
      rw [ha] at h
      simp only at h ⊢
      split_ifs at h ⊢ with hd
      · simp only [hP, hQ, Result.shift, Ending.shift, Result.mk.injEq, and_true, Ending.returned.injEq, true_and]
        omega
      · rw [hPQ]
        cases hx : Q.assemble x with
        | none => rw [hx] at h; cases h
        | some line =>
          rw [hx] at h
          simp only at h ⊢
          rw [ih (active + 1) s line (by omega) h]
          simp only [Result.shift, Ending.shift_shift, Result.mk.injEq, and_true]
          congr 1; omega

theorem iterate_ahead {active : ℕ} {f g : σ → ℤ → Result σ ρ} {e k : ℤ}
    (h : ∀ s, Within limit (f s e) → (g s e).refused ≤ 1)
    (h0 : ∀ s, (g s e).refused = 0 → f s e = g s e)
    (h1 : ∀ s, (g s e).refused = 1 → f s e = (g s e).shift (-k))
    (hb : ∀ n s, Within limit (iterate active f n s (e - k)) → (iterate active g n s e).refused = 0)
    (hk : ∀ s s' d', (g s e).ending = .returned s' d' → d' = e) :
    ∀ n s, Within limit (iterate active f n s e) → (iterate active g n s e).refused ≤ 1 := by
  intro n
  induction n with
  | zero => intro s _; exact Nat.zero_le 1
  | succ n ih =>
    intro s hw
    simp only [iterate] at hw ⊢
    have hle := h s hw.first
    rcases returned_or (g s e) with ⟨s', d', hr⟩ | hr
    · obtain rfl := hk s s' d' hr
      rw [andThen_of_returned hr, combine_refused]
      rcases Nat.eq_zero_or_pos (g s d').refused with hz | hz
      · rw [h0 s hz, andThen_of_returned hr] at hw
        have := ih s' hw.right
        omega
      · -- the others start `k` lower, and refuse nothing
        rw [h1 s (by omega), shift_andThen_of_returned hr, ← sub_eq_add_neg] at hw
        have := hb n s' hw.right
        omega
    · rwa [andThen_of_not_returned hr]

/-- A bounded run of a resetting policy whose counter started right is one in which a
keeping policy refuses at most once. -/
theorem refused_le_one_of_within (hP : ∀ d, P.refuse d = 0) (hQ : ∀ d, Q.refuse d = d)
    (hPQ : P.assemble = Q.assemble) (hl : 0 ≤ limit) : ∀ fuel (active : ℕ) (s : σ) (line : τ),
    (active : ℤ) ≤ limit + 1 → Within limit (dispatch act P limit fuel active active s line) →
    (dispatch act Q limit fuel active active s line).refused ≤ 1 := by
  intro fuel
  induction fuel with
  | zero => intro active s line _ _; exact Nat.zero_le 1
  | succ fuel ih =>
    intro active s line ha hw
    rw [dispatch] at hw ⊢
    cases hact : act s line with
    | done s => exact Nat.zero_le 1
    | stop why => exact Nat.zero_le 1
    | loop s n line =>
      rw [hact] at hw
      -- likewise, and what runs behind the refusal lags
      refine iterate_ahead (k := limit + 1) (fun s => ih active s line ha) ?_
        (fun s => dispatch_once hP hQ hPQ hl fuel active s line ha) ?_
        (fun s s' d' => depth_keeps hQ) n s hw
      · intro s h0
        have := dispatch_shift hPQ fuel active s line le_rfl h0
        simpa using this
      · intro n s
        have hlt : (active : ℤ) - (limit + 1) < active := by omega
        exact iterate_behind (fun s => refused_zero_of_behind hQ hPQ fuel active s line hlt ha)
          (fun s => dispatch_shift hPQ fuel active s line hlt.le) (fun s s' d' => depth_keeps hQ) n s
    | expand s x =>
      rw [hact] at hw
      simp only at hw ⊢
      split_ifs at hw ⊢ with hd
      · exact le_rfl
      · rw [hPQ] at hw
        cases hx : Q.assemble x with
        | none => exact Nat.zero_le 1
        | some line =>
          rw [hx] at hw
          have := ih (active + 1) s line (by push_cast; omega)
            ⟨fun h => hw.1 (Ending.shift_eq_overflow.2 (by push_cast at h; exact h)),
              by push_cast; exact hw.2⟩
          push_cast at this
          exact this

/-- **A resetting policy ends within the limit** just where a keeping policy, which
always ends, refuses at most once; not at all, if the counter started behind. -/
theorem resets_bounded_iff (hP : ∀ d, P.refuse d = 0) (hQ : ∀ d, Q.refuse d = d)
    (hPQ : P.assemble = Q.assemble) (hl : 0 ≤ limit) {ok : ρ → Prop} {d : ℤ} (hd : d ≤ 0) {s : σ} {line : τ} :
    (∃ fuel, (dispatch act P limit fuel 0 d s line).ending.Ends ok ∧
        ((dispatch act P limit fuel 0 d s line).peak : ℤ) ≤ limit + 1) ↔
      ∃ fuel, (dispatch act Q limit fuel 0 0 s line).ending.Ends ok ∧
        (dispatch act Q limit fuel 0 0 s line).refused ≤ if d = 0 then 1 else 0 := by
  have hshift : ∀ fuel, (dispatch act Q limit fuel 0 0 s line).refused = 0 →
      dispatch act P limit fuel 0 d s line = (dispatch act Q limit fuel 0 0 s line).shift d := by
    intro fuel h0
    have := dispatch_shift hPQ fuel 0 s line hd h0
    rwa [sub_zero] at this
  have honce : ∀ fuel, (dispatch act Q limit fuel 0 0 s line).refused = 1 →
      dispatch act P limit fuel 0 0 s line =
        (dispatch act Q limit fuel 0 0 s line).shift (-(limit + 1)) := fun fuel h1 =>
    dispatch_once hP hQ hPQ hl fuel 0 s line (by omega) h1
  have hpeak : ∀ fuel, ((dispatch act Q limit fuel 0 0 s line).peak : ℤ) ≤ limit + 1 := fun fuel =>
    peak_keeps hQ rfl (by push_cast; omega)
  constructor
  · rintro ⟨fuel, hend, hp⟩
    have hw : Within limit (dispatch act P limit fuel 0 d s line) := ⟨hend.ne_overflow, hp⟩
    -- at 0 one refusal is made up for, below 0 none
    rcases eq_or_ne d 0 with rfl | hne
    · have hle := refused_le_one_of_within hP hQ hPQ hl fuel 0 s line (by push_cast; omega) hw
      rw [Nat.cast_zero] at hle
      refine ⟨fuel, ?_, by simpa using hle⟩
      rcases Nat.le_one_iff_eq_zero_or_eq_one.1 hle with h0 | h1
      · rw [hshift fuel h0] at hend
        exact Ending.ends_shift.1 hend
      · rw [honce fuel h1] at hend
        exact Ending.ends_shift.1 hend
    · have h0 := refused_zero_of_behind hQ hPQ fuel 0 s line (show d < (0 : ℕ) by push_cast; omega)
        (by push_cast; omega) hw
      rw [Nat.cast_zero] at h0
      rw [hshift fuel h0] at hend
      exact ⟨fuel, Ending.ends_shift.1 hend, by rw [h0]; exact Nat.zero_le _⟩
  · rintro ⟨fuel, hend, hle⟩
    refine ⟨fuel, ?_⟩
    rcases Nat.eq_zero_or_pos (dispatch act Q limit fuel 0 0 s line).refused with h0 | hpos
    · rw [hshift fuel h0]
      exact ⟨Ending.ends_shift.2 hend, hpeak fuel⟩
    · have hz : d = 0 := by
        by_contra hne
        rw [if_neg hne] at hle
        omega
      subst hz
      rw [if_pos rfl] at hle
      rw [honce fuel (by omega)]
      exact ⟨Ending.ends_shift.2 hend, hpeak fuel⟩

/-- Two policies refuse nothing together. -/
theorem refused_zero_iff (hPQ : P.assemble = Q.assemble) (fuel active : ℕ) (d : ℤ) (s : σ) (line : τ) :
    (dispatch act P limit fuel active d s line).refused = 0 ↔
      (dispatch act Q limit fuel active d s line).refused = 0 := by
  constructor
  · intro h
    rw [dispatch_shift hPQ.symm fuel active s line le_rfl h, shift_refused, h]
  · intro h
    rw [dispatch_shift hPQ fuel active s line le_rfl h, shift_refused, h]

/-! ## Expansions that fail -/

theorem iterate_ending {active active' : ℕ} {f g : σ → ℤ → Result σ ρ} (h : ∀ s d, (f s d).ending = (g s d).ending) :
    ∀ n s d, (iterate active f n s d).ending = (iterate active' g n s d).ending := by
  intro n
  induction n with
  | zero => intro s d; rfl
  | succ n ih =>
    intro s d
    simp only [iterate]
    rcases returned_or (f s d) with ⟨s', d', hr⟩ | hr
    · rw [andThen_of_returned hr, andThen_of_returned (h s d ▸ hr)]
      exact ih s' d'
    · rw [andThen_of_not_returned hr, andThen_of_not_returned (fun s' d' => h s d ▸ hr s' d'), h s d]

/-- The expansions around a run do not change how it ends. -/
theorem dispatch_ending : ∀ fuel active active' d (s : σ) (line : τ),
    (dispatch act P limit fuel active d s line).ending = (dispatch act P limit fuel active' d s line).ending := by
  intro fuel
  induction fuel with
  | zero => intro active active' d s line; rfl
  | succ fuel ih =>
    intro active active' d s line
    rw [dispatch, dispatch]
    cases act s line with
    | done s => rfl
    | stop why => rfl
    | loop s n line => exact iterate_ending (fun s d => ih active active' d s line) n s d
    | expand s x =>
      simp only
      split_ifs
      · rfl
      · cases P.assemble x with
        | none => rfl
        | some line => exact congrArg (Ending.shift (-1)) (ih _ _ _ _ _)

/-- The line returns, with the counter at `d'`. -/
def Gives (act : σ → τ → Action σ τ ξ ρ) (P : Policy τ ξ) (limit d : ℤ) (s : σ) (line : τ) (d' : ℤ) (s' : σ) : Prop :=
  ∃ fuel, (dispatch act P limit fuel 0 d s line).ending = .returned s' d'

/-- `k` runs of a line in a row. -/
inductive Rounds (act : σ → τ → Action σ τ ξ ρ) (P : Policy τ ξ) (limit : ℤ) (line : τ) :
    ℕ → ℤ → σ → ℤ → σ → Prop
  | none (d s) : Rounds act P limit line 0 d s d s
  | next {k d s d₁ s₁ d' s'} : Gives act P limit d s line d₁ s₁ → Rounds act P limit line k d₁ s₁ d' s' →
    Rounds act P limit line (k + 1) d s d' s'

/-- **The calls** of a run, each with the counter and the state before it. `true` marks the
line itself and the lines that are run again, `false` those that were put together. -/
inductive Reached (act : σ → τ → Action σ τ ξ ρ) (P : Policy τ ξ) (limit d₀ : ℤ) (s₀ : σ) (line₀ : τ) :
    Bool → ℤ → σ → τ → Prop
  | first : Reached act P limit d₀ s₀ line₀ true d₀ s₀ line₀
  | again {own d s line s₁ n line' k d' s'} : Reached act P limit d₀ s₀ line₀ own d s line →
    act s line = .loop s₁ n line' → k < n → Rounds act P limit line' k d s₁ d' s' →
    Reached act P limit d₀ s₀ line₀ true d' s' line'
  | expanded {own d s line s' x line'} : Reached act P limit d₀ s₀ line₀ own d s line →
    act s line = .expand s' x → d ≤ limit → P.assemble x = some line' →
    Reached act P limit d₀ s₀ line₀ false (d + 1) s' line'

/-- An overflow in a row of runs is one of them. -/
theorem rounds_of_overflow {fuel : ℕ} {line : τ} : ∀ n (d : ℤ) (s : σ),
    (iterate 0 (fun s d => dispatch act P limit fuel 0 d s line) n s d).ending = .overflow →
    ∃ k < n, ∃ d' s', Rounds act P limit line k d s d' s' ∧
      (dispatch act P limit fuel 0 d' s' line).ending = .overflow := by
  intro n
  induction n with
  | zero => intro d s h; cases h
  | succ n ih =>
    intro d s h
    rw [iterate] at h
    rcases returned_or (dispatch act P limit fuel 0 d s line) with ⟨s₁, d₁, hr⟩ | hr
    · rw [andThen_of_returned hr] at h
      obtain ⟨k, hk, d', s', hrounds, ho⟩ := ih d₁ s₁ h
      exact ⟨k + 1, by omega, d', s', .next ⟨fuel, hr⟩ hrounds, ho⟩
    · rw [andThen_of_not_returned hr] at h
      exact ⟨0, by omega, d, s, .none d s, h⟩

/-- And one of them is an overflow of the row. -/
theorem overflow_of_rounds {line : τ} {k : ℕ} {d d' : ℤ} {s s' : σ} (h : Rounds act P limit line k d s d' s')
    (ho : ∃ fuel, (dispatch act P limit fuel 0 d' s' line).ending = .overflow) : ∀ n, k < n → ∃ fuel,
      (iterate 0 (fun s d => dispatch act P limit fuel 0 d s line) n s d).ending = .overflow := by
  induction h with
  | none d s =>
    intro n hn
    obtain ⟨n, rfl⟩ := Nat.exists_eq_add_of_lt hn
    obtain ⟨fuel, hf⟩ := ho
    refine ⟨fuel, ?_⟩
    rw [iterate, andThen_of_not_returned (fun s' d' hr => by rw [hf] at hr; cases hr)]
    exact hf
  | @next k d s d₁ s₁ d' s' hgives _ ih =>
    intro n hn
    obtain ⟨n, rfl⟩ : ∃ n', n = n' + 1 := ⟨n - 1, by omega⟩
    obtain ⟨fuel₁, hr⟩ := hgives
    obtain ⟨fuel₂, hrest⟩ := ih ho n (by omega)
    -- the fuel that is enough for both
    have hfirst : dispatch act P limit (max fuel₁ fuel₂) 0 d s line = dispatch act P limit fuel₁ 0 d s line :=
      dispatch_mono (le_max_left ..) (by rw [hr]; exact fun h => by cases h)
    have hmono : iterate 0 (fun s d => dispatch act P limit (max fuel₁ fuel₂) 0 d s line) n s₁ d₁ =
        iterate 0 (fun s d => dispatch act P limit fuel₂ 0 d s line) n s₁ d₁ :=
      iterate_mono (fun _ _ => dispatch_mono (le_max_right ..)) n s₁ d₁ (by rw [hrest]; exact fun h => by cases h)
    refine ⟨max fuel₁ fuel₂, ?_⟩
    rw [iterate, hfirst, andThen_of_returned hr, combine_ending, hmono]
    exact hrest

variable {d₀ : ℤ} {s₀ : σ} {line₀ : τ} {own : Bool} {d : ℤ} {s : σ} {line : τ}

/-- A call that overflows makes the run overflow. -/
theorem Reached.overflow (h : Reached act P limit d₀ s₀ line₀ own d s line)
    (ho : ∃ fuel, (dispatch act P limit fuel 0 d s line).ending = .overflow) :
    ∃ fuel, (dispatch act P limit fuel 0 d₀ s₀ line₀).ending = .overflow := by
  induction h with
  | first => exact ho
  | again _ hact hk hrounds ih =>
    obtain ⟨fuel, hf⟩ := overflow_of_rounds hrounds ho _ hk
    refine ih ⟨fuel + 1, ?_⟩
    rw [dispatch, hact]
    exact hf
  | expanded _ hact hd hx ih =>
    obtain ⟨fuel, hf⟩ := ho
    refine ih ⟨fuel + 1, ?_⟩
    rw [dispatch, hact]
    simp only [if_neg (not_lt.2 hd), hx, shift_ending, Ending.shift_eq_overflow]
    rw [dispatch_ending fuel (0 + 1) 0]
    exact hf

/-- From a call that overflows, down to the one that cannot be expanded. -/
theorem Reached.failing {fuel : ℕ} (h : Reached act P limit d₀ s₀ line₀ own d s line)
    (ho : (dispatch act P limit fuel 0 d s line).ending = .overflow) : ∃ own d s line s' x,
      Reached act P limit d₀ s₀ line₀ own d s line ∧ act s line = .expand s' x ∧ d ≤ limit ∧
        P.assemble x = none := by
  induction fuel generalizing own d s line with
  | zero => cases ho
  | succ fuel ih =>
    rw [dispatch] at ho
    cases hact : act s line with
    | done s => rw [hact] at ho; cases ho
    | stop why => rw [hact] at ho; cases ho
    | loop s₁ n line' =>
      rw [hact] at ho
      obtain ⟨k, hk, d', s', hrounds, ho'⟩ := rounds_of_overflow n d s₁ ho
      exact ih (h.again hact hk hrounds) ho'
    | expand s' x =>
      rw [hact] at ho
      simp only at ho
      split_ifs at ho with hd
      cases hx : P.assemble x with
      | none => exact ⟨own, d, s, line, s', x, h, hact, not_lt.1 hd, hx⟩
      | some line' =>
        rw [hx] at ho
        simp only [shift_ending, Ending.shift_eq_overflow] at ho
        rw [dispatch_ending fuel (0 + 1) 0] at ho
        exact ih (h.expanded hact (not_lt.1 hd) hx) ho

/-- **When a run overflows**: some expansion of a call cannot be put together. -/
theorem overflow_iff : (∃ fuel, (dispatch act P limit fuel 0 d₀ s₀ line₀).ending = .overflow) ↔
    ∃ own d s line s' x, Reached act P limit d₀ s₀ line₀ own d s line ∧ act s line = .expand s' x ∧
      d ≤ limit ∧ P.assemble x = none := by
  constructor
  · rintro ⟨fuel, ho⟩
    exact Reached.first.failing ho
  · rintro ⟨own, d, s, line, s', x, h, hact, hd, hx⟩
    refine h.overflow ⟨1, ?_⟩
    rw [dispatch, hact]
    simp only [if_neg (not_lt.2 hd), hx]

/-- A condition on a call that looks through the expansions behind it. -/
structure Foresees (act : σ → τ → Action σ τ ξ ρ) (P : Policy τ ξ) (limit : ℤ) (F : ℤ → σ → τ → Prop) : Prop where
  step : ∀ {d s line s' x}, act s line = .expand s' x → d ≤ limit →
    (F d s line ↔ ∃ line', P.assemble x = some line' ∧ F (d + 1) s' line')
  other : ∀ {d s line}, (∀ s' x, act s line = .expand s' x → limit < d) → F d s line

variable {F : ℤ → σ → τ → Prop}

/-- A call without the condition leads to an expansion that fails. -/
theorem Foresees.fails (hF : Foresees act P limit F) (n : ℕ) (hn : (limit + 1 - d).toNat = n)
    (h : Reached act P limit d₀ s₀ line₀ own d s line) (hnot : ¬ F d s line) : ∃ own d s line s' x,
      Reached act P limit d₀ s₀ line₀ own d s line ∧ act s line = .expand s' x ∧ d ≤ limit ∧
        P.assemble x = none := by
  induction n generalizing own d s line with
  | zero => exact absurd (hF.other fun _ _ _ => by omega) hnot
  | succ n ih =>
    obtain ⟨s', x, hact⟩ : ∃ s' x, act s line = .expand s' x := by
      by_contra hno
      exact hnot (hF.other fun s' x hact => absurd ⟨s', x, hact⟩ hno)
    have hd : d ≤ limit := by omega
    cases hx : P.assemble x with
    | none => exact ⟨own, d, s, line, s', x, h, hact, hd, hx⟩
    | some line' =>
      refine ih (by omega) (h.expanded hact hd hx) ?_
      intro hnext
      exact hnot ((hF.step hact hd).2 ⟨line', hx, hnext⟩)

/-- **When no expansion fails**: the condition holds of the line, and of every line that is
run again. -/
theorem Foresees.never_overflow_iff (hF : Foresees act P limit F) :
    (∀ fuel, (dispatch act P limit fuel 0 d₀ s₀ line₀).ending ≠ .overflow) ↔
      ∀ d s line, Reached act P limit d₀ s₀ line₀ true d s line → F d s line := by
  rw [← not_exists, overflow_iff]
  constructor
  · intro hno d s line h
    by_contra hnot
    exact hno (hF.fails _ rfl h hnot)
  · intro hall
    -- the condition passes from a call to the expansion behind it
    have hevery : ∀ own d s line, Reached act P limit d₀ s₀ line₀ own d s line → F d s line := by
      intro own d s line h
      induction h with
      | first => exact hall _ _ _ .first
      | again h hact hk hrounds _ => exact hall _ _ _ (h.again hact hk hrounds)
      | expanded _ hact hd hx ih =>
        obtain ⟨line'', hx', hnext⟩ := (hF.step hact hd).1 ih
        obtain rfl := Option.some.inj (hx.symm.trans hx')
        exact hnext
    rintro ⟨own, d, s, line, s', x, h, hact, hd, hx⟩
    obtain ⟨line', hx', -⟩ := (hF.step hact hd).1 (hevery own d s line h)
    rw [hx] at hx'
    cases hx'

/-! ## A policy that always succeeds -/

/-- `Q` refuses as `P` does, and puts together what `P` does, if not more. -/
structure Extends (act : σ → τ → Action σ τ ξ ρ) (P Q : Policy τ ξ) : Prop where
  refuse : P.refuse = Q.refuse
  assemble : ∀ {s line s' x line'}, act s line = .expand s' x → P.assemble x = some line' → Q.assemble x = some line'

theorem iterate_extends {active : ℕ} {f g : σ → ℤ → Result σ ρ} (h : ∀ s d, (f s d).ending ≠ .overflow → f s d = g s d) :
    ∀ n s d, (iterate active f n s d).ending ≠ .overflow → iterate active f n s d = iterate active g n s d := by
  intro n
  induction n with
  | zero => intro s d _; rfl
  | succ n ih =>
    intro s d hno
    rw [iterate] at hno ⊢
    rw [iterate]
    rcases returned_or (f s d) with ⟨s', d', hr⟩ | hr
    · have heq := h s d (by rw [hr]; exact fun h => by cases h)
      rw [andThen_of_returned hr, combine_ending] at hno
      rw [← heq, andThen_of_returned hr, andThen_of_returned hr, ih s' d' hno]
    · rw [andThen_of_not_returned hr] at hno
      have heq := h s d hno
      rw [← heq, andThen_of_not_returned hr, andThen_of_not_returned hr]

/-- **Until an expansion fails, the runs are the same.** -/
theorem Extends.dispatch_eq (hPQ : Extends act P Q) : ∀ fuel active d (s : σ) (line : τ),
    (dispatch act P limit fuel active d s line).ending ≠ .overflow →
    dispatch act P limit fuel active d s line = dispatch act Q limit fuel active d s line := by
  intro fuel
  induction fuel with
  | zero => intro active d s line _; rfl
  | succ fuel ih =>
    intro active d s line hno
    rw [dispatch] at hno ⊢
    rw [dispatch]
    cases hact : act s line with
    | done s => rfl
    | stop why => rfl
    | loop s n line =>
      rw [hact] at hno
      exact iterate_extends (fun s d => ih active d s line) n s d hno
    | expand s' x =>
      rw [hact] at hno
      simp only at hno ⊢
      split_ifs at hno ⊢
      · rw [hPQ.refuse]
      · cases hx : P.assemble x with
        | none => rw [hx] at hno; exact absurd rfl hno
        | some line' =>
          rw [hx] at hno
          simp only [shift_ending, ne_eq, Ending.shift_eq_overflow] at hno
          simp only [hPQ.assemble hact hx, ih _ _ _ _ hno]

/-- The calls of a run are calls with the other policy. -/
theorem Extends.reached (hPQ : Extends act P Q) (h : Reached act P limit d₀ s₀ line₀ own d s line) :
    Reached act Q limit d₀ s₀ line₀ own d s line := by
  have hrounds : ∀ {line k d s d' s'}, Rounds act P limit line k d s d' s' → Rounds act Q limit line k d s d' s' := by
    intro line k d s d' s' hr
    induction hr with
    | none d s => exact .none d s
    | next hgives _ ih =>
      obtain ⟨fuel, hf⟩ := hgives
      exact .next ⟨fuel, by rw [← hPQ.dispatch_eq fuel _ _ _ _ (by rw [hf]; exact fun h => by cases h), hf]⟩ ih
  induction h with
  | first => exact .first
  | again _ hact hk hr ih => exact ih.again hact hk (hrounds hr)
  | expanded _ hact hd hx ih => exact ih.expanded hact hd (hPQ.assemble hact hx)

theorem Rounds.snoc {k : ℕ} {line : τ} {d d' e : ℤ} {s s' t : σ} (h : Rounds act P limit line k d s e t)
    (hgives : Gives act P limit e t line d' s') : Rounds act P limit line (k + 1) d s d' s' := by
  induction h with
  | none d s => exact .next hgives (.none d' s')
  | next hfirst _ ih => exact .next hfirst (ih hgives)

/-- And the other way round, where no expansion fails. -/
theorem Extends.reached_of_never (hPQ : Extends act P Q)
    (hno : ∀ fuel, (dispatch act P limit fuel 0 d₀ s₀ line₀).ending ≠ .overflow)
    (h : Reached act Q limit d₀ s₀ line₀ own d s line) : Reached act P limit d₀ s₀ line₀ own d s line := by
  induction h with
  | first => exact .first
  | @again own d s line s₁ n line' k d' s' _ hact hk hr ih =>
    refine ih.again hact hk ?_
    -- one run after the other: each is a call, so its expansions do not fail
    suffices hrest : ∀ {k e t d' s'}, Rounds act Q limit line' k e t d' s' → ∀ {j}, j + k < n →
        Rounds act P limit line' j d s₁ e t → Rounds act P limit line' (j + k) d s₁ d' s' by
      simpa using hrest hr (j := 0) (by omega) (.none d s₁)
    intro k e t d' s' hr
    induction hr with
    | none e t => exact fun _ hbefore => hbefore
    | @next k e t d₁ t₁ d' s' hgives _ ih' =>
      intro j hj hbefore
      have hcall := ih.again hact (by omega) hbefore
      obtain ⟨fuel, hf⟩ := hgives
      have hgives : Gives act P limit e t line' d₁ t₁ :=
        ⟨fuel, by rw [hPQ.dispatch_eq fuel _ _ _ _ (fun ho => (not_exists.2 hno) (hcall.overflow ⟨fuel, ho⟩)), hf]⟩
      rw [← Nat.add_assoc, Nat.add_right_comm]
      exact ih' (by omega) (hbefore.snoc hgives)
  | @expanded own d s line s' x line' _ hact hd hx ih =>
    cases hx' : P.assemble x with
    | none =>
      refine absurd (ih.overflow ⟨1, ?_⟩) (not_exists.2 hno)
      rw [dispatch, hact]
      simp only [if_neg (not_lt.2 hd), hx']
    | some l =>
      obtain rfl : l = line' := Option.some.inj ((hPQ.assemble hact hx').symm.trans hx)
      exact ih.expanded hact hd hx'

/-- **When no expansion fails**, by the calls that there are with the other policy. -/
theorem Foresees.never_overflow_iff_of_extends (hF : Foresees act P limit F) (hPQ : Extends act P Q) :
    (∀ fuel, (dispatch act P limit fuel 0 d₀ s₀ line₀).ending ≠ .overflow) ↔
      ∀ d s line, Reached act Q limit d₀ s₀ line₀ true d s line → F d s line := by
  constructor
  · intro hno d s line h
    exact hF.never_overflow_iff.1 hno d s line (hPQ.reached_of_never hno h)
  · intro hall
    exact hF.never_overflow_iff.2 fun d s line h => hall d s line (hPQ.reached h)

end Expander
