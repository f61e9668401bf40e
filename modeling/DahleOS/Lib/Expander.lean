import Mathlib.Data.Int.Init
import Mathlib.Data.Int.Order.Basic
import Mathlib.Order.Lattice
import Mathlib.Tactic.Linarith

/-!
# Line expansion under a depth guard

A dispatcher runs lines. A line may be done at once, stop the machine, be run several
times over, or be expanded into another line, which is run one level deeper. A counter
of the depth guards the expansions: above the limit they are refused.

A `Policy` says what the counter becomes at a refusal, and how an expansion is put
together, which may fail. *Resetting* policies set the counter to 0 and leave the
enclosing levels to count down from there; *keeping* policies leave it as it is.

* `dispatch_mono`, `peak_mono`: more fuel changes no run that ended, and loses no depth.
* `dispatch_induction`: what holds of the leaves and is kept by sequencing and nesting
  holds of every run. `depth_keeps`, `depth_resets` and `peak_keeps` are instances.
* `dispatch_invariant`: what every line run on the way keeps, the run keeps.
* `dispatch_trace`: each of these lines is run in the state that the one before it left.
* `keeps_terminates`: a keeping policy always ends, if repeated lines get shorter.
-/

namespace Expander

variable {σ τ ξ ρ : Type}

/-- What a line asks for. -/
inductive Action (σ τ ξ ρ : Type)
  | done (s : σ)
  | stop (why : ρ)
  | loop (s : σ) (n : ℕ) (line : τ)
  | expand (s : σ) (x : ξ)

/-- How a run ends. -/
inductive Ending (σ ρ : Type)
  | returned (s : σ) (depth : ℤ)
  | stopped (why : ρ)
  | overflow
  | outOfFuel

/-- The end of a run, the most expansions that were active at one time, and the number of
refusals. -/
structure Result (σ ρ : Type) where
  ending : Ending σ ρ
  peak : ℕ
  refused : ℕ

structure Policy (τ ξ : Type) where
  refuse : ℤ → ℤ
  assemble : ξ → Option τ

/-- A counter off by `k`. -/
def Ending.shift (k : ℤ) : Ending σ ρ → Ending σ ρ
  | returned s d => returned s (d + k)
  | stopped why => stopped why
  | overflow => overflow
  | outOfFuel => outOfFuel

def Result.shift (k : ℤ) (r : Result σ ρ) : Result σ ρ := { r with ending := r.ending.shift k }

/-- The result of two runs in a row, the second from where the first returned. -/
def Result.combine (r r' : Result σ ρ) : Result σ ρ :=
  ⟨r'.ending, max r.peak r'.peak, r.refused + r'.refused⟩

/-- One run after another. -/
def Result.andThen (r : Result σ ρ) (f : σ → ℤ → Result σ ρ) : Result σ ρ :=
  match r.ending with
  | .returned s d => r.combine (f s d)
  | _ => r

/-- `n` runs in a row, with `active` expansions around them. -/
def iterate (active : ℕ) (f : σ → ℤ → Result σ ρ) : ℕ → σ → ℤ → Result σ ρ
  | 0, s, d => ⟨.returned s d, active, 0⟩
  | n + 1, s, d => (f s d).andThen (iterate active f n)

/-- **The dispatcher**, with `active` expansions around it and the counter at `depth`. -/
def dispatch (act : σ → τ → Action σ τ ξ ρ) (P : Policy τ ξ) (limit : ℤ) :
    (fuel active : ℕ) → (depth : ℤ) → σ → τ → Result σ ρ
  | 0, active, _, _, _ => ⟨.outOfFuel, active, 0⟩
  | fuel + 1, active, depth, s, line =>
    match act s line with
    | .done s => ⟨.returned s depth, active, 0⟩
    | .stop why => ⟨.stopped why, active, 0⟩
    | .loop s n line => iterate active (fun s d => dispatch act P limit fuel active d s line) n s depth
    | .expand s x =>
      if limit < depth then ⟨.returned s (P.refuse depth), active, 1⟩
      else match P.assemble x with
        | none => ⟨.overflow, active, 0⟩
        | some line => (dispatch act P limit fuel (active + 1) (depth + 1) s line).shift (-1)

/-! ## Results -/

/-- The run is over: it returned or the machine stopped for a reason that counts. -/
def Ending.Ends (ok : ρ → Prop) : Ending σ ρ → Prop
  | returned _ _ => True
  | stopped why => ok why
  | overflow => False
  | outOfFuel => False

instance (ok : ρ → Prop) [DecidablePred ok] : (e : Ending σ ρ) → Decidable (e.Ends ok)
  | .returned _ _ => isTrue trivial
  | .stopped why => inferInstanceAs (Decidable (ok why))
  | .overflow => isFalse id
  | .outOfFuel => isFalse id

instance (d : ℤ) : (e : Ending σ ρ) → Decidable (∃ s, e = .returned s d)
  | .returned s d' => decidable_of_iff (d' = d)
      ⟨fun h => ⟨s, by rw [h]⟩, fun ⟨_, h⟩ => (Ending.returned.inj h).2⟩
  | .stopped _ => isFalse fun ⟨_, h⟩ => by cases h
  | .overflow => isFalse fun ⟨_, h⟩ => by cases h
  | .outOfFuel => isFalse fun ⟨_, h⟩ => by cases h

instance : (e : Ending σ ρ) → Decidable (e = .overflow)
  | .returned _ _ => isFalse fun h => by cases h
  | .stopped _ => isFalse fun h => by cases h
  | .overflow => isTrue rfl
  | .outOfFuel => isFalse fun h => by cases h

@[simp] theorem shift_ending (r : Result σ ρ) (k : ℤ) : (r.shift k).ending = r.ending.shift k := rfl

@[simp] theorem shift_peak (r : Result σ ρ) (k : ℤ) : (r.shift k).peak = r.peak := rfl

@[simp] theorem shift_refused (r : Result σ ρ) (k : ℤ) : (r.shift k).refused = r.refused := rfl

@[simp] theorem Ending.shift_shift (e : Ending σ ρ) (j k : ℤ) :
    (e.shift j).shift k = e.shift (j + k) := by
  cases e with
  | returned s d => simp [Ending.shift, Int.add_assoc]
  | stopped => rfl
  | overflow => rfl
  | outOfFuel => rfl

@[simp] theorem Ending.shift_zero (e : Ending σ ρ) : e.shift 0 = e := by
  cases e <;> simp [Ending.shift]

@[simp] theorem shift_zero (r : Result σ ρ) : r.shift 0 = r := by simp [Result.shift]

@[simp] theorem Ending.shift_eq_outOfFuel {e : Ending σ ρ} {k : ℤ} :
    e.shift k = .outOfFuel ↔ e = .outOfFuel := by
  cases e <;> simp [Ending.shift]

@[simp] theorem Ending.shift_eq_overflow {e : Ending σ ρ} {k : ℤ} :
    e.shift k = .overflow ↔ e = .overflow := by
  cases e <;> simp [Ending.shift]

theorem Ending.shift_eq_returned {e : Ending σ ρ} {k d : ℤ} {s : σ} :
    e.shift k = .returned s d ↔ e = .returned s (d - k) := by
  cases e with
  | returned s' d' =>
    simp only [Ending.shift, Ending.returned.injEq]
    constructor <;> rintro ⟨rfl, h⟩ <;> exact ⟨rfl, by omega⟩
  | stopped => simp [Ending.shift]
  | overflow => simp [Ending.shift]
  | outOfFuel => simp [Ending.shift]

@[simp] theorem Ending.ends_shift {e : Ending σ ρ} {k : ℤ} {ok : ρ → Prop} :
    (e.shift k).Ends ok ↔ e.Ends ok := by
  cases e <;> rfl

theorem Ending.Ends.ne_overflow {e : Ending σ ρ} {ok : ρ → Prop} (h : e.Ends ok) : e ≠ .overflow := by
  rintro rfl; exact h

theorem Ending.Ends.ne_outOfFuel {e : Ending σ ρ} {ok : ρ → Prop} (h : e.Ends ok) : e ≠ .outOfFuel := by
  rintro rfl; exact h

@[simp] theorem combine_ending (r r' : Result σ ρ) : (r.combine r').ending = r'.ending := rfl

@[simp] theorem combine_peak (r r' : Result σ ρ) : (r.combine r').peak = max r.peak r'.peak := rfl

@[simp] theorem combine_refused (r r' : Result σ ρ) :
    (r.combine r').refused = r.refused + r'.refused := rfl

theorem combine_shift (r r' : Result σ ρ) (k : ℤ) : r.combine (r'.shift k) = (r.combine r').shift k := rfl

theorem andThen_of_returned {r : Result σ ρ} {s : σ} {d : ℤ} (h : r.ending = .returned s d)
    (f : σ → ℤ → Result σ ρ) : r.andThen f = r.combine (f s d) := by
  simp [Result.andThen, h]

theorem andThen_of_not_returned {r : Result σ ρ} (h : ∀ s d, r.ending ≠ .returned s d)
    (f : σ → ℤ → Result σ ρ) : r.andThen f = r := by
  unfold Result.andThen
  split
  · exact absurd ‹_› (h _ _)
  · rfl

/-- Every result either goes on or is final. -/
theorem returned_or (r : Result σ ρ) :
    (∃ s d, r.ending = .returned s d) ∨ ∀ s d, r.ending ≠ .returned s d := by
  cases h : r.ending with
  | returned s d => exact Or.inl ⟨s, d, rfl⟩
  | stopped => exact Or.inr fun _ _ h => by cases h
  | overflow => exact Or.inr fun _ _ h => by cases h
  | outOfFuel => exact Or.inr fun _ _ h => by cases h

theorem peak_le_andThen (r : Result σ ρ) (f : σ → ℤ → Result σ ρ) : r.peak ≤ (r.andThen f).peak := by
  rcases returned_or r with ⟨s, d, h⟩ | h
  · rw [andThen_of_returned h]
    exact le_max_left _ _
  · rw [andThen_of_not_returned h]

theorem refused_le_andThen (r : Result σ ρ) (f : σ → ℤ → Result σ ρ) :
    r.refused ≤ (r.andThen f).refused := by
  rcases returned_or r with ⟨s, d, h⟩ | h
  · rw [andThen_of_returned h]
    exact Nat.le_add_right _ _
  · rw [andThen_of_not_returned h]

theorem shift_andThen_of_returned {r : Result σ ρ} {s : σ} {d : ℤ} (h : r.ending = .returned s d)
    (k : ℤ) (f : σ → ℤ → Result σ ρ) : (r.shift k).andThen f = r.combine (f s (d + k)) := by
  have hk : (r.shift k).ending = .returned s (d + k) := by rw [shift_ending, h, Ending.shift]
  rw [andThen_of_returned hk]
  rfl

theorem shift_andThen_of_not_returned {r : Result σ ρ} (h : ∀ s d, r.ending ≠ .returned s d)
    (k : ℤ) (f : σ → ℤ → Result σ ρ) : (r.shift k).andThen f = r.shift k :=
  andThen_of_not_returned (fun s d hr => h s (d - k) (Ending.shift_eq_returned.1 hr)) f

/-! ## Fuel -/

section Fuel

variable {act : σ → τ → Action σ τ ξ ρ} {P : Policy τ ξ} {limit : ℤ}

theorem iterate_mono {active : ℕ} {f g : σ → ℤ → Result σ ρ}
    (h : ∀ s d, (f s d).ending ≠ .outOfFuel → g s d = f s d) :
    ∀ n s d, (iterate active f n s d).ending ≠ .outOfFuel →
      iterate active g n s d = iterate active f n s d := by
  intro n
  induction n with
  | zero => intro s d _; rfl
  | succ n ih =>
    intro s d hne
    simp only [iterate] at hne ⊢
    -- the rounds that follow a return start from where it returned
    rcases returned_or (f s d) with ⟨s', d', hr⟩ | hr
    · rw [andThen_of_returned hr] at hne ⊢
      rw [h s d (by rw [hr]; exact fun e => by cases e), andThen_of_returned hr, ih s' d' hne]
    · rw [andThen_of_not_returned hr] at hne ⊢
      rw [h s d hne, andThen_of_not_returned hr]

theorem dispatch_mono_succ : ∀ fuel active d (s : σ) (line : τ),
    (dispatch act P limit fuel active d s line).ending ≠ .outOfFuel →
    dispatch act P limit (fuel + 1) active d s line = dispatch act P limit fuel active d s line := by
  intro fuel
  induction fuel with
  | zero => intro active d s line h; exact absurd rfl h
  | succ fuel ih =>
    intro active d s line h
    rw [dispatch] at h ⊢
    rw [dispatch]
    cases ha : act s line with
    | done s => rfl
    | stop why => rfl
    | loop s n line =>
      rw [ha] at h
      exact iterate_mono (fun s d => ih active d s line) n s d h
    | expand s x =>
      rw [ha] at h
      simp only at h ⊢
      split_ifs with hd
      · rfl
      · rw [if_neg hd] at h
        cases hx : P.assemble x with
        | none => rfl
        | some line =>
          rw [hx] at h
          simp only [shift_ending, ne_eq, Ending.shift_eq_outOfFuel] at h ⊢
          rw [ih _ _ _ _ h]

/-- **More fuel changes no run that ended.** -/
theorem dispatch_mono {fuel fuel' active : ℕ} {d : ℤ} {s : σ} {line : τ} (hf : fuel ≤ fuel')
    (h : (dispatch act P limit fuel active d s line).ending ≠ .outOfFuel) :
    dispatch act P limit fuel' active d s line = dispatch act P limit fuel active d s line := by
  induction hf with
  | refl => rfl
  | step _ ih => rw [dispatch_mono_succ _ _ _ _ _ (by rw [ih]; exact h), ih]

/-- Two runs that ended are the same run. -/
theorem dispatch_unique {fuel fuel' active : ℕ} {d : ℤ} {s : σ} {line : τ}
    (h : (dispatch act P limit fuel active d s line).ending ≠ .outOfFuel)
    (h' : (dispatch act P limit fuel' active d s line).ending ≠ .outOfFuel) :
    dispatch act P limit fuel active d s line = dispatch act P limit fuel' active d s line := by
  rcases Nat.le_total fuel fuel' with hf | hf
  · exact (dispatch_mono hf h).symm
  · exact dispatch_mono hf h'

theorem iterate_peak_mono {active : ℕ} {f g : σ → ℤ → Result σ ρ}
    (h : ∀ s d, (f s d).ending ≠ .outOfFuel → g s d = f s d) (hp : ∀ s d, (f s d).peak ≤ (g s d).peak) :
    ∀ n s d, (iterate active f n s d).peak ≤ (iterate active g n s d).peak := by
  intro n
  induction n with
  | zero => intro s d; exact le_rfl
  | succ n ih =>
    intro s d
    simp only [iterate]
    rcases returned_or (f s d) with ⟨s', d', hr⟩ | hr
    · rw [h s d (by rw [hr]; exact fun e => by cases e), andThen_of_returned hr, andThen_of_returned hr]
      exact max_le_max le_rfl (ih s' d')
    · rw [andThen_of_not_returned hr]
      exact le_trans (hp s d) (peak_le_andThen _ _)

end Fuel

/-! ## Invariants of a run -/

section Induction

variable {act : σ → τ → Action σ τ ξ ρ} {P : Policy τ ξ} {limit : ℤ}

theorem iterate_induction {active : ℕ} {I : ℤ → Result σ ρ → Prop} {f : σ → ℤ → Result σ ρ}
    (returned : ∀ d s, I d ⟨.returned s d, active, 0⟩)
    (combine : ∀ d r s' d' r', I d r → r.ending = .returned s' d' → I d' r' → I d (r.combine r'))
    (hf : ∀ s d, I d (f s d)) : ∀ n s d, I d (iterate active f n s d) := by
  intro n
  induction n with
  | zero => intro s d; exact returned d s
  | succ n ih =>
    intro s d
    rw [iterate]
    rcases returned_or (f s d) with ⟨s', d', hr⟩ | hr
    · rw [andThen_of_returned hr]
      exact combine _ _ _ _ _ (hf s d) hr (ih s' d')
    · rw [andThen_of_not_returned hr]
      exact hf s d

/-- **The induction over a run.** -/
theorem dispatch_induction {I : ℕ → ℤ → Result σ ρ → Prop}
    (returned : ∀ a d s, I a d ⟨.returned s d, a, 0⟩)
    (final : ∀ a d e, (∀ s d, e ≠ .returned s d) → I a d ⟨e, a, 0⟩)
    (refused : ∀ a d s, limit < d → I a d ⟨.returned s (P.refuse d), a, 1⟩)
    (combine : ∀ a d r s' d' r', I a d r → r.ending = .returned s' d' → I a d' r' → I a d (r.combine r'))
    (expand : ∀ a d r, d ≤ limit → I (a + 1) (d + 1) r → I a d (r.shift (-1))) :
    ∀ fuel a d (s : σ) (line : τ), I a d (dispatch act P limit fuel a d s line) := by
  intro fuel
  induction fuel with
  | zero => intro a d s line; exact final a d _ fun _ _ h => by cases h
  | succ fuel ih =>
    intro a d s line
    rw [dispatch]
    cases act s line with
    | done s => exact returned a d s
    | stop why => exact final a d _ fun _ _ h => by cases h
    | loop s n line =>
      exact iterate_induction (returned a) (combine a) (fun s d => ih a d s line) n s d
    | expand s x =>
      simp only
      split_ifs with hd
      · exact refused a d s hd
      · cases hx : P.assemble x with
        | none => exact final a d _ fun _ _ h => by cases h
        | some line => exact expand a d _ (not_lt.1 hd) (ih _ _ _ _)

theorem active_le_peak (fuel active : ℕ) (d : ℤ) (s : σ) (line : τ) :
    active ≤ (dispatch act P limit fuel active d s line).peak := by
  refine dispatch_induction (I := fun a _ r => a ≤ r.peak) ?_ ?_ ?_ ?_ ?_ fuel active d s line
  · intro a d s; exact le_rfl
  · intro a d e _; exact le_rfl
  · intro a d s _; exact le_rfl
  · intro a d r s' d' r' hr _ _
    exact le_trans hr (le_max_left _ _)
  · intro a d r _ hr
    exact le_trans (Nat.le_succ a) hr

/-- More fuel loses no depth. -/
theorem peak_mono_succ : ∀ fuel active d (s : σ) (line : τ),
    (dispatch act P limit fuel active d s line).peak ≤
      (dispatch act P limit (fuel + 1) active d s line).peak := by
  intro fuel
  induction fuel with
  | zero => intro active d s line; exact active_le_peak 1 active d s line
  | succ fuel ih =>
    intro active d s line
    rw [dispatch, dispatch]
    cases act s line with
    | done s => exact le_rfl
    | stop why => exact le_rfl
    | loop s n line =>
      exact iterate_peak_mono (fun s d => dispatch_mono_succ fuel active d s line)
        (fun s d => ih active d s line) n s d
    | expand s x =>
      simp only
      split_ifs
      · exact le_rfl
      · cases P.assemble x with
        | none => exact le_rfl
        | some line => exact ih _ _ _ _

theorem peak_mono {fuel fuel' active : ℕ} {d : ℤ} {s : σ} {line : τ} (hf : fuel ≤ fuel') :
    (dispatch act P limit fuel active d s line).peak ≤ (dispatch act P limit fuel' active d s line).peak := by
  induction hf with
  | refl => exact le_rfl
  | step _ ih => exact le_trans ih (peak_mono_succ _ _ _ _ _)

/-- No run that is cut short was deeper than the whole. -/
theorem peak_le_of_ends {fuel fuel' active : ℕ} {d : ℤ} {s : σ} {line : τ}
    (h : (dispatch act P limit fuel' active d s line).ending ≠ .outOfFuel) :
    (dispatch act P limit fuel active d s line).peak ≤ (dispatch act P limit fuel' active d s line).peak := by
  rcases Nat.le_total fuel fuel' with hf | hf
  · exact peak_mono hf
  · rw [dispatch_mono hf h]

/-- Without a refusal the counter is as before. -/
theorem depth_of_refused_zero {fuel active : ℕ} {d d' : ℤ} {s s' : σ} {line : τ}
    (h : (dispatch act P limit fuel active d s line).ending = .returned s' d')
    (h0 : (dispatch act P limit fuel active d s line).refused = 0) : d' = d := by
  refine dispatch_induction (I := fun _ d r => ∀ s' d', r.ending = .returned s' d' → r.refused = 0 → d' = d)
    ?_ ?_ ?_ ?_ ?_ fuel active d s line s' d' h h0
  · intro a d s s' d' h _
    exact ((Ending.returned.inj h).2).symm
  · intro a d e he s' d' h
    exact absurd h (he s' d')
  · intro a d s _ s' d' _ h0
    cases h0
  · intro a d r s₁ d₁ r' ih hr ih' s' d' h h0
    have h0 : r.refused + r'.refused = 0 := h0
    rw [ih' s' d' h (by omega), ih s₁ d₁ hr (by omega)]
  · intro a d r _ ih s' d' h h0
    have := ih s' _ (Ending.shift_eq_returned.1 h) h0
    omega

/-- A policy that keeps the counter at a refusal keeps it altogether. -/
theorem depth_keeps (hP : ∀ d, P.refuse d = d) {fuel active : ℕ} {d d' : ℤ} {s s' : σ} {line : τ}
    (h : (dispatch act P limit fuel active d s line).ending = .returned s' d') : d' = d := by
  refine dispatch_induction (I := fun _ d r => ∀ s' d', r.ending = .returned s' d' → d' = d)
    ?_ ?_ ?_ ?_ ?_ fuel active d s line s' d' h
  · intro a d s s' d' h
    exact ((Ending.returned.inj h).2).symm
  · intro a d e he s' d' h
    exact absurd h (he s' d')
  · intro a d s _ s' d' h
    rw [← (Ending.returned.inj h).2, hP]
  · intro a d r s₁ d₁ r' ih hr ih' s' d' h
    rw [ih' s' d' h, ih s₁ d₁ hr]
  · intro a d r _ ih s' d' h
    have := ih s' _ (Ending.shift_eq_returned.1 h)
    omega

/-- **Every refusal of a resetting policy costs the counter** more than the limit. -/
theorem depth_resets (hP : ∀ d, P.refuse d = 0) {fuel active : ℕ} {d d' : ℤ} {s s' : σ} {line : τ}
    (h : (dispatch act P limit fuel active d s line).ending = .returned s' d') :
    d' + (limit + 1) * (dispatch act P limit fuel active d s line).refused ≤ d := by
  refine dispatch_induction
    (I := fun _ d r => ∀ s' d', r.ending = .returned s' d' → d' + (limit + 1) * r.refused ≤ d)
    ?_ ?_ ?_ ?_ ?_ fuel active d s line s' d' h
  · intro a d s s' d' h
    have := (Ending.returned.inj h).2
    simp; omega
  · intro a d e he s' d' h
    exact absurd h (he s' d')
  · intro a d s hd s' d' h
    -- the counter was above the limit and is 0 now
    have := (Ending.returned.inj h).2
    rw [hP] at this
    push_cast
    omega
  · intro a d r s₁ d₁ r' ih hr ih' s' d' h
    have h1 := ih s₁ d₁ hr
    have h2 := ih' s' d' h
    simp only [combine_refused, Nat.cast_add, mul_add]
    omega
  · intro a d r _ ih s' d' h
    have := ih s' _ (Ending.shift_eq_returned.1 h)
    simp only [shift_refused]
    omega

/-- A keeping policy that starts with the counter at the number of active expansions
never has more of them than the limit allows. -/
theorem peak_keeps (hP : ∀ d, P.refuse d = d) {fuel active : ℕ} {d : ℤ} {s : σ} {line : τ} (hd : d = active)
    (ha : (active : ℤ) ≤ limit + 1) : ((dispatch act P limit fuel active d s line).peak : ℤ) ≤ limit + 1 := by
  refine (dispatch_induction (I := fun a d r => d = a → (a : ℤ) ≤ limit + 1 →
      (r.peak : ℤ) ≤ limit + 1 ∧ ∀ s' d', r.ending = .returned s' d' → d' = d)
    ?_ ?_ ?_ ?_ ?_ fuel active d s line hd ha).1
  · intro a d s _ ha
    exact ⟨ha, fun s' d' h => ((Ending.returned.inj h).2).symm⟩
  · intro a d e he _ ha
    exact ⟨ha, fun s' d' h => absurd h (he s' d')⟩
  · intro a d s _ _ ha
    exact ⟨ha, fun s' d' h => by rw [← (Ending.returned.inj h).2, hP]⟩
  · intro a d r s₁ d₁ r' ih hr ih' hd ha
    obtain ⟨hp, hk⟩ := ih hd ha
    obtain rfl := hk s₁ d₁ hr
    obtain ⟨hp', hk'⟩ := ih' hd ha
    refine ⟨?_, hk'⟩
    rw [combine_peak, Nat.cast_max]
    exact max_le hp hp'
  · intro a d r hd ih hda _
    obtain ⟨hp, hk⟩ := ih (by push_cast; omega) (by push_cast; omega)
    -- one level deeper the counter is one higher, and is counted down again behind it
    refine ⟨hp, ?_⟩
    intro s' d' h
    have := hk s' _ (Ending.shift_eq_returned.1 h)
    omega

end Induction

/-! ## Invariants of the state -/

section Invariant

variable {act : σ → τ → Action σ τ ξ ρ} {P : Policy τ ξ} {limit : ℤ}

/-- The calls of `n` runs in a row. -/
def iterateCalls (f : σ → ℤ → Result σ ρ) (calls : σ → ℤ → List (σ × τ)) : ℕ → σ → ℤ → List (σ × τ)
  | 0, _, _ => []
  | n + 1, s, d => calls s d ++ match (f s d).ending with
    | .returned s d => iterateCalls f calls n s d
    | _ => []

/-- The lines run on the way, each with the state it was run in. -/
def calls (act : σ → τ → Action σ τ ξ ρ) (P : Policy τ ξ) (limit : ℤ) :
    (fuel active : ℕ) → (depth : ℤ) → σ → τ → List (σ × τ)
  | 0, _, _, _, _ => []
  | fuel + 1, active, depth, s, line => (s, line) :: match act s line with
    | .done _ => []
    | .stop _ => []
    | .loop s n line => iterateCalls (fun s d => dispatch act P limit fuel active d s line)
        (fun s d => calls act P limit fuel active d s line) n s depth
    | .expand s x =>
      if limit < depth then []
      else match P.assemble x with
        | none => []
        | some line => calls act P limit fuel (active + 1) (depth + 1) s line

/-- The state that a line leads to has the invariant, or the machine stops for a reason
that is allowed. -/
def Action.Keeps (I : σ → Prop) (ok : ρ → Prop) : Action σ τ ξ ρ → Prop
  | .done s => I s
  | .stop why => ok why
  | .loop s _ _ => I s
  | .expand s _ => I s

/-- The same of a run. -/
def Ending.Keeps (I : σ → Prop) (ok : ρ → Prop) : Ending σ ρ → Prop
  | .returned s _ => I s
  | .stopped why => ok why
  | .overflow => True
  | .outOfFuel => True

theorem Ending.keeps_shift {I : σ → Prop} {ok : ρ → Prop} {e : Ending σ ρ} {k : ℤ} :
    (e.shift k).Keeps I ok ↔ e.Keeps I ok := by
  cases e <;> rfl

theorem iterate_invariant {active : ℕ} {I : σ → Prop} {A : σ → τ → Prop} {ok : ρ → Prop}
    {f : σ → ℤ → Result σ ρ} {callsOf : σ → ℤ → List (σ × τ)}
    (hf : ∀ s d, I s → (∀ p ∈ callsOf s d, A p.1 p.2) → (f s d).ending.Keeps I ok) :
    ∀ n s d, I s → (∀ p ∈ iterateCalls f callsOf n s d, A p.1 p.2) →
      (iterate active f n s d).ending.Keeps I ok := by
  intro n
  induction n with
  | zero => intro s d hs _; exact hs
  | succ n ih =>
    intro s d hs hc
    simp only [iterate, iterateCalls] at hc ⊢
    have hfirst := hf s d hs fun p hp => hc p (List.mem_append_left _ hp)
    rcases returned_or (f s d) with ⟨s', d', hr⟩ | hr
    · rw [hr] at hc hfirst
      rw [andThen_of_returned hr]
      exact ih s' d' hfirst fun p hp => hc p (List.mem_append_right _ hp)
    · rwa [andThen_of_not_returned hr]

/-- **An invariant of the state**, under a condition on the lines run on the way. -/
theorem dispatch_invariant {I : σ → Prop} {A : σ → τ → Prop} {ok : ρ → Prop}
    (step : ∀ s line, I s → A s line → (act s line).Keeps I ok) : ∀ fuel active d s line, I s →
    (∀ p ∈ calls act P limit fuel active d s line, A p.1 p.2) →
    (dispatch act P limit fuel active d s line).ending.Keeps I ok := by
  intro fuel
  induction fuel with
  | zero => intro active d s line _ _; exact trivial
  | succ fuel ih =>
    intro active d s line hs hc
    rw [calls] at hc
    rw [dispatch]
    have hstep := step s line hs (hc _ List.mem_cons_self)
    -- the calls behind the first one
    replace hc := fun p hp => hc p (List.mem_cons_of_mem _ hp)
    cases ha : act s line with
    | done s' => rw [ha] at hstep; exact hstep
    | stop why => rw [ha] at hstep; exact hstep
    | loop s' n line' =>
      rw [ha] at hstep hc
      exact iterate_invariant (fun s d hs hc => ih active d s line' hs hc) n s' d hstep hc
    | expand s' x =>
      rw [ha] at hstep hc
      simp only at hc ⊢
      split_ifs at hc ⊢
      · exact hstep
      · cases hx : P.assemble x with
        | none => exact trivial
        | some line' =>
          rw [hx] at hc
          exact Ending.keeps_shift.2 (ih _ _ _ _ hstep hc)

/-! ### The calls in order -/

/-- The state an action leaves behind. -/
def Action.state : Action σ τ ξ ρ → Option σ
  | .done s => some s
  | .stop _ => none
  | .loop s _ _ => some s
  | .expand s _ => some s

/-- The state a run returns. -/
def Ending.state : Ending σ ρ → Option σ
  | .returned s _ => some s
  | .stopped _ => none
  | .overflow => none
  | .outOfFuel => none

@[simp] theorem Ending.state_shift (e : Ending σ ρ) (k : ℤ) : (e.shift k).state = e.state := by
  cases e <;> rfl

theorem Ending.state_eq_none {e : Ending σ ρ} (h : ∀ s d, e ≠ .returned s d) : e.state = none := by
  cases e with
  | returned s d => exact absurd rfl (h s d)
  | stopped => rfl
  | overflow => rfl
  | outOfFuel => rfl

/-- **A trace**: every call is made in the state that the one before it left. `some s` is
where the calls led, `none` stands for calls that were cut short. -/
inductive Trace (act : σ → τ → Action σ τ ξ ρ) : σ → List (σ × τ) → Option σ → Prop
  | nil (s) : Trace act s [] (some s)
  | cut (s) : Trace act s [] none
  | stop {s line} : (act s line).state = none → Trace act s [(s, line)] none
  | cons {s line s' cs o} : (act s line).state = some s' → Trace act s' cs o → Trace act s ((s, line) :: cs) o

theorem Trace.append {s s' : σ} {cs cs' : List (σ × τ)} {o : Option σ} (h : Trace act s cs (some s'))
    (h' : Trace act s' cs' o) : Trace act s (cs ++ cs') o := by
  generalize ho : some s' = o' at h
  induction h with
  | nil s => cases ho; exact h'
  | cut s => cases ho
  | stop _ => cases ho
  | cons hs _ ih => exact .cons hs (ih ho)

theorem iterate_trace {active : ℕ} {f : σ → ℤ → Result σ ρ} {callsOf : σ → ℤ → List (σ × τ)}
    (hf : ∀ s d, Trace act s (callsOf s d) (f s d).ending.state) :
    ∀ n s d, Trace act s (iterateCalls f callsOf n s d) (iterate active f n s d).ending.state := by
  intro n
  induction n with
  | zero => intro s d; exact .nil s
  | succ n ih =>
    intro s d
    have hfirst := hf s d
    simp only [iterate, iterateCalls]
    rcases returned_or (f s d) with ⟨s', d', hr⟩ | hr
    · rw [hr] at hfirst ⊢
      rw [andThen_of_returned hr]
      exact hfirst.append (ih s' d')
    · rw [andThen_of_not_returned hr, Ending.state_eq_none hr] at *
      split
      · exact absurd ‹_› (hr _ _)
      · rwa [List.append_nil]

/-- **The calls of a run are a trace** of it. -/
theorem dispatch_trace : ∀ fuel active d (s : σ) (line : τ),
    Trace act s (calls act P limit fuel active d s line) (dispatch act P limit fuel active d s line).ending.state := by
  intro fuel
  induction fuel with
  | zero => intro active d s line; exact .cut s
  | succ fuel ih =>
    intro active d s line
    rw [calls, dispatch]
    cases ha : act s line with
    | done s' => exact .cons (by rw [ha]; rfl) (.nil s')
    | stop why => exact .stop (by rw [ha]; rfl)
    | loop s' n line' =>
      exact .cons (by rw [ha]; rfl) (iterate_trace (fun s d => ih active d s line') n s' d)
    | expand s' x =>
      refine .cons (by rw [ha]; rfl) ?_
      simp only
      split_ifs
      · exact .nil s'
      · cases P.assemble x with
        | none => exact .cut s'
        | some line' =>
          simp only [shift_ending, Ending.state_shift]
          exact ih _ _ s' line'

end Invariant

/-! ## Termination -/

section Termination

variable {act : σ → τ → Action σ τ ξ ρ} {P : Policy τ ξ} {limit : ℤ}

theorem iterate_terminates (hP : ∀ d, P.refuse d = d) {active : ℕ} {d : ℤ} {line : τ}
    (h : ∀ s, ∃ fuel, (dispatch act P limit fuel active d s line).ending ≠ .outOfFuel) :
    ∀ n s, ∃ fuel,
      (iterate active (fun s d => dispatch act P limit fuel active d s line) n s d).ending ≠ .outOfFuel := by
  intro n
  induction n with
  | zero => intro s; exact ⟨0, fun h => by cases h⟩
  | succ n ih =>
    intro s
    obtain ⟨fuel, hf⟩ := h s
    rcases returned_or (dispatch act P limit fuel active d s line) with ⟨s', d', hr⟩ | hr
    · obtain rfl := depth_keeps hP hr
      obtain ⟨fuel', hf'⟩ := ih s'
      -- the fuel that is enough for both
      have hfirst := dispatch_mono (le_max_left fuel fuel') hf
      have hrest := iterate_mono (fun s d => dispatch_mono (s := s) (d := d) (le_max_right fuel fuel'))
        n s' d' hf'
      refine ⟨max fuel fuel', ?_⟩
      rw [iterate, hfirst, andThen_of_returned hr, combine_ending, hrest]
      exact hf'
    · refine ⟨fuel, ?_⟩
      rw [iterate, andThen_of_not_returned hr]
      exact hf

/-- **A keeping policy always ends**: the depth is bounded, and at one depth the lines
that are run again get shorter. -/
theorem keeps_terminates (hP : ∀ d, P.refuse d = d) (size : τ → ℕ)
    (hloop : ∀ s l s' n l', act s l = .loop s' n l' → size l' < size l)
    (active : ℕ) (d : ℤ) (s : σ) (line : τ) : ∃ fuel, (dispatch act P limit fuel active d s line).ending ≠ .outOfFuel := by
  cases ha : act s line with
  | done s' => exact ⟨1, by rw [dispatch, ha]; exact fun h => by cases h⟩
  | stop why => exact ⟨1, by rw [dispatch, ha]; exact fun h => by cases h⟩
  | loop s' n line' =>
    -- the same depth, a shorter line
    have := hloop s line s' n line' ha
    obtain ⟨fuel, hf⟩ := iterate_terminates hP
      (fun s => keeps_terminates hP size hloop active d s line') n s'
    exact ⟨fuel + 1, by rw [dispatch, ha]; exact hf⟩
  | expand s' x =>
    by_cases hd : limit < d
    · exact ⟨1, by rw [dispatch, ha]; simp [hd]⟩
    · cases hx : P.assemble x with
      | none => exact ⟨1, by rw [dispatch, ha]; simp [hd, hx]⟩
      | some line' =>
        -- one level deeper, and `d ≤ limit`
        obtain ⟨fuel, hf⟩ := keeps_terminates hP size hloop (active + 1) (d + 1) s' line'
        exact ⟨fuel + 1, by rw [dispatch, ha]; simpa [hd, hx] using hf⟩
termination_by ((limit + 1 - d).toNat, size line)
decreasing_by
  · exact Prod.Lex.right _ this
  · exact Prod.Lex.left _ _ (by omega)

end Termination

end Expander
