import Mathlib.Data.List.Basic

/-!
# Runs of partial steps

`l.foldlM step s` makes one step for each element of `l`, and fails with the first step that
fails.

* `foldlM_keeps`: steps that succeed on an invariant and keep it make a run that does.
* `foldlM_holds`: an invariant that successful steps keep holds after a successful run.
* `foldlM_snoc`: the last step of a run.
* `answers`: a run of calls that answer.
* `answers_rel`: calls that agree in related states make runs that do.
-/

namespace PartialRun

variable {σ α : Type*} {step : σ → α → Option σ} {P : σ → Prop} {s s' : σ} {l : List α}

theorem foldlM_keeps (hs : P s) (h : ∀ a ∈ l, ∀ s, P s → ∃ s', step s a = some s' ∧ P s') :
    ∃ s', l.foldlM step s = some s' ∧ P s' := by
  induction l generalizing s with
  | nil => exact ⟨s, rfl, hs⟩
  | cons a l ih =>
    obtain ⟨s₁, hstep, hs₁⟩ := h a List.mem_cons_self s hs
    rw [List.foldlM_cons, hstep]
    exact ih hs₁ fun b hb => h b (List.mem_cons_of_mem a hb)

theorem foldlM_holds (hs : P s) (h : ∀ a ∈ l, ∀ s s', P s → step s a = some s' → P s')
    (hrun : l.foldlM step s = some s') : P s' := by
  induction l generalizing s with
  | nil => cases hrun; exact hs
  | cons a l ih =>
    rw [List.foldlM_cons] at hrun
    obtain ⟨s₁, hstep, hrest⟩ := Option.bind_eq_some_iff.1 hrun
    exact ih (h a List.mem_cons_self s s₁ hs hstep) (fun b hb => h b (List.mem_cons_of_mem a hb)) hrest

theorem foldlM_snoc {a : α} : (l ++ [a]).foldlM step s = some s' ↔
    ∃ s₁, l.foldlM step s = some s₁ ∧ step s₁ a = some s' := by
  rw [List.foldlM_append, Option.bind_eq_bind, Option.bind_eq_some_iff]
  simp only [List.foldlM_cons, List.foldlM_nil, Option.bind_eq_bind, Option.pure_def, Option.bind_fun_some]

/-! ## Calls with answers -/

variable {τ β : Type*} {f : σ → α → Option (β × σ)} {g : τ → α → Option (β × τ)}

/-- One call for each element of a list, with all answers. -/
def answers (f : σ → α → Option (β × σ)) : List α → σ → Option (List β × σ)
  | [], s => some ([], s)
  | a :: l, s => do
    let (b, s) ← f s a
    let (bs, s) ← answers f l s
    return (b :: bs, s)

theorem answers_cons {a : α} {b : β} (h : f s a = some (b, s')) (l : List α) :
    answers f (a :: l) s = (answers f l s').map fun p => (b :: p.1, p.2) := by
  rw [answers, h, Option.bind_eq_bind, Option.bind_some]
  exact (Option.map_eq_bind ..).symm

theorem rel_bind {α β γ δ : Type*} {R : α → β → Prop} {S : γ → δ → Prop} {x : Option α} {y : Option β} {f : α → Option γ}
    {g : β → Option δ} (hxy : Option.Rel R x y) (h : ∀ a b, R a b → Option.Rel S (f a) (g b)) :
    Option.Rel S (x.bind f) (y.bind g) := by
  cases hxy with
  | some hab => exact h _ _ hab
  | none => exact .none

theorem rel_some_left {α β : Type*} {R : α → β → Prop} {a : α} {y : Option β} (h : Option.Rel R (some a) y) :
    ∃ b, y = some b ∧ R a b := by
  cases h with
  | some hab => exact ⟨_, rfl, hab⟩

theorem rel_some_right {α β : Type*} {R : α → β → Prop} {x : Option α} {b : β} (h : Option.Rel R x (some b)) :
    ∃ a, x = some a ∧ R a b := by
  cases h with
  | some hab => exact ⟨_, rfl, hab⟩

/-- **Two systems that agree** on every call, in related states, agree on every run. -/
theorem answers_rel {R : σ → τ → Prop} {t : τ} (hl : ∀ a ∈ l, ∀ s t, R s t →
      Option.Rel (fun x y => x.1 = y.1 ∧ R x.2 y.2) (f s a) (g t a)) (h : R s t) :
    Option.Rel (fun x y => x.1 = y.1 ∧ R x.2 y.2) (answers f l s) (answers g l t) := by
  induction l generalizing s t with
  | nil => exact .some ⟨rfl, h⟩
  | cons a l ih =>
    unfold answers
    refine rel_bind (hl a List.mem_cons_self s t h) fun x y hxy => ?_
    refine rel_bind (ih (fun a ha => hl a (List.mem_cons_of_mem _ ha)) hxy.2) fun bs cs hbc => ?_
    exact .some ⟨congrArg₂ List.cons hxy.1 hbc.1, hbc.2⟩

theorem answers_append (l₁ l₂ : List α) (s : σ) : answers f (l₁ ++ l₂) s =
    (answers f l₁ s).bind fun p => (answers f l₂ p.2).map fun q => (p.1 ++ q.1, q.2) := by
  induction l₁ generalizing s with
  | nil =>
    rw [List.nil_append, answers, Option.bind_some]
    cases answers f l₂ s <;> rfl
  | cons a l₁ ih =>
    rw [List.cons_append]
    cases hf : f s a with
    | none =>
      rw [answers, answers, hf]
      rfl
    | some x =>
      rw [answers_cons hf, answers_cons hf, ih]
      cases answers f l₁ x.2 with
      | none => rfl
      | some p =>
        simp only [Option.bind_some, Option.map_some, Option.map_map]
        rfl

end PartialRun
