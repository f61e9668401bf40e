import Mathlib.Data.Set.Basic

/-!
# Paintings

What a drawing routine puts over a picture: a value at some points, and nothing at the
others.

* `solid`, `layer`, `stack`: one colour on a set, one painting over another, and a list of
  them, the last one on top.
* `stack_solid`: a stack of one colour is solid on the union.
* `stack_of_unique`, `stack_of_mem`: at a point that only one painting of the list covers.
* `stack_perm`: paintings of sets that are pairwise apart, in any order.
* `Within`, `Palette`: where, and in which colours.
* `Canvas`: states that are seen as pictures; `Paints`: a partial routine that changes what is
  seen by a painting, closed under sequence (`Paints.bind`) and loops (`Paints.foldlM`).
-/

/-- A value at some of the points. -/
def Painting (ι α : Type*) := ι → Option α

namespace Painting

variable {ι α β : Type*} {p q : Painting ι α} {S T : Set ι} {V : Set α} {c : α} {i : ι} {l : List β}

def blank : Painting ι α := fun _ => none

open Classical in
/-- One colour on a set. -/
noncomputable def solid (S : Set ι) (c : α) : Painting ι α := fun i => if i ∈ S then some c else none

/-- `q` over `p`. -/
def layer (p q : Painting ι α) : Painting ι α := fun i => (q i).or (p i)

/-- The painting on a picture. -/
def on (p : Painting ι α) (s : ι → α) : ι → α := fun i => (p i).getD (s i)

/-- The paintings of a list, the last one on top. -/
def stack (p : β → Painting ι α) : List β → Painting ι α
  | [] => blank
  | b :: l => (p b).layer (stack p l)

/-- Nothing is painted outside `S`. -/
def Within (p : Painting ι α) (S : Set ι) : Prop := ∀ i ∉ S, p i = none

theorem solid_of_mem (h : i ∈ S) : solid S c i = some c := if_pos h

theorem solid_of_notMem (h : i ∉ S) : solid S c i = none := if_neg h

theorem solid_congr (h : i ∈ S ↔ i ∈ T) : solid S c i = solid T c i := by
  by_cases hS : i ∈ S
  · rw [solid_of_mem hS, solid_of_mem (h.1 hS)]
  · rw [solid_of_notMem hS, solid_of_notMem (mt h.2 hS)]

theorem getD_solid {P : Prop} [Decidable P] (h : i ∈ S ↔ P) (c a : α) : (solid S c i).getD a = if P then c else a := by
  by_cases hP : P
  · rw [solid_of_mem (h.2 hP), if_pos hP, Option.getD_some]
  · rw [solid_of_notMem (mt h.1 hP), if_neg hP, Option.getD_none]

theorem on_layer (p q : Painting ι α) (s : ι → α) : (p.layer q).on s = q.on (p.on s) := by
  funext i
  unfold on layer
  cases q i with
  | none => rfl
  | some c => rfl

theorem on_of_none (h : p i = none) (s : ι → α) : p.on s i = s i := by rw [on, h, Option.getD_none]

theorem on_of_some (h : p i = some c) (s : ι → α) : p.on s i = c := by rw [on, h, Option.getD_some]

theorem layer_none (hp : p i = none) (hq : q i = none) : p.layer q i = none := by rw [layer, hp, hq, Option.or_none]

theorem layer_assoc (p q r : Painting ι α) : (p.layer q).layer r = p.layer (q.layer r) := by
  funext i
  exact (Option.or_assoc ..).symm

/-- One colour over itself. -/
theorem solid_layer_solid (S T : Set ι) (c : α) : (solid S c).layer (solid T c) = solid (S ∪ T) c := by
  funext i
  by_cases hS : i ∈ S <;> by_cases hT : i ∈ T <;> simp [layer, solid, hS, hT]

theorem solid_empty (c : α) : solid (∅ : Set ι) c = blank := by
  funext i
  exact if_neg (Set.notMem_empty i)

/-! ## Stacks -/

/-- **A stack of one colour.** -/
theorem stack_solid (S : β → Set ι) (c : α) (l : List β) :
    stack (fun b => solid (S b) c) l = solid {i | ∃ b ∈ l, i ∈ S b} c := by
  induction l with
  | nil =>
    have hnone : {i | ∃ b ∈ ([] : List β), i ∈ S b} = ∅ := by simp
    rw [hnone, solid_empty]
    rfl
  | cons b l ih =>
    rw [stack, ih, solid_layer_solid]
    congr 1
    ext i
    simp

theorem stack_none {p : β → Painting ι α} (h : ∀ b ∈ l, p b i = none) : stack p l i = none := by
  induction l with
  | nil => rfl
  | cons b l ih =>
    exact layer_none (h b List.mem_cons_self) (ih fun b' hb' => h b' (List.mem_cons_of_mem b hb'))

/-- What a stack is at a point depends on the paintings there. -/
theorem stack_congr {p q : β → Painting ι α} (h : ∀ b ∈ l, p b i = q b i) : stack p l i = stack q l i := by
  induction l with
  | nil => rfl
  | cons b l ih =>
    rw [stack, stack, layer, layer, h b List.mem_cons_self, ih fun b' hb' => h b' (List.mem_cons_of_mem b hb')]

/-- **At a point that one painting covers**, the stack is that painting. -/
theorem stack_of_unique {p : β → Painting ι α} {b : β} (hb : b ∈ l) (h : ∀ b' ∈ l, p b' i ≠ none → b' = b) :
    stack p l i = p b i := by
  induction l with
  | nil => cases hb
  | cons b' l ih =>
    have hrest : ∀ b'' ∈ l, p b'' i ≠ none → b'' = b := fun b'' hb'' => h b'' (List.mem_cons_of_mem b' hb'')
    rw [stack, layer]
    by_cases hl : b ∈ l
    · rw [ih hl hrest]
      cases hp : p b i with
      | some c => rfl
      | none =>
        rw [Option.none_or]
        by_contra hne
        rw [h b' List.mem_cons_self hne] at hne
        exact hne hp
    · -- the painting is the first one
      obtain rfl : b = b' := (List.mem_cons.1 hb).resolve_right hl
      have hnone : stack p l i = none := by
        refine stack_none fun b'' hb'' => ?_
        by_contra hne
        exact hl (hrest b'' hb'' hne ▸ hb'')
      rw [hnone, Option.none_or]

/-- Disjoint sets, each in its colour. -/
theorem stack_of_mem {S : β → Set ι} {c : β → α} {b : β} (hb : b ∈ l) (hi : i ∈ S b)
    (h : ∀ b' ∈ l, i ∈ S b' → b' = b) : stack (fun b => solid (S b) (c b)) l i = some (c b) := by
  rw [stack_of_unique hb]
  · exact solid_of_mem hi
  · intro b' hb' hne
    exact h b' hb' (by_contra fun hout => hne (solid_of_notMem hout))

theorem stack_append (p : β → Painting ι α) (l₁ l₂ : List β) : stack p (l₁ ++ l₂) = (stack p l₁).layer (stack p l₂) := by
  induction l₁ with
  | nil =>
    funext i
    exact (Option.or_none).symm
  | cons b l₁ ih => rw [List.cons_append, stack, stack, ih, layer_assoc]

/-- A stack of stacks. -/
theorem stack_flatMap {γ : Type*} (p : γ → Painting ι α) (g : β → List γ) (l : List β) :
    stack p (l.flatMap g) = stack (fun b => stack p (g b)) l := by
  induction l with
  | nil => rfl
  | cons b l ih => rw [List.flatMap_cons, stack_append, ih, stack]

/-! ## Supports -/

theorem within_solid (S : Set ι) (c : α) : (solid S c).Within S := fun _ h => solid_of_notMem h

theorem Within.mono (h : p.Within S) (hST : S ⊆ T) : p.Within T := fun i hi => h i fun hS => hi (hST hS)

theorem within_blank (S : Set ι) : (blank : Painting ι α).Within S := fun _ _ => rfl

theorem Within.layer (hp : p.Within S) (hq : q.Within S) : (p.layer q).Within S :=
  fun i hi => layer_none (hp i hi) (hq i hi)

theorem within_stack {p : β → Painting ι α} (h : ∀ b ∈ l, (p b).Within S) : (stack p l).Within S :=
  fun i hi => stack_none fun b hb => h b hb i hi

/-- Sets without a common point. -/
def Apart (S T : Set ι) : Prop := ∀ i ∈ S, i ∉ T

theorem Apart.symm (h : Apart S T) : Apart T S := fun i hT hS => h i hS hT

/-- Paintings of sets without a common point can change places. -/
theorem Within.layer_comm (hp : p.Within S) (hq : q.Within T) (hST : Apart S T) : p.layer q = q.layer p := by
  funext i
  unfold Painting.layer
  by_cases hS : i ∈ S
  · rw [hq i (hST i hS), Option.none_or, Option.or_none]
  · rw [hp i hS, Option.none_or, Option.or_none]

/-- **Paintings of sets that are pairwise apart**, in any order. -/
theorem stack_perm {p : β → Painting ι α} {S : β → Set ι} {l l' : List β} (h : ∀ b ∈ l, (p b).Within (S b))
    (hdisj : l.Pairwise fun a b => Apart (S a) (S b)) (hperm : l.Perm l') : stack p l = stack p l' := by
  induction hperm with
  | nil => rfl
  | cons b _ ih => rw [stack, stack, ih (fun b' hb' => h b' (List.mem_cons_of_mem b hb')) (List.pairwise_cons.1 hdisj).2]
  | swap a b l =>
    have hba := (List.pairwise_cons.1 hdisj).1 a List.mem_cons_self
    have hcomm := Within.layer_comm (h b List.mem_cons_self) (h a (List.mem_cons_of_mem b List.mem_cons_self)) hba
    rw [stack, stack, stack, stack, ← layer_assoc, hcomm, layer_assoc]
  | trans hperm _ ih ih' =>
    rw [ih h hdisj]
    exact ih' (fun b hb => h b (hperm.mem_iff.2 hb)) ((hperm.pairwise_iff fun hab => hab.symm).1 hdisj)

/-- What one painting of the list covers is covered. -/
theorem stack_covers {p : β → Painting ι α} {b : β} (hb : b ∈ l) (hp : p b i ≠ none) : stack p l i ≠ none := by
  induction l with
  | nil => cases hb
  | cons b' l ih =>
    intro hnone
    rw [stack, layer, Option.or_eq_none_iff] at hnone
    rcases List.mem_cons.1 hb with rfl | hb
    · exact hp hnone.2
    · exact ih hb hnone.1

/-! ## Colours -/

/-- Only colours of `V` are used. -/
def Palette (p : Painting ι α) (V : Set α) : Prop := ∀ i c, p i = some c → c ∈ V

theorem palette_blank (V : Set α) : (blank : Painting ι α).Palette V := fun _ _ h => nomatch h

theorem palette_solid (S : Set ι) (h : c ∈ V) : (solid S c).Palette V := by
  intro i c' hc'
  by_cases hi : i ∈ S
  · rw [solid_of_mem hi] at hc'
    exact Option.some.inj hc' ▸ h
  · rw [solid_of_notMem hi] at hc'
    cases hc'

theorem Palette.layer (hp : p.Palette V) (hq : q.Palette V) : (p.layer q).Palette V := by
  intro i c hc
  rcases Option.or_eq_some_iff.1 hc with hq' | ⟨-, hp'⟩
  · exact hq i c hq'
  · exact hp i c hp'

theorem palette_stack {p : β → Painting ι α} (h : ∀ b ∈ l, (p b).Palette V) : (stack p l).Palette V := by
  induction l with
  | nil => exact palette_blank V
  | cons b l ih =>
    exact (h b List.mem_cons_self).layer (ih fun b' hb' => h b' (List.mem_cons_of_mem b hb'))

end Painting

/-- States that are seen as pictures, on an area. `same` is what drawing keeps. -/
structure Canvas (σ ι α : Type*) where
  view : σ → ι → α
  area : σ → Set ι
  same : σ → σ → Prop
  refl : ∀ s, same s s
  trans : ∀ {s s' s''}, same s s' → same s' s'' → same s s''
  area_eq : ∀ {s s'}, same s s' → area s' = area s

namespace Canvas

open Painting

variable {σ ι α β : Type*} {C : Canvas σ ι α} {s s' : σ} {r : Option σ} {p q : Painting ι α}

/-- **The result** is a state on which the painting is over what was there. -/
def Paints (C : Canvas σ ι α) (s : σ) (r : Option σ) (p : Painting ι α) : Prop :=
  ∃ s', r = some s' ∧ C.same s s' ∧ ∀ i ∈ C.area s, C.view s' i = p.on (C.view s) i

theorem Paints.blank (C : Canvas σ ι α) (s : σ) : C.Paints s (some s) blank := ⟨s, rfl, C.refl s, fun _ _ => rfl⟩

/-- What is painted outside the area does not matter. -/
theorem Paints.congr (h : C.Paints s r p) (hpq : ∀ i ∈ C.area s, p i = q i) : C.Paints s r q := by
  obtain ⟨s', hr, hsame, hview⟩ := h
  refine ⟨s', hr, hsame, fun i hi => ?_⟩
  rw [hview i hi, on, on, hpq i hi]

/-- **One routine after the other.** -/
theorem Paints.bind {k : σ → Option σ} (h : C.Paints s r p) (hk : ∀ s', C.same s s' → C.Paints s' (k s') q) :
    C.Paints s (r.bind k) (p.layer q) := by
  obtain ⟨s', rfl, hsame, hview⟩ := h
  obtain ⟨s'', hr, hsame', hview'⟩ := hk s' hsame
  refine ⟨s'', hr, C.trans hsame hsame', ?_⟩
  intro i hi
  have hi' : i ∈ C.area s' := by rwa [C.area_eq hsame]
  rw [hview' i hi', on_layer, on, on, hview i hi]

/-- **A loop.** -/
theorem Paints.foldlM {step : σ → β → Option σ} {p : β → Painting ι α} {l : List β}
    (h : ∀ b ∈ l, ∀ s', C.same s s' → C.Paints s' (step s' b) (p b)) : C.Paints s (l.foldlM step s) (stack p l) := by
  induction l generalizing s with
  | nil => exact .blank C s
  | cons b l ih =>
    rw [List.foldlM_cons]
    refine (h b List.mem_cons_self s (C.refl s)).bind fun s' hs' => ih ?_
    exact fun b' hb' s'' hs'' => h b' (List.mem_cons_of_mem b hb') s'' (C.trans hs' hs'')

/-- A point that is not painted looks the same. -/
theorem Paints.unchanged {S : Set ι} (h : C.Paints s r p) (hp : p.Within S) :
    ∃ s', r = some s' ∧ C.same s s' ∧ ∀ i ∈ C.area s, i ∉ S → C.view s' i = C.view s i := by
  obtain ⟨s', hr, hsame, hview⟩ := h
  refine ⟨s', hr, hsame, fun i hi hS => ?_⟩
  rw [hview i hi, on_of_none (hp i hS)]

end Canvas
