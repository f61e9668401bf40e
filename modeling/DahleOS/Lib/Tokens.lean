import Mathlib.Data.Fintype.Prod

/-!
# Tokens on bounded lines

Finitely many tokens, each with a place on each of some axes, and a focus that goes round.
The focused token moves by one place; at an end of the line it stays.

* `Tokens`, `Move`, `Tokens.step`: the places are within their limits by construction.
* `reaches_place`, `reaches_focus`: one place, and the focus.
* `reaches`: every configuration can be reached from every other.
-/

variable {α : Type*} {n : ℕ} {lim : α → Fin n → ℕ}

/-- The places of the tokens, on the axes `α`, and the focus. -/
@[ext]
structure Tokens (α : Type*) (n : ℕ) (lim : α → Fin n → ℕ) where
  focus : Fin n
  pos : α → Fin n → ℕ
  le : ∀ a i, pos a i ≤ lim a i

/-- Moving the focus on, and moving the focused token. -/
inductive Move (α : Type*)
  | next
  | back (a : α)
  | ahead (a : α)

namespace Tokens

theorem next_lt (i : Fin n) : (i.val + 1) % n < n := Nat.mod_lt _ i.pos

/-- The token after this one. -/
def nextOf (i : Fin n) : Fin n := ⟨(i.val + 1) % n, next_lt i⟩

theorem pred_le (t : Tokens α n lim) (a : α) (i : Fin n) : t.pos a i - 1 ≤ lim a i := (Nat.sub_le _ 1).trans (t.le a i)

variable [DecidableEq α]

/-- `pos` with one place changed. -/
def placed (pos : α → Fin n → ℕ) (a : α) (i : Fin n) (v : ℕ) : α → Fin n → ℕ := fun b j => if b = a ∧ j = i then v else pos b j

theorem placed_le {pos : α → Fin n → ℕ} (h : ∀ a i, pos a i ≤ lim a i) {a : α} {i : Fin n} {v : ℕ} (hv : v ≤ lim a i) :
    ∀ b j, placed pos a i v b j ≤ lim b j := by
  intro b j
  unfold placed
  split
  next heq =>
    obtain ⟨rfl, rfl⟩ := heq
    exact hv
  next => exact h b j

/-- A token at a place. -/
def place (t : Tokens α n lim) (a : α) (i : Fin n) (v : ℕ) (hv : v ≤ lim a i) : Tokens α n lim :=
  ⟨t.focus, placed t.pos a i v, placed_le t.le hv⟩

def step (t : Tokens α n lim) : Move α → Tokens α n lim
  | .next => ⟨nextOf t.focus, t.pos, t.le⟩
  | .back a => t.place a t.focus (t.pos a t.focus - 1) (t.pred_le a t.focus)
  | .ahead a => t.place a t.focus (min (t.pos a t.focus + 1) (lim a t.focus)) (Nat.min_le_right _ _)

/-! ## Reachability -/

/-- Some moves lead from the one to the other. -/
def Reaches (t t' : Tokens α n lim) : Prop := ∃ moves : List (Move α), moves.foldl step t = t'

theorem Reaches.refl (t : Tokens α n lim) : Reaches t t := ⟨[], rfl⟩

theorem Reaches.trans {t t' t'' : Tokens α n lim} (h : Reaches t t') (h' : Reaches t' t'') : Reaches t t'' := by
  obtain ⟨moves, rfl⟩ := h
  obtain ⟨moves', rfl⟩ := h'
  exact ⟨moves ++ moves', List.foldl_append⟩

theorem Reaches.step {t t' : Tokens α n lim} (h : Reaches t t') (m : Move α) : Reaches t (t'.step m) := h.trans ⟨[m], rfl⟩

variable (t t' : Tokens α n lim)

theorem place_self (a : α) (i : Fin n) : t.place a i (t.pos a i) (t.le a i) = t := by
  ext b j
  · rfl
  · unfold place placed
    dsimp only
    split
    next heq => rw [heq.1, heq.2]
    next => rfl

theorem place_pos {a : α} {i : Fin n} {v : ℕ} (hv : v ≤ lim a i) : (t.place a i v hv).pos a i = v := if_pos ⟨rfl, rfl⟩

theorem ahead_place {a : α} {v : ℕ} (hv : v + 1 ≤ lim a t.focus) :
    (t.place a t.focus v (Nat.le_of_succ_le hv)).step (.ahead a) = t.place a t.focus (v + 1) hv := by
  have hpos := t.place_pos (a := a) (i := t.focus) (Nat.le_of_succ_le hv)
  ext b j
  · rfl
  · change placed (placed t.pos a t.focus v) a t.focus
      (min ((t.place a t.focus v (Nat.le_of_succ_le hv)).pos a t.focus + 1) (lim a t.focus)) b j = placed t.pos a t.focus (v + 1) b j
    rw [hpos, Nat.min_eq_left hv]
    unfold placed
    split <;> rfl

theorem back_place {a : α} {v : ℕ} (hv : v ≤ lim a t.focus) :
    (t.place a t.focus v hv).step (.back a) = t.place a t.focus (v - 1) ((Nat.sub_le v 1).trans hv) := by
  have hpos := t.place_pos (a := a) (i := t.focus) hv
  ext b j
  · rfl
  · change placed (placed t.pos a t.focus v) a t.focus ((t.place a t.focus v hv).pos a t.focus - 1) b j =
      placed t.pos a t.focus (v - 1) b j
    rw [hpos]
    unfold placed
    split <;> rfl

/-- Ahead, place by place. -/
theorem reaches_ahead (a : α) : ∀ (k : ℕ) (h : t.pos a t.focus + k ≤ lim a t.focus),
    Reaches t (t.place a t.focus (t.pos a t.focus + k) h) := by
  intro k
  induction k with
  | zero => exact fun _ => ⟨[], (place_self t a t.focus).symm⟩
  | succ k ih =>
    intro h
    exact ahead_place t h ▸ (ih (Nat.le_of_succ_le h)).step (.ahead a)

/-- Back, place by place. -/
theorem reaches_back (a : α) (k : ℕ) :
    Reaches t (t.place a t.focus (t.pos a t.focus - k) ((Nat.sub_le _ k).trans (t.le a t.focus))) := by
  induction k with
  | zero => exact ⟨[], (place_self t a t.focus).symm⟩
  | succ k ih => exact back_place t _ ▸ ih.step (.back a)

/-- **The focused token gets to every place** of an axis. -/
theorem reaches_place (a : α) {v : ℕ} (hv : v ≤ lim a t.focus) : Reaches t (t.place a t.focus v hv) := by
  by_cases hle : t.pos a t.focus ≤ v
  · obtain ⟨k, rfl⟩ := Nat.exists_eq_add_of_le hle
    exact reaches_ahead t a k hv
  · obtain ⟨k, rfl⟩ : ∃ k, v = t.pos a t.focus - k := ⟨t.pos a t.focus - v, by omega⟩
    exact reaches_back t a k

/-- **The focus gets to every token.** -/
theorem reaches_focus (i : Fin n) : Reaches t ⟨i, t.pos, t.le⟩ := by
  have hround (k : ℕ) : Reaches t ⟨⟨(t.focus.val + k) % n, Nat.mod_lt _ t.focus.pos⟩, t.pos, t.le⟩ := by
    induction k with
    | zero =>
      refine ⟨[], ?_⟩
      ext
      · exact (Nat.mod_eq_of_lt t.focus.isLt).symm
      · rfl
    | succ k ih =>
      have hmove := ih.step .next
      have heq : nextOf (⟨(t.focus.val + k) % n, Nat.mod_lt _ t.focus.pos⟩ : Fin n) =
          ⟨(t.focus.val + (k + 1)) % n, Nat.mod_lt _ t.focus.pos⟩ := Fin.ext (Nat.mod_add_mod ..)
      rw [← heq]
      exact hmove
  have hi := i.isLt
  have hfocus := t.focus.isLt
  have heq : (⟨(t.focus.val + (n - t.focus.val + i.val)) % n, Nat.mod_lt _ t.focus.pos⟩ : Fin n) = i := by
    have hsum : t.focus.val + (n - t.focus.val + i.val) = n + i.val := by omega
    refine Fin.ext ?_
    dsimp only
    rw [hsum, Nat.add_mod_left, Nat.mod_eq_of_lt hi]
  have hgoal := hround (n - t.focus.val + i.val)
  rwa [heq] at hgoal

/-- **Every configuration can be reached** from every other one. -/
theorem reaches [Fintype α] : Reaches t t' := by
  -- the places, one after the other
  have hplaces (l : List (α × Fin n)) : ∃ r, Reaches t r ∧ ∀ a i, (a, i) ∈ l → r.pos a i = t'.pos a i := by
    induction l with
    | nil => exact ⟨t, .refl t, fun _ _ h => nomatch h⟩
    | cons c l ih =>
      obtain ⟨r, hr, hpos⟩ := ih
      obtain ⟨a, i⟩ := c
      refine ⟨_, (hr.trans (reaches_focus r i)).trans (reaches_place _ a (t'.le a i)), ?_⟩
      intro b j hbj
      change placed r.pos a i (t'.pos a i) b j = t'.pos b j
      unfold placed
      split
      next heq => rw [heq.1, heq.2]
      next hne =>
        refine hpos b j ((List.mem_cons.1 hbj).resolve_left ?_)
        exact fun heq => hne (Prod.mk.inj heq)
  obtain ⟨r, hr, hpos⟩ := hplaces Finset.univ.toList
  have heq : (⟨t'.focus, r.pos, r.le⟩ : Tokens α n lim) = t' := by
    ext a i
    · rfl
    · exact hpos a i (Finset.mem_toList.2 (Finset.mem_univ _))
  exact heq ▸ hr.trans (reaches_focus r t'.focus)

end Tokens
