import Mathlib.Data.List.Nodup
import Mathlib.Data.List.Infix
import Mathlib.Logic.Function.Basic
import Mathlib.Logic.Relation

/-!
# Forests kept as child lists and owner links

A forest over a type of nodes is given twice: `kids d` lists the children of `d` in
order, and `owner c` is the node that `c` records as its parent. `Owned` says that
the two agree: a listed node is listed once in all, its owner is the lister, and it
comes after it in the order of the nodes.

* `link`, `unlink`: the two changes, a fresh leaf put at the end of a list and a node
  taken out of one.
* `Owned.link`, `Owned.unlink`: both keep the agreement.
* `Reach.link`, `Reach.unlink`: both keep every other node reachable.
* `Owned.parent`: going up from a reachable node stays among the reachable nodes.
-/

namespace Forest

variable {ι : Type} {kids : ι → List ι} {owner : ι → Option ι}

/-- `x` is reached from `r` through child lists. -/
abbrev Reach (kids : ι → List ι) : ι → ι → Prop := Relation.ReflTransGen fun d c => c ∈ kids d

/-- **The child lists agree with the owner links.** -/
structure Owned [LT ι] (kids : ι → List ι) (owner : ι → Option ι) : Prop where
  nodup : ∀ d, (kids d).Nodup
  owner : ∀ d c, c ∈ kids d → owner c = some d
  lt : ∀ d c, c ∈ kids d → d < c

section Owned

variable [LT ι]

/-- A node is in at most one list. -/
theorem Owned.unique (h : Owned kids owner) {c d e : ι} (hd : c ∈ kids d) (he : c ∈ kids e) :
    d = e := by
  have := (h.owner d c hd).symm.trans (h.owner e c he)
  simpa using this

/-- The owner of a reachable node other than the root is reachable and lists it. -/
theorem Owned.parent (h : Owned kids owner) {r x : ι} (hx : Reach kids r x) (hne : x ≠ r) :
    ∃ d, owner x = some d ∧ Reach kids r d ∧ x ∈ kids d := by
  rcases Relation.ReflTransGen.cases_tail hx with rfl | ⟨d, hd, hxd⟩
  · exact absurd rfl hne
  · exact ⟨d, h.owner d x hxd, hd, hxd⟩

end Owned

variable [DecidableEq ι]

/-- `c` put at the end of `d`'s list. -/
def link (kids : ι → List ι) (d c : ι) : ι → List ι := Function.update kids d (kids d ++ [c])

/-- `c` taken out of `d`'s list. -/
def unlink (kids : ι → List ι) (d c : ι) : ι → List ι := Function.update kids d ((kids d).erase c)

theorem mem_link {d c e x : ι} : x ∈ link kids d c e ↔ x ∈ kids e ∨ (e = d ∧ x = c) := by
  unfold link
  by_cases he : e = d
  · subst he; simp
  · simp [he]

theorem mem_of_mem_unlink {d c e x : ι} (h : x ∈ unlink kids d c e) : x ∈ kids e := by
  unfold unlink at h
  by_cases he : e = d
  · subst he
    rw [Function.update_self] at h
    exact List.mem_of_mem_erase h
  · rwa [Function.update_of_ne he] at h

theorem mem_unlink_of_ne {d c e x : ι} (h : x ∈ kids e) (hne : x ≠ c) : x ∈ unlink kids d c e := by
  unfold unlink
  by_cases he : e = d
  · subst he
    rw [Function.update_self]
    exact (List.mem_erase_of_ne hne).2 h
  · rwa [Function.update_of_ne he]

/-- Linking a node that is in no list. -/
theorem Owned.link [LT ι] (h : Owned kids owner) {d c : ι} (hlt : d < c) (hfresh : ∀ e, c ∉ kids e) :
    Owned (link kids d c) (Function.update owner c (some d)) := by
  refine ⟨?_, ?_, ?_⟩
  · intro e
    unfold Forest.link
    by_cases he : e = d
    · subst he
      rw [Function.update_self]
      exact List.Nodup.append (h.nodup e) (List.nodup_singleton c) (by simpa using hfresh e)
    · rw [Function.update_of_ne he]; exact h.nodup e
  · intro e x hx
    rcases mem_link.1 hx with hx | ⟨rfl, rfl⟩
    · have hne : x ≠ c := fun hc => hfresh e (hc ▸ hx)
      rw [Function.update_of_ne hne]; exact h.owner e x hx
    · rw [Function.update_self]
  · intro e x hx
    rcases mem_link.1 hx with hx | ⟨rfl, rfl⟩
    · exact h.lt e x hx
    · exact hlt

theorem Owned.unlink [LT ι] (h : Owned kids owner) (d c : ι) : Owned (unlink kids d c) owner := by
  refine ⟨?_, fun e x hx => h.owner e x (mem_of_mem_unlink hx),
    fun e x hx => h.lt e x (mem_of_mem_unlink hx)⟩
  intro e
  unfold Forest.unlink
  by_cases he : e = d
  · subst he
    rw [Function.update_self]
    exact (h.nodup e).erase c
  · rw [Function.update_of_ne he]; exact h.nodup e

omit [DecidableEq ι] in
/-- Longer lists reach more. -/
theorem Reach.mono {kids' : ι → List ι} (hsub : ∀ d, ∀ c ∈ kids d, c ∈ kids' d) {r x : ι}
    (h : Reach kids r x) : Reach kids' r x :=
  Relation.ReflTransGen.mono (fun d c hc => hsub d c hc) _ _ h

theorem Reach.link {r x : ι} (h : Reach kids r x) (d c : ι) : Reach (Forest.link kids d c) r x :=
  h.mono fun _ _ hx => mem_link.2 (Or.inl hx)

/-- Taking out a leaf cuts off nothing else. -/
theorem Reach.unlink {r x d c : ι} (h : Reach kids r x) (hleaf : kids c = []) (hne : x ≠ c) :
    Reach (unlink kids d c) r x := by
  induction h with
  | refl => exact .refl
  | @tail b x _ hx ih =>
    -- a step of the path does not start at the leaf
    have hbc : b ≠ c := by
      rintro rfl
      rw [hleaf] at hx; cases hx
    exact (ih hbc).tail (mem_unlink_of_ne hx hne)

end Forest
