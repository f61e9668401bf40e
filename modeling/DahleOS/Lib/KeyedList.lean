import Mathlib.Data.List.Basic
import Mathlib.Data.List.Nodup

/-!
# Lists as finite maps

A list whose elements have keys, searched from the front.

* `lookup`: the first element of a key.
* `insert`: the first element of the same key gives way; a new key goes to the end. The
  search of an array for a slot and the write to it are `insert` (`insert_of_findIdx?`).
* `lookup_insert`, `nodup_insert`: the laws of a map.
-/

namespace KeyedList

variable {α κ : Type} [DecidableEq κ] {key : α → κ} {l : List α} {v : α} {i : ℕ}

/-- The first element of that key. -/
def lookup (key : α → κ) (l : List α) (k : κ) : Option α := l.find? fun v => key v = k

/-- The list with `v` as the element of its key. -/
def insert (key : α → κ) (v : α) : List α → List α
  | [] => [v]
  | w :: l => if key w = key v then v :: l else w :: insert key v l

theorem lookup_of_findIdx? {k : κ} (h : l.findIdx? (fun v => key v = k) = some i) : lookup key l k = l[i]? := by
  induction l generalizing i with
  | nil => simp at h
  | cons w l ih =>
    rw [List.findIdx?_cons] at h
    by_cases hw : key w = k
    · rw [if_pos (by simpa using hw), Option.some.injEq] at h
      subst h
      simp [lookup, hw]
    · rw [if_neg (by simpa using hw), Option.map_eq_some_iff] at h
      obtain ⟨j, hj, rfl⟩ := h
      have := ih hj
      simpa [lookup, hw] using this

theorem lookup_eq_none {k : κ} : lookup key l k = none ↔ l.findIdx? (fun v => key v = k) = none := by
  simp [lookup]

theorem insert_of_findIdx? (h : l.findIdx? (fun w => key w = key v) = some i) :
    insert key v l = l.set i v := by
  induction l generalizing i with
  | nil => simp at h
  | cons w l ih =>
    rw [List.findIdx?_cons] at h
    by_cases hw : key w = key v
    · rw [if_pos (by simpa using hw), Option.some.injEq] at h
      subst h
      simp [insert, hw]
    · rw [if_neg (by simpa using hw), Option.map_eq_some_iff] at h
      obtain ⟨j, hj, rfl⟩ := h
      simp [insert, hw, ih hj]

theorem insert_of_findIdx?_none (h : l.findIdx? (fun w => key w = key v) = none) :
    insert key v l = l ++ [v] := by
  induction l with
  | nil => rfl
  | cons w l ih =>
    rw [List.findIdx?_cons] at h
    by_cases hw : key w = key v
    · simp [hw] at h
    · rw [if_neg (by simpa using hw), Option.map_eq_none_iff] at h
      simp [insert, hw, ih h]

/-- **Insertion changes one key.** -/
theorem lookup_insert (key : α → κ) (l : List α) (v : α) (k : κ) :
    lookup key (insert key v l) k = if k = key v then some v else lookup key l k := by
  induction l with
  | nil =>
    by_cases hk : k = key v
    · simp [insert, lookup, hk]
    · simp [insert, lookup, hk, Ne.symm hk]
  | cons w l ih =>
    unfold lookup at ih ⊢
    by_cases hw : key w = key v
    · rw [insert, if_pos hw, List.find?_cons, List.find?_cons, hw]
      by_cases hk : k = key v
      · simp [hk]
      · simp [hk, Ne.symm hk]
    · rw [insert, if_neg hw, List.find?_cons, List.find?_cons]
      by_cases hk : key w = k
      · -- the head is of the key, which is not that of `v`
        have hne : k ≠ key v := fun h => hw (hk.trans h)
        simp [hk, hne]
      · simp [hk, ih]

theorem mem_keys_insert {k : κ} : k ∈ (insert key v l).map key ↔ k = key v ∨ k ∈ l.map key := by
  induction l with
  | nil => simp [insert]
  | cons w l ih =>
    by_cases hw : key w = key v
    · simp [insert, hw]
    · simp only [insert, if_neg hw, List.map_cons, List.mem_cons, ih]
      tauto

/-- **Keys stay distinct.** -/
theorem nodup_insert (h : (l.map key).Nodup) : ((insert key v l).map key).Nodup := by
  induction l with
  | nil => simp [insert]
  | cons w l ih =>
    obtain ⟨hw, hl⟩ := List.nodup_cons.1 h
    by_cases hk : key w = key v
    · rw [insert, if_pos hk, List.map_cons, ← hk]
      exact h
    · rw [insert, if_neg hk, List.map_cons, List.nodup_cons, mem_keys_insert]
      exact ⟨fun hmem => hmem.elim hk hw, ih hl⟩

end KeyedList
