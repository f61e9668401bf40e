import DahleOS.Lib.CArray

/-!
# Ring buffers

An array of `n` slots as a queue, between a tail to read at and a head to write at. One
slot stays free, so that the ring is empty when head and tail meet.

* `Holds`: the queue that is in the ring.
* `Holds.empty_iff`, `Holds.full_iff`: what head and tail say about it.
* `Holds.push`, `Holds.front`, `Holds.pop`: writing, reading and advancing the tail.
-/

namespace RingBuffer

open CArray

variable {α : Type} {n : ℕ} {buf : Fin n → α} {head tail : ℤ} {q : List α}

/-- An index that is past the end once at most. -/
theorem emod_wrap {x : ℤ} (h0 : 0 ≤ x) (h : x < 2 * n) : x % n = if x < n then x else x - n := by
  split
  · exact Int.emod_eq_of_lt h0 (by omega)
  · rw [← Int.sub_emod_right]
    exact Int.emod_eq_of_lt (by omega) (by omega)

/-- **The ring holds the queue**, from the tail on. -/
structure Holds (buf : Fin n → α) (head tail : ℤ) (q : List α) : Prop where
  tail_range : 0 ≤ tail ∧ tail < n
  length : q.length < n
  head : head = (tail + q.length) % n
  slot : ∀ i (h : i < q.length), rd buf ((tail + i) % n) = some q[i]

theorem Holds.start (buf : Fin n → α) (hn : 0 < n) : Holds buf 0 0 [] where
  tail_range := by omega
  length := hn
  head := by simp
  slot := fun i h => absurd h (Nat.not_lt_zero i)

theorem Holds.head_range (h : Holds buf head tail q) : 0 ≤ head ∧ head < n := by
  have := h.tail_range
  rw [h.head]
  exact ⟨Int.emod_nonneg _ (by omega), Int.emod_lt_of_pos _ (by omega)⟩

theorem Holds.head_eq (h : Holds buf head tail q) :
    head = if tail + q.length < n then tail + q.length else tail + q.length - n := by
  have := h.tail_range
  have := h.length
  rw [h.head]
  exact emod_wrap (by omega) (by omega)

/-- Head and tail meet when the ring is empty. -/
theorem Holds.empty_iff (h : Holds buf head tail q) : head = tail ↔ q = [] := by
  have hr := h.tail_range
  have hl := h.length
  rw [h.head_eq, ← List.length_eq_zero_iff]
  split <;> omega

/-- The head is right behind the tail when one slot is left. -/
theorem Holds.full_iff (h : Holds buf head tail q) : (head + 1) % n = tail ↔ q.length + 1 = n := by
  have hr := h.tail_range
  have hl := h.length
  have hh := h.head_range
  rw [emod_wrap (by omega) (by omega), h.head_eq]
  split_ifs <;> omega

/-- **Writing at the head** appends. -/
theorem Holds.push (h : Holds buf head tail q) (hl : q.length + 1 < n) (v : α) :
    ∃ buf', wr buf head v = some buf' ∧ Holds buf' ((head + 1) % n) tail (q ++ [v]) := by
  have hr := h.tail_range
  have hh := h.head_range
  have hheq := h.head_eq
  obtain ⟨k, hk⟩ : ∃ k : Fin n, head = (k : ℕ) := ⟨⟨head.toNat, by omega⟩, by simp [hh.1]⟩
  refine ⟨Function.update buf k v, by rw [hk, wr_val], ?_⟩
  refine { tail_range := hr, length := by simpa using hl, head := ?_, slot := ?_ }
  · rw [h.head, List.length_append, List.length_singleton, Int.emod_add_emod]
    push_cast
    rw [Int.add_assoc]
  · intro i hi
    rw [List.length_append, List.length_singleton] at hi
    rcases Nat.lt_or_eq_of_le (Nat.le_of_lt_succ hi) with hlt | rfl
    · -- an old slot, which the head is not
      have hold := h.slot i hlt
      obtain ⟨j, hj, hv⟩ := rd_eq_some hold
      have hne : j ≠ k := by
        rintro rfl
        rw [emod_wrap (by omega) (by omega)] at hj
        split at hj <;> split at hheq <;> omega
      rw [hj, rd_val, Function.update_of_ne hne, hv, List.getElem_append_left hlt]
    · rw [← h.head, hk, rd_val, Function.update_self]
      simp

/-- Reading at the tail gives the front. -/
theorem Holds.front {v : α} (h : Holds buf head tail (v :: q)) : rd buf tail = some v := by
  have hr := h.tail_range
  have h0 := h.slot 0 (Nat.succ_pos _)
  rw [Int.natCast_zero, Int.add_zero, Int.emod_eq_of_lt hr.1 hr.2] at h0
  exact h0

/-- **Advancing the tail** takes the front away. -/
theorem Holds.pop {v : α} (h : Holds buf head tail (v :: q)) : Holds buf head ((tail + 1) % n) q := by
  have hr := h.tail_range
  have hl := h.length
  have hhead := h.head
  rw [List.length_cons] at hl hhead
  refine
    { tail_range := ⟨Int.emod_nonneg _ (by omega), Int.emod_lt_of_pos _ (by omega)⟩
      length := by omega
      head := ?_
      slot := fun i hi => ?_ }
  · rw [hhead, Int.emod_add_emod]
    push_cast
    congr 1
    omega
  · have hslot := h.slot (i + 1) (Nat.succ_lt_succ hi)
    rw [Int.emod_add_emod]
    push_cast at hslot
    rw [show tail + 1 + (i : ℤ) = tail + ((i : ℤ) + 1) by omega]
    exact hslot

end RingBuffer
