import DahleOS.Model.Commands
import DahleOS.Proof.FsOps

/-!
# The alias table

* `AliasTable.WellFormed`: the count is in range, and the last byte of every name and of
  every value is NUL. `strncpy` never writes these bytes, so they stay NUL, and every
  string in the table ends inside its array.
* `find_eq`: the search is `List.findIdx?`.
* `aliasSet_wellFormed`, `aliasListFrom_total`: `cmd_alias` stays inside the table.
-/

namespace DahleOS

open CArray

theorem exists_cstr {n : ℕ} {buf : Fin n → UInt8} {i : Fin n} (h : buf i = 0) : ∃ s, cstr buf = some s := by
  have hmem : (0 : UInt8) ∈ List.ofFn buf := List.mem_ofFn.2 ⟨i, h⟩
  unfold cstr
  generalize List.ofFn buf = l at hmem
  induction l with
  | nil => cases hmem
  | cons b bs ih =>
    by_cases hb : b = 0
    · exact ⟨[], by simp [cstrList, hb]⟩
    · obtain ⟨s, hs⟩ := ih ((List.mem_cons.1 hmem).resolve_left (Ne.symm hb))
      exact ⟨⟨b, hb⟩ :: s, by simp [cstrList, hb, hs]⟩

/-! ## Well-formedness -/

/-- **A well-formed table.** -/
structure AliasTable.WellFormed (t : AliasTable) : Prop where
  count : 0 ≤ t.count.toInt ∧ t.count.toInt ≤ 16
  name : ∀ i, (t.table i).name 31 = 0
  value : ∀ i, (t.table i).value 127 = 0

theorem AliasTable.zero_wellFormed : AliasTable.zero.WellFormed := ⟨by decide, fun _ => rfl, fun _ => rfl⟩

/-- The slots in use. -/
def AliasTable.used (t : AliasTable) : ℕ := t.count.toInt.toNat

/-- The name of an entry, if it ends. -/
def Alias.nameOf (a : Alias) : Str := (cstr a.name).getD []

/-- The value of an entry, if it ends. -/
def Alias.valueOf (a : Alias) : Str := (cstr a.value).getD []

variable {t : AliasTable}

theorem AliasTable.WellFormed.used_le (h : t.WellFormed) : t.used ≤ 16 := by
  have := h.count
  unfold AliasTable.used
  omega

theorem AliasTable.WellFormed.toInt_count (h : t.WellFormed) : t.count.toInt = t.used := by
  have := h.count
  unfold AliasTable.used
  omega

theorem AliasTable.WellFormed.cstr_name (h : t.WellFormed) (i : Fin 16) :
    cstr (t.table i).name = some (t.table i).nameOf := by
  obtain ⟨s, hs⟩ := exists_cstr (h.name i)
  simp [Alias.nameOf, hs]

theorem AliasTable.WellFormed.cstr_value (h : t.WellFormed) (i : Fin 16) :
    cstr (t.table i).value = some (t.table i).valueOf := by
  obtain ⟨s, hs⟩ := exists_cstr (h.value i)
  simp [Alias.valueOf, hs]

/-- **The search loop** finds the first entry of that name. -/
theorem find_eq (h : t.WellFormed) (name : Str) :
    t.find name = some ((slots t.table t.used).findIdx? fun a => a.nameOf = name) := by
  refine findSlot_eq h.used_le ?_
  intro a ha
  obtain ⟨i, -, rfl⟩ := mem_slots ha
  simp [h.cstr_name, strcmp_eq_zero]

theorem lt_of_find {name : Str} {i : ℕ} (h : t.WellFormed) (hi : t.find name = some (some i)) : i < 16 := by
  rw [find_eq h, Option.some.injEq, List.findIdx?_eq_some_iff_getElem] at hi
  obtain ⟨hlt, -⟩ := hi
  rw [length_slots _ h.used_le] at hlt
  exact lt_of_lt_of_le hlt h.used_le

theorem aliasResolve_total (h : t.WellFormed) (name : Str) : ∃ r, aliasResolve t name = some r := by
  unfold aliasResolve
  have hf := find_eq h name
  cases hr : (slots t.table t.used).findIdx? fun a => decide (a.nameOf = name) with
  | none => exact ⟨none, by simp [hf, hr]⟩
  | some i =>
    rw [hr] at hf
    have hi := lt_of_find h hf
    exact ⟨some (t.table ⟨i, hi⟩).valueOf, by simp [hf, rd_nat _ hi, h.cstr_value]⟩

theorem aliasListFrom_total (h : t.WellFormed) : ∀ todo i, i + todo ≤ 16 →
    ∃ entries, aliasListFrom t i todo = some entries := by
  intro todo
  induction todo with
  | zero => intro i _; exact ⟨[], rfl⟩
  | succ todo ih =>
    intro i hi
    obtain ⟨rest, hrest⟩ := ih (i + 1) (by omega)
    refine ⟨((t.table ⟨i, by omega⟩).nameOf, (t.table ⟨i, by omega⟩).valueOf) :: rest, ?_⟩
    simp [aliasListFrom, rd_nat _ (show i < 16 by omega), h.cstr_name, h.cstr_value, hrest]

/-! ## Changes -/

/-- The table with a new value in entry `k`. -/
def AliasTable.updated (t : AliasTable) (k : Fin 16) (value : Str) : AliasTable :=
  { t with
    table := Function.update t.table k { t.table k with value := strncpy (t.table k).value value 127 } }

/-- The table with a new entry in slot `k`. -/
def AliasTable.added (t : AliasTable) (k : Fin 16) (name value : Str) : AliasTable where
  table := Function.update t.table k
    ⟨strncpy (t.table k).name name 31, strncpy (t.table k).value value 127⟩
  count := t.count + 1

/-- A table with entry `k` changed as `strncpy` changes it. -/
theorem AliasTable.WellFormed.update (h : t.WellFormed) {count : Int32}
    (hc : 0 ≤ count.toInt ∧ count.toInt ≤ 16) (k : Fin 16) {a : Alias} (hn : a.name 31 = 0) (hv : a.value 127 = 0) :
    (⟨Function.update t.table k a, count⟩ : AliasTable).WellFormed := by
  refine ⟨hc, ?_, ?_⟩
  · intro i
    by_cases hi : i = k
    · subst hi; simp [hn]
    · simp [Function.update_of_ne hi, h.name]
  · intro i
    by_cases hi : i = k
    · subst hi; simp [hv]
    · simp [Function.update_of_ne hi, h.value]

theorem AliasTable.WellFormed.updated (h : t.WellFormed) (k : Fin 16) (value : Str) :
    (t.updated k value).WellFormed :=
  h.update h.count k (h.name k) ((strncpy_of_ge _ value le_rfl).trans (h.value k))

theorem AliasTable.WellFormed.added (h : t.WellFormed) (hlt : t.used < 16) (k : Fin 16) (name value : Str) :
    (t.added k name value).WellFormed := by
  have hcount := h.toInt_count
  have hc := toInt_add_one h.count.1 (by omega)
  exact h.update (by omega) k ((strncpy_of_ge _ name le_rfl).trans (h.name k))
    ((strncpy_of_ge _ value le_rfl).trans (h.value k))

/-- **What `alias` does to the table**: nothing, a new value for a name that is there, or a
new entry. -/
theorem aliasSet_cases (h : t.WellFormed) (args : Str) :
    aliasSet t args = some (.usage, none) ∨ aliasSet t args = some (.full, none) ∨
    (∃ k : Fin 16, (slots t.table t.used).findIdx? (fun a => a.nameOf = (aliasArgs args).1) = some k ∧
      aliasSet t args = some (.updated, some (t.updated k (aliasArgs args).2))) ∨
    ∃ hlt : t.used < 16, (slots t.table t.used).findIdx? (fun a => a.nameOf = (aliasArgs args).1) = none ∧
      aliasSet t args = some (.added, some (t.added ⟨t.used, hlt⟩ (aliasArgs args).1 (aliasArgs args).2)) := by
  unfold aliasSet
  obtain ⟨name, value⟩ := aliasArgs args
  by_cases hu : name = [] ∨ value = []
  · exact Or.inl (by simp [hu])
  have hfind := find_eq h name
  cases hr : (slots t.table t.used).findIdx? fun a => decide (a.nameOf = name) with
  | some i =>
    rw [hr] at hfind
    have hi := lt_of_find h hfind
    -- a name that is there gets the new value
    exact Or.inr (Or.inr (Or.inl ⟨⟨i, hi⟩, rfl, by
      simp [hu, hfind, rd_nat _ hi, wr_nat _ hi, AliasTable.updated]⟩))
  | none =>
    rw [hr] at hfind
    by_cases hfull : 16 ≤ t.count
    · exact Or.inr (Or.inl (by simp [hu, hfind, hfull]))
    · have hlt : t.used < 16 := by
        rw [le_iff_16] at hfull
        have := h.toInt_count
        omega
      -- a new name goes behind the last entry
      exact Or.inr (Or.inr (Or.inr ⟨hlt, rfl, by
        simp [hu, hfind, hfull, h.toInt_count, rd_nat _ hlt, wr_nat _ hlt, AliasTable.added]⟩))

/-- **One `alias` command** stays inside the table and keeps it well formed. -/
theorem aliasSet_wellFormed (h : t.WellFormed) (args : Str) :
    ∃ r, aliasSet t args = some r ∧ ∀ t', r.2 = some t' → t'.WellFormed := by
  rcases aliasSet_cases h args with hs | hs | ⟨k, -, hs⟩ | ⟨hlt, -, hs⟩
  · exact ⟨_, hs, by simp⟩
  · exact ⟨_, hs, by simp⟩
  · refine ⟨_, hs, ?_⟩
    rintro t' ⟨⟩
    exact h.updated _ _
  · refine ⟨_, hs, ?_⟩
    rintro t' ⟨⟩
    exact h.added hlt _ _ _

end DahleOS
