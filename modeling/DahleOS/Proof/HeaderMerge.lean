import DahleOS.Proof.Snapshot

/-!
# When a writer keeps the other snapshot

`persist_save_aliases`, `persist_save_fs` and `persist_savelist_set` do not look at the
result of their header read. When it fails they merge whatever an earlier call left in
their buffer.

* `saves_keep_iff`: another category's snapshot survives exactly when the read succeeds,
  or nothing is written, or the old buffer happens to vouch for the same bytes.
* `save_loses_snapshot`: a run in which it does not survive.
-/

namespace DahleOS

open Codec SectorDisk

variable {disk : ℕ → UInt8} {c c' : Category}

/-- **The disk gives back `x`**: a load from it on a good drive succeeds and puts `x` in
memory, whatever was there. -/
def Restores (disk : ℕ → UInt8) (c : Category) (x : c.Data) : Prop :=
  ∀ w : World, w.diskPresent = true → w.drive = Drive.good disk →
    (persistLoad c w).1 = .ok ∧ (persistLoad c w).2.get c = x

/-- Some other data. -/
theorem exists_ne_data (x : c.Data) : ∃ y : c.Data, y ≠ x := by
  have hne (i : Int32) : i + 1 ≠ i := by
    intro h
    have := congrArg (· - i) h
    simp [Int32.add_comm i 1, Int32.add_sub_cancel] at this
  cases c with
  | aliases => exact ⟨⟨x.table, x.count + 1⟩, fun h => hne _ (congrArg AliasTable.count h)⟩
  | fs => exact ⟨⟨x.pool, x.poolUsed + 1, x.cwd⟩, fun h => hne _ (congrArg Fs.poolUsed h)⟩

/-- A disk gives back what it holds a snapshot of. -/
theorem restores_iff {x : c.Data} : Restores disk c x ↔ snapshot? disk c = some x := by
  constructor
  · intro h
    -- a load that leaves memory alone would give back anything
    obtain ⟨y, hy⟩ := exists_ne_data x
    set w : World := { (World.cleared (Drive.good disk)).set c y with diskPresent := true } with hw
    have hdrive : w.drive = Drive.good disk := by rw [hw]; simp only [World.set_drive]; rfl
    have hget : w.get c = y := by rw [hw]; cases c <;> rfl
    obtain ⟨-, hx⟩ := h w rfl hdrive
    rw [persistLoad_good rfl hdrive] at hx
    cases hs : snapshot? disk c with
    | none => rw [hs] at hx; exact absurd (hget.symm.trans hx) hy
    | some z =>
      rw [hs, World.get_set_self] at hx
      rw [hx]
  · intro h w hp hd
    rw [persistLoad_good hp hd, h]
    exact ⟨rfl, World.get_set_self _ _ _⟩

/-- What a save does to another category's snapshot. -/
theorem save_keeps {w : World} {x : c'.Data} (hne : c' ≠ c) (hold : Restores w.drive.bytes c' x)
    (hok : (persistSave c w).1 = .ok) : Restores (persistSave c w).2.drive.bytes c' x ↔
      ¬ w.Saves c ∨ (w.drive.plan 1).ReadsOne ∨
        (headerCodec.symm (w.saveHdr c)).Accepts c' (dataSectors w.drive.bytes c') := by
  rw [restores_iff] at hold ⊢
  have hacc := (snapshot?_eq_some.1 hold).1
  by_cases hs : w.Saves c
  · obtain ⟨plan, buf, bytes, hw, ⟨-, hbytes⟩ | ⟨hfail, -⟩⟩ := persistSave_cases hs
    · rw [hw]
      simp only [hs, not_true_eq_false, false_or]
      rw [hbytes, snapshot?_savedDisk_other hne hold, World.mergeSource]
      -- the header of the disk accepts the other sectors; the old buffer may or may not
      by_cases hread : (w.drive.plan 1).ReadsOne
      · simp only [hread, if_true, true_or, iff_true]; exact hacc
      · simp only [hread, if_false, false_or]
    · exact absurd hok hfail
  · rw [persistSave_skip hs]
    simp only [hs, not_false_eq_true, true_or, iff_true]
    exact hold

/-- What a change of the save list does to a snapshot. -/
theorem savelistSet_keeps {w : World} {x : c.Data} (hold : Restores w.drive.bytes c x) (flags : UInt32) :
    Restores (persistSavelistSet w flags).drive.bytes c x ↔
      w.diskPresent = false ∨ ¬ (w.drive.plan 1).WritesOne ∨ (w.drive.plan 0).ReadsOne ∨
        (headerCodec.symm w.savelistSetHdr).Accepts c (dataSectors w.drive.bytes c) := by
  rw [restores_iff] at hold ⊢
  have hacc := (snapshot?_eq_some.1 hold).1
  cases hp : w.diskPresent with
  | false =>
    rw [persistSavelistSet_absent hp]
    simp only [true_or, iff_true]
    exact hold
  | true =>
    obtain ⟨buf, hw⟩ := persistSavelistSet_eq hp flags
    rw [hw]
    by_cases hwrite : (w.drive.plan 1).WritesOne
    · simp only [hwrite, if_true, not_true_eq_false, false_or, Bool.true_eq_false]
      rw [snapshot?_relistedDisk hold, World.setSource]
      by_cases hread : (w.drive.plan 0).ReadsOne
      · simp only [hread, if_true, true_or, iff_true]; exact hacc
      · simp only [hread, if_false, false_or]
    · simp only [hwrite, if_false, not_false_eq_true, true_or, or_true, iff_true]
      exact hold

/-- **When a writer keeps the other snapshots.** A save that reports success keeps the
other category's snapshot exactly when it wrote nothing, or its header read succeeded, or
its old buffer accepts the other category's sectors; a change of the save list keeps a
snapshot exactly when there is no disk, or its write failed, or the same holds of its read
and its buffer. -/
theorem saves_keep_iff (w : World) :
    (∀ x : Fs, Restores w.drive.bytes .fs x → (persistSaveAliases w).1 = .ok →
      (Restores (persistSaveAliases w).2.drive.bytes .fs x ↔
        ¬ w.Saves .aliases ∨ (w.drive.plan 1).ReadsOne ∨
          (headerCodec.symm (w.saveHdr .aliases)).Accepts .fs (dataSectors w.drive.bytes .fs))) ∧
    (∀ x : AliasTable, Restores w.drive.bytes .aliases x → (persistSaveFs w).1 = .ok →
      (Restores (persistSaveFs w).2.drive.bytes .aliases x ↔
        ¬ w.Saves .fs ∨ (w.drive.plan 1).ReadsOne ∨
          (headerCodec.symm (w.saveHdr .fs)).Accepts .aliases (dataSectors w.drive.bytes .aliases))) ∧
    (∀ (flags : UInt32) (c : Category) (x : c.Data), Restores w.drive.bytes c x →
      (Restores (persistSavelistSet w flags).drive.bytes c x ↔
        w.diskPresent = false ∨ ¬ (w.drive.plan 1).WritesOne ∨ (w.drive.plan 0).ReadsOne ∨
          (headerCodec.symm w.savelistSetHdr).Accepts c (dataSectors w.drive.bytes c))) :=
  ⟨fun _ hold hok => save_keeps (by decide) hold hok, fun _ hold hok => save_keeps (by decide) hold hok,
    fun flags _ _ hold => savelistSet_keeps hold flags⟩

/-! ## A lost snapshot -/

/-- A disk with a saved pool, on which the commands go as `plan` says. -/
def savedPoolWorld (plan : ℕ → Script) : World :=
  { World.cleared ⟨savedDisk (fun _ => 0) (diskHeader fun _ => 0) savelistAll .fs fsInitEmpty, plan⟩ with
    diskPresent := true }

theorem savedPoolWorld_restores (plan : ℕ → Script) :
    Restores (savedPoolWorld plan).drive.bytes .fs fsInitEmpty :=
  restores_iff.2 (snapshot?_savedDisk_self _ _ _ _ _)

/-- On a good drive the pool is still there after a save of the aliases. -/
theorem saves_keep_good :
    Restores (persistSaveAliases (savedPoolWorld fun _ _ => .ok)).2.drive.bytes .fs fsInitEmpty :=
  ((saves_keep_iff _).1 _ (savedPoolWorld_restores _) rfl).2 (Or.inr (Or.inl ⟨rfl, rfl, rfl⟩))

/-- The second command, the header read of the save, fails. -/
def badHeaderRead : ℕ → Script := fun k _ => if k = 1 then .error else .ok

/-- **A lost snapshot.** The save of the aliases reports success, and the pool is gone. -/
theorem save_loses_snapshot : ∃ w : World, Restores w.drive.bytes .fs fsInitEmpty ∧
    (persistSaveAliases w).1 = .ok ∧ ¬ Restores (persistSaveAliases w).2.drive.bytes .fs fsInitEmpty := by
  refine ⟨savedPoolWorld badHeaderRead, savedPoolWorld_restores _, rfl, ?_⟩
  intro h
  rcases (save_keeps (c := .aliases) (by decide) (savedPoolWorld_restores _) rfl).1 h with hs | hread | hacc
  · exact hs ⟨rfl, by decide⟩
  · exact absurd hread.1 (by decide)
  · -- the buffer was never read into
    exact absurd hacc.1 (by decide)

end DahleOS
