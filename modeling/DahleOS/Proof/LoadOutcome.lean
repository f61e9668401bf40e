import DahleOS.Proof.Boot

/-!
# What `load` leaves

`cmd_load` runs the two loaders one after the other, and the second whatever the first
returned. Each of them is all or nothing.

* `persistLoad_outcome`: one loader.
* `load_outcome`: the command, on any disk and with any failures.
* `load_half`: an error after which one category was replaced.
-/

namespace DahleOS

variable {c : Category} {w : World}

/-- The header on the disk says that the category was never saved. -/
def NeverSaved (disk : ℕ → UInt8) (c : Category) : Prop :=
  (diskHeader disk).magic = persistMagic ∧ (diskHeader disk).flags &&& c.flag = 0

/-- **One loader**: it fails and leaves its category, or succeeds and takes the snapshot,
unless there never was one. -/
theorem persistLoad_outcome (c : Category) (w : World) :
    ((persistLoad c w).1 ≠ .ok → (persistLoad c w).2.get c = w.get c) ∧
    ((persistLoad c w).1 = .ok → snapshot? w.drive.bytes c = some ((persistLoad c w).2.get c) ∨
      (NeverSaved w.drive.bytes c ∧ (persistLoad c w).2.get c = w.get c)) ∧
    ∀ c' ≠ c, (persistLoad c w).2.get c' = w.get c' := by
  have hplan (plan : ℕ → Script) (c' : Category) : (w.withPlan plan).get c' = w.get c' := by cases c' <;> rfl
  obtain ⟨plan, ⟨hload, hmiss⟩ | ⟨x, hx, hload⟩⟩ := persistLoad_cases c w
  · rw [hload]
    refine ⟨fun _ => hplan plan c, ?_, fun c' _ => hplan plan c'⟩
    intro hok
    exact Or.inr ⟨(hmiss hok).2.2, hplan plan c⟩
  · rw [hload]
    refine ⟨fun hne => absurd rfl hne, ?_, ?_⟩
    · intro _
      rw [World.get_set_self]
      exact Or.inl hx
    · intro c' hne
      rw [World.get_set_other hne]
      exact hplan plan c'

theorem cmdLoad_eq (w : World) : cmdLoad w =
    (decide ((persistLoadAliases w).1 = .ok ∧ (persistLoadFs (persistLoadAliases w).2).1 = .ok),
      (persistLoadFs (persistLoadAliases w).2).2) := rfl

/-- **What `load` leaves**, for every disk content and every pattern of failures. Each
category is as it was, or was taken whole from its snapshot. The aliases are as they were
if their loader reports an error, and so is the pool. An error is reported when one of the
loaders does, and success otherwise; then both were taken, or left where the header says
that there was nothing to take. -/
theorem load_outcome (w : World) :
    (∀ c, (cmdLoad w).2.get c = w.get c ∨ snapshot? w.drive.bytes c = some ((cmdLoad w).2.get c)) ∧
    ((persistLoadAliases w).1 ≠ .ok → (cmdLoad w).2.aliases = w.aliases) ∧
    ((persistLoadFs (persistLoadAliases w).2).1 ≠ .ok → (cmdLoad w).2.fs = w.fs) ∧
    ((cmdLoad w).1 = false ↔ (persistLoadAliases w).1 ≠ .ok ∨ (persistLoadFs (persistLoadAliases w).2).1 ≠ .ok) ∧
    ((cmdLoad w).1 = true → ∀ c, snapshot? w.drive.bytes c = some ((cmdLoad w).2.get c) ∨
      (NeverSaved w.drive.bytes c ∧ (cmdLoad w).2.get c = w.get c)) := by
  have hbytes := (persistLoad_taken .aliases w).bytes
  obtain ⟨hfail₁, hok₁, hkeep₁⟩ := persistLoad_outcome .aliases w
  obtain ⟨hfail₂, hok₂, hkeep₂⟩ := persistLoad_outcome .fs (persistLoad .aliases w).2
  rw [hbytes] at hok₂
  have haliases : (cmdLoad w).2.get .aliases = (persistLoad .aliases w).2.get .aliases := hkeep₂ .aliases (by decide)
  have hpool : (persistLoad .aliases w).2.get .fs = w.get .fs := hkeep₁ .fs (by decide)
  rw [hpool] at hfail₂ hok₂
  refine ⟨(cmdLoad_taken w).data, ?_, ?_, ?_, ?_⟩
  · intro hfail
    exact haliases.trans (hfail₁ hfail)
  · intro hfail
    exact hfail₂ hfail
  · simp only [cmdLoad, decide_eq_false_iff_not, not_and_or]
  · intro hok c
    obtain ⟨h₁, h₂⟩ : (persistLoad .aliases w).1 = .ok ∧ (persistLoad .fs (persistLoad .aliases w).2).1 = .ok :=
      of_decide_eq_true hok
    cases c with
    | aliases =>
      rw [haliases]
      exact hok₁ h₁
    | fs => exact hok₂ h₂

/-- One alias. -/
def oneAlias : AliasTable := { AliasTable.zero with count := 1 }

/-- A disk to which only the aliases were saved. -/
def aliasesOnly : ℕ → UInt8 := savedDisk (fun _ => 0) (diskHeader fun _ => 0) savelistAll .aliases oneAlias

/-- **An error that replaces the aliases.** The pool was never saved, so `load` reports an
error; the aliases it takes. -/
theorem load_half : ∃ w : World, w.diskPresent = true ∧ w.drive = Drive.good aliasesOnly ∧
    (cmdLoad w).1 = false ∧ (cmdLoad w).2.aliases ≠ w.aliases := by
  set w : World := { World.cleared (Drive.good aliasesOnly) with diskPresent := true }
  have hsnap : snapshot? aliasesOnly .aliases = some oneAlias := snapshot?_savedDisk_self _ _ _ _ _
  have hpool : (diskHeader aliasesOnly).flags &&& Category.fs.flag = 0 := by
    have hblank : (diskHeader fun _ => 0).magic ≠ persistMagic := by decide
    rw [aliasesOnly, savedDisk, diskHeader_put_header]
    refine (flag_disjoint (by decide) _).trans ?_
    rw [Header.keptFlags, if_neg hblank, UInt32.zero_and]
  have hdrive : w.drive = Drive.good aliasesOnly := rfl
  have hload : persistLoadAliases w = (.ok, w.set .aliases oneAlias) := by
    rw [persistLoadAliases, persistLoad_good rfl hdrive, hsnap]
  have herror : persistLoadFs (w.set .aliases oneAlias) = (.error, w.set .aliases oneAlias) := by
    have hnone : snapshot? aliasesOnly .fs = none := if_neg fun hacc => hacc.2.1 hpool
    have hdrive' : (w.set .aliases oneAlias).drive = Drive.good aliasesOnly := rfl
    rw [persistLoadFs, persistLoad_good rfl hdrive', hnone]
    simp [Category.missing]
  have hne : oneAlias ≠ AliasTable.zero := by
    intro h
    exact absurd (congrArg AliasTable.count h) (by decide)
  have hcmd : cmdLoad w = (false, w.set .aliases oneAlias) := by
    rw [cmdLoad_eq, hload, herror]
    simp
  refine ⟨w, rfl, rfl, by rw [hcmd], ?_⟩
  rw [hcmd]
  exact hne

end DahleOS
