import DahleOS.Proof.LoadOutcome

/-!
# Headers of another version

`persist_probe` rejects a header whose version is not its own. The loaders and the writers
look at the magic word alone: they load under such a header, and they stamp it with their
own version and keep its flags and checksums.

* `Safe.step`: a header that the probe accepts, or that has nothing to keep, stays harmless.
* `header_version_iff`: every run is safe exactly when the disk does not start with a header
  of another version that says something was saved.
* `header_version_foreign`: a run that is not.
-/

namespace DahleOS

open Codec SectorDisk

variable {disk : ℕ → UInt8} {c c' : Category} {w : World}

/-- What the probe asks of a header. -/
def Header.Accepted (h : Header) : Prop := h.magic = persistMagic ∧ h.version = persistVersion

/-- A header of another version that says that something was saved. -/
def Header.Foreign (h : Header) : Prop :=
  h.magic = persistMagic ∧ h.version ≠ persistVersion ∧ ∃ c : Category, h.flags &&& c.flag ≠ 0

/-- A writer that merges from this header advertises no other category. -/
def Header.Quiet (h : Header) : Prop := ∀ c : Category, h.keptFlags &&& c.flag = 0

/-- The header `h'` vouches for a category as `h` did. -/
def Header.Carries (h h' : Header) (c : Category) : Prop :=
  h.flags &&& c.flag ≠ 0 ∧ h'.flags &&& c.flag ≠ 0 ∧ h'.csum c = h.csum c

instance (h : Header) : Decidable h.Accepted := inferInstanceAs (Decidable (_ ∧ _))

/-! ## Runs -/

/-- A probe, a load, a saver or a change of memory, or a power cycle. -/
inductive StoreOp
  | probe
  | load (c : Category)
  | persist (op : PersistOp)
  | powerCycle

def StoreOp.apply : StoreOp → World → World
  | probe, w => (persistProbe w).2
  | load c, w => (persistLoad c w).2
  | persist op, w => op.apply w
  | powerCycle, w => World.cleared w.drive

def runStore (ops : List StoreOp) (w : World) : World := ops.foldl (fun w op => op.apply w) w

/-- **One step respects the version**: a load changes memory under an accepted header only,
and no step but the save of a category turns a header of another version into an accepted
one that vouches for the category as before. -/
structure RespectsVersion (w : World) (op : StoreOp) : Prop where
  load : ∀ c, op = .load c → ¬ (diskHeader w.drive.bytes).Accepted → ∀ c', (op.apply w).get c' = w.get c'
  carry : ∀ c, op ≠ .persist (.save c) → (diskHeader w.drive.bytes).version ≠ persistVersion →
    (diskHeader (op.apply w).drive.bytes).Accepted →
    ¬ (diskHeader w.drive.bytes).Carries (diskHeader (op.apply w).drive.bytes) c

/-- **Every step of a run** respects the version. -/
def RunRespectsVersion (w : World) (ops : List StoreOp) : Prop :=
  ∀ pre op post, ops = pre ++ op :: post → RespectsVersion (runStore pre w) op

/-! ## The invariant -/

/-- The header on the disk is accepted, or there is nothing to keep in it nor in any of the
buffers that a writer may merge from. -/
def Safe (w : World) : Prop :=
  (diskHeader w.drive.bytes).Accepted ∨
  ((diskHeader w.drive.bytes).Quiet ∧ (∀ c, (headerCodec.symm (w.saveHdr c)).Quiet) ∧
    (headerCodec.symm w.savelistSetHdr).Quiet)

theorem not_foreign_iff (h : Header) : ¬ h.Foreign ↔ h.Accepted ∨ h.Quiet := by
  unfold Header.Foreign Header.Accepted Header.Quiet Header.keptFlags
  by_cases hm : h.magic = persistMagic
  · simp only [hm, true_and, if_true, not_and, not_exists, not_not]
    exact ⟨fun hq => or_iff_not_imp_left.2 hq, fun hq hv => hq.resolve_left hv⟩
  · simp [hm]

/-- Accepted headers are the ones that writers make. -/
theorem fresh_accepted (savelist flags : UInt32) (csum : Category → UInt32) :
    (Header.fresh savelist flags csum).Accepted := ⟨rfl, rfl⟩

/-- A buffer after a header read holds what it held, or the header on the disk. -/
theorem readHeader_buffer (w : World) (buf : Fin (512 * 1) → UInt8) :
    (readHeader w buf).2.1 = buf ∨ headerCodec.symm (readHeader w buf).2.1 = diskHeader w.drive.bytes := by
  obtain ⟨r, hr, -⟩ := readHeader_eq w buf
  rw [hr]
  by_cases hread : (w.drive.plan 0).ReadsOne
  · simp only [if_pos hread]
    exact Or.inr rfl
  · simp only [if_neg hread]
    exact Or.inl trivial

/-- So does the buffer of a save. -/
theorem persistSave_buffer (c c' : Category) (w : World) :
    (persistSave c w).2.saveHdr c' = w.saveHdr c' ∨
      headerCodec.symm ((persistSave c w).2.saveHdr c') = diskHeader w.drive.bytes := by
  unfold persistSave
  split
  · exact Or.inl rfl
  split
  · exact Or.inl rfl
  obtain ⟨done, -, r, hr, -⟩ := ataWriteSectors_eq w.drive c.lba (c.image (w.get c)) (count_pos c)
  simp only [hr]
  split
  · exact Or.inl rfl
  -- the data is written, and the header is in none of its sectors
  set w₁ : World := { w with drive := { w.drive.advance with
    bytes := put w.drive.bytes c.lba
      (splice (512 * done) (sectors w.drive.bytes c.lba c.count) (c.image (w.get c))) } }
  have hdisk : diskHeader w₁.drive.bytes = diskHeader w.drive.bytes := diskHeader_put_data _ _ _
  have hbuf := readHeader_buffer w₁ (w.saveHdr c)
  rw [hdisk] at hbuf
  show Function.update w.saveHdr c (readHeader w₁ (w.saveHdr c)).2.1 c' = _ ∨
    headerCodec.symm (Function.update w.saveHdr c (readHeader w₁ (w.saveHdr c)).2.1 c') = _
  by_cases hc : c' = c
  · rw [hc, Function.update_self]
    exact hbuf
  · rw [Function.update_of_ne hc]
    exact Or.inl rfl

theorem persistSavelistSet_buffer (w : World) (flags : UInt32) :
    (persistSavelistSet w flags).savelistSetHdr = w.savelistSetHdr ∨
      headerCodec.symm (persistSavelistSet w flags).savelistSetHdr = diskHeader w.drive.bytes := by
  unfold persistSavelistSet
  dsimp only
  split
  · exact Or.inl rfl
  · exact readHeader_buffer { w with savelistFlags := flags } w.savelistSetHdr

/-- Whatever a save merges is quiet. -/
theorem Header.Quiet.of_buffer {buf buf' : Fin (512 * 1) → UInt8} (hdisk : (diskHeader disk).Quiet)
    (hold : (headerCodec.symm buf).Quiet) (h : buf' = buf ∨ headerCodec.symm buf' = diskHeader disk) :
    (headerCodec.symm buf').Quiet := by
  rcases h with h | h
  · rw [h]; exact hold
  · rw [h]; exact hdisk

/-- **A save** makes an accepted header that vouches for its own category and those of what
it merged, or leaves the header as it is. -/
theorem persistSave_header (c : Category) (w : World) :
    (diskHeader (persistSave c w).2.drive.bytes = diskHeader w.drive.bytes) ∨
    ∃ sum, diskHeader (persistSave c w).2.drive.bytes = (w.mergeSource c).saved w.savelistFlags c sum := by
  by_cases h : w.Saves c
  swap
  · rw [persistSave_skip h]; exact Or.inl rfl
  obtain ⟨plan, buf, bytes, heq, ⟨-, hbytes⟩ | ⟨-, k, -, hbytes⟩⟩ := persistSave_cases h
  · rw [heq, hbytes]
    exact Or.inr ⟨_, diskHeader_put_header _ _⟩
  · rw [heq, hbytes]
    exact Or.inl (diskHeader_put_data _ _ _)

theorem persistSavelistSet_header (w : World) (flags : UInt32) :
    diskHeader (persistSavelistSet w flags).drive.bytes = diskHeader w.drive.bytes ∨
    diskHeader (persistSavelistSet w flags).drive.bytes =
      .fresh flags w.setSource.keptFlags w.setSource.keptCsum := by
  by_cases hp : w.diskPresent = true
  swap
  · rw [persistSavelistSet_absent (by simpa using hp)]; exact Or.inl rfl
  obtain ⟨buf, heq⟩ := persistSavelistSet_eq hp flags
  rw [heq]
  by_cases hw : (w.drive.plan 1).WritesOne
  · simp only [if_pos hw]
    exact Or.inr (diskHeader_put_header _ _)
  · simp only [if_neg hw]
    exact Or.inl trivial

/-! ## One step -/

/-- The state that counts is kept. -/
theorem Safe.congr {w' : World} (h : Safe w) (hbytes : w'.drive.bytes = w.drive.bytes) (hsave : w'.saveHdr = w.saveHdr)
    (hset : w'.savelistSetHdr = w.savelistSetHdr) : Safe w' := by
  unfold Safe
  rw [hbytes, hsave, hset]
  exact h

theorem zero_quiet : (headerCodec.symm fun _ => 0).Quiet := by
  intro c
  have hm : (headerCodec.symm fun _ => 0).magic ≠ persistMagic := by decide
  rw [Header.keptFlags, if_neg hm, UInt32.zero_and]

theorem safe_cleared (disk : ℕ → UInt8) (plan : ℕ → Script) (h : ¬ (diskHeader disk).Foreign) :
    Safe (World.cleared ⟨disk, plan⟩) := by
  rcases (not_foreign_iff _).1 h with hacc | hquiet
  · exact Or.inl hacc
  · exact Or.inr ⟨hquiet, fun _ => zero_quiet, zero_quiet⟩

theorem Safe.save (h : Safe w) (c : Category) : Safe (persistSave c w).2 := by
  have hset : (persistSave c w).2.savelistSetHdr = w.savelistSetHdr := by
    by_cases hs : w.Saves c
    · obtain ⟨plan, buf, bytes, heq, -⟩ := persistSave_cases hs
      rw [heq]
    · rw [persistSave_skip hs]
  rcases persistSave_header c w with hsame | ⟨sum, hfresh⟩
  · rcases h with hacc | ⟨hquiet, hsave, hlist⟩
    · exact Or.inl (hsame ▸ hacc)
    · refine Or.inr ⟨hsame ▸ hquiet, ?_, hset ▸ hlist⟩
      intro c'
      exact hquiet.of_buffer (hsave c') (persistSave_buffer c c' w)
  · exact Or.inl (hfresh ▸ fresh_accepted _ _ _)

theorem Safe.savelistSet (h : Safe w) (flags : UInt32) : Safe (persistSavelistSet w flags) := by
  have hsave : (persistSavelistSet w flags).saveHdr = w.saveHdr := by
    by_cases hp : w.diskPresent = true
    · obtain ⟨buf, heq⟩ := persistSavelistSet_eq hp flags
      rw [heq]
    · rw [persistSavelistSet_absent (by simpa using hp)]
  rcases persistSavelistSet_header w flags with hsame | hfresh
  · rcases h with hacc | ⟨hquiet, hbuf, hlist⟩
    · exact Or.inl (hsame ▸ hacc)
    · exact Or.inr ⟨hsame ▸ hquiet, hsave ▸ hbuf, hquiet.of_buffer hlist (persistSavelistSet_buffer w flags)⟩
  · exact Or.inl (hfresh ▸ fresh_accepted _ _ _)

/-- **One step** keeps the invariant. -/
theorem Safe.step (h : Safe w) (op : StoreOp) : Safe (op.apply w) := by
  cases op with
  | probe =>
    obtain ⟨present, flags, plan, heq⟩ := persistProbe_cases w
    have hstep : StoreOp.probe.apply w = _ := heq
    rw [hstep]
    exact h.congr rfl rfl rfl
  | load c =>
    obtain ⟨plan, ⟨heq, -⟩ | ⟨x, -, heq⟩⟩ := persistLoad_cases c w
    · have hstep : (StoreOp.load c).apply w = _ := heq
      rw [hstep]
      exact h.congr rfl rfl rfl
    · have hstep : (StoreOp.load c).apply w = _ := congrArg Prod.snd heq
      rw [hstep]
      refine h.congr ?_ ?_ ?_
      · rw [World.set_drive]; rfl
      · cases c <;> rfl
      · cases c <;> rfl
  | persist op =>
    cases op with
    | save c =>
      rw [StoreOp.apply, PersistOp.apply_save]
      exact h.save c
    | savelistSet flags => exact h.savelistSet flags
    | change c x => cases c <;> exact h.congr rfl rfl rfl
  | powerCycle =>
    rcases h with hacc | ⟨hquiet, -, -⟩
    · exact Or.inl hacc
    · exact Or.inr ⟨hquiet, fun _ => zero_quiet, zero_quiet⟩

theorem Safe.run (h : Safe w) (ops : List StoreOp) : Safe (runStore ops w) := by
  induction ops generalizing w with
  | nil => exact h
  | cons op ops ih => exact ih (h.step op)

/-- A quiet header vouches for nothing that a load could take. -/
theorem Header.Quiet.no_snapshot (h : (diskHeader disk).Quiet) (c : Category) : snapshot? disk c = none := by
  refine if_neg ?_
  rintro ⟨hm, hflag, -⟩
  have hzero := h c
  rw [Header.keptFlags, if_pos hm] at hzero
  exact hflag hzero

/-- A load that takes nothing. -/
theorem persistLoad_get_of_none (hnone : snapshot? w.drive.bytes c = none) (c' : Category) :
    (persistLoad c w).2.get c' = w.get c' := by
  obtain ⟨plan, ⟨heq, -⟩ | ⟨x, hx, -⟩⟩ := persistLoad_cases c w
  · rw [heq]
    cases c' <;> rfl
  · rw [hnone] at hx
    cases hx

/-- **A step from a safe state** respects the version. -/
theorem Safe.respects (h : Safe w) (op : StoreOp) : RespectsVersion w op := by
  have hquiet (hacc : ¬ (diskHeader w.drive.bytes).Accepted) := h.resolve_left hacc
  refine ⟨?_, ?_⟩
  · rintro c rfl hacc c'
    exact persistLoad_get_of_none ((hquiet hacc).1.no_snapshot c) c'
  · intro c hne hv hafter hcarry
    have hacc : ¬ (diskHeader w.drive.bytes).Accepted := fun hacc => hv hacc.2
    obtain ⟨hdisk, hsave, hlist⟩ := hquiet hacc
    cases op with
    | probe => exact hacc (by simpa [(persistProbe_taken w).bytes, StoreOp.apply] using hafter)
    | load c' => exact hacc (by simpa [(persistLoad_taken c' w).bytes, StoreOp.apply] using hafter)
    | powerCycle => exact hacc hafter
    | persist op =>
      cases op with
      | change c' x => exact hacc (by simpa [StoreOp.apply, PersistOp.apply] using hafter)
      | save c' =>
        have hc : c ≠ c' := by
          rintro rfl
          exact hne rfl
        rw [StoreOp.apply, PersistOp.apply_save] at hafter hcarry
        rcases persistSave_header c' w with hsame | ⟨sum, hfresh⟩
        · exact hacc (hsame ▸ hafter)
        · have hsrc : (w.mergeSource c').Quiet := by
            unfold World.mergeSource
            split
            · exact hdisk
            · exact hsave c'
          refine hcarry.2.1 ?_
          rw [hfresh, Header.saved, Header.fresh]
          exact (flag_disjoint hc _).trans (hsrc c)
      | savelistSet flags =>
        rcases persistSavelistSet_header w flags with hsame | hfresh
        · exact hacc (hsame ▸ hafter)
        · have hsrc : w.setSource.Quiet := by
            unfold World.setSource
            split
            · exact hdisk
            · exact hlist
          refine hcarry.2.1 ?_
          have hstep : (StoreOp.persist (.savelistSet flags)).apply w = persistSavelistSet w flags := rfl
          rw [hstep, hfresh]
          exact hsrc c

/-! ## All runs -/

/-- The save list written over a header of another version, on a good drive. -/
theorem savelistSet_carries (hp : w.diskPresent = true) (hd : w.drive = Drive.good disk)
    (hm : (diskHeader disk).magic = persistMagic) (hv : (diskHeader disk).version ≠ persistVersion)
    (hc : (diskHeader disk).flags &&& c.flag ≠ 0) (flags : UInt32) :
    ¬ RespectsVersion w (.persist (.savelistSet flags)) := by
  intro h
  obtain ⟨buf, heq⟩ := persistSavelistSet_good hp hd flags
  have hbefore : diskHeader w.drive.bytes = diskHeader disk := by rw [hd]; rfl
  have hafter : diskHeader ((StoreOp.persist (.savelistSet flags)).apply w).drive.bytes =
      .fresh flags (diskHeader disk).keptFlags (diskHeader disk).keptCsum := by
    have hstep : (StoreOp.persist (.savelistSet flags)).apply w = persistSavelistSet w flags := rfl
    rw [hstep, heq]
    exact diskHeader_put_header _ _
  have hno := h.carry c (by simp)
  rw [hbefore, hafter] at hno
  refine hno hv (fresh_accepted _ _ _) ⟨hc, ?_, ?_⟩
  · rw [Header.fresh, keptFlags_of_magic hm]
    exact hc
  · rw [Header.csum_fresh, keptCsum_of_magic hm]

/-- **Headers of another version.** From power-on, every run of probes, loads, saves,
changes of the save list and reboots respects the version, whatever fails in it, if and
only if the header that is on the disk at the start is not one of another version that
says that something was saved. -/
theorem header_version_iff (disk : ℕ → UInt8) :
    (∀ plan ops, RunRespectsVersion (World.cleared ⟨disk, plan⟩) ops) ↔ ¬ (diskHeader disk).Foreign := by
  constructor
  · rintro h ⟨hm, hv, c, hc⟩
    -- the probe finds the disk, and the save list is written
    have hstep := h (Drive.good disk).plan [.probe, .persist (.savelistSet savelistAll)] [.probe] _ [] rfl
    have hprobe : runStore [.probe] (World.cleared (Drive.good disk)) = _ :=
      congrArg Prod.snd (persistProbe_good (w := World.cleared (Drive.good disk)) rfl)
    have hrun : runStore [.probe] (World.cleared ⟨disk, (Drive.good disk).plan⟩) = _ := hprobe
    rw [hrun] at hstep
    exact savelistSet_carries rfl rfl hm hv hc savelistAll hstep
  · intro h plan ops pre op post _
    exact ((safe_cleared disk plan h).run pre).respects op

/-- The aliases, saved under version 2. -/
def foreignDisk : ℕ → UInt8 :=
  put (put (fun _ => 0) Category.aliases.lba (Category.aliases.image oneAlias)) lbaHeader (headerCodec
    ⟨persistMagic, 2, Category.aliases.flag, checksum (Category.aliases.image oneAlias), 0, savelistAll, fun _ => 0⟩)

/-- **The probe rejects the header, and the loader takes its aliases.** A `savelist` then
makes it a header that the probe accepts, with the flag and the checksum as they were. -/
theorem header_version_foreign : ∃ w : World, w = runStore [.probe] (World.cleared (Drive.good foreignDisk)) ∧
    (persistProbe w).1 = false ∧ ¬ RespectsVersion w (.load .aliases) ∧
    ¬ RespectsVersion w (.persist (.savelistSet savelistAll)) := by
  have hhdr : diskHeader foreignDisk = ⟨persistMagic, 2, Category.aliases.flag,
      checksum (Category.aliases.image oneAlias), 0, savelistAll, fun _ => 0⟩ := diskHeader_put_header _ _
  have hv : (diskHeader foreignDisk).version ≠ persistVersion := by rw [hhdr]; decide
  have hc : (diskHeader foreignDisk).flags &&& Category.aliases.flag ≠ 0 := by rw [hhdr]; decide
  have hdata : dataSectors foreignDisk .aliases = Category.aliases.image oneAlias := by
    rw [foreignDisk, dataSectors_put_header, dataSectors_put_self]
  have hsnap : snapshot? foreignDisk .aliases = some oneAlias := by
    have hfield (h : Header) : h.csum .aliases = h.aliasChecksum := rfl
    have hsum : (diskHeader foreignDisk).csum .aliases = checksum (Category.aliases.image oneAlias) := by
      rw [hfield, hhdr]
    refine snapshot?_eq_some.2 ⟨⟨congrArg Header.magic hhdr, hc, ?_⟩, ?_⟩
    · rw [hdata, hsum]
    · rw [hdata, ofImage_image]
  have hprobe : ∀ w : World, w.drive = Drive.good foreignDisk →
      persistProbe w = (false, { w with diskPresent := true }) := by
    intro w hd
    have hval : ¬ ((diskHeader foreignDisk).magic = persistMagic ∧
      (diskHeader foreignDisk).version = persistVersion) := fun h => hv h.2
    rw [persistProbe_good hd, if_neg hval, decide_eq_false hval]
  refine ⟨_, rfl, ?_, ?_, ?_⟩
  · rw [show runStore [.probe] _ = _ from congrArg Prod.snd (hprobe _ rfl)]
    exact congrArg Prod.fst (hprobe _ rfl)
  · rw [show runStore [.probe] _ = _ from congrArg Prod.snd (hprobe _ rfl)]
    intro h
    have hsame := h.load .aliases rfl (fun hacc => hv hacc.2) .aliases
    have hload := @persistLoad_good foreignDisk .aliases
      { World.cleared (Drive.good foreignDisk) with diskPresent := true } rfl rfl
    rw [hsnap] at hload
    have hget : oneAlias = AliasTable.zero := by
      rw [StoreOp.apply, hload] at hsame
      exact hsame
    exact absurd (congrArg AliasTable.count hget) (by decide)
  · rw [show runStore [.probe] _ = _ from congrArg Prod.snd (hprobe _ rfl)]
    exact savelistSet_carries rfl rfl (by rw [hhdr]) hv hc savelistAll

end DahleOS
