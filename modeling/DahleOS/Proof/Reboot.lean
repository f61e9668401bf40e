import DahleOS.Proof.Snapshot

/-!
# What a reboot restores

On a good drive, any run of saves, changes of memory and changes of the save list is
followed by its account (`Saved`): what each category held when it was last really saved,
and the save list last written.

* `Kept.step`, `Kept.run`: the disk holds what the account says, and whatever the run did
  not save is as it was.
* `reboot_restores`: so a reboot restores exactly the account.
-/

namespace DahleOS

open Codec SectorDisk

/-! ## Runs -/

/-- One step: a save, a new save list, or some change of the memory of a category. -/
inductive PersistOp
  | save (c : Category)
  | savelistSet (flags : UInt32)
  | change (c : Category) (x : c.Data)

def PersistOp.apply : PersistOp → World → World
  | .save .aliases, w => (persistSaveAliases w).2
  | .save .fs, w => (persistSaveFs w).2
  | .savelistSet flags, w => persistSavelistSet w flags
  | .change c x, w => w.set c x

theorem PersistOp.apply_save (c : Category) (w : World) : (PersistOp.save c).apply w = (persistSave c w).2 := by
  cases c <;> rfl

/-- What was last saved of each category, and the save list last written. -/
structure Saved where
  data : (c : Category) → Option c.Data
  savelist : Option UInt32

/-- The account of one step, from the memory before it. -/
def Saved.step (g : Saved) (w : World) : PersistOp → Saved
  | .save c =>
    if w.Saves c then ⟨Function.update g.data c (some (w.get c)), some w.savelistFlags⟩ else g
  | .savelistSet flags => if w.diskPresent then { g with savelist := some flags } else g
  | .change _ _ => g

/-- A run, with its account. -/
def runPersist : List PersistOp → World × Saved → World × Saved
  | [], s => s
  | op :: ops, (w, g) => runPersist ops (op.apply w, g.step w op)

/-- Nothing saved. -/
def Saved.none : Saved := ⟨fun _ => Option.none, Option.none⟩

/-- `persist_probe`, `persist_load_aliases`, `persist_load_fs` on cleared memory. -/
def reboot (w : World) : World :=
  (persistLoadFs (persistLoadAliases (persistProbe (World.cleared w.drive)).2).2).2

/-! ## The invariant -/

/-- **The disk holds what the account says**, and what it does not mention is as on the
disk `disk₀` that the run started from. -/
structure Kept (disk₀ : ℕ → UInt8) (w : World) (g : Saved) : Prop where
  present : w.diskPresent = true
  good : w.drive = Drive.good w.drive.bytes
  data : ∀ c x, g.data c = some x → snapshot? w.drive.bytes c = some x ∧ g.savelist.isSome = true
  header : ∀ flags, g.savelist = some flags → (diskHeader w.drive.bytes).magic = persistMagic ∧
    (diskHeader w.drive.bytes).version = persistVersion ∧ (diskHeader w.drive.bytes).savelist = flags
  rest : ∀ c, g.data c = Option.none → (diskHeader disk₀).magic = persistMagic →
    (diskHeader w.drive.bytes).magic = persistMagic ∧
    (diskHeader w.drive.bytes).flags &&& c.flag = (diskHeader disk₀).flags &&& c.flag ∧
    (diskHeader w.drive.bytes).csum c = (diskHeader disk₀).csum c ∧
    dataSectors w.drive.bytes c = dataSectors disk₀ c

variable {disk disk₀ : ℕ → UInt8} {w : World} {g : Saved} {c c' : Category}

theorem keptFlags_of_magic {h : Header} (hm : h.magic = persistMagic) : h.keptFlags = h.flags := if_pos hm

theorem keptCsum_of_magic {h : Header} (hm : h.magic = persistMagic) (c : Category) : h.keptCsum c = h.csum c :=
  if_pos hm

theorem Kept.set (h : Kept disk₀ w g) (c : Category) (x : c.Data) : Kept disk₀ (w.set c x) g where
  present := by rw [World.set_diskPresent]; exact h.present
  good := by rw [World.set_drive]; exact h.good
  data := by rw [World.set_drive]; exact h.data
  header := by rw [World.set_drive]; exact h.header
  rest := by rw [World.set_drive]; exact h.rest

/-- After a save, the disk holds its own image beside what it held before. -/
theorem snapshot?_update {data : (c : Category) → Option c.Data}
    (h : ∀ c x, data c = some x → snapshot? disk c = some x) (savelist : UInt32) (x : c.Data) :
    ∀ c' x', Function.update data c (some x) c' = some x' →
      snapshot? (savedDisk disk (diskHeader disk) savelist c x) c' = some x' := by
  intro c' x' hx
  by_cases hc : c' = c
  · subst hc
    simp only [Function.update_self, Option.some.injEq] at hx
    subst hx
    exact snapshot?_savedDisk_self _ _ _ _ _
  · simp only [Function.update_of_ne hc] at hx
    have hold := h c' x' hx
    exact (snapshot?_savedDisk_other hc hold _ _ _).2 (snapshot?_eq_some.1 hold).1

/-- A save that writes. -/
theorem Kept.save (h : Kept disk₀ w g) (hs : w.Saves c) : Kept disk₀ (persistSave c w).2
    ⟨Function.update g.data c (some (w.get c)), some w.savelistFlags⟩ := by
  rw [persistSave_good hs h.good]
  have hhdr : diskHeader (savedDisk w.drive.bytes (diskHeader w.drive.bytes) w.savelistFlags c (w.get c)) =
      (diskHeader w.drive.bytes).saved w.savelistFlags c (checksum (c.image (w.get c))) :=
    diskHeader_put_header _ _
  refine { present := h.present, good := rfl, data := ?_, header := ?_, rest := ?_ }
  · intro c' x hx
    exact ⟨snapshot?_update (fun c x hx => (h.data c x hx).1) _ _ c' x hx, rfl⟩
  · intro flags hf
    simp only [Option.some.injEq] at hf
    subst hf
    simp only [good_bytes, hhdr]
    exact ⟨rfl, rfl, rfl⟩
  · -- a category that was never saved is not the one saved now
    intro c' hc' hm
    have hc : c' ≠ c := by
      rintro rfl
      simp at hc'
    simp only [Function.update_of_ne hc] at hc'
    obtain ⟨hmagic, hflags, hcsum, hdata⟩ := h.rest c' hc' hm
    have hkflags (sum : UInt32) : ((diskHeader w.drive.bytes).saved w.savelistFlags c sum).flags &&& c'.flag =
        (diskHeader disk₀).flags &&& c'.flag := by
      rw [← hflags]
      simp only [Header.saved, Header.fresh, flag_disjoint hc, keptFlags_of_magic hmagic]
    have hkcsum (sum : UInt32) : ((diskHeader w.drive.bytes).saved w.savelistFlags c sum).csum c' =
        (diskHeader disk₀).csum c' := by
      rw [Header.saved, Header.csum_fresh, Function.update_of_ne hc, keptCsum_of_magic hmagic, hcsum]
    have hkdata := dataSectors_savedDisk_other hc w.drive.bytes (diskHeader w.drive.bytes) w.savelistFlags
      (w.get c)
    simp only [good_bytes, hhdr]
    exact ⟨rfl, hkflags _, hkcsum _, hkdata.trans hdata⟩

/-- A new save list. -/
theorem Kept.relist (h : Kept disk₀ w g) (flags : UInt32) :
    Kept disk₀ (persistSavelistSet w flags) { g with savelist := some flags } := by
  obtain ⟨buf, heq⟩ := persistSavelistSet_good h.present h.good flags
  have hhdr : diskHeader (relistedDisk w.drive.bytes (diskHeader w.drive.bytes) flags) =
      .fresh flags (diskHeader w.drive.bytes).keptFlags (diskHeader w.drive.bytes).keptCsum :=
    diskHeader_put_header _ _
  rw [heq]
  refine { present := h.present, good := rfl, data := ?_, header := ?_, rest := ?_ }
  · intro c x hx
    have hold := (h.data c x hx).1
    exact ⟨(snapshot?_relistedDisk hold _ _).2 (snapshot?_eq_some.1 hold).1, rfl⟩
  · intro flags' hf
    simp only [Option.some.injEq] at hf
    subst hf
    simp only [good_bytes, hhdr]
    exact ⟨rfl, rfl, rfl⟩
  · intro c hc hm
    obtain ⟨hmagic, hflags, hcsum, hdata⟩ := h.rest c hc hm
    have hkflags : (diskHeader w.drive.bytes).keptFlags &&& c.flag = (diskHeader disk₀).flags &&& c.flag := by
      rw [keptFlags_of_magic hmagic, hflags]
    have hkcsum : (diskHeader w.drive.bytes).keptCsum c = (diskHeader disk₀).csum c := by
      rw [keptCsum_of_magic hmagic, hcsum]
    have hkdata := dataSectors_put_header w.drive.bytes c
      (headerCodec (.fresh flags (diskHeader w.drive.bytes).keptFlags (diskHeader w.drive.bytes).keptCsum))
    simp only [good_bytes, hhdr, Header.csum_fresh]
    exact ⟨rfl, hkflags, hkcsum, hkdata.trans hdata⟩

theorem Kept.step (h : Kept disk₀ w g) (op : PersistOp) : Kept disk₀ (op.apply w) (g.step w op) := by
  cases op with
  | save c =>
    rw [PersistOp.apply_save, Saved.step]
    split
    · exact h.save ‹_›
    · rw [persistSave_skip ‹_›]; exact h
  | savelistSet flags =>
    rw [Saved.step, if_pos h.present]
    exact h.relist flags
  | change c x => exact h.set c x

theorem Kept.run (h : Kept disk₀ w g) (ops : List PersistOp) :
    Kept disk₀ (runPersist ops (w, g)).1 (runPersist ops (w, g)).2 := by
  induction ops generalizing w g with
  | nil => exact h
  | cons op ops ih => exact ih (h.step op)

/-! ## The reboot -/

theorem persistProbe_good (hd : w.drive = Drive.good disk) : persistProbe w =
    (decide ((diskHeader disk).magic = persistMagic ∧ (diskHeader disk).version = persistVersion), { w with
      diskPresent := true
      savelistFlags := if (diskHeader disk).magic = persistMagic ∧ (diskHeader disk).version = persistVersion
        then (diskHeader disk).savelist else w.savelistFlags }) := by
  obtain ⟨aliases, fs, present, flags, saveHdr, setHdr, drive⟩ := w
  obtain rfl : drive = Drive.good disk := hd
  unfold persistProbe readHeader
  simp only [detect_good, @readSectors_good 1 _ _ _ Nat.one_pos, Bool.not_true, Bool.false_eq_true,
    if_false, ne_eq, not_true_eq_false]
  rw [headerCodec_sectors]
  by_cases hm : (diskHeader disk).magic = persistMagic
  · by_cases hv : (diskHeader disk).version = persistVersion
    · simp [hm, hv]
    · simp [hm, hv]
  · simp [hm]

/-- A snapshot on a good drive is what its category holds after both loads. -/
theorem loads_get {x : c.Data} (hp : w.diskPresent = true) (hd : w.drive = Drive.good disk)
    (hx : snapshot? disk c = some x) : (persistLoadFs (persistLoadAliases w).2).2.get c = x := by
  have hkeep := persistLoad_drive (c := .aliases) hp hd
  rw [persistLoadAliases, persistLoadFs, persistLoad_good hkeep.1 hkeep.2]
  cases c with
  | aliases =>
    have hload : (persistLoad .aliases w).2.get .aliases = x := by
      rw [persistLoad_good hp hd, hx, World.get_set_self]
    -- the load of the pool leaves the aliases alone
    split
    · rw [World.get_set_other (by decide)]; exact hload
    · exact hload
  | fs => rw [hx, World.get_set_self]

theorem reboot_get {x : c.Data} (hd : w.drive = Drive.good disk) (hx : snapshot? disk c = some x) :
    (reboot w).get c = x := by
  have hprobe := congrArg Prod.snd (persistProbe_good (w := World.cleared w.drive) hd)
  generalize hw₁ : (persistProbe (World.cleared w.drive)).2 = w₁ at hprobe
  have hp₁ : w₁.diskPresent = true := by rw [hprobe]
  have hd₁ : w₁.drive = Drive.good disk := by rw [hprobe]; exact hd
  rw [reboot, hw₁]
  exact loads_get hp₁ hd₁ hx

theorem reboot_savelist (hd : w.drive = Drive.good disk) (hm : (diskHeader disk).magic = persistMagic)
    (hv : (diskHeader disk).version = persistVersion) :
    (reboot w).savelistFlags = (diskHeader disk).savelist := by
  have hload (c : Category) (v : World) : (persistLoad c v).2.savelistFlags = v.savelistFlags := by
    obtain ⟨plan, ⟨h, -⟩ | ⟨x, -, h⟩⟩ := persistLoad_cases c v
    · rw [h]; rfl
    · rw [h, World.set_savelistFlags]; rfl
  rw [reboot, persistLoadFs, hload, persistLoadAliases, hload,
    persistProbe_good (w := World.cleared w.drive) hd, if_pos ⟨hm, hv⟩]

/-- **A reboot restores what was saved.** Whatever is on a good drive and in memory, after
`persist_probe` and any run of saves and changes, a reboot gives each category that was
saved as it was at its last save, and the save list that was last written; a category that
was not saved keeps its flag, its checksum and its sectors, if the header was valid. -/
theorem reboot_restores (m : World) (disk₀ : ℕ → UInt8) (ops : List PersistOp) :
    let start := (persistProbe { m with drive := Drive.good disk₀ }).2
    let w := (runPersist ops (start, Saved.none)).1
    let saved := (runPersist ops (start, Saved.none)).2
    (∀ c x, saved.data c = some x → (reboot w).get c = x) ∧
    (∀ flags, saved.savelist = some flags → (reboot w).savelistFlags = flags ∧
      (diskHeader w.drive.bytes).savelist = flags) ∧
    (∀ c, saved.data c = Option.none → (diskHeader disk₀).magic = persistMagic →
      (diskHeader w.drive.bytes).flags &&& c.flag = (diskHeader disk₀).flags &&& c.flag ∧
      (diskHeader w.drive.bytes).csum c = (diskHeader disk₀).csum c ∧
      dataSectors w.drive.bytes c = dataSectors disk₀ c) := by
  intro start w saved
  have hstart : Kept disk₀ start Saved.none := by
    have hprobe := congrArg Prod.snd (persistProbe_good (w := { m with drive := Drive.good disk₀ }) rfl)
    have hdrive : start.drive = Drive.good disk₀ := by rw [show start = _ from hprobe]
    have hpresent : start.diskPresent = true := by rw [show start = _ from hprobe]
    refine { present := hpresent, good := by rw [hdrive]; rfl, data := ?_, header := ?_, rest := ?_ }
    · intro c x hx; cases hx
    · intro flags hf; cases hf
    · intro c _ hm; rw [hdrive]; exact ⟨hm, rfl, rfl, rfl⟩
  have h := hstart.run ops
  refine ⟨?_, ?_, ?_⟩
  · intro c x hx
    exact reboot_get h.good (h.data c x hx).1
  · intro flags hf
    obtain ⟨hm, hv, hs⟩ := h.header flags hf
    exact ⟨(reboot_savelist h.good hm hv).trans hs, hs⟩
  · intro c hc hm
    exact (h.rest c hc hm).2

end DahleOS
