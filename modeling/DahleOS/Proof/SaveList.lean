import DahleOS.Proof.AutoSave

/-!
# A category off the save list

A command is a run of saves, changes of memory and changes of the save list
(`exec_ops`), so the account of `Saved` extends to commands and reboots (`History`).

* `Held.step`: the disk holds what the account says was last saved of a category.
* `Off.step`, `Off.boot`: a category that is off the save list stays off it, and nobody
  writes its sectors, its flag or its checksum.
* `removed_frozen`: so from its removal on, every load and every reboot gives back what was
  last saved of it before.
-/

namespace DahleOS

open Codec SectorDisk

variable {disk : ℕ → UInt8} {c c' : Category} {w w' : World} {g : Saved}

/-! ## Commands as runs -/

/-- What `savelist` changes, by what it prints. -/
def SavelistMsg.ops (flags : UInt32) : SavelistMsg → List PersistOp
  | .added c => [.savelistSet (flags ||| c.bit)]
  | .removed c => [.savelistSet (flags &&& ~~~c.bit)]
  | _ => []

/-- What `persist_load` changes on a good drive. -/
def loadOps (disk : ℕ → UInt8) (c : Category) : List PersistOp :=
  (snapshot? disk c).toList.map (.change c)

/-- **The run that a command makes**, on a good drive. -/
def Builtin.ops (m : Machine) (args : Str) : Builtin → List PersistOp
  | fs cmd => match cmd.exec m.fs args with
    | some r => .change .fs r.fs :: if r.save then [.save .fs] else []
    | none => []
  | aliasCmd => if args = [] then [] else match aliasSet m.aliases args with
    | some (_, some aliases) => [.change .aliases aliases, .save .aliases]
    | _ => []
  | save => [.save .aliases, .save .fs]
  | load => loadOps m.drive.bytes .aliases ++ loadOps m.drive.bytes .fs
  | savelist => (cmdSavelist m.toWorld args).1.ops m.savelistFlags
  | quiet | stop | scp | loop | alu => []

theorem runPersist_append (ops ops' : List PersistOp) (s : World × Saved) :
    runPersist (ops ++ ops') s = runPersist ops' (runPersist ops s) := by
  induction ops generalizing s with
  | nil => rfl
  | cons op ops ih => exact ih _

theorem cmdSavelist_eq (w : World) (args : Str) (g : Saved) :
    (cmdSavelist w args).2 = (runPersist ((cmdSavelist w args).1.ops w.savelistFlags) (w, g)).1 := by
  unfold cmdSavelist
  dsimp only
  split_ifs
  · rfl
  · rfl
  · split
    · rfl
    · split_ifs
      · rfl
      · rfl
  · split
    · rfl
    · split_ifs
      · rfl
      · rfl
  · rfl

theorem runPersist_loadOps (hp : w.diskPresent = true) (hd : w.drive = Drive.good disk) (c : Category)
    (g : Saved) : (runPersist (loadOps disk c) (w, g)).1 = (persistLoad c w).2 := by
  rw [persistLoad_good hp hd, loadOps]
  cases snapshot? disk c with
  | none => rfl
  | some x => rfl

/-- **A command that returns** makes its run. -/
theorem exec_ops {m m' : Machine} {args : Str} {b : Builtin} (hp : m.diskPresent = true)
    (hd : m.drive = Drive.good disk) (hexec : b.exec m args = .ok m') (g : Saved) :
    m'.toWorld = (runPersist (b.ops m args) (m.toWorld, g)).1 := by
  cases b with
  | quiet => cases hexec; rfl
  | stop => cases hexec
  | scp =>
    simp only [Builtin.exec, cmdScp] at hexec
    split at hexec
    · cases hexec
    · cases hexec; rfl
  | loop => cases hexec; rfl
  | fs cmd =>
    simp only [Builtin.exec, cmdFs] at hexec
    cases hr : cmd.exec m.fs args with
    | none => rw [hr] at hexec; cases hexec
    | some r =>
      rw [hr] at hexec
      cases hexec
      simp only [Builtin.ops, hr]
      cases r.save with
      | false => rfl
      | true => rfl
  | alu =>
    -- only the trapdoor changes
    simp only [Builtin.exec] at hexec
    cases hr : cmdAlu m args with
    | error why => rw [hr] at hexec; cases hexec
    | ok r =>
      rw [hr] at hexec
      cases hexec
      rcases cmdAlu_cases hr with h | ⟨a, -, h⟩
      · rw [h]; rfl
      · rw [h]; rfl
  | aliasCmd =>
    simp only [Builtin.exec, cmdAlias] at hexec
    by_cases ha : args = []
    · simp only [Builtin.ops, if_pos ha] at hexec ⊢
      by_cases hc : m.aliases.count = 0
      · rw [if_pos hc] at hexec; cases hexec; rfl
      · rw [if_neg hc] at hexec
        cases he : aliasListFrom m.aliases 0 m.aliases.count.toInt.toNat with
        | none => rw [he] at hexec; cases hexec
        | some entries => rw [he] at hexec; cases hexec; rfl
    · simp only [Builtin.ops, if_neg ha] at hexec ⊢
      cases hs : aliasSet m.aliases args with
      | none => rw [hs] at hexec; cases hexec
      | some r =>
        obtain ⟨msg, changed⟩ := r
        rw [hs] at hexec
        cases changed with
        | none => cases hexec; rfl
        | some aliases => cases hexec; rfl
  | save => cases hexec; rfl
  | load =>
    cases hexec
    have hfirst := runPersist_loadOps hp hd .aliases g
    have hkeep := persistLoad_drive (c := .aliases) hp hd
    have hbytes : m.drive.bytes = disk := by rw [hd]; rfl
    rw [Builtin.ops, hbytes, runPersist_append]
    generalize runPersist (loadOps disk .aliases) (m.toWorld, g) = s at hfirst ⊢
    obtain ⟨w₁, g₁⟩ := s
    obtain rfl : w₁ = (persistLoad .aliases m.toWorld).2 := hfirst
    exact (runPersist_loadOps hkeep.1 hkeep.2 .fs g₁).symm
  | savelist =>
    cases hexec
    exact cmdSavelist_eq m.toWorld args g

/-! ## What was last saved -/

/-- **The disk holds what was last saved** of each category. -/
structure Held (w : World) (g : Saved) : Prop where
  present : w.diskPresent = true
  good : w.drive = Drive.good w.drive.bytes
  data : ∀ c x, g.data c = some x → snapshot? w.drive.bytes c = some x

theorem Held.step (h : Held w g) (op : PersistOp) : Held (op.apply w) (g.step w op) := by
  cases op with
  | save c =>
    rw [PersistOp.apply_save, Saved.step]
    by_cases hs : w.Saves c
    · rw [if_pos hs, persistSave_good hs h.good]
      exact { present := h.present, good := rfl, data := snapshot?_update h.data _ _ }
    · rw [if_neg hs, persistSave_skip hs]; exact h
  | savelistSet flags =>
    obtain ⟨buf, heq⟩ := persistSavelistSet_good h.present h.good flags
    have hstep : (PersistOp.savelistSet flags).apply w = persistSavelistSet w flags := rfl
    rw [Saved.step, if_pos h.present, hstep, heq]
    refine { present := h.present, good := rfl, data := ?_ }
    intro c x hx
    have hold := h.data c x hx
    exact (snapshot?_relistedDisk hold _ _).2 (snapshot?_eq_some.1 hold).1
  | change c x =>
    have hdrive : ((PersistOp.change c x).apply w).drive = w.drive := World.set_drive w c x
    refine { present := ?_, good := by rw [hdrive]; exact h.good, data := by rw [hdrive]; exact h.data }
    exact (World.set_diskPresent w c x).trans h.present

theorem Held.run (h : Held w g) (ops : List PersistOp) :
    Held (runPersist ops (w, g)).1 (runPersist ops (w, g)).2 := by
  induction ops generalizing w g with
  | nil => exact h
  | cons op ops ih => exact ih (h.step op)

/-- **A machine and its account**, across commands and reboots. What a category holds on
the disk at power-on counts as saved. -/
inductive History (disk : ℕ → UInt8) : Machine → Saved → Prop
  | start {m} : Machine.boot (World.cleared (Drive.good disk)) = some m →
    History disk m ⟨fun c => snapshot? disk c, none⟩
  | command {m g} (b : Builtin) (args : Str) {m'} : History disk m g → b.exec m args = .ok m' →
    History disk m' (runPersist (b.ops m args) (m.toWorld, g)).2
  | reboot {m g m'} : History disk m g → Machine.boot (World.cleared m.drive) = some m' → History disk m' g

theorem boot_eq_some {w : World} {m : Machine} (h : Machine.boot w = some m) : shellBoot w = some m.toWorld := by
  obtain ⟨w', hw, hm⟩ := Option.bind_eq_some_iff.1 h
  cases hm
  exact hw

theorem boot_disk {w : World} {m : Machine} (hd : w.drive = Drive.good disk) (h : Machine.boot w = some m) :
    m.diskPresent = true ∧ m.drive = Drive.good disk := by
  obtain ⟨w', hw, hp, hd', -⟩ := shellBoot_disk hd
  obtain rfl : w' = m.toWorld := Option.some.inj (hw.symm.trans (boot_eq_some h))
  exact ⟨hp, hd'⟩

theorem History.held {m : Machine} (h : History disk m g) : Held m.toWorld g := by
  induction h with
  | start hboot =>
    obtain ⟨hp, hd⟩ := boot_disk rfl hboot
    exact { present := hp, good := by rw [hd]; rfl, data := by rw [hd]; exact fun _ _ hx => hx }
  | command b args _ hexec ih =>
    rw [exec_ops ih.present ih.good hexec]
    exact ih.run _
  | reboot _ hboot ih =>
    obtain ⟨hp, hd⟩ := boot_disk (w := World.cleared _) ih.good hboot
    exact { present := hp, good := by rw [hd]; rfl, data := by rw [hd]; exact ih.data }

/-! ## Off the list -/

theorem and_right_zero {a b m : UInt32} (h : a &&& m = 0) : (a &&& b) &&& m = 0 := by
  rw [UInt32.and_assoc, UInt32.and_comm b m, ← UInt32.and_assoc, h, UInt32.zero_and]

theorem bit_disjoint (hne : c' ≠ c) (flags : UInt32) : (flags ||| c.bit) &&& c'.bit = flags &&& c'.bit := by
  have h : c.bit &&& c'.bit = 0 := by
    cases c <;> cases c' <;> first | exact absurd rfl hne | rfl
  rw [and_or_distrib, h, UInt32.or_zero]

/-- The header fields and the sectors of a category are those of another disk. -/
structure SameOn (c : Category) (disk disk' : ℕ → UInt8) : Prop where
  flag : (diskHeader disk').flags &&& c.flag = (diskHeader disk).flags &&& c.flag
  csum : (diskHeader disk').csum c = (diskHeader disk).csum c
  data : dataSectors disk' c = dataSectors disk c

theorem SameOn.refl (c : Category) (disk : ℕ → UInt8) : SameOn c disk disk := ⟨rfl, rfl, rfl⟩

theorem SameOn.trans {disk disk₁ disk₂ : ℕ → UInt8} (h : SameOn c disk disk₁) (h' : SameOn c disk₁ disk₂) :
    SameOn c disk disk₂ :=
  ⟨h'.flag.trans h.flag, h'.csum.trans h.csum, h'.data.trans h.data⟩

/-- A snapshot is there on both disks. -/
theorem SameOn.snapshot? {disk disk' : ℕ → UInt8} {x : c.Data} (h : SameOn c disk disk')
    (hm : (diskHeader disk').magic = persistMagic) (hx : snapshot? disk c = some x) :
    DahleOS.snapshot? disk' c = some x := by
  obtain ⟨⟨-, hflag, hsum⟩, hdata⟩ := snapshot?_eq_some.1 hx
  rw [snapshot?_eq_some, h.data]
  refine ⟨⟨hm, ?_, ?_⟩, hdata⟩
  · rw [h.flag]; exact hflag
  · rw [h.csum]; exact hsum

/-- **The category is off the save list**, in memory and on a good disk with a valid
header. -/
structure Off (c : Category) (w : World) : Prop where
  present : w.diskPresent = true
  good : w.drive = Drive.good w.drive.bytes
  unlisted : w.savelistFlags &&& c.bit = 0
  magic : (diskHeader w.drive.bytes).magic = persistMagic
  version : (diskHeader w.drive.bytes).version = persistVersion
  savelist : (diskHeader w.drive.bytes).savelist &&& c.bit = 0

/-- The step does not add the category to the list. -/
def PersistOp.KeepsOff (c : Category) : PersistOp → Prop
  | savelistSet flags => flags &&& c.bit = 0
  | _ => True

/-- **One step** leaves the category off the list and its part of the disk alone. -/
theorem Off.step (h : Off c w) {op : PersistOp} (hop : op.KeepsOff c) :
    Off c (op.apply w) ∧ SameOn c w.drive.bytes (op.apply w).drive.bytes := by
  cases op with
  | save c' =>
    rw [PersistOp.apply_save]
    by_cases hs : w.Saves c'
    swap
    · rw [persistSave_skip hs]; exact ⟨h, .refl c _⟩
    -- the category that is saved is another one
    have hc : c ≠ c' := by
      rintro rfl
      exact hs.2 h.unlisted
    have hhdr : diskHeader (savedDisk w.drive.bytes (diskHeader w.drive.bytes) w.savelistFlags c' (w.get c')) =
        (diskHeader w.drive.bytes).saved w.savelistFlags c' (checksum (c'.image (w.get c'))) :=
      diskHeader_put_header _ _
    have hflag (sum : UInt32) : ((diskHeader w.drive.bytes).saved w.savelistFlags c' sum).flags &&& c.flag =
        (diskHeader w.drive.bytes).flags &&& c.flag := by
      simp only [Header.saved, Header.fresh, flag_disjoint hc, keptFlags_of_magic h.magic]
    have hcsum (sum : UInt32) : ((diskHeader w.drive.bytes).saved w.savelistFlags c' sum).csum c =
        (diskHeader w.drive.bytes).csum c := by
      rw [Header.saved, Header.csum_fresh, Function.update_of_ne hc, keptCsum_of_magic h.magic]
    rw [persistSave_good hs h.good]
    refine ⟨{ present := h.present, good := rfl, unlisted := h.unlisted, magic := ?_, version := ?_
              savelist := ?_ }, { flag := ?_, csum := ?_, data := ?_ }⟩
    · simp only [good_bytes, hhdr]; rfl
    · simp only [good_bytes, hhdr]; rfl
    · simp only [good_bytes, hhdr]; exact h.unlisted
    · simp only [good_bytes, hhdr]; exact hflag _
    · simp only [good_bytes, hhdr]; exact hcsum _
    · exact dataSectors_savedDisk_other hc _ _ _ _
  | savelistSet flags =>
    obtain ⟨buf, heq⟩ := persistSavelistSet_good h.present h.good flags
    have hstep : (PersistOp.savelistSet flags).apply w = persistSavelistSet w flags := rfl
    have hhdr : diskHeader (relistedDisk w.drive.bytes (diskHeader w.drive.bytes) flags) =
        .fresh flags (diskHeader w.drive.bytes).keptFlags (diskHeader w.drive.bytes).keptCsum :=
      diskHeader_put_header _ _
    rw [hstep, heq]
    refine ⟨{ present := h.present, good := rfl, unlisted := hop, magic := ?_, version := ?_
              savelist := ?_ }, { flag := ?_, csum := ?_, data := ?_ }⟩
    · simp only [good_bytes, hhdr]; rfl
    · simp only [good_bytes, hhdr]; rfl
    · simp only [good_bytes, hhdr]; exact hop
    · simp only [good_bytes, hhdr, Header.fresh, keptFlags_of_magic h.magic]
    · simp only [good_bytes, hhdr, Header.csum_fresh, keptCsum_of_magic h.magic]
    · exact dataSectors_put_header _ _ _
  | change c' x =>
    have hdrive : ((PersistOp.change c' x).apply w).drive = w.drive := World.set_drive w c' x
    have hlist : ((PersistOp.change c' x).apply w).savelistFlags = w.savelistFlags :=
      World.set_savelistFlags w c' x
    rw [hdrive]
    refine ⟨{ present := ?_, good := ?_, unlisted := ?_, magic := ?_, version := ?_, savelist := ?_ }, .refl c _⟩
    · exact (World.set_diskPresent w c' x).trans h.present
    · rw [hdrive]; exact h.good
    · rw [hlist]; exact h.unlisted
    · rw [hdrive]; exact h.magic
    · rw [hdrive]; exact h.version
    · rw [hdrive]; exact h.savelist

theorem Off.run (h : Off c w) {ops : List PersistOp} (hops : ∀ op ∈ ops, op.KeepsOff c) :
    Off c (runPersist ops (w, g)).1 ∧ SameOn c w.drive.bytes (runPersist ops (w, g)).1.drive.bytes := by
  induction ops generalizing w g with
  | nil => exact ⟨h, .refl c _⟩
  | cons op ops ih =>
    obtain ⟨hop, hops⟩ := List.forall_mem_cons.1 hops
    obtain ⟨hoff, hsame⟩ := h.step hop
    obtain ⟨hoff', hsame'⟩ := ih hoff hops
    exact ⟨hoff', hsame.trans hsame'⟩

/-! ## From the removal on -/

/-- `savelist add` of the category, with success. -/
def AddsBack (c : Category) (m : Machine) (args : Str) (b : Builtin) : Prop :=
  b = .savelist ∧ ∃ w, cmdSavelist m.toWorld args = (.added c, w)

/-- **One step that does not add the category back**: a command, or a reboot. -/
inductive OffStep (c : Category) (m m' : Machine) : Prop
  | command (b : Builtin) (args : Str) : b.exec m args = .ok m' → ¬ AddsBack c m args b → OffStep c m m'
  | reboot : Machine.boot (World.cleared m.drive) = some m' → OffStep c m m'

/-- A command that does not add the category back is a run that keeps it off. -/
theorem Off.ops {m : Machine} (h : Off c m.toWorld) {b : Builtin} {args : Str} (hadd : ¬ AddsBack c m args b) :
    ∀ op ∈ b.ops m args, op.KeepsOff c := by
  intro op hop
  cases op with
  | save c' => trivial
  | change c' x => trivial
  | savelistSet flags =>
    show flags &&& c.bit = 0
    cases b with
    | savelist =>
      simp only [Builtin.ops] at hop
      cases hmsg : cmdSavelist m.toWorld args with
      | mk msg w' =>
        rw [hmsg] at hop
        cases msg with
        | added c' =>
          have hc : c ≠ c' := by
            rintro rfl
            exact hadd ⟨rfl, w', hmsg⟩
          cases List.mem_singleton.1 hop
          exact (bit_disjoint hc _).trans h.unlisted
        | removed c' =>
          cases List.mem_singleton.1 hop
          exact and_right_zero h.unlisted
        | _ => cases hop
    | fs cmd =>
      -- no other command sets the save list
      simp only [Builtin.ops] at hop
      split at hop
      · split at hop <;> simp at hop
      · cases hop
    | aliasCmd =>
      simp only [Builtin.ops] at hop
      split at hop
      · cases hop
      · split at hop <;> simp at hop
    | save => simp [Builtin.ops] at hop
    | load => simp [Builtin.ops, loadOps] at hop
    | _ => cases hop

/-- A reboot reads the save list back. -/
theorem Off.boot {m m' : Machine} (h : Off c m.toWorld) (hboot : Machine.boot (World.cleared m.drive) = some m') :
    Off c m'.toWorld ∧ m'.drive = m.drive ∧ ∀ x, snapshot? m.drive.bytes c = some x → m'.get c = x := by
  obtain ⟨w', hw, hp, hd, hload⟩ := shellBoot_disk (w := World.cleared m.drive) h.good
  obtain rfl : w' = m'.toWorld := Option.some.inj (hw.symm.trans (boot_eq_some hboot))
  obtain ⟨hlist, hget⟩ := hload h.magic h.version
  have hdrive : m'.drive = m.drive := hd.trans h.good.symm
  refine ⟨?_, hdrive, hget c⟩
  exact
    { present := hp
      good := by rw [hdrive]; exact h.good
      unlisted := by rw [hlist]; exact h.savelist
      magic := by rw [hdrive]; exact h.magic
      version := by rw [hdrive]; exact h.version
      savelist := by rw [hdrive]; exact h.savelist }

theorem OffStep.off {m m' : Machine} (hstep : OffStep c m m') (h : Off c m.toWorld) :
    Off c m'.toWorld ∧ SameOn c m.drive.bytes m'.drive.bytes := by
  cases hstep with
  | command b args hexec hadd =>
    rw [exec_ops h.present h.good hexec Saved.none]
    exact h.run (h.ops hadd)
  | reboot hboot =>
    obtain ⟨hoff, hdrive, -⟩ := h.boot hboot
    rw [hdrive]
    exact ⟨hoff, .refl c _⟩

theorem OffStep.run {m m' : Machine} (hrun : Relation.ReflTransGen (OffStep c) m m') (h : Off c m.toWorld) :
    Off c m'.toWorld ∧ SameOn c m.drive.bytes m'.drive.bytes := by
  induction hrun with
  | refl => exact ⟨h, .refl c _⟩
  | tail _ hstep ih =>
    obtain ⟨hoff, hsame⟩ := hstep.off ih.1
    exact ⟨hoff, ih.2.trans hsame⟩

/-- What `savelist remove` writes. -/
theorem cmdSavelist_removed {args : Str} (h : cmdSavelist w args = (.removed c, w')) :
    w' = persistSavelistSet w (w.savelistFlags &&& ~~~c.bit) := by
  have heq := cmdSavelist_eq w args Saved.none
  rw [h] at heq
  exact heq

theorem Off.removed (hp : w.diskPresent = true) (hd : w.drive = Drive.good w.drive.bytes) (c : Category) :
    Off c (persistSavelistSet w (w.savelistFlags &&& ~~~c.bit)) := by
  obtain ⟨buf, heq⟩ := persistSavelistSet_good hp hd (w.savelistFlags &&& ~~~c.bit)
  have hzero : (w.savelistFlags &&& ~~~c.bit) &&& c.bit = 0 := by
    rw [UInt32.and_assoc, UInt32.not_and_self, UInt32.and_zero]
  have hhdr : diskHeader (relistedDisk w.drive.bytes (diskHeader w.drive.bytes)
      (w.savelistFlags &&& ~~~c.bit)) = .fresh (w.savelistFlags &&& ~~~c.bit)
        (diskHeader w.drive.bytes).keptFlags (diskHeader w.drive.bytes).keptCsum := diskHeader_put_header _ _
  rw [heq]
  refine { present := hp, good := rfl, unlisted := hzero, magic := ?_, version := ?_, savelist := ?_ }
  · simp only [good_bytes, hhdr]; rfl
  · simp only [good_bytes, hhdr]; rfl
  · simp only [good_bytes, hhdr]; exact hzero

/-- **A removed category is frozen.** On a good drive, take any history of commands and
reboots that ends in a `savelist remove` of the category, and any commands and reboots
after it that do not add it back. The sectors, the flag and the checksum of the category are
those from right after the removal, it is off the list in memory and on the disk, and what
was last saved of it before the removal is what a `load` or a reboot gives back. -/
theorem removed_frozen {m₁ m₂ : Machine} {args : Str} (h : History disk m₁ g)
    (hrem : cmdSavelist m₁.toWorld args = (.removed c, w))
    (hrun : Relation.ReflTransGen (OffStep c) { m₁ with toWorld := w } m₂) :
    SameOn c w.drive.bytes m₂.drive.bytes ∧
    m₂.savelistFlags &&& c.bit = 0 ∧ (diskHeader m₂.drive.bytes).savelist &&& c.bit = 0 ∧
    ∀ x, g.data c = some x → (cmdLoad m₂.toWorld).2.get c = x ∧
      ∃ m', Machine.boot (World.cleared m₂.drive) = some m' ∧ m'.get c = x := by
  have hheld := h.held
  obtain rfl := cmdSavelist_removed hrem
  obtain ⟨hoff, hsame⟩ := OffStep.run hrun (Off.removed hheld.present hheld.good c)
  refine ⟨hsame, hoff.unlisted, hoff.savelist, ?_⟩
  intro x hx
  -- the removal keeps the snapshot, and so does what follows
  have hafter := hheld.step (.savelistSet (m₁.savelistFlags &&& ~~~c.bit))
  rw [Saved.step, if_pos hheld.present] at hafter
  have hsnap := hsame.snapshot? hoff.magic (hafter.data c x hx)
  obtain ⟨w', hw', -, -, hload⟩ := shellBoot_disk (w := World.cleared m₂.drive) hoff.good
  refine ⟨loads_get hoff.present hoff.good hsnap, ⟨w', false, false, 0⟩, by simp [Machine.boot, hw'], ?_⟩
  exact (hload hoff.magic hoff.version).2 c x hsnap

/-- The aliases are removed, and `save` leaves them as they were saved. -/
theorem removed_frozen_save : ∃ fs m₁ w m₂, fsInit = some fs ∧
    Machine.boot (World.cleared (Drive.good (savedBoth .zero fs))) = some m₁ ∧
    cmdSavelist m₁.toWorld (str "remove aliases") = (.removed .aliases, w) ∧
    Builtin.save.exec { m₁ with toWorld := w } [] = .ok m₂ ∧
    SameOn .aliases w.drive.bytes m₂.drive.bytes ∧ (cmdLoad m₂.toWorld).2.aliases = .zero := by
  obtain ⟨fs, hfs, -⟩ := fsInit_wellFormed
  have hsync := synced_inSync .zero fs
  have hlist : (diskHeader (savedBoth .zero fs)).savelist = savelistAll :=
    congrArg Header.savelist (diskHeader_put_header _ _)
  obtain ⟨w₁, hw₁, -, -, hload⟩ := shellBoot_disk (w := World.cleared (Drive.good (savedBoth .zero fs))) rfl
  have hflags : w₁.savelistFlags = savelistAll := (hload hsync.magic hsync.version).1.trans hlist
  set m₁ : Machine := ⟨w₁, false, false, 0⟩
  have hboot : Machine.boot (World.cleared (Drive.good (savedBoth .zero fs))) = some m₁ := by
    simp [Machine.boot, hw₁, m₁]
  have hrem : cmdSavelist m₁.toWorld (str "remove aliases") =
      (.removed .aliases, persistSavelistSet m₁.toWorld (savelistAll &&& ~~~Category.aliases.bit)) := by
    have harg : ¬ (str "remove aliases" = [] ∨ str "sh" <+: str "remove aliases") ∧
        ¬ str "add" <+: str "remove aliases" ∧ str "rem" <+: str "remove aliases" ∧
        skipSpaces ((str "remove aliases").dropWhile (· ≠ sp)) = str "aliases" ∧ str "aliases" ≠ [] ∧
        savelistFind (str "aliases") = some .aliases := by decide
    obtain ⟨h₁, h₂, h₃, h₄, h₅, h₆⟩ := harg
    have hbit : ¬ savelistAll &&& Category.aliases.bit = 0 := by decide
    have hm : m₁.savelistFlags = savelistAll := hflags
    unfold cmdSavelist
    simp only [if_neg h₁, h₂, h₃, h₄, h₆, hm, if_neg h₅, if_neg hbit, false_or, if_true, if_false]
  set w := persistSavelistSet m₁.toWorld (savelistAll &&& ~~~Category.aliases.bit)
  have hstep : OffStep .aliases { m₁ with toWorld := w } { m₁ with toWorld := (cmdSave w).2 } :=
    .command .save [] rfl fun hadd => by cases hadd.1
  obtain ⟨hsame, -, -, hkept⟩ := removed_frozen (.start hboot) hrem (.single hstep)
  obtain ⟨hzero, -⟩ := hkept .zero (hsync.snapshot .aliases)
  refine ⟨fs, m₁, w, { m₁ with toWorld := (cmdSave w).2 }, hfs, hboot, hrem, ?_, hsame, hzero⟩
  rfl

end DahleOS
