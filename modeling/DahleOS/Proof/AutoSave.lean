import DahleOS.Proof.Boot

/-!
# Saving on every change

The commands that change memory save it, on all paths but two: `cd` without an argument
or to `/` returns before the save, and `mkdir` and `touch` return before it when the parent
has no room, after the node was allocated.

* `exec_fs_cases`: a filesystem command saves, changes nothing, or took one of these paths.
* `InSync.step`: away from them, the disk keeps up with memory.
* `auto_save_iff`: so a reboot restores memory after every step of a run that avoids them,
  and after no step that takes one.
-/

namespace DahleOS

open Codec CArray SectorDisk

/-! ## What a command leaves unsaved -/

/-- `mkdir` or `touch` of this name fails after it has allocated the node. -/
def HalfCreates (fs : Fs) (name : Str) : Prop :=
  name ≠ [] ∧ (∃ r, nodeFindChild fs fs.cwd name = some r ∧ ¬ 0 ≤ r) ∧ ¬ 64 ≤ fs.poolUsed ∧
    ∃ dir, fs.node fs.cwd = some dir ∧ 16 ≤ dir.childCount

/-- `cd` to the root by the short way, from elsewhere. -/
def LeavesForRoot (fs : Fs) (path : Str) : Prop := (path = [] ∨ path = [slash]) ∧ fs.cwd ≠ 0

/-- **The paths that change the pool without a save.** -/
def FsCmd.Unsaved (cmd : FsCmd) (fs : Fs) (args : Str) : Prop :=
  match cmd with
  | .mkdir | .touch => HalfCreates fs (firstToken args)
  | .cd => LeavesForRoot fs args
  | .rm | .ls | .cat | .pwd => False

theorem node_eq_some {fs : Fs} {i : Int32} {nd : FsNode} (h : fs.node i = some nd) :
    ∃ k : Fin 64, i.toInt = (k : ℕ) ∧ fs.pool k = nd := rd_eq_some h

theorem setNode_eq_some {fs fs' : Fs} {i : Int32} {nd : FsNode} (h : fs.setNode i nd = some fs') :
    ∃ k : Fin 64, i.toInt = (k : ℕ) ∧ fs' = { fs with pool := Function.update fs.pool k nd } := by
  obtain ⟨pool, hp, rfl⟩ := Option.map_eq_some_iff.1 h
  obtain ⟨k, hk, rfl⟩ := wr_eq_some hp
  exact ⟨k, hk, rfl⟩

/-- A node is allocated, or the pool is full. -/
theorem nodeAlloc_cases {fs fs' : Fs} {idx : Int32} (h : nodeAlloc fs = some (idx, fs')) :
    (64 ≤ fs.poolUsed ∧ idx = -1 ∧ fs' = fs) ∨ (¬ 64 ≤ fs.poolUsed ∧ ∃ k : Fin 64,
      idx.toInt = (k : ℕ) ∧ fs.poolUsed.toInt = (k : ℕ) ∧ fs' = { fs with
        pool := Function.update fs.pool k { FsNode.zero with parent := -1 }
        poolUsed := fs.poolUsed + 1 }) := by
  unfold nodeAlloc at h
  by_cases hu : 64 ≤ fs.poolUsed
  · rw [if_pos hu] at h
    cases h
    exact Or.inl ⟨hu, rfl, rfl⟩
  · rw [if_neg hu] at h
    obtain ⟨fs₁, hset, h⟩ := Option.bind_eq_some_iff.1 h
    obtain ⟨k, hk, rfl⟩ := setNode_eq_some hset
    cases h
    exact Or.inr ⟨hu, k, hk, hk, rfl⟩

/-- A child is added, or the list is full. -/
theorem nodeAddChild_cases {fs fs' : Fs} {parent child r : Int32}
    (h : nodeAddChild fs parent child = some (r, fs')) :
    r = 0 ∨ r = -1 ∧ fs' = fs ∧ ∃ dir, fs.node parent = some dir ∧ 16 ≤ dir.childCount := by
  unfold nodeAddChild at h
  obtain ⟨p, hp, h⟩ := Option.bind_eq_some_iff.1 h
  by_cases hc : 16 ≤ p.childCount
  · rw [if_pos hc] at h
    cases h
    exact Or.inr ⟨rfl, rfl, p, hp, hc⟩
  · rw [if_neg hc] at h
    obtain ⟨children, -, h⟩ := Option.bind_eq_some_iff.1 h
    obtain ⟨fs₁, -, h⟩ := Option.bind_eq_some_iff.1 h
    obtain ⟨c, -, h⟩ := Option.bind_eq_some_iff.1 h
    obtain ⟨fs₂, -, h⟩ := Option.bind_eq_some_iff.1 h
    cases h
    exact Or.inl rfl

/-- An entry is created, nothing changes, or one node more is in use. -/
theorem fsCreate_cases {cmd : FsCmd} {type : UInt32} {taken : Option FsMsg} {fs : Fs} {name : Str}
    {r : FsResult} (h : fsCreate cmd type taken fs name = some r) :
    (r.save = true ∧ r.msg = none) ∨ (r.fs = fs ∧ ¬ HalfCreates fs name) ∨
      (HalfCreates fs name ∧ r.fs.poolUsed.toInt = fs.poolUsed.toInt + 1) := by
  unfold fsCreate at h
  by_cases hn : name = []
  · rw [if_pos hn] at h
    cases h
    exact Or.inr (Or.inl ⟨rfl, fun hh => hh.1 hn⟩)
  rw [if_neg hn, Option.bind_eq_bind, Option.bind_eq_some_iff] at h
  obtain ⟨found, hfound, h⟩ := h
  by_cases hf : 0 ≤ found
  · rw [if_pos hf] at h
    cases h
    refine Or.inr (Or.inl ⟨rfl, ?_⟩)
    intro hh
    obtain ⟨-, ⟨i, hi, hneg⟩, -⟩ := hh
    rw [hfound, Option.some.injEq] at hi
    exact hneg (hi ▸ hf)
  rw [if_neg hf, Option.bind_eq_bind, Option.bind_eq_some_iff] at h
  obtain ⟨⟨idx, fs₁⟩, halloc, h⟩ := h
  rcases nodeAlloc_cases halloc with ⟨hu, hidx, hfs⟩ | ⟨hu, k, hk, hused, hfs⟩
  · -- the pool is full
    simp only [hidx, if_pos minus_one_neg] at h
    cases h
    exact Or.inr (Or.inl ⟨hfs, fun hh => hh.2.2.1 hu⟩)
  have hidx : ¬ idx < 0 := by
    have h0 : (0 : Int32).toInt = 0 := rfl
    rw [Int32.lt_iff_toInt_lt, h0]
    omega
  simp only [if_neg hidx, Option.bind_eq_bind, Option.bind_eq_some_iff] at h
  obtain ⟨nd, hnd, fs₂, hset, ⟨r₀, fs₃⟩, hadd, h⟩ := h
  -- the node that is named is the one that was allocated
  obtain ⟨j, hj, hpool⟩ := node_eq_some hnd
  obtain ⟨j', hj', hfs₂⟩ := setNode_eq_some hset
  obtain rfl : j = k := Fin.ext (by omega)
  obtain rfl : j' = j := Fin.ext (by omega)
  rcases nodeAddChild_cases hadd with hr | ⟨hr, hfs₃, dir, hdir, hfull⟩
  · simp only [hr, if_neg (show ¬ (0 : Int32) < 0 by decide)] at h
    cases h
    exact Or.inl ⟨rfl, rfl⟩
  · simp only [hr, if_pos minus_one_neg] at h
    cases h
    subst hfs₃ hfs₂ hfs
    obtain ⟨d, hd, rfl⟩ := node_eq_some hdir
    -- the new node has no children, so the full list is an old one
    have hne : d ≠ j' := by
      rintro rfl
      simp only [Function.update_self] at hpool hfull
      rw [← hpool] at hfull
      exact absurd hfull (by decide)
    simp only [Function.update_of_ne hne] at hfull
    have hcwd : fs.cwd = ix d := ix_of_toInt hd
    refine Or.inr (Or.inr ⟨⟨hn, ⟨found, hfound, hf⟩, hu, fs.pool d, by rw [hcwd, node_ix], hfull⟩, ?_⟩)
    exact toInt_add_one (i := fs.poolUsed) (by omega) (by omega)

theorem fsCmdRm_cases {fs : Fs} {name : Str} {r : FsResult} (h : fsCmdRm fs name = some r) :
    (r.save = true ∧ r.msg = none) ∨ r.fs = fs := by
  unfold fsCmdRm at h
  split at h
  · cases h
    exact Or.inr rfl
  obtain ⟨child, -, h⟩ := Option.bind_eq_some_iff.1 h
  split at h
  · cases h
    exact Or.inr rfl
  obtain ⟨nd, -, h⟩ := Option.bind_eq_some_iff.1 h
  split at h
  · cases h
    exact Or.inr rfl
  obtain ⟨dir, -, h⟩ := Option.bind_eq_some_iff.1 h
  obtain ⟨dir', -, h⟩ := Option.bind_eq_some_iff.1 h
  obtain ⟨fs₁, -, h⟩ := Option.bind_eq_some_iff.1 h
  obtain ⟨nd', -, h⟩ := Option.bind_eq_some_iff.1 h
  obtain ⟨fs₂, -, h⟩ := Option.bind_eq_some_iff.1 h
  cases h
  exact Or.inl ⟨rfl, rfl⟩

theorem fsCmdCd_cases {fs : Fs} {path : Str} {r : FsResult} (h : fsCmdCd fs path = some r) :
    (r.save = true ∧ r.msg = none) ∨ r.fs = fs ∨ (LeavesForRoot fs path ∧ r.msg = none) := by
  have hroot (hp : path = [] ∨ path = [slash]) : { fs with cwd := 0 } = fs ∨ LeavesForRoot fs path := by
    by_cases hc : fs.cwd = 0
    · exact Or.inl (by rw [← hc])
    · exact Or.inr ⟨hp, hc⟩
  cases path with
  | nil =>
    cases h
    exact Or.inr ((hroot (Or.inl rfl)).imp_right fun h => ⟨h, rfl⟩)
  | cons ch tail =>
    rw [fsCmdCd] at h
    by_cases hs : ch = slash ∧ tail = []
    · rw [if_pos hs] at h
      cases h
      exact Or.inr ((hroot (Or.inr (by rw [hs.1, hs.2]))).imp_right fun h => ⟨h, rfl⟩)
    · rw [if_neg hs] at h
      obtain ⟨res, -, h⟩ := Option.bind_eq_some_iff.1 h
      cases res with
      | error msg =>
        cases h
        exact Or.inr (Or.inl rfl)
      | ok cur =>
        cases h
        exact Or.inl ⟨rfl, rfl⟩

theorem fsCmdCat_cases {fs : Fs} {name : Str} {r : FsResult} (h : fsCmdCat fs name = some r) : r.fs = fs := by
  unfold fsCmdCat at h
  split at h
  · cases h; rfl
  obtain ⟨child, -, h⟩ := Option.bind_eq_some_iff.1 h
  split at h
  · cases h; rfl
  obtain ⟨nd, -, h⟩ := Option.bind_eq_some_iff.1 h
  split at h
  · cases h; rfl
  split at h
  · cases h; rfl
  obtain ⟨s, -, h⟩ := Option.bind_eq_some_iff.1 h
  cases h; rfl

theorem fsCmdLs_cases {fs : Fs} {r : FsResult} (h : fsCmdLs fs = some r) : r.fs = fs := by
  unfold fsCmdLs at h
  obtain ⟨dir, -, h⟩ := Option.bind_eq_some_iff.1 h
  split at h
  · cases h; rfl
  obtain ⟨entries, -, h⟩ := Option.bind_eq_some_iff.1 h
  cases h; rfl

theorem fsCmdPwd_cases {fs : Fs} {r : FsResult} (h : fsCmdPwd fs = some r) : r.fs = fs := by
  obtain ⟨p, -, h⟩ := Option.bind_eq_some_iff.1 h
  cases h; rfl

/-- **A filesystem command** saves, changes nothing, or takes an unsaved path. -/
theorem exec_fs_cases {cmd : FsCmd} {fs : Fs} {args : Str} {r : FsResult} (h : cmd.exec fs args = some r) :
    r.save = true ∨ r.fs = fs ∨ cmd.Unsaved fs args := by
  cases cmd with
  | mkdir => exact (fsCreate_cases h).imp And.left (Or.imp And.left And.left)
  | touch => exact (fsCreate_cases h).imp And.left (Or.imp And.left And.left)
  | rm => exact (fsCmdRm_cases h).imp And.left Or.inl
  | cd => exact (fsCmdCd_cases h).imp And.left (Or.imp_right And.left)
  | ls => exact Or.inr (Or.inl (fsCmdLs_cases h))
  | cat => exact Or.inr (Or.inl (fsCmdCat_cases h))
  | pwd => exact Or.inr (Or.inl (fsCmdPwd_cases h))

/-! ## The disk keeps up -/

/-- The commands whose changes are saved. -/
inductive UserCmd
  | fs (cmd : FsCmd)
  | aliasCmd

def UserCmd.exec (w : World) (args : Str) : UserCmd → Option World
  | fs cmd => (cmdFs cmd w args).map Prod.snd
  | aliasCmd => (cmdAlias w args).map Prod.snd

def UserCmd.Unsaved (w : World) (args : Str) : UserCmd → Prop
  | fs cmd => cmd.Unsaved w.fs args
  | aliasCmd => False

/-- **The disk holds what memory holds**, both categories are in the save list, and the
drive is good. -/
structure InSync (w : World) : Prop where
  present : w.diskPresent = true
  good : w.drive = Drive.good w.drive.bytes
  listed : ∀ c : Category, w.savelistFlags &&& c.bit ≠ 0
  magic : (diskHeader w.drive.bytes).magic = persistMagic
  version : (diskHeader w.drive.bytes).version = persistVersion
  snapshot : ∀ c, snapshot? w.drive.bytes c = some (w.get c)

/-- The shell, started now, would have the aliases and the pool that are in memory. -/
def Restored (w : World) : Prop :=
  ∃ w', shellBoot (World.cleared w.drive) = some w' ∧ w'.aliases = w.aliases ∧ w'.fs = w.fs

variable {w w' : World}

/-- What is restored is what was in sync. -/
theorem InSync.restored_iff (h : InSync w) (hd : w'.drive = w.drive) :
    Restored w' ↔ w'.aliases = w.aliases ∧ w'.fs = w.fs := by
  obtain ⟨b, hb, hfs, ha⟩ :=
    shellBoot_good (w := World.cleared w.drive) h.good h.magic h.version (h.snapshot .fs)
  have ha := ha _ (h.snapshot .aliases)
  unfold Restored
  rw [hd]
  constructor
  · rintro ⟨b', hb', ha', hfs'⟩
    obtain rfl : b' = b := Option.some.inj (hb'.symm.trans hb)
    exact ⟨ha'.symm.trans ha, hfs'.symm.trans hfs⟩
  · rintro ⟨ha', hfs'⟩
    have ha₂ : b.aliases = w'.aliases := by rw [ha, ha']; rfl
    have hfs₂ : b.fs = w'.fs := by rw [hfs, hfs']; rfl
    exact ⟨b, hb, ha₂, hfs₂⟩

theorem InSync.fs_of_restored (h : InSync w) (hres : Restored w') (hd : w'.drive = w.drive) : w'.fs = w.fs :=
  ((h.restored_iff hd).1 hres).2

theorem InSync.restored (h : InSync w) : Restored w := (h.restored_iff rfl).2 ⟨rfl, rfl⟩

/-- A change of one category that is saved. -/
theorem InSync.save (h : InSync w) (c : Category) (x : c.Data) : InSync (persistSave c (w.set c x)).2 := by
  have hsaves : (w.set c x).Saves c := ⟨by rw [World.set_diskPresent]; exact h.present,
    by rw [World.set_savelistFlags]; exact h.listed c⟩
  have hgood : (w.set c x).drive = Drive.good w.drive.bytes := by rw [World.set_drive]; exact h.good
  have hhdr : diskHeader (savedDisk w.drive.bytes (diskHeader w.drive.bytes) (w.set c x).savelistFlags c
      ((w.set c x).get c)) = (diskHeader w.drive.bytes).saved (w.set c x).savelistFlags c
        (checksum (c.image ((w.set c x).get c))) := diskHeader_put_header _ _
  have hget := persistSave_get c (w := w.set c x)
  rw [persistSave_good hsaves hgood] at hget ⊢
  have hlist : ({ w.set c x with drive := _, saveHdr := _ } : World).savelistFlags = w.savelistFlags :=
    World.set_savelistFlags w c x
  refine
    { present := hsaves.1, good := rfl, listed := fun c' => ?_, magic := ?_, version := ?_
      snapshot := fun c' => ?_ }
  · rw [hlist]; exact h.listed c'
  · simp only [good_bytes, hhdr]; rfl
  · simp only [good_bytes, hhdr]; rfl
  · rw [hget c']
    by_cases hc : c' = c
    · subst hc
      exact snapshot?_savedDisk_self _ _ _ _ _
    · rw [World.get_set_other hc]
      have hold := h.snapshot c'
      exact (snapshot?_savedDisk_other hc hold _ _ _).2 (snapshot?_eq_some.1 hold).1

/-- **One command** that takes no unsaved path keeps the disk in step. -/
theorem InSync.step (h : InSync w) {cmd : UserCmd} {args : Str} (hexec : cmd.exec w args = some w')
    (hu : ¬ cmd.Unsaved w args) : InSync w' := by
  cases cmd with
  | fs cmd =>
    obtain ⟨⟨msg, w₁⟩, hcmd, rfl⟩ := Option.map_eq_some_iff.1 hexec
    obtain ⟨r, hr, hrest⟩ := Option.bind_eq_some_iff.1 hcmd
    cases hrest
    -- saved, unchanged, or an unsaved path
    rcases exec_fs_cases hr with hs | hsame | hun
    · simp only [hs, if_true]
      exact h.save .fs r.fs
    · simp only [hsame]
      split_ifs
      · -- a `cd` that stays saves all the same
        exact h.save .fs w.fs
      · exact h
    · exact absurd hun hu
  | aliasCmd =>
    obtain ⟨⟨msg, w₁⟩, hcmd, rfl⟩ := Option.map_eq_some_iff.1 hexec
    unfold cmdAlias at hcmd
    split at hcmd
    · split at hcmd
      · cases hcmd; exact h
      · obtain ⟨entries, -, hrest⟩ := Option.bind_eq_some_iff.1 hcmd
        cases hrest; exact h
    · obtain ⟨⟨msg', changed⟩, -, hrest⟩ := Option.bind_eq_some_iff.1 hcmd
      cases changed with
      | none => cases hrest; exact h
      | some aliases => cases hrest; exact h.save .aliases aliases

/-! ## The unsaved paths -/

/-- A half-created node is counted, and not saved. -/
theorem fsCreate_unsaved {fs : Fs} (h : fs.WellFormed) {cmd : FsCmd} {type : UInt32} {taken : Option FsMsg}
    {name : Str} (hu : HalfCreates fs name) :
    ∃ r, fsCreate cmd type taken fs name = some r ∧ r.save = false ∧ r.fs ≠ fs := by
  obtain ⟨hn, ⟨found, hfound, hf⟩, hused, dir, hdir, hfull⟩ := hu
  obtain ⟨d, hd, hr, -⟩ := h.cwd
  have hda := h.reach_used hr
  have hnone : fs.childNamed d name = none := by
    rw [hd, nodeFindChild_eq h hda, Option.some.injEq] at hfound
    cases hc : fs.childNamed d name with
    | none => rfl
    | some k =>
      rw [hc] at hfound
      exact absurd (hfound ▸ ix_nonneg k) hf
  have hlt : fs.used < 64 := by
    rw [le_iff_64] at hused
    have := h.poolUsed
    omega
  have hlen : ¬ (fs.kids d).length < 16 := by
    rw [hd, node_ix, Option.some.injEq] at hdir
    rw [← hdir, le_iff_16, h.childCount hda] at hfull
    omega
  refine ⟨_, fsCreate_eq h hd hda cmd type taken name, ?_⟩
  rw [if_neg hn, hnone, if_neg (by simp), dif_pos hlt, if_neg hlen]
  -- one node more is in use
  refine ⟨rfl, ?_⟩
  intro heq
  have := congrArg Fs.used heq
  rw [used_alloc h hlt] at this
  omega

/-- **An unsaved path** changes the pool and leaves the disk alone. -/
theorem exec_unsaved {cmd : FsCmd} {fs : Fs} {args : Str} (h : fs.WellFormed) (hu : cmd.Unsaved fs args) :
    ∃ r, cmd.exec fs args = some r ∧ r.save = false ∧ r.fs ≠ fs := by
  cases cmd with
  | mkdir => exact fsCreate_unsaved h hu
  | touch => exact fsCreate_unsaved h hu
  | cd =>
    obtain ⟨hp, hcwd⟩ := hu
    have hne : { fs with cwd := 0 } ≠ fs := fun heq => hcwd (congrArg Fs.cwd heq).symm
    rcases hp with rfl | rfl
    · exact ⟨_, rfl, rfl, hne⟩
    · exact ⟨⟨{ fs with cwd := 0 }, none, false⟩, by simp [FsCmd.exec, fsCmdCd], rfl, hne⟩
  | rm => exact absurd hu id
  | ls => exact absurd hu id
  | cat => exact absurd hu id
  | pwd => exact absurd hu id

/-- Some command that takes no unsaved path leads from one state to the other. -/
def SavedStep (w w' : World) : Prop :=
  ∃ (cmd : UserCmd) (args : Str), cmd.exec w args = some w' ∧ ¬ cmd.Unsaved w args

/-- **When a reboot restores memory**: from a state that the disk is in step with, in every
state that a run without unsaved paths reaches; and after a single command exactly if it
takes no such path. -/
theorem auto_save_iff (h : InSync w) :
    (∀ w', Relation.ReflTransGen SavedStep w w' → Restored w') ∧
    (w.fs.WellFormed → ∀ (cmd : UserCmd) (args : Str) w', cmd.exec w args = some w' →
      (Restored w' ↔ ¬ cmd.Unsaved w args)) := by
  refine ⟨fun w' hrun => InSync.restored ?_, ?_⟩
  · induction hrun with
    | refl => exact h
    | tail _ hstep ih =>
      obtain ⟨cmd, args, hexec, hu⟩ := hstep
      exact ih.step hexec hu
  · intro hfs cmd args w' hexec
    refine ⟨?_, fun hu => (h.step hexec hu).restored⟩
    intro hres hu
    cases cmd with
    | fs cmd =>
      obtain ⟨r, hr, hs, hne⟩ := exec_unsaved hfs hu
      -- the drive is as it was, and what it restores is the pool before the command
      have hw' : w' = { w with fs := r.fs } := by
        simpa [UserCmd.exec, cmdFs, hr, hs] using hexec.symm
      subst hw'
      exact hne (h.fs_of_restored hres rfl)
    | aliasCmd => exact hu

/-! ## A machine in step -/

/-- A disk to which the aliases and then the pool were saved. -/
def savedBoth (t : AliasTable) (fs : Fs) : ℕ → UInt8 :=
  let disk := savedDisk (fun _ => 0) (.fresh 0 0 fun _ => 0) savelistAll .aliases t
  savedDisk disk (diskHeader disk) savelistAll .fs fs

/-- A machine on that disk. -/
def synced (t : AliasTable) (fs : Fs) : World :=
  { World.cleared (Drive.good (savedBoth t fs)) with aliases := t, fs, diskPresent := true }

theorem synced_inSync (t : AliasTable) (fs : Fs) : InSync (synced t fs) := by
  have hhdr : ∃ src, diskHeader (savedBoth t fs) =
      Header.saved src savelistAll .fs (checksum (Category.fs.image fs)) := ⟨_, diskHeader_put_header _ _⟩
  obtain ⟨src, hhdr⟩ := hhdr
  refine
    { present := rfl, good := rfl, listed := fun c => ?_, magic := ?_, version := ?_
      snapshot := fun c => ?_ }
  · show savelistAll &&& c.bit ≠ 0
    cases c <;> decide
  · exact (congrArg Header.magic hhdr).trans rfl
  · exact (congrArg Header.version hhdr).trans rfl
  · cases c with
    | aliases =>
      have hold := snapshot?_savedDisk_self (fun _ => 0) (.fresh 0 0 fun _ => 0) savelistAll .aliases t
      exact (snapshot?_savedDisk_other (by decide) hold _ _ _).2 (snapshot?_eq_some.1 hold).1
    | fs => exact snapshot?_savedDisk_self _ _ _ _ _

/-- The start of the shell on that disk. -/
theorem boot_savedBoth (t : AliasTable) (fs : Fs) :
    ∃ w, shellBoot (World.cleared (Drive.good (savedBoth t fs))) = some w ∧ InSync w ∧ w.aliases = t ∧ w.fs = fs := by
  have hsync := synced_inSync t fs
  have hlist : (diskHeader (savedBoth t fs)).savelist = savelistAll :=
    congrArg Header.savelist (diskHeader_put_header _ _)
  obtain ⟨w, hw, hp, hd, hload⟩ := shellBoot_disk (w := World.cleared (Drive.good (savedBoth t fs))) rfl
  obtain ⟨hflags, hget⟩ := hload hsync.magic hsync.version
  have haliases : w.aliases = t := hget .aliases t (hsync.snapshot .aliases)
  have hfs : w.fs = fs := hget .fs fs (hsync.snapshot .fs)
  refine ⟨w, hw, ?_, haliases, hfs⟩
  refine
    { present := hp, good := by rw [hd]; rfl, listed := fun c => ?_, magic := ?_, version := ?_
      snapshot := fun c => ?_ }
  · rw [hflags, hlist]
    cases c <;> decide
  · rw [hd]; exact hsync.magic
  · rw [hd]; exact hsync.version
  · rw [hd]
    cases c with
    | aliases => exact (hsync.snapshot .aliases).trans (congrArg some haliases.symm)
    | fs => exact (hsync.snapshot .fs).trans (congrArg some hfs.symm)

/-- `cd home`, after the default tree was saved. -/
theorem cd_home : ∃ fs w₁, fsInit = some fs ∧ fs.WellFormed ∧
    (UserCmd.fs .cd).exec (synced .zero fs) (str "home") = some w₁ ∧
    ¬ (UserCmd.fs .cd).Unsaved (synced .zero fs) (str "home") ∧ w₁.fs.cwd = 1 ∧ w₁.aliases = .zero := by
  obtain ⟨fs, hfs, hw⟩ := fsInit_wellFormed
  have hcd : (fsInit.bind fun fs => fsCmdCd fs (str "home")).any (fun r => r.fs.cwd = 1) = true := by
    decide +kernel
  obtain ⟨r, hr, hone⟩ := (Option.any_eq_true _ _).1 hcd
  rw [hfs] at hr
  have hexec : FsCmd.exec .cd (synced .zero fs).fs (str "home") = some r := hr
  set w₁ : World := if r.save then (persistSaveFs { synced .zero fs with fs := r.fs }).2
    else { synced .zero fs with fs := r.fs }
  have hget (c : Category) : w₁.get c = World.get { synced .zero fs with fs := r.fs } c := by
    simp only [w₁]
    split_ifs
    · exact persistSave_get .fs c _
    · rfl
  have hhome : str "home" ≠ [] ∧ str "home" ≠ [slash] := by decide
  refine ⟨fs, w₁, hfs, hw, by simp [UserCmd.exec, cmdFs_eq hexec, w₁], ?_, ?_, hget .aliases⟩
  · exact fun hu => hu.1.elim hhome.1 hhome.2
  · exact (congrArg Fs.cwd (hget .fs)).trans (of_decide_eq_true hone)

/-- `cd home` and then a new alias are both there after a reboot. -/
theorem auto_save_home : ∃ fs w₁ w₂, fsInit = some fs ∧
    (UserCmd.fs .cd).exec (synced .zero fs) (str "home") = some w₁ ∧ UserCmd.aliasCmd.exec w₁ (str "ll ls") = some w₂ ∧
    w₁.fs.cwd = 1 ∧ Restored w₁ ∧ w₂.fs.cwd = 1 ∧ w₂.aliases.count = 1 ∧ Restored w₂ := by
  obtain ⟨fs, w₁, hfs, hw, hcd, hu, hcwd, hzero⟩ := cd_home
  have hset : (aliasSet .zero (str "ll ls")).any (fun r => r.2.any (·.count = 1)) = true := by decide +kernel
  obtain ⟨⟨msg, changed⟩, hr, hcount⟩ := (Option.any_eq_true _ _).1 hset
  obtain ⟨t, rfl, ht⟩ := (Option.any_eq_true _ _).1 hcount
  have halias : UserCmd.aliasCmd.exec w₁ (str "ll ls") = some (persistSaveAliases { w₁ with aliases := t }).2 := by
    have hne : str "ll ls" ≠ [] := by decide
    simp [UserCmd.exec, cmdAlias, hne, hzero, hr]
  have hget (c : Category) := persistSave_get .aliases c { w₁ with aliases := t }
  obtain ⟨hrun, hone⟩ := auto_save_iff (synced_inSync .zero fs)
  refine ⟨fs, w₁, _, hfs, hcd, halias, hcwd, (hone hw _ _ _ hcd).2 hu, ?_, ?_, ?_⟩
  · exact (congrArg Fs.cwd (hget .fs)).trans hcwd
  · exact (congrArg AliasTable.count (hget .aliases)).trans (of_decide_eq_true ht)
  · exact hrun _ (.tail (.single ⟨_, _, hcd, hu⟩) ⟨_, _, halias, id⟩)

/-- **A bare `cd` from `/home` is lost**: after `cd home` and `cd`, a reboot is in `/home`. -/
theorem cd_lost : ∃ fs w₁ w₂, fsInit = some fs ∧ InSync (synced .zero fs) ∧
    (UserCmd.fs .cd).exec (synced .zero fs) (str "home") = some w₁ ∧
    (UserCmd.fs .cd).exec w₁ [] = some w₂ ∧ ¬ Restored w₂ := by
  obtain ⟨fs, w₁, hfs, -, hcd, hu, hone, -⟩ := cd_home
  have hsync := synced_inSync .zero fs
  have hstep := hsync.step hcd hu
  have hcwd : w₁.fs.cwd ≠ 0 := by
    rw [hone]
    decide
  refine ⟨fs, w₁, { w₁ with fs := { w₁.fs with cwd := 0 } }, hfs, hsync, hcd, rfl, ?_⟩
  intro hres
  exact hcwd (congrArg Fs.cwd (hstep.fs_of_restored hres rfl)).symm

end DahleOS
