import DahleOS.Proof.FsInvariant

/-!
# Every command keeps the pool a tree

* `cdWalk_spec`: the walk of `cd` stays among the reachable directories.
* `exec_wellFormed`: one command, with any arguments, stays inside its arrays and
  leaves the pool well formed.
* `run_wellFormed`: so does every sequence of commands after `fs_init`.
-/

namespace DahleOS

open CArray Forest

variable {fs : Fs} {d k : Fin 64}

/-! ## Creating and removing -/

/-- A new node takes no place in a directory. -/
theorem room_alloc (h : fs.WellFormed) (hu : fs.used < 64) (hl : (fs.kids d).length < 16) (type : UInt32) (name : Str) :
    ((fs.alloc ⟨fs.used, hu⟩ type name).kids d).length < 16 := by
  rw [kids_alloc h hu type name]
  exact hl

section Create

variable (h : fs.WellFormed) (hda : d.val < fs.used) (hu : fs.used < 64)
  (hl : (fs.kids d).length < 16) (type : UInt32) (name : Str)
include h hda hl

theorem kids_create :
    ((fs.alloc ⟨fs.used, hu⟩ type name).adopt d ⟨fs.used, hu⟩).kids = link fs.kids d ⟨fs.used, hu⟩ := by
  have hused := used_alloc h hu type name
  have hkids := kids_alloc h hu type name
  have hlt : d < ⟨fs.used, hu⟩ := hda
  have hroom := room_alloc h hu hl type name
  rw [kids_adopt (h.alloc hu type name) (by omega) hlt hroom, hkids]

/-- **A fresh node at the end of a directory's list** leaves the pool well formed. -/
theorem Fs.WellFormed.create (hdir : (fs.pool d).type = fsDir) :
    ((fs.alloc ⟨fs.used, hu⟩ type name).adopt d ⟨fs.used, hu⟩).WellFormed := by
  have hused := used_alloc h hu type name
  have hkids := kids_alloc h hu type name
  have hlt : d < ⟨fs.used, hu⟩ := hda
  have hroom := room_alloc h hu hl type name
  have hdir' : ((fs.alloc ⟨fs.used, hu⟩ type name).pool d).type = fsDir := by
    rw [pool_alloc_of_lt hu type name hda]; exact hdir
  -- the listed nodes are older than the new one
  have hfresh : ∀ e, (⟨fs.used, hu⟩ : Fin 64) ∉ (fs.alloc ⟨fs.used, hu⟩ type name).kids e := by
    intro e he
    rw [hkids] at he
    simpa using (h.of_mem_kids he).2.1
  exact (h.alloc hu type name).adopt (by omega) (by simp [hused]) hlt hroom hdir' hfresh

end Create

/-- Another current directory. -/
theorem Fs.WellFormed.setCwd (h : fs.WellFormed) (hr : Reach fs.kids 0 k) (ht : (fs.pool k).type = fsDir) :
    { fs with cwd := ix k }.WellFormed :=
  ⟨h.used, h.rootDir, h.rootParent, h.count, h.fileCount, h.entry, h.once, h.named, h.text, k, rfl, hr, ht⟩

/-! ## Walking -/

/-- `..` stays among the reachable directories. -/
theorem parent_step (h : fs.WellFormed) (hr : Reach fs.kids 0 d) :
    (d = 0 ∧ (fs.pool d).parent = -1) ∨
      ∃ e, (fs.pool d).parent = ix e ∧ Reach fs.kids 0 e ∧ (fs.pool e).type = fsDir := by
  by_cases h0 : d = 0
  · subst h0; exact Or.inl ⟨rfl, h.rootParent⟩
  · obtain ⟨e, -, he, hm⟩ := h.owned.parent hr h0
    exact Or.inr ⟨e, (h.of_mem_kids hm).2.2, he, h.owner_dir hm⟩

/-- **The walk of `cd`** from a reachable directory ends in one, or in an error. -/
theorem cdWalk_spec (h : fs.WellFormed) : ∀ (rounds : ℕ) (path : Str) (d : Fin 64),
    Reach fs.kids 0 d → (fs.pool d).type = fsDir →
      ∃ r, cdWalk fs rounds (ix d) path = some r ∧
        ∀ cur, r = .ok cur → ∃ k, cur = ix k ∧ Reach fs.kids 0 k ∧ (fs.pool k).type = fsDir := by
  intro rounds
  induction rounds with
  | zero =>
    intro path d hr ht
    exact ⟨.ok (ix d), rfl, fun cur hc => ⟨d, by cases hc; rfl, hr, ht⟩⟩
  | succ rounds ih =>
    intro path d hr ht
    cases path with
    | nil => exact ⟨.ok (ix d), rfl, fun cur hc => ⟨d, by cases hc; rfl, hr, ht⟩⟩
    | cons ch path =>
      simp only [cdWalk]
      generalize nextComponent (ch :: path) = c
      obtain ⟨component, rest⟩ := c
      dsimp only
      -- an empty component and `.` stay
      split
      · exact ih rest d hr ht
      split
      · exact ih rest d hr ht
      split
      · -- `..`
        simp only [node_ix, Option.bind_eq_bind, Option.bind_some]
        rcases parent_step h hr with ⟨-, hp⟩ | ⟨e, hp, he, hte⟩
        · -- the root
          rw [hp, if_neg (by decide)]; exact ih rest d hr ht
        · rw [hp, if_pos (ix_nonneg e)]; exact ih rest e he hte
      · -- a name
        simp only [nodeFindChild_eq h (h.reach_used hr), Option.bind_eq_bind, Option.bind_some]
        cases hf : fs.childNamed d component with
        | none => exact ⟨_, if_pos (by decide), fun cur hc => by cases hc⟩
        | some k =>
          have hk := (childNamed_some hf).1
          simp only [not_ix_neg, if_false, node_ix, Option.bind_some]
          split
          · exact ⟨_, rfl, fun cur hc => by cases hc⟩
          · rename_i hne
            exact ih rest k (hr.tail hk) (not_not.1 hne)

theorem lsFrom_eq (h : fs.WellFormed) (hd : d.val < fs.used) : ∀ todo i, i + todo = (fs.kids d).length →
    lsFrom fs (fs.pool d) i todo =
      some (((fs.kids d).drop i).map fun k => (fs.nameOf k, decide ((fs.pool k).type = fsDir))) := by
  have h16 := h.kids_length_le d
  have hcnt := h.childCount hd
  intro todo
  induction todo with
  | zero =>
    intro i hi
    rw [List.drop_eq_nil_iff.2 (by omega)]; rfl
  | succ todo ih =>
    intro i hi
    have hil : i < (fs.kids d).length := by omega
    have hget : (slots (fs.pool d).children (fs.pool d).childCount.toInt.toNat)[i]? =
        some (ix (fs.kids d)[i]) := by
      rw [h.slots hd, List.getElem?_map, List.getElem?_eq_getElem hil]; rfl
    rw [getElem?_slots _ (by omega) (by omega)] at hget
    have hk := (h.of_mem_kids (List.getElem_mem hil)).2.1
    rw [List.drop_eq_getElem_cons hil]
    simp only [lsFrom, rd_nat _ (show i < 16 by omega), hget, Option.bind_eq_bind, Option.bind_some,
      node_ix, h.cstr_name hk, ih (i + 1) (by omega), List.map_cons]
    rfl

theorem pwdWalk_spec (h : fs.WellFormed) : ∀ (room : ℕ) (d : Fin 64), Reach fs.kids 0 d →
    ∃ stack, pwdWalk fs room (ix d) = some stack ∧ ∀ i ∈ stack, ∃ k : Fin 64, i = ix k ∧ k.val < fs.used := by
  intro room
  induction room with
  | zero => intro d _; exact ⟨[], rfl, by simp⟩
  | succ room ih =>
    intro d hr
    by_cases h0 : d = 0
    · subst h0
      exact ⟨[], by simp [pwdWalk], by simp⟩
    · have hne : ix d ≠ 0 := fun he => h0 (ix_inj.1 (he.trans ix_zero.symm))
      rcases parent_step h hr with ⟨hd, -⟩ | ⟨e, hp, he, -⟩
      · exact absurd hd h0
      · -- one up, with one entry less on the stack
        obtain ⟨stack, hs, hin⟩ := ih e he
        refine ⟨ix d :: stack, by simp [pwdWalk, hne, hp, hs], ?_⟩
        intro i hi
        rcases List.mem_cons.1 hi with rfl | hi
        · exact ⟨d, rfl, h.reach_used hr⟩
        · exact hin i hi

theorem pwdPush_spec (h : fs.WellFormed) : ∀ (stack : List Int32) (path : Str),
    (∀ i ∈ stack, ∃ k : Fin 64, i = ix k ∧ k.val < fs.used) → ∃ p, stack.foldlM (pwdPush fs) path = some p := by
  intro stack
  induction stack with
  | nil => intro path _; exact ⟨path, rfl⟩
  | cons i stack ih =>
    intro path hin
    obtain ⟨k, rfl, hk⟩ := hin i List.mem_cons_self
    simp only [List.foldlM_cons, pwdPush, node_ix, h.cstr_name hk, Option.bind_eq_bind, Option.bind_some]
    exact ih _ fun j hj => hin j (List.mem_cons_of_mem _ hj)

/-! ## One command -/

theorem fsCreate_wellFormed (h : fs.WellFormed) (cmd : FsCmd) (type : UInt32) (taken : Option FsMsg)
    (name : Str) : ∃ r, fsCreate cmd type taken fs name = some r ∧ r.fs.WellFormed := by
  obtain ⟨d, hd, hr, ht⟩ := h.cwd
  have hda := h.reach_used hr
  refine ⟨_, fsCreate_eq h hd hda cmd type taken name, ?_⟩
  split
  · exact h
  split
  · exact h
  split
  · rename_i hu
    split
    · rename_i hl
      exact h.create hda hu hl type name ht
    · -- the parent is full: the node is allocated and in no list
      exact h.alloc hu type name
  · exact h

theorem fsCmdRm_wellFormed (h : fs.WellFormed) (name : Str) :
    ∃ r, fsCmdRm fs name = some r ∧ r.fs.WellFormed := by
  obtain ⟨d, hd, hr, -⟩ := h.cwd
  refine ⟨_, fsCmdRm_eq h hd (h.reach_used hr) name, ?_⟩
  split
  · exact h
  split
  · exact h
  · rename_i k hk
    split
    · exact h
    · rename_i hfile
      exact h.remove (childNamed_some hk).1 hfile

theorem fsCmdCd_wellFormed (h : fs.WellFormed) (path : Str) :
    ∃ r, fsCmdCd fs path = some r ∧ r.fs.WellFormed := by
  have hroot : { fs with cwd := 0 }.WellFormed := h.setCwd (k := 0) .refl h.rootDir
  cases path with
  | nil => exact ⟨_, rfl, hroot⟩
  | cons ch tail =>
    simp only [fsCmdCd]
    split
    · exact ⟨_, rfl, hroot⟩
    -- the directory the walk starts from
    obtain ⟨d, hd, hr, ht⟩ : ∃ d, (if ch = slash then ((0 : Int32), tail) else (fs.cwd, ch :: tail)).1 = ix d ∧
        Reach fs.kids 0 d ∧ (fs.pool d).type = fsDir := by
      split
      · exact ⟨0, rfl, .refl, h.rootDir⟩
      · exact h.cwd
    generalize (if ch = slash then ((0 : Int32), tail) else (fs.cwd, ch :: tail)) = start at hd
    obtain ⟨cur, path⟩ := start
    simp only at hd
    obtain ⟨r, hw, hok⟩ := cdWalk_spec h path.length path d hr ht
    simp only [hd, hw, Option.bind_eq_bind, Option.bind_some]
    cases r with
    | error msg => exact ⟨_, rfl, h⟩
    | ok cur =>
      obtain ⟨k, rfl, hk, htk⟩ := hok cur rfl
      exact ⟨_, rfl, h.setCwd hk htk⟩

theorem fsCmdCat_same (h : fs.WellFormed) (name : Str) :
    ∃ r, fsCmdCat fs name = some r ∧ r.fs = fs ∧ r.save = false := by
  obtain ⟨d, hd, hr, -⟩ := h.cwd
  unfold fsCmdCat
  by_cases hn : name = []
  · exact ⟨_, if_pos hn, rfl, rfl⟩
  simp only [hn, if_false, hd, nodeFindChild_eq h (h.reach_used hr), Option.bind_eq_bind, Option.bind_some]
  cases hf : fs.childNamed d name with
  | none => exact ⟨_, if_pos (by decide), rfl, rfl⟩
  | some k =>
    have hk := (h.of_mem_kids (childNamed_some hf).1).2.1
    simp only [not_ix_neg, if_false, node_ix, Option.bind_some]
    split
    · exact ⟨_, rfl, rfl, rfl⟩
    split
    · exact ⟨_, rfl, rfl, rfl⟩
    · rename_i hlen
      obtain ⟨s, hs⟩ := (h.text k hk).resolve_left hlen
      exact ⟨_, by rw [hs]; rfl, rfl, rfl⟩

theorem fsCmdLs_eq (h : fs.WellFormed) (hd : fs.cwd = ix d) (hda : d.val < fs.used) :
    fsCmdLs fs = some ⟨fs, some (if fs.kids d = [] then .emptyDir
      else .listing ((fs.kids d).map fun k => (fs.nameOf k, decide ((fs.pool k).type = fsDir)))), false⟩ := by
  have hcnt := h.childCount hda
  have hzero : (fs.pool d).childCount = 0 ↔ fs.kids d = [] := by
    have z : (0 : Int32).toInt = 0 := rfl
    rw [← Int32.toInt_inj, hcnt, z, ← List.length_eq_zero_iff]
    omega
  unfold fsCmdLs
  simp only [hd, node_ix, Option.bind_eq_bind, Option.bind_some, hzero]
  by_cases he : fs.kids d = []
  · simp [he]
  · rw [lsFrom_eq h hda _ 0 (by omega)]
    simp [he]

theorem fsCmdPwd_same (h : fs.WellFormed) : ∃ r, fsCmdPwd fs = some r ∧ r.fs = fs ∧ r.save = false := by
  obtain ⟨d, hd, hr, -⟩ := h.cwd
  unfold fsCmdPwd fsPwdStr
  split
  · exact ⟨_, rfl, rfl, rfl⟩
  · obtain ⟨stack, hs, hin⟩ := pwdWalk_spec h 32 d hr
    obtain ⟨p, hp⟩ := pwdPush_spec h stack.reverse [] fun i hi => hin i (List.mem_reverse.1 hi)
    rw [hd, hs]
    simp only [Option.bind_eq_bind, Option.bind_some, hp]
    exact ⟨_, rfl, rfl, rfl⟩

/-- **One command**, with any arguments, stays inside its arrays and keeps the pool a
tree. -/
theorem exec_wellFormed (h : fs.WellFormed) (cmd : FsCmd) (args : Str) :
    ∃ r, cmd.exec fs args = some r ∧ r.fs.WellFormed := by
  cases cmd with
  | mkdir => exact fsCreate_wellFormed h _ _ _ _
  | touch => exact fsCreate_wellFormed h _ _ _ _
  | rm => exact fsCmdRm_wellFormed h _
  | cd => exact fsCmdCd_wellFormed h _
  | ls =>
    obtain ⟨d, hd, hr, -⟩ := h.cwd
    exact ⟨_, fsCmdLs_eq h hd (h.reach_used hr), h⟩
  | cat =>
    obtain ⟨r, hr, hs, -⟩ := fsCmdCat_same h (firstToken args)
    exact ⟨r, hr, by rw [hs]; exact h⟩
  | pwd =>
    obtain ⟨r, hr, hs, -⟩ := fsCmdPwd_same h
    exact ⟨r, hr, by rw [hs]; exact h⟩

/-! ## Runs -/

theorem run_wellFormed_of (h : fs.WellFormed) (cmds : List (FsCmd × Str)) :
    ∃ fs', fs.run cmds = some fs' ∧ fs'.WellFormed := by
  induction cmds generalizing fs with
  | nil => exact ⟨fs, rfl, h⟩
  | cons c cmds ih =>
    obtain ⟨cmd, args⟩ := c
    obtain ⟨r, hr, hw⟩ := exec_wellFormed h cmd args
    obtain ⟨fs', hfs, hw'⟩ := ih hw
    exact ⟨fs', by simp [Fs.run, hr, hfs], hw'⟩

/-- The pool with the root alone. -/
def rootFs : Fs where
  pool := Function.update (fun _ => FsNode.zero) 0
    { FsNode.zero with
      name := Function.update (Function.update FsNode.zero.name 0 47) 1 0
      type := fsDir
      parent := -1 }
  poolUsed := 1
  cwd := 0

theorem rootFs_wellFormed : rootFs.WellFormed := by
  have hused : rootFs.used = 1 := rfl
  have h0 : ∀ d : Fin 64, d.val < rootFs.used → d = 0 := fun d hd => Fin.ext (by simp; omega)
  have hkids : (rootFs.pool 0).kidInts = [] := by
    have hc : (rootFs.pool 0).childCount.toInt.toNat = 0 := rfl
    simp [FsNode.kidInts, hc]
  refine
    { used := by decide, rootDir := rfl, rootParent := rfl, count := ?_, fileCount := ?_
      entry := ?_, once := ?_, named := ?_, text := ?_, cwd := ⟨0, rfl, .refl, rfl⟩ }
  · intro d hd; rw [h0 d hd]; decide
  · intro d hd _; rw [h0 d hd]; rfl
  · intro d hd c hc; rw [h0 d hd, hkids] at hc; cases hc
  · intro d hd; rw [h0 d hd, hkids]; exact List.nodup_nil
  · intro d hd; rw [h0 d hd]; exact ⟨str "/", by decide⟩
  · intro d hd; rw [h0 d hd]; exact Or.inl rfl

theorem fsInitDir_eq (h : fs.WellFormed) (hu : fs.used < 64) (hl : (fs.kids 0).length < 16) (name : Str) :
    fsInitDir fs name = some ((fs.alloc ⟨fs.used, hu⟩ fsDir name).adopt 0 ⟨fs.used, hu⟩) := by
  have hpos := h.used_pos
  have h0u : (0 : Fin 64) ≠ ⟨fs.used, hu⟩ := fun he => by
    have := congrArg Fin.val he
    simp at this; omega
  have hc := h.childCount (d := 0) (by simpa using hpos)
  have h0 : (0 : Int32) = ix 0 := rfl
  unfold fsInitDir
  simp only [nodeAlloc_ok h hu, Option.bind_eq_bind, Option.bind_some, node_ix, setNode_ix,
    Function.update_self, Function.update_idem, h0]
  rw [nodeAddChild_ok h0u (by simp only [Function.update_of_ne h0u]; omega)
    (by simp only [Function.update_of_ne h0u]; omega)]
  rfl

/-- A starter directory is one more node, at the end of the root's list. -/
theorem fsInitDir_spec (h : fs.WellFormed) (hu : fs.used < 64) (hl : (fs.kids 0).length < 16) (name : Str) :
    ∃ fs', fsInitDir fs name = some fs' ∧ fs'.WellFormed ∧ fs'.used = fs.used + 1 ∧
      (fs'.kids 0).length = (fs.kids 0).length + 1 := by
  refine ⟨_, fsInitDir_eq h hu hl name, h.create (d := 0) h.used_pos hu hl fsDir name h.rootDir, ?_, ?_⟩
  · rw [used_adopt, used_alloc h hu]
  · rw [kids_create h h.used_pos hu hl, link, Function.update_self]
    simp

theorem nodeAlloc_empty : nodeAlloc fsInitEmpty = some (0,
    { fsInitEmpty with
      pool := Function.update fsInitEmpty.pool 0 { FsNode.zero with parent := -1 }
      poolUsed := 1 }) := by
  have h0 : (0 : Int32) = ix 0 := rfl
  rw [nodeAlloc, if_neg (by decide)]
  simp only [fsInitEmpty, h0, setNode_ix, Option.bind_eq_bind, Option.bind_some]
  rfl

theorem fsInit_eq : fsInit = (fsInitDir rootFs (str "home")).bind (fsInitDir · (str "tmp")) := by
  have h0 : (0 : Int32) = ix 0 := rfl
  unfold fsInit
  simp only [nodeAlloc_empty, Option.bind_eq_bind, Option.bind_some, h0, node_ix, setNode_ix,
    Function.update_self, Function.update_idem]
  rfl

/-- `fs_init` succeeds, with the tree of the root, `home` and `tmp`. -/
theorem fsInit_wellFormed : ∃ fs, fsInit = some fs ∧ fs.WellFormed := by
  have hu : rootFs.used = 1 := rfl
  have hk : (rootFs.kids 0).length = 0 := by decide
  obtain ⟨fs₁, h₁, hw₁, hu₁, hk₁⟩ := fsInitDir_spec rootFs_wellFormed (by omega) (by omega) (str "home")
  obtain ⟨fs₂, h₂, hw₂, -, -⟩ := fsInitDir_spec hw₁ (by omega) (by omega) (str "tmp")
  exact ⟨fs₂, by rw [fsInit_eq, h₁]; exact h₂, hw₂⟩

/-- **Every run keeps the pool a tree.** After any sequence of commands from `fs_init`,
with any arguments, the pool is well formed, every allocated entry is in one list only,
and every further command stays inside its arrays. -/
theorem run_wellFormed (cmds : List (FsCmd × Str)) :
    ∃ fs, fsInit.bind (·.run cmds) = some fs ∧ fs.WellFormed ∧
      (∀ d e : Fin 64, d.val < fs.used → e.val < fs.used →
        ∀ c ∈ (fs.pool d).kidInts, c ∈ (fs.pool e).kidInts → d = e) ∧
      ∀ (cmd : FsCmd) (args : Str), (cmd.exec fs args).isSome := by
  obtain ⟨fs₀, h₀, hw₀⟩ := fsInit_wellFormed
  obtain ⟨fs, hrun, hw⟩ := run_wellFormed_of hw₀ cmds
  refine ⟨fs, by rw [h₀]; exact hrun, hw, ?_, ?_⟩
  · -- an entry names its owner
    intro d e hd he c hcd hce
    rw [hw.kidInts hd] at hcd
    rw [hw.kidInts he] at hce
    obtain ⟨j, hj, rfl⟩ := List.mem_map.1 hcd
    obtain ⟨k, hk, hjk⟩ := List.mem_map.1 hce
    rw [ix_inj] at hjk
    subst hjk
    exact hw.owned.unique hj hk
  · intro cmd args
    obtain ⟨r, hr, -⟩ := exec_wellFormed hw cmd args
    simp [hr]

end DahleOS
