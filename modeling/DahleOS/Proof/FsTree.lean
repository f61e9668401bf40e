import DahleOS.Lib.DirTree
import DahleOS.Proof.FsRun

/-!
# The filesystem refines a directory tree

`FsTree` is what the commands are for: the ordered entries of every directory, the
chain of directories from the root to the current one, and the number of nodes spent.
Its commands are written on entries alone.

* `Refines`: the pool holds that tree, and the names in every directory are distinct,
  non-empty and at most 63 characters long.
* `exec_refines`: one command of the shell is one command of the tree.
* `tree_refinement`: so it is after every run from `fs_init`, with the effect of the
  command on every directory written out.
-/

namespace DahleOS

open CArray Forest DirTree

/-! ## The tree -/

/-- The names a directory may hold. -/
def GoodName (s : Str) : Prop := s ≠ [] ∧ s.length ≤ 63

instance : DecidablePred GoodName := fun s => inferInstanceAs (Decidable (s ≠ [] ∧ s.length ≤ 63))

/-- A directory tree over the slots of the pool. -/
structure FsTree where
  dirs : Dirs Str (Fin 64)
  pos : Pos (Fin 64)
  used : ℕ

/-- A new entry in the current directory, if the name is new and there is room. A node is
spent even when only the directory is full. -/
def FsTree.create (t : FsTree) (isDir : Bool) (name : Str) : FsTree × Bool :=
  if name = [] ∨ (lookup t.dirs t.pos.cur name).isSome then (t, false)
  else if hu : t.used < 64 then
    if (t.dirs t.pos.cur).length < 16 then
      ({ t with
        dirs := addEntry t.dirs t.pos.cur ⟨name, isDir, ⟨t.used, hu⟩⟩
        used := t.used + 1 }, true)
    else ({ t with used := t.used + 1 }, false)
  else (t, false)

/-- The file of that name taken out of the current directory. -/
def FsTree.rm (t : FsTree) (name : Str) : FsTree × Bool :=
  match lookup t.dirs t.pos.cur name with
  | some e => if e.isDir then (t, false) else ({ t with dirs := deleteName t.dirs t.pos.cur name }, true)
  | none => (t, false)

/-- The components of a path. -/
def components : ℕ → Str → List (Component Str)
  | 0, _ => []
  | _ + 1, [] => []
  | rounds + 1, ch :: path =>
    let (component, rest) := nextComponent (ch :: path)
    if component = [] then components rounds rest
    else if component = str "." then .here :: components rounds rest
    else if component = str ".." then .parent :: components rounds rest
    else .child component :: components rounds rest

/-- Where a path starts, and what is left of it. -/
def FsTree.start (t : FsTree) : Str → Pos (Fin 64) × Str
  | [] => (⟨0, []⟩, [])
  | ch :: tail => if ch = slash then (⟨0, []⟩, tail) else (t.pos, ch :: tail)

/-- The current directory moved along a path, if all of it resolves. -/
def FsTree.cd (t : FsTree) (path : Str) : FsTree :=
  let (p, rest) := t.start path
  match walk t.dirs p (components rest.length rest) with
  | some q => { t with pos := q }
  | none => t

/-- The new tree, and whether an entry came or went. -/
def FsTree.exec (t : FsTree) : FsCmd → Str → FsTree × Bool
  | .mkdir, args => t.create true (firstToken args)
  | .touch, args => t.create false (firstToken args)
  | .rm, args => t.rm (firstToken args)
  | .cd, args => (t.cd args, false)
  | .ls, _ | .cat, _ | .pwd, _ => (t, false)

/-- A sequence of commands. -/
def FsTree.run (t : FsTree) (cmds : List (FsCmd × Str)) : FsTree :=
  cmds.foldl (fun t c => (t.exec c.1 c.2).1) t

/-- The root with `home` and `tmp`. -/
def FsTree.init : FsTree :=
  (((⟨fun _ => [], ⟨0, []⟩, 1⟩ : FsTree).create true (str "home")).1.create true (str "tmp")).1

/-! ## The tree in the pool -/

/-- A child as an entry. -/
def Fs.entryOf (fs : Fs) (k : Fin 64) : Entry Str (Fin 64) :=
  ⟨fs.nameOf k, decide ((fs.pool k).type = fsDir), k⟩

/-- The entries of every directory. -/
def Fs.dirs (fs : Fs) : Dirs Str (Fin 64) := fun d => (fs.kids d).map fs.entryOf

/-- **The pool holds the tree.** -/
structure Refines (fs : Fs) (t : FsTree) : Prop where
  wf : fs.WellFormed
  dirs : fs.dirs = t.dirs
  used : fs.used = t.used
  cwd : fs.cwd = ix t.pos.cur
  chain : Chain t.dirs 0 t.pos.cur t.pos.above
  names : ∀ d, Names GoodName (t.dirs d)

variable {fs : Fs} {t : FsTree} {d k : Fin 64} {name : Str}

theorem mem_dirs {e : Entry Str (Fin 64)} : e ∈ fs.dirs d ↔ e.node ∈ fs.kids d ∧ fs.entryOf e.node = e := by
  simp only [Fs.dirs, List.mem_map]
  constructor
  · rintro ⟨k, hk, rfl⟩; exact ⟨hk, rfl⟩
  · rintro ⟨hk, he⟩; exact ⟨e.node, hk, he⟩

theorem lookup_dirs (fs : Fs) (d : Fin 64) (name : Str) :
    lookup fs.dirs d name = (fs.childNamed d name).map fs.entryOf := by
  rw [lookup, Fs.dirs, List.find?_map]; rfl

/-- The directories on the chain are reachable. -/
theorem reach_of_chain : ∀ {above : List (Fin 64)} {cur : Fin 64}, Chain fs.dirs 0 cur above →
    Reach fs.kids 0 cur
  | [], _, rfl => .refl
  | _ :: _, _, ⟨⟨_, he, _, rfl⟩, h⟩ => (reach_of_chain h).tail (mem_dirs.1 he).1

theorem chain_dir (h : fs.WellFormed) : ∀ {above : List (Fin 64)} {cur : Fin 64},
    Chain fs.dirs 0 cur above → (fs.pool cur).type = fsDir
  | [], _, rfl => h.rootDir
  | _ :: _, _, ⟨⟨e, he, hdir, rfl⟩, _⟩ => by
    have := (mem_dirs.1 he).2
    rw [← this] at hdir
    simpa [Fs.entryOf] using hdir

/-- What `ls` shows of a directory. -/
def listing (l : List (Entry Str (Fin 64))) : FsMsg :=
  if l = [] then .emptyDir else .listing (l.map fun e => (e.name, e.isDir))

/-- What `ls` prints with `d` as the current directory. -/
def lsAt (fs : Fs) (d : Fin 64) : Option FsMsg := (fsCmdLs { fs with cwd := ix d }).bind (·.msg)

theorem lsAt_eq (h : fs.WellFormed) (hr : Reach fs.kids 0 d) (hdir : (fs.pool d).type = fsDir) :
    lsAt fs d = some (listing (fs.dirs d)) := by
  have heq := fsCmdLs_eq (h.setCwd hr hdir) (d := d) rfl (h.reach_used hr)
  rw [lsAt, heq, Option.bind_some]
  simp only [listing, Fs.dirs, List.map_eq_nil_iff, List.map_map]
  rfl

/-- Where the entries are the same, so is the lookup. -/
theorem nodeFindChild_congr {fs' : Fs} (h : fs.WellFormed) (h' : fs'.WellFormed) (hd : d.val < fs.used)
    (hd' : d.val < fs'.used) (hdirs : fs'.dirs d = fs.dirs d) (name : Str) :
    nodeFindChild fs' (ix d) name = nodeFindChild fs (ix d) name := by
  have hl : lookup fs'.dirs d name = lookup fs.dirs d name := by rw [lookup, hdirs]; rfl
  rw [lookup_dirs, lookup_dirs] at hl
  have hc : fs'.childNamed d name = fs.childNamed d name := by
    have := congrArg (Option.map Entry.node) hl
    simpa [Option.map_map, Function.comp_def, Fs.entryOf] using this
  rw [nodeFindChild_eq h hd, nodeFindChild_eq h' hd', hc]

/-! ## The three changes of the pool -/

theorem entryOf_congr {fs' : Fs} (hn : (fs'.pool k).name = (fs.pool k).name)
    (ht : (fs'.pool k).type = (fs.pool k).type) : fs'.entryOf k = fs.entryOf k := by
  simp [Fs.entryOf, Fs.nameOf, hn, ht]

section Create

variable (h : fs.WellFormed) (hu : fs.used < 64) (type : UInt32)

theorem entryOf_alloc (hk : k.val < fs.used) (name : Str) :
    (fs.alloc ⟨fs.used, hu⟩ type name).entryOf k = fs.entryOf k := by
  have := pool_alloc_of_lt hu type name hk
  exact entryOf_congr (by rw [this]) (by rw [this])

include h

theorem dirs_alloc (name : Str) : (fs.alloc ⟨fs.used, hu⟩ type name).dirs = fs.dirs := by
  funext d
  rw [Fs.dirs, kids_alloc h]
  exact List.map_congr_left fun k hk => entryOf_alloc hu type (h.of_mem_kids hk).2.1 name

theorem dirs_create (hda : d.val < fs.used) (hl : (fs.kids d).length < 16) (hn : name.length ≤ 63) :
    ((fs.alloc ⟨fs.used, hu⟩ type name).adopt d ⟨fs.used, hu⟩).dirs =
      addEntry fs.dirs d ⟨name, decide (type = fsDir), ⟨fs.used, hu⟩⟩ := by
  have hne : d ≠ ⟨fs.used, hu⟩ := fun he => by rw [he] at hda; simp at hda
  have hkeep (k : Fin 64) :
      ((fs.alloc ⟨fs.used, hu⟩ type name).adopt d ⟨fs.used, hu⟩).entryOf k =
        (fs.alloc ⟨fs.used, hu⟩ type name).entryOf k := by
    obtain ⟨ht, hname, -, -⟩ := @content_adopt (fs.alloc ⟨fs.used, hu⟩ type name) _ _ hne k
    exact entryOf_congr hname ht
  have hold (x : Fin 64) : (fs.kids x).map
      ((fs.alloc ⟨fs.used, hu⟩ type name).adopt d ⟨fs.used, hu⟩).entryOf = fs.dirs x :=
    List.map_congr_left fun k hk => (hkeep k).trans (entryOf_alloc hu type (h.of_mem_kids hk).2.1 name)
  have hnew : ((fs.alloc ⟨fs.used, hu⟩ type name).adopt d ⟨fs.used, hu⟩).entryOf ⟨fs.used, hu⟩ =
      ⟨name, decide (type = fsDir), ⟨fs.used, hu⟩⟩ := by
    rw [hkeep]
    have hp : (fs.alloc ⟨fs.used, hu⟩ type name).pool ⟨fs.used, hu⟩ = newNode type name := by simp [Fs.alloc]
    simp only [Fs.entryOf, Fs.nameOf, hp, newNode_cstr, Option.getD_some, List.take_of_length_le hn]
    rfl
  funext x
  rw [Fs.dirs, kids_create h hda hu hl]
  by_cases hx : x = d
  · subst hx
    rw [link, addEntry, Function.update_self, Function.update_self, List.map_append, hold]
    simp only [List.map_cons, List.map_nil, hnew]
  · rw [link, addEntry_of_ne hx, Function.update_of_ne hx]
    exact hold x

end Create

theorem dirs_remove (h : fs.WellFormed) (hk : k ∈ fs.kids d) (hn : Names GoodName (fs.dirs d)) :
    (fs.remove d k).dirs = deleteName fs.dirs d (fs.nameOf k) := by
  have hne : d ≠ k := (h.of_mem_kids hk).1.ne
  have hkeep : ∀ x ≠ k, (fs.remove d k).entryOf x = fs.entryOf x := fun x hx =>
    entryOf_congr (name_remove hne hx) (content_remove hne x).1
  funext x
  rw [Fs.dirs, kids_remove h hk]
  by_cases hx : x = d
  · subst hx
    rw [unlink, deleteName, Function.update_self, Function.update_self, Fs.dirs, List.filter_map,
      (h.owned.nodup x).erase_eq_filter]
    -- in one list, another node is another name
    have hsame : (fs.kids x).filter (· != k) =
        (fs.kids x).filter ((fun e => decide (e.name ≠ fs.nameOf k)) ∘ fs.entryOf) := by
      refine List.filter_congr ?_
      intro j hj
      have hinj : fs.nameOf j = fs.nameOf k → j = k := fun he =>
        congrArg Entry.node (List.inj_on_of_nodup_map hn.nodup (List.mem_map_of_mem (f := fs.entryOf) hj)
          (List.mem_map_of_mem (f := fs.entryOf) hk) he)
      by_cases hjk : j = k
      · simp [hjk, Fs.entryOf]
      · have : fs.nameOf j ≠ fs.nameOf k := fun he => hjk (hinj he)
        simp [hjk, Fs.entryOf, this]
    rw [← hsame]
    refine List.map_congr_left fun j hj => hkeep j ?_
    have := (List.mem_filter.1 hj).2
    simpa using this
  · rw [unlink, deleteName_of_ne hx, Function.update_of_ne hx]
    refine List.map_congr_left fun j hj => hkeep j ?_
    rintro rfl
    exact hx (h.owned.unique hj hk)

/-! ## One command -/

theorem lookup_isSome (h : Refines fs t) (name : Str) :
    (lookup t.dirs t.pos.cur name).isSome = (fs.childNamed t.pos.cur name).isSome := by
  rw [← h.dirs, lookup_dirs, Option.isSome_map]

theorem length_dirs (h : Refines fs t) (d : Fin 64) : (t.dirs d).length = (fs.kids d).length := by
  rw [← h.dirs, Fs.dirs, List.length_map]

theorem Refines.reach (h : Refines fs t) : Reach fs.kids 0 t.pos.cur :=
  reach_of_chain (by rw [h.dirs]; exact h.chain)

theorem Refines.dir (h : Refines fs t) : (fs.pool t.pos.cur).type = fsDir :=
  chain_dir h.wf (by rw [h.dirs]; exact h.chain)

/-- A node allocated for nothing. -/
theorem Refines.alloc (h : Refines fs t) (hu : fs.used < 64) (type : UInt32) (name : Str) :
    Refines (fs.alloc ⟨fs.used, hu⟩ type name) { t with used := t.used + 1 } where
  wf := h.wf.alloc hu type name
  dirs := (dirs_alloc h.wf hu type name).trans h.dirs
  used := by rw [used_alloc h.wf, h.used]
  cwd := h.cwd
  chain := h.chain
  names := h.names

/-- A new entry. -/
theorem Refines.create (h : Refines fs t) (hu : fs.used < 64) (hl : (fs.kids d).length < 16)
    (hr : Reach fs.kids 0 d) (hdir : (fs.pool d).type = fsDir) (type : UInt32) (hg : GoodName name)
    (hnew : lookup t.dirs d name = none) :
    Refines ((fs.alloc ⟨fs.used, hu⟩ type name).adopt d ⟨fs.used, hu⟩)
      { t with
        dirs := addEntry t.dirs d ⟨name, decide (type = fsDir), ⟨fs.used, hu⟩⟩
        used := t.used + 1 } where
  wf := h.wf.create (h.wf.reach_used hr) hu hl type name hdir
  dirs := by rw [dirs_create h.wf hu type (h.wf.reach_used hr) hl hg.2, h.dirs]
  used := by rw [used_adopt, used_alloc h.wf]; exact congrArg (· + 1) h.used
  cwd := h.cwd
  chain := h.chain.addEntry _
  names := Names.addEntry h.names hnew hg

/-- **Creation**, by `mkdir` and `touch`. -/
theorem fsCreate_refines (h : Refines fs t) (cmd : FsCmd) (type : UInt32) (taken : Option FsMsg)
    (hn : name.length ≤ 63) : ∃ r, fsCreate cmd type taken fs name = some r ∧
      Refines r.fs (t.create (decide (type = fsDir)) name).1 ∧
      r.save = (t.create (decide (type = fsDir)) name).2 := by
  refine ⟨_, fsCreate_eq h.wf h.cwd (h.wf.reach_used h.reach) cmd type taken name, ?_⟩
  unfold FsTree.create
  rw [lookup_isSome h, length_dirs h]
  by_cases hnil : name = []
  · simp only [hnil, if_true, true_or]
    exact ⟨h, trivial⟩
  by_cases htaken : (fs.childNamed t.pos.cur name).isSome
  · simp only [hnil, htaken, if_true, if_false, or_true]
    exact ⟨h, trivial⟩
  have hfree : lookup t.dirs t.pos.cur name = none := by
    rw [← Option.not_isSome_iff_eq_none, lookup_isSome h]; exact htaken
  simp only [hnil, htaken, if_false, false_or, Bool.false_eq_true]
  by_cases hu : fs.used < 64
  · have hu' : t.used < 64 := h.used ▸ hu
    have hidx : (⟨t.used, hu'⟩ : Fin 64) = ⟨fs.used, hu⟩ := Fin.ext h.used.symm
    rw [dif_pos hu, dif_pos hu', hidx]
    by_cases hl : (fs.kids t.pos.cur).length < 16
    · rw [if_pos hl, if_pos hl]
      exact ⟨h.create hu hl h.reach h.dir type ⟨hnil, hn⟩ hfree, rfl⟩
    · rw [if_neg hl, if_neg hl]
      exact ⟨h.alloc hu type name, rfl⟩
  · rw [dif_neg hu, dif_neg (by rw [← h.used]; exact hu)]
    exact ⟨h, rfl⟩

/-- **Removal.** -/
theorem fsCmdRm_refines (h : Refines fs t) (name : Str) : ∃ r, fsCmdRm fs name = some r ∧
    Refines r.fs (t.rm name).1 ∧ r.save = (t.rm name).2 := by
  refine ⟨_, fsCmdRm_eq h.wf h.cwd (h.wf.reach_used h.reach) name, ?_⟩
  have hlook : lookup t.dirs t.pos.cur name = (fs.childNamed t.pos.cur name).map fs.entryOf := by
    rw [← h.dirs, lookup_dirs]
  unfold FsTree.rm
  by_cases hnil : name = []
  · -- no entry has the empty name
    have hnone : lookup t.dirs t.pos.cur name = none :=
      lookup_eq_none.2 fun e he hname => ((h.names _).good e he).1 (hname.trans hnil)
    rw [if_pos hnil, hnone]
    exact ⟨h, rfl⟩
  rw [if_neg hnil]
  cases hf : fs.childNamed t.pos.cur name with
  | none =>
    rw [hlook, hf]
    exact ⟨h, rfl⟩
  | some k =>
    rw [hf, Option.map_some] at hlook
    obtain ⟨hk, hname⟩ := childNamed_some hf
    rw [hlook]
    by_cases hdir : (fs.pool k).type = fsDir
    · simp only [hdir, Fs.entryOf, decide_true, if_true]
      exact ⟨h, trivial⟩
    · have hfile : (fs.entryOf k).isDir = false := by simp [Fs.entryOf, hdir]
      simp only [hdir, hfile, if_false, Bool.false_eq_true]
      have hdel := dirs_remove h.wf hk (by rw [h.dirs]; exact h.names _)
      rw [hname, h.dirs] at hdel
      have href : Refines (fs.remove t.pos.cur k) { t with dirs := deleteName t.dirs t.pos.cur name } :=
        { wf := h.wf.remove hk hdir
          dirs := hdel
          used := h.used
          cwd := h.cwd
          chain := h.chain.deleteName (h.names _) hlook hfile
          names := Names.deleteName h.names _ _ }
      exact ⟨href, trivial⟩

/-- **The walk of `cd` is the resolution of its components.** -/
theorem cdWalk_refines (h : fs.WellFormed) : ∀ (rounds : ℕ) (path : Str) (p : Pos (Fin 64)),
    Chain fs.dirs 0 p.cur p.above → ∃ r, cdWalk fs rounds (ix p.cur) path = some r ∧
      match walk fs.dirs p (components rounds path) with
      | some q => r = .ok (ix q.cur) ∧ Chain fs.dirs 0 q.cur q.above
      | none => ∃ msg, r = .error msg := by
  intro rounds
  induction rounds with
  | zero => intro path p hp; exact ⟨_, rfl, rfl, hp⟩
  | succ rounds ih =>
    intro path p hp
    cases path with
    | nil => exact ⟨_, rfl, rfl, hp⟩
    | cons ch path =>
      simp only [cdWalk, components, strcmp_eq_zero]
      generalize nextComponent (ch :: path) = c
      obtain ⟨component, rest⟩ := c
      dsimp only
      by_cases hnil : component = []
      · simp only [hnil, if_true]; exact ih rest p hp
      by_cases hdot : component = str "."
      · rw [if_neg hnil, if_pos hdot, if_neg hnil, if_pos hdot]
        exact ih rest p hp
      by_cases hup : component = str ".."
      · -- the parent field is the directory above
        rw [if_neg hnil, if_neg hdot, if_pos hup, if_neg hnil, if_neg hdot, if_pos hup]
        have hpar : (if 0 ≤ (fs.pool p.cur).parent then (fs.pool p.cur).parent else ix p.cur) =
            ix p.up.cur := by
          obtain ⟨cur, above⟩ := p
          cases above with
          | nil =>
            obtain rfl : cur = 0 := hp
            simp only [h.rootParent, Pos.up, if_neg (show ¬ (0 : Int32) ≤ -1 by decide)]
          | cons d above =>
            obtain ⟨⟨e, he, -, rfl⟩, -⟩ := hp
            simp only [(h.of_mem_kids (mem_dirs.1 he).1).2.2, ix_nonneg, if_true, Pos.up]
        simp only [node_ix, Option.bind_eq_bind, Option.bind_some, hpar, walk]
        exact ih rest p.up hp.up
      · -- a name resolves to a directory, or both sides fail
        rw [if_neg hnil, if_neg hdot, if_neg hup, if_neg hnil, if_neg hdot, if_neg hup]
        have hused := h.reach_used (reach_of_chain hp)
        simp only [nodeFindChild_eq h hused, Option.bind_eq_bind, Option.bind_some, walk, lookup_dirs]
        cases hf : fs.childNamed p.cur component with
        | none => exact ⟨_, if_pos (by decide), _, rfl⟩
        | some k =>
          have hk := (childNamed_some hf).1
          simp only [not_ix_neg, if_false, node_ix, Option.bind_some, Option.map_some]
          by_cases hdir : (fs.pool k).type = fsDir
          · have hisDir : (fs.entryOf k).isDir = true := by simp [Fs.entryOf, hdir]
            rw [if_neg (not_not.2 hdir), if_pos hisDir]
            exact ih rest (p.down k) ⟨⟨_, mem_dirs.2 ⟨hk, rfl⟩, hisDir, rfl⟩, hp⟩
          · have hisDir : ¬ (fs.entryOf k).isDir = true := by simp [Fs.entryOf, hdir]
            rw [if_pos hdir, if_neg hisDir]
            exact ⟨_, rfl, _, rfl⟩

/-- Whether a path resolves. -/
def FsTree.resolves (t : FsTree) (path : Str) : Bool :=
  (walk t.dirs (t.start path).1 (components (t.start path).2.length (t.start path).2)).isSome

theorem fsCmdCd_refines (h : Refines fs t) (path : Str) : ∃ r, fsCmdCd fs path = some r ∧
    Refines r.fs (t.cd path) ∧ (t.resolves path = true → r.msg = none) := by
  -- once the path has a start, both sides walk
  have hgo : ∀ (p : Pos (Fin 64)) (rest : Str), Chain fs.dirs 0 p.cur p.above → t.start path = (p, rest) →
      ∃ r, cdWalk fs rest.length (ix p.cur) rest = some r ∧
        Refines (match r with | .ok cur => { fs with cwd := cur } | .error _ => fs) (t.cd path) ∧
        (t.resolves path = true → ∃ cur, r = .ok cur) := by
    intro p rest hp hstart
    obtain ⟨r, hr, hw⟩ := cdWalk_refines h.wf rest.length rest p hp
    refine ⟨r, hr, ?_⟩
    rw [FsTree.cd, FsTree.resolves, hstart]
    dsimp only
    rw [h.dirs] at hw
    cases hq : walk t.dirs p (components rest.length rest) with
    | none =>
      rw [hq] at hw
      obtain ⟨msg, rfl⟩ := hw
      exact ⟨h, fun hs => by cases hs⟩
    | some q =>
      rw [hq] at hw
      obtain ⟨rfl, hc⟩ := hw
      have hc' : Chain fs.dirs 0 q.cur q.above := by rw [h.dirs]; exact hc
      exact ⟨⟨h.wf.setCwd (reach_of_chain hc') (chain_dir h.wf hc'), h.dirs, h.used, rfl, hc, h.names⟩,
        fun _ => ⟨_, rfl⟩⟩
  have hroot : Chain fs.dirs 0 (0 : Fin 64) [] := rfl
  cases path with
  | nil =>
    obtain ⟨r, hr, href, -⟩ := hgo ⟨0, []⟩ [] hroot rfl
    cases hr
    exact ⟨_, rfl, href, fun _ => rfl⟩
  | cons ch tail =>
    simp only [fsCmdCd]
    by_cases hch : ch = slash
    · subst hch
      obtain ⟨r, hr, href, hok⟩ := hgo ⟨0, []⟩ tail hroot (by simp [FsTree.start])
      by_cases htail : tail = []
      · -- `/` alone returns early, with the state of the empty walk
        subst htail
        cases hr
        exact ⟨_, if_pos ⟨rfl, rfl⟩, href, fun _ => rfl⟩
      · simp only [htail, and_false, if_false, if_true, Option.bind_eq_bind]
        rw [← ix_zero, hr, Option.bind_some]
        cases r with
        | error msg => exact ⟨_, rfl, href, fun hs => by cases (hok hs).choose_spec⟩
        | ok cur => exact ⟨_, rfl, href, fun _ => rfl⟩
    · have hchain : Chain fs.dirs 0 t.pos.cur t.pos.above := by rw [h.dirs]; exact h.chain
      obtain ⟨r, hr, href, hok⟩ := hgo t.pos (ch :: tail) hchain (by simp [FsTree.start, hch])
      simp only [hch, false_and, if_false, Option.bind_eq_bind]
      rw [h.cwd, hr, Option.bind_some]
      cases r with
      | error msg => exact ⟨_, rfl, href, fun hs => by cases (hok hs).choose_spec⟩
      | ok cur => exact ⟨_, rfl, href, fun _ => rfl⟩

theorem length_firstToken (args : Str) : (firstToken args).length ≤ 63 := by
  simp [firstToken, word, List.length_take]

/-- **One command of the shell is one command of the tree.** -/
theorem exec_refines (h : Refines fs t) (cmd : FsCmd) (args : Str) : ∃ r, cmd.exec fs args = some r ∧
    Refines r.fs (t.exec cmd args).1 ∧ (cmd ≠ .cd → r.save = (t.exec cmd args).2) := by
  cases cmd with
  | mkdir =>
    obtain ⟨r, hr, href, hs⟩ := fsCreate_refines h .mkdir fsDir (some (.alreadyExists (firstToken args)))
      (length_firstToken args)
    exact ⟨r, hr, href, fun _ => hs⟩
  | touch =>
    obtain ⟨r, hr, href, hs⟩ := fsCreate_refines h .touch fsFile none (length_firstToken args)
    exact ⟨r, hr, href, fun _ => hs⟩
  | rm =>
    obtain ⟨r, hr, href, hs⟩ := fsCmdRm_refines h (firstToken args)
    exact ⟨r, hr, href, fun _ => hs⟩
  | cd =>
    obtain ⟨r, hr, href, -⟩ := fsCmdCd_refines h args
    exact ⟨r, hr, href, fun hne => absurd rfl hne⟩
  | ls => exact ⟨_, fsCmdLs_eq h.wf h.cwd (h.wf.reach_used h.reach), h, fun _ => rfl⟩
  | cat =>
    obtain ⟨r, hr, hsame, hsave⟩ := fsCmdCat_same h.wf (firstToken args)
    exact ⟨r, hr, by rw [hsame]; exact h, fun _ => hsave⟩
  | pwd =>
    obtain ⟨r, hr, hsame, hsave⟩ := fsCmdPwd_same h.wf
    exact ⟨r, hr, by rw [hsame]; exact h, fun _ => hsave⟩

/-! ## Runs -/

theorem run_refines (h : Refines fs t) (cmds : List (FsCmd × Str)) :
    ∃ fs', fs.run cmds = some fs' ∧ Refines fs' (t.run cmds) := by
  induction cmds generalizing fs t with
  | nil => exact ⟨fs, rfl, h⟩
  | cons c cmds ih =>
    obtain ⟨cmd, args⟩ := c
    obtain ⟨r, hr, href, -⟩ := exec_refines h cmd args
    obtain ⟨fs', hfs, href'⟩ := ih href
    exact ⟨fs', by simp [Fs.run, hr, hfs], href'⟩

theorem rootFs_refines : Refines rootFs ⟨fun _ => [], ⟨0, []⟩, 1⟩ where
  wf := rootFs_wellFormed
  dirs := by
    have hk : rootFs.kids 0 = [] := by decide
    funext d
    by_cases hd : d = 0
    · rw [Fs.dirs, hd, hk]; rfl
    · have hge : rootFs.used ≤ d.val := Nat.one_le_iff_ne_zero.2 fun h0 => hd (Fin.ext h0)
      rw [Fs.dirs, kids_of_ge hge]; rfl
  used := rfl
  cwd := rfl
  chain := rfl
  names d := ⟨List.nodup_nil, fun e he => by cases he⟩

theorem fsInitDir_refines (h : Refines fs t) (h0 : t.pos.cur = 0) (hu : fs.used < 64)
    (hl : (t.dirs 0).length < 16) (hg : GoodName name) (hnew : lookup t.dirs 0 name = none) :
    ∃ fs', fsInitDir fs name = some fs' ∧ Refines fs' (t.create true name).1 := by
  have hl' : (fs.kids 0).length < 16 := by rw [← length_dirs h]; exact hl
  have hu' : t.used < 64 := h.used ▸ hu
  have hidx : (⟨t.used, hu'⟩ : Fin 64) = ⟨fs.used, hu⟩ := Fin.ext h.used.symm
  refine ⟨_, fsInitDir_eq h.wf hu hl' name, ?_⟩
  rw [FsTree.create, h0, hnew, if_neg (by simp [hg.1]), dif_pos hu', if_pos hl, hidx]
  exact h.create hu hl' .refl h.wf.rootDir fsDir hg hnew

/-- `fs_init` builds the tree of the root, `home` and `tmp`. -/
theorem fsInit_refines : ∃ fs, fsInit = some fs ∧ Refines fs FsTree.init := by
  obtain ⟨fs₁, h₁, href₁⟩ := fsInitDir_refines rootFs_refines rfl (by decide) (by decide)
    (show GoodName (str "home") by decide) rfl
  have hu : fs₁.used = 2 := href₁.used
  obtain ⟨fs₂, h₂, href₂⟩ := fsInitDir_refines href₁ rfl (by omega) (by decide)
    (show GoodName (str "tmp") by decide) (by decide)
  exact ⟨fs₂, by rw [fsInit_eq, h₁]; exact h₂, href₂⟩

/-! ## What a command does to the directories -/

/-- **The effect of a command** on the entries of every directory. -/
structure Effect (fs : Fs) (cmd : FsCmd) (args : Str) (r : FsResult) : Prop where
  created : cmd = .mkdir ∨ cmd = .touch → r.save = true → ∃ d k, fs.cwd = ix d ∧
    (∀ x, ∀ e ∈ fs.dirs x, e.node ≠ k) ∧
    r.fs.dirs d = fs.dirs d ++ [⟨firstToken args, decide (cmd = .mkdir), k⟩] ∧
    r.fs.dirs k = [] ∧ (r.fs.pool k).dataLen = 0
  removed : cmd = .rm → r.save = true → ∃ d l₁ e l₂, fs.cwd = ix d ∧
    e.name = firstToken args ∧ e.isDir = false ∧
    fs.dirs d = l₁ ++ e :: l₂ ∧ r.fs.dirs d = l₁ ++ l₂
  unchanged : ¬ ((cmd = .mkdir ∨ cmd = .touch ∨ cmd = .rm) ∧ r.save = true) → r.fs.dirs = fs.dirs
  frame : ∀ d, fs.cwd ≠ ix d → r.fs.dirs d = fs.dirs d

/-- The tree's own account of a command. -/
theorem FsTree.create_effect (t : FsTree) (isDir : Bool) (name : Str) :
    ((t.create isDir name).2 = true ∧ ∃ hu : t.used < 64, (t.create isDir name).1.dirs =
      addEntry t.dirs t.pos.cur ⟨name, isDir, ⟨t.used, hu⟩⟩) ∨
    ((t.create isDir name).2 = false ∧ (t.create isDir name).1.dirs = t.dirs) := by
  unfold FsTree.create
  split
  · exact Or.inr ⟨rfl, rfl⟩
  split
  · rename_i hu
    split
    · exact Or.inl ⟨rfl, hu, rfl⟩
    · exact Or.inr ⟨rfl, rfl⟩
  · exact Or.inr ⟨rfl, rfl⟩

theorem FsTree.rm_effect (t : FsTree) (name : Str) :
    ((t.rm name).2 = true ∧ (t.rm name).1.dirs = deleteName t.dirs t.pos.cur name ∧
      ∃ e, lookup t.dirs t.pos.cur name = some e ∧ e.isDir = false) ∨
    ((t.rm name).2 = false ∧ (t.rm name).1.dirs = t.dirs) := by
  unfold FsTree.rm
  split
  · rename_i e he
    split
    · exact Or.inr ⟨rfl, rfl⟩
    · rename_i hdir
      exact Or.inl ⟨rfl, rfl, e, he, by simpa using hdir⟩
  · exact Or.inr ⟨rfl, rfl⟩

theorem FsTree.dirs_cd (t : FsTree) (path : Str) : (t.cd path).dirs = t.dirs := by
  simp only [FsTree.cd]
  split <;> rfl

theorem FsTree.used_cd (t : FsTree) (path : Str) : (t.cd path).used = t.used := by
  simp only [FsTree.cd]
  split <;> rfl

/-- A created node holds no data. -/
theorem fsCreate_empty (h : Refines fs t) {cmd : FsCmd} {type : UInt32} {taken : Option FsMsg} {r : FsResult}
    (hr : fsCreate cmd type taken fs name = some r) (hs : r.save = true) (hk : k.val = fs.used) :
    (r.fs.pool k).dataLen = 0 := by
  have hused := h.wf.reach_used h.reach
  rw [fsCreate_eq h.wf h.cwd hused, Option.some.injEq] at hr
  split at hr
  · subst hr; cases hs
  split at hr
  · subst hr; cases hs
  split at hr
  · rename_i hu
    split at hr
    · obtain rfl : k = ⟨fs.used, hu⟩ := Fin.ext hk
      have hne : t.pos.cur ≠ ⟨fs.used, hu⟩ := fun he => by rw [he] at hused; simp at hused
      subst hr
      rw [(content_adopt hne _).2.2.1]
      simp only [Fs.alloc, Function.update_self]
      rfl
    · subst hr; cases hs
  · subst hr; cases hs

theorem effect_of_create (h : Refines fs t) {cmd : FsCmd} {args : Str} {r : FsResult}
    (hcmd : cmd = .mkdir ∨ cmd = .touch) {t' : FsTree} (href : Refines r.fs t')
    (hexec : (t', r.save) = t.create (decide (cmd = .mkdir)) (firstToken args))
    (hempty : r.save = true → ∀ k : Fin 64, k.val = fs.used → (r.fs.pool k).dataLen = 0) :
    Effect fs cmd args r := by
  have hrm : cmd ≠ .rm := by rcases hcmd with rfl | rfl <;> decide
  have hfst : t' = (t.create (decide (cmd = .mkdir)) (firstToken args)).1 := congrArg Prod.fst hexec
  have hsnd : r.save = (t.create (decide (cmd = .mkdir)) (firstToken args)).2 := congrArg Prod.snd hexec
  rcases t.create_effect (decide (cmd = .mkdir)) (firstToken args) with ⟨hs, hu, hdirs⟩ | ⟨hs, hdirs⟩
  · rw [← hsnd] at hs
    rw [← hfst, ← href.dirs, ← h.dirs] at hdirs
    have hused := h.wf.reach_used h.reach
    -- the new node is not the current directory, which was allocated before
    have hne : (⟨t.used, hu⟩ : Fin 64) ≠ t.pos.cur := fun he => by
      rw [← he, h.used] at hused; simp at hused
    have hfresh : ∀ x, ∀ e ∈ fs.dirs x, e.node ≠ ⟨t.used, hu⟩ := by
      intro x e he hek
      have := (h.wf.of_mem_kids (mem_dirs.1 he).1).2.1
      rw [hek, h.used] at this; simp at this
    have hhere : r.fs.dirs t.pos.cur =
        fs.dirs t.pos.cur ++ [⟨firstToken args, decide (cmd = .mkdir), ⟨t.used, hu⟩⟩] := by
      rw [hdirs, addEntry, Function.update_self]
    have hleaf : r.fs.dirs ⟨t.used, hu⟩ = [] := by
      rw [hdirs, addEntry_of_ne hne, Fs.dirs, kids_of_ge (by rw [h.used])]; rfl
    have hthere : ∀ d, fs.cwd ≠ ix d → r.fs.dirs d = fs.dirs d := by
      intro d hd
      have hdcur : d ≠ t.pos.cur := by rintro rfl; exact hd h.cwd
      rw [hdirs, addEntry_of_ne hdcur]
    exact
      { created := fun _ _ =>
          ⟨t.pos.cur, ⟨t.used, hu⟩, h.cwd, hfresh, hhere, hleaf, hempty hs _ h.used.symm⟩
        removed := fun he => absurd he hrm
        unchanged := fun hno => absurd ⟨hcmd.imp_right Or.inl, hs⟩ hno
        frame := hthere }
  · rw [← hsnd] at hs
    rw [← hfst, ← href.dirs, ← h.dirs] at hdirs
    exact
      { created := fun _ ht => absurd (hs.symm.trans ht) (by decide)
        removed := fun he => absurd he hrm
        unchanged := fun _ => hdirs
        frame := fun d _ => by rw [hdirs] }

theorem effect_of_rm (h : Refines fs t) {args : Str} {r : FsResult} {t' : FsTree} (href : Refines r.fs t')
    (hexec : (t', r.save) = t.rm (firstToken args)) : Effect fs .rm args r := by
  have hfst : t' = (t.rm (firstToken args)).1 := congrArg Prod.fst hexec
  have hsnd : r.save = (t.rm (firstToken args)).2 := congrArg Prod.snd hexec
  rcases t.rm_effect (firstToken args) with ⟨hs, hdirs, e, he, hfile⟩ | ⟨hs, hdirs⟩
  · rw [← hsnd] at hs
    rw [← hfst, ← href.dirs] at hdirs
    obtain ⟨l₁, l₂, hsplit, hdel⟩ := deleteName_split (h.names _) he
    rw [← h.dirs] at hsplit
    rw [← hdirs] at hdel
    have hthere : ∀ d, fs.cwd ≠ ix d → r.fs.dirs d = fs.dirs d := by
      intro d hd
      have hdcur : d ≠ t.pos.cur := by rintro rfl; exact hd h.cwd
      rw [hdirs, deleteName_of_ne hdcur, h.dirs]
    exact
      { created := by rintro (hc | hc) <;> cases hc
        removed := fun _ _ =>
          ⟨t.pos.cur, l₁, e, l₂, h.cwd, (lookup_some he).2, hfile, hsplit, hdel⟩
        unchanged := fun hno => absurd ⟨Or.inr (Or.inr rfl), hs⟩ hno
        frame := hthere }
  · rw [← hsnd] at hs
    rw [← hfst, ← href.dirs, ← h.dirs] at hdirs
    exact
      { created := by rintro (hc | hc) <;> cases hc
        removed := fun _ ht => absurd (hs.symm.trans ht) (by decide)
        unchanged := fun _ => hdirs
        frame := fun d _ => by rw [hdirs] }

/-- A command that only looks, or moves. -/
theorem effect_of_same {cmd : FsCmd} {args : Str} {r : FsResult}
    (hcmd : ¬ (cmd = .mkdir ∨ cmd = .touch ∨ cmd = .rm)) (hdirs : r.fs.dirs = fs.dirs) : Effect fs cmd args r :=
  { created := fun he _ => absurd (he.imp_right Or.inl) hcmd
    removed := fun he _ => absurd (Or.inr (Or.inr he)) hcmd
    unchanged := fun _ => hdirs
    frame := fun d _ => by rw [hdirs] }

theorem exec_effect (h : Refines fs t) {cmd : FsCmd} {args : Str} {r : FsResult}
    (hr : cmd.exec fs args = some r) : Effect fs cmd args r := by
  obtain ⟨r', hr', href, hs⟩ := exec_refines h cmd args
  obtain rfl : r = r' := Option.some.inj (hr.symm.trans hr')
  have hpair (hne : cmd ≠ .cd) : ((t.exec cmd args).1, r.save) = t.exec cmd args := by rw [hs hne]
  cases cmd with
  | mkdir =>
    exact effect_of_create h (Or.inl rfl) href (hpair (by decide)) fun hsave k => fsCreate_empty h hr hsave
  | touch =>
    exact effect_of_create h (Or.inr rfl) href (hpair (by decide)) fun hsave k => fsCreate_empty h hr hsave
  | rm => exact effect_of_rm h href (hpair (by decide))
  | cd => exact effect_of_same (by decide) (by rw [href.dirs, h.dirs]; exact t.dirs_cd args)
  | ls => exact effect_of_same (by decide) (by rw [href.dirs, h.dirs]; rfl)
  | cat => exact effect_of_same (by decide) (by rw [href.dirs, h.dirs]; rfl)
  | pwd => exact effect_of_same (by decide) (by rw [href.dirs, h.dirs]; rfl)

/-- A directory stays in the tree. -/
theorem FsTree.exec_keeps_dir (hn : ∀ d, Names GoodName (t.dirs d)) (cmd : FsCmd) (args : Str)
    {e : Entry Str (Fin 64)} (he : e ∈ t.dirs d) (hdir : e.isDir = true) : e ∈ (t.exec cmd args).1.dirs d := by
  have hcreate (isDir : Bool) (name : Str) : e ∈ (t.create isDir name).1.dirs d := by
    rcases t.create_effect isDir name with ⟨-, hu, h⟩ | ⟨-, h⟩
    · rw [h]; exact mem_addEntry_of_mem he _
    · rw [h]; exact he
  cases cmd with
  | mkdir => exact hcreate _ _
  | touch => exact hcreate _ _
  | rm =>
    rcases t.rm_effect (firstToken args) with ⟨-, h, c, hc, hfile⟩ | ⟨-, h⟩
    · simp only [FsTree.exec, h]
      exact mem_deleteName_of_dir (hn _) hc hfile he hdir
    · simp only [FsTree.exec, h]; exact he
  | cd => simp only [FsTree.exec, t.dirs_cd]; exact he
  | ls => exact he
  | cat => exact he
  | pwd => exact he

theorem reach_of_keeps {fs' : Fs} (h : fs.WellFormed) (h' : fs'.WellFormed)
    (hkeep : ∀ x, ∀ e ∈ fs.dirs x, e.isDir = true → e ∈ fs'.dirs x) (hr : Reach fs.kids 0 d)
    (hdir : (fs.pool d).type = fsDir) : Reach fs'.kids 0 d ∧ (fs'.pool d).type = fsDir := by
  induction hr with
  | refl => exact ⟨.refl, h'.rootDir⟩
  | @tail x y _ hxy ih =>
    -- the owner is a directory, so it is still there, and so is its entry for `y`
    obtain ⟨hx, -⟩ := ih (h.owner_dir hxy)
    have hmem := hkeep x (fs.entryOf y) (mem_dirs.2 ⟨hxy, rfl⟩) (by simp [Fs.entryOf, hdir])
    obtain ⟨hy, he⟩ := mem_dirs.1 hmem
    have htype := congrArg Entry.isDir he
    exact ⟨hx.tail hy, by simpa [Fs.entryOf, hdir] using htype⟩

/-- What is seen of another directory: its entries, by `ls` and by name. -/
theorem exec_frame (h : Refines fs t) {cmd : FsCmd} {args : Str} {r : FsResult}
    (hr : cmd.exec fs args = some r) (hd : Reach fs.kids 0 d) (hdir : (fs.pool d).type = fsDir)
    (hcwd : fs.cwd ≠ ix d) :
    lsAt r.fs d = lsAt fs d ∧ ∀ name, nodeFindChild r.fs (ix d) name = nodeFindChild fs (ix d) name := by
  obtain ⟨r', hr', href, -⟩ := exec_refines h cmd args
  obtain rfl : r = r' := Option.some.inj (hr.symm.trans hr')
  have hkeep : ∀ x, ∀ e ∈ fs.dirs x, e.isDir = true → e ∈ r.fs.dirs x := by
    intro x e he hedir
    rw [h.dirs] at he
    rw [href.dirs]
    exact FsTree.exec_keeps_dir h.names cmd args he hedir
  obtain ⟨hd', hdir'⟩ := reach_of_keeps h.wf href.wf hkeep hd hdir
  have hsame := (exec_effect h hr).frame d hcwd
  refine ⟨?_, nodeFindChild_congr h.wf href.wf (h.wf.reach_used hd) (href.wf.reach_used hd') hsame⟩
  rw [lsAt_eq href.wf hd' hdir', lsAt_eq h.wf hd hdir, hsame]

/-- **The pool refines a directory tree.** After any sequence of commands from `fs_init`,
the pool holds the tree that the same sequence builds, with distinct, non-empty names of
at most 63 characters; one more command is one more step of the tree, changes the
directories as `Effect` says, and changes nothing that `ls` or a lookup sees of another
directory. -/
theorem tree_refinement (cmds : List (FsCmd × Str)) (cmd : FsCmd) (args : Str) :
    ∃ fs r, fsInit.bind (·.run cmds) = some fs ∧ cmd.exec fs args = some r ∧
      Refines fs (FsTree.init.run cmds) ∧ Refines r.fs ((FsTree.init.run cmds).exec cmd args).1 ∧
      (∀ d, Names GoodName (fs.dirs d)) ∧
      (∀ d, Reach fs.kids 0 d → (fs.pool d).type = fsDir → lsAt fs d = some (listing (fs.dirs d))) ∧
      Effect fs cmd args r ∧
      ∀ d, Reach fs.kids 0 d → (fs.pool d).type = fsDir → fs.cwd ≠ ix d →
        lsAt r.fs d = lsAt fs d ∧ ∀ name, nodeFindChild r.fs (ix d) name = nodeFindChild fs (ix d) name := by
  obtain ⟨fs₀, h₀, href₀⟩ := fsInit_refines
  obtain ⟨fs, hrun, href⟩ := run_refines href₀ cmds
  obtain ⟨r, hr, hstep, -⟩ := exec_refines href cmd args
  have hrun' : fsInit.bind (·.run cmds) = some fs := by rw [h₀]; exact hrun
  have hnames : ∀ d, Names GoodName (fs.dirs d) := by rw [href.dirs]; exact href.names
  have heffect := exec_effect href hr
  exact ⟨fs, r, hrun', hr, href, hstep, hnames, fun d hd hdir => lsAt_eq href.wf hd hdir, heffect,
    fun d hd hdir hcwd => exec_frame href hr hd hdir hcwd⟩

end DahleOS
