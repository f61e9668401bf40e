import DahleOS.Proof.CdResolver

/-!
# Canonical paths

A name with a slash in it can be created but not entered, and so can `.` and `..`. What
was entered once has a path of *clean* names, and stays where it is: directories are
never removed, and no later entry of a directory has the name of an earlier one.

* `run_clean`: the current directory is always reached by clean names.
* `canonical_path_cd`: the path of a directory that was once the current one leads back
  to it for good.
-/

namespace DahleOS

open CArray Forest DirTree

/-- A name that `cd` reads as one component. -/
def CleanName (s : Str) : Prop := s ≠ [] ∧ s ≠ str "." ∧ s ≠ str ".." ∧ slash ∉ s ∧ s.length ≤ 63

instance : DecidablePred CleanName := fun _ => inferInstanceAs (Decidable (_ ∧ _))

theorem component_clean {s : Str} (h : CleanName s) : component s = .child s := by
  rw [component, if_neg (not_or.2 ⟨h.1, h.2.1⟩), if_neg h.2.2.1]

/-! ## What can be entered -/

/-- A piece is not empty, has no slash, and is short. -/
theorem mem_pieces {c : Str} : ∀ {path : Str}, c ∈ pieces path → c ≠ [] ∧ slash ∉ c ∧ c.length ≤ 63 := by
  intro path
  refine rounds_induction (P := fun _ path => c ∈ pieces path → c ≠ [] ∧ slash ∉ c ∧ c.length ≤ 63) ?_ ?_ path.length
    path le_rfl
  · intro _ hc
    simp [pieces, chunks] at hc
  · intro _ ch path ih hc
    rw [(pieces_next (List.cons_ne_nil ch path)).1, List.mem_append] at hc
    rcases hc with hc | hc
    · split_ifs at hc with hnil
      · cases hc
      obtain rfl := List.mem_singleton.1 hc
      refine ⟨hnil, ?_, by simp [nextComponent]⟩
      intro hmem
      have hword := List.mem_takeWhile_imp (List.mem_of_mem_take hmem)
      simp at hword
    · exact ih hc

theorem clean_of_piece {path name : Str} (h : Component.child name ∈ (pieces path).map component) : CleanName name := by
  obtain ⟨c, hc, heq⟩ := List.mem_map.1 h
  obtain ⟨hne, hslash, hlen⟩ := mem_pieces hc
  unfold component at heq
  split_ifs at heq with hdot hup
  cases heq
  exact ⟨hne, fun h => hdot (Or.inr h), hup, hslash, hlen⟩

variable {t : FsTree} {fs : Fs} {d : Fin 64} {names : List Str}

/-- The current directory is reached by clean names. -/
def FsTree.Clean (t : FsTree) : Prop := Chain (keep CleanName t.dirs) 0 t.pos.cur t.pos.above

theorem FsTree.Clean.cd (h : t.Clean) (path : Str) : (t.cd path).Clean := by
  have hroot : Chain (keep CleanName t.dirs) 0 (0 : Fin 64) [] := rfl
  by_cases hne : path = []
  · subst hne
    exact hroot
  rw [(t.cd_eq hne).1]
  unfold FsTree.Clean
  cases hq : t.resolvePieces path with
  | none => exact h
  | some q =>
    have horigin : Chain (keep CleanName t.dirs) 0 (t.origin path).cur (t.origin path).above := by
      unfold FsTree.origin
      split_ifs
      · exact hroot
      · exact h
    exact Chain.walk (fun _ => clean_of_piece) hq horigin

/-- **One command.** -/
theorem FsTree.Clean.exec (hn : ∀ d, Names GoodName (t.dirs d)) (h : t.Clean) (cmd : FsCmd) (args : Str) :
    (t.exec cmd args).1.Clean := by
  have hmono (hpos : (t.exec cmd args).1.pos = t.pos) : (t.exec cmd args).1.Clean := by
    unfold FsTree.Clean
    rw [hpos]
    refine Chain.mono ?_ h
    intro d e he hdir
    obtain ⟨he, hclean⟩ := mem_keep.1 he
    exact mem_keep.2 ⟨FsTree.exec_keeps_dir hn cmd args he hdir, hclean⟩
  have hcreate (isDir : Bool) (name : Str) : (t.create isDir name).1.pos = t.pos := by
    unfold FsTree.create
    split_ifs <;> rfl
  cases cmd with
  | mkdir => exact hmono (hcreate _ _)
  | touch => exact hmono (hcreate _ _)
  | rm =>
    refine hmono ?_
    unfold FsTree.exec FsTree.rm
    dsimp only
    split
    · split_ifs <;> rfl
    · rfl
  | cd => exact h.cd args
  | ls => exact h
  | cat => exact h
  | pwd => exact h

/-- **Along a run** the current directory is reached by clean names, and no directory is
lost. -/
theorem run_clean (href : Refines fs t) (h : t.Clean) (cmds : List (FsCmd × Str)) :
    (t.run cmds).Clean ∧ ∀ d, ∀ e ∈ t.dirs d, e.isDir = true → e ∈ (t.run cmds).dirs d := by
  induction cmds generalizing fs t with
  | nil => exact ⟨h, fun _ _ he _ => he⟩
  | cons c cmds ih =>
    obtain ⟨cmd, args⟩ := c
    obtain ⟨r, -, href', -⟩ := exec_refines href cmd args
    obtain ⟨hclean, hkeep⟩ := ih href' (h.exec href.names cmd args)
    exact ⟨hclean, fun d e he hdir => hkeep d e (FsTree.exec_keeps_dir href.names cmd args he hdir) hdir⟩

/-! ## The path of a directory -/

/-- The stored names on the way from the root, found by climbing the parent fields. -/
inductive PathTo (fs : Fs) : Int32 → List Str → Prop
  | root : PathTo fs 0 []
  | child {i : Int32} {nd : FsNode} {s : Str} {names : List Str} : i ≠ 0 → fs.node i = some nd →
    cstr nd.name = some s → PathTo fs nd.parent names → PathTo fs i (names ++ [s])

/-- The absolute path made of them. -/
def absPath (names : List Str) : Str := slash :: [slash].intercalate names

theorem PathTo.unique {i : Int32} {names' : List Str} (h : PathTo fs i names) (h' : PathTo fs i names') :
    names' = names := by
  induction h generalizing names' with
  | root =>
    generalize hi : (0 : Int32) = i at h'
    cases h' with
    | root => rfl
    | child hne _ _ _ => exact absurd hi.symm hne
  | child hne hnode hname _ ih =>
    cases h' with
    | root => exact absurd rfl hne
    | child _ hnode' hname' hpath =>
      rw [hnode, Option.some.injEq] at hnode'
      subst hnode'
      rw [hname, Option.some.injEq] at hname'
      rw [ih hpath, hname']

/-- What leads to a directory in the tree is its path in the pool. -/
theorem pathTo_of_leads (h : fs.WellFormed) (hl : Leads fs.dirs 0 names d) : PathTo fs (ix d) names := by
  induction hl with
  | root => exact .root
  | @down ns d e _ he _ ih =>
    obtain ⟨hkid, hentry⟩ := mem_dirs.1 he
    obtain ⟨hlt, hused, hparent⟩ := h.of_mem_kids hkid
    have hname : cstr (fs.pool e.node).name = some e.name := by
      rw [h.cstr_name hused]
      exact congrArg (some ∘ Entry.name) hentry
    have hne : ix e.node ≠ 0 := by
      rw [← ix_zero, ne_eq, ix_inj]
      rintro h0
      rw [h0] at hlt
      exact absurd hlt (Nat.not_lt_zero _)
    exact .child hne (node_ix fs _) hname (hparent ▸ ih)

/-- The components of an absolute path of clean names. -/
theorem splitOn_absPath (hclean : ∀ n ∈ names, CleanName n) :
    (absPath names).splitOn slash = [] :: if names = [] then [[]] else names := by
  have hsplit := splitOn_next (w := []) (by simp) ([slash].intercalate names)
  rw [List.nil_append] at hsplit
  rw [absPath, hsplit]
  by_cases hnil : names = []
  · rw [if_pos hnil, hnil]
    rfl
  · rw [if_neg hnil, List.splitOn_intercalate slash (fun n hn => (hclean n hn).2.2.2.1) hnil]

theorem resolve_absPath (hn : ∀ d, Names GoodName (t.dirs d)) (hclean : ∀ n ∈ names, CleanName n)
    (hl : Leads t.dirs 0 names d) : ∃ q, t.resolvePieces (absPath names) = some q ∧ q.cur = d := by
  have hsplit := splitOn_absPath hclean
  have hshort : ∀ c ∈ (absPath names).splitOn slash, c.length ≤ 63 := by
    rw [hsplit]
    intro c hc
    rcases List.mem_cons.1 hc with rfl | hc
    · exact Nat.zero_le _
    split_ifs at hc
    · rw [List.mem_singleton.1 hc]
      exact Nat.zero_le _
    · exact (hclean c hc).2.2.2.2
  obtain ⟨q, hq, hcur⟩ := hl.walk hn
  refine ⟨q, ?_, hcur⟩
  have habsolute : (absPath names).head? = some slash := rfl
  rw [t.resolvePieces_short hshort, FsTree.resolve, hsplit, FsTree.origin, if_pos habsolute, ← hq]
  by_cases hnil : names = []
  · subst hnil
    rfl
  · have hmap : names.map component = names.map .child :=
      List.map_congr_left fun n hmem => component_clean (hclean n hmem)
    rw [if_neg hnil, List.map_cons, hmap]
    rfl

/-- **Canonical paths are for good.** A directory that was the current one after some
commands has one path, and after any further commands that path is its path still, and
`cd` to it succeeds and makes it the current directory. -/
theorem canonical_path_cd (before after : List (FsCmd × Str)) :
    ∃ fs fs', fsInit.bind (·.run before) = some fs ∧ fs.run after = some fs' ∧
      (∃ names, PathTo fs fs.cwd names ∧ PathTo fs' fs.cwd names) ∧
      ∀ names, PathTo fs' fs.cwd names → ∃ r, fsCmdCd fs' (absPath names) = some r ∧ r.msg = none ∧
        r.fs = { fs' with cwd := fs.cwd } := by
  obtain ⟨fs₀, h₀, href₀⟩ := fsInit_refines
  obtain ⟨fs, hrun, href⟩ := run_refines href₀ before
  obtain ⟨fs', hrun', href'⟩ := run_refines href after
  have hclean : (FsTree.init.run before).Clean := (run_clean href₀ rfl before).1
  have hkeep := (run_clean href hclean after).2
  generalize FsTree.init.run before = t at href href' hclean hkeep
  generalize t.run after = t' at href' hkeep
  obtain ⟨names, -, hnames, hleads⟩ := Chain.leads hclean
  have hleads' : Leads t'.dirs 0 names t.pos.cur := hleads.mono hkeep
  have hpath : PathTo fs fs.cwd names := by
    rw [href.cwd]
    exact pathTo_of_leads href.wf (by rw [href.dirs]; exact hleads)
  have hpath' : PathTo fs' fs.cwd names := by
    rw [href.cwd]
    exact pathTo_of_leads href'.wf (by rw [href'.dirs]; exact hleads')
  refine ⟨fs, fs', by rw [h₀]; exact hrun, hrun', ⟨names, hpath, hpath'⟩, ?_⟩
  intro names' h'
  obtain rfl := hpath'.unique h'
  obtain ⟨q, hq, hcur⟩ := resolve_absPath href'.names hnames hleads'
  obtain ⟨r, hr, heq, hmsg⟩ := fsCmdCd_eq href' (List.cons_ne_nil slash ([slash].intercalate names'))
  have hq : t'.resolvePieces (slash :: [slash].intercalate names') = some q := hq
  rw [hq] at heq hmsg
  exact ⟨r, hr, hmsg rfl, by rw [heq, href.cwd, Option.getD_some, hcur]⟩

end DahleOS
