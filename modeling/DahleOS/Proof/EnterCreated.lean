import DahleOS.Proof.CanonicalPath

/-!
# Entering what was created

`mkdir` takes the first word of its argument, `cd` takes all of it and reads it as a path.
The two agree on an argument that is one clean word.

* `FsTree.Words`: no name has a space in it, whatever was run.
* `cd_created`: when `cd` enters what `mkdir` created from the same argument.
-/

namespace DahleOS

open CArray Forest DirTree

variable {t : FsTree} {fs : Fs} {path args : Str}

/-! ## Words -/

theorem space_firstToken (args : Str) : sp ∉ firstToken args := by
  intro h
  have := List.mem_takeWhile_imp (List.mem_of_mem_take h)
  simp at this

/-- No name in the tree has a space in it. -/
def FsTree.Words (t : FsTree) : Prop := ∀ d, ∀ e ∈ t.dirs d, sp ∉ e.name

theorem FsTree.Words.create (h : t.Words) (isDir : Bool) (args : Str) :
    (t.create isDir (firstToken args)).1.Words := by
  intro d e he
  rcases t.create_effect isDir (firstToken args) with ⟨-, hu, hdirs⟩ | ⟨-, hdirs⟩
  · rw [hdirs] at he
    by_cases hd : d = t.pos.cur
    · subst hd
      rw [addEntry, Function.update_self, List.mem_append, List.mem_singleton] at he
      rcases he with he | rfl
      · exact h _ e he
      · exact space_firstToken args
    · rw [addEntry_of_ne hd] at he
      exact h d e he
  · rw [hdirs] at he
    exact h d e he

theorem FsTree.Words.rm (h : t.Words) (name : Str) : (t.rm name).1.Words := by
  intro d e he
  rcases t.rm_effect name with ⟨-, hdirs, -⟩ | ⟨-, hdirs⟩
  · rw [hdirs] at he
    by_cases hd : d = t.pos.cur
    · subst hd
      rw [deleteName, Function.update_self] at he
      exact h _ e (List.mem_of_mem_filter he)
    · rw [deleteName_of_ne hd] at he
      exact h d e he
  · rw [hdirs] at he
    exact h d e he

theorem FsTree.Words.exec (h : t.Words) (cmd : FsCmd) (args : Str) : (t.exec cmd args).1.Words := by
  cases cmd with
  | mkdir => exact h.create true args
  | touch => exact h.create false args
  | rm => exact h.rm _
  | cd =>
    intro d e he
    simp only [FsTree.exec, FsTree.dirs_cd] at he
    exact h d e he
  | ls => exact h
  | cat => exact h
  | pwd => exact h

theorem run_words (h : t.Words) (cmds : List (FsCmd × Str)) : (t.run cmds).Words := by
  induction cmds generalizing t with
  | nil => exact h
  | cons c cmds ih => exact ih (h.exec c.1 c.2)

theorem init_words : FsTree.init.Words :=
  ((show (⟨fun _ => [], ⟨0, []⟩, 1⟩ : FsTree).Words from fun _ _ he => by cases he).create true (str "home")).create
    true (str "tmp")

/-! ## A path with a space -/

theorem chunks_flatten {α : Type} (n : ℕ) (l : List α) : (chunks n l).flatten = l := by
  induction l using chunks.induct n with
  | case1 => simp [chunks]
  | case2 a l ih => rw [chunks, List.flatten_cons, ih, List.cons_append, List.take_append_drop]

/-- Every character but the slashes is in a piece. -/
theorem exists_piece {ch : Ch} (hch : ch ≠ slash) : ∀ {path : Str}, ch ∈ path → ∃ c ∈ pieces path, ch ∈ c := by
  intro path
  induction hn : path.length using Nat.strong_induction_on generalizing path with
  | _ n ih =>
    intro hmem
    obtain ⟨w, tail, rfl, hw, ht⟩ := split_path path
    have hword (h : ch ∈ w) : ∃ c ∈ chunks 62 w, ch ∈ c := by
      rw [← chunks_flatten 62 w, List.mem_flatten] at h
      exact h
    rcases ht with rfl | ⟨rest, rfl⟩
    · rw [List.append_nil] at hmem ⊢
      obtain ⟨c, hc, hin⟩ := hword hmem
      refine ⟨c, ?_, hin⟩
      rw [pieces, splitOn_last hw]
      simpa using hc
    · have hpieces : pieces (w ++ slash :: rest) = chunks 62 w ++ pieces rest := by
        rw [pieces, splitOn_next hw]
        rfl
      rw [hpieces]
      rcases List.mem_append.1 hmem with h | h
      · obtain ⟨c, hc, hin⟩ := hword h
        exact ⟨c, List.mem_append_left _ hc, hin⟩
      · have hrest := List.mem_of_ne_of_mem hch h
        obtain ⟨c, hc, hin⟩ := ih rest.length (by rw [← hn, List.length_append, List.length_cons]; omega) rfl hrest
        exact ⟨c, List.mem_append_right _ hc, hin⟩

/-- A path with a space in it leads nowhere. -/
theorem FsTree.resolvePieces_space (hn : ∀ d, Names GoodName (t.dirs d)) (hw : t.Words) (hsp : sp ∈ path) :
    t.resolvePieces path = none := by
  have hne : sp ≠ slash := by decide
  obtain ⟨c, hc, hin⟩ := exists_piece hne hsp
  have hchild : component c = .child c := by
    have h0 : c ≠ [] := (mem_pieces hc).1
    have h1 : c ≠ str "." := by
      rintro rfl
      exact absurd hin (by decide)
    have h2 : c ≠ str ".." := by
      rintro rfl
      exact absurd hin (by decide)
    rw [component, if_neg (not_or.2 ⟨h0, h1⟩), if_neg h2]
  have hmem : Component.child c ∈ (pieces path).map component := hchild ▸ List.mem_map_of_mem hc
  have hwords : ∀ d, Names (fun s => sp ∉ s) (t.dirs d) := fun d => ⟨(hn d).nodup, hw d⟩
  exact walk_eq_none hwords hmem (not_not.2 hin) _

/-! ## Created, then entered -/

/-- What a successful creation does to the tree. -/
theorem FsTree.create_of_true {isDir : Bool} {name : Str} (h : (t.create isDir name).2 = true) :
    lookup t.dirs t.pos.cur name = none ∧ ∃ hu : t.used < 64, (t.create isDir name).1 =
      { t with
        dirs := addEntry t.dirs t.pos.cur ⟨name, isDir, ⟨t.used, hu⟩⟩
        used := t.used + 1 } := by
  unfold FsTree.create at h ⊢
  by_cases htaken : name = [] ∨ (lookup t.dirs t.pos.cur name).isSome
  · rw [if_pos htaken] at h
    cases h
  rw [if_neg htaken] at h ⊢
  have hnew : lookup t.dirs t.pos.cur name = none := by
    rw [← Option.not_isSome_iff_eq_none]
    exact fun hs => htaken (Or.inr hs)
  by_cases hu : t.used < 64
  · rw [dif_pos hu] at h ⊢
    by_cases hl : (t.dirs t.pos.cur).length < 16
    · rw [if_pos hl]
      exact ⟨hnew, hu, rfl⟩
    · rw [if_neg hl] at h
      cases h
  · rw [dif_neg hu] at h
    cases h

/-- A clean word is the piece it consists of. -/
theorem pieces_clean {name : Str} (h : CleanName name) : pieces name = [name] := by
  rw [pieces, splitOn_last h.2.2.2.1, List.flatMap_cons, chunks_short h.2.2.2.2, if_neg h.1]
  rfl

theorem firstToken_word {args : Str} (hsp : sp ∉ args) (hl : args.length ≤ 63) : firstToken args = args := by
  have hword : args.takeWhile (· ≠ sp) = args := by
    rw [List.takeWhile_eq_self_iff]
    intro ch hch
    simpa using fun h : ch = sp => hsp (h ▸ hch)
  rw [firstToken, word, hword, List.take_of_length_le hl]

/-- A child of a clean name is entered by it. -/
theorem FsTree.resolvePieces_child {name : Str} {e : Entry Str (Fin 64)} (hclean : CleanName name)
    (hl : lookup t.dirs t.pos.cur name = some e) (hdir : e.isDir = true) :
    t.resolvePieces name = some (t.pos.down e.node) := by
  have horigin : t.origin name = t.pos := by
    refine if_neg ?_
    intro hhead
    exact hclean.2.2.2.1 (List.mem_of_mem_head? hhead)
  rw [FsTree.resolvePieces, horigin, pieces_clean hclean, List.map_singleton, component_clean hclean]
  simp only [walk, hl, hdir, if_true]

/-- The current directory has a clean name, whichever directory lists it. -/
theorem FsTree.Clean.name (h : t.Clean) (hcur : t.pos.cur ≠ 0) : ∃ d, ∃ e ∈ t.dirs d, e.node = t.pos.cur ∧
    CleanName e.name := by
  unfold FsTree.Clean at h
  cases habove : t.pos.above with
  | nil =>
    rw [habove] at h
    exact absurd h hcur
  | cons d above =>
    rw [habove] at h
    obtain ⟨⟨e, he, -, hnode⟩, -⟩ := h
    obtain ⟨hmem, hclean⟩ := mem_keep.1 he
    exact ⟨d, e, hmem, hnode, hclean⟩

/-- What `mkdir` made of the tree, when it created a directory. -/
structure FsTree.Made (t t' : FsTree) (name : Str) (k : Fin 64) : Prop where
  new : lookup t.dirs t.pos.cur name = none
  dirs : t'.dirs = addEntry t.dirs t.pos.cur ⟨name, true, k⟩
  pos : t'.pos = t.pos
  node : k.val = t.used

variable {t' : FsTree} {fs' : Fs} {name : Str} {k : Fin 64}

theorem FsTree.made_of_true (h : (t.exec .mkdir args).2 = true) :
    ∃ k, t.Made (t.exec .mkdir args).1 (firstToken args) k := by
  obtain ⟨hnew, hu, hcreate⟩ := FsTree.create_of_true h
  have ht : (t.exec .mkdir args).1 = _ := hcreate
  exact ⟨⟨t.used, hu⟩, { new := hnew, dirs := by rw [ht], pos := by rw [ht], node := rfl }⟩

/-- The node is in use only afterwards. -/
theorem FsTree.Made.cur_ne (h : t.Made t' name k) (href : Refines fs t) : t.pos.cur ≠ k := by
  rintro rfl
  have hused := href.wf.reach_used href.reach
  rw [href.used, h.node] at hused
  exact Nat.lt_irrefl _ hused

theorem FsTree.Made.node_ne_zero (h : t.Made t' name k) (href : Refines fs t) : k ≠ 0 := by
  rintro rfl
  have hpos := href.wf.used_pos
  rw [href.used, ← h.node] at hpos
  exact Nat.lt_irrefl _ hpos

/-- The argument, one clean word, leads to what it created. -/
theorem FsTree.Made.resolve (h : t.Made t' (firstToken args) k) (hargs : CleanName args) (hsp : sp ∉ args) :
    t'.resolvePieces args = some (t'.pos.down k) := by
  have htoken := firstToken_word hsp hargs.2.2.2.2
  have hnew := h.new
  have hlookup : lookup t'.dirs t'.pos.cur args = some ⟨args, true, k⟩ := by
    rw [htoken] at hnew
    rw [h.dirs, h.pos, htoken]
    exact lookup_addEntry (e := ⟨args, true, k⟩) hnew
  exact FsTree.resolvePieces_child hargs hlookup rfl

/-- With a space in it, it leads nowhere. -/
theorem FsTree.Made.space (h : t.Made t' name k) (href : Refines fs t) (hn : ∀ d, Names GoodName (t'.dirs d))
    (hw : t'.Words) (hsp : sp ∈ args) : (t'.cd args).pos.cur ≠ k := by
  have hargs : args ≠ [] := List.ne_nil_of_mem hsp
  rw [(t'.cd_eq hargs).1, FsTree.resolvePieces_space hn hw hsp, Option.getD_none, h.pos]
  exact h.cur_ne href

/-- A node has one entry. -/
theorem Refines.entry_unique (h : Refines fs t) {x y : Fin 64} {e e' : Entry Str (Fin 64)} (he : e ∈ t.dirs x)
    (he' : e' ∈ t.dirs y) (hnode : e.node = e'.node) : e = e' := by
  rw [← h.dirs] at he he'
  rw [← (mem_dirs.1 he).2, ← (mem_dirs.1 he').2, hnode]

/-- The current directory has a clean name, and the only one of the new directory is the
one that it was created with. -/
theorem FsTree.Made.unclean (h : t.Made t' name k) (href : Refines fs t) (href' : Refines fs' t')
    (hclean : (t'.cd args).Clean) (hname : ¬ CleanName name) : (t'.cd args).pos.cur ≠ k := by
  intro hcur
  obtain ⟨x, e, he, hnode, hgood⟩ := hclean.name (by rw [hcur]; exact h.node_ne_zero href)
  rw [FsTree.dirs_cd] at he
  have hmade : (⟨name, true, k⟩ : Entry Str (Fin 64)) ∈ t'.dirs t.pos.cur := by
    rw [h.dirs, addEntry, Function.update_self]
    exact List.mem_append_right _ (List.mem_singleton_self _)
  have heq : e = ⟨name, true, k⟩ := href'.entry_unique he hmade (hnode.trans hcur)
  rw [heq] at hgood
  exact hname hgood

/-- **Entering what was created.** After any commands, let `mkdir` create a directory. It
is named by the first word, cut to 63 characters. If the argument is one word, short
enough, and clean, `cd` with the same argument succeeds and enters that directory; if the
name is not clean, or the argument goes on behind a space, `cd` does not enter it. -/
theorem cd_created (cmds : List (FsCmd × Str)) (args : Str) :
    ∃ fs r r', fsInit.bind (·.run cmds) = some fs ∧ FsCmd.mkdir.exec fs args = some r ∧
      FsCmd.cd.exec r.fs args = some r' ∧
      -- the saving path is the one that creates
      (r.save = true → ∃ d k, fs.cwd = ix d ∧ (∀ x, ∀ e ∈ fs.dirs x, e.node ≠ k) ∧
        r.fs.dirs d = fs.dirs d ++ [⟨firstToken args, true, k⟩] ∧
        (CleanName args → sp ∉ args → r'.msg = none ∧ r'.fs = { r.fs with cwd := ix k }) ∧
        (¬ CleanName (firstToken args) ∨ sp ∈ args → r'.fs.cwd ≠ ix k)) := by
  obtain ⟨fs₀, h₀, href₀⟩ := fsInit_refines
  obtain ⟨fs, hrun, href⟩ := run_refines href₀ cmds
  obtain ⟨r, hr, href₁, hsave⟩ := exec_refines href .mkdir args
  obtain ⟨r', hr', href₂, -⟩ := exec_refines href₁ .cd args
  have hclean := (run_clean href₀ rfl cmds).1
  have hwords := run_words init_words cmds
  have heffect := exec_effect href hr
  generalize FsTree.init.run cmds = t at href href₁ href₂ hsave hclean hwords
  refine ⟨fs, r, r', by rw [h₀]; exact hrun, hr, hr', ?_⟩
  intro hs
  obtain ⟨k, hmade⟩ := FsTree.made_of_true ((hsave (by decide)).symm.trans hs)
  obtain ⟨d, k', hcwd, hfresh, hdirs, -⟩ := heffect.created (Or.inl rfl) hs
  -- the entry is the one of the tree
  obtain rfl : d = t.pos.cur := ix_inj.1 (hcwd.symm.trans href.cwd)
  obtain rfl : k' = k := by
    rw [href₁.dirs, href.dirs, hmade.dirs, addEntry, Function.update_self] at hdirs
    have hentry := List.append_cancel_left hdirs
    simpa using (congrArg (List.map Entry.node) hentry).symm
  refine ⟨_, k', hcwd, hfresh, hdirs, ?_, ?_⟩
  · intro hargs hsp
    obtain ⟨r₂, hr₂, heq, hmsg⟩ := fsCmdCd_eq href₁ hargs.1
    obtain rfl : r' = r₂ := Option.some.inj (hr'.symm.trans hr₂)
    rw [hmade.resolve hargs hsp] at heq hmsg
    exact ⟨hmsg rfl, heq⟩
  · intro hbad hcur
    have hpos : (((t.exec .mkdir args).1).cd args).pos.cur = k' := ix_inj.1 (href₂.cwd.symm.trans hcur)
    by_cases hsp : sp ∈ args
    · exact hmade.space href href₁.names (hwords.exec .mkdir args) hsp hpos
    · have hclean₂ := (hclean.exec href.names .mkdir args).cd args
      exact hmade.unclean href href₁ hclean₂ (hbad.resolve_right hsp) hpos

/-- **`mkdir .` creates a directory that `cd .` does not enter.** -/
theorem cd_not_created : ∃ fs r r', fsInit = some fs ∧ FsCmd.mkdir.exec fs (str ".") = some r ∧
    FsCmd.cd.exec r.fs (str ".") = some r' ∧ r.save = true ∧
    r.fs.dirs 0 = fs.dirs 0 ++ [⟨str ".", true, 3⟩] ∧ r'.fs.cwd ≠ ix 3 := by
  have h : fsInit.any (fun fs => (FsCmd.mkdir.exec fs (str ".")).any fun r =>
      (FsCmd.cd.exec r.fs (str ".")).any fun r' =>
        decide (r.save = true ∧ r.fs.dirs 0 = fs.dirs 0 ++ [⟨str ".", true, 3⟩] ∧ r'.fs.cwd ≠ ix 3)) = true := by
    decide +kernel
  obtain ⟨fs, hfs, h⟩ := (Option.any_eq_true _ _).1 h
  obtain ⟨r, hr, h⟩ := (Option.any_eq_true _ _).1 h
  obtain ⟨r', hr', h⟩ := (Option.any_eq_true _ _).1 h
  exact ⟨fs, r, r', hfs, hr, hr', of_decide_eq_true h⟩

end DahleOS
