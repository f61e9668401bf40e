import DahleOS.Proof.CanonicalPath

/-!
# The path that is shown

`fs_pwd_str` climbs to the root with a stack of 32 nodes, and then writes the names it
passed into a buffer of 512 bytes.

* `pwdWalk_path`, `fsPwdStr_path`: the names of the 32 innermost directories, and 510
  characters of them.
* `pwd_path`: so it is after any commands, and the path is complete when it fits.
-/

namespace DahleOS

open CArray Forest DirTree

variable {fs : Fs} {names : List Str}

/-! ## The buffer -/

/-- Names, each behind a slash. -/
def slashed (names : List Str) : Str := names.flatMap (slash :: ·)

theorem slashed_append (names names' : List Str) : slashed (names ++ names') = slashed names ++ slashed names' :=
  List.flatMap_append

theorem absPath_eq : absPath names = if names = [] then [slash] else slashed names := by
  cases names with
  | nil => rfl
  | cons n names =>
    rw [if_neg (List.cons_ne_nil n names)]
    induction names generalizing n with
    | nil => simp [absPath, slashed]
    | cons m names ih =>
      have hrest := ih m
      rw [absPath, List.intercalate_cons_cons] at *
      rw [← List.singleton_append, slashed, List.flatMap_cons]
      rw [slashed] at hrest
      rw [← hrest]
      simp

/-- One more name in the buffer. -/
theorem pwdPush_take {i : Int32} {nd : FsNode} {s : Str} (hnode : fs.node i = some nd) (hname : cstr nd.name = some s)
    (path : Str) : pwdPush fs (path.take 510) i = some ((path ++ slashed [s]).take 510) := by
  have hslashed : slashed [s] = slash :: s := by simp [slashed]
  rw [pwdPush, hnode, hslashed]
  simp only [Option.bind_eq_bind, Option.bind_some, hname]
  rw [Option.pure_def, Option.some.injEq]
  by_cases hl : path.length < 510
  · rw [List.take_of_length_le hl.le, if_pos hl, List.take_append, List.take_of_length_le hl.le, List.append_assoc,
      List.singleton_append, List.length_append, List.length_singleton]
    obtain ⟨room, hroom⟩ : ∃ room, 510 - path.length = room + 1 := ⟨510 - path.length - 1, by omega⟩
    rw [hroom, List.take_succ_cons]
    congr 3
    omega
  · -- the buffer is full
    have hfull : (path.take 510).length = 510 := by
      rw [List.length_take]
      omega
    rw [if_neg (by omega), hfull, Nat.sub_self, List.take_zero, List.append_nil,
      List.take_append_of_le_length (by omega)]

/-! ## The stack -/

/-- **The stack holds the innermost directories**, as many as it has room for. -/
theorem pwdWalk_path {i : Int32} (h : PathTo fs i names) : ∀ room, ∃ stack, pwdWalk fs room i = some stack ∧
    stack.length ≤ room ∧ ∀ path : Str, stack.reverse.foldlM (pwdPush fs) (path.take 510) =
      some ((path ++ slashed (names.drop (names.length - room))).take 510) := by
  induction h with
  | root =>
    intro room
    refine ⟨[], by cases room <;> rfl, Nat.zero_le _, ?_⟩
    intro path
    simp [slashed]
  | @child i nd s names hne hnode hname _ ih =>
    intro room
    cases room with
    | zero =>
      refine ⟨[], rfl, le_rfl, ?_⟩
      intro path
      simp [slashed]
    | succ room =>
      obtain ⟨stack, hstack, hlen, hpush⟩ := ih room
      refine ⟨i :: stack, by simp [pwdWalk, hne, hnode, hstack], Nat.succ_le_succ hlen, ?_⟩
      intro path
      have hdrop : (names ++ [s]).drop ((names ++ [s]).length - (room + 1)) =
          names.drop (names.length - room) ++ [s] := by
        rw [List.length_append, List.length_singleton, Nat.add_sub_add_right,
          List.drop_append_of_le_length (Nat.sub_le _ _)]
      rw [List.reverse_cons, List.foldlM_append, hpush, hdrop, slashed_append, ← List.append_assoc,
        ← pwdPush_take hnode hname]
      simp

theorem PathTo.ne_nil {i : Int32} (h : PathTo fs i names) (h0 : i ≠ 0) : names ≠ [] := by
  cases h with
  | root => exact absurd rfl h0
  | child _ _ _ _ => exact List.append_ne_nil_of_right_ne_nil _ (List.cons_ne_nil _ _)

/-- What `fs_pwd_str` keeps of a path. -/
def shownPath (names : List Str) : Str := (absPath (names.drop (names.length - 32))).take 510

theorem fsPwdStr_path (h : PathTo fs fs.cwd names) : fsPwdStr fs = some (shownPath names) := by
  unfold fsPwdStr shownPath
  by_cases h0 : fs.cwd = 0
  · rw [if_pos h0]
    rw [h0] at h
    rw [PathTo.unique .root h]
    rfl
  · obtain ⟨stack, hstack, -, hpush⟩ := pwdWalk_path h 32
    have hpos := List.length_pos_iff.2 (h.ne_nil h0)
    have hne : names.drop (names.length - 32) ≠ [] := by
      rw [ne_eq, List.drop_eq_nil_iff]
      omega
    have hfold := hpush []
    rw [List.take_nil, List.nil_append] at hfold
    rw [if_neg h0, hstack, absPath_eq, if_neg hne]
    exact hfold

/-! ## Completeness -/

theorem length_slashed_drop (k : ℕ) :
    (slashed (names.drop k)).length + min k names.length ≤ (slashed names).length := by
  have hsplit : slashed names = slashed (names.take k) ++ slashed (names.drop k) := by
    rw [← slashed_append, List.take_append_drop]
  have htake (l : List Str) : l.length ≤ (slashed l).length := by
    induction l with
    | nil => exact le_rfl
    | cons n l ih =>
      have : slashed (n :: l) = slash :: n ++ slashed l := rfl
      rw [this, List.length_append, List.length_cons, List.length_cons]
      omega
  have hl := htake (names.take k)
  rw [List.length_take] at hl
  rw [hsplit, List.length_append]
  omega

/-- **What is shown is the path when the stack and the buffer hold all of it.** -/
theorem shownPath_eq : shownPath names = absPath names ↔ names.length ≤ 32 ∧ (absPath names).length ≤ 510 := by
  unfold shownPath
  constructor
  · intro heq
    have hlen := congrArg List.length heq
    rw [List.length_take] at hlen
    refine ⟨?_, by omega⟩
    -- a name that is dropped is missed
    by_contra hdeep
    have hdrop : _ ≤ (slashed names).length := length_slashed_drop (names.length - 32)
    have hne : names ≠ [] := by
      rintro rfl
      exact hdeep (Nat.zero_le _)
    have hne' : names.drop (names.length - 32) ≠ [] := by
      rw [ne_eq, List.drop_eq_nil_iff]
      omega
    rw [absPath_eq, absPath_eq, if_neg hne, if_neg hne'] at hlen
    omega
  · rintro ⟨hdeep, hlong⟩
    rw [Nat.sub_eq_zero_of_le hdeep, List.drop_zero, List.take_of_length_le hlong]

/-- The current directory has a path. -/
theorem run_pathTo (cmds : List (FsCmd × Str)) : ∃ fs names, fsInit.bind (·.run cmds) = some fs ∧
    PathTo fs fs.cwd names ∧ names.length = (FsTree.init.run cmds).pos.above.length := by
  obtain ⟨fs₀, h₀, href₀⟩ := fsInit_refines
  obtain ⟨fs, hrun, href⟩ := run_refines href₀ cmds
  have hclean : (FsTree.init.run cmds).Clean := (run_clean href₀ rfl cmds).1
  obtain ⟨names, hlen, -, hleads⟩ := Chain.leads hclean
  refine ⟨fs, names, by rw [h₀]; exact hrun, ?_, hlen⟩
  rw [href.cwd]
  exact pathTo_of_leads href.wf (by rw [href.dirs]; exact hleads)

/-- **What `pwd` shows.** After any commands the current directory has one path;
`fs_pwd_str` returns, in at most 510 characters, the path of its 32 innermost names, and
this is the whole path when there are no more names than 32 and no more characters than 510. -/
theorem pwd_path (cmds : List (FsCmd × Str)) : ∃ fs names stack p, fsInit.bind (·.run cmds) = some fs ∧
    PathTo fs fs.cwd names ∧ pwdWalk fs 32 fs.cwd = some stack ∧ stack.length ≤ 32 ∧
    fsPwdStr fs = some p ∧ p.length ≤ 510 ∧
    p = (absPath (names.drop (names.length - 32))).take 510 ∧
    (p = absPath names ↔ names.length ≤ 32 ∧ (absPath names).length ≤ 510) := by
  obtain ⟨fs, names, hrun, hpath, -⟩ := run_pathTo cmds
  obtain ⟨stack, hstack, hlen, -⟩ := pwdWalk_path hpath 32
  refine ⟨fs, names, stack, shownPath names, hrun, hpath, hstack, hlen, fsPwdStr_path hpath, ?_, rfl, shownPath_eq⟩
  exact List.length_take_le _ _

/-- Into a new directory, again and again. -/
def digDown (n : ℕ) : List (FsCmd × Str) := (List.replicate n [(FsCmd.mkdir, str "a"), (.cd, str "a")]).flatten

/-- **33 directories down, the outermost name is missing.** -/
theorem pwd_cut : ∃ fs names p, fsInit.bind (·.run (digDown 33)) = some fs ∧ PathTo fs fs.cwd names ∧
    fsPwdStr fs = some p ∧ p ≠ absPath names := by
  obtain ⟨fs, names, hrun, hpath, hlen⟩ := run_pathTo (digDown 33)
  have hdeep : (FsTree.init.run (digDown 33)).pos.above.length = 33 := by decide +kernel
  refine ⟨fs, names, _, hrun, hpath, fsPwdStr_path hpath, ?_⟩
  intro heq
  have := (shownPath_eq.1 heq).1
  omega

end DahleOS
