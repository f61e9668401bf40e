import DahleOS.Proof.AutoSave
import DahleOS.Proof.FsTree

/-!
# Errors of the filesystem

A call that prints an error changes nothing, with one exception: `mkdir` and `touch`
allocate the node before they look for room in the directory, and do not give it back.

* `FsCall.exec_error`: one call.
* `fs_errors_atomic_iff`: when calls in a row that all print an error change nothing.
* `mkdir_leaks`: each failing `mkdir` in a full directory costs a node, until none is left.
-/

namespace DahleOS

open DirTree

/-- The calls that change the filesystem. The names are as they are passed, of any
length. -/
inductive FsCall
  | mkdir (name : Str)
  | touch (name : Str)
  | rm (name : Str)
  | cd (path : Str)

def FsCall.exec (fs : Fs) : FsCall → Option FsResult
  | mkdir name => fsCmdMkdir fs name
  | touch name => fsCmdTouch fs name
  | rm name => fsCmdRm fs name
  | cd path => fsCmdCd fs path

/-- The message is an error. How a command is used, and what was asked for, are none. -/
def FsMsg.isError : FsMsg → Bool
  | .alreadyExists _ | .filesystemFull _ | .parentFull _ | .noSuchFile _ _ | .isDirectory _ _
  | .noSuchDirectory _ | .notDirectory _ => true
  | .usage _ | .emptyDir | .listing _ | .path _ | .emptyFile | .contents _ => false

/-- The calls that allocate a node which no directory takes. -/
def FsCall.Leaks (fs : Fs) : FsCall → Prop
  | mkdir name | touch name => HalfCreates fs name
  | rm _ | cd _ => False

/-- **A call that prints an error** changes nothing, or leaves one node more in use. -/
theorem FsCall.exec_error {fs : Fs} {c : FsCall} {r : FsResult} (h : c.exec fs = some r)
    (he : r.msg.any FsMsg.isError = true) :
    (r.fs = fs ∧ ¬ c.Leaks fs) ∨ (c.Leaks fs ∧ r.fs.poolUsed.toInt = fs.poolUsed.toInt + 1) := by
  -- what saves prints nothing
  have hsilent (hs : r.save = true ∧ r.msg = none) : False := by
    rw [hs.2] at he
    cases he
  cases c with
  | mkdir name => exact (fsCreate_cases h).resolve_left hsilent
  | touch name => exact (fsCreate_cases h).resolve_left hsilent
  | rm name => exact Or.inl ⟨(fsCmdRm_cases h).resolve_left hsilent, id⟩
  | cd path =>
    rcases (fsCmdCd_cases h).resolve_left hsilent with heq | ⟨-, hmsg⟩
    · exact Or.inl ⟨heq, id⟩
    · rw [hmsg] at he
      cases he

/-- The state after calls in a row; `none` unless each of them prints an error. -/
def failures : Fs → List FsCall → Option Fs
  | fs, [] => some fs
  | fs, c :: cs => do
    let r ← c.exec fs
    if r.msg.any FsMsg.isError then failures r.fs cs else none

theorem failures_cons {fs fs' : Fs} {c : FsCall} {cs : List FsCall} (h : failures fs (c :: cs) = some fs') :
    ∃ r, c.exec fs = some r ∧ r.msg.any FsMsg.isError = true ∧ failures r.fs cs = some fs' := by
  obtain ⟨r, hr, h⟩ := Option.bind_eq_some_iff.1 h
  by_cases he : r.msg.any FsMsg.isError = true
  · rw [if_pos he] at h
    exact ⟨r, hr, he, h⟩
  · rw [if_neg he] at h
    cases h

/-- Failing calls never give a node back. -/
theorem failures_poolUsed {fs fs' : Fs} {cs : List FsCall} (h : failures fs cs = some fs') :
    fs.poolUsed.toInt ≤ fs'.poolUsed.toInt := by
  induction cs generalizing fs with
  | nil => cases h; exact le_rfl
  | cons c cs ih =>
    obtain ⟨r, hr, he, h⟩ := failures_cons h
    have hrest := ih h
    rcases FsCall.exec_error hr he with ⟨heq, -⟩ | ⟨-, hused⟩
    · rwa [heq] at hrest
    · omega

/-- **When errors are atomic**: any number of calls that print errors leave the filesystem
as it was exactly if none of them would allocate a node for a full directory. -/
theorem fs_errors_atomic_iff {fs fs' : Fs} {cs : List FsCall} (h : failures fs cs = some fs') :
    fs' = fs ↔ ∀ c ∈ cs, ¬ c.Leaks fs := by
  induction cs generalizing fs with
  | nil =>
    cases h
    simp
  | cons c cs ih =>
    obtain ⟨r, hr, he, h⟩ := failures_cons h
    rw [List.forall_mem_cons]
    rcases FsCall.exec_error hr he with ⟨heq, hno⟩ | ⟨hleaks, hused⟩
    · rw [heq] at h
      rw [ih h, and_iff_right hno]
    · -- the node stays in use to the end
      have hrest := failures_poolUsed h
      constructor
      · rintro rfl
        omega
      · rintro ⟨hno, -⟩
        exact absurd hleaks hno

theorem fs_errors_atomic_rm : ∃ fs₀, fsInit = some fs₀ ∧
    failures fs₀ [.rm (str "nothing"), .cd (str "home/nothing"), .rm (str "home")] = some fs₀ := by
  have h : fsInit.any (fun fs₀ =>
      (failures fs₀ [.rm (str "nothing"), .cd (str "home/nothing"), .rm (str "home")]).isSome) = true := by
    decide +kernel
  obtain ⟨fs₀, h₀, hsome⟩ := (Option.any_eq_true _ _).1 h
  obtain ⟨fs', hfs'⟩ := Option.isSome_iff_exists.1 hsome
  have hno : ∀ c ∈ [FsCall.rm (str "nothing"), .cd (str "home/nothing"), .rm (str "home")], ¬ c.Leaks fs₀ := by
    simp [FsCall.Leaks]
  exact ⟨fs₀, h₀, hfs'.trans (congrArg some ((fs_errors_atomic_iff hfs').2 hno))⟩

/-! ## What a full directory costs -/

section Leak

variable {fs : Fs} {t : FsTree} {name : Str}

/-- `mkdir` of a new name, with and without room in the pool. -/
theorem mkdir_new (h : Refines fs t) (hn : name ≠ []) (hnew : lookup t.dirs t.pos.cur name = none)
    (hfull : ¬ (t.dirs t.pos.cur).length < 16 ∨ ¬ t.used < 64) : fsCmdMkdir fs name = some (
      if hu : fs.used < 64 then ⟨fs.alloc ⟨fs.used, hu⟩ fsDir name, some (.parentFull .mkdir), false⟩
      else ⟨fs, some (.filesystemFull .mkdir), false⟩) := by
  have hnone : ¬ (fs.childNamed t.pos.cur name).isSome = true := by
    rw [← lookup_isSome h, hnew]
    exact fun hs => by cases hs
  rw [fsCmdMkdir, fsCreate_eq h.wf h.cwd (h.wf.reach_used h.reach), if_neg hn, if_neg hnone]
  by_cases hu : fs.used < 64
  · have hlen : ¬ (fs.kids t.pos.cur).length < 16 := by
      rw [← length_dirs h]
      exact hfull.resolve_right fun hno => hno (h.used ▸ hu)
    rw [dif_pos hu, dif_pos hu, if_neg hlen]
  · rw [dif_neg hu, dif_neg hu]

/-- **Each failing `mkdir` in a full directory costs a node.** -/
theorem mkdir_leaks (hn : name ≠ []) (k : ℕ) (h : Refines fs t) (hnew : lookup t.dirs t.pos.cur name = none)
    (hfull : ¬ (t.dirs t.pos.cur).length < 16) (hroom : t.used + k ≤ 64) :
    ∃ fs', failures fs (List.replicate k (.mkdir name)) = some fs' ∧ Refines fs' { t with used := t.used + k } := by
  induction k generalizing fs t with
  | zero => exact ⟨fs, rfl, h⟩
  | succ k ih =>
    have hu : fs.used < 64 := by
      rw [h.used]
      omega
    obtain ⟨fs', hrest, href⟩ := ih (h.alloc hu fsDir name) hnew hfull (by dsimp only; omega)
    refine ⟨fs', ?_, by rwa [Nat.add_assoc, Nat.add_comm 1 k] at href⟩
    have hfirst : (FsCall.mkdir name).exec fs = some _ := mkdir_new h hn hnew (Or.inl hfull)
    rw [dif_pos hu] at hfirst
    rw [List.replicate_succ, failures, hfirst]
    exact hrest

end Leak

/-- Fourteen directories, which fill the root. -/
def fillRoot : List (FsCmd × Str) := (str "abcdefghijklmn").map fun ch => (.mkdir, [ch])

/-- A directory made elsewhere: what `mkdir` prints. -/
def mkdirElsewhere (fs : Fs) : Option (Option FsMsg) := do
  let r ← fsCmdCd fs (str "home")
  let r ← fsCmdMkdir r.fs (str "x")
  return r.msg

/-- **A full directory leaks nodes**: one failing `mkdir` takes a node, and after 47 of
them `mkdir` fails in another directory, where it succeeded before. -/
theorem fs_errors_leak : ∃ fs₀ fs, fsInit = some fs₀ ∧ fs₀.run fillRoot = some fs ∧
    (∃ fs', failures fs [.mkdir (str "x")] = some fs' ∧ fs' ≠ fs) ∧
    mkdirElsewhere fs = some none ∧
    ∃ fs', failures fs (List.replicate 47 (.mkdir (str "x"))) = some fs' ∧
      mkdirElsewhere fs' = some (some (.filesystemFull .mkdir)) := by
  have hx : str "x" ≠ [] := by decide
  obtain ⟨fs₀, h₀, href₀⟩ := fsInit_refines
  obtain ⟨fs, hrun, href⟩ := run_refines href₀ fillRoot
  have hbefore : (fsInit.bind (·.run fillRoot)).any (fun fs => decide (mkdirElsewhere fs = some none)) = true := by
    decide +kernel
  rw [h₀, Option.bind_some, hrun] at hbefore
  -- the tree has used 17 nodes, 16 of them for the entries of the root
  obtain ⟨hused, hnew, hfull, hhome⟩ : (FsTree.init.run fillRoot).used = 17 ∧
      lookup (FsTree.init.run fillRoot).dirs (FsTree.init.run fillRoot).pos.cur (str "x") = none ∧
      ¬ ((FsTree.init.run fillRoot).dirs (FsTree.init.run fillRoot).pos.cur).length < 16 ∧
      (let t := FsTree.init.run fillRoot
        let home := FsTree.cd { t with used := t.used + 47 } (str "home")
        lookup home.dirs home.pos.cur (str "x") = none) := by decide +kernel
  generalize FsTree.init.run fillRoot = t at href hused hnew hfull hhome
  obtain ⟨fs₁, hone, href₁⟩ := mkdir_leaks hx 1 href hnew hfull (by omega)
  obtain ⟨fs₂, hmany, href₂⟩ := mkdir_leaks hx 47 href hnew hfull (by omega)
  refine ⟨fs₀, fs, h₀, hrun, ⟨fs₁, hone, ?_⟩, of_decide_eq_true hbefore, fs₂, hmany, ?_⟩
  · rintro rfl
    have hsame : t.used = t.used + 1 := href.used.symm.trans href₁.used
    omega
  · obtain ⟨r, hr, hrefr, -⟩ := fsCmdCd_refines href₂ (str "home")
    have hspent : ¬ r.fs.used < 64 := by
      rw [hrefr.used, FsTree.used_cd]
      dsimp only
      omega
    unfold mkdirElsewhere
    rw [hr, Option.bind_eq_bind, Option.bind_some, mkdir_new hrefr hx hhome (Or.inr (hrefr.used ▸ hspent)),
      dif_neg hspent]
    rfl

end DahleOS
