import DahleOS.Proof.CdResolver

/-!
# Joined paths

A round of the loop of `fs_cmd_cd` depends on the piece it reads and on where it stands,
so the loop is a walk over pieces. The pieces of `p/q` are those of `p`, then those of `q`.

* `cdWalk_pieces`, `fsCmdCd_pieces`: the loop and the command over pieces, in any pool.
* `cd_join`: `cd p/q` is `cd p` and then `cd q`.
-/

namespace DahleOS

open CArray

variable {fs : Fs} {path p q : Str}

/-! ## The walk over pieces -/

/-- One round of the loop of `fs_cmd_cd`. -/
def enterPiece (fs : Fs) (cur : Int32) (piece : Str) : Option (Except FsMsg Int32) :=
  if piece = str "." then some (.ok cur)
  else if piece = str ".." then do
    let nd ← fs.node cur
    return .ok (if 0 ≤ nd.parent then nd.parent else cur)
  else do
    let child ← nodeFindChild fs cur piece
    if child < 0 then return .error (.noSuchDirectory piece)
    let nd ← fs.node child
    if nd.type ≠ fsDir then return .error (.notDirectory piece)
    return .ok child

/-- What comes after a walk: nothing, if it failed. -/
def thenWalk (r : Except FsMsg Int32) (next : Int32 → Option (Except FsMsg Int32)) : Option (Except FsMsg Int32) :=
  match r with
  | .error msg => some (.error msg)
  | .ok cur => next cur

/-- The rounds, one piece after the other. -/
def walkPieces (fs : Fs) : (cur : Int32) → List Str → Option (Except FsMsg Int32)
  | cur, [] => some (.ok cur)
  | cur, piece :: rest => do thenWalk (← enterPiece fs cur piece) (walkPieces fs · rest)

theorem walkPieces_append (fs : Fs) (cur : Int32) (l l' : List Str) :
    walkPieces fs cur (l ++ l') = (walkPieces fs cur l).bind (thenWalk · (walkPieces fs · l')) := by
  induction l generalizing cur with
  | nil => rfl
  | cons piece rest ih =>
    simp only [List.cons_append, walkPieces, Option.bind_eq_bind, Option.bind_assoc]
    refine Option.bind_congr ?_
    intro r _
    cases r with
    | error msg => rfl
    | ok next => exact ih next

/-- The walk does not look at the current directory. -/
theorem walkPieces_cwd (fs : Fs) (cwd cur : Int32) (l : List Str) :
    walkPieces { fs with cwd } cur l = walkPieces fs cur l := by
  induction l generalizing cur with
  | nil => rfl
  | cons piece rest ih =>
    have henter : enterPiece { fs with cwd } cur piece = enterPiece fs cur piece := rfl
    simp only [walkPieces, henter, ih]

/-- **The loop of `fs_cmd_cd` walks the pieces** of the path. -/
theorem cdWalk_pieces : ∀ (rounds : ℕ) (path : Str), path.length ≤ rounds → ∀ cur,
    cdWalk fs rounds cur path = walkPieces fs cur (pieces path) := by
  refine rounds_induction ?_ ?_
  · intro rounds cur
    cases rounds <;> simp [pieces, chunks, cdWalk, walkPieces]
  · intro rounds ch path ih cur
    rw [(pieces_next (List.cons_ne_nil ch path)).1]
    simp only [cdWalk, strcmp_eq_zero]
    generalize nextComponent (ch :: path) = c at ih ⊢
    obtain ⟨word, rest⟩ := c
    dsimp only at ih ⊢
    by_cases hnil : word = []
    · rw [if_pos hnil, if_pos hnil]
      exact ih cur
    rw [if_neg hnil, if_neg hnil, List.singleton_append, walkPieces, enterPiece]
    by_cases hdot : word = str "."
    · rw [if_pos hdot, if_pos hdot]
      exact ih cur
    rw [if_neg hdot, if_neg hdot]
    by_cases hup : word = str ".."
    · rw [if_pos hup, if_pos hup]
      simp only [Option.bind_eq_bind, Option.bind_assoc, ih]
      rfl
    · rw [if_neg hup, if_neg hup]
      simp only [Option.bind_eq_bind, Option.bind_assoc, ih]
      refine Option.bind_congr ?_
      intro child _
      by_cases hchild : child < 0
      · rw [if_pos hchild, if_pos hchild]
        rfl
      rw [if_neg hchild, if_neg hchild]
      simp only [Option.bind_assoc]
      refine Option.bind_congr ?_
      intro nd _
      by_cases hdir : nd.type ≠ fsDir
      · rw [if_pos hdir, if_pos hdir]
        rfl
      · rw [if_neg hdir, if_neg hdir]
        rfl

/-! ## The command -/

/-- Where `cd` starts from: the root for the empty path and after a slash. -/
def cdOrigin (fs : Fs) (path : Str) : Int32 := if path = [] ∨ path.head? = some slash then 0 else fs.cwd

/-- What `cd` does at the end of the walk. It saves, but not on its way to the root alone. -/
def cdResult (fs : Fs) (path : Str) : Except FsMsg Int32 → FsResult
  | .error msg => ⟨fs, some msg, false⟩
  | .ok cur => ⟨{ fs with cwd := cur }, none, decide (path ≠ [] ∧ path ≠ [slash])⟩

theorem pieces_slash (p q : Str) : pieces (p ++ slash :: q) = pieces p ++ pieces q := by
  rw [pieces, List.splitOn_append_cons_self, List.flatMap_append]
  rfl

theorem pieces_nil : pieces [] = [] := by simp [pieces, chunks]

/-- **`cd` walks the pieces of its path** from the origin. -/
theorem fsCmdCd_pieces (fs : Fs) (path : Str) :
    fsCmdCd fs path = (walkPieces fs (cdOrigin fs path) (pieces path)).map (cdResult fs path) := by
  cases path with
  | nil =>
    rw [pieces_nil]
    rfl
  | cons ch tail =>
    by_cases hch : ch = slash
    · -- the first slash has nothing in front of it
      subst hch
      have hpieces : pieces (slash :: tail) = pieces tail := by
        have h := pieces_slash [] tail
        rwa [pieces_nil] at h
      rw [hpieces]
      by_cases htail : tail = []
      · subst htail
        rw [pieces_nil]
        rfl
      · simp only [fsCmdCd, htail, and_false, if_false, if_true, cdWalk_pieces _ _ le_rfl, cdOrigin,
          List.head?_cons, or_true, Option.bind_eq_bind, Option.map_eq_bind]
        refine Option.bind_congr ?_
        intro r _
        cases r with
        | error msg => rfl
        | ok cur => simp [cdResult, htail]
    · have horigin : cdOrigin fs (ch :: tail) = fs.cwd := by simp [cdOrigin, hch]
      simp only [fsCmdCd, hch, false_and, if_false, cdWalk_pieces _ _ le_rfl, horigin,
        Option.bind_eq_bind, Option.map_eq_bind]
      refine Option.bind_congr ?_
      intro r _
      cases r with
      | error msg => rfl
      | ok cur => simp [cdResult, hch]

/-- **Path resolution composes.** In every well-formed pool, `cd` along `p/q` ends where
`cd` along `p` and then along `q` ends, if both succeed, and is an error that changes
nothing if one of them is an error. -/
theorem cd_join (h : fs.WellFormed) (p : Str) (hq : q ≠ []) (hrel : q.head? ≠ some slash) :
    ∃ r₁ r₂ r, fsCmdCd fs p = some r₁ ∧ fsCmdCd r₁.fs q = some r₂ ∧ fsCmdCd fs (p ++ slash :: q) = some r ∧
      (r₁.msg = none → r₂.msg = none → r.msg = none ∧ r.fs = r₂.fs) ∧
      (r₁.msg ≠ none ∨ r₂.msg ≠ none → r.msg ≠ none ∧ r.fs = fs) := by
  obtain ⟨r₁, h₁, hwf₁⟩ := fsCmdCd_wellFormed h p
  obtain ⟨r₂, h₂, -⟩ := fsCmdCd_wellFormed hwf₁ q
  obtain ⟨r, hr, -⟩ := fsCmdCd_wellFormed h (p ++ slash :: q)
  refine ⟨r₁, r₂, r, h₁, h₂, hr, ?_⟩
  -- all three walks in terms of pieces
  have horigin : cdOrigin fs (p ++ slash :: q) = cdOrigin fs p := by
    cases p with
    | nil => rfl
    | cons ch tail => simp [cdOrigin]
  rw [fsCmdCd_pieces] at h₁ h₂ hr
  rw [pieces_slash, walkPieces_append, horigin] at hr
  obtain ⟨w₁, hw₁, rfl⟩ := Option.map_eq_some_iff.1 h₁
  rw [hw₁, Option.bind_some] at hr
  cases w₁ with
  | error msg =>
    -- the walk fails in `p`
    obtain rfl : cdResult fs (p ++ slash :: q) (.error msg) = r := Option.some.inj hr
    exact ⟨fun hm => absurd hm (Option.some_ne_none _), fun _ => ⟨Option.some_ne_none _, rfl⟩⟩
  | ok cur =>
    have hstart : cdOrigin (cdResult fs p (.ok cur)).fs q = cur := by simp [cdOrigin, cdResult, hq, hrel]
    obtain ⟨w₂, hw₂, rfl⟩ := Option.map_eq_some_iff.1 h₂
    rw [hstart] at hw₂
    have hwalk : walkPieces fs cur (pieces q) = some w₂ := (walkPieces_cwd fs cur cur _).symm.trans hw₂
    simp only [thenWalk, hwalk, Option.map_some, Option.some.injEq] at hr
    subst hr
    cases w₂ with
    | error msg => exact ⟨fun _ hm => absurd hm (Option.some_ne_none _), fun _ => ⟨Option.some_ne_none _, rfl⟩⟩
    | ok cur' => exact ⟨fun _ _ => ⟨rfl, rfl⟩, fun hm => by rcases hm with hm | hm <;> exact absurd rfl hm⟩

theorem cd_join_home : ∃ fs r₁ r₂ r, fsInit = some fs ∧ fsCmdCd fs (str "home") = some r₁ ∧
    fsCmdCd r₁.fs (str "../tmp") = some r₂ ∧ fsCmdCd fs (str "home" ++ slash :: str "../tmp") = some r ∧
    r.msg = none ∧ r.fs = r₂.fs := by
  obtain ⟨fs, hfs, hwf⟩ := fsInit_wellFormed
  have hne : str "../tmp" ≠ [] := by decide
  have hrel : (str "../tmp").head? ≠ some slash := by decide
  obtain ⟨r₁, r₂, r, h₁, h₂, hr, hok, -⟩ := cd_join hwf (str "home") hne hrel
  have h : (fsInit.bind fun fs => fsCmdCd fs (str "home")).any (fun r₁ => decide (r₁.msg = none) &&
      (fsCmdCd r₁.fs (str "../tmp")).any fun r₂ => decide (r₂.msg = none)) = true := by decide +kernel
  simp only [hfs, Option.bind_some, h₁, h₂, Option.any_some, Bool.and_eq_true, decide_eq_true_eq] at h
  exact ⟨fs, r₁, r₂, r, hfs, h₁, h₂, hr, hok h.1 h.2⟩

end DahleOS
