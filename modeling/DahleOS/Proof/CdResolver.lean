import DahleOS.Proof.FsTree
import Mathlib.Data.List.TakeWhile

/-!
# Path resolution

`cd` is compared with a resolver that takes the components between the slashes as wholes.
The loop of `fs_cmd_cd` has room for 63 characters, and reads what is left of a longer
component as the next one.

* `walk_components`: the loop walks the *pieces* of the path.
* `cd_resolver_iff`: when it ends where the resolver does.
-/

namespace DahleOS

open CArray Forest DirTree

/-! ## The reference -/

/-- What a component asks for. -/
def component (s : Str) : Component Str :=
  if s = [] ∨ s = str "." then .here else if s = str ".." then .parent else .child s

/-- Where a path starts. -/
def FsTree.origin (t : FsTree) (path : Str) : Pos (Fin 64) :=
  if path.head? = some slash then ⟨0, []⟩ else t.pos

/-- **The reference**: the components between the slashes, one by one. -/
def FsTree.resolve (t : FsTree) (path : Str) : Option (Pos (Fin 64)) :=
  walk t.dirs (t.origin path) ((path.splitOn slash).map component)

/-- The directory to go to: none but the current one, if the path does not resolve. -/
def FsTree.target (t : FsTree) (path : Str) : Fin 64 := ((t.resolve path).getD t.pos).cur

/-! ## Pieces -/

/-- A list cut into pieces of `n + 1` elements, of which the last may be shorter. -/
def chunks {α : Type} (n : ℕ) : List α → List (List α)
  | [] => []
  | a :: l => (a :: l.take n) :: chunks n (l.drop n)
termination_by l => l.length
decreasing_by
  rw [List.length_drop, List.length_cons]
  omega

/-- The components of a path, longer ones in pieces of 63 characters. -/
def pieces (path : Str) : List Str := (path.splitOn slash).flatMap (chunks 62)

theorem chunks_short {s : Str} (h : s.length ≤ 63) : chunks 62 s = if s = [] then [] else [s] := by
  cases s with
  | nil => rw [chunks, if_pos rfl]
  | cons ch s =>
    rw [List.length_cons] at h
    rw [chunks, List.take_of_length_le (by omega), List.drop_of_length_le (by omega), chunks,
      if_neg (List.cons_ne_nil _ _)]

theorem chunks_long {s : Str} (h : 63 < s.length) : chunks 62 s = s.take 63 :: chunks 62 (s.drop 63) := by
  cases s with
  | nil => cases h
  | cons ch s => rw [chunks, List.take_succ_cons, List.drop_succ_cons]

/-- A path up to its first slash, if there is one. -/
theorem split_path (path : Str) : ∃ w tail, path = w ++ tail ∧ slash ∉ w ∧ (tail = [] ∨ ∃ rest, tail = slash :: rest) := by
  refine ⟨path.takeWhile (· ≠ slash), path.dropWhile (· ≠ slash), (List.takeWhile_append_dropWhile).symm, ?_, ?_⟩
  · intro hmem
    have := List.mem_takeWhile_imp hmem
    simp at this
  · cases hd : path.dropWhile (· ≠ slash) with
    | nil => exact Or.inl rfl
    | cons ch rest =>
      have hhead := List.head?_dropWhile_not (· ≠ slash) path
      rw [hd] at hhead
      simp only [List.head?_cons, decide_not, Bool.not_eq_eq_eq_not, Bool.not_false, decide_eq_true_eq] at hhead
      exact Or.inr ⟨rest, by rw [hhead]⟩

theorem splitOn_last {w : Str} (hw : slash ∉ w) : w.splitOn slash = [w] := List.splitOn_eq_singleton hw

theorem splitOn_next {w : Str} (hw : slash ∉ w) (rest : Str) :
    (w ++ slash :: rest).splitOn slash = w :: rest.splitOn slash := List.splitOn_append_cons_self_of_not_mem hw rest

/-- What the loop reads of a path. -/
theorem nextComponent_eq {w tail : Str} (hw : slash ∉ w) (ht : tail = [] ∨ ∃ rest, tail = slash :: rest) :
    nextComponent (w ++ tail) =
      if w.length ≤ 63 then (w, tail.tail) else (w.take 63, w.drop 63 ++ tail) := by
  have hword : (w ++ tail).takeWhile (· ≠ slash) = w := by
    rw [List.takeWhile_append_of_pos (fun ch hch => by simpa using fun h : ch = slash => hw (h ▸ hch))]
    rcases ht with rfl | ⟨rest, rfl⟩ <;> simp
  unfold nextComponent
  dsimp only
  rw [hword]
  by_cases hl : w.length ≤ 63
  · rw [if_pos hl, List.take_of_length_le hl, List.drop_left]
    rcases ht with rfl | ⟨rest, rfl⟩ <;> simp
  · -- the loop stops in the middle of the component
    obtain ⟨ch, more, hmore⟩ : ∃ ch more, w.drop 63 = ch :: more :=
      List.exists_cons_of_ne_nil (by simpa using hl)
    have hch : ch ≠ slash := by
      rintro rfl
      exact hw (List.mem_of_mem_drop (hmore ▸ List.mem_cons_self))
    have hlen : (w.take 63).length = 63 := by
      rw [List.length_take]
      omega
    rw [if_neg hl, hlen, List.drop_append_of_le_length (by omega), hmore, List.cons_append, List.head?_cons,
      if_neg (by simpa using hch)]

/-- **One round** of the loop reads one piece, and the rest of the path is shorter. -/
theorem pieces_next {path : Str} (hne : path ≠ []) :
    pieces path = (if (nextComponent path).1 = [] then [] else [(nextComponent path).1]) ++
      pieces (nextComponent path).2 ∧ (nextComponent path).2.length < path.length := by
  obtain ⟨w, tail, rfl, hw, ht⟩ := split_path path
  have hpos : 0 < (w ++ tail).length := List.length_pos_iff.2 hne
  rw [List.length_append] at hpos ⊢
  rw [nextComponent_eq hw ht]
  by_cases hl : w.length ≤ 63
  · rw [if_pos hl]
    dsimp only
    rw [← chunks_short hl]
    rcases ht with rfl | ⟨rest, rfl⟩
    · refine ⟨?_, by simpa using hpos⟩
      rw [List.append_nil, List.tail_nil, pieces, splitOn_last hw]
      simp [pieces, chunks]
    · refine ⟨?_, by simp only [List.tail_cons, List.length_cons]; omega⟩
      rw [pieces, splitOn_next hw]
      rfl
  · have hlong : 63 < w.length := by omega
    have hdrop : slash ∉ w.drop 63 := fun h => hw (List.mem_of_mem_drop h)
    have htake : w.take 63 ≠ [] := by
      rw [← List.length_pos_iff, List.length_take]
      omega
    rw [if_neg hl]
    dsimp only
    rw [if_neg htake, List.singleton_append, List.length_append, List.length_drop]
    refine ⟨?_, by omega⟩
    rcases ht with rfl | ⟨rest, rfl⟩
    · rw [List.append_nil, List.append_nil, pieces, pieces, splitOn_last hw, splitOn_last hdrop]
      simp only [List.flatMap_cons, List.flatMap_nil, chunks_long hlong, List.append_nil]
    · rw [pieces, pieces, splitOn_next hw, splitOn_next hdrop]
      simp only [List.flatMap_cons, chunks_long hlong, List.cons_append]

/-- **Induction along the rounds** of a loop over a path: a round leaves a rest, and a loop
with as many rounds as characters reaches the end. -/
theorem rounds_induction {P : ℕ → Str → Prop} (hend : ∀ rounds, P rounds [])
    (hround : ∀ rounds ch path, P rounds (nextComponent (ch :: path)).2 → P (rounds + 1) (ch :: path)) :
    ∀ (rounds : ℕ) (path : Str), path.length ≤ rounds → P rounds path := by
  intro rounds
  induction rounds with
  | zero =>
    intro path hl
    obtain rfl : path = [] := List.length_eq_zero_iff.1 (Nat.le_zero.1 hl)
    exact hend 0
  | succ rounds ih =>
    intro path hl
    cases path with
    | nil => exact hend (rounds + 1)
    | cons ch path =>
      have hshorter := (pieces_next (List.cons_ne_nil ch path)).2
      exact hround rounds ch path (ih _ (by omega))

variable {t : FsTree} {path : Str}

/-- **The loop walks the pieces.** -/
theorem walk_components : ∀ (rounds : ℕ) (path : Str), path.length ≤ rounds → ∀ p : Pos (Fin 64),
    walk t.dirs p (components rounds path) = walk t.dirs p ((pieces path).map component) := by
  refine rounds_induction ?_ ?_
  · intro rounds p
    cases rounds <;> simp [pieces, chunks, components]
  · intro rounds ch path ih p
    rw [(pieces_next (List.cons_ne_nil ch path)).1]
    simp only [components]
    generalize nextComponent (ch :: path) = c at ih ⊢
    obtain ⟨word, rest⟩ := c
    dsimp only at ih ⊢
    by_cases hnil : word = []
    · rw [if_pos hnil, if_pos hnil]
      exact ih p
    rw [if_neg hnil, if_neg hnil, List.singleton_append, List.map_cons, component]
    by_cases hdot : word = str "."
    · rw [if_pos hdot, if_pos (Or.inr hdot)]
      exact ih p
    rw [if_neg hdot, if_neg (not_or.2 ⟨hnil, hdot⟩)]
    by_cases hup : word = str ".."
    · rw [if_pos hup, if_pos hup]
      exact ih p.up
    · rw [if_neg hup, if_neg hup]
      simp only [walk]
      split
      · split_ifs
        · exact ih _
        · rfl
      · rfl

/-- A path in pieces, walked from its origin. -/
def FsTree.resolvePieces (t : FsTree) (path : Str) : Option (Pos (Fin 64)) :=
  walk t.dirs (t.origin path) ((pieces path).map component)

theorem FsTree.cd_eq (t : FsTree) {path : Str} (hne : path ≠ []) :
    t.cd path = { t with pos := (t.resolvePieces path).getD t.pos } ∧
      t.resolves path = (t.resolvePieces path).isSome := by
  obtain ⟨ch, tail, rfl⟩ := List.exists_cons_of_ne_nil hne
  have hwalk : walk t.dirs (t.start (ch :: tail)).1 (components (t.start (ch :: tail)).2.length (t.start (ch :: tail)).2)
      = t.resolvePieces (ch :: tail) := by
    rw [walk_components _ _ le_rfl, FsTree.resolvePieces, FsTree.origin, FsTree.start]
    by_cases hs : ch = slash
    · -- the first slash has nothing in front of it
      subst hs
      have hpieces : pieces (slash :: tail) = pieces tail := by
        have hsplit := splitOn_next (w := []) (by simp) tail
        rw [List.nil_append] at hsplit
        rw [pieces, hsplit, List.flatMap_cons, chunks, List.nil_append, pieces]
      simp [hpieces]
    · simp [hs]
  unfold FsTree.cd FsTree.resolves
  dsimp only
  rw [hwalk]
  cases t.resolvePieces (ch :: tail) <;> exact ⟨rfl, rfl⟩

/-! ## Components as wholes -/

/-- Empty components ask for nothing. -/
theorem walk_nonempty (p : Pos (Fin 64)) (cs : List Str) :
    walk t.dirs p ((cs.flatMap fun c => if c = [] then [] else [c]).map component) =
      walk t.dirs p (cs.map component) := by
  induction cs generalizing p with
  | nil => rfl
  | cons c cs ih =>
    rw [List.flatMap_cons, List.map_append, walk_append, List.map_cons]
    by_cases hc : c = []
    · rw [if_pos hc, component, if_pos (Or.inl hc)]
      exact ih p
    · have hcons : component c :: cs.map component = [component c] ++ cs.map component := rfl
      rw [if_neg hc, hcons, walk_append]
      exact Option.bind_congr fun q _ => ih q

/-- Short components are pieces. -/
theorem FsTree.resolvePieces_short (t : FsTree) {path : Str} (hshort : ∀ c ∈ path.splitOn slash, c.length ≤ 63) :
    t.resolvePieces path = t.resolve path := by
  have hpieces : pieces path = (path.splitOn slash).flatMap fun c => if c = [] then [] else [c] := by
    unfold pieces
    rw [List.flatMap_congr]
    exact fun c hc => chunks_short (hshort c hc)
  rw [FsTree.resolvePieces, hpieces, walk_nonempty, FsTree.resolve]

/-- A longer component is no name. -/
theorem FsTree.resolve_long (hn : ∀ d, Names GoodName (t.dirs d)) {c : Str} (hc : c ∈ path.splitOn slash)
    (hlong : ¬ c.length ≤ 63) : t.resolve path = none := by
  have hchild : component c = .child c := by
    have h0 : c ≠ [] := by rintro rfl; exact hlong (by decide)
    have h1 : c ≠ str "." := by rintro rfl; exact hlong (by decide)
    have h2 : c ≠ str ".." := by rintro rfl; exact hlong (by decide)
    rw [component, if_neg (not_or.2 ⟨h0, h1⟩), if_neg h2]
  have hmem : Component.child c ∈ (path.splitOn slash).map component := hchild ▸ List.mem_map_of_mem hc
  exact walk_eq_none hn hmem (fun hg => hlong hg.2) _

/-- `cd` changes the current directory only. -/
theorem fsCmdCd_cwd {fs : Fs} {r : FsResult} (h : fsCmdCd fs path = some r) : ∃ cwd, r.fs = { fs with cwd } := by
  cases path with
  | nil =>
    cases h
    exact ⟨0, rfl⟩
  | cons ch tail =>
    rw [fsCmdCd] at h
    split_ifs at h
    · cases h
      exact ⟨0, rfl⟩
    all_goals
      obtain ⟨res, -, h⟩ := Option.bind_eq_some_iff.1 h
      cases res with
      | error msg => cases h; exact ⟨fs.cwd, rfl⟩
      | ok cur => cases h; exact ⟨cur, rfl⟩

/-- The result of `cd` in a pool that holds a tree. -/
theorem fsCmdCd_eq {fs : Fs} (h : Refines fs t) (hne : path ≠ []) : ∃ r, fsCmdCd fs path = some r ∧
    r.fs = { fs with cwd := ix ((t.resolvePieces path).getD t.pos).cur } ∧
    ((t.resolvePieces path).isSome = true → r.msg = none) := by
  obtain ⟨r, hr, href, hmsg⟩ := fsCmdCd_refines h path
  obtain ⟨cwd, heq⟩ := fsCmdCd_cwd hr
  have hcwd : r.fs.cwd = ix (t.cd path).pos.cur := href.cwd
  rw [(t.cd_eq hne).1, heq] at hcwd
  rw [(t.cd_eq hne).2] at hmsg
  dsimp only at hcwd
  exact ⟨r, hr, by rw [heq, hcwd], hmsg⟩

/-- **When `cd` agrees with the reference**, after any commands: no component is longer
than 63 characters, or the path with longer components in pieces resolves to no other
directory. -/
theorem cd_resolver_iff (cmds : List (FsCmd × Str)) {path : Str} (hne : path ≠ []) :
    ∃ fs t r, fsInit.bind (·.run cmds) = some fs ∧ t = FsTree.init.run cmds ∧ Refines fs t ∧
      fsCmdCd fs path = some r ∧
      (r.fs = { fs with cwd := ix (t.target path) } ↔
        (∀ c ∈ path.splitOn slash, c.length ≤ 63) ∨ ∀ q, t.resolvePieces path = some q → q.cur = t.pos.cur) := by
  obtain ⟨fs₀, h₀, href₀⟩ := fsInit_refines
  obtain ⟨fs, hrun, href⟩ := run_refines href₀ cmds
  obtain ⟨r, hr, heq, -⟩ := fsCmdCd_eq href hne
  refine ⟨fs, _, r, by rw [h₀]; exact hrun, rfl, href, hr, ?_⟩
  generalize FsTree.init.run cmds = t at href heq ⊢
  have hcwd : r.fs = { fs with cwd := ix (t.target path) } ↔
      ((t.resolvePieces path).getD t.pos).cur = t.target path := by
    rw [heq]
    exact ⟨fun h => ix_inj.1 (congrArg Fs.cwd h), fun h => by rw [h]⟩
  rw [hcwd, FsTree.target]
  by_cases hshort : ∀ c ∈ path.splitOn slash, c.length ≤ 63
  · rw [t.resolvePieces_short hshort]
    exact ⟨fun _ => Or.inl hshort, fun _ => rfl⟩
  · -- the reference does not resolve
    push Not at hshort
    obtain ⟨c, hc, hlong⟩ := hshort
    rw [FsTree.resolve_long href.names hc (not_le.2 hlong), Option.getD_none]
    constructor
    · intro h
      refine Or.inr ?_
      intro q hq
      rw [hq] at h
      exact h
    · rintro (h | h)
      · exact absurd (h c hc) (not_le.2 hlong)
      · cases hq : t.resolvePieces path with
        | none => rfl
        | some q => exact h q hq

theorem cd_resolver_home : ∃ fs r, fsInit.bind (·.run []) = some fs ∧ fsCmdCd fs (str "home/../tmp") = some r ∧
    r.fs = { fs with cwd := ix ((FsTree.init.run []).target (str "home/../tmp")) } := by
  have hne : str "home/../tmp" ≠ [] := by decide
  obtain ⟨fs, t, r, hrun, rfl, -, hr, hiff⟩ := cd_resolver_iff [] hne
  exact ⟨fs, r, hrun, hr, hiff.2 (Or.inl (by decide +kernel))⟩

/-- A name of full length. -/
def longDir : Str := str "a-directory-whose-name-is-exactly-sixty-three-characters-long--"

/-- **A longer component is no name, and yet it is entered**: the 64th character is read
as a component of its own. -/
theorem cd_cut : ∃ fs r, fsInit.bind (·.run [(.mkdir, longDir)]) = some fs ∧
    fsCmdCd fs (longDir ++ str ".") = some r ∧ r.msg = none ∧
    r.fs ≠ { fs with cwd := ix ((FsTree.init.run [(.mkdir, longDir)]).target (longDir ++ str ".")) } := by
  have htarget : (FsTree.init.run [(.mkdir, longDir)]).target (longDir ++ str ".") = 0 := by decide +kernel
  have h : (fsInit.bind (·.run [(.mkdir, longDir)])).any (fun fs => (fsCmdCd fs (longDir ++ str ".")).any fun r =>
      decide (r.msg = none) && decide (r.fs.cwd ≠ ix 0)) = true := by decide +kernel
  obtain ⟨fs, hrun, h⟩ := (Option.any_eq_true _ _).1 h
  obtain ⟨r, hr, h⟩ := (Option.any_eq_true _ _).1 h
  simp only [Bool.and_eq_true, decide_eq_true_eq] at h
  exact ⟨fs, r, hrun, hr, h.1, fun heq => h.2 (by rw [heq, htarget])⟩

end DahleOS
