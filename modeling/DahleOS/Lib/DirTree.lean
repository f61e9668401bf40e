import Mathlib.Data.List.Nodup
import Mathlib.Logic.Function.Basic

/-!
# Directory trees

The abstract store behind a file system: every directory is an ordered list of
entries, an entry is a name, a kind and the node it stands for.

* `addEntry`, `deleteName`: an entry put at the end of a directory, the entries of one name
  taken out of it.
* `Names.addEntry`, `Names.deleteName`: both keep the names of every directory distinct.
* `addEntry_of_ne`, `deleteName_of_ne`: both leave every other directory as it is.
* `lookup_addEntry`: what is entered is found.
* `deleteName_split`: where names are distinct, a deletion takes out one entry and keeps
  the order of the rest.
* `walk`: path resolution, on a chain of directories from the root; `Chain.up`,
  `Chain.walk`, `Chain.addEntry` and `Chain.deleteName` keep it one.
* `Leads`: the names on the way to a directory; as an absolute path they resolve to it
  (`Leads.walk`).
-/

namespace DirTree

variable {ν ι : Type}

/-- An entry of a directory. -/
structure Entry (ν ι : Type) where
  name : ν
  isDir : Bool
  node : ι
  deriving DecidableEq

/-- The entries of each node, in order. -/
abbrev Dirs (ν ι : Type) := ι → List (Entry ν ι)

/-- The first entry of that name. -/
def lookup [DecidableEq ν] (t : Dirs ν ι) (d : ι) (name : ν) : Option (Entry ν ι) :=
  (t d).find? fun e => e.name = name

/-- `e` at the end of `d`. -/
def addEntry [DecidableEq ι] (t : Dirs ν ι) (d : ι) (e : Entry ν ι) : Dirs ν ι :=
  Function.update t d (t d ++ [e])

/-- `d` without the entries of that name. -/
def deleteName [DecidableEq ν] [DecidableEq ι] (t : Dirs ν ι) (d : ι) (name : ν) : Dirs ν ι :=
  Function.update t d ((t d).filter fun e => e.name ≠ name)

/-! ## Names -/

/-- **Distinct names, all of them good.** -/
structure Names (good : ν → Prop) (l : List (Entry ν ι)) : Prop where
  nodup : (l.map Entry.name).Nodup
  good : ∀ e ∈ l, good e.name

variable {good : ν → Prop} {t : Dirs ν ι} {d x : ι} {e : Entry ν ι} {name : ν}

section Lookup

variable [DecidableEq ν]

theorem lookup_eq_none : lookup t d name = none ↔ ∀ e ∈ t d, e.name ≠ name := by
  simp [lookup, List.find?_eq_none]

theorem lookup_some (h : lookup t d name = some e) : e ∈ t d ∧ e.name = name := by
  constructor
  · exact List.mem_of_find?_eq_some h
  · simpa using List.find?_some h

/-- Where names are distinct, an entry is found by its name. -/
theorem lookup_of_mem (h : Names good (t d)) (he : e ∈ t d) : lookup t d e.name = some e := by
  cases hl : lookup t d e.name with
  | none => exact absurd rfl (lookup_eq_none.1 hl e he)
  | some c =>
    obtain ⟨hc, hn⟩ := lookup_some hl
    rw [List.inj_on_of_nodup_map h.nodup hc he hn]

end Lookup

variable [DecidableEq ι]

theorem addEntry_of_ne (h : x ≠ d) : addEntry t d e x = t x := Function.update_of_ne h _ _

theorem mem_addEntry_of_mem (he : e ∈ t x) (c : Entry ν ι) : e ∈ addEntry t d c x := by
  by_cases hx : x = d
  · subst hx
    rw [addEntry, Function.update_self]
    exact List.mem_append_left _ he
  · rwa [addEntry_of_ne hx]

variable [DecidableEq ν]

/-- What is entered under a new name is found under it. -/
theorem lookup_addEntry (hnew : lookup t d e.name = none) : lookup (addEntry t d e) d e.name = some e := by
  rw [lookup, addEntry, Function.update_self, List.find?_append]
  simp only [lookup] at hnew
  simp [hnew]

theorem deleteName_of_ne (h : x ≠ d) : deleteName t d name x = t x := Function.update_of_ne h _ _

/-- A new name at the end keeps the names distinct. -/
theorem Names.addEntry (h : ∀ x, Names good (t x)) (hnew : lookup t d e.name = none) (he : good e.name)
    (x : ι) : Names good (addEntry t d e x) := by
  by_cases hx : x = d
  · subst hx
    rw [DirTree.addEntry, Function.update_self]
    refine ⟨?_, ?_⟩
    · rw [List.map_append, List.nodup_append]
      refine ⟨(h x).nodup, List.nodup_singleton _, ?_⟩
      intro a ha b hb
      obtain ⟨c, hc, rfl⟩ := List.mem_map.1 ha
      obtain rfl : b = e.name := by simpa using hb
      exact lookup_eq_none.1 hnew c hc
    · intro c hc
      rcases List.mem_append.1 hc with hc | hc
      · exact (h x).good c hc
      · obtain rfl : c = e := by simpa using hc
        exact he
  · rw [addEntry_of_ne hx]; exact h x

theorem Names.deleteName (h : ∀ x, Names good (t x)) (d : ι) (name : ν) (x : ι) :
    Names good (deleteName t d name x) := by
  by_cases hx : x = d
  · subst hx
    rw [DirTree.deleteName, Function.update_self]
    refine ⟨(h x).nodup.sublist (List.filter_sublist.map _), ?_⟩
    intro c hc
    exact (h x).good c (List.mem_of_mem_filter hc)
  · rw [deleteName_of_ne hx]; exact h x

/-- **Where names are distinct, a deletion takes out one entry**, and keeps the order of
the rest. -/
theorem deleteName_split (h : Names good (t d)) (hl : lookup t d name = some e) :
    ∃ l₁ l₂, t d = l₁ ++ e :: l₂ ∧ deleteName t d name d = l₁ ++ l₂ := by
  obtain ⟨hmem, rfl⟩ := lookup_some hl
  obtain ⟨l₁, l₂, hsplit⟩ := List.append_of_mem hmem
  have hnd := h.nodup
  rw [hsplit, List.map_append, List.map_cons, List.nodup_append, List.nodup_cons] at hnd
  obtain ⟨-, ⟨h₂, -⟩, h₁⟩ := hnd
  refine ⟨l₁, l₂, hsplit, ?_⟩
  -- no entry before it or behind it has that name
  have keep₁ : l₁.filter (fun c => c.name ≠ e.name) = l₁ := by
    refine List.filter_eq_self.2 ?_
    intro c hc
    simpa using h₁ c.name (List.mem_map_of_mem hc) e.name List.mem_cons_self
  have keep₂ : l₂.filter (fun c => c.name ≠ e.name) = l₂ := by
    refine List.filter_eq_self.2 ?_
    intro c hc
    have : c.name ≠ e.name := fun he => h₂ (he ▸ List.mem_map_of_mem hc)
    simpa using this
  rw [deleteName, Function.update_self, hsplit, List.filter_append, List.filter_cons_of_neg (by simp),
    keep₁, keep₂]

/-- The deletion of a file keeps the directories. -/
theorem mem_deleteName_of_dir (hn : Names good (t d)) (hl : lookup t d name = some e)
    (hfile : e.isDir = false) {c : Entry ν ι} (hc : c ∈ t x) (hdir : c.isDir = true) : c ∈ deleteName t d name x := by
  by_cases hx : x = d
  · subst hx
    -- the only entry with that name is the file
    have hne : c.name ≠ name := by
      rintro rfl
      rw [lookup_of_mem hn hc, Option.some.injEq] at hl
      rw [hl, hfile] at hdir; cases hdir
    rw [deleteName, Function.update_self, List.mem_filter]
    exact ⟨hc, by simpa using hne⟩
  · rwa [deleteName_of_ne hx]

/-! ## Paths -/

/-- The current directory and the directories above it, nearest first. -/
structure Pos (ι : Type) where
  cur : ι
  above : List ι

/-- One directory up; the top is its own parent. -/
def Pos.up : Pos ι → Pos ι
  | ⟨cur, []⟩ => ⟨cur, []⟩
  | ⟨_, d :: above⟩ => ⟨d, above⟩

/-- Into a directory below the current one. -/
def Pos.down (p : Pos ι) (d : ι) : Pos ι := ⟨d, p.cur :: p.above⟩

/-- A component of a path. -/
inductive Component (ν : Type)
  | here
  | parent
  | child (name : ν)

/-- Path resolution. A component that names no directory fails. -/
def walk (t : Dirs ν ι) : Pos ι → List (Component ν) → Option (Pos ι)
  | p, [] => some p
  | p, .here :: cs => walk t p cs
  | p, .parent :: cs => walk t p.up cs
  | p, .child name :: cs =>
    match lookup t p.cur name with
    | some e => if e.isDir then walk t (p.down e.node) cs else none
    | none => none

/-- **Every directory on the chain lists the next one**, from the root on. -/
def Chain (t : Dirs ν ι) (root : ι) : ι → List ι → Prop
  | cur, [] => cur = root
  | cur, d :: above => (∃ e ∈ t d, e.isDir = true ∧ e.node = cur) ∧ Chain t root d above

omit [DecidableEq ι] [DecidableEq ν] in
theorem Chain.mono {t t' : Dirs ν ι} {root : ι}
    (hsub : ∀ d, ∀ e ∈ t d, e.isDir = true → e ∈ t' d) : ∀ {above cur}, Chain t root cur above →
      Chain t' root cur above
  | [], _, h => h
  | d :: _, _, ⟨⟨e, he, hdir, hn⟩, h⟩ => ⟨⟨e, hsub d e he hdir, hdir, hn⟩, Chain.mono hsub h⟩

omit [DecidableEq ν] in
theorem Chain.addEntry {root cur : ι} {above : List ι} (h : Chain t root cur above) (c : Entry ν ι) :
    Chain (addEntry t d c) root cur above :=
  h.mono fun _ _ he _ => mem_addEntry_of_mem he c

/-- The deletion of a file leaves the chain. -/
theorem Chain.deleteName {root cur : ι} {above : List ι} (h : Chain t root cur above)
    (hn : Names good (t d)) (hl : lookup t d name = some e) (hfile : e.isDir = false) :
    Chain (deleteName t d name) root cur above :=
  h.mono fun _ _ hc hdir => mem_deleteName_of_dir hn hl hfile hc hdir

omit [DecidableEq ι] [DecidableEq ν] in
theorem Chain.up {root : ι} : ∀ {p : Pos ι}, Chain t root p.cur p.above → Chain t root p.up.cur p.up.above
  | ⟨_, []⟩, h => h
  | ⟨_, _ :: _⟩, h => h.2

omit [DecidableEq ι] in
theorem walk_append (p : Pos ι) (cs cs' : List (Component ν)) :
    walk t p (cs ++ cs') = (walk t p cs).bind fun q => walk t q cs' := by
  induction cs generalizing p with
  | nil => rfl
  | cons c cs ih =>
    cases c with
    | here => exact ih p
    | parent => exact ih p.up
    | child name =>
      simp only [List.cons_append, walk]
      cases lookup t p.cur name with
      | none => rfl
      | some e =>
        dsimp only
        split_ifs
        · exact ih _
        · rfl

omit [DecidableEq ι] in
/-- A path with a component that is no name does not resolve. -/
theorem walk_eq_none (hn : ∀ d, Names good (t d)) {cs : List (Component ν)} (hname : .child name ∈ cs)
    (hbad : ¬ good name) (p : Pos ι) : walk t p cs = none := by
  induction cs generalizing p with
  | nil => cases hname
  | cons c cs ih =>
    cases c with
    | here => exact ih (List.mem_of_ne_of_mem (by simp) hname) p
    | parent => exact ih (List.mem_of_ne_of_mem (by simp) hname) p.up
    | child n =>
      unfold walk
      cases hl : lookup t p.cur n with
      | none => rfl
      | some e =>
        obtain ⟨he, rfl⟩ := lookup_some hl
        have hne : Component.child name ≠ .child e.name := by
          intro heq
          rw [Component.child.injEq] at heq
          exact hbad (heq ▸ (hn _).good e he)
        dsimp only
        split_ifs
        · exact ih (List.mem_of_ne_of_mem hne hname) _
        · rfl

/-! ### Absolute paths -/

/-- The names on the way from the root. -/
inductive Leads (t : Dirs ν ι) (root : ι) : List ν → ι → Prop
  | root : Leads t root [] root
  | down {ns d e} : Leads t root ns d → e ∈ t d → e.isDir = true → Leads t root (ns ++ [e.name]) e.node

omit [DecidableEq ι] [DecidableEq ν] in
theorem Leads.mono {t t' : Dirs ν ι} {root : ι} {ns : List ν} (hsub : ∀ d, ∀ e ∈ t d, e.isDir = true → e ∈ t' d)
    (h : Leads t root ns d) : Leads t' root ns d := by
  induction h with
  | root => exact .root
  | down _ he hdir ih => exact .down ih (hsub _ _ he hdir) hdir

omit [DecidableEq ι] in
/-- **An absolute path resolves** to where it leads. -/
theorem Leads.walk {root : ι} {ns : List ν} (hn : ∀ d, Names good (t d)) (h : Leads t root ns d) :
    ∃ q, walk t ⟨root, []⟩ (ns.map .child) = some q ∧ q.cur = d := by
  induction h with
  | root => exact ⟨_, rfl, rfl⟩
  | @down ns d e _ he hdir ih =>
    obtain ⟨q, hq, rfl⟩ := ih
    refine ⟨q.down e.node, ?_, rfl⟩
    rw [List.map_append, walk_append, hq, Option.bind_some]
    simp only [List.map_cons, List.map_nil, DirTree.walk, lookup_of_mem (hn _) he, hdir, if_true]

/-- The entries with names of one kind. -/
def keep (kind : ν → Prop) [DecidablePred kind] (t : Dirs ν ι) : Dirs ν ι := fun d =>
  (t d).filter fun e => kind e.name

variable {kind : ν → Prop} [DecidablePred kind]

omit [DecidableEq ι] [DecidableEq ν] in
theorem mem_keep : e ∈ keep kind t d ↔ e ∈ t d ∧ kind e.name := by
  simp [keep]

omit [DecidableEq ι] in
/-- A path of names of one kind stays among them. -/
theorem Chain.walk {root : ι} {p q : Pos ι} {cs : List (Component ν)} (hcs : ∀ n, .child n ∈ cs → kind n)
    (h : walk t p cs = some q) (hp : Chain (keep kind t) root p.cur p.above) :
    Chain (keep kind t) root q.cur q.above := by
  induction cs generalizing p with
  | nil => cases h; exact hp
  | cons c cs ih =>
    have hrest : ∀ n, .child n ∈ cs → kind n := fun n hn => hcs n (List.mem_cons_of_mem _ hn)
    cases c with
    | here => exact ih hrest h hp
    | parent => exact ih hrest h hp.up
    | child name =>
      unfold DirTree.walk at h
      cases hl : lookup t p.cur name with
      | none => rw [hl] at h; cases h
      | some e =>
        rw [hl] at h
        obtain ⟨he, hname⟩ := lookup_some hl
        dsimp only at h
        split_ifs at h with hdir
        have hkind : kind e.name := hname ▸ hcs name List.mem_cons_self
        exact ih hrest h ⟨⟨e, mem_keep.2 ⟨he, hkind⟩, hdir, rfl⟩, hp⟩

omit [DecidableEq ι] [DecidableEq ν] in
/-- A chain of names of one kind is an absolute path. -/
theorem Chain.leads {root : ι} : ∀ {above : List ι} {cur : ι}, Chain (keep kind t) root cur above →
    ∃ ns, ns.length = above.length ∧ (∀ n ∈ ns, kind n) ∧ Leads t root ns cur
  | [], _, rfl => ⟨[], rfl, fun n hn => (by cases hn), .root⟩
  | _ :: _, _, ⟨⟨e, he, hdir, rfl⟩, h⟩ => by
    obtain ⟨ns, hlen, hkind, hl⟩ := h.leads
    obtain ⟨hmem, hname⟩ := mem_keep.1 he
    refine ⟨ns ++ [e.name], by simp [hlen], ?_, hl.down hmem hdir⟩
    intro n hn
    rcases List.mem_append.1 hn with hn | hn
    · exact hkind n hn
    · rw [List.mem_singleton.1 hn]
      exact hname

end DirTree
