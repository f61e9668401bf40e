import DahleOS.Lib.Forest
import DahleOS.Model.Fs

/-!
# The pool as a forest

* `Fs.WellFormed`: the pool is a tree rooted in node 0, kept twice, in the child lists
  and in the parent fields; the current directory is one of its directories; and no
  string in an allocated node runs off its array.
* `Fs.kids`, `Fs.childNamed`: the child lists and the lookup by name, as lists of nodes.
* `nodeFindChild_eq`, `fsCreate_eq`, `fsCmdRm_eq`: on a well-formed pool each primitive
  succeeds, and its result in closed form.
-/

namespace DahleOS

open CArray Forest

/-! ## Indices -/

/-- The `int` that names a node of the pool. -/
def ix (k : Fin 64) : Int32 := Int32.ofNat k

@[simp] theorem ix_toInt (k : Fin 64) : (ix k).toInt = (k : ℕ) := by
  have := k.isLt
  exact Int32.toInt_ofNat_of_lt (by omega)

theorem ix_inj {j k : Fin 64} : ix j = ix k ↔ j = k := by
  constructor
  · intro h
    have := congrArg Int32.toInt h
    simp only [ix_toInt] at this
    exact Fin.ext (by omega)
  · rintro rfl; rfl

theorem ix_of_toInt {i : Int32} {k : Fin 64} (h : i.toInt = (k : ℕ)) : i = ix k := by
  rw [← Int32.toInt_inj, ix_toInt, h]

/-- The node that an `int` names, if it is in range. -/
def idx? (i : Int32) : Option (Fin 64) :=
  if h : 0 ≤ i.toInt ∧ i.toInt < 64 then some ⟨i.toInt.toNat, by omega⟩ else none

@[simp] theorem idx?_ix (k : Fin 64) : idx? (ix k) = some k := by
  have hk : ((k : ℕ) : ℤ) < 64 := by have := k.isLt; omega
  simp [idx?, hk]

@[simp] theorem ix_zero : ix 0 = 0 := rfl

theorem ix_nonneg (k : Fin 64) : (0 : Int32) ≤ ix k := by
  rw [Int32.le_iff_toInt_le, ix_toInt]; simp

theorem not_ix_neg (k : Fin 64) : ¬ ix k < (0 : Int32) := by
  rw [Int32.lt_iff_toInt_lt, ix_toInt]; simp

/-- The test for a full pool. -/
theorem le_iff_64 {i : Int32} : 64 ≤ i ↔ 64 ≤ i.toInt := Int32.le_iff_toInt_le

/-- The test for a full table: a list of children, or the aliases. -/
theorem le_iff_16 {i : Int32} : 16 ≤ i ↔ 16 ≤ i.toInt := Int32.le_iff_toInt_le

@[simp] theorem node_ix (fs : Fs) (k : Fin 64) : fs.node (ix k) = some (fs.pool k) := by
  simp [Fs.node]

@[simp] theorem setNode_ix (fs : Fs) (k : Fin 64) (nd : FsNode) :
    fs.setNode (ix k) nd = some { fs with pool := Function.update fs.pool k nd } := by
  simp [Fs.setNode]

/-! ## Child lists -/

/-- The entries in the first `child_count` slots of `children[]`. -/
def FsNode.kidInts (nd : FsNode) : List Int32 := slots nd.children nd.childCount.toInt.toNat

/-- The number of nodes ever allocated. -/
def Fs.used (fs : Fs) : ℕ := fs.poolUsed.toInt.toNat

/-- The child list of an allocated node. -/
def Fs.kids (fs : Fs) (d : Fin 64) : List (Fin 64) :=
  if d.val < fs.used then (fs.pool d).kidInts.filterMap idx? else []

/-- The node that `parent` names. -/
def Fs.owner (fs : Fs) (c : Fin 64) : Option (Fin 64) := idx? (fs.pool c).parent

/-- The name of a node. -/
def Fs.nameOf (fs : Fs) (k : Fin 64) : Str := (cstr (fs.pool k).name).getD []

/-- The first child of `d` with that name. -/
def Fs.childNamed (fs : Fs) (d : Fin 64) (name : Str) : Option (Fin 64) :=
  (fs.kids d).find? fun k => fs.nameOf k = name

/-- **A well-formed pool.** -/
structure Fs.WellFormed (fs : Fs) : Prop where
  used : 1 ≤ fs.poolUsed.toInt ∧ fs.poolUsed.toInt ≤ 64
  rootDir : (fs.pool 0).type = fsDir
  rootParent : (fs.pool 0).parent = -1
  count : ∀ d : Fin 64, d.val < fs.used →
    0 ≤ (fs.pool d).childCount.toInt ∧ (fs.pool d).childCount.toInt ≤ 16
  fileCount : ∀ d : Fin 64, d.val < fs.used → (fs.pool d).type ≠ fsDir → (fs.pool d).childCount = 0
  entry : ∀ d : Fin 64, d.val < fs.used → ∀ c ∈ (fs.pool d).kidInts,
    ∃ k : Fin 64, c = ix k ∧ d < k ∧ k.val < fs.used ∧ (fs.pool k).parent = ix d
  once : ∀ d : Fin 64, d.val < fs.used → (fs.pool d).kidInts.Nodup
  named : ∀ d : Fin 64, d.val < fs.used → ∃ s, cstr (fs.pool d).name = some s
  text : ∀ d : Fin 64, d.val < fs.used → (fs.pool d).dataLen = 0 ∨ ∃ s, cstr (fs.pool d).data = some s
  cwd : ∃ k, fs.cwd = ix k ∧ Reach fs.kids 0 k ∧ (fs.pool k).type = fsDir

variable {fs : Fs} {d k : Fin 64}

theorem Fs.WellFormed.used_pos (h : fs.WellFormed) : 0 < fs.used := by
  have := h.used.1
  unfold Fs.used
  omega

theorem Fs.WellFormed.used_le (h : fs.WellFormed) : fs.used ≤ 64 := by
  have := h.used.2
  unfold Fs.used
  omega

theorem Fs.WellFormed.poolUsed (h : fs.WellFormed) : fs.poolUsed.toInt = fs.used := by
  have := h.used.1
  unfold Fs.used
  omega

/-- Only allocated nodes have children. -/
theorem allocated_of_mem_kids (hk : k ∈ fs.kids d) : d.val < fs.used := by
  unfold Fs.kids at hk
  split at hk
  · assumption
  · cases hk

theorem kids_of_lt (hd : d.val < fs.used) : fs.kids d = (fs.pool d).kidInts.filterMap idx? := if_pos hd

theorem kids_of_ge (hd : fs.used ≤ d.val) : fs.kids d = [] := if_neg (by omega)

/-- The entries of a child list are the indices of the children. -/
theorem Fs.WellFormed.kidInts (h : fs.WellFormed) (hd : d.val < fs.used) :
    (fs.pool d).kidInts = (fs.kids d).map ix := by
  rw [kids_of_lt hd]
  have hin := fun c hc => h.entry d hd c hc
  generalize (fs.pool d).kidInts = l at hin
  induction l with
  | nil => rfl
  | cons c cs ih =>
    obtain ⟨k, rfl, -⟩ := hin c List.mem_cons_self
    simp only [List.filterMap_cons, idx?_ix, List.map_cons]
    rw [← ih fun c hc => hin c (List.mem_cons_of_mem _ hc)]

theorem Fs.WellFormed.childCount (h : fs.WellFormed) (hd : d.val < fs.used) :
    (fs.pool d).childCount.toInt = (fs.kids d).length := by
  obtain ⟨h0, h16⟩ := h.count d hd
  have hl : (fs.pool d).kidInts.length = (fs.pool d).childCount.toInt.toNat :=
    length_slots _ (by omega)
  rw [h.kidInts hd, List.length_map] at hl
  omega

theorem Fs.WellFormed.kids_length_le (h : fs.WellFormed) (d : Fin 64) : (fs.kids d).length ≤ 16 := by
  by_cases hd : d.val < fs.used
  · have := h.childCount hd
    have := (h.count d hd).2
    omega
  · rw [kids_of_ge (by omega)]; simp

theorem Fs.WellFormed.of_mem_kids (h : fs.WellFormed) (hk : k ∈ fs.kids d) :
    d < k ∧ k.val < fs.used ∧ (fs.pool k).parent = ix d := by
  have hd := allocated_of_mem_kids hk
  have hm : ix k ∈ (fs.pool d).kidInts := by
    rw [h.kidInts hd]; exact List.mem_map_of_mem hk
  obtain ⟨j, hj, hr⟩ := h.entry d hd _ hm
  rw [ix_inj] at hj
  subst hj; exact hr

/-- **The child lists agree with the parent fields.** -/
theorem Fs.WellFormed.owned (h : fs.WellFormed) : Owned fs.kids fs.owner := by
  refine ⟨?_, ?_, fun d c hc => (h.of_mem_kids hc).1⟩
  · intro d
    by_cases hd : d.val < fs.used
    · have := h.once d hd
      rw [h.kidInts hd] at this
      exact this.of_map ix
    · rw [kids_of_ge (by omega)]; exact List.nodup_nil
  · intro d c hc
    simp [Fs.owner, (h.of_mem_kids hc).2.2]

/-- Reachable nodes are allocated. -/
theorem Fs.WellFormed.reach_used (h : fs.WellFormed) (hr : Reach fs.kids 0 k) : k.val < fs.used := by
  rcases Relation.ReflTransGen.cases_tail hr with rfl | ⟨e, -, he⟩
  · exact h.used_pos
  · exact (h.of_mem_kids he).2.1

/-- Files have no children. -/
theorem Fs.WellFormed.kids_file (h : fs.WellFormed) (hk : (fs.pool k).type ≠ fsDir) : fs.kids k = [] := by
  by_cases hd : k.val < fs.used
  · have hc := h.childCount hd
    rw [h.fileCount k hd hk] at hc
    exact List.length_eq_zero_iff.1 (by simpa using hc.symm)
  · exact kids_of_ge (by omega)

/-- Owners are directories. -/
theorem Fs.WellFormed.owner_dir (h : fs.WellFormed) (hk : k ∈ fs.kids d) : (fs.pool d).type = fsDir := by
  by_contra hne
  rw [h.kids_file hne] at hk; cases hk

theorem Fs.WellFormed.cstr_name (h : fs.WellFormed) (hd : d.val < fs.used) :
    cstr (fs.pool d).name = some (fs.nameOf d) := by
  obtain ⟨s, hs⟩ := h.named d hd
  simp [Fs.nameOf, hs]

/-- The children of a node, as the loops of `fs.c` visit them. -/
theorem Fs.WellFormed.slots (h : fs.WellFormed) (hd : d.val < fs.used) :
    CArray.slots (fs.pool d).children (fs.pool d).childCount.toInt.toNat = (fs.kids d).map ix :=
  h.kidInts hd

theorem Fs.WellFormed.count_le (h : fs.WellFormed) (hd : d.val < fs.used) :
    (fs.pool d).childCount.toInt.toNat ≤ 16 := by
  have := (h.count d hd).2
  omega

/-! ## Lookup -/

theorem findIdx?_find? {α : Type} (l : List α) (p : α → Bool) :
    (l.findIdx? p).bind (l[·]?) = l.find? p := by
  induction l with
  | nil => rfl
  | cons a l ih =>
    rw [List.findIdx?_cons, List.find?_cons]
    by_cases hp : p a = true
    · simp [hp]
    · rw [← ih]
      simp only [hp]
      cases l.findIdx? p <;> simp

/-- **`node_find_child` is the lookup in the child list.** -/
theorem nodeFindChild_eq (h : fs.WellFormed) (hd : d.val < fs.used) (name : Str) :
    nodeFindChild fs (ix d) name = some (match fs.childNamed d name with | some k => ix k | none => -1) := by
  set p : Int32 → Bool := fun c => (idx? c).any fun k => fs.nameOf k = name with hp
  have htest : ∀ c ∈ CArray.slots (fs.pool d).children (fs.pool d).childCount.toInt.toNat,
      (do
        let child ← fs.node c
        let s ← cstr child.name
        return decide (strcmp s name = 0)) = some (p c) := by
    intro c hc
    rw [h.slots hd, List.mem_map] at hc
    obtain ⟨k, hk, rfl⟩ := hc
    simp [hp, h.cstr_name (h.of_mem_kids hk).2.1, strcmp_eq_zero]
  have hfind := findSlot_eq (h.count_le hd) htest
  have hidx : ((fs.kids d).map ix).findIdx? p = (fs.kids d).findIdx? fun k => fs.nameOf k = name := by
    rw [List.findIdx?_map]
    congr 1
    funext k
    simp [hp]
  have hlookup := findIdx?_find? (fs.kids d) fun k => fs.nameOf k = name
  unfold nodeFindChild Fs.childNamed
  rw [← hlookup]
  simp only [node_ix, Option.bind_eq_bind, Option.bind_some] at hfind ⊢
  rw [hfind, h.slots hd, hidx, Option.bind_some]
  cases hi : (fs.kids d).findIdx? (fun k => decide (fs.nameOf k = name)) with
  | none => rfl
  | some i =>
    obtain ⟨hlt, -⟩ := List.findIdx?_eq_some_iff_getElem.1 hi
    have hget : (CArray.slots (fs.pool d).children (fs.pool d).childCount.toInt.toNat)[i]? =
        some (ix (fs.kids d)[i]) := by
      rw [h.slots hd, List.getElem?_map, List.getElem?_eq_getElem hlt]; rfl
    have hcnt := h.childCount hd
    have h16 := h.count_le hd
    rw [getElem?_slots _ (by omega) h16] at hget
    simp only [Option.bind_some, List.getElem?_eq_getElem hlt]
    rw [rd_nat _ (by omega)]
    exact hget

theorem childNamed_some (hc : fs.childNamed d name = some k) : k ∈ fs.kids d ∧ fs.nameOf k = name := by
  constructor
  · exact List.mem_of_find?_eq_some hc
  · simpa using List.find?_some hc

end DahleOS
