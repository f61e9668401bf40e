import DahleOS.Proof.FsPool

/-!
# The filesystem commands in closed form

On a well-formed pool no command leaves its arrays. Each is stated here as one
equation, with the new pool written out:

* `Fs.alloc`: a fresh node, named but in no list.
* `Fs.adopt`: a node put at the end of a directory's list.
* `Fs.remove`: a node taken out of a directory's list, its name cleared.
-/

namespace DahleOS

open CArray Forest

/-! ## One node -/

/-- A node as `node_alloc` and the creating command leave it. -/
def newNode (type : UInt32) (name : Str) : FsNode :=
  { FsNode.zero with name := strncpy FsNode.zero.name name 63, type, parent := -1 }

/-- `children[child_count++] = c`. -/
def FsNode.addKid (nd : FsNode) (c : Int32) : FsNode :=
  { nd with
    children := fun i => if i.val = nd.childCount.toInt.toNat then c else nd.children i
    childCount := nd.childCount + 1 }

/-- The list without slot `i`, shifted down. -/
def FsNode.dropKid (nd : FsNode) (i : ℕ) : FsNode :=
  { nd with
    children := shifted nd.children i (nd.childCount.toInt.toNat - 1 - i)
    childCount := nd.childCount - 1 }

theorem toInt_add_one {i : Int32} (h0 : 0 ≤ i.toInt) (h : i.toInt ≤ 64) : (i + 1).toInt = i.toInt + 1 := by
  have h1 : (1 : Int32).toInt = 1 := rfl
  rw [Int32.toInt_add, h1]
  exact Int.bmod_eq_of_le (by omega) (by omega)

theorem toInt_sub_one {i : Int32} (h0 : 0 ≤ i.toInt) (h : i.toInt ≤ 64) : (i - 1).toInt = i.toInt - 1 := by
  have h1 : (1 : Int32).toInt = 1 := rfl
  rw [Int32.toInt_sub, h1]
  exact Int.bmod_eq_of_le (by omega) (by omega)

variable {nd : FsNode}

theorem FsNode.children_addKid {n : ℕ} (hn : nd.childCount.toInt.toNat = n) (h : n < 16) (c : Int32) :
    (nd.addKid c).children = Function.update nd.children ⟨n, h⟩ c := by
  funext i
  by_cases hi : i = ⟨n, h⟩
  · subst hi; simp [FsNode.addKid, hn]
  · have : i.val ≠ n := fun hv => hi (Fin.ext hv)
    simp [FsNode.addKid, hn, this, Function.update_of_ne hi]

theorem FsNode.kidInts_addKid (h0 : 0 ≤ nd.childCount.toInt) (h : nd.childCount.toInt < 16) (c : Int32) :
    (nd.addKid c).kidInts = nd.kidInts ++ [c] := by
  have hc : (nd.addKid c).childCount.toInt.toNat = nd.childCount.toInt.toNat + 1 := by
    have := toInt_add_one h0 (by omega)
    simp only [FsNode.addKid, this]; omega
  unfold FsNode.kidInts
  rw [hc, FsNode.children_addKid rfl (by omega), slots_push]

theorem FsNode.kidInts_dropKid {i : ℕ} (hi : i < nd.kidInts.length) (h0 : 0 ≤ nd.childCount.toInt)
    (h : nd.childCount.toInt ≤ 16) : (nd.dropKid i).kidInts = nd.kidInts.eraseIdx i := by
  unfold FsNode.kidInts at hi ⊢
  rw [length_slots _ (by omega)] at hi
  have hc : (nd.dropKid i).childCount.toInt.toNat = nd.childCount.toInt.toNat - 1 := by
    have := toInt_sub_one h0 (by omega)
    simp only [FsNode.dropKid, this]; omega
  rw [hc, ← slots_shifted nd.children hi (by omega)]
  rfl

theorem removeChild_go {child : Int32} (h0 : 0 ≤ nd.childCount.toInt) (h : nd.childCount.toInt ≤ 16)
    (hmem : child ∈ nd.kidInts) :
    ∀ todo i, i + todo = nd.childCount.toInt.toNat → i ≤ nd.kidInts.idxOf child →
      removeChild nd child i todo = some (nd.dropKid (nd.kidInts.idxOf child)) := by
  have hlen : nd.kidInts.length = nd.childCount.toInt.toNat := length_slots _ (by omega)
  have hlt := List.idxOf_lt_length_of_mem hmem
  intro todo
  induction todo with
  | zero => intro i hi hle; omega
  | succ todo ih =>
    intro i hi hle
    have h16 : i < 16 := by omega
    have hget : nd.kidInts[i]? = some (nd.children ⟨i, h16⟩) := getElem?_slots _ (by omega) (by omega)
    simp only [removeChild, rd_nat _ h16, Option.bind_eq_bind, Option.bind_some]
    by_cases hc : nd.children ⟨i, h16⟩ = child
    · -- the first slot that holds the child
      have hidx : nd.kidInts.idxOf child = i := by
        refine le_antisymm ?_ hle
        by_contra hgt
        have hlt : i < nd.kidInts.findIdx (· == child) := by simpa [List.idxOf] using hgt
        have := List.not_of_lt_findIdx hlt
        rw [List.getElem?_eq_getElem (by omega), Option.some.injEq] at hget
        simp [hget, hc] at this
      rw [if_pos hc, shiftLeft_eq _ _ _ (by omega), hidx]
      rfl
    · -- the child is further on
      have hne : nd.kidInts.idxOf child ≠ i := by
        intro hidx
        have hg := List.getElem_idxOf hlt
        rw [List.getElem?_eq_getElem (by omega), Option.some.injEq] at hget
        simp only [hidx, hget] at hg
        exact hc hg
      rw [if_neg hc, ih (i + 1) (by omega) (by omega)]

/-! ## The pool -/

variable {fs : Fs} {d k u : Fin 64}

/-- A fresh node, in no list. -/
def Fs.alloc (fs : Fs) (u : Fin 64) (type : UInt32) (name : Str) : Fs :=
  { fs with pool := Function.update fs.pool u (newNode type name), poolUsed := fs.poolUsed + 1 }

/-- `u` at the end of `d`'s list. -/
def Fs.adopt (fs : Fs) (d u : Fin 64) : Fs :=
  { fs with
    pool := Function.update (Function.update fs.pool d ((fs.pool d).addKid (ix u))) u
      { fs.pool u with parent := ix d } }

/-- `k` out of `d`'s list, its name cleared. -/
def Fs.remove (fs : Fs) (d k : Fin 64) : Fs :=
  { fs with
    pool := Function.update (Function.update fs.pool d ((fs.pool d).dropKid ((fs.kids d).idxOf k))) k
      { fs.pool k with name := fun _ => 0 } }

theorem nodeAlloc_full (h : fs.WellFormed) (hu : ¬ fs.used < 64) : nodeAlloc fs = some (-1, fs) := by
  have hp := h.poolUsed
  rw [nodeAlloc, if_pos]
  rw [le_iff_64]; omega

theorem nodeAlloc_ok (h : fs.WellFormed) (hu : fs.used < 64) :
    nodeAlloc fs = some (ix ⟨fs.used, hu⟩,
      { fs with
        pool := Function.update fs.pool ⟨fs.used, hu⟩ { FsNode.zero with parent := -1 }
        poolUsed := fs.poolUsed + 1 }) := by
  have hp := h.poolUsed
  have hix : fs.poolUsed = ix ⟨fs.used, hu⟩ := ix_of_toInt hp
  rw [nodeAlloc, if_neg (by rw [le_iff_64]; omega)]
  simp only [hix, setNode_ix, Option.bind_eq_bind, Option.bind_some]
  rfl

/-- The value of a failed call. -/
theorem minus_one_neg : (-1 : Int32) < 0 := by decide

theorem nodeAddChild_full (hc : 16 ≤ (fs.pool d).childCount) :
    nodeAddChild fs (ix d) (ix u) = some (-1, fs) := by
  simp [nodeAddChild, hc]

theorem nodeAddChild_ok (hne : d ≠ u) (h0 : 0 ≤ (fs.pool d).childCount.toInt)
    (hc : (fs.pool d).childCount.toInt < 16) :
    nodeAddChild fs (ix d) (ix u) = some (0, fs.adopt d u) := by
  have hnot : ¬ (16 : Int32) ≤ (fs.pool d).childCount := by
    rw [le_iff_16]; omega
  have hcast : (fs.pool d).childCount.toInt = ((fs.pool d).childCount.toInt.toNat : ℕ) := by omega
  unfold nodeAddChild
  simp only [node_ix, Option.bind_eq_bind, Option.bind_some, hnot, if_false]
  rw [hcast, wr_nat _ (show (fs.pool d).childCount.toInt.toNat < 16 by omega), Option.bind_some]
  simp only [setNode_ix, Option.bind_some, Function.update_of_ne hne.symm,
    ← @FsNode.children_addKid (fs.pool d) _ rfl (by omega)]
  rfl

/-- **Creating an entry**, whatever the name and the room. -/
theorem fsCreate_eq (h : fs.WellFormed) (hd : fs.cwd = ix d) (hda : d.val < fs.used) (cmd : FsCmd)
    (type : UInt32) (taken : Option FsMsg) (name : Str) :
    fsCreate cmd type taken fs name = some (
      if name = [] then ⟨fs, some (.usage cmd), false⟩
      else if (fs.childNamed d name).isSome then ⟨fs, taken, false⟩
      else if hu : fs.used < 64 then
        if (fs.kids d).length < 16 then
          ⟨(fs.alloc ⟨fs.used, hu⟩ type name).adopt d ⟨fs.used, hu⟩, none, true⟩
        else ⟨fs.alloc ⟨fs.used, hu⟩ type name, some (.parentFull cmd), false⟩
      else ⟨fs, some (.filesystemFull cmd), false⟩) := by
  have hcnt := h.childCount hda
  have h0 := (h.count d hda).1
  unfold fsCreate
  by_cases hn : name = []
  · simp [hn]
  simp only [hn, if_false, hd, nodeFindChild_eq h hda, Option.bind_eq_bind, Option.bind_some]
  cases hf : fs.childNamed d name with
  | some k => simp [ix_nonneg]
  | none =>
    have hneg : ¬ (0 : Int32) ≤ -1 := by decide
    simp only [hneg, if_false, Option.isSome_none, Bool.false_eq_true]
    by_cases hu : fs.used < 64
    · have hdu : d ≠ ⟨fs.used, hu⟩ := fun he => by
        have := congrArg Fin.val he
        simp only at this
        omega
      simp only [nodeAlloc_ok h hu, Option.bind_some, not_ix_neg, if_false, node_ix, setNode_ix,
        Function.update_self, Function.update_idem, hd, dif_pos hu]
      by_cases hl : (fs.kids d).length < 16
      · rw [nodeAddChild_ok hdu (by simpa [Function.update_of_ne hdu] using h0)
          (by simp only [Function.update_of_ne hdu]; omega)]
        have : ¬ (0 : Int32) < 0 := by decide
        simp only [Option.bind_some, this, if_false, if_pos hl]
        rw [← hd]; rfl
      · -- the node is allocated, and in no list
        rw [nodeAddChild_full (by
          simp only [Function.update_of_ne hdu]
          rw [le_iff_16]; omega)]
        simp only [Option.bind_some, minus_one_neg, if_true, if_neg hl]
        rw [← hd]; rfl
    · simp [nodeAlloc_full h hu, minus_one_neg, hu]

/-- **Removing an entry.** -/
theorem fsCmdRm_eq (h : fs.WellFormed) (hd : fs.cwd = ix d) (hda : d.val < fs.used) (name : Str) :
    fsCmdRm fs name = some (
      if name = [] then ⟨fs, some (.usage .rm), false⟩
      else match fs.childNamed d name with
        | none => ⟨fs, some (.noSuchFile .rm name), false⟩
        | some k =>
          if (fs.pool k).type = fsDir then ⟨fs, some (.isDirectory .rm name), false⟩
          else ⟨fs.remove d k, none, true⟩) := by
  unfold fsCmdRm
  by_cases hn : name = []
  · simp [hn]
  simp only [hn, if_false, hd, nodeFindChild_eq h hda, Option.bind_eq_bind, Option.bind_some]
  cases hf : fs.childNamed d name with
  | none =>
    simp [minus_one_neg]
  | some k =>
    obtain ⟨hk, -⟩ := childNamed_some hf
    have hdk : k ≠ d := (h.of_mem_kids hk).1.ne'
    simp only [not_ix_neg, if_false, node_ix, Option.bind_some]
    by_cases ht : (fs.pool k).type = fsDir
    · simp [ht]
    -- the loop finds the slot that the list of nodes has the child at
    have hmem : ix k ∈ (fs.pool d).kidInts := by
      rw [h.kidInts hda]; exact List.mem_map_of_mem hk
    have hidx : (fs.pool d).kidInts.idxOf (ix k) = (fs.kids d).idxOf k := by
      rw [h.kidInts hda]
      simp only [List.idxOf, List.findIdx_map]
      congr 1
      funext j
      simp [ix_inj, beq_eq_decide]
    have hrm := removeChild_go (h.count d hda).1 (h.count d hda).2 hmem
      (fs.pool d).childCount.toInt.toNat 0 (by omega) (by omega)
    simp only [ht, if_false, hrm, hidx, Option.bind_some, setNode_ix, Function.update_of_ne hdk]
    rfl

end DahleOS
