import DahleOS.Proof.FsOps
import Mathlib.Data.List.InsertIdx

/-!
# The pool stays a tree

What each change of the pool does to the child lists, and that it keeps the pool well
formed.

* `kids_alloc`, `kids_adopt`, `kids_remove`: the child lists behind a fresh node, a link
  and a removal.
* `Fs.WellFormed.alloc`, `.adopt`, `.remove`: the pool is well formed behind each.
-/

namespace DahleOS

open CArray Forest

variable {fs : Fs} {d k : Fin 64}

theorem idx?_eq_some {i : Int32} (h : idx? i = some k) : i = ix k := by
  unfold idx? at h
  split at h
  · rename_i hi
    have hk : i.toInt.toNat = k.val := congrArg Fin.val (Option.some.inj h)
    exact ix_of_toInt (by omega)
  · cases h

/-- The child lists, read off the slots of the nodes. -/
theorem Fs.kids_of_slots {K : Fin 64 → List (Fin 64)}
    (hin : ∀ d : Fin 64, d.val < fs.used → (fs.pool d).kidInts = (K d).map ix)
    (hout : ∀ d : Fin 64, fs.used ≤ d.val → K d = []) : fs.kids = K := by
  funext d
  by_cases hd : d.val < fs.used
  · have hinv : idx? ∘ ix = some := funext idx?_ix
    rw [kids_of_lt hd, hin d hd, List.filterMap_map, hinv, List.filterMap_some]
  · rw [kids_of_ge (by omega), hout d (by omega)]

/-- The well-formedness conditions on the links, from child lists that agree with the
owner links. -/
theorem Fs.entry_of_owned {K : Fin 64 → List (Fin 64)}
    (hin : ∀ d : Fin 64, d.val < fs.used → (fs.pool d).kidInts = (K d).map ix)
    (ho : Owned K fs.owner) (hused : ∀ d, ∀ c ∈ K d, c.val < fs.used) {d : Fin 64} (hd : d.val < fs.used) :
    (fs.pool d).kidInts.Nodup ∧ ∀ c ∈ (fs.pool d).kidInts,
      ∃ k : Fin 64, c = ix k ∧ d < k ∧ k.val < fs.used ∧ (fs.pool k).parent = ix d := by
  rw [hin d hd]
  refine ⟨(ho.nodup d).map fun _ _ => ix_inj.1, ?_⟩
  intro c hc
  obtain ⟨k, hk, rfl⟩ := List.mem_map.1 hc
  exact ⟨k, rfl, ho.lt d k hk, hused d k hk, idx?_eq_some (ho.owner d k hk)⟩

/-! ## A fresh node -/

theorem newNode_childCount (type : UInt32) (name : Str) : (newNode type name).childCount = 0 := rfl

theorem newNode_kidInts (type : UInt32) (name : Str) : (newNode type name).kidInts = [] := by
  simp [FsNode.kidInts, newNode_childCount]

theorem newNode_cstr (type : UInt32) (name : Str) :
    cstr (newNode type name).name = some (name.take 63) :=
  cstr_strncpy (by omega) _ rfl _

section Alloc

variable (h : fs.WellFormed) (hu : fs.used < 64) (type : UInt32) (name : Str)
include h

theorem used_alloc : (fs.alloc ⟨fs.used, hu⟩ type name).used = fs.used + 1 := by
  have := h.poolUsed
  have hp := toInt_add_one (i := fs.poolUsed) (by omega) (by omega)
  simp only [Fs.alloc, Fs.used, hp] at *
  omega

omit h in
theorem pool_alloc_of_lt (hd : d.val < fs.used) :
    (fs.alloc ⟨fs.used, hu⟩ type name).pool d = fs.pool d := by
  have : d ≠ ⟨fs.used, hu⟩ := fun he => by rw [he] at hd; simp at hd
  exact Function.update_of_ne this _ _

theorem kidInts_alloc (hd : d.val < fs.used + 1) :
    ((fs.alloc ⟨fs.used, hu⟩ type name).pool d).kidInts = (fs.kids d).map ix := by
  rcases Nat.lt_or_eq_of_le (Nat.le_of_lt_succ hd) with hlt | heq
  · rw [pool_alloc_of_lt hu type name hlt, h.kidInts hlt]
  · obtain rfl : d = ⟨fs.used, hu⟩ := Fin.ext heq
    rw [kids_of_ge (le_refl _)]
    simp [Fs.alloc, newNode_kidInts]

theorem kids_alloc : (fs.alloc ⟨fs.used, hu⟩ type name).kids = fs.kids := by
  have hused := used_alloc h hu type name
  refine Fs.kids_of_slots ?_ fun d hd => kids_of_ge (by omega)
  intro d hd
  exact kidInts_alloc h hu type name (by omega)

/-- **An allocated node that stays in no list** keeps the pool well formed. -/
theorem Fs.WellFormed.alloc : (fs.alloc ⟨fs.used, hu⟩ type name).WellFormed := by
  have hused := used_alloc h hu type name
  have hpos := h.used_pos
  have hold {d : Fin 64} := pool_alloc_of_lt (d := d) hu type name
  have hcase : ∀ d : Fin 64, d.val < fs.used + 1 → d.val < fs.used ∨
      (fs.alloc ⟨fs.used, hu⟩ type name).pool d = newNode type name := by
    intro d hd
    rcases Nat.lt_or_eq_of_le (Nat.le_of_lt_succ hd) with hlt | heq
    · exact Or.inl hlt
    · obtain rfl : d = ⟨fs.used, hu⟩ := Fin.ext heq
      exact Or.inr (by simp [Fs.alloc])
  have howned : Owned fs.kids (fs.alloc ⟨fs.used, hu⟩ type name).owner := by
    have ho := h.owned
    refine ⟨ho.nodup, ?_, ho.lt⟩
    intro d c hc
    rw [Fs.owner, hold (h.of_mem_kids hc).2.1]
    exact ho.owner d c hc
  have hlinks {d : Fin 64} (hd : d.val < (fs.alloc ⟨fs.used, hu⟩ type name).used) :=
    Fs.entry_of_owned (fun e he => kidInts_alloc h hu type name (by omega)) howned
      (fun e c hc => by have := (h.of_mem_kids hc).2.1; omega) hd
  have hcount : (fs.alloc ⟨fs.used, hu⟩ type name).poolUsed.toInt = fs.poolUsed.toInt + 1 := by
    have := h.poolUsed
    exact toInt_add_one (by omega) (by omega)
  have hroot : (fs.alloc ⟨fs.used, hu⟩ type name).pool 0 = fs.pool 0 := hold (by simpa using hpos)
  refine
    { used := ?_, rootDir := ?_, rootParent := ?_, count := ?_, fileCount := ?_
      entry := fun d hd => (hlinks hd).2, once := fun d hd => (hlinks hd).1
      named := ?_, text := ?_, cwd := ?_ }
  · have h0 := h.used
    have := h.poolUsed
    omega
  · rw [hroot]; exact h.rootDir
  · rw [hroot]; exact h.rootParent
  · -- an old node, or the new one, which has no child
    intro d hd
    rcases hcase d (by omega) with hlt | heq
    · rw [hold hlt]; exact h.count d hlt
    · rw [heq, newNode_childCount]; decide
  · intro d hd ht
    rcases hcase d (by omega) with hlt | heq
    · rw [hold hlt] at ht ⊢; exact h.fileCount d hlt ht
    · rw [heq, newNode_childCount]
  · intro d hd
    rcases hcase d (by omega) with hlt | heq
    · rw [hold hlt]; exact h.named d hlt
    · rw [heq]; exact ⟨_, newNode_cstr type name⟩
  · intro d hd
    rcases hcase d (by omega) with hlt | heq
    · rw [hold hlt]; exact h.text d hlt
    · rw [heq]; exact Or.inl rfl
  · -- the child lists are the same
    obtain ⟨k, hk, hr, ht⟩ := h.cwd
    have hreach : Reach (fs.alloc ⟨fs.used, hu⟩ type name).kids 0 k := by
      rw [kids_alloc h hu type name]; exact hr
    have hdir : ((fs.alloc ⟨fs.used, hu⟩ type name).pool k).type = fsDir := by
      rw [hold (h.reach_used hr)]; exact ht
    exact ⟨k, hk, hreach, hdir⟩

end Alloc

/-! ## A node put in a list -/

section Adopt

variable {u : Fin 64}

theorem used_adopt (d u : Fin 64) : (fs.adopt d u).used = fs.used := rfl

theorem pool_adopt_self (d u : Fin 64) : (fs.adopt d u).pool u = { fs.pool u with parent := ix d } := by
  simp [Fs.adopt]

theorem pool_adopt_dir (hne : d ≠ u) : (fs.adopt d u).pool d = (fs.pool d).addKid (ix u) := by
  simp [Fs.adopt, hne]

theorem pool_adopt_of_ne {x : Fin 64} (hd : x ≠ d) (hu : x ≠ u) : (fs.adopt d u).pool x = fs.pool x := by
  simp [Fs.adopt, hd, hu]

theorem owner_adopt (hne : d ≠ u) : (fs.adopt d u).owner = Function.update fs.owner u (some d) := by
  funext x
  by_cases hxu : x = u
  · subst hxu
    simp [Fs.owner, pool_adopt_self]
  · rw [Function.update_of_ne hxu]
    by_cases hxd : x = d
    · subst hxd
      rw [Fs.owner, pool_adopt_dir hne]; rfl
    · rw [Fs.owner, pool_adopt_of_ne hxd hxu]; rfl

/-- A link changes no node's type, name or data. -/
theorem content_adopt (hne : d ≠ u) (x : Fin 64) :
    ((fs.adopt d u).pool x).type = (fs.pool x).type ∧ ((fs.adopt d u).pool x).name = (fs.pool x).name ∧
      ((fs.adopt d u).pool x).dataLen = (fs.pool x).dataLen ∧
      ((fs.adopt d u).pool x).data = (fs.pool x).data := by
  by_cases hxu : x = u
  · subst hxu; rw [pool_adopt_self]; exact ⟨rfl, rfl, rfl, rfl⟩
  · by_cases hxd : x = d
    · subst hxd; rw [pool_adopt_dir hne]; exact ⟨rfl, rfl, rfl, rfl⟩
    · rw [pool_adopt_of_ne hxd hxu]; exact ⟨rfl, rfl, rfl, rfl⟩

variable (h : fs.WellFormed) (hd : d.val < fs.used) (hu : u.val < fs.used) (hlt : d < u)
  (hl : (fs.kids d).length < 16)
include h hd hlt hl

theorem kidInts_adopt {x : Fin 64} (hx : x.val < fs.used) :
    ((fs.adopt d u).pool x).kidInts = (link fs.kids d u x).map ix := by
  have hne : d ≠ u := hlt.ne
  unfold link
  by_cases hxd : x = d
  · subst hxd
    have hc := h.childCount hd
    rw [pool_adopt_dir hne, FsNode.kidInts_addKid (by omega) (by omega), h.kidInts hd]
    simp
  · rw [Function.update_of_ne hxd, ← h.kidInts hx]
    by_cases hxu : x = u
    · subst hxu; rw [pool_adopt_self]; rfl
    · rw [pool_adopt_of_ne hxd hxu]

theorem kids_adopt : (fs.adopt d u).kids = link fs.kids d u := by
  refine Fs.kids_of_slots (fun x hx => kidInts_adopt h hd hlt hl hx) ?_
  intro x hx
  have hne : x ≠ d := fun he => by rw [he, used_adopt] at hx; omega
  rw [link, Function.update_of_ne hne]
  exact kids_of_ge hx

include hu in
/-- **An allocated node put at the end of a directory's list** keeps the pool well
formed, when it was in no list before. -/
theorem Fs.WellFormed.adopt (hdir : (fs.pool d).type = fsDir) (hfresh : ∀ e, u ∉ fs.kids e) :
    (fs.adopt d u).WellFormed := by
  have hne : d ≠ u := hlt.ne
  have hu0 : (0 : Fin 64) ≠ u := by
    rintro rfl; exact absurd hlt (by simp)
  have howned : Owned (link fs.kids d u) (fs.adopt d u).owner := by
    rw [owner_adopt hne]; exact h.owned.link hlt hfresh
  have hlinks {x : Fin 64} (hx : x.val < fs.used) :=
    Fs.entry_of_owned (fun e he => kidInts_adopt h hd hlt hl he) howned (fun e c hc => by
      rcases mem_link.1 hc with hc | ⟨-, rfl⟩
      · exact (h.of_mem_kids hc).2.1
      · exact hu) hx
  have hkeep := @content_adopt fs d u hne
  have hcount : ∀ x, x ≠ d → ((fs.adopt d u).pool x).childCount = (fs.pool x).childCount := by
    intro x hxd
    by_cases hxu : x = u
    · subst hxu; rw [pool_adopt_self]
    · rw [pool_adopt_of_ne hxd hxu]
  refine
    { used := h.used, rootDir := ?_, rootParent := ?_, count := ?_, fileCount := ?_
      entry := fun x hx => (hlinks hx).2, once := fun x hx => (hlinks hx).1
      named := ?_, text := ?_, cwd := ?_ }
  · rw [(hkeep 0).1]; exact h.rootDir
  · -- the root is never the node that is put in the list
    by_cases h0 : (0 : Fin 64) = d
    · rw [h0, pool_adopt_dir hne, ← h0]; exact h.rootParent
    · rw [pool_adopt_of_ne h0 hu0]; exact h.rootParent
  · intro x hx
    by_cases hxd : x = d
    · -- one more child, and there was room for it
      subst hxd
      have hc := h.childCount hd
      have hadd := toInt_add_one (i := (fs.pool x).childCount) (by omega) (by omega)
      rw [pool_adopt_dir hne]
      simp only [FsNode.addKid, hadd]; omega
    · rw [hcount x hxd]; exact h.count x hx
  · -- a file is not the directory whose list grows
    intro x hx ht
    rw [(hkeep x).1] at ht
    have hxd : x ≠ d := by
      rintro rfl; exact ht hdir
    rw [hcount x hxd]; exact h.fileCount x hx ht
  · intro x hx
    rw [(hkeep x).2.1]; exact h.named x hx
  · intro x hx
    rw [(hkeep x).2.2.1, (hkeep x).2.2.2]; exact h.text x hx
  · obtain ⟨k, hk, hr, ht⟩ := h.cwd
    have hreach : Reach (fs.adopt d u).kids 0 k := by
      rw [kids_adopt h hd hlt hl]; exact hr.link d u
    have hkdir : ((fs.adopt d u).pool k).type = fsDir := by rw [(hkeep k).1]; exact ht
    exact ⟨k, hk, hreach, hkdir⟩

end Adopt

/-! ## A node taken out of its list -/

section Remove

theorem used_remove (d k : Fin 64) : (fs.remove d k).used = fs.used := rfl

theorem pool_remove_self (d k : Fin 64) : (fs.remove d k).pool k = { fs.pool k with name := fun _ => 0 } := by
  simp [Fs.remove]

theorem pool_remove_dir (hne : d ≠ k) :
    (fs.remove d k).pool d = (fs.pool d).dropKid ((fs.kids d).idxOf k) := by
  simp [Fs.remove, hne]

theorem pool_remove_of_ne {x : Fin 64} (hd : x ≠ d) (hk : x ≠ k) : (fs.remove d k).pool x = fs.pool x := by
  simp [Fs.remove, hd, hk]

/-- A removal changes no node's type, parent or data. -/
theorem content_remove (hne : d ≠ k) (x : Fin 64) :
    ((fs.remove d k).pool x).type = (fs.pool x).type ∧
      ((fs.remove d k).pool x).parent = (fs.pool x).parent ∧
      ((fs.remove d k).pool x).dataLen = (fs.pool x).dataLen ∧
      ((fs.remove d k).pool x).data = (fs.pool x).data := by
  by_cases hxk : x = k
  · subst hxk; rw [pool_remove_self]; exact ⟨rfl, rfl, rfl, rfl⟩
  · by_cases hxd : x = d
    · subst hxd; rw [pool_remove_dir hne]; exact ⟨rfl, rfl, rfl, rfl⟩
    · rw [pool_remove_of_ne hxd hxk]; exact ⟨rfl, rfl, rfl, rfl⟩

/-- A removal changes no other node's name. -/
theorem name_remove (hne : d ≠ k) {x : Fin 64} (hx : x ≠ k) :
    ((fs.remove d k).pool x).name = (fs.pool x).name := by
  by_cases hxd : x = d
  · subst hxd; rw [pool_remove_dir hne]; rfl
  · rw [pool_remove_of_ne hxd hx]

variable (h : fs.WellFormed) (hk : k ∈ fs.kids d)
include h hk

theorem kidInts_remove {x : Fin 64} (hx : x.val < fs.used) :
    ((fs.remove d k).pool x).kidInts = (unlink fs.kids d k x).map ix := by
  have hne : d ≠ k := (h.of_mem_kids hk).1.ne
  have hd := allocated_of_mem_kids hk
  unfold unlink
  by_cases hxd : x = d
  · subst hxd
    have hidx := List.idxOf_lt_length_of_mem hk
    rw [pool_remove_dir hne, FsNode.kidInts_dropKid (by rw [h.kidInts hd, List.length_map]; exact hidx)
      (h.count x hd).1 (h.count x hd).2, h.kidInts hd, Function.update_self,
      List.erase_eq_eraseIdx_of_idxOf rfl, List.eraseIdx_map]
  · rw [Function.update_of_ne hxd, ← h.kidInts hx]
    by_cases hxk : x = k
    · subst hxk; rw [pool_remove_self]; rfl
    · rw [pool_remove_of_ne hxd hxk]

theorem kids_remove : (fs.remove d k).kids = unlink fs.kids d k := by
  refine Fs.kids_of_slots (fun x hx => kidInts_remove h hk hx) ?_
  intro x hx
  have hne : x ≠ d := by
    rintro rfl
    have := allocated_of_mem_kids hk
    rw [used_remove] at hx; omega
  rw [unlink, Function.update_of_ne hne]
  exact kids_of_ge hx

/-- **A file taken out of its directory** leaves the pool well formed. -/
theorem Fs.WellFormed.remove (hfile : (fs.pool k).type ≠ fsDir) : (fs.remove d k).WellFormed := by
  have hne : d ≠ k := (h.of_mem_kids hk).1.ne
  have hd := allocated_of_mem_kids hk
  have hk0 : (0 : Fin 64) ≠ k := fun he => hfile (he ▸ h.rootDir)
  have hcase : ∀ x, x = d ∨ (x ≠ d ∧ ((fs.remove d k).pool x).childCount = (fs.pool x).childCount) := by
    intro x
    by_cases hxd : x = d
    · exact Or.inl hxd
    · by_cases hxk : x = k
      · subst hxk; rw [pool_remove_self]; exact Or.inr ⟨hxd, rfl⟩
      · rw [pool_remove_of_ne hxd hxk]; exact Or.inr ⟨hxd, rfl⟩
  have hkeep := @content_remove fs d k hne
  have howned : Owned (unlink fs.kids d k) (fs.remove d k).owner := by
    have : (fs.remove d k).owner = fs.owner := by
      funext x; rw [Fs.owner, (hkeep x).2.1]; rfl
    rw [this]; exact h.owned.unlink d k
  have hlinks {x : Fin 64} (hx : x.val < fs.used) :=
    Fs.entry_of_owned (fun e he => kidInts_remove h hk he) howned
      (fun e c hc => (h.of_mem_kids (mem_of_mem_unlink hc)).2.1) hx
  refine
    { used := h.used, rootDir := ?_, rootParent := ?_, count := ?_, fileCount := ?_
      entry := fun x hx => (hlinks hx).2, once := fun x hx => (hlinks hx).1
      named := ?_, text := ?_, cwd := ?_ }
  · rw [(hkeep 0).1]; exact h.rootDir
  · rw [(hkeep 0).2.1]; exact h.rootParent
  · intro x hx
    rcases hcase x with rfl | ⟨-, hc⟩
    · -- one child less, and there was one
      have hc := h.childCount hd
      have hpos := List.length_pos_of_mem hk
      have h16 := (h.count x hd).2
      have hsub := toInt_sub_one (i := (fs.pool x).childCount) (by omega) (by omega)
      rw [pool_remove_dir hne]
      simp only [FsNode.dropKid, hsub]; omega
    · rw [hc]; exact h.count x hx
  · intro x hx ht
    rw [(hkeep x).1] at ht
    rcases hcase x with rfl | ⟨-, hc⟩
    · exact absurd (h.owner_dir hk) ht
    · rw [hc]; exact h.fileCount x hx ht
  · intro x hx
    by_cases hxk : x = k
    · -- the cleared name is the empty one
      subst hxk
      have hempty : cstr (fun _ : Fin 64 => 0) = some [] := rfl
      rw [pool_remove_self]
      exact ⟨[], hempty⟩
    · rw [name_remove hne hxk]; exact h.named x hx
  · intro x hx
    rw [(hkeep x).2.2.1, (hkeep x).2.2.2]; exact h.text x hx
  · -- the current directory is not the file, and no path leads through a file
    obtain ⟨c, hc, hr, ht⟩ := h.cwd
    have hck : c ≠ k := by rintro rfl; exact hfile ht
    have hreach : Reach (fs.remove d k).kids 0 c := by
      rw [kids_remove h hk]
      exact hr.unlink (h.kids_file hfile) hck
    have hcdir : ((fs.remove d k).pool c).type = fsDir := by rw [(hkeep c).1]; exact ht
    exact ⟨c, hc, hreach, hcdir⟩

end Remove

end DahleOS
