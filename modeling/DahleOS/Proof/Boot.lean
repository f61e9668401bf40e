import DahleOS.Proof.AliasTable
import DahleOS.Proof.Dispatch
import DahleOS.Proof.FsRun
import DahleOS.Proof.Reboot

/-!
# What comes from the disk

The loaders look at a magic number, a flag and a checksum, and at nothing that they
decode. What they accept (`accepted?`) becomes memory as it is.

* `cmdLoad_get`, `shellBoot_takes`: `load`, and the start of the shell, take of each category
  what the loader accepts, or leave it.
* `exec_keeps`, `shellAction_keeps`: on well-formed memory no command leaves its tables,
  and only `load` can make memory ill formed.
-/

namespace DahleOS

open Codec Expander

/-- The snapshot of a well-formed memory. -/
def Category.WellFormed : (c : Category) → c.Data → Prop
  | .aliases, t => AliasTable.WellFormed t
  | .fs, pool => Fs.WellFormed pool

/-- **Well-formed memory.** -/
def World.WellFormed (w : World) : Prop := ∀ c : Category, c.WellFormed (w.get c)

theorem World.WellFormed.aliases {w : World} (h : w.WellFormed) : w.aliases.WellFormed := h .aliases

theorem World.WellFormed.fs {w : World} (h : w.WellFormed) : w.fs.WellFormed := h .fs

theorem World.wellFormed_iff {w : World} : w.WellFormed ↔ w.aliases.WellFormed ∧ w.fs.WellFormed :=
  ⟨fun h => ⟨h.aliases, h.fs⟩, fun h c => by cases c; exacts [h.1, h.2]⟩

/-- What every access to memory relies on, spelled out. -/
structure World.InBounds (w : World) : Prop where
  aliasCount : 0 ≤ w.aliases.count.toInt ∧ w.aliases.count.toInt ≤ 16
  aliasText : ∀ i : Fin 16, i.val < w.aliases.used →
    (∃ s, cstr (w.aliases.table i).name = some s) ∧ ∃ s, cstr (w.aliases.table i).value = some s
  poolUsed : 1 ≤ w.fs.poolUsed.toInt ∧ w.fs.poolUsed.toInt ≤ 64
  cwd : 0 ≤ w.fs.cwd.toInt ∧ w.fs.cwd.toInt < 64
  childCount : ∀ d : Fin 64, d.val < w.fs.used →
    0 ≤ (w.fs.pool d).childCount.toInt ∧ (w.fs.pool d).childCount.toInt ≤ 16
  children : ∀ d : Fin 64, d.val < w.fs.used → ∀ c ∈ (w.fs.pool d).kidInts, 0 ≤ c.toInt ∧ c.toInt < 64
  parent : ∀ d : Fin 64, d.val < w.fs.used → ∀ c ∈ (w.fs.pool d).kidInts, ∀ nd, w.fs.node c = some nd →
    0 ≤ nd.parent.toInt ∧ nd.parent.toInt < 64
  name : ∀ d : Fin 64, d.val < w.fs.used → ∃ s, cstr (w.fs.pool d).name = some s
  chain : Relation.ReflTransGen (fun i j => ∃ nd, w.fs.node i = some nd ∧ nd.parent = j) w.fs.cwd 0

theorem ix_range (k : Fin 64) : 0 ≤ (ix k).toInt ∧ (ix k).toInt < 64 := by
  rw [ix_toInt]
  omega

/-- Climbing the parent fields undoes descending the lists. -/
theorem chain_of_reach {fs : Fs} (h : fs.WellFormed) {k : Fin 64} (hr : Forest.Reach fs.kids 0 k) :
    Relation.ReflTransGen (fun i j => ∃ nd, fs.node i = some nd ∧ nd.parent = j) (ix k) 0 := by
  induction hr with
  | refl => exact .refl
  | tail _ hk ih => exact .head ⟨_, node_ix fs _, (h.of_mem_kids hk).2.2⟩ ih

theorem World.WellFormed.inBounds {w : World} (h : w.WellFormed) : w.InBounds := by
  obtain ⟨k, hk, hr, -⟩ := h.fs.cwd
  have hchildren : ∀ d : Fin 64, d.val < w.fs.used → ∀ c ∈ (w.fs.pool d).kidInts,
      0 ≤ c.toInt ∧ c.toInt < 64 := by
    intro d hd c hc
    obtain ⟨j, rfl, -⟩ := h.fs.entry d hd c hc
    exact ix_range j
  have hparent : ∀ d : Fin 64, d.val < w.fs.used → ∀ c ∈ (w.fs.pool d).kidInts, ∀ nd,
      w.fs.node c = some nd → 0 ≤ nd.parent.toInt ∧ nd.parent.toInt < 64 := by
    intro d hd c hc nd hn
    obtain ⟨j, rfl, -, -, hp⟩ := h.fs.entry d hd c hc
    rw [node_ix, Option.some.injEq] at hn
    rw [← hn, hp]
    exact ix_range d
  exact
    { aliasCount := h.aliases.count
      aliasText := fun i _ => ⟨⟨_, h.aliases.cstr_name i⟩, _, h.aliases.cstr_value i⟩
      poolUsed := h.fs.used
      cwd := by rw [hk]; exact ix_range k
      childCount := h.fs.count
      children := hchildren
      parent := hparent
      name := h.fs.named
      chain := by rw [hk]; exact chain_of_reach h.fs hr }

/-! ## Loading -/

/-- From `w` to `w'`, what is in memory is as it was or was taken from the disk, which is
as it was. -/
structure Taken (w w' : World) : Prop where
  bytes : w'.drive.bytes = w.drive.bytes
  data : ∀ c, w'.get c = w.get c ∨ snapshot? w.drive.bytes c = some (w'.get c)

theorem Taken.refl (w : World) : Taken w w := ⟨rfl, fun _ => Or.inl rfl⟩

theorem Taken.trans {u v w : World} (h : Taken u v) (h' : Taken v w) : Taken u w := by
  refine ⟨h'.bytes.trans h.bytes, ?_⟩
  intro c
  rcases h'.data c with heq | hs
  · rw [heq]; exact h.data c
  · rw [h.bytes] at hs; exact Or.inr hs

theorem persistLoad_taken (c : Category) (w : World) : Taken w (persistLoad c w).2 := by
  obtain ⟨plan, ⟨heq, -⟩ | ⟨x, hx, heq⟩⟩ := persistLoad_cases c w
  · rw [heq]
    exact ⟨rfl, fun c' => Or.inl (by cases c' <;> rfl)⟩
  · rw [heq]
    refine ⟨by rw [World.set_drive, World.withPlan_bytes], ?_⟩
    intro c'
    by_cases hc : c' = c
    · subst hc
      rw [World.get_set_self]
      exact Or.inr hx
    · rw [World.get_set_other hc]
      exact Or.inl (by cases c' <;> rfl)

theorem cmdLoad_taken (w : World) : Taken w (cmdLoad w).2 :=
  (persistLoad_taken .aliases w).trans (persistLoad_taken .fs _)

/-- **A load** takes what it accepts. -/
theorem persistLoad_get (c : Category) (w : World) :
    (persistLoad c w).2.get c = (accepted? c w).getD (w.get c) ∧
      ∀ c' ≠ c, (persistLoad c w).2.get c' = w.get c' := by
  have hplan (plan : ℕ → Script) (c' : Category) : (w.withPlan plan).get c' = w.get c' := by cases c' <;> rfl
  obtain ⟨plan, ⟨hnone, hload, -⟩ | ⟨x, hx, hload⟩⟩ := persistLoad_exact c w
  · rw [hnone, hload]
    exact ⟨hplan plan c, fun c' _ => hplan plan c'⟩
  · rw [hx, hload]
    refine ⟨World.get_set_self _ c x, fun c' hne => ?_⟩
    rw [World.get_set_other hne]
    exact hplan plan c'

/-- What `load` takes of a category. The second loader runs behind the first. -/
def loadTakes (w : World) : (c : Category) → Option c.Data
  | .aliases => accepted? .aliases w
  | .fs => accepted? .fs (persistLoadAliases w).2

/-- What the start of the shell takes of a category. -/
def startTakes (drive : Drive) (c : Category) : Option c.Data :=
  if (persistProbe (World.cleared drive)).1 then loadTakes (persistProbe (World.cleared drive)).2 c else none

/-- **`load`** takes of each category what its loader accepts, and leaves it otherwise. -/
theorem cmdLoad_get (w : World) (c : Category) : (cmdLoad w).2.get c = (loadTakes w c).getD (w.get c) := by
  obtain ⟨haliases, hpool⟩ := persistLoad_get .aliases w
  obtain ⟨hfs, hkeep⟩ := persistLoad_get .fs (persistLoad .aliases w).2
  cases c with
  | aliases => exact (hkeep .aliases (by decide)).trans haliases
  | fs =>
    rw [hpool .fs (by decide)] at hfs
    exact hfs

/-- What `load` takes is well formed. -/
def LoadSound (w : World) : Prop := ∀ (c : Category) x, loadTakes w c = some x → c.WellFormed x

theorem cmdLoad_wellFormed {w : World} (h : w.WellFormed) (hs : LoadSound w) : (cmdLoad w).2.WellFormed := by
  intro c
  rw [cmdLoad_get]
  cases hx : loadTakes w c with
  | none => exact h c
  | some x => exact hs c x hx

/-- What is taken is the snapshot on the disk. -/
theorem snapshot?_of_loadTakes {w : World} {c : Category} {x : c.Data} (h : loadTakes w c = some x) :
    snapshot? w.drive.bytes c = some x := by
  cases c with
  | aliases => exact snapshot?_of_accepted h
  | fs =>
    have hx := snapshot?_of_accepted h
    rwa [persistLoadAliases, (persistLoad_taken .aliases w).bytes] at hx

/-- On a good drive, all of it is taken. -/
theorem loadTakes_good {w : World} {disk : ℕ → UInt8} (hp : w.diskPresent = true) (hd : w.drive = Drive.good disk)
    (c : Category) : loadTakes w c = snapshot? disk c := by
  have hall (c : Category) {v : World} (hp : v.diskPresent = true) (hd : v.drive = Drive.good disk) :
      accepted? c v = snapshot? disk c := by
    unfold accepted?
    rw [hd]
    exact if_pos ⟨hp, ⟨rfl, rfl, rfl⟩, fun _ _ => rfl⟩
  cases c with
  | aliases => exact hall .aliases hp hd
  | fs =>
    have hkeep := persistLoad_drive (c := .aliases) hp hd
    exact hall .fs hkeep.1 hkeep.2

/-- The probe sets what it sets, and leaves memory and the disk alone. -/
theorem persistProbe_cases (w : World) : ∃ present flags plan, (persistProbe w).2 =
    { w with diskPresent := present, savelistFlags := flags, drive := ⟨w.drive.bytes, plan⟩ } := by
  unfold persistProbe ataDetect
  dsimp only
  obtain ⟨r, hr, -⟩ := readHeader_eq { w with
    diskPresent := (List.range 4).all fun i => w.drive.plan 0 i = .ok
    drive := w.drive.advance } fun _ => 0
  simp only [hr]
  generalize headerCodec.symm _ = hdr
  split_ifs <;> exact ⟨_, _, _, rfl⟩

theorem persistProbe_taken (w : World) : Taken w (persistProbe w).2 := by
  obtain ⟨present, flags, plan, heq⟩ := persistProbe_cases w
  rw [heq]
  exact ⟨rfl, fun c => Or.inl (by cases c <;> rfl)⟩

/-- The probe succeeds on a header of the right version only. -/
theorem persistProbe_version {w : World} (h : (persistProbe w).1 = true) :
    (diskHeader w.drive.bytes).magic = persistMagic ∧ (diskHeader w.drive.bytes).version = persistVersion := by
  unfold persistProbe ataDetect at h
  dsimp only at h
  obtain ⟨r, hr, hok⟩ := readHeader_eq { w with
    diskPresent := (List.range 4).all fun i => w.drive.plan 0 i = .ok
    drive := w.drive.advance } fun _ => 0
  simp only [hr] at h
  split at h
  · cases h
  split at h
  · cases h
  next _ hread =>
    rw [if_pos (hok.1 (not_not.1 hread)), headerCodec_sectors] at h
    split at h
    · cases h
    next hval =>
      obtain ⟨hm, hv⟩ := not_or.1 hval
      exact ⟨not_not.1 hm, not_not.1 hv⟩

/-- **The start of the shell** succeeds, with what it takes of each category, or the
default. -/
theorem shellBoot_takes (drive : Drive) : ∃ fs₀ w, fsInit = some fs₀ ∧ shellBoot (World.cleared drive) = some w ∧
    w.aliases = (startTakes drive .aliases).getD .zero ∧ w.fs = (startTakes drive .fs).getD fs₀ := by
  obtain ⟨fs₀, h₀, -⟩ := fsInit_wellFormed
  refine ⟨fs₀, ?_⟩
  obtain ⟨present, flags, plan, hprobe⟩ := persistProbe_cases (World.cleared drive)
  have hcleared : ({ World.cleared drive with fs := fsInitEmpty } : World) = World.cleared drive := rfl
  have haliases₀ : (persistProbe (World.cleared drive)).2.aliases = .zero := by rw [hprobe]; rfl
  unfold startTakes shellBoot
  dsimp only
  rw [hcleared]
  generalize persistProbe (World.cleared drive) = probed at haliases₀ ⊢
  obtain ⟨saved, w₁⟩ := probed
  simp only at haliases₀ ⊢
  cases saved with
  | false => exact ⟨{ w₁ with fs := fs₀ }, h₀, by simp [h₀], haliases₀, rfl⟩
  | true =>
    have hget := cmdLoad_get w₁
    obtain ⟨plan', ⟨hnone, -, hmiss⟩ | ⟨x, hx, hload⟩⟩ := persistLoad_exact .fs (persistLoadAliases w₁).2
    · -- the default tree in place of a pool that does not load
      have hr : (persistLoadFs (persistLoadAliases w₁).2).1 ≠ .ok := fun hr => absurd (hmiss hr).1 (by decide)
      refine ⟨{ (persistLoadFs (persistLoadAliases w₁).2).2 with fs := fs₀ }, h₀, by simp [hr, h₀], ?_, ?_⟩
      · exact haliases₀ ▸ hget .aliases
      · simp only [if_true, loadTakes, hnone]
        rfl
    · have hr : (persistLoadFs (persistLoadAliases w₁).2).1 = .ok := congrArg Prod.fst hload
      refine ⟨(persistLoadFs (persistLoadAliases w₁).2).2, h₀, by simp [hr], haliases₀ ▸ hget .aliases, ?_⟩
      have hfs : loadTakes w₁ .fs = some x := hx
      refine (hget .fs).trans ?_
      simp only [if_true, hfs]
      rfl

/-- What the start takes is the snapshot on the disk, under a header of the right
version. -/
theorem snapshot?_of_startTakes {drive : Drive} {c : Category} {x : c.Data} (h : startTakes drive c = some x) :
    (diskHeader drive.bytes).version = persistVersion ∧ snapshot? drive.bytes c = some x := by
  unfold startTakes at h
  split_ifs at h with hprobe
  have hx := snapshot?_of_loadTakes h
  rw [(persistProbe_taken (World.cleared drive)).bytes] at hx
  exact ⟨(persistProbe_version hprobe).2, hx⟩

/-- On a good drive, with such a header, all of it is taken. -/
theorem startTakes_good (disk : ℕ → UInt8) (c : Category) : startTakes (Drive.good disk) c =
    if (diskHeader disk).version = persistVersion then snapshot? disk c else none := by
  have hprobe := persistProbe_good (w := World.cleared (Drive.good disk)) rfl
  unfold startTakes
  rw [hprobe]
  dsimp only
  by_cases hv : (diskHeader disk).version = persistVersion
  · by_cases hm : (diskHeader disk).magic = persistMagic
    · simp only [hm, hv, and_self, decide_true, if_true]
      exact loadTakes_good rfl rfl c
    · have hnone : snapshot? disk c = none := if_neg fun hacc => hm hacc.1
      simp [hm, hv, hnone]
  · simp [hv]

/-- **On a good drive** the shell starts, and with a valid header it has the save list and
the snapshots of the disk. -/
theorem shellBoot_disk {w : World} {disk : ℕ → UInt8} (hd : w.drive = Drive.good disk) :
    ∃ w', shellBoot w = some w' ∧ w'.diskPresent = true ∧ w'.drive = Drive.good disk ∧
      ((diskHeader disk).magic = persistMagic → (diskHeader disk).version = persistVersion →
        w'.savelistFlags = (diskHeader disk).savelist ∧ ∀ c x, snapshot? disk c = some x → w'.get c = x) := by
  obtain ⟨fs₀, h₀, -⟩ := fsInit_wellFormed
  have hprobe := persistProbe_good (w := { w with fs := fsInitEmpty }) hd
  by_cases hv : (diskHeader disk).magic = persistMagic ∧ (diskHeader disk).version = persistVersion
  swap
  · -- no valid header: the default tree
    simp only [hv, decide_false, if_false] at hprobe
    refine ⟨{ w with fs := fs₀, diskPresent := true }, ?_, rfl, hd, fun hm hv' => absurd ⟨hm, hv'⟩ hv⟩
    unfold shellBoot
    simp [hprobe, h₀]
  simp only [hv, and_self, decide_true, if_true] at hprobe
  set w₁ : World := { w with
    fs := fsInitEmpty, diskPresent := true, savelistFlags := (diskHeader disk).savelist } with hw₁
  have hp₁ : w₁.diskPresent = true := rfl
  have hd₁ : w₁.drive = Drive.good disk := hd
  have ha := persistLoad_good (c := .aliases) hp₁ hd₁
  set w₂ := (persistLoad .aliases w₁).2 with hw₂
  have hkeep : w₂.diskPresent = true ∧ w₂.drive = Drive.good disk := persistLoad_drive hp₁ hd₁
  have hlist : w₂.savelistFlags = (diskHeader disk).savelist := by
    rw [hw₂, ha]
    split
    · rw [World.set_savelistFlags]
    · rfl
  have haliases : ∀ t, snapshot? disk .aliases = some t → w₂.aliases = t := by
    intro t ht
    rw [hw₂, ha, ht]
    rfl
  have hload := persistLoad_good (c := .fs) hkeep.1 hkeep.2
  cases hs : snapshot? disk .fs with
  | none =>
    -- the pool does not load, with or without its flag
    rw [hs] at hload
    have hr : ((persistLoad .fs w₂).1 = .error) ∧ (persistLoad .fs w₂).2 = w₂ := by
      rw [hload]
      refine ⟨?_, rfl⟩
      show (if _ then Category.fs.missing else AtaStatus.error) = .error
      split <;> rfl
    refine ⟨{ w₂ with fs := fs₀ }, ?_, hkeep.1, hkeep.2, fun _ _ => ⟨hlist, ?_⟩⟩
    · unfold shellBoot
      simp [hprobe, persistLoadAliases, persistLoadFs, ← hw₂, hr, h₀]
    · intro c x hx
      cases c with
      | aliases => exact haliases x hx
      | fs => rw [hs] at hx; cases hx
  | some fs =>
    rw [hs] at hload
    refine ⟨w₂.set .fs fs, ?_, hkeep.1, hkeep.2, fun _ _ => ⟨hlist, ?_⟩⟩
    · unfold shellBoot
      simp only [hprobe, persistLoadAliases, persistLoadFs, ← hw₂, hload]
      rfl
    · intro c x hx
      cases c with
      | aliases => exact haliases x hx
      | fs =>
        rw [hs, Option.some.injEq] at hx
        rw [← hx, World.get_set_self]

/-- With a saved pool, the shell starts with what was saved. -/
theorem shellBoot_good {w : World} {disk : ℕ → UInt8} {fs : Fs} (hd : w.drive = Drive.good disk)
    (hm : (diskHeader disk).magic = persistMagic) (hv : (diskHeader disk).version = persistVersion)
    (hf : snapshot? disk .fs = some fs) : ∃ w', shellBoot w = some w' ∧ w'.fs = fs ∧
      ∀ t, snapshot? disk .aliases = some t → w'.aliases = t := by
  obtain ⟨w', hw, -, -, h⟩ := shellBoot_disk hd
  exact ⟨w', hw, (h hm hv).2 .fs fs hf, (h hm hv).2 .aliases⟩

/-! ## Commands -/

/-- A machine whose memory is well formed. -/
def Sane (m : Machine) : Prop := m.toWorld.WellFormed

/-- A stop that is no access outside an array. -/
def Proper (why : Stop) : Prop := why ≠ .fault

theorem persistSave_wellFormed {w : World} (h : w.WellFormed) (c : Category) : (persistSave c w).2.WellFormed :=
  fun c' => by rw [persistSave_get]; exact h c'

theorem cmdSavelist_wellFormed {w : World} (h : w.WellFormed) (args : Str) :
    (cmdSavelist w args).2.WellFormed := by
  have hset (flags : UInt32) : (persistSavelistSet w flags).WellFormed := fun c => by
    rw [persistSavelistSet_get]; exact h c
  unfold cmdSavelist
  dsimp only
  split
  · exact h
  split
  swap
  · exact h
  split
  · exact h
  split
  · exact h
  split
  · split
    · exact h
    · exact hset _
  · split
    · exact h
    · exact hset _

theorem cmdFs_eq {w : World} {cmd : FsCmd} {args : Str} {r : FsResult} (h : cmd.exec w.fs args = some r) :
    cmdFs cmd w args = some (r.msg,
      if r.save then (persistSaveFs { w with fs := r.fs }).2 else { w with fs := r.fs }) := by
  simp [cmdFs, h]

/-- **A filesystem command** stays inside the pool and keeps memory well formed. -/
theorem cmdFs_wellFormed {w : World} (h : w.WellFormed) (cmd : FsCmd) (args : Str) :
    ∃ r, cmdFs cmd w args = some r ∧ r.2.WellFormed := by
  obtain ⟨r, hr, hfs⟩ := exec_wellFormed h.fs cmd args
  have hw : World.WellFormed { w with fs := r.fs } := World.wellFormed_iff.2 ⟨h.aliases, hfs⟩
  refine ⟨_, cmdFs_eq hr, ?_⟩
  dsimp only
  split_ifs
  · exact persistSave_wellFormed hw .fs
  · exact hw

/-- **`alias`** stays inside the table and keeps memory well formed. -/
theorem cmdAlias_wellFormed {w : World} (h : w.WellFormed) (args : Str) :
    ∃ r, cmdAlias w args = some r ∧ r.2.WellFormed := by
  unfold cmdAlias
  by_cases ha : args = []
  · by_cases hc : w.aliases.count = 0
    · exact ⟨(.none, w), by simp [ha, hc], h⟩
    · obtain ⟨entries, he⟩ := aliasListFrom_total h.aliases w.aliases.used 0 (by
        have := h.aliases.used_le
        omega)
      have hused : w.aliases.count.toInt.toNat = w.aliases.used := rfl
      exact ⟨(.listing entries, w), by simp [ha, hc, hused, he], h⟩
  · obtain ⟨⟨msg, changed⟩, hs, hw⟩ := aliasSet_wellFormed h.aliases args
    cases changed with
    | none => exact ⟨(msg, w), by simp [ha, hs], h⟩
    | some aliases =>
      have hw' : World.WellFormed { w with aliases } := World.wellFormed_iff.2 ⟨hw aliases rfl, h.fs⟩
      exact ⟨(msg, (persistSaveAliases { w with aliases }).2), by simp [ha, hs],
        persistSave_wellFormed hw' .aliases⟩

theorem keeps_orFault {m : Machine} {r : Option World} (h : ∃ w, r = some w ∧ w.WellFormed) :
    (finish (orFault m r)).Keeps Sane Proper := by
  obtain ⟨w, rfl, hw⟩ := h
  exact hw

theorem cmdAlu_keeps {m : Machine} (h : Sane m) (args : Str) :
    (finish ((cmdAlu m args).map Prod.snd)).Keeps Sane Proper := by
  unfold cmdAlu
  split
  swap
  · exact h
  split
  swap
  · exact h
  dsimp only
  split
  · exact h
  · exact h
  · exact h
  · split
    · exact h
    · split
      · exact fun h => by cases h
      · exact h
  · exact h

/-- The operands of a division by zero, of which the first is `a`. -/
def DividesByZero (args : Str) (a : Int32) : Prop :=
  ∃ ta tb op, aluTokens 3 args = [ta, tb, op] ∧ parseOperand ta = some a ∧ parseOperand tb = some 0 ∧
    op.head?.map Subtype.val = some 47

/-- **`alu`** changes nothing but the trapdoor, and that on a division by zero only. -/
theorem cmdAlu_cases {m m' : Machine} {args : Str} {msg : AluMsg} (h : cmdAlu m args = .ok (msg, m')) :
    m' = m ∨ ∃ a, DividesByZero args a ∧ m' = { m with ddfLastNumerator := a, ddfWaitingSecret := true } := by
  unfold cmdAlu at h
  split at h
  swap
  · cases h; exact Or.inl rfl
  rename_i ta tb op htok
  split at h
  swap
  · cases h; exact Or.inl rfl
  rename_i a b ha hb
  dsimp only at h
  split at h
  · cases h; exact Or.inl rfl
  · cases h; exact Or.inl rfl
  · cases h; exact Or.inl rfl
  · rename_i hop
    by_cases hz : b = 0
    · rw [if_pos hz] at h
      cases h
      exact Or.inr ⟨a, ⟨ta, tb, op, htok, ha, by rw [hb, hz], hop⟩, rfl⟩
    · rw [if_neg hz] at h
      split at h
      · cases h
      · cases h; exact Or.inl rfl
  · cases h; exact Or.inl rfl

/-- **Every command** of the table keeps memory well formed and stays inside its tables;
`load` does if what it takes is well formed. -/
theorem exec_keeps {m : Machine} (h : Sane m) (args : Str) (c : Builtin)
    (hl : c = .load → LoadSound m.toWorld) : (finish (c.exec m args)).Keeps Sane Proper := by
  cases c with
  | quiet => exact h
  | stop => exact fun h => by cases h
  | scp =>
    unfold Builtin.exec cmdScp
    split_ifs
    · exact fun h => by cases h
    · exact h
  | loop => exact h
  | fs cmd =>
    obtain ⟨r, hr, hw⟩ := cmdFs_wellFormed h cmd args
    exact keeps_orFault ⟨r.2, by rw [hr]; rfl, hw⟩
  | alu => exact cmdAlu_keeps h args
  | aliasCmd =>
    obtain ⟨r, hr, hw⟩ := cmdAlias_wellFormed h args
    exact keeps_orFault ⟨r.2, by rw [hr]; rfl, hw⟩
  | save => exact persistSave_wellFormed (persistSave_wellFormed h .aliases) .fs
  | load => exact cmdLoad_wellFormed h (hl rfl)
  | savelist => exact cmdSavelist_wellFormed h args

/-! ## Lines -/

/-- Where the line is `load`, what it takes is well formed. -/
def LoadsSound (m : Machine) (line : Str) : Prop :=
  word 63 (skipSpaces line) = str "load" → LoadSound m.toWorld

theorem ddfCommand_keeps {m : Machine} (h : Sane m) (args : Str) :
    (finish (ddfCommand m args)).Keeps Sane Proper := by
  unfold ddfCommand
  split_ifs
  · exact h
  · exact h
  · exact fun h => by cases h
  · exact h

/-- **One call of `run`** keeps memory well formed and stays inside the tables. -/
theorem shellAction_keeps {m : Machine} {line : Str} (h : Sane m) (hl : LoadsSound m line) :
    (shellAction m line).Keeps Sane Proper := by
  by_cases hblank : skipSpaces line = []
  · rw [shellAction_blank hblank]
    exact h
  have hw := ddfTrySecret_toWorld m (skipSpaces line)
  have h' : Sane (ddfTrySecret m (skipSpaces line)).2 := by rw [Sane, hw]; exact h
  rcases shellAction_cases m hblank with ⟨-, hdone⟩ | ⟨-, haction⟩
  · rw [hdone]
    exact h'
  generalize shellAction m line = action at haction ⊢
  cases haction with
  | ddf _ => exact ddfCommand_keeps h' _
  | builtin hmem _ =>
    -- the table holds `load` under this name only
    refine exec_keeps h' _ _ ?_
    intro hc
    rw [hw]
    exact hl (mem_load (hc ▸ hmem))
  | loop _ _ => exact h'
  | usage _ => exact h'
  | expand _ _ => exact h'
  | unknown _ => exact h'
  | fault hnone =>
    obtain ⟨r, hr⟩ := aliasResolve_total h'.aliases (word 63 (skipSpaces line))
    rw [hr] at hnone
    cases hnone

/-- The loads that a line makes take well-formed memory. -/
def LineSound (d : ℤ) (m : Machine) (line : Str) : Prop :=
  ∀ fuel, ∀ p ∈ calls shellAction runPolicy 8 fuel 0 d m line, LoadsSound p.1 p.2

theorem run_keeps {m : Machine} {line : Str} {d : ℤ} (h : Sane m) (hl : LineSound d m line) (fuel : ℕ) :
    (run fuel d m line).ending.Keeps Sane Proper :=
  dispatch_invariant (fun _ _ => shellAction_keeps) fuel 0 d m line h (hl fuel)

theorem Session.sane {m₀ m : Machine} {typed : List (Machine × ℤ × Str)} {d : ℤ} (h₀ : Sane m₀)
    (h : Session m₀ typed m d) (hl : ∀ p ∈ typed, LineSound p.2.1 p.1 p.2.2) : Sane m := by
  induction h with
  | start => exact h₀
  | line _ hr ih =>
    obtain ⟨hline, hl⟩ := List.forall_mem_cons.1 hl
    obtain ⟨fuel, hf⟩ := hr
    have := run_keeps (ih hl) hline fuel
    rwa [hf] at this

/-- The prompt can be printed. -/
theorem prompt_isSome {m : Machine} (h : Sane m) : (prompt m).isSome := by
  obtain ⟨r, hr, -⟩ := fsCmdPwd_same h.fs
  unfold prompt
  cases hp : fsPwdStr m.fs with
  | none => simp [fsCmdPwd, hp] at hr
  | some p => rfl

end DahleOS
