import DahleOS.Proof.AutoSave

/-!
# Memory after the start

What the disk can do to memory, from the start of the shell on.

* `boot_wellFormed`: what is taken from the disk and when, and that memory stays well formed
  and no line faults if what is taken is well formed.
* `boot_wellFormed_saved`: a session on a disk to which both categories were saved.
* `boot_lost`: a disk whose pool is taken, and is not well formed.
-/

namespace DahleOS

open Codec Expander

/-- **What the disk can do to memory.** Whatever is on the disk and whichever of its reads
fail, the shell starts, and each category is at its default or is what was taken of it; the
same holds of a `load`. Only a snapshot is taken, that is, what the sectors decode to under
a header with the magic number, the flag and the sum of their bytes, at the start of the
right version as well; and when there is a disk and no read fails, every snapshot is taken,
whatever it holds. If what the start and every `load` take is well formed, memory is well
formed at every prompt of every session, the prompt can be printed, and no line leaves the
tables. -/
theorem boot_wellFormed (drive : Drive) : ∃ fs₀ m₀, fsInit = some fs₀ ∧
    Machine.boot (World.cleared drive) = some m₀ ∧
    m₀.aliases = (startTakes drive .aliases).getD .zero ∧ m₀.fs = (startTakes drive .fs).getD fs₀ ∧
    (∀ w c, (cmdLoad w).2.get c = (loadTakes w c).getD (w.get c)) ∧
    (∀ c x, startTakes drive c = some x →
      (diskHeader drive.bytes).version = persistVersion ∧ snapshot? drive.bytes c = some x) ∧
    (∀ w c x, loadTakes w c = some x → snapshot? w.drive.bytes c = some x) ∧
    (∀ disk c, startTakes (Drive.good disk) c =
      if (diskHeader disk).version = persistVersion then snapshot? disk c else none) ∧
    (∀ (w : World) disk c, w.diskPresent = true → w.drive = Drive.good disk → loadTakes w c = snapshot? disk c) ∧
    ((∀ c x, startTakes drive c = some x → c.WellFormed x) →
      ∀ typed m d, Session m₀ typed m d → (∀ p ∈ typed, LineSound p.2.1 p.1 p.2.2) →
        m.InBounds ∧ (prompt m).isSome ∧
        ∀ fuel line, LineSound d m line → (run fuel d m line).ending ≠ .stopped .fault) := by
  obtain ⟨fs₀, w₀, h₀, hboot, ha, hf⟩ := shellBoot_takes drive
  have hm₀ : Machine.boot (World.cleared drive) = some ⟨w₀, false, false, 0⟩ := by simp [Machine.boot, hboot]
  refine ⟨fs₀, ⟨w₀, false, false, 0⟩, h₀, hm₀, ha, hf, cmdLoad_get, fun c x => snapshot?_of_startTakes,
    fun w c x => snapshot?_of_loadTakes, startTakes_good, fun w disk c hp hd => loadTakes_good hp hd c, ?_⟩
  intro hs typed m d hsession hl
  have hfs₀ : fs₀.WellFormed := by
    obtain ⟨fs, h, hw⟩ := fsInit_wellFormed
    obtain rfl : fs = fs₀ := Option.some.inj (h.symm.trans h₀)
    exact hw
  have haliases : w₀.aliases.WellFormed := by
    rw [ha]
    cases hx : startTakes drive .aliases with
    | none => exact AliasTable.zero_wellFormed
    | some t => exact hs .aliases t hx
  have hfs : w₀.fs.WellFormed := by
    rw [hf]
    cases hx : startTakes drive .fs with
    | none => exact hfs₀
    | some fs => exact hs .fs fs hx
  have hsane : Sane m := hsession.sane (World.wellFormed_iff.2 ⟨haliases, hfs⟩) hl
  refine ⟨World.WellFormed.inBounds hsane, prompt_isSome hsane, ?_⟩
  intro fuel line hline hfault
  have hkeeps := run_keeps hsane hline fuel
  rw [hfault] at hkeeps
  exact hkeeps rfl

/-! ## A session -/

/-- A command line, while the trapdoor waits for nothing. -/
theorem shellAction_builtin {m : Machine} {line name args : Str} {c : Builtin} (hw : m.ddfWaitingSecret = false)
    (hne : line ≠ []) (hsp : skipSpaces line = line) (hname : word 63 line = name)
    (hargs : skipSpaces (line.drop name.length) = args) (hddf : strcmp name (str "ddf") ≠ 0)
    (hfind : (cmdTable.find? fun e => strcmp e.1 name = 0) = some (name, c)) (hc : c ≠ .loop) :
    shellAction m line = finish (c.exec m args) := by
  have htry : ddfTrySecret m line = (false, m) := if_pos (by rw [hw]; rfl)
  unfold shellAction
  dsimp only
  rw [hsp, if_neg hne, htry]
  dsimp only
  rw [hname, hargs, if_neg (by decide), if_neg hddf, hfind]
  cases c with
  | loop => exact absurd rfl hc
  | _ => rfl

/-- A line that is done at once makes no other call. -/
theorem lineSound_of_done {d : ℤ} {m m' : Machine} {line : Str} (h : shellAction m line = .done m')
    (hl : LoadsSound m line) : LineSound d m line := by
  intro fuel p hp
  cases fuel with
  | zero => cases hp
  | succ fuel =>
    rw [calls, h, List.mem_singleton] at hp
    rw [hp]
    exact hl

theorem returns_of_done {d : ℤ} {m m' : Machine} {line : Str} (h : shellAction m line = .done m') :
    Returns d m line d m' :=
  ⟨1, by rw [run, dispatch, h]⟩

/-- `load`, while the trapdoor waits for nothing. -/
theorem shellAction_load {m : Machine} (hw : m.ddfWaitingSecret = false) :
    shellAction m (str "load") = .done { m with toWorld := (cmdLoad m.toWorld).2 } := by
  rw [@shellAction_builtin m (str "load") (str "load") [] .load hw (by decide) (by decide) rfl (by decide) (by decide)
    (by decide) (by decide)]
  rfl

/-- Of a disk that holds what memory holds, `load` takes all. -/
theorem InSync.loadTakes {w : World} (h : InSync w) (c : Category) : DahleOS.loadTakes w c = some (w.get c) := by
  rw [loadTakes_good h.present h.good c]
  exact h.snapshot c

theorem InSync.loadSound {w : World} (h : InSync w) (hwf : w.WellFormed) : LoadSound w := by
  intro c x hx
  rw [h.loadTakes c, Option.some.injEq] at hx
  exact hx ▸ hwf c

/-- Also a second time: the disk is as it was. -/
theorem InSync.loadSound_again {w : World} (h : InSync w) (hwf : w.WellFormed) : LoadSound (cmdLoad w).2 := by
  intro c x hx
  have hx' := snapshot?_of_loadTakes hx
  rw [(cmdLoad_taken w).bytes, h.snapshot c, Option.some.injEq] at hx'
  exact hx' ▸ hwf c

/-- Of a disk with both snapshots, so does the start. -/
theorem startTakes_savedBoth (t : AliasTable) (fs : Fs) (c : Category) :
    startTakes (Drive.good (savedBoth t fs)) c = some ((synced t fs).get c) := by
  have hsync := synced_inSync t fs
  have hversion : (diskHeader (savedBoth t fs)).version = persistVersion := hsync.version
  rw [startTakes_good, if_pos hversion]
  exact hsync.snapshot c

theorem zero_used_lt : AliasTable.zero.used < 16 := by decide

/-- One alias, `ll` for `ls`. -/
def llTable : AliasTable := AliasTable.zero.added ⟨_, zero_used_lt⟩ (str "ll") (str "ls")

theorem llTable_wellFormed : llTable.WellFormed := AliasTable.zero_wellFormed.added zero_used_lt _ _ _

/-- A second alias, which is saved. -/
theorem cmdAlias_la {w : World} (hsync : InSync w) (hwf : w.WellFormed) (htable : w.aliases = llTable) :
    ∃ msg w', cmdAlias w (str "la ls") = some (msg, w') ∧ InSync w' ∧ w'.WellFormed ∧ w'.aliases.count = 2 := by
  have hset : (aliasSet llTable (str "la ls")).any (fun r => r.2.any (·.count = 2)) = true := by decide +kernel
  obtain ⟨⟨msg, changed⟩, hr, hcount⟩ := (Option.any_eq_true _ _).1 hset
  obtain ⟨t, rfl, ht⟩ := (Option.any_eq_true _ _).1 hcount
  have hne : str "la ls" ≠ [] := by decide
  have hcmd : cmdAlias w (str "la ls") = some (msg, (persistSaveAliases { w with aliases := t }).2) := by
    simp [cmdAlias, hne, htable, hr]
  obtain ⟨r, hr', hwf'⟩ := cmdAlias_wellFormed hwf (str "la ls")
  rw [hcmd] at hr'
  cases hr'
  exact ⟨msg, _, hcmd, hsync.save .aliases t, hwf',
    (congrArg AliasTable.count (persistSave_get .aliases .aliases _)).trans (of_decide_eq_true ht)⟩

/-- **A session with both snapshots**: the shell starts with the saved alias and the saved
pool, a line adds an alias, and `load` takes both categories. -/
theorem boot_wellFormed_saved : ∃ fs m₀ m₁ m₂, fsInit = some fs ∧
    Machine.boot (World.cleared (Drive.good (savedBoth llTable fs))) = some m₀ ∧
    (∀ c, startTakes (Drive.good (savedBoth llTable fs)) c = some (m₀.get c)) ∧
    Session m₀ [(m₁, 0, str "load"), (m₀, 0, str "alias la ls")] m₂ 0 ∧ m₁.aliases.count = 2 ∧
    (∀ c, loadTakes m₁.toWorld c = some (m₁.get c)) ∧ m₂.InBounds ∧ (prompt m₂).isSome ∧
    ∀ fuel, (run fuel 0 m₂ (str "load")).ending ≠ .stopped .fault := by
  obtain ⟨fs, hfs, hwf⟩ := fsInit_wellFormed
  obtain ⟨w, hw, hsync, haliases, hpool⟩ := boot_savedBoth llTable fs
  set m₀ : Machine := ⟨w, false, false, 0⟩ with hm₀
  have hboot : Machine.boot (World.cleared (Drive.good (savedBoth llTable fs))) = some m₀ := by
    simp [Machine.boot, hw, hm₀]
  have hwf₀ : w.WellFormed := World.wellFormed_iff.2 ⟨haliases ▸ llTable_wellFormed, hpool ▸ hwf⟩
  have hstart (c : Category) : startTakes (Drive.good (savedBoth llTable fs)) c = some (m₀.get c) := by
    rw [startTakes_savedBoth]
    cases c with
    | aliases => exact congrArg some haliases.symm
    | fs => exact congrArg some hpool.symm
  -- the lines
  obtain ⟨msg, w₁, hcmd, hsync₁, hwf₁, hcount⟩ := cmdAlias_la hsync hwf₀ haliases
  set m₁ : Machine := { m₀ with toWorld := w₁ } with hm₁
  have halias : shellAction m₀ (str "alias la ls") = .done m₁ := by
    rw [@shellAction_builtin m₀ (str "alias la ls") (str "alias") (str "la ls") .aliasCmd rfl (by decide) (by decide) rfl
      (by decide) (by decide) (by decide) (by decide)]
    simp [Builtin.exec, hm₀, hcmd, orFault, finish, hm₁]
  set m₂ : Machine := { m₁ with toWorld := (cmdLoad w₁).2 } with hm₂
  have hload : shellAction m₁ (str "load") = .done m₂ := shellAction_load rfl
  have hsession : Session m₀ [(m₁, 0, str "load"), (m₀, 0, str "alias la ls")] m₂ 0 :=
    .line (.line .start (returns_of_done halias)) (returns_of_done hload)
  have hlines : ∀ p ∈ [(m₁, (0 : ℤ), str "load"), (m₀, 0, str "alias la ls")], LineSound p.2.1 p.1 p.2.2 := by
    have hword : word 63 (skipSpaces (str "alias la ls")) ≠ str "load" := by decide
    simp only [List.forall_mem_cons]
    exact ⟨lineSound_of_done hload fun _ => hsync₁.loadSound hwf₁, lineSound_of_done halias fun h => absurd h hword,
      by simp⟩
  -- what the start takes is well formed
  obtain ⟨fs₀, m₀', -, hboot', -, -, -, -, -, -, -, hsafe⟩ := boot_wellFormed (Drive.good (savedBoth llTable fs))
  obtain rfl : m₀ = m₀' := Option.some.inj (hboot.symm.trans hboot')
  obtain ⟨hin, hprompt, hrun⟩ := hsafe (fun c x hx => Option.some.inj ((hstart c).symm.trans hx) ▸ hwf₀ c) _ m₂ 0
    hsession hlines
  exact ⟨fs, m₀, m₁, m₂, hfs, hboot, hstart, hsession, hcount, hsync₁.loadTakes, hin, hprompt, fun fuel =>
    hrun fuel _ (lineSound_of_done (shellAction_load rfl) fun _ => hsync₁.loadSound_again hwf₁)⟩

/-- A pool whose current directory is behind the last node. -/
def lostFs : Fs := { fsInitEmpty with cwd := 64 }

/-- **A disk can hold any pool**: the checksum says nothing about the numbers in it. -/
theorem boot_lost : ∃ disk m₀, Machine.boot (World.cleared (Drive.good disk)) = some m₀ ∧
    ¬ m₀.InBounds ∧ prompt m₀ = none := by
  set hdr := Header.fresh 0 0 fun _ => 0 with hhdr
  set disk := savedDisk (fun _ => 0) hdr savelistAll .fs lostFs with hdisk
  have hheader : diskHeader disk = hdr.saved savelistAll .fs (checksum (Category.fs.image lostFs)) := by
    rw [hdisk, savedDisk, diskHeader_put_header]
  obtain ⟨w, hw, hfs, -⟩ := shellBoot_good (w := World.cleared (Drive.good disk)) rfl (by rw [hheader]; rfl)
    (by rw [hheader]; rfl) (snapshot?_savedDisk_self _ hdr savelistAll .fs lostFs)
  have hm : Machine.boot (World.cleared (Drive.good disk)) = some ⟨w, false, false, 0⟩ := by
    simp [Machine.boot, hw]
  have hcwd : w.fs.cwd.toInt = 64 := by rw [hfs]; rfl
  have hprompt : fsPwdStr w.fs = none := by rw [hfs]; rfl
  refine ⟨disk, ⟨w, false, false, 0⟩, hm, ?_, hprompt⟩
  intro h
  have hlt : w.fs.cwd.toInt < 64 := h.cwd.2
  omega

end DahleOS
