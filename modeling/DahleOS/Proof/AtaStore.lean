import DahleOS.Lib.PartialRun
import DahleOS.Proof.AtaBus

/-!
# Runs of the ATA driver

The calls of the driver one after the other, on a disk that answers in time: the driver of
`Model.Ata`, whose waits are those that the bad sectors of the disk make.

* `call_disk`: one call.
* `ata_driver_refines`: every run of calls, with all answers, up to the first access that the
  protocol does not allow.
* `ata_errors_stick`: after an error nothing is read or written until `ata_detect`.
* `ata_round_trip`: what is written is read back.
-/

namespace DahleOS

open AtaDevice PartialRun Ports SectorDisk

/-- A call of the driver. -/
inductive AtaCall
  | detect
  | read (lba : UInt32) (count : UInt8) (buf : Fin (512 * count.toNat) → UInt8)
  | write (lba : UInt32) (count : UInt8) (buf : Fin (512 * count.toNat) → UInt8)

/-- At least one sector. -/
def AtaCall.NonEmpty : AtaCall → Prop
  | detect => True
  | read _ count _ | write _ count _ => count ≠ 0

/-- What a call returns, and leaves in a buffer that it reads to. -/
inductive Answer
  | detected (found : Bool)
  | status (r : AtaStatus) (buf : List UInt8)

/-- The driver on a bus. -/
def Bus.call {σ : Type} (bus : Bus σ) (d : σ) : AtaCall → Option (Answer × σ)
  | .detect => do
    let (found, d) ← bus.ataDetect d
    return (.detected found, d)
  | .read lba count buf => do
    let (r, buf, d) ← bus.ataReadSectors lba count buf d
    return (.status r (List.ofFn buf), d)
  | .write lba count buf => do
    let (r, d) ← bus.ataWriteSectors lba count buf d
    return (.status r [], d)

/-- **The driver as its callers see it**: that of `Model.Ata`, on the disk that it makes of the bad
sectors. A write whose last sector keeps the disk busy is not allowed, since the command that
flushes the disk is given then. -/
def Store.call (st : Store) : AtaCall → Option (Answer × Store)
  | .detect => some (.detected true, { st with latched := false })
  | .read lba count buf =>
    let lba := lba.toNat % 2 ^ 28
    let (r, buf, _) := ataReadSectors ⟨st.bytes, fun _ => st.readScript lba⟩ lba count.toNat buf
    some (.status r (List.ofFn buf), { st with latched := r ≠ .ok })
  | .write lba count buf =>
    let lba := lba.toNat % 2 ^ 28
    let (r, drive) := ataWriteSectors ⟨st.bytes, fun _ => st.writeScript lba⟩ lba count.toNat buf
    if r ≠ .ok then some (.status r [], { st with bytes := drive.bytes, latched := true })
    else if st.finish 0 = 0 then
      some (.status .ok [], { st with bytes := drive.bytes, latched := false, finish := fun k => st.finish (k + 1) })
    else none

variable {d : Device} {st : Store} {l : List AtaCall}

/-- **One call.** -/
theorem call_disk (c : AtaCall) (hc : c.NonEmpty) (d : Device) (st : Store) (h : Rests d st) :
    Option.Rel (fun x y => x.1 = y.1 ∧ Rests x.2 y.2) (diskBus.call d c) (st.call c) := by
  cases c with
  | detect =>
    obtain ⟨d', hbus, hrest⟩ := ataDetect_disk h
    simp only [Bus.call, hbus, Option.bind_eq_bind, Option.bind_some]
    exact .some ⟨rfl, hrest⟩
  | read lba count buf =>
    obtain ⟨r, buf', d', hmodel, hbus, hrest⟩ := ataReadSectors_disk h lba hc buf
    simp only [Bus.call, Store.call, hbus, hmodel, Option.bind_eq_bind, Option.bind_some]
    exact .some ⟨rfl, hrest⟩
  | write lba count buf =>
    obtain ⟨r, disk, hmodel, hbus⟩ := ataWriteSectors_disk h lba hc buf
    simp only [Bus.call, Store.call, hmodel]
    by_cases hr : r = .ok
    · subst hr
      rw [if_pos rfl] at hbus
      rw [if_neg (not_not.2 rfl)]
      by_cases hfinish : st.finish 0 = 0
      · rw [if_pos hfinish] at hbus ⊢
        obtain ⟨d', hbus, hrest⟩ := hbus
        rw [hbus]
        exact .some ⟨rfl, hrest⟩
      · rw [if_neg hfinish] at hbus ⊢
        rw [hbus]
        exact .none
    · rw [if_neg hr] at hbus
      obtain ⟨d', hbus, hrest⟩ := hbus
      rw [if_pos hr, hbus]
      exact .some ⟨rfl, hrest⟩

/-- **The driver on a disk.** Any calls, on any disk that is never busy for as long as the driver
waits, whatever its bad sectors: the answers are those of `Model.Ata` on the same bytes, the
disk holds the same bytes afterwards, and the driver keeps to the protocol up to the flush of a
write whose last sector keeps the disk busy. -/
theorem ata_driver_refines (hl : ∀ c ∈ l, c.NonEmpty) (h : Rests d st) :
    Option.Rel (fun x y => x.1 = y.1 ∧ Rests x.2 y.2) (answers diskBus.call l d) (answers Store.call l st) :=
  answers_rel (fun c hc d st h => call_disk c (hl c hc) d st h) h

/-- A disk that is always busy for three readings, with zeros and the given bad sectors. -/
def zeroDisk (bad : ℕ → Bool) : Device := ⟨fun _ => 0, bad, fun _ => 0, 0, 0, 0, 0, 0, fun _ => 3, fun _ => 0, 0, .idle⟩

theorem zeroDisk_rests (bad : ℕ → Bool) : Rests (zeroDisk bad) ⟨fun _ => 0, bad, false, fun _ => 0⟩ :=
  ⟨⟨rfl, rfl, rfl, fun _ => show 3 < polls by unfold polls; omega⟩, rfl, rfl⟩

/-- Two sectors are written, of which the first is bad. -/
theorem ata_driver_refines_bad : Option.Rel (fun x y => x.1 = y.1 ∧ Rests x.2 y.2)
    (answers diskBus.call [.detect, .write 7 2 fun _ => 5] (zeroDisk (· = 7)))
    (answers Store.call [.detect, .write 7 2 fun _ => 5] ⟨fun _ => 0, (· = 7), false, fun _ => 0⟩) :=
  ata_driver_refines (List.forall_mem_cons.2 ⟨trivial, List.forall_mem_cons.2 ⟨by unfold AtaCall.NonEmpty; decide,
    List.forall_mem_nil _⟩⟩) (zeroDisk_rests _)

/-! ## Errors -/

/-- The answer of a disk that is in error. -/
def AtaCall.refused : AtaCall → Answer
  | detect => .detected true
  | read _ _ buf => .status .timeout (List.ofFn buf)
  | write .. => .status .timeout []

/-- An error stands. -/
theorem Store.latched_of_error {c : AtaCall} {buf : List UInt8} {st' : Store} (h : st.call c = some (.status .error buf, st')) :
    st'.latched = true := by
  cases c with
  | detect => cases h
  | read lba count buf' =>
    unfold Store.call at h
    simp only [Option.some.injEq, Prod.mk.injEq, Answer.status.injEq] at h
    obtain ⟨⟨hr, -⟩, rfl⟩ := h
    rw [hr]
    rfl
  | write lba count buf' =>
    unfold Store.call at h
    dsimp only at h
    split_ifs at h with hr hfinish
    · obtain ⟨-, rfl⟩ := Prod.mk.inj (Option.some.inj h)
      rfl
    · cases h

/-- In error, every call is refused, and the error stands. -/
theorem Store.call_latched (hl : st.latched = true) {c : AtaCall} (hc : c ≠ .detect) : st.call c = some (c.refused, st) := by
  obtain ⟨bytes, bad, latched, finish⟩ := st
  obtain rfl : latched = true := hl
  cases c with
  | detect => exact absurd rfl hc
  | read lba count buf => rfl
  | write lba count buf => rfl

theorem Store.answers_latched (hl : st.latched = true) (hc : ∀ c ∈ l, c ≠ .detect) :
    answers Store.call l st = some (l.map AtaCall.refused, st) := by
  induction l with
  | nil => rfl
  | cons c l ih =>
    rw [answers_cons (Store.call_latched hl (hc c List.mem_cons_self)), ih fun b hb => hc b (List.mem_cons_of_mem c hb)]
    rfl

/-- **Errors stick.** A call of a run meets a bad sector. Then every read and every write is
refused as a timeout, and neither its buffer nor the disk changes, however many there are; and the
next `ata_detect` finds the disk and ends this. -/
theorem ata_errors_stick {l' : List AtaCall} {c : AtaCall} {as : List Answer} {buf : List UInt8} {d' : Device}
    (h : Rests d st) (hl : ∀ a ∈ l ++ [c], a.NonEmpty)
    (hrun : answers diskBus.call (l ++ [c]) d = some (as ++ [.status .error buf], d'))
    (hl' : ∀ a ∈ l', a.NonEmpty ∧ a ≠ .detect) :
    ∃ d'', answers diskBus.call l' d' = some (l'.map AtaCall.refused, d'') ∧ d''.media = d'.media ∧
      ∃ d₃, diskBus.call d'' .detect = some (.detected true, d₃) ∧ d₃.phase = .idle ∧ d₃.media = d'.media := by
  have hrel := answers_rel (fun a ha d st h => call_disk a (hl a ha) d st h) h
  rw [hrun] at hrel
  obtain ⟨⟨as', st'⟩, hstore, hanswers, hrest⟩ := rel_some_left hrel
  -- the last call has left the error
  have hlatched : st'.latched = true := by
    rw [answers_append] at hstore
    obtain ⟨⟨as₁, st₁⟩, -, hlast⟩ := Option.bind_eq_some_iff.1 hstore
    obtain ⟨⟨as₂, st₂⟩, hlast, heq⟩ := Option.map_eq_some_iff.1 hlast
    unfold answers at hlast
    obtain ⟨⟨a, st₃⟩, hcall, hend⟩ := Option.bind_eq_some_iff.1 hlast
    cases hend
    cases heq
    have hlast : [Answer.status .error buf] = [a] := List.append_inj_right' hanswers rfl
    cases hlast
    exact Store.latched_of_error hcall
  have hrefused := answers_rel (fun a ha d st h => call_disk a (hl' a ha).1 d st h) hrest
  rw [Store.answers_latched hlatched fun a ha => (hl' a ha).2] at hrefused
  obtain ⟨⟨_, d''⟩, hbus, rfl, hrest'⟩ := rel_some_right hrefused
  obtain ⟨d₃, hdetect, hrest₃⟩ := ataDetect_disk hrest'
  refine ⟨d'', hbus, hrest'.media.trans hrest.media.symm, d₃, ?_, hrest₃.phase, hrest₃.media.trans hrest.media.symm⟩
  rw [Bus.call, hdetect]
  rfl

/-- A bad sector is read, and then another one is written. -/
theorem ata_errors_stick_bad : ∃ d' d'' : Device,
    answers diskBus.call [.read 7 1 fun _ => 0] (zeroDisk (· = 7)) = some ([.status .error (List.replicate 512 0)], d') ∧
    answers diskBus.call [.write 9 1 fun _ => 1] d' = some ([.status .timeout []], d'') ∧ d''.media = d'.media := by
  have hread : (AtaCall.read 7 1 fun _ => 0).NonEmpty := by unfold AtaCall.NonEmpty; decide
  have hwrite : (AtaCall.write 9 1 fun _ => 1).NonEmpty := by unfold AtaCall.NonEmpty; decide
  have hrel := call_disk _ hread _ _ (zeroDisk_rests (· = 7))
  have hcall : Store.call ⟨fun _ => 0, (· = 7), false, fun _ => 0⟩ (.read 7 1 fun _ => 0) =
      some (.status .error (List.ofFn fun _ : Fin (512 * 1) => 0), ⟨fun _ => 0, (· = 7), true, fun _ => 0⟩) := rfl
  rw [hcall] at hrel
  obtain ⟨⟨_, d'⟩, hbus, rfl, -⟩ := rel_some_right hrel
  have hrun : answers diskBus.call ([] ++ [.read 7 1 fun _ => 0]) (zeroDisk (· = 7)) =
      some ([] ++ [.status .error (List.ofFn fun _ : Fin (512 * 1) => 0)], d') := answers_cons hbus []
  have hnext : ∀ a ∈ [AtaCall.write 9 1 fun _ => 1], a.NonEmpty ∧ a ≠ .detect :=
    List.forall_mem_singleton.2 ⟨hwrite, fun h => by cases h⟩
  obtain ⟨d'', hrefused, hmedia, -⟩ := ata_errors_stick (zeroDisk_rests _) (List.forall_mem_singleton.2 hread) hrun hnext
  rw [List.ofFn_const] at hrun
  exact ⟨d', d'', hrun, hrefused, hmedia⟩

/-! ## Good disks -/

/-- A disk without bad sectors, which takes the last sector of a write at once. -/
def Store.good (bytes : ℕ → UInt8) : Store := ⟨bytes, fun _ => false, false, fun _ => 0⟩

/-- Reading and writing sectors. -/
def sectorCall (disk : ℕ → UInt8) : AtaCall → Answer × (ℕ → UInt8)
  | .detect => (.detected true, disk)
  | .read lba count _ => (.status .ok (List.ofFn (sectors disk (lba.toNat % 2 ^ 28) count.toNat)), disk)
  | .write lba _ buf => (.status .ok [], put disk (lba.toNat % 2 ^ 28) buf)

theorem good_readScript (bytes : ℕ → UInt8) (lba : ℕ) : (Store.good bytes).readScript lba = fun _ => .ok := by
  funext k
  cases k with
  | zero => rfl
  | succ k => exact if_neg fun h => Bool.false_ne_true h.2

theorem good_writeScript (bytes : ℕ → UInt8) (lba : ℕ) : (Store.good bytes).writeScript lba = fun _ => .ok := by
  funext k
  cases k with
  | zero => rfl
  | succ k => exact if_neg fun h => Bool.false_ne_true h.2

theorem good_call (bytes : ℕ → UInt8) {c : AtaCall} (hc : c.NonEmpty) :
    (Store.good bytes).call c = some ((sectorCall bytes c).1, .good (sectorCall bytes c).2) := by
  cases c with
  | detect => rfl
  | read lba count buf =>
    have hread : ataReadSectors ⟨(Store.good bytes).bytes, fun _ _ => .ok⟩ (lba.toNat % 2 ^ 28) count.toNat buf = _ :=
      readSectors_good bytes (lba.toNat % 2 ^ 28) buf (byteCount_pos hc)
    simp only [Store.call, good_readScript, hread]
    rfl
  | write lba count buf =>
    have hwrite : ataWriteSectors ⟨(Store.good bytes).bytes, fun _ _ => .ok⟩ (lba.toNat % 2 ^ 28) count.toNat buf = _ :=
      writeSectors_good bytes (lba.toNat % 2 ^ 28) buf (byteCount_pos hc)
    simp only [Store.call, good_writeScript, hwrite]
    rfl

theorem good_answers (hl : ∀ c ∈ l, c.NonEmpty) (bytes : ℕ → UInt8) : ∃ as, answers Store.call l (.good bytes) =
    some (as, .good (l.foldl (fun disk c => (sectorCall disk c).2) bytes)) := by
  induction l generalizing bytes with
  | nil => exact ⟨[], rfl⟩
  | cons c l ih =>
    obtain ⟨as, hrest⟩ := ih (fun b hb => hl b (List.mem_cons_of_mem c hb)) (sectorCall bytes c).2
    rw [answers_cons (good_call bytes (hl c List.mem_cons_self)), hrest]
    exact ⟨_, rfl⟩

/-- Writes to other sectors leave a run of sectors alone. -/
theorem sectors_foldl {lba count : ℕ} (hl : ∀ lba' count' buf', .write lba' count' buf' ∈ l →
      lba + count ≤ lba'.toNat % 2 ^ 28 ∨ lba'.toNat % 2 ^ 28 + count'.toNat ≤ lba) (disk : ℕ → UInt8) :
    sectors (l.foldl (fun disk c => (sectorCall disk c).2) disk) lba count = sectors disk lba count := by
  induction l generalizing disk with
  | nil => rfl
  | cons c l ih =>
    rw [List.foldl_cons, ih fun lba' count' buf' h => hl lba' count' buf' (List.mem_cons_of_mem c h)]
    cases c with
    | detect => rfl
    | read => rfl
    | write lba' count' buf' => exact sectors_put_of_disjoint (hl lba' count' buf' List.mem_cons_self).symm disk buf'

/-- **What is written is read back**, on every good disk, from every address and in every number of
sectors, after any calls in between that write to other sectors only. -/
theorem ata_round_trip {l' : List AtaCall} {lba : UInt32} {count : UInt8} {buf buf₀ : Fin (512 * count.toNat) → UInt8}
    {bytes : ℕ → UInt8} (h : Rests d (.good bytes)) (hc : count ≠ 0) (hl : ∀ c ∈ l ++ l', c.NonEmpty)
    (hother : ∀ lba' count' buf', .write lba' count' buf' ∈ l' → lba.toNat % 2 ^ 28 + count.toNat ≤ lba'.toNat % 2 ^ 28 ∨
      lba'.toNat % 2 ^ 28 + count'.toNat ≤ lba.toNat % 2 ^ 28) :
    ∃ as d', answers diskBus.call (l ++ .write lba count buf :: l' ++ [.read lba count buf₀]) d =
      some (as ++ [.status .ok (List.ofFn buf)], d') := by
  have hall : ∀ c ∈ l ++ .write lba count buf :: l', c.NonEmpty := by
    intro c hmem
    rcases List.mem_append.1 hmem with hmem | hmem
    · exact hl c (List.mem_append_left _ hmem)
    · rcases List.mem_cons.1 hmem with rfl | hmem
      · exact hc
      · exact hl c (List.mem_append_right _ hmem)
  obtain ⟨as, hstore⟩ := good_answers hall bytes
  have hread : (AtaCall.read lba count buf₀).NonEmpty := hc
  obtain ⟨disk, hdisk⟩ : ∃ disk, (l ++ .write lba count buf :: l').foldl (fun disk c => (sectorCall disk c).2) bytes = disk := ⟨_, rfl⟩
  have hbuf : sectors disk (lba.toNat % 2 ^ 28) count.toNat = buf := by
    rw [← hdisk, List.foldl_append, List.foldl_cons, sectors_foldl hother]
    exact sectors_put ..
  have hlast : (sectorCall disk (.read lba count buf₀)).1 = .status .ok (List.ofFn buf) := by
    rw [← hbuf]
    rfl
  have hrun : answers Store.call (l ++ .write lba count buf :: l' ++ [.read lba count buf₀]) (.good bytes) =
      some (as ++ [.status .ok (List.ofFn buf)], .good disk) := by
    rw [answers_append, hstore, hdisk, Option.bind_some, answers_cons (good_call disk hread), hlast]
    rfl
  have hrel := answers_rel (l := l ++ .write lba count buf :: l' ++ [.read lba count buf₀]) (fun a ha d st h => call_disk a (by
    rcases List.mem_append.1 ha with ha | ha
    · exact hall a ha
    · exact List.mem_singleton.1 ha ▸ hread) d st h) h
  rw [hrun] at hrel
  obtain ⟨⟨_, d'⟩, hbus, rfl, -⟩ := rel_some_right hrel
  exact ⟨as, d', hbus⟩

/-- One sector is written and read, at an address that needs all registers. -/
theorem ata_round_trip_sector : ∃ as d', answers diskBus.call
      ([] ++ .write 0x0BCDEF12 1 (fun _ => 5) :: [.detect] ++ [.read 0x0BCDEF12 1 fun _ => 0]) (zeroDisk fun _ => false) =
    some (as ++ [.status .ok (List.ofFn fun _ : Fin (512 * 1) => 5)], d') :=
  ata_round_trip (zeroDisk_rests _) (by decide) (List.forall_mem_singleton.2 trivial)
    fun _ _ _ h => by cases List.mem_singleton.1 h

end DahleOS
