import DahleOS.Model.AtaPorts
import DahleOS.Proof.Drive

/-!
# What a write reports

`ata_write_sectors` looks at every wait but the last one, which comes after the flush.

* `ataWriteSectors_ok`: it returns `ATA_OK` when the drive accepts every sector.
* `write_errors_iff`: that means success exactly when the flush does not fail.
* `ataWriteSectors_refines`: the driver of `Model.Ata` is this one, with the script that
  the status stream makes.
-/

namespace DahleOS

namespace Ports

open Polling Codec SectorDisk

variable {σ : ℕ → UInt8} {k k' n : ℕ} {p : Ports}

/-! ## What the drive says -/

/-- **The drive gets ready without an error**: from the reading `k` on it is busy, for less
time than the driver waits, and then neither busy nor in error. -/
def Settles (σ : ℕ → UInt8) (k k' : ℕ) : Prop :=
  ∃ i < polls, (∀ j < i, σ (k + j) &&& srBsy ≠ 0) ∧ σ (k + i) &&& srBsy = 0 ∧ σ (k + i) &&& srErr = 0 ∧
    k' = k + i + 1

/-- **The drive asks for data**: no error comes before it does, nor with it, and it comes in
time. -/
def Requests (σ : ℕ → UInt8) (k k' : ℕ) : Prop :=
  ∃ i < polls, (∀ j < i, σ (k + j) &&& srErr = 0 ∧ ¬ (σ (k + j) &&& srBsy = 0 ∧ σ (k + j) &&& srDrq ≠ 0)) ∧
    σ (k + i) &&& srErr = 0 ∧ (σ (k + i) &&& srBsy = 0 ∧ σ (k + i) &&& srDrq ≠ 0) ∧ k' = k + i + 1

/-- It asks for the data of `n` sectors, one after the other. -/
inductive AsksFor (σ : ℕ → UInt8) : (n k k' : ℕ) → Prop
  | done (k : ℕ) : AsksFor σ 0 k k
  | sector {n k m k' : ℕ} : Requests σ (k + 4) m → AsksFor σ n m k' → AsksFor σ (n + 1) k k'

/-- **The drive accepts every sector** of a write of `n`. -/
def Accepts (σ : ℕ → UInt8) (n k k' : ℕ) : Prop := ∃ m, Settles σ k m ∧ AsksFor σ n m k'

/-- **The write is completed**: every sector is accepted, and the drive gets ready again
after the last one and the flush. -/
def Completes (σ : ℕ → UInt8) (n k : ℕ) : Prop := ∃ m k', Accepts σ n k m ∧ Settles σ m k'

/-- **The flush fails**: every sector is accepted, and then the drive reports an error or
stays busy. -/
def FlushFails (σ : ℕ → UInt8) (n k : ℕ) : Prop := ∃ m, Accepts σ n k m ∧ ∀ k', ¬ Settles σ m k'

theorem bsyTest_eq_none {s : UInt8} : bsyTest s = none ↔ s &&& srBsy ≠ 0 := by simp [bsyTest]

theorem bsyTest_eq_ok {s : UInt8} : bsyTest s = some .ok ↔ s &&& srBsy = 0 ∧ s &&& srErr = 0 := by
  by_cases hb : s &&& srBsy = 0
  · by_cases he : s &&& srErr = 0
    · simp [bsyTest, hb, he]
    · simp [bsyTest, hb, he]
  · simp [bsyTest, hb]

theorem drqTest_eq_none {s : UInt8} :
    drqTest s = none ↔ s &&& srErr = 0 ∧ ¬ (s &&& srBsy = 0 ∧ s &&& srDrq ≠ 0) := by
  by_cases he : s &&& srErr = 0
  · simp [drqTest, he]
  · simp [drqTest, he]

theorem drqTest_eq_ok {s : UInt8} :
    drqTest s = some .ok ↔ s &&& srErr = 0 ∧ (s &&& srBsy = 0 ∧ s &&& srDrq ≠ 0) := by
  by_cases he : s &&& srErr = 0
  · simp [drqTest, he]
  · simp [drqTest, he]

theorem settles_iff : Settles σ k k' ↔ Decides bsyTest σ polls k .ok k' := by
  simp only [Settles, Decides, bsyTest_eq_none, bsyTest_eq_ok, and_assoc]

theorem requests_iff : Requests σ k k' ↔ Decides drqTest σ polls k .ok k' := by
  simp only [Requests, Decides, drqTest_eq_none, drqTest_eq_ok, and_assoc]

theorem Settles.unique {k₁ k₂ : ℕ} (h₁ : Settles σ k k₁) (h₂ : Settles σ k k₂) : k₁ = k₂ :=
  ((settles_iff.1 h₁).unique (settles_iff.1 h₂)).2

theorem AsksFor.unique {k₁ k₂ : ℕ} (h₁ : AsksFor σ n k k₁) (h₂ : AsksFor σ n k k₂) : k₁ = k₂ := by
  induction h₁ with
  | done k => cases h₂; rfl
  | sector hreq _ ih =>
    cases h₂ with
    | sector hreq' hrest =>
      obtain ⟨-, rfl⟩ := (requests_iff.1 hreq).unique (requests_iff.1 hreq')
      exact ih hrest

theorem Accepts.unique {k₁ k₂ : ℕ} (h₁ : Accepts σ n k k₁) (h₂ : Accepts σ n k k₂) : k₁ = k₂ := by
  obtain ⟨m₁, hs₁, ha₁⟩ := h₁
  obtain ⟨m₂, hs₂, ha₂⟩ := h₂
  obtain rfl := hs₁.unique hs₂
  exact ha₁.unique ha₂

/-! ## What the driver makes of it -/

theorem wait_of_decides {test : UInt8 → Option Wait} {r : Wait} (h : Decides test p.status polls p.reads r k') :
    p.wait test = (r, { p with reads := k' }) := by
  unfold wait
  rw [poll_eq_some.2 h]
  rfl

theorem wait_out (test : UInt8 → Option Wait) (p : Ports) : (p.wait test).2.out = p.out := rfl

theorem decides_of_wait {test : UInt8 → Option Wait} (h : (p.wait test).1 = .ok) :
    ∃ k', Decides test p.status polls p.reads .ok k' := by
  unfold wait at h
  dsimp only at h
  cases hr : (poll test p.status polls p.reads).1 with
  | none => rw [hr] at h; cases h
  | some r =>
    rw [hr] at h
    obtain rfl : r = .ok := h
    exact ⟨_, poll_eq_some.1 (Prod.ext hr rfl)⟩

/-- The words of `todo` sectors from `s` on. -/
def sectorsWords (ptr : ℕ → UInt16) (s todo : ℕ) : List PortOut := (List.range' s todo).flatMap (sectorWords ptr)

theorem writeLoop_of_asksFor {ptr : ℕ → UInt16} (h : AsksFor p.status n p.reads k') (s : ℕ) :
    ataWriteLoop ptr s n p = (.ok, { p with reads := k', out := p.out ++ sectorsWords ptr s n }) := by
  induction n generalizing p s with
  | zero =>
    cases h
    simp [ataWriteLoop, sectorsWords]
  | succ n ih =>
    cases h with
    | sector hreq hrest =>
      have hwait := wait_of_decides (p := p.ata400nsDelay) (requests_iff.1 hreq)
      simp only [ataWriteLoop, ataWaitDrq, hwait, ne_eq, not_true_eq_false, if_false]
      refine (ih (p := { p with reads := _, out := p.out ++ sectorWords ptr s }) hrest (s + 1)).trans ?_
      simp [sectorsWords, List.range'_succ]

theorem asksFor_of_writeLoop {ptr : ℕ → UInt16} {s : ℕ} (h : (ataWriteLoop ptr s n p).1 = .ok) :
    ∃ k', AsksFor p.status n p.reads k' := by
  induction n generalizing p s with
  | zero => exact ⟨_, .done _⟩
  | succ n ih =>
    simp only [ataWriteLoop] at h
    by_cases hw : p.ata400nsDelay.ataWaitDrq.1 = .ok
    · obtain ⟨m, hm⟩ := decides_of_wait hw
      have hwait := wait_of_decides hm
      simp only [ataWaitDrq, hwait, ne_eq, not_true_eq_false, if_false] at h
      obtain ⟨k', hk⟩ := ih h
      exact ⟨k', .sector (requests_iff.2 hm) hk⟩
    · rw [if_pos hw] at h
      exact absurd h (Wait.status_ne_ok hw)

/-- **A write that the drive accepts** returns `ATA_OK`, and everything was sent. -/
theorem ataWriteSectors_of_accepts {lba : UInt32} {count : UInt8} {ptr : ℕ → UInt16}
    (h : Accepts p.status count.toNat p.reads k') : (p.ataWriteSectors lba count ptr).1 = .ok ∧
      (p.ataWriteSectors lba count ptr).2.out = (p.ataSelectLba28 lba count).cmdWritePio.out ++
        sectorsWords ptr 0 count.toNat ++ [.byte (ataPrimaryBase + 7) 0xE7] := by
  obtain ⟨m, hs, ha⟩ := h
  have hwait := wait_of_decides (settles_iff.1 hs)
  have hloop : ataWriteLoop ptr 0 count.toNat ({ p with reads := m }.ataSelectLba28 lba count).cmdWritePio = _ :=
    writeLoop_of_asksFor ha 0
  unfold ataWriteSectors
  simp only [ataWaitBsy, hwait, ne_eq, not_true_eq_false, if_false, hloop, true_and, wait_out]
  rfl

theorem accepts_of_ataWriteSectors {lba : UInt32} {count : UInt8} {ptr : ℕ → UInt16}
    (h : (p.ataWriteSectors lba count ptr).1 = .ok) : ∃ k', Accepts p.status count.toNat p.reads k' := by
  unfold ataWriteSectors at h
  dsimp only at h
  by_cases hw : p.ataWaitBsy.1 = .ok
  swap
  · rw [if_pos hw] at h; cases h
  obtain ⟨m, hm⟩ := decides_of_wait hw
  have hwait := wait_of_decides hm
  simp only [ataWaitBsy, hwait, ne_eq, not_true_eq_false, if_false] at h
  split at h
  next hl => exact absurd h hl
  next hl =>
    obtain ⟨k', hk⟩ := asksFor_of_writeLoop (not_not.1 hl)
    exact ⟨k', m, settles_iff.2 hm, hk⟩

/-- **Errors of a write.** For every status stream, block address, count and buffer:
`ATA_OK` means that the drive accepted every sector and got ready again after the last one
and the flush, if and only if this is not a write of which it accepts every sector and whose
flush fails. -/
theorem write_errors_iff (p : Ports) (lba : UInt32) (count : UInt8) (ptr : ℕ → UInt16) :
    ((p.ataWriteSectors lba count ptr).1 = .ok → Completes p.status count.toNat p.reads) ↔
      ¬ FlushFails p.status count.toNat p.reads := by
  constructor
  · rintro h ⟨m, hacc, hfail⟩
    obtain ⟨m', k', hacc', hset⟩ := h (ataWriteSectors_of_accepts hacc).1
    obtain rfl := hacc.unique hacc'
    exact hfail k' hset
  · intro h hok
    obtain ⟨m, hacc⟩ := accepts_of_ataWriteSectors hok
    by_contra hno
    exact h ⟨m, hacc, fun k' hset => hno ⟨m, k', hacc, hset⟩⟩

/-- Ready, ready for data, and an error at the flush. -/
def flushError : Ports := ⟨fun k => if k ≤ 5 then 0x48 else 0x41, 0, []⟩

/-- **An error that is dropped**: one sector, accepted, and a flush that fails. -/
theorem write_errors_flush : (flushError.ataWriteSectors 0 1 fun _ => 0).1 = .ok ∧
    ¬ Completes flushError.status 1 flushError.reads := by
  have hready : Settles flushError.status 0 1 := ⟨0, by decide, by simp, by decide, by decide, rfl⟩
  have hdata : Requests flushError.status (1 + 4) 6 := ⟨0, by decide, by simp, by decide, by decide, rfl⟩
  have hacc : Accepts flushError.status 1 0 6 := ⟨1, hready, .sector hdata (.done 6)⟩
  refine ⟨(ataWriteSectors_of_accepts hacc).1, ?_⟩
  rintro ⟨m, k', hacc', i, -, -, -, herr, -⟩
  obtain rfl := hacc.unique hacc'
  have hlate : flushError.status (6 + i) = 0x41 := if_neg (by omega)
  rw [hlate] at herr
  exact absurd herr (by decide)

/-! ## The driver of `Model.Ata` -/

/-- The number of the first status reading for sector `s`. -/
def sectorAt (p : Ports) : ℕ → ℕ
  | 0 => p.ataWaitBsy.2.reads
  | s + 1 => ({ p with reads := p.sectorAt s } : Ports).ata400nsDelay.ataWaitDrq.2.reads

/-- **The script that the status stream makes** for a write: the outcome of its waits. -/
def waits (p : Ports) : Script
  | 0 => p.ataWaitBsy.1
  | s + 1 => ({ p with reads := p.sectorAt s } : Ports).ata400nsDelay.ataWaitDrq.1

/-- The two sector loops send and write the same sectors. -/
theorem writeLoop_refines {count : ℕ} (p₀ : Ports) (ptr : ℕ → UInt16) (disk : ℕ → UInt8) (lba : ℕ)
    (buf : Fin (512 * count) → UInt8) : ∀ todo s out, s + todo = count → ∃ done ≤ todo, ∃ r reads,
      ataWriteLoop ptr s todo ⟨p₀.status, p₀.sectorAt s, out⟩ =
        (r, ⟨p₀.status, reads, out ++ sectorsWords ptr s done⟩) ∧
      writeLoop p₀.waits lba buf s todo (put disk lba (splice (512 * s) (sectors disk lba count) buf)) =
        (r, put disk lba (splice (512 * (s + done)) (sectors disk lba count) buf)) := by
  intro todo
  induction todo with
  | zero =>
    intro s out _
    exact ⟨0, le_refl _, .ok, p₀.sectorAt s, by simp [ataWriteLoop, sectorsWords], rfl⟩
  | succ todo ih =>
    intro s out hs
    set w := (⟨p₀.status, p₀.sectorAt s, out⟩ : Ports).ata400nsDelay.ataWaitDrq with hw
    have hsame : p₀.waits (1 + s) = w.1 := by rw [Nat.add_comm]; rfl
    have hpos : p₀.sectorAt (s + 1) = w.2.reads := rfl
    have hout : w.2 = ⟨p₀.status, p₀.sectorAt (s + 1), out⟩ := rfl
    simp only [ataWriteLoop, writeLoop, ← hw, hsame]
    by_cases hr : w.1 = .ok
    · obtain ⟨done, hdone, r, reads, hport, hcoarse⟩ := ih (s + 1) (out ++ sectorWords ptr s) (by omega)
      refine ⟨done + 1, by omega, r, reads, ?_, ?_⟩
      · rw [if_neg (not_not.2 hr), hout, hport, sectorsWords, sectorsWords, List.range'_succ, List.flatMap_cons,
          List.append_assoc]
      · rw [if_neg (not_not.2 hr), writeSector_splice disk (by omega), hcoarse, Nat.add_right_comm s 1 done]
        rfl
    · rw [if_pos hr, if_pos hr]
      exact ⟨0, by omega, w.1.status, p₀.sectorAt (s + 1), by rw [hout]; simp [sectorsWords], rfl⟩

/-- **The coarser driver is this one.** With the script that the status stream makes, it
returns the same status, and the sectors that it writes are those that are sent here. -/
theorem ataWriteSectors_refines (p : Ports) (lba : UInt32) (count : UInt8) (ptr : ℕ → UInt16) (d : Drive)
    (hplan : d.plan 0 = p.waits) (buf : Fin (512 * count.toNat) → UInt8) : ∃ done ≤ count.toNat,
      (DahleOS.ataWriteSectors d lba.toNat count.toNat buf).1 = (p.ataWriteSectors lba count ptr).1 ∧
      (DahleOS.ataWriteSectors d lba.toNat count.toNat buf).2.bytes =
        put d.bytes lba.toNat (splice (512 * done) (sectors d.bytes lba.toNat count.toNat) buf) ∧
      (p.ataWriteSectors lba count ptr).2.out =
        if p.waits 0 ≠ .ok then p.out
        else (p.ataSelectLba28 lba count).cmdWritePio.out ++ sectorsWords ptr 0 done ++
          if (p.ataWriteSectors lba count ptr).1 = .ok then [.byte (ataPrimaryBase + 7) 0xE7] else [] := by
  have hfirst : p.waits 0 = p.ataWaitBsy.1 := rfl
  have hnone : put d.bytes lba.toNat (splice (512 * 0) (sectors d.bytes lba.toNat count.toNat) buf) = d.bytes := by
    rw [Nat.mul_zero, splice_zero, put_sectors]
  unfold DahleOS.ataWriteSectors ataWriteSectors
  rw [hplan, hfirst]
  dsimp only
  by_cases hw : p.ataWaitBsy.1 = .ok
  swap
  · -- neither gets to the command
    refine ⟨0, Nat.zero_le _, ?_, ?_, ?_⟩
    · rw [if_pos hw, if_pos hw]
    · rw [if_pos hw, hnone]
      rfl
    · simp only [if_pos hw]
      rfl
  obtain ⟨done, hdone, r, reads, hport, hcoarse⟩ := writeLoop_refines p ptr d.bytes lba.toNat buf count.toNat 0
    (p.ataSelectLba28 lba count).cmdWritePio.out (by omega)
  rw [hnone, Nat.zero_add] at hcoarse
  have hstart : (p.ataWaitBsy.2.ataSelectLba28 lba count).cmdWritePio =
    ⟨p.status, p.sectorAt 0, (p.ataSelectLba28 lba count).cmdWritePio.out⟩ := rfl
  refine ⟨done, hdone, ?_⟩
  simp only [if_neg (not_not.2 hw), hstart, hport, hcoarse]
  by_cases hr : r = .ok
  · subst hr
    simp only [ne_eq, not_true_eq_false, if_false, if_true, true_and]
    rfl
  · simp only [ne_eq, hr, not_false_eq_true, if_true, if_false, List.append_nil, true_and]

end Ports

end DahleOS
