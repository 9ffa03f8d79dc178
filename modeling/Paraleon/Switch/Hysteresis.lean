import Paraleon.Switch.MmuPools

/-!
# Pause and resume thresholds

A paused slot is resumed below the threshold by `resume_offset`, or when it uses nothing of
the shared pool: its last packet has left, and no later removal would look at it again. An
unpaused slot is paused from the threshold on, and the threshold may be zero.

* `pause_after_resume_iff`: these are the only cases in which a slot that is resumed is to be
  paused at once, but for a sum that wraps.
* `exhausted_pool_contradicts`: one class takes the whole pool, and the last packet of another
  one leaves.
-/

namespace Paraleon.Switch.Hysteresis

open Words Runs

/-! ## The system -/

/-- A packet comes or goes, or `CheckAndSendPfc` or `CheckAndSendResume` looks at a slot. -/
inductive Event where
  | packet (e : Pools.Event)
  | checkAndSendPfc (i : Slot)
  | checkAndSendResume (i : Slot)

def step (c : MmuConfig) (s : Ledger) : Event → Option Ledger
  | .packet e => Pools.step c s e
  | .checkAndSendPfc i =>
    some (if s.mmu.checkShouldPause c i then { s with mmu := s.mmu.setPause i } else s)
  | .checkAndSendResume i =>
    some (if s.mmu.checkShouldResume c i then { s with mmu := s.mmu.setResume i } else s)

/-! ## The two conditions -/

/-- In any state, a slot that is resumed is to be paused at once exactly when it is not below
the threshold although it uses nothing of the shared pool, or the sum with `resume_offset` has
wrapped. -/
theorem pause_after_resume_iff (c : MmuConfig) (hoffset : 0 < c.resumeOffset.toNat)
    (m : SwitchMmu) (i : Slot) (hresume : m.checkShouldResume c i = true) :
    (m.setResume i).checkShouldPause c i = true ↔
      m.getPfcThreshold c i.1 ≤ m.getSharedUsed c i ∧
        (m.getSharedUsed c i = 0 ∨ 2 ^ 32 ≤ m.getSharedUsed c i + c.resumeOffset.toNat) := by
  have hpause : (m.setResume i).checkShouldPause c i = true ↔
      0 < m.hdrmBytes i ∨ m.getPfcThreshold c i.1 ≤ m.getSharedUsed c i := by
    show (!Function.update m.paused i false i && (decide (0 < m.hdrmBytes i) ||
      decide (m.getPfcThreshold c i.1 ≤ m.getSharedUsed c i))) = true ↔ _
    simp
  simp only [SwitchMmu.checkShouldResume, Bool.and_eq_true, Bool.or_eq_true,
    decide_eq_true_eq] at hresume
  obtain ⟨⟨-, hhdrm⟩, hlow⟩ := hresume
  rw [hpause]
  constructor
  · rintro (hpos | hle)
    · exact absurd hhdrm (Nat.ne_of_gt hpos)
    · refine ⟨hle, hlow.imp_right fun hsum => ?_⟩
      by_contra hfits
      rw [u32_of_lt (Nat.lt_of_not_le hfits)] at hsum
      -- the offset keeps a slot that is resumed below the threshold
      omega
  · rintro ⟨hle, -⟩
    exact .inr hle

/-- An empty slot is resumed far below the threshold, and not paused again. -/
theorem pause_after_resume_iff_low :
    ¬((SwitchMmu.create.setPause (1, 3)).setResume (1, 3)).checkShouldPause MmuConfig.create
      (1, 3) = true := fun h =>
  absurd ((pause_after_resume_iff MmuConfig.create (by decide) (SwitchMmu.create.setPause (1, 3))
    (1, 3) (by decide)).mp h).1 (by decide)

/-! ## An exhausted pool -/

/-- One port; the shared pool has 1000 bytes. -/
def onePortConfig : MmuConfig :=
  ((MmuConfig.create.configHdrm 1 18000).configNPort 1).configBufferSize (18000 + 4096 + 1000)

/-- Class 4 takes the pool, so class 3 is paused with its first packet in the reserve. The
packet leaves, and class 3 is to be resumed and, once resumed, to be paused. -/
theorem exhausted_pool_contradicts :
    0 < onePortConfig.resumeOffset.toNat ∧
      ∃ s, run (step onePortConfig) Ledger.start
          [.packet (.admission { inDev := 1, outDev := 2, qIndex := 4, size := 4096 }),
            .packet (.admission { inDev := 1, outDev := 2, qIndex := 4, size := 1000 }),
            .checkAndSendPfc (1, 4),
            .packet (.admission { inDev := 1, outDev := 2, qIndex := 3, size := 1000 }),
            .checkAndSendPfc (1, 3), .packet (.remove 2)] = some s ∧
        s.mmu.checkShouldResume onePortConfig (1, 3) = true ∧
        (s.mmu.setResume (1, 3)).checkShouldPause onePortConfig (1, 3) = true := by
  refine ⟨by decide, _, rfl, by decide, by decide⟩

end Paraleon.Switch.Hysteresis
