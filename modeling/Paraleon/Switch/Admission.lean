import Paraleon.Switch.MmuPools

/-!
# The admission check and the admission update

`CheckIngressAdmission` compares the whole packet, with what its slot uses of the shared pool,
to the threshold. `UpdateIngressAdmission` compares only what is over the reserve. Below the
reserve these are two different numbers.

* `admissionAgrees_iff`: the check refuses exactly the packets for which the headroom is too
  small, except for those that straddle the reserve.
* `reserve_packet_refused`: a full headroom, an exhausted pool, and a packet that fits in the
  empty reserve.
-/

namespace Paraleon.Switch

open Words Runs

namespace SwitchMmu

variable (c : MmuConfig) (m : SwitchMmu) (i : Slot) (psize : Nat)

/-- The branch of `UpdateIngressAdmission` that charges the headroom. -/
def GoesToHeadroom : Prop :=
  c.reserve.toNat < u32 (m.ingressBytes i + psize) ∧
    m.getPfcThreshold c i.1 < u32 (m.ingressBytes i + psize) - c.reserve.toNat

instance : Decidable (GoesToHeadroom c m i psize) := inferInstanceAs (Decidable (_ ∧ _))

/-- The check refuses the packet exactly when the update would make the headroom of its slot
overflow. -/
def AdmissionAgrees : Prop :=
  m.checkIngressAdmission c i psize = false ↔
    GoesToHeadroom c m i psize ∧
      (c.headroom i.1).toNat < (m.updateIngressAdmission c i psize).hdrmBytes i

/-- The packet has no room in the headroom, and on its own it is over the threshold, but not
what of it is over the reserve. The second case is that of a sum that wraps. -/
def Straddles : Prop :=
  (c.headroom i.1).toNat < u32 (psize + m.hdrmBytes i) ∧
    (m.ingressBytes i < c.reserve.toNat ∧ m.getPfcThreshold c i.1 < psize ∧
        m.ingressBytes i + psize ≤ c.reserve.toNat + m.getPfcThreshold c i.1 ∨
      2 ^ 32 ≤ m.ingressBytes i + psize ∧ m.ingressBytes i + psize < 2 ^ 32 + c.reserve.toNat ∧
        m.getPfcThreshold c i.1 < psize + (m.ingressBytes i - c.reserve.toNat))

instance : Decidable (Straddles c m i psize) := inferInstanceAs (Decidable (_ ∧ _))

variable {c m i psize}

/-- What goes to the headroom is counted there. -/
theorem hdrmBytes_of_goes (h : GoesToHeadroom c m i psize) :
    (m.updateIngressAdmission c i psize).hdrmBytes i = u32 (m.hdrmBytes i + psize) := by
  simp only [updateIngressAdmission, if_neg (Nat.not_le.mpr h.1), if_pos h.2,
    Function.update_self]

/-- The ingress counters have 32 bits. -/
def IngressU32 (m : SwitchMmu) : Prop := ∀ i, m.ingressBytes i < 2 ^ 32

theorem ingressU32_update (h : IngressU32 m) :
    IngressU32 (m.updateIngressAdmission c i psize) := by
  have hset : ∀ j, Function.update m.ingressBytes i (u32 (m.ingressBytes i + psize)) j < 2 ^ 32 :=
    fun j => by
      rw [Function.update_apply]
      split
      · exact u32_lt _
      · exact h j
  intro j
  simp only [updateIngressAdmission]
  split
  · exact hset j
  · split
    · exact h j
    · exact hset j

theorem ingressU32_remove (h : IngressU32 m) :
    IngressU32 (m.removeFromIngressAdmission c i psize) := by
  intro j
  show Function.update m.ingressBytes i (sub32 (m.ingressBytes i) _) j < 2 ^ 32
  rw [Function.update_apply]
  split
  · exact sub32_lt (h i) _
  · exact h j

/-- The two comparisons, once the counter and the size of the packet have 32 bits. -/
theorem admissionAgrees_of_lt (hin : m.ingressBytes i < 2 ^ 32) (hsize : psize < 2 ^ 32) :
    AdmissionAgrees c m i psize ↔ ¬Straddles c m i psize := by
  have hcheck : m.checkIngressAdmission c i psize = false ↔
      (c.headroom i.1).toNat < u32 (psize + m.hdrmBytes i) ∧
        m.getPfcThreshold c i.1 < u32 (psize + (m.ingressBytes i - c.reserve.toNat)) := by
    simp [checkIngressAdmission, getSharedUsed_eq]
  have hupdate : GoesToHeadroom c m i psize ∧
      (c.headroom i.1).toNat < (m.updateIngressAdmission c i psize).hdrmBytes i ↔
        GoesToHeadroom c m i psize ∧ (c.headroom i.1).toNat < u32 (psize + m.hdrmBytes i) := by
    refine and_congr_right fun h => ?_
    rw [hdrmBytes_of_goes h, Nat.add_comm]
  rw [AdmissionAgrees, hcheck, hupdate, GoesToHeadroom, Straddles]
  have hreserve : c.reserve.toNat < 2 ^ 32 := c.reserve.toNat_lt
  generalize hfull : ((c.headroom i.1).toNat < u32 (psize + m.hdrmBytes i)) = full
  generalize m.getPfcThreshold c i.1 = thresh
  generalize m.ingressBytes i = used at hin ⊢
  generalize c.reserve.toNat = reserve at hreserve ⊢
  by_cases h : full
  · simp only [h, true_and, and_true, u32]
    omega
  · simp [h]

end SwitchMmu

namespace Pools

variable {c : MmuConfig} {s : Ledger}

theorem ingressU32_of_reachable (h : Reachable (step c) Ledger.start s) : s.mmu.IngressU32 := by
  have hstart : Ledger.start.mmu.IngressU32 := fun _ => Nat.two_pow_pos 32
  refine h.invariant hstart fun s e t (hs : s.mmu.IngressU32) hstep => ?_
  cases e with
  | admission b =>
    obtain ⟨-, rfl⟩ := admit_eq hstep
    exact SwitchMmu.ingressU32_update hs
  | remove k =>
    obtain ⟨b, -, rfl⟩ := Ledger.remove_eq hstep
    exact SwitchMmu.ingressU32_remove (c := c) hs

/-- In every reachable state the check and the update agree on exactly the packets that do not
straddle the reserve. -/
theorem admissionAgrees_iff (c : MmuConfig) (h : Reachable (step c) Ledger.start s) (i : Slot)
    (psize : UInt32) : s.mmu.AdmissionAgrees c i psize.toNat ↔
      ¬s.mmu.Straddles c i psize.toNat :=
  SwitchMmu.admissionAgrees_of_lt (ingressU32_of_reachable h i) psize.toNat_lt

/-- One port with a headroom of two jumbo frames; the shared pool has 896 bytes. -/
def smallPoolConfig : MmuConfig :=
  ((MmuConfig.create.configHdrm 1 18000).configNPort 1).configBufferSize (18000 + 4096 + 896)

/-- Two frames, which fill the headroom -/
def twoFrames : List Event :=
  [.admission { inDev := 1, outDev := 2, qIndex := 3, size := 9000 },
    .admission { inDev := 1, outDev := 2, qIndex := 3, size := 9000 }]

/-- A third frame would overfill the headroom and is refused. -/
theorem admissionAgrees_full :
    ∃ s, run (step smallPoolConfig) Ledger.start twoFrames = some s ∧
      s.mmu.checkIngressAdmission smallPoolConfig (1, 3) 9000 = false ∧
      s.mmu.AdmissionAgrees smallPoolConfig (1, 3) 9000 :=
  ⟨_, rfl, by decide,
    (admissionAgrees_iff smallPoolConfig ⟨twoFrames, rfl⟩ (1, 3) 9000).mpr (by decide)⟩

/-! ## A packet that fits is refused -/

/-- The reserve of the slot is empty after the two frames, and a packet of 1000 bytes is refused. -/
theorem reserve_packet_refused :
    ∃ s, run (step smallPoolConfig) Ledger.start twoFrames = some s ∧
      s.mmu.ingressBytes (1, 3) + 1000 ≤ smallPoolConfig.reserve.toNat ∧
      s.mmu.checkIngressAdmission smallPoolConfig (1, 3) 1000 = false ∧
      ¬s.mmu.AdmissionAgrees smallPoolConfig (1, 3) 1000 := by
  refine ⟨_, rfl, by decide, by decide, fun h => ?_⟩
  exact absurd (h.mp (by decide)).1 (by decide)

end Pools

end Paraleon.Switch
