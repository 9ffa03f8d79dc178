import Mathlib.Data.Fintype.Prod
import Mathlib.Logic.Function.Basic
import Paraleon.Library.Words

/-!
# The buffer manager of a switch

`SwitchMmu` charges every packet a switch holds to the ingress port and class it
came in by: to the reserve of that pair, to the shared pool, or to the headroom.
The tables of the source are `uint32_t [pCnt][qCnt]`; all counters are 32-bit
words.
-/

namespace Paraleon.Switch

open Words

/-- A port of a switch, below `pCnt`. -/
abbrev Port := Fin 257

/-- A queue or priority, below `qCnt`. -/
abbrev Class := Fin 8

instance neZero_pCnt : NeZero 257 := ⟨by decide⟩

instance neZero_qCnt : NeZero 8 := ⟨by decide⟩

/-- A port and a class: the index of the tables of the MMU. -/
abbrev Slot := Port × Class

/-- The configuration of a `SwitchMmu`. -/
structure MmuConfig where
  bufferSize : UInt32
  pfcAShift : Port → UInt32
  reserve : UInt32
  headroom : Port → UInt32
  resumeOffset : UInt32
  totalHdrm : UInt32
  totalRsrv : UInt32

/-- The runtime state of a `SwitchMmu`. -/
structure SwitchMmu where
  sharedUsedBytes : Nat
  hdrmBytes : Slot → Nat
  ingressBytes : Slot → Nat
  paused : Slot → Bool
  egressBytes : Slot → Nat

namespace MmuConfig

/-- The configuration the constructor leaves behind. The arrays and the two
totals hold whatever `ConfigHdrm` and `ConfigNPort` put there later. -/
def create : MmuConfig :=
  { bufferSize := 12 * 1024 * 1024, pfcAShift := fun _ => 0, reserve := 4 * 1024,
    headroom := fun _ => 0, resumeOffset := 10 * 1024, totalHdrm := 0, totalRsrv := 0 }

def configHdrm (c : MmuConfig) (port : Port) (size : UInt32) : MmuConfig :=
  { c with headroom := Function.update c.headroom port size }

/-- The ports `1` to `nPort`. -/
def ports (nPort : Port) : List Port :=
  (List.finRange 257).filter fun i => 1 ≤ i ∧ i ≤ nPort

def configNPort (c : MmuConfig) (nPort : Port) : MmuConfig :=
  (ports nPort).foldl
    (fun c i => { c with totalHdrm := c.totalHdrm + c.headroom i,
                         totalRsrv := c.totalRsrv + c.reserve })
    { c with totalHdrm := 0, totalRsrv := 0 }

def configBufferSize (c : MmuConfig) (size : UInt32) : MmuConfig := { c with bufferSize := size }

end MmuConfig

namespace SwitchMmu

def create : SwitchMmu :=
  { sharedUsedBytes := 0, hdrmBytes := fun _ => 0, ingressBytes := fun _ => 0,
    paused := fun _ => false, egressBytes := fun _ => 0 }

variable (c : MmuConfig) (m : SwitchMmu) (i : Slot) (psize : Nat)

/-- The shift count is below 32; a larger one is undefined in the source. -/
def getPfcThreshold (port : Port) : Nat :=
  sub32 (sub32 (sub32 c.bufferSize.toNat c.totalHdrm.toNat) c.totalRsrv.toNat) m.sharedUsedBytes
    >>> (c.pfcAShift port).toNat

def getSharedUsed : Nat :=
  if c.reserve.toNat < m.ingressBytes i then m.ingressBytes i - c.reserve.toNat else 0

/-- A packet that fits neither in the headroom nor under the threshold ends the
program (`exit(-1)`). -/
def checkIngressAdmission : Bool :=
  !(decide ((c.headroom i.1).toNat < u32 (psize + m.hdrmBytes i)) &&
    decide (m.getPfcThreshold c i.1 < u32 (psize + m.getSharedUsed c i)))

def checkEgressAdmission (_m : SwitchMmu) (_i : Slot) (_psize : Nat) : Bool := true

def updateIngressAdmission : SwitchMmu :=
  let newBytes := u32 (m.ingressBytes i + psize)
  if newBytes ≤ c.reserve.toNat then
    { m with ingressBytes := Function.update m.ingressBytes i newBytes }
  else
    let thresh := m.getPfcThreshold c i.1
    if thresh < newBytes - c.reserve.toNat then
      { m with hdrmBytes := Function.update m.hdrmBytes i (u32 (m.hdrmBytes i + psize)) }
    else
      { m with
        ingressBytes := Function.update m.ingressBytes i newBytes
        sharedUsedBytes := u32 (m.sharedUsedBytes + min psize (newBytes - c.reserve.toNat)) }

def updateEgressAdmission : SwitchMmu :=
  { m with egressBytes := Function.update m.egressBytes i (u32 (m.egressBytes i + psize)) }

/-- The bytes of a packet that leaves which are taken from the headroom. -/
def fromHdrm : Nat := min (m.hdrmBytes i) psize

/-- The bytes of a packet that leaves which go back to the shared pool. -/
def fromShared : Nat :=
  min (sub32 psize (m.fromHdrm i psize))
    (if c.reserve.toNat < m.ingressBytes i then m.ingressBytes i - c.reserve.toNat else 0)

def removeFromIngressAdmission : SwitchMmu :=
  { m with
    hdrmBytes := Function.update m.hdrmBytes i (sub32 (m.hdrmBytes i) (m.fromHdrm i psize))
    ingressBytes := Function.update m.ingressBytes i
      (sub32 (m.ingressBytes i) (sub32 psize (m.fromHdrm i psize)))
    sharedUsedBytes := sub32 m.sharedUsedBytes (m.fromShared c i psize) }

def removeFromEgressAdmission : SwitchMmu :=
  { m with egressBytes := Function.update m.egressBytes i (sub32 (m.egressBytes i) psize) }

def checkShouldPause : Bool :=
  !m.paused i &&
    (decide (0 < m.hdrmBytes i) || decide (m.getPfcThreshold c i.1 ≤ m.getSharedUsed c i))

def checkShouldResume : Bool :=
  m.paused i && decide (m.hdrmBytes i = 0) &&
    (decide (m.getSharedUsed c i = 0) ||
      decide (u32 (m.getSharedUsed c i + c.resumeOffset.toNat) ≤ m.getPfcThreshold c i.1))

def setPause : SwitchMmu := { m with paused := Function.update m.paused i true }

def setResume : SwitchMmu := { m with paused := Function.update m.paused i false }

/-! ## What each function can do -/

variable {c m i psize}

/-- The bytes of a slot in the shared pool. -/
theorem getSharedUsed_eq : m.getSharedUsed c i = m.ingressBytes i - c.reserve.toNat := by
  unfold getSharedUsed
  split <;> omega

/-- The two sums of an admission stay in 32 bits. -/
structure Fits (m : SwitchMmu) (i : Slot) (psize : Nat) : Prop where
  ingress : m.ingressBytes i + psize < 2 ^ 32
  hdrm : m.hdrmBytes i + psize < 2 ^ 32

instance (m : SwitchMmu) (i : Slot) (psize : Nat) : Decidable (m.Fits i psize) :=
  decidable_of_iff (m.ingressBytes i + psize < 2 ^ 32 ∧ m.hdrmBytes i + psize < 2 ^ 32)
    ⟨fun h => ⟨h.1, h.2⟩, fun h => ⟨h.1, h.2⟩⟩

/-- A packet is charged to the reserve, to the headroom, or to the shared pool. -/
theorem updateIngressAdmission_cases (c : MmuConfig) (hfit : m.Fits i psize) :
    (m.ingressBytes i + psize ≤ c.reserve.toNat ∧ m.updateIngressAdmission c i psize =
      { m with ingressBytes := Function.update m.ingressBytes i (m.ingressBytes i + psize) }) ∨
    (c.reserve.toNat < m.ingressBytes i + psize ∧
      m.getPfcThreshold c i.1 < m.ingressBytes i + psize - c.reserve.toNat ∧
      m.updateIngressAdmission c i psize =
        { m with hdrmBytes := Function.update m.hdrmBytes i (m.hdrmBytes i + psize) }) ∨
    (c.reserve.toNat < m.ingressBytes i + psize ∧
      m.ingressBytes i + psize - c.reserve.toNat ≤ m.getPfcThreshold c i.1 ∧
      m.updateIngressAdmission c i psize =
        { m with
          ingressBytes := Function.update m.ingressBytes i (m.ingressBytes i + psize)
          sharedUsedBytes := u32 (m.sharedUsedBytes +
            min psize (m.ingressBytes i + psize - c.reserve.toNat)) }) := by
  simp only [updateIngressAdmission, u32_of_lt hfit.ingress, u32_of_lt hfit.hdrm]
  split
  · next h => exact .inl ⟨h, rfl⟩
  · next h =>
    split
    · next h' => exact .inr (.inl ⟨by omega, h', rfl⟩)
    · next h' => exact .inr (.inr ⟨by omega, by omega, rfl⟩)

/-- The slot of the packet is charged with the whole packet. -/
theorem updateIngressAdmission_self (hfit : m.Fits i psize) :
    (m.updateIngressAdmission c i psize).ingressBytes i +
        (m.updateIngressAdmission c i psize).hdrmBytes i =
      m.ingressBytes i + m.hdrmBytes i + psize := by
  rcases updateIngressAdmission_cases c hfit with ⟨-, h⟩ | ⟨-, -, h⟩ | ⟨-, -, h⟩ <;>
    simp only [h, Function.update_self] <;> omega

variable (c m i psize) in
/-- The other slots are left alone. -/
theorem updateIngressAdmission_other {j : Slot} (hj : j ≠ i) :
    (m.updateIngressAdmission c i psize).ingressBytes j = m.ingressBytes j ∧
      (m.updateIngressAdmission c i psize).hdrmBytes j = m.hdrmBytes j := by
  simp only [updateIngressAdmission]
  split
  · simp [hj]
  · split <;> simp [hj]

@[simp] theorem updateIngressAdmission_egress :
    (m.updateIngressAdmission c i psize).egressBytes = m.egressBytes := by
  simp only [updateIngressAdmission]
  split
  · rfl
  · split <;> rfl

@[simp] theorem updateIngressAdmission_paused :
    (m.updateIngressAdmission c i psize).paused = m.paused := by
  simp only [updateIngressAdmission]
  split
  · rfl
  · split <;> rfl

/-- The shared pool grows by what the slot uses more of it. -/
theorem updateIngressAdmission_shared (hfit : m.Fits i psize)
    (hshared : m.ingressBytes i + psize - c.reserve.toNat ≤ m.getPfcThreshold c i.1 →
      m.sharedUsedBytes + min psize (m.ingressBytes i + psize - c.reserve.toNat) < 2 ^ 32) :
    (m.updateIngressAdmission c i psize).sharedUsedBytes + (m.ingressBytes i - c.reserve.toNat) =
      m.sharedUsedBytes +
        ((m.updateIngressAdmission c i psize).ingressBytes i - c.reserve.toNat) := by
  rcases updateIngressAdmission_cases c hfit with ⟨hle, h⟩ | ⟨-, -, h⟩ | ⟨hlt, hthresh, h⟩
  · simp only [h, Function.update_self]
    omega
  · simp only [h]
  · simp only [h, Function.update_self, u32_of_lt (hshared hthresh)]
    omega

theorem fromHdrm_le_psize : m.fromHdrm i psize ≤ psize := Nat.min_le_right _ _

theorem fromHdrm_le_hdrm : m.fromHdrm i psize ≤ m.hdrmBytes i := Nat.min_le_left _ _

/-- What goes back to the shared pool. -/
theorem fromShared_eq : m.fromShared c i psize =
    min (psize - m.fromHdrm i psize) (m.ingressBytes i - c.reserve.toNat) := by
  have hite : (if c.reserve.toNat < m.ingressBytes i then m.ingressBytes i - c.reserve.toNat
      else 0) = m.ingressBytes i - c.reserve.toNat := by
    split <;> omega
  rw [fromShared, sub32_of_le fromHdrm_le_psize, hite]

/-- No subtraction of a removal goes below zero: the packet is charged to the
slot `i`, and what the slot uses of the shared pool is in the pool. -/
structure Holds (c : MmuConfig) (m : SwitchMmu) (i : Slot) (psize : Nat) : Prop where
  slot : psize ≤ m.ingressBytes i + m.hdrmBytes i
  shared : m.ingressBytes i - c.reserve.toNat ≤ m.sharedUsedBytes

/-- A removal, in ordinary arithmetic. -/
theorem removeFromIngressAdmission_eq (h : Holds c m i psize) :
    m.removeFromIngressAdmission c i psize =
      { m with
        hdrmBytes := Function.update m.hdrmBytes i (m.hdrmBytes i - min (m.hdrmBytes i) psize)
        ingressBytes := Function.update m.ingressBytes i
          (m.ingressBytes i - (psize - m.hdrmBytes i))
        sharedUsedBytes := m.sharedUsedBytes -
          min (psize - m.hdrmBytes i) (m.ingressBytes i - c.reserve.toNat) } := by
  have := h.slot
  have := h.shared
  have hrest : psize - min (m.hdrmBytes i) psize = psize - m.hdrmBytes i := by omega
  have hin : psize - m.hdrmBytes i ≤ m.ingressBytes i := by omega
  have hpool : min (psize - m.hdrmBytes i) (m.ingressBytes i - c.reserve.toNat) ≤
      m.sharedUsedBytes := by omega
  rw [removeFromIngressAdmission, fromShared_eq, SwitchMmu.fromHdrm,
    sub32_of_le (Nat.min_le_right _ psize), hrest, sub32_of_le (Nat.min_le_left _ _),
    sub32_of_le hin, sub32_of_le hpool]

@[simp] theorem removeFromIngressAdmission_egress :
    (m.removeFromIngressAdmission c i psize).egressBytes = m.egressBytes := rfl

@[simp] theorem removeFromIngressAdmission_paused :
    (m.removeFromIngressAdmission c i psize).paused = m.paused := rfl

variable (c m i psize) in
theorem removeFromIngressAdmission_other {j : Slot} (hj : j ≠ i) :
    (m.removeFromIngressAdmission c i psize).ingressBytes j = m.ingressBytes j ∧
      (m.removeFromIngressAdmission c i psize).hdrmBytes j = m.hdrmBytes j := by
  simp [removeFromIngressAdmission, hj]

theorem removeFromIngressAdmission_self (h : Holds c m i psize) :
    (m.removeFromIngressAdmission c i psize).ingressBytes i +
        (m.removeFromIngressAdmission c i psize).hdrmBytes i + psize =
      m.ingressBytes i + m.hdrmBytes i := by
  have := h.slot
  simp only [removeFromIngressAdmission_eq h, Function.update_self]
  omega

/-- The shared pool shrinks by what the slot uses less of it. -/
theorem removeFromIngressAdmission_shared (h : Holds c m i psize) :
    (m.removeFromIngressAdmission c i psize).sharedUsedBytes +
        (m.ingressBytes i - c.reserve.toNat) =
      m.sharedUsedBytes +
        ((m.removeFromIngressAdmission c i psize).ingressBytes i - c.reserve.toNat) := by
  have := h.shared
  simp only [removeFromIngressAdmission_eq h, Function.update_self]
  omega

@[simp] theorem updateEgressAdmission_egress : (m.updateEgressAdmission i psize).egressBytes =
    Function.update m.egressBytes i (u32 (m.egressBytes i + psize)) := rfl

@[simp] theorem removeFromEgressAdmission_egress :
    (m.removeFromEgressAdmission i psize).egressBytes =
      Function.update m.egressBytes i (sub32 (m.egressBytes i) psize) := rfl

end SwitchMmu

end Paraleon.Switch
