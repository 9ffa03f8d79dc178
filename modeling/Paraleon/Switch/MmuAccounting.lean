import Paraleon.Library.Runs
import Paraleon.Library.Weights
import Paraleon.Switch.Mmu

/-!
# The byte accounting of the buffer manager

The MMU holds no list of packets, only counters. Here it runs beside the list
of the packets it has admitted and not yet removed, and the counters are
compared with that list. On removal the bytes are taken from the headroom first,
wherever the packet was charged when it came in; what makes this sound is that
the counters only promise the sum of both.

* `charged_update`, `charged_remove`: one admission and one removal keep the
  ingress counters in agreement with the list.
* `accounted_always`: so does every run below `2 ^ 32` bytes, under any sequence
  of configurations with the same reserve, and no removal wraps.
-/

namespace Paraleon.Switch

open Words Weights Runs

/-- The ingress counters agree with the number of bytes held for each slot. -/
structure Charged (reserve : Nat) (m : SwitchMmu) (load : Slot → Nat) : Prop where
  ingress : ∀ i, m.ingressBytes i + m.hdrmBytes i = load i
  shared : m.sharedUsedBytes = ∑ i, (m.ingressBytes i - reserve)

theorem charged_create (reserve : Nat) : Charged reserve SwitchMmu.create fun _ => 0 where
  ingress := fun _ => rfl
  shared := by simp [SwitchMmu.create]

/-! ## One step -/

section Step

variable {c : MmuConfig} {m : SwitchMmu} {load load' : Slot → Nat} {i : Slot} {psize : Nat}

/-- An admission charges the packet to its slot, and the shared pool changes by
what the slot uses of it. -/
theorem charged_update (h : Charged c.reserve.toNat m load) (hfit : m.Fits i psize)
    (hshared : m.ingressBytes i + psize - c.reserve.toNat ≤ m.getPfcThreshold c i.1 →
      m.sharedUsedBytes + min psize (m.ingressBytes i + psize - c.reserve.toNat) < 2 ^ 32)
    (hself : load' i = load i + psize) (hother : ∀ j ≠ i, load' j = load j) :
    Charged c.reserve.toNat (m.updateIngressAdmission c i psize) load' where
  ingress j := by
    have hj := h.ingress j
    rcases eq_or_ne j i with rfl | hji
    · rw [SwitchMmu.updateIngressAdmission_self hfit, hself, hj]
    · obtain ⟨hin, hh⟩ := SwitchMmu.updateIngressAdmission_other c m i psize hji
      rw [hin, hh, hother j hji, hj]
  shared := by
    have hpool := SwitchMmu.updateIngressAdmission_shared hfit hshared
    have hsum := sum_changed fun j hj => congrArg (· - c.reserve.toNat)
      (SwitchMmu.updateIngressAdmission_other c m i psize hj).1
    rw [h.shared] at hpool
    omega

/-- No slot uses more of the shared pool than is in it. -/
theorem Charged.holds (h : Charged c.reserve.toNat m load) (hsize : psize ≤ load i) :
    SwitchMmu.Holds c m i psize where
  slot := by
    rw [h.ingress]
    exact hsize
  shared := by
    rw [h.shared]
    exact entry_le_sum (fun i => m.ingressBytes i - c.reserve.toNat) i

/-- A removal takes the packet off its slot, and the shared pool changes by what
the slot uses less of it. -/
theorem charged_remove (h : Charged c.reserve.toNat m load) (hself : load' i + psize = load i)
    (hother : ∀ j ≠ i, load' j = load j) :
    Charged c.reserve.toNat (m.removeFromIngressAdmission c i psize) load' where
  ingress j := by
    have hholds : SwitchMmu.Holds c m i psize := h.holds (by omega)
    have hj := h.ingress j
    rcases eq_or_ne j i with rfl | hji
    · have := SwitchMmu.removeFromIngressAdmission_self hholds
      omega
    · obtain ⟨hin, hh⟩ := SwitchMmu.removeFromIngressAdmission_other c m i psize hji
      rw [hin, hh, hother j hji, hj]
  shared := by
    have hholds : SwitchMmu.Holds c m i psize := h.holds (by omega)
    have hpool := SwitchMmu.removeFromIngressAdmission_shared hholds
    have hsum := sum_changed fun j hj => congrArg (· - c.reserve.toNat)
      (SwitchMmu.removeFromIngressAdmission_other c m i psize hj).1
    rw [h.shared] at hpool
    omega

/-- The shared pool holds at most all bytes. -/
theorem Charged.shared_le {r : Nat} (h : Charged r m load) : m.sharedUsedBytes ≤ ∑ i, load i :=
  calc m.sharedUsedBytes = ∑ i, (m.ingressBytes i - r) := h.shared
    _ ≤ ∑ i, load i := Finset.sum_le_sum fun i _ => by have := h.ingress i; omega

/-- Below `2 ^ 32` bytes in all, an admission computes its sums in 32 bits. -/
theorem Charged.fits {r : Nat} (h : Charged r m load) (hn : ∑ i, load i + psize < 2 ^ 32)
    (i : Slot) : m.Fits i psize := by
  have hi := h.ingress i
  have hle := entry_le_sum load i
  exact ⟨by omega, by omega⟩

end Step

/-! ## The packets held -/

/-- A packet the switch holds: the port and class it is charged to, the port it
leaves by, and its size. -/
structure BufferedPacket where
  inDev : Port
  outDev : Port
  qIndex : Class
  size : Nat
deriving DecidableEq, Repr

def BufferedPacket.inSlot (b : BufferedPacket) : Slot := (b.inDev, b.qIndex)

def BufferedPacket.outSlot (b : BufferedPacket) : Slot := (b.outDev, b.qIndex)

/-- The bytes held for each slot by which packets came in. -/
def ingressLoad (held : List BufferedPacket) (i : Slot) : Nat := weightOf (·.size) (·.inSlot) i held

/-- The bytes held for each slot by which packets leave. -/
def egressLoad (held : List BufferedPacket) (i : Slot) : Nat := weightOf (·.size) (·.outSlot) i held

/-- All byte counters agree with the packets held. -/
structure Accounted (reserve : Nat) (m : SwitchMmu) (held : List BufferedPacket) : Prop where
  charged : Charged reserve m (ingressLoad held)
  egress : ∀ i, m.egressBytes i = egressLoad held i

/-! ## Runs -/

/-- The MMU beside the packets it holds. -/
structure Ledger where
  mmu : SwitchMmu
  held : List BufferedPacket

namespace Ledger

/-- A packet is admitted, or the packet number `k` of those held is removed. The
configuration is that of the moment, so that the threshold may move in any way. -/
inductive Event where
  | admission (c : MmuConfig) (b : BufferedPacket)
  | remove (c : MmuConfig) (k : Nat)

def start : Ledger := { mmu := .create, held := [] }

def admission (c : MmuConfig) (b : BufferedPacket) (s : Ledger) : Ledger :=
  { mmu := (s.mmu.updateIngressAdmission c b.inSlot b.size).updateEgressAdmission b.outSlot b.size
    held := s.held ++ [b] }

def remove (c : MmuConfig) (k : Nat) (s : Ledger) : Option Ledger := do
  let b ← s.held[k]?
  some
    { mmu := (s.mmu.removeFromIngressAdmission c b.inSlot b.size).removeFromEgressAdmission
        b.outSlot b.size
      held := s.held.eraseIdx k }

def step (reserve : UInt32) (s : Ledger) : Event → Option Ledger
  | .admission c b => if c.reserve = reserve then some (s.admission c b) else none
  | .remove c k => if c.reserve = reserve then s.remove c k else none

/-- The bytes held, and the packet that comes in, stay below `2 ^ 32`. -/
def TotalFits (s : Ledger) : Event → Prop
  | .admission _ b => total (·.size) s.held + b.size < 2 ^ 32
  | .remove _ _ => True

instance (s : Ledger) : ∀ e, Decidable (TotalFits s e)
  | .admission _ b => inferInstanceAs (Decidable (total (·.size) s.held + b.size < 2 ^ 32))
  | .remove _ _ => .isTrue trivial

/-- No subtraction of a removal wraps. -/
structure NoWrap (c : MmuConfig) (m : SwitchMmu) (b : BufferedPacket) : Prop where
  psize : m.fromHdrm b.inSlot b.size ≤ b.size
  hdrm : m.fromHdrm b.inSlot b.size ≤ m.hdrmBytes b.inSlot
  ingress : sub32 b.size (m.fromHdrm b.inSlot b.size) ≤ m.ingressBytes b.inSlot
  shared : m.fromShared c b.inSlot b.size ≤ m.sharedUsedBytes
  egress : b.size ≤ m.egressBytes b.outSlot

def RemovesWithoutWrap (s : Ledger) : Event → Prop
  | .admission _ _ => True
  | .remove c k => ∀ b, s.held[k]? = some b → NoWrap c s.mmu b

theorem remove_eq {c : MmuConfig} {k : Nat} {s t : Ledger} (h : s.remove c k = some t) :
    ∃ b, s.held[k]? = some b ∧ t =
      { mmu := (s.mmu.removeFromIngressAdmission c b.inSlot b.size).removeFromEgressAdmission
          b.outSlot b.size
        held := s.held.eraseIdx k } := by
  simp only [remove, Option.bind_eq_bind, Option.bind_eq_some_iff] at h
  obtain ⟨b, hb, ht⟩ := h
  cases ht
  exact ⟨b, hb, rfl⟩

theorem charged_admission {c : MmuConfig} {s : Ledger} {b : BufferedPacket}
    (h : Charged c.reserve.toNat s.mmu (ingressLoad s.held)) (hfit : s.mmu.Fits b.inSlot b.size)
    (hshared : s.mmu.ingressBytes b.inSlot + b.size - c.reserve.toNat ≤
        s.mmu.getPfcThreshold c b.inSlot.1 →
      s.mmu.sharedUsedBytes +
        min b.size (s.mmu.ingressBytes b.inSlot + b.size - c.reserve.toNat) < 2 ^ 32) :
    Charged c.reserve.toNat (s.admission c b).mmu (ingressLoad (s.admission c b).held) :=
  have hcharged := charged_update h hfit hshared (weightOf_snoc_self (·.size) (·.inSlot) b s.held)
    fun _ hj => weightOf_snoc_other (·.size) (·.inSlot) s.held hj
  ⟨hcharged.ingress, hcharged.shared⟩

theorem charged_removed {c : MmuConfig} {s t : Ledger} {k : Nat}
    (h : Charged c.reserve.toNat s.mmu (ingressLoad s.held)) (hstep : s.remove c k = some t) :
    Charged c.reserve.toNat t.mmu (ingressLoad t.held) := by
  obtain ⟨b, hb, rfl⟩ := remove_eq hstep
  have hcharged := charged_remove h (weightOf_eraseIdx_self (·.size) (·.inSlot) hb)
    fun _ hj => weightOf_eraseIdx_other (·.size) (·.inSlot) hb hj
  exact ⟨hcharged.ingress, hcharged.shared⟩

theorem sum_ingressLoad (held : List BufferedPacket) :
    ∑ i, ingressLoad held i = total (·.size) held :=
  sum_weightOf _ _ _

theorem accounted_admission {c : MmuConfig} {s : Ledger} {b : BufferedPacket}
    (h : Accounted c.reserve.toNat s.mmu s.held) (hfit : total (·.size) s.held + b.size < 2 ^ 32) :
    Accounted c.reserve.toNat (s.admission c b).mmu (s.admission c b).held := by
  have hsum := sum_ingressLoad s.held
  have hshared := h.charged.shared_le
  refine ⟨charged_admission h.charged (h.charged.fits (by omega) _) fun _ => by omega, fun i => ?_⟩
  have hi := h.egress i
  simp only [admission, SwitchMmu.updateEgressAdmission_egress,
    SwitchMmu.updateIngressAdmission_egress]
  rcases eq_or_ne i b.outSlot with rfl | hib
  · have hle := weightOf_le_total (·.size) (·.outSlot) b.outSlot s.held
    rw [Function.update_self, egressLoad, weightOf_snoc_self, ← egressLoad, hi]
    unfold egressLoad
    exact u32_of_lt (by omega)
  · rw [Function.update_of_ne hib, egressLoad, weightOf_snoc_other _ _ _ hib, ← egressLoad, hi]

theorem accounted_remove {c : MmuConfig} {s t : Ledger} {k : Nat}
    (h : Accounted c.reserve.toNat s.mmu s.held) (hstep : s.remove c k = some t) :
    Accounted c.reserve.toNat t.mmu t.held := by
  refine ⟨charged_removed h.charged hstep, fun i => ?_⟩
  obtain ⟨b, hb, rfl⟩ := remove_eq hstep
  have hi := h.egress i
  simp only [SwitchMmu.removeFromEgressAdmission_egress,
    SwitchMmu.removeFromIngressAdmission_egress]
  rcases eq_or_ne i b.outSlot with rfl | hib
  · have herase := weightOf_eraseIdx_self (·.size) (·.outSlot) hb
    rw [Function.update_self, hi]
    unfold egressLoad
    rw [sub32_of_le (by omega)]
    omega
  · rw [Function.update_of_ne hib, hi]
    exact (weightOf_eraseIdx_other (·.size) (·.outSlot) hb hib).symm

theorem noWrap_of_accounted {c : MmuConfig} {m : SwitchMmu} {held : List BufferedPacket}
    {b : BufferedPacket} (h : Accounted c.reserve.toNat m held) (hb : b ∈ held) :
    NoWrap c m b := by
  have hholds := h.charged.holds (le_weightOf (·.size) (·.inSlot) hb)
  have hslot := hholds.slot
  have hshared := hholds.shared
  refine ⟨SwitchMmu.fromHdrm_le_psize, SwitchMmu.fromHdrm_le_hdrm, ?_, ?_, ?_⟩
  · rw [sub32_of_le SwitchMmu.fromHdrm_le_psize, SwitchMmu.fromHdrm]
    omega
  · rw [SwitchMmu.fromShared_eq]
    omega
  · rw [h.egress]
    exact le_weightOf (·.size) (·.outSlot) hb

theorem accounted_step (reserve : UInt32) (s : Ledger) (e : Event) (t : Ledger)
    (h : Accounted reserve.toNat s.mmu s.held) (hfit : TotalFits s e)
    (hstep : step reserve s e = some t) : Accounted reserve.toNat t.mmu t.held := by
  cases e with
  | admission c b =>
    simp only [step] at hstep
    split at hstep
    · next hr =>
      cases hstep
      subst hr
      exact accounted_admission h hfit
    · cases hstep
  | remove c k =>
    simp only [step] at hstep
    split at hstep
    · next hr =>
      subst hr
      exact accounted_remove h hstep
    · cases hstep

/-- In every run below `2 ^ 32` bytes the counters agree with the packets held,
and no subtraction of a removal wraps. -/
theorem accounted_always (reserve : UInt32) (es : List Event)
    (hfit : Guarded (step reserve) TotalFits start es) :
    Always (step reserve) (fun s => Accounted reserve.toNat s.mmu s.held) start es ∧
      Guarded (step reserve) RemovesWithoutWrap start es := by
  have hall : Always (step reserve) (fun s => Accounted reserve.toNat s.mmu s.held) start es :=
    always_of_guarded (accounted_step reserve)
      ⟨charged_create reserve.toNat, fun _ => rfl⟩ hfit
  have hwrap : ∀ s e t, Accounted reserve.toNat s.mmu s.held →
      Accounted reserve.toNat t.mmu t.held → step reserve s e = some t →
      RemovesWithoutWrap s e := by
    intro s e t hs _ hstep
    cases e with
    | admission c b => trivial
    | remove c k =>
      intro b hb
      simp only [step] at hstep
      split at hstep
      · next hr =>
        subst hr
        exact noWrap_of_accounted hs (List.mem_of_getElem? hb)
      · cases hstep
  exact ⟨hall, guarded_of_always hwrap hall⟩

/-- Two packets of one slot, removed in the other order under another threshold. -/
theorem accounted_always_two :
    let c := MmuConfig.create
    let b : BufferedPacket := { inDev := 1, outDev := 2, qIndex := 3, size := 9000 }
    let es : List Event := [.admission c b, .admission (c.configBufferSize 4000) b,
      .remove (c.configBufferSize 8000) 1, .remove c 0]
    Always (step 4096) (fun s => Accounted 4096 s.mmu s.held) start es ∧
      Guarded (step 4096) RemovesWithoutWrap start es :=
  accounted_always 4096 _ (by decide)

end Ledger

end Paraleon.Switch
