import Paraleon.Switch.Config
import Paraleon.Switch.MmuAccounting

/-!
# The pools of the buffer manager

Runs in which a packet is admitted only after `CheckIngressAdmission`, under one
configuration.

* `pools_bounded`: the headroom of every slot and the shared pool stay within
  their bounds, and the threshold does not wrap, as long as the sums of each
  admission stay in 32 bits.
* `wrapRun`: a packet of almost `2 ^ 32` bytes passes the check because a sum
  wraps.
* `buffer_not_overcommitted`: what the switch holds stays within `buffer_size`
  as long as the reserves and headrooms in use are covered by what `ConfigNPort`
  sets aside, which is one reserve and one headroom for each port.
* `twoClassRun`: two classes of one port, each with a headroom of its own.
-/

namespace Paraleon.Switch.Pools

open Words Weights Runs

/-! ## The system -/

inductive Event where
  | admission (b : BufferedPacket)
  | remove (k : Nat)

/-- As `SendToDev` does it; a packet that is refused ends the program. -/
def step (c : MmuConfig) (s : Ledger) : Event → Option Ledger
  | .admission b =>
    if s.mmu.checkIngressAdmission c b.inSlot b.size &&
        SwitchMmu.checkEgressAdmission s.mmu b.outSlot b.size then
      some (s.admission c b)
    else none
  | .remove k => s.remove c k

/-- The sums that an admission computes stay in 32 bits. -/
def AdmitFits (s : Ledger) : Event → Prop
  | .admission b => s.mmu.Fits b.inSlot b.size
  | .remove _ => True

instance (s : Ledger) : ∀ e, Decidable (AdmitFits s e)
  | .admission b => inferInstanceAs (Decidable (s.mmu.Fits b.inSlot b.size))
  | .remove _ => .isTrue trivial

/-- The part of the buffer that `ConfigNPort` does not set aside. -/
def sharedPool (c : MmuConfig) : Nat :=
  c.bufferSize.toNat - c.totalHdrm.toNat - c.totalRsrv.toNat

/-- The pools are within their bounds, and the threshold is the shift of an
ordinary difference. -/
structure Bounded (c : MmuConfig) (m : SwitchMmu) : Prop where
  hdrm : ∀ i, m.hdrmBytes i ≤ (c.headroom i.1).toNat
  shared : m.sharedUsedBytes ≤ sharedPool c
  threshold : ∀ p, m.getPfcThreshold c p =
    (sharedPool c - m.sharedUsedBytes) >>> (c.pfcAShift p).toNat

/-! ## The bounds -/

section Bounds

variable {c : MmuConfig} {m : SwitchMmu} {s t : Ledger} {b : BufferedPacket} {k : Nat}

theorem sharedPool_lt (c : MmuConfig) : sharedPool c < 2 ^ 32 := by
  have := c.bufferSize.toNat_lt
  unfold sharedPool
  omega

theorem threshold_eq (hpool : c.totalHdrm.toNat + c.totalRsrv.toNat ≤ c.bufferSize.toNat)
    (hm : m.sharedUsedBytes ≤ sharedPool c) (p : Port) :
    m.getPfcThreshold c p = (sharedPool c - m.sharedUsedBytes) >>> (c.pfcAShift p).toNat := by
  have hhdrm : c.totalHdrm.toNat ≤ c.bufferSize.toNat := by omega
  have hrsrv : c.totalRsrv.toNat ≤ c.bufferSize.toNat - c.totalHdrm.toNat := by omega
  rw [SwitchMmu.getPfcThreshold, sub32_of_le hhdrm, sub32_of_le hrsrv]
  change sub32 (sharedPool c) _ >>> _ = _
  rw [sub32_of_le hm]

theorem bounded_create (hpool : c.totalHdrm.toNat + c.totalRsrv.toNat ≤ c.bufferSize.toNat) :
    Bounded c SwitchMmu.create where
  hdrm := fun _ => Nat.zero_le _
  shared := Nat.zero_le _
  threshold := threshold_eq hpool (Nat.zero_le _)

theorem Bounded.threshold_le (h : Bounded c m) (p : Port) :
    m.getPfcThreshold c p ≤ sharedPool c - m.sharedUsedBytes := by
  rw [h.threshold, Nat.shiftRight_eq_div_pow]
  exact Nat.div_le_self _ _

/-- The check leaves room in the headroom, or under the threshold. -/
theorem check_cases {i : Slot} {psize : Nat} (hfit : m.Fits i psize)
    (h : m.checkIngressAdmission c i psize = true) :
    m.hdrmBytes i + psize ≤ (c.headroom i.1).toNat ∨
      (m.ingressBytes i - c.reserve.toNat) + psize ≤ m.getPfcThreshold c i.1 := by
  have hin := hfit.ingress
  have hh := hfit.hdrm
  rw [SwitchMmu.checkIngressAdmission, SwitchMmu.getSharedUsed_eq, u32_of_lt (by omega),
    u32_of_lt (by omega)] at h
  simp only [Bool.not_and, Bool.or_eq_true, Bool.not_eq_true', decide_eq_false_iff_not] at h
  omega

theorem admit_eq (h : step c s (.admission b) = some t) :
    s.mmu.checkIngressAdmission c b.inSlot b.size = true ∧ t = s.admission c b := by
  simp only [step] at h
  split at h
  · next hcheck =>
    cases h
    exact ⟨(Bool.and_eq_true_iff.mp hcheck).1, rfl⟩
  · cases h

/-- What goes to the shared pool fits in it. -/
theorem Bounded.admit_shared (h : Bounded c m) {i : Slot} {psize : Nat}
    (hthresh : m.ingressBytes i + psize - c.reserve.toNat ≤ m.getPfcThreshold c i.1) :
    m.sharedUsedBytes + min psize (m.ingressBytes i + psize - c.reserve.toNat) ≤ sharedPool c := by
  have := h.shared
  have := h.threshold_le i.1
  omega

/-- The invariant of a run: the ingress counters agree with the packets held, and
the pools are within their bounds. -/
structure Sound (c : MmuConfig) (s : Ledger) : Prop where
  charged : Charged c.reserve.toNat s.mmu (ingressLoad s.held)
  bounded : Bounded c s.mmu

theorem sound_admission (hpool : c.totalHdrm.toNat + c.totalRsrv.toNat ≤ c.bufferSize.toNat)
    (h : Sound c s) (hfit : s.mmu.Fits b.inSlot b.size)
    (hcheck : s.mmu.checkIngressAdmission c b.inSlot b.size = true) :
    Sound c (s.admission c b) := by
  have hlt := sharedPool_lt c
  have hcharged := Ledger.charged_admission h.charged hfit fun hthresh =>
    Nat.lt_of_le_of_lt (h.bounded.admit_shared hthresh) hlt
  -- only what is below the threshold is taken from the pool
  have hshared : (s.admission c b).mmu.sharedUsedBytes ≤ sharedPool c := by
    show (s.mmu.updateIngressAdmission c b.inSlot b.size).sharedUsedBytes ≤ _
    rcases SwitchMmu.updateIngressAdmission_cases c hfit with ⟨-, heq⟩ | ⟨-, -, heq⟩ |
      ⟨-, hthresh, heq⟩
    · rw [heq]
      exact h.bounded.shared
    · rw [heq]
      exact h.bounded.shared
    · rw [heq]
      exact Nat.le_trans (u32_le _) (h.bounded.admit_shared hthresh)
  refine ⟨hcharged, fun i => ?_, hshared, threshold_eq hpool hshared⟩
  show (s.mmu.updateIngressAdmission c b.inSlot b.size).hdrmBytes i ≤ _
  rcases eq_or_ne i b.inSlot with rfl | hi
  · rcases SwitchMmu.updateIngressAdmission_cases c hfit with ⟨-, heq⟩ | ⟨-, hthresh, heq⟩ |
      ⟨-, -, heq⟩
    · rw [heq]
      exact h.bounded.hdrm _
    · -- over the threshold: the check must have found room in the headroom
      have hroom := check_cases hfit hcheck
      simp only [heq, Function.update_self]
      omega
    · rw [heq]
      exact h.bounded.hdrm _
  · rw [(SwitchMmu.updateIngressAdmission_other c s.mmu b.inSlot b.size hi).2]
    exact h.bounded.hdrm i

theorem sound_remove (hpool : c.totalHdrm.toNat + c.totalRsrv.toNat ≤ c.bufferSize.toNat)
    (h : Sound c s) (hstep : s.remove c k = some t) : Sound c t := by
  have hcharged := Ledger.charged_removed h.charged hstep
  obtain ⟨b, hb, rfl⟩ := Ledger.remove_eq hstep
  have hholds := h.charged.holds (le_weightOf (·.size) (·.inSlot) (List.mem_of_getElem? hb))
  have hle : (s.mmu.removeFromIngressAdmission c b.inSlot b.size).sharedUsedBytes ≤
      s.mmu.sharedUsedBytes := by
    rw [SwitchMmu.removeFromIngressAdmission_eq hholds]
    exact Nat.sub_le _ _
  have hshared := Nat.le_trans hle h.bounded.shared
  refine ⟨hcharged, fun i => ?_, hshared, threshold_eq hpool hshared⟩
  show (s.mmu.removeFromIngressAdmission c b.inSlot b.size).hdrmBytes i ≤ _
  rcases eq_or_ne i b.inSlot with rfl | hi
  · rw [SwitchMmu.removeFromIngressAdmission_eq hholds]
    simp only [Function.update_self]
    exact Nat.le_trans (Nat.sub_le _ _) (h.bounded.hdrm _)
  · rw [(SwitchMmu.removeFromIngressAdmission_other c s.mmu b.inSlot b.size hi).2]
    exact h.bounded.hdrm i

theorem sound_step (hpool : c.totalHdrm.toNat + c.totalRsrv.toNat ≤ c.bufferSize.toNat)
    (s : Ledger) (e : Event) (t : Ledger) (h : Sound c s) (hfit : AdmitFits s e)
    (hstep : step c s e = some t) : Sound c t := by
  cases e with
  | admission b =>
    obtain ⟨hcheck, rfl⟩ := admit_eq hstep
    exact sound_admission hpool h hfit hcheck
  | remove k => exact sound_remove hpool h hstep

theorem sound_start (hpool : c.totalHdrm.toNat + c.totalRsrv.toNat ≤ c.bufferSize.toNat) :
    Sound c Ledger.start :=
  ⟨charged_create _, bounded_create hpool⟩

end Bounds

/-- The pools stay within their bounds in every run whose admissions compute
their sums in 32 bits. -/
theorem pools_bounded (c : MmuConfig)
    (hpool : c.totalHdrm.toNat + c.totalRsrv.toNat ≤ c.bufferSize.toNat) (es : List Event)
    (hfit : Guarded (step c) AdmitFits Ledger.start es) :
    Always (step c) (fun s => Bounded c s.mmu) Ledger.start es :=
  (always_of_guarded (sound_step hpool) (sound_start hpool) hfit).mono fun _ h => h.bounded

/-- One port with a headroom of 1,040,000 bytes; the shared pool has 4,480. -/
def wrapConfig : MmuConfig :=
  ((MmuConfig.create.configHdrm 1 1040000).configNPort 1).configBufferSize (1024 * 1024)

/-- A packet in the headroom and one in the reserve. -/
theorem pools_bounded_two :
    Always (step wrapConfig) (fun s => Bounded wrapConfig s.mmu) Ledger.start
      [.admission { inDev := 1, outDev := 2, qIndex := 3, size := 9000 },
        .admission { inDev := 1, outDev := 2, qIndex := 3, size := 1000 }, .remove 1, .remove 0] :=
  pools_bounded wrapConfig (by decide) _ (by decide)

/-! ## A sum that wraps -/

/-- A packet in the headroom, and one that makes the headroom counter wrap; then
both are removed. -/
def wrapRun : List Event :=
  [.admission { inDev := 1, outDev := 2, qIndex := 3, size := 9000 },
    .admission { inDev := 1, outDev := 2, qIndex := 3, size := 2 ^ 32 - 1000 },
    .remove 0, .remove 0]

/-- The switch is empty, more of the shared pool is in use than there is, and the
threshold wraps. -/
theorem wrapRun_overflows :
    wrapConfig.totalHdrm.toNat + wrapConfig.totalRsrv.toNat ≤ wrapConfig.bufferSize.toNat ∧
      ∃ t, run (step wrapConfig) Ledger.start wrapRun = some t ∧ t.held = [] ∧
        sharedPool wrapConfig < t.mmu.sharedUsedBytes ∧
        t.mmu.getPfcThreshold wrapConfig 1 = 2 ^ 32 - 616 := by
  refine ⟨by decide, _, rfl, by decide, by decide, by decide⟩

/-! ## The whole buffer -/

/-- The bytes held in reserves and in headrooms. -/
def setAsideUsed (c : MmuConfig) (m : SwitchMmu) : Nat :=
  ∑ i, (min (m.ingressBytes i) c.reserve.toNat + m.hdrmBytes i)

/-- The bytes of a packet that comes in which go to the reserve or the headroom
of its slot: all of it over the threshold, else what is left of the reserve. -/
def setAsideTaken (c : MmuConfig) (m : SwitchMmu) (i : Slot) (psize : Nat) : Nat :=
  if m.getPfcThreshold c i.1 < m.ingressBytes i + psize - c.reserve.toNat then psize
  else min (m.ingressBytes i + psize) c.reserve.toNat - min (m.ingressBytes i) c.reserve.toNat

/-- An admission computes its sums in 32 bits, and the reserves and headrooms
together take no more than is set aside for them. -/
def AdmitCovered (c : MmuConfig) (s : Ledger) : Event → Prop
  | .admission b => s.mmu.Fits b.inSlot b.size ∧
      setAsideUsed c s.mmu + setAsideTaken c s.mmu b.inSlot b.size ≤
        c.totalHdrm.toNat + c.totalRsrv.toNat
  | .remove _ => True

/-- Every byte held is in the shared pool, in a reserve or in a headroom. -/
theorem sum_held {c : MmuConfig} {s : Ledger}
    (h : Charged c.reserve.toNat s.mmu (ingressLoad s.held)) :
    ∑ i, (s.mmu.ingressBytes i + s.mmu.hdrmBytes i) =
      s.mmu.sharedUsedBytes + setAsideUsed c s.mmu := by
  rw [h.shared, setAsideUsed, ← Finset.sum_add_distrib]
  exact Finset.sum_congr rfl fun i _ => by omega

theorem setAsideUsed_create (c : MmuConfig) : setAsideUsed c SwitchMmu.create = 0 := by
  simp [setAsideUsed, SwitchMmu.create]

section Covered

variable {c : MmuConfig} {s t : Ledger} {b : BufferedPacket} {k : Nat}

theorem setAsideUsed_admission (hfit : s.mmu.Fits b.inSlot b.size) :
    setAsideUsed c (s.admission c b).mmu =
      setAsideUsed c s.mmu + setAsideTaken c s.mmu b.inSlot b.size := by
  have hother (j : Slot) (hj : j ≠ b.inSlot) :
      min ((s.admission c b).mmu.ingressBytes j) c.reserve.toNat +
          (s.admission c b).mmu.hdrmBytes j =
        min (s.mmu.ingressBytes j) c.reserve.toNat + s.mmu.hdrmBytes j := by
    obtain ⟨hin, hh⟩ := SwitchMmu.updateIngressAdmission_other c s.mmu b.inSlot b.size hj
    show min ((s.mmu.updateIngressAdmission c b.inSlot b.size).ingressBytes j) _ +
      (s.mmu.updateIngressAdmission c b.inSlot b.size).hdrmBytes j = _
    rw [hin, hh]
  have hsum := sum_changed hother
  have hself : min ((s.admission c b).mmu.ingressBytes b.inSlot) c.reserve.toNat +
      (s.admission c b).mmu.hdrmBytes b.inSlot =
        min (s.mmu.ingressBytes b.inSlot) c.reserve.toNat + s.mmu.hdrmBytes b.inSlot +
          setAsideTaken c s.mmu b.inSlot b.size := by
    show min ((s.mmu.updateIngressAdmission c b.inSlot b.size).ingressBytes b.inSlot) _ +
      (s.mmu.updateIngressAdmission c b.inSlot b.size).hdrmBytes b.inSlot = _
    unfold setAsideTaken
    rcases SwitchMmu.updateIngressAdmission_cases c hfit with ⟨hle, heq⟩ | ⟨-, hthresh, heq⟩ |
      ⟨-, hthresh, heq⟩
    · rw [heq, if_neg (by omega)]
      simp only [Function.update_self]
      omega
    · rw [heq, if_pos hthresh]
      simp only [Function.update_self]
      omega
    · rw [heq, if_neg (by omega)]
      simp only [Function.update_self]
      omega
  unfold setAsideUsed
  omega

theorem setAsideUsed_remove (h : Charged c.reserve.toNat s.mmu (ingressLoad s.held))
    (hstep : s.remove c k = some t) : setAsideUsed c t.mmu ≤ setAsideUsed c s.mmu := by
  obtain ⟨b, hb, rfl⟩ := Ledger.remove_eq hstep
  have hholds := h.holds (le_weightOf (·.size) (·.inSlot) (List.mem_of_getElem? hb))
  refine Finset.sum_le_sum fun i _ => ?_
  show min ((s.mmu.removeFromIngressAdmission c b.inSlot b.size).ingressBytes i) _ +
    (s.mmu.removeFromIngressAdmission c b.inSlot b.size).hdrmBytes i ≤ _
  rcases eq_or_ne i b.inSlot with rfl | hi
  · rw [SwitchMmu.removeFromIngressAdmission_eq hholds]
    simp only [Function.update_self]
    omega
  · obtain ⟨hin, hh⟩ := SwitchMmu.removeFromIngressAdmission_other c s.mmu b.inSlot b.size hi
    rw [hin, hh]

/-- The invariant of a run whose reserves and headrooms are covered. -/
structure Covered (c : MmuConfig) (s : Ledger) : Prop where
  sound : Sound c s
  setAside : setAsideUsed c s.mmu ≤ c.totalHdrm.toNat + c.totalRsrv.toNat

theorem covered_step (hpool : c.totalHdrm.toNat + c.totalRsrv.toNat ≤ c.bufferSize.toNat)
    (s : Ledger) (e : Event) (t : Ledger) (h : Covered c s) (hcov : AdmitCovered c s e)
    (hstep : step c s e = some t) : Covered c t := by
  cases e with
  | admission b =>
    obtain ⟨hfit, hroom⟩ := hcov
    refine ⟨sound_step hpool s (.admission b) t h.sound hfit hstep, ?_⟩
    obtain ⟨-, rfl⟩ := admit_eq hstep
    rw [setAsideUsed_admission hfit]
    exact hroom
  | remove k =>
    exact ⟨sound_step hpool s (.remove k) t h.sound trivial hstep,
      Nat.le_trans (setAsideUsed_remove h.sound.charged hstep) h.setAside⟩

theorem Covered.within (h : Covered c s)
    (hpool : c.totalHdrm.toNat + c.totalRsrv.toNat ≤ c.bufferSize.toNat) :
    ∑ i, (s.mmu.ingressBytes i + s.mmu.hdrmBytes i) ≤ c.bufferSize.toNat := by
  have hshared := h.sound.bounded.shared
  have hset := h.setAside
  rw [sum_held h.sound.charged]
  unfold sharedPool at hshared
  omega

end Covered

/-- What the switch holds stays within `buffer_size` in every run in which the
reserves and headrooms in use are covered by what is set aside for them. -/
theorem buffer_not_overcommitted (c : MmuConfig)
    (hpool : c.totalHdrm.toNat + c.totalRsrv.toNat ≤ c.bufferSize.toNat) (es : List Event)
    (hcov : Guarded (step c) (AdmitCovered c) Ledger.start es) :
    Always (step c)
      (fun s => ∑ i, (s.mmu.ingressBytes i + s.mmu.hdrmBytes i) ≤ c.bufferSize.toNat)
      Ledger.start es := by
  have hstart : Covered c Ledger.start :=
    ⟨sound_start hpool, Nat.le_trans (Nat.le_of_eq (setAsideUsed_create c)) (Nat.zero_le _)⟩
  exact (always_of_guarded (covered_step hpool) hstart hcov).mono fun _ h => h.within hpool

/-! ## Two classes of one port -/

/-- Two links of 100 Gbit/s, one of 27.7 us and one of 10 ns, and 1 MiB of buffer.
The headroom of port 1 is 1,038,750 bytes, nearly the whole buffer. -/
def twoClassConfig : MmuConfig :=
  configSwitch 100000000000 1 2 fun j =>
    if j = 1 then { rate := 100000000000, delay := 27700 }
    else { rate := 100000000000, delay := 10 }

/-- One packet goes through the headroom. -/
theorem buffer_not_overcommitted_one :
    Always (step twoClassConfig)
      (fun s => ∑ i, (s.mmu.ingressBytes i + s.mmu.hdrmBytes i) ≤ twoClassConfig.bufferSize.toNat)
      Ledger.start
      [.admission { inDev := 1, outDev := 2, qIndex := 3, size := 60000 }, .remove 0] := by
  refine buffer_not_overcommitted twoClassConfig (by decide) _
    fun t _ => ⟨⟨by decide, ?_⟩, fun u _ => ⟨trivial, trivial⟩⟩
  rw [show Ledger.start.mmu = SwitchMmu.create from rfl, setAsideUsed_create]
  decide

/-- Seventeen packets of class 3 fill the headroom of port 1; one of class 4 has
a headroom of the same size for itself. -/
def twoClassRun : List Event :=
  List.replicate 17 (.admission { inDev := 1, outDev := 2, qIndex := 3, size := 60000 }) ++
    [.admission { inDev := 1, outDev := 2, qIndex := 4, size := 60000 }]

/-- The switch holds more bytes than it has. -/
theorem twoClassRun_overcommits :
    twoClassConfig.totalHdrm.toNat + twoClassConfig.totalRsrv.toNat ≤
        twoClassConfig.bufferSize.toNat ∧
      ∃ t, run (step twoClassConfig) Ledger.start twoClassRun = some t ∧
        twoClassConfig.bufferSize.toNat <
          ∑ i, (t.mmu.ingressBytes i + t.mmu.hdrmBytes i) := by
  refine ⟨by decide, _, rfl, Nat.lt_of_lt_of_le ?_
    (pair_le_sum _ (show ((1, 3) : Slot) ≠ (1, 4) by decide))⟩
  decide

end Paraleon.Switch.Pools
