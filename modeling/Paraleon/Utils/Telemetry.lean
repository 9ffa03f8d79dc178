import Paraleon.Utils.Conservation
import Paraleon.Wire.IntHop

/-!
# The queue length in an INT record

`SwitchNotifyDequeue` writes `GetNBytesTotal` into the 17 bits of `qlen`. The queue of a port
may hold 1000 MiB, the field comes to 10 MiB with `multi` 1.

* `faithful_iff`: the queue length is read back up to one unit exactly when it is below
  `2 ^ 17` units, and the units themselves are no multiple of `2 ^ 32`.
* `long_queue_reads_short`: more than ten thousand packets that read as 240 bytes.
-/

namespace Paraleon.Utils.Traffic

open Words Wire Runs

/-- What a sender reads of the queue `b` in a record that is written for it. -/
def Faithful (multi : UInt32) (time bytes rate : UInt64) (old : IntHop) (b : BEgressQueue) :
    Prop :=
  ∃ h, old.set multi time bytes (UInt32.ofNat b.bytesInQueueTotal) rate = some h ∧
    h.getQlen multi ≤ b.bytesInQueueTotal ∧
    b.bytesInQueueTotal < h.getQlen multi + IntHop.qlenUnit * multi.toNat ∧
    h.getLineRate = rate.toNat

/-- No unit is zero, and the queue is below `2 ^ 17` of them. -/
def Representable (multi : UInt32) (b : BEgressQueue) : Prop :=
  ¬2 ^ 25 ∣ multi.toNat ∧ b.bytesInQueueTotal < 2 ^ 17 * (IntHop.qlenUnit * multi.toNat)

instance (multi : UInt32) (b : BEgressQueue) : Decidable (Representable multi b) :=
  inferInstanceAs (Decidable (_ ∧ _))

/-! ## One record -/

section Record

variable {multi : UInt32} {h : IntHop} {length : Nat}

/-- What is read of a field, with the unit as `Set` computes it. -/
theorem getQlen_eq (multi : UInt32) (h : IntHop) :
    h.getQlen multi = h.qlen * u32 (IntHop.qlenUnit * multi.toNat) % 2 ^ 32 := by
  rw [IntHop.getQlen, u32, u32, u32, Nat.mod_mul_mod, Nat.mul_mod_mod, Nat.mul_assoc]

/-- A field that has not been cut. -/
theorem getQlen_le (hlength : length < 2 ^ 32)
    (hqlen : h.qlen ≤ length / u32 (IntHop.qlenUnit * multi.toNat)) :
    h.getQlen multi = h.qlen * u32 (IntHop.qlenUnit * multi.toNat) ∧
      h.getQlen multi ≤ length := by
  have hle : h.qlen * u32 (IntHop.qlenUnit * multi.toNat) ≤ length :=
    Nat.le_trans (Nat.mul_le_mul_right _ hqlen) (Nat.div_mul_le_self _ _)
  have heq := (getQlen_eq multi h).trans (Nat.mod_eq_of_lt (Nat.lt_of_le_of_lt hle hlength))
  exact ⟨heq, heq ▸ hle⟩

/-- The field read back, for any length of 32 bits. -/
theorem close_iff (hlength : length < 2 ^ 32) (hmulti : 0 < multi.toNat)
    (hqlen : h.qlen = length / u32 (IntHop.qlenUnit * multi.toNat) % 2 ^ 17) :
    h.getQlen multi ≤ length ∧ length < h.getQlen multi + IntHop.qlenUnit * multi.toNat ↔
      length < 2 ^ 17 * (IntHop.qlenUnit * multi.toNat) := by
  have hcut : h.qlen ≤ length / u32 (IntHop.qlenUnit * multi.toNat) :=
    hqlen ▸ Nat.mod_le _ _
  obtain ⟨heq, hle⟩ := getQlen_le hlength hcut
  have hpos : 0 < IntHop.qlenUnit * multi.toNat := Nat.mul_pos (by decide) hmulti
  by_cases hsmall : IntHop.qlenUnit * multi.toNat < 2 ^ 32
  · rw [u32_of_lt hsmall] at heq hqlen
    generalize IntHop.qlenUnit * multi.toNat = unit at *
    have hdiv := Nat.div_add_mod length unit
    have hmod := Nat.mod_lt length hpos
    constructor
    · rintro ⟨-, hlt⟩
      -- a field that has been cut is short of the length by `2 ^ 17` units at least
      by_contra hlong
      have hwrapped : 2 ^ 17 ≤ length / unit :=
        (Nat.le_div_iff_mul_le hpos).mpr (Nat.le_of_not_lt hlong)
      have hshort : h.qlen + 1 ≤ length / unit := by
        rw [hqlen]
        exact Nat.succ_le_of_lt (Nat.lt_of_lt_of_le (Nat.mod_lt _ (by decide)) hwrapped)
      have hmul : (h.qlen + 1) * unit ≤ length :=
        Nat.le_trans (Nat.mul_le_mul_right unit hshort) (Nat.div_mul_le_self length unit)
      rw [heq, ← Nat.succ_mul] at hlt
      exact Nat.not_lt_of_le hmul hlt
    · intro hlt
      have hfits : length / unit < 2 ^ 17 := (Nat.div_lt_iff_lt_mul hpos).mpr hlt
      rw [Nat.mod_eq_of_lt hfits] at hqlen
      refine ⟨hle, ?_⟩
      rw [heq, hqlen, Nat.mul_comm]
      omega
  · -- one unit is more than any length
    exact iff_of_true ⟨hle, by omega⟩ (by omega)

theorem rateIndex_getLineRate {rate : UInt64} {i : Nat} (hrate : IntHop.rateIndex rate = some i)
    (hfield : h.lineRate = i % 2 ^ 3) : h.getLineRate = rate.toNat := by
  rw [IntHop.getLineRate, hfield]
  unfold IntHop.rateIndex at hrate
  split_ifs at hrate <;>
    · cases hrate
      subst_vars
      rfl

theorem bytesPerUnit_eq_zero (m : Nat) : u32 (IntHop.byteUnit * m) = 0 ↔ 2 ^ 25 ∣ m := by
  rw [u32, ← Nat.dvd_iff_mod_eq_zero, show 2 ^ 32 = IntHop.byteUnit * 2 ^ 25 from rfl]
  exact Nat.mul_dvd_mul_iff_left (by decide)

theorem dvd_of_qlenPerUnit {m : Nat} (h : u32 (IntHop.qlenUnit * m) = 0) : 2 ^ 25 ∣ m := by
  have hdvd : 2 ^ 4 * 2 ^ 28 ∣ 2 ^ 4 * (5 * m) := by
    rw [← Nat.mul_assoc]
    exact Nat.dvd_of_mod_eq_zero h
  have hfive : 2 ^ 28 ∣ 5 * m := Nat.dvd_of_mul_dvd_mul_left (by decide) hdvd
  have hcoprime : Nat.Coprime (2 ^ 28) 5 := Nat.Coprime.pow_left 28 (by decide)
  exact Nat.dvd_trans (Nat.pow_dvd_pow 2 (by decide)) (hcoprime.dvd_of_dvd_mul_left hfive)

/-- `Set` divides by zero when `multi` is a multiple of `2 ^ 25`. -/
theorem units_iff (multi : UInt32) :
    u32 (IntHop.byteUnit * multi.toNat) = 0 ∨ u32 (IntHop.qlenUnit * multi.toNat) = 0 ↔
      2 ^ 25 ∣ multi.toNat :=
  ⟨fun h => h.elim (bytesPerUnit_eq_zero _).mp dvd_of_qlenPerUnit,
    fun h => .inl ((bytesPerUnit_eq_zero _).mpr h)⟩

end Record

/-! ## Queues of runs -/

variable {s t : Traffic}

theorem total_lt_step {e : Call} (h : s.queue.bytesInQueueTotal < 2 ^ 32)
    (hstep : step s e = some t) : t.queue.bytesInQueueTotal < 2 ^ 32 := by
  cases e with
  | enqueue p qIndex =>
    by_cases hsize : 0 < p.size ∧ p.size < 2 ^ 32
    · rw [step_enqueue s qIndex hsize] at hstep
      split at hstep
      · cases hstep
        exact u32_lt _
      · cases hstep
        exact h
    · simp only [step, if_neg hsize] at hstep
      cases hstep
  | dequeueRR paused =>
    simp only [step] at hstep
    split at hstep
    · cases hstep
    · next hdeq =>
      cases hstep
      rcases BEgressQueue.dequeueRR_cases hdeq with ⟨-, rfl, -⟩ | ⟨_, _, _, ⟨⟩, -⟩
      exact h
    · next hdeq =>
      cases hstep
      rcases BEgressQueue.dequeueRR_cases hdeq with ⟨⟨⟩, -⟩ | ⟨qIndex, p, _, -, rfl, -⟩
      exact sub32_lt h _

theorem total_lt (h : Reachable step start s) : s.queue.bytesInQueueTotal < 2 ^ 32 :=
  h.invariant (I := fun s => s.queue.bytesInQueueTotal < 2 ^ 32) (by decide)
    fun _ _ _ hs hstep => total_lt_step hs hstep

/-- For every queue that calls can lead to, every `multi`, and every rate that `Set` knows. -/
theorem faithful_iff {multi : UInt32} (hmulti : 1 ≤ multi.toNat) {rate : UInt64}
    (hrate : (IntHop.rateIndex rate).isSome = true) (time bytes : UInt64) (old : IntHop)
    (h : Reachable step start s) :
    Faithful multi time bytes rate old s.queue ↔ Representable multi s.queue := by
  have hlength := total_lt h
  have hcast : (UInt32.ofNat s.queue.bytesInQueueTotal).toNat = s.queue.bytesInQueueTotal :=
    UInt32.toNat_ofNat_of_lt' hlength
  obtain ⟨i, hi⟩ := Option.isSome_iff_exists.mp hrate
  unfold Faithful Representable
  by_cases hunits : 2 ^ 25 ∣ multi.toNat
  · rw [IntHop.set, if_pos ((units_iff multi).mpr hunits)]
    refine iff_of_false ?_ fun hrep => hrep.1 hunits
    rintro ⟨hop, hnone, -⟩
    cases hnone
  · obtain ⟨hop, hset⟩ : ∃ hop, old.set multi time bytes
        (UInt32.ofNat s.queue.bytesInQueueTotal) rate = some hop := by
      rw [IntHop.set, if_neg (mt (units_iff multi).mp hunits)]
      exact ⟨_, rfl⟩
    have hfields := IntHop.holds_set hset
    have hqlen := hfields.qlen
    rw [hcast] at hqlen
    rw [hset, ← close_iff hlength hmulti hqlen]
    constructor
    · rintro ⟨_, ⟨⟩, hle, hlt, -⟩
      exact ⟨hunits, hle, hlt⟩
    · rintro ⟨-, hle, hlt⟩
      exact ⟨hop, rfl, hle, hlt, rateIndex_getLineRate hi (hfields.lineRate i hi)⟩

/-- One packet in a queue, at 100 Gbit/s. -/
theorem faithful_iff_onePacket :
    Faithful 1 0 0 100000000000 (IntHop.ofWord 0)
      (BEgressQueue.create.added 3 { size := 1000 }) := by
  have hrun : run step start [.enqueue { size := 1000 } 3] = some { start with
      queue := start.queue.added 3 { size := 1000 }
      arrived := Function.update start.arrived 3 [{ size := 1000 }] } := by
    rw [run, step_enqueue start 3 (by decide), if_pos (by decide)]
    rfl
  exact (faithful_iff (by decide) (by decide) 0 0 (IntHop.ofWord 0) ⟨_, hrun⟩).mpr (by decide)

/-! ## A queue that is too long -/

/-- As many packets of one size as the limit lets in. -/
theorem run_enqueues {p : Switch.Packet} (hsize : 0 < p.size ∧ p.size < 2 ^ 32) (n : Nat)
    (hn : p.size * n < 1000 * 1024 * 1024) :
    ∃ s, run step start (List.replicate n (.enqueue p 3)) = some s ∧
      s.queue.bytesInQueueTotal = p.size * n ∧ s.queue.maxBytes = 1000 * 1024 * 1024 := by
  induction n with
  | zero => exact ⟨start, rfl, rfl, rfl⟩
  | succ n ih =>
    rw [Nat.mul_succ] at hn ⊢
    obtain ⟨s, hrun, htotal, hmax⟩ := ih (by omega)
    have hsum : u32 (s.queue.bytesInQueueTotal + p.size) = p.size * n + p.size := by
      rw [htotal, u32_of_lt (by omega)]
    have hstep := step_enqueue s (p := p) 3 hsize
    rw [if_pos (by rw [hsum, hmax]; exact hn)] at hstep
    rw [List.replicate_succ']
    exact ⟨_, (run_snoc hrun _).trans hstep, hsum, hmax⟩

/-- 10486 packets are 131075 units, of which the field holds three. -/
theorem long_queue_reads_short :
    ∃ s h, Reachable step start s ∧ s.queue.bytesInQueueTotal = 10486000 ∧
      IntHop.set 1 0 0 (UInt32.ofNat s.queue.bytesInQueueTotal) 100000000000 (IntHop.ofWord 0) =
        some h ∧ h.getQlen 1 = 240 ∧
      ¬Faithful 1 0 0 100000000000 (IntHop.ofWord 0) s.queue := by
  obtain ⟨s, hrun, htotal : s.queue.bytesInQueueTotal = 10486000, -⟩ :=
    run_enqueues (p := { size := 1000 }) (by decide) 10486 (by norm_num)
  have hset : IntHop.set 1 0 0 10486000 100000000000 (IntHop.ofWord 0) = some ⟨2, 98304⟩ := by
    decide
  refine ⟨s, ⟨2, 98304⟩, ⟨_, hrun⟩, htotal, htotal ▸ hset, by decide, ?_⟩
  rintro ⟨h, hset', -, hlt, -⟩
  rw [htotal] at hset' hlt
  cases hset.symm.trans hset'
  revert hlt
  decide

end Paraleon.Utils.Traffic
