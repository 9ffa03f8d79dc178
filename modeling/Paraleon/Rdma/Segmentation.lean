import Paraleon.Library.Tiling
import Paraleon.Rdma.Hw

/-!
# Cutting a flow into packets

`GetNxtPacket`, called as long as `GetBytesLeft` is not zero. The number of bytes left is
cut to 32 bits first, so a flow of `2 ^ 32` bytes or more comes to a point where that many
bytes are left and the next packet has none of them.
-/

namespace Paraleon.Rdma

open Words Tiling

variable {hw : RdmaHw} {q : RdmaQueuePair}

/-- The packets of at most `fuel` calls; `none` when bytes are left after them. -/
def segments (hw : RdmaHw) : Nat → RdmaQueuePair → Option (List DataPacket)
  | 0, q => if q.getBytesLeft = 0 then some [] else none
  | fuel + 1, q =>
    if q.getBytesLeft = 0 then some []
    else (segments hw fuel (getNxtPacket hw q).2).map ((getNxtPacket hw q).1 :: ·)

/-- The packets are the flow from `snd_nxt` on: each one starts at its sequence number, has
between 1 and `m_mtu` bytes, and only the last has less than `m_mtu`. -/
structure Cuts (hw : RdmaHw) (q : RdmaQueuePair) (ps : List DataPacket) : Prop where
  tiles : Tiles q.sndNxt (ps.map fun p => (p.seq, p.payload)) q.size
  le_mtu : ∀ p ∈ ps, p.payload ≤ hw.mtu
  full : ∀ p ∈ ps.dropLast, p.payload = hw.mtu

/-- The calls come to an end, and have cut the flow. -/
def Segmented (hw : RdmaHw) (q : RdmaQueuePair) : Prop :=
  ∃ fuel ps, segments hw fuel q = some ps ∧ Cuts hw q ps

theorem cuts_nil (hnxt : q.sndNxt ≤ q.size) (hleft : q.getBytesLeft = 0) : Cuts hw q [] := by
  rw [q.getBytesLeft_eq] at hleft
  have hend : q.sndNxt = q.size := by omega
  exact ⟨hend, by simp, by simp⟩

/-- A payload is short only when it takes all bytes left. -/
theorem getNxtPacket_payload_eq (hw : RdmaHw) (hsize : q.size < 2 ^ 32) :
    (getNxtPacket hw q).1.payload = min (q.size - q.sndNxt) hw.mtu := by
  have hlt : q.getBytesLeft < 2 ^ 32 := by
    rw [q.getBytesLeft_eq]
    omega
  show min (u32 q.getBytesLeft) hw.mtu = _
  rw [u32_of_lt hlt, q.getBytesLeft_eq]

theorem cuts_cons (hmtu : 0 < hw.mtu) (hsize : q.size < 2 ^ 32) (hleft : 0 < q.getBytesLeft)
    {ps : List DataPacket} (h : Cuts hw (getNxtPacket hw q).2 ps) :
    Cuts hw q ((getNxtPacket hw q).1 :: ps) := by
  have hpos := getNxtPacket_payload_pos hmtu hsize hleft
  have hpay := getNxtPacket_payload_eq hw hsize
  obtain ⟨hnxt, hle⟩ := getNxtPacket_sndNxt hw (by omega : q.size < 2 ^ 64) hleft
  have hseq : (getNxtPacket hw q).1.seq = q.sndNxt := u32_of_lt (by omega)
  obtain ⟨htiles, hmax, hfull⟩ := h
  refine ⟨⟨hseq, hpos, hnxt ▸ htiles⟩, List.forall_mem_cons.mpr ⟨?_, hmax⟩, ?_⟩
  · rw [hpay]
    exact Nat.min_le_right _ _
  · cases ps with
    | nil => simp
    | cons p ps =>
      refine List.forall_mem_cons.mpr ⟨?_, hfull⟩
      -- bytes are left behind this packet, so it is the MTU that ends it
      have hmore : (getNxtPacket hw q).2.sndNxt < q.size := by
        have hpos' := htiles.2.1
        have hle' := htiles.2.2.le
        rw [getNxtPacket_size] at hle'
        omega
      omega

theorem exists_segments (hmtu : 0 < hw.mtu) (hsize : q.size < 2 ^ 32) (hnxt : q.sndNxt ≤ q.size)
    {fuel : Nat} (hfuel : q.getBytesLeft ≤ fuel) :
    ∃ ps, segments hw fuel q = some ps ∧ Cuts hw q ps := by
  induction fuel generalizing q with
  | zero =>
    have hleft : q.getBytesLeft = 0 := Nat.le_zero.mp hfuel
    exact ⟨[], if_pos hleft, cuts_nil hnxt hleft⟩
  | succ fuel ih =>
    rcases Nat.eq_zero_or_pos q.getBytesLeft with hleft | hleft
    · exact ⟨[], if_pos hleft, cuts_nil hnxt hleft⟩
    · have hpos := getNxtPacket_payload_pos hmtu hsize hleft
      obtain ⟨hnxt', hle⟩ := getNxtPacket_sndNxt hw (by omega : q.size < 2 ^ 64) hleft
      have hfuel' : (getNxtPacket hw q).2.getBytesLeft ≤ fuel := by
        rw [RdmaQueuePair.getBytesLeft_eq] at hfuel ⊢
        rw [getNxtPacket_size, hnxt']
        omega
      obtain ⟨ps, hps, hcuts⟩ := ih (q := (getNxtPacket hw q).2) hsize hle hfuel'
      refine ⟨_ :: ps, ?_, cuts_cons hmtu hsize hleft hcuts⟩
      rw [segments, if_neg (Nat.pos_iff_ne_zero.mp hleft), hps]
      rfl

/-- With `2 ^ 32` bytes left there are always as many after the next packet. -/
theorem segments_eq_none (hsize : q.size < 2 ^ 64) (hleft : 2 ^ 32 ≤ q.getBytesLeft) (fuel : Nat) :
    segments hw fuel q = none := by
  induction fuel generalizing q with
  | zero => exact if_neg (by omega)
  | succ fuel ih =>
    have hnxt := (getNxtPacket_sndNxt hw hsize (by omega)).1
    have hpay : (getNxtPacket hw q).1.payload ≤ q.getBytesLeft % 2 ^ 32 := Nat.min_le_left _ _
    have hleft' : 2 ^ 32 ≤ (getNxtPacket hw q).2.getBytesLeft := by
      rw [RdmaQueuePair.getBytesLeft_eq] at hleft hpay ⊢
      rw [getNxtPacket_size, hnxt]
      omega
    rw [segments, if_neg (by omega), ih (q := (getNxtPacket hw q).2) hsize hleft']
    rfl

/-- The packets of a new queue pair are the flow exactly when its size has 32 bits. -/
theorem segmented_iff (hmtu : 0 < hw.mtu) (size : UInt64) (win : UInt32) (varWin : Bool)
    (bps : UInt64) : Segmented hw (.create size win varWin bps) ↔ size.toNat < 2 ^ 32 := by
  constructor
  · rintro ⟨fuel, ps, hps, -⟩
    by_contra hlarge
    have hleft : 2 ^ 32 ≤ (RdmaQueuePair.create size win varWin bps).getBytesLeft := by
      rw [RdmaQueuePair.getBytesLeft_eq]
      exact Nat.le_of_not_lt hlarge
    have hnone : segments hw fuel (.create size win varWin bps) = none :=
      segments_eq_none size.toNat_lt hleft fuel
    rw [hnone] at hps
    cases hps
  · intro hsize
    exact ⟨_, exists_segments hmtu hsize (Nat.zero_le _) (Nat.le_refl _)⟩

theorem segmented_iff_small : Segmented RdmaHw.shipped (.create 2500 0 false 100000000000) :=
  (segmented_iff (by decide) 2500 0 false 100000000000).mpr (by decide)

/-- Of a flow of 4 GiB, no packet has a byte. -/
theorem fourGiB_never_segmented :
    let q := RdmaQueuePair.create 4294967296 0 false 100000000000
    (getNxtPacket RdmaHw.shipped q).1.payload = 0 ∧ (getNxtPacket RdmaHw.shipped q).2 = q ∧
      ¬ Segmented RdmaHw.shipped q := by
  refine ⟨by decide, by decide, ?_⟩
  rintro ⟨fuel, ps, hps, -⟩
  rw [segments_eq_none (by decide) (by decide) fuel] at hps
  cases hps

end Paraleon.Rdma
