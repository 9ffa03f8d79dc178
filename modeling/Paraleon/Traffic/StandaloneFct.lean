import Mathlib.Algebra.Order.Floor.Div
import Paraleon.Wire.CustomHeader

/-!
# The ideal completion time

`qp_finish` writes for each flow the time that it takes alone: the base RTT, and the time in
which the bottleneck sends its bytes and the headers of its packets. The number of bytes is a
32-bit number, and its product with the nanoseconds of a second a 64-bit one.

* `standaloneFct_exact_iff`: the time is exact as long as that product has 64 bits, which is
  up to 2305843009 bytes, and so has the time.
-/

namespace Paraleon.Traffic

open Wire

/-! ## `qp_finish` -/

/-- `CustomHeader::GetStaticWholeHeaderSize`. -/
def getStaticWholeHeaderSize (c : IntConfig) : Nat := 14 + 20 + CustomHeader.getUdpHeaderSize c

/-- The bytes of the headers of a packet, without the INT. -/
def headerBytes (c : IntConfig) : UInt32 :=
  .ofNat (getStaticWholeHeaderSize c) - .ofNat (IntHeader.getStaticSize c)

/-- `total_bytes`, computed with 64 bits and stored with 32. -/
def totalBytes (c : IntConfig) (packetPayloadSize : UInt32) (mSize : UInt64) : UInt32 :=
  (mSize + ((mSize - 1) / packetPayloadSize.toUInt64 + 1) * (headerBytes c).toUInt64).toUInt32

/-- `standalone_fct`, in nanoseconds; `b` is in bits per second. -/
def standaloneFct (c : IntConfig) (packetPayloadSize : UInt32) (mSize b baseRtt : UInt64) :
    UInt64 :=
  baseRtt + (totalBytes c packetPayloadSize mSize).toUInt64 * 8000000000 / b

/-! ## Over the integers -/

/-- The bytes of a flow and of the headers of its packets. -/
def wireBytes (c : IntConfig) (payloadSize mSize : Nat) : Nat :=
  mSize + mSize ⌈/⌉ payloadSize * (getStaticWholeHeaderSize c - IntHeader.getStaticSize c)

def idealFct (c : IntConfig) (payloadSize mSize b baseRtt : Nat) : Nat :=
  baseRtt + wireBytes c payloadSize mSize * (8 * 10 ^ 9) / b

/-! ## Where they agree -/

variable (c : IntConfig) {payload : UInt32} {mSize b baseRtt : UInt64}

/-- Ethernet, IPv4, UDP, and the priority group and sequence number: whatever the INT mode. -/
theorem header_sub_int : getStaticWholeHeaderSize c - IntHeader.getStaticSize c = 48 := by
  rw [getStaticWholeHeaderSize, CustomHeader.getUdpHeaderSize]
  omega

theorem headerBytes_eq : headerBytes c = 48 := by
  unfold headerBytes getStaticWholeHeaderSize CustomHeader.getUdpHeaderSize IntHeader.getStaticSize
  cases c.mode <;> rfl

/-- The number of packets, rounded up. -/
theorem packets_eq {m p : Nat} (hm : 1 ≤ m) : (m - 1) / p + 1 = m ⌈/⌉ p ∨ p = 0 := by
  rcases Nat.eq_zero_or_pos p with rfl | hp
  · exact .inr rfl
  · refine .inl ?_
    rw [Nat.ceilDiv_eq_add_pred_div, ← Nat.add_div_right (m - 1) hp]
    congr 1
    omega

theorem wireBytes_eq (hpos : 1 ≤ mSize.toNat) (hpayload : 0 < payload.toNat) :
    wireBytes c payload.toNat mSize.toNat =
      mSize.toNat + ((mSize.toNat - 1) / payload.toNat + 1) * 48 := by
  rcases packets_eq (p := payload.toNat) hpos with hpackets | hzero
  · rw [wireBytes, header_sub_int, hpackets]
  · exact absurd hzero hpayload.ne'

/-- A flow of less than 4 GiB has less than `2 ^ 38` bytes with its headers. -/
theorem wireBytes_lt (hpos : 1 ≤ mSize.toNat) (hsize : mSize.toNat < 2 ^ 32)
    (hpayload : 0 < payload.toNat) : wireBytes c payload.toNat mSize.toNat < 2 ^ 38 := by
  have hpackets : (mSize.toNat - 1) / payload.toNat ≤ mSize.toNat - 1 := Nat.div_le_self ..
  rw [wireBytes_eq c hpos hpayload]
  omega

/-- Only the low 32 bits are stored. -/
theorem toNat_totalBytes (hpos : 1 ≤ mSize.toNat) (hsize : mSize.toNat < 2 ^ 32)
    (hpayload : 0 < payload.toNat) :
    (totalBytes c payload mSize).toNat = wireBytes c payload.toNat mSize.toNat % 2 ^ 32 := by
  have hpred : (mSize - 1).toNat = mSize.toNat - 1 :=
    UInt64.toNat_sub_of_le _ _ (UInt64.le_iff_toNat_le.mpr hpos)
  have hlt := wireBytes_lt c hpos hsize hpayload
  rw [wireBytes_eq c hpos hpayload] at hlt ⊢
  have hsum : (mSize + ((mSize - 1) / payload.toUInt64 + 1) * (headerBytes c).toUInt64).toNat =
      mSize.toNat + ((mSize.toNat - 1) / payload.toNat + 1) * 48 := by
    rw [headerBytes_eq, UInt64.toNat_add, UInt64.toNat_mul, UInt64.toNat_add, UInt64.toNat_div,
      hpred, UInt32.toNat_toUInt64]
    change (_ + (((_ + 1) % 2 ^ 64) * 48) % 2 ^ 64) % 2 ^ 64 = _
    omega
  rw [totalBytes, UInt64.toNat_toUInt32, hsum]

/-- A quotient by a 64-bit number tells two numbers apart that are `2 ^ 64` apart. -/
theorem div_lt_of_add_le {x y b : Nat} (hb : 0 < b) (hlt : b < 2 ^ 64) (h : x + 2 ^ 64 ≤ y) :
    x / b < y / b := by
  calc
    x / b < x / b + 1 := Nat.lt_succ_self _
    _ = (x + b) / b := (Nat.add_div_right x hb).symm
    _ ≤ y / b := Nat.div_le_div_right (by omega)

/-- The product after it was reduced twice. -/
def wrappedProduct (bytes : Nat) : Nat := bytes % 2 ^ 32 * 8000000000 % 2 ^ 64

theorem toNat_standaloneFct (hpos : 1 ≤ mSize.toNat) (hsize : mSize.toNat < 2 ^ 32)
    (hpayload : 0 < payload.toNat) :
    (standaloneFct c payload mSize b baseRtt).toNat =
      (baseRtt.toNat + wrappedProduct (wireBytes c payload.toNat mSize.toNat) / b.toNat) %
        2 ^ 64 := by
  rw [standaloneFct, UInt64.toNat_add, UInt64.toNat_div, UInt64.toNat_mul, UInt32.toNat_toUInt64,
    toNat_totalBytes c hpos hsize hpayload]
  rfl

/-- Either nothing is lost, or at least `2 ^ 64`. -/
theorem wrappedProduct_cases (bytes : Nat) :
    bytes ≤ 2305843009 ∧ wrappedProduct bytes = bytes * 8000000000 ∨
      2305843009 < bytes ∧ wrappedProduct bytes + 2 ^ 64 ≤ bytes * 8000000000 := by
  unfold wrappedProduct
  rcases Nat.lt_or_ge 2305843009 bytes with hlarge | hsmall
  · refine .inr ⟨hlarge, ?_⟩
    -- what the 32 bits lose is worth more than `2 ^ 64` too
    have hstored : bytes % 2 ^ 32 = bytes ∨ bytes % 2 ^ 32 + 2 ^ 32 ≤ bytes := by omega
    rcases hstored with hstored | hstored
    · rw [hstored]
      have hover : 2 ^ 64 ≤ bytes * 8000000000 := by omega
      have hmod := Nat.mod_add_div (bytes * 8000000000) (2 ^ 64)
      have hquot : 1 ≤ bytes * 8000000000 / 2 ^ 64 := (Nat.one_le_div_iff (by decide)).mpr hover
      omega
    · have hle : bytes % 2 ^ 32 * 8000000000 % 2 ^ 64 ≤ bytes % 2 ^ 32 * 8000000000 :=
        Nat.mod_le _ _
      omega
  · refine .inl ⟨hsmall, ?_⟩
    have hstored : bytes % 2 ^ 32 = bytes := Nat.mod_eq_of_lt (by omega)
    rw [hstored]
    exact Nat.mod_eq_of_lt (by omega)

/-- The time is exact if and only if the product and the time have 64 bits. -/
theorem standaloneFct_exact_iff (hpos : 1 ≤ mSize.toNat) (hsize : mSize.toNat < 2 ^ 32)
    (hpayload : 0 < payload.toNat) (hb : 0 < b.toNat) :
    (standaloneFct c payload mSize b baseRtt).toNat =
        idealFct c payload.toNat mSize.toNat b.toNat baseRtt.toNat ↔
      wireBytes c payload.toNat mSize.toNat ≤ 2305843009 ∧
        idealFct c payload.toNat mSize.toNat b.toNat baseRtt.toNat < 2 ^ 64 := by
  obtain ⟨bytes, hbytes⟩ : ∃ bytes, bytes = wireBytes c payload.toNat mSize.toNat := ⟨_, rfl⟩
  rw [toNat_standaloneFct c hpos hsize hpayload, idealFct, ← hbytes,
    show 8 * 10 ^ 9 = 8000000000 from rfl]
  rcases wrappedProduct_cases bytes with ⟨hsmall, hproduct⟩ | ⟨hlarge, hproduct⟩
  · rw [hproduct, and_iff_right hsmall]
    constructor
    · intro h
      rw [← h]
      exact Nat.mod_lt _ (Nat.two_pow_pos 64)
    · exact Nat.mod_eq_of_lt
  · have hlt := div_lt_of_add_le hb (UInt64.toNat_lt b) hproduct
    have hmod := Nat.mod_le (baseRtt.toNat + wrappedProduct bytes / b.toNat) (2 ^ 64)
    constructor
    · intro h
      omega
    · rintro ⟨hle, -⟩
      exact absurd hle hlarge.not_ge

/-- A flow of a megabyte over a link of 100 Gbit/s. -/
theorem standaloneFct_megabyte :
    (standaloneFct ⟨.none, 2⟩ 1000 1000000 100000000000 4000).toNat =
      idealFct ⟨.none, 2⟩ (1000 : UInt32).toNat (1000000 : UInt64).toNat
        (100000000000 : UInt64).toNat (4000 : UInt64).toNat :=
  (standaloneFct_exact_iff ⟨.none, 2⟩ (by decide) (by decide) (by decide) (by decide)).mpr
    ⟨by rw [wireBytes, header_sub_int]; decide, by
      rw [idealFct, wireBytes, header_sub_int]
      decide⟩

/-- A flow of 3 GB is said to take 67 ms alone and not 252 ms. -/
theorem standaloneFct_wraps :
    (standaloneFct ⟨.none, 2⟩ 1000 3000000000 100000000000 0).toNat = 67052559 ∧
      idealFct ⟨.none, 2⟩ 1000 3000000000 100000000000 0 = 251520000 := by
  refine ⟨by decide, ?_⟩
  rw [idealFct, wireBytes, header_sub_int]
  decide

end Paraleon.Traffic
