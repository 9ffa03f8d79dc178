import Mathlib.Data.List.Chain
import Paraleon.Library.BitFields
import Paraleon.Library.Words
import Paraleon.Wire.Headers

/-!
# INT records

The four bit-fields of an `IntHop`, from the least significant bit on, and the differences
between two records of one switch port. A field of 24 or 20 bits is promoted to `int`, the
units are `uint32_t`.

* `get_set`: what `Set` leaves in the fields.
* `deltas_telescope`: over a chain of records, the differences add up to the true ones, as
  long as neither field goes round more than once between two of them.
-/

namespace Paraleon.Wire

open Words BitFields

namespace IntHop

/-- The 64 bits that share their memory with `buf`. -/
def word (h : IntHop) : Nat := h.buf0.toNat + 2 ^ 32 * h.buf1.toNat

def ofWord (n : Nat) : IntHop :=
  { buf0 := UInt32.ofNat (n % 2 ^ 32), buf1 := UInt32.ofNat (n / 2 ^ 32) }

def lineRate (h : IntHop) : Nat := get 0 3 h.word
def time (h : IntHop) : Nat := get 3 24 h.word
def bytes (h : IntHop) : Nat := get 27 20 h.word
def qlen (h : IntHop) : Nat := get 47 17 h.word

def byteUnit : Nat := 128
def qlenUnit : Nat := 80

def lineRateValues : List Nat :=
  [25000000000, 50000000000, 100000000000, 200000000000, 400000000000, 0, 0, 0]

def getLineRate (h : IntHop) : Nat := lineRateValues.getD h.lineRate 0

def getQlen (multi : UInt32) (h : IntHop) : Nat := u32 (u32 (h.qlen * qlenUnit) * multi.toNat)

/-- The `switch` of `Set`; an unknown rate is only printed. -/
def rateIndex (rate : UInt64) : Option Nat :=
  if rate = 25000000000 then some 0
  else if rate = 50000000000 then some 1
  else if rate = 100000000000 then some 2
  else if rate = 200000000000 then some 3
  else if rate = 400000000000 then some 4
  else none

/-- `Set`; `none` is a division by zero. -/
def set (multi : UInt32) (time bytes : UInt64) (qlen : UInt32) (rate : UInt64) (h : IntHop) :
    Option IntHop :=
  let bytesPerUnit := u32 (byteUnit * multi.toNat)
  let qlenPerUnit := u32 (qlenUnit * multi.toNat)
  if bytesPerUnit = 0 ∨ qlenPerUnit = 0 then none
  else
    let word := BitFields.set 3 24 time.toNat h.word
    let word := BitFields.set 27 20 (bytes.toNat / bytesPerUnit) word
    let word := BitFields.set 47 17 (qlen.toNat / qlenPerUnit) word
    some (ofWord ((rateIndex rate).elim word fun i => BitFields.set 0 3 i word))

/-- The number of units between two records. -/
def bytesDiff (h b : IntHop) : Nat :=
  if b.bytes ≤ h.bytes then h.bytes - b.bytes else h.bytes + 2 ^ 20 - b.bytes

def getBytesDelta (multi : UInt32) (h b : IntHop) : Nat :=
  u32 (u32 (h.bytesDiff b * byteUnit) * multi.toNat)

def getTimeDelta (h b : IntHop) : Nat :=
  if b.time ≤ h.time then h.time - b.time else h.time + 2 ^ 24 - b.time

/-! ## Storing -/

variable {h b : IntHop} {n : Nat}

theorem word_lt (h : IntHop) : h.word < 2 ^ 64 := by
  have h₀ := h.buf0.toNat_lt
  have h₁ := h.buf1.toNat_lt
  unfold word
  omega

@[simp] theorem word_ofWord (h : n < 2 ^ 64) : (ofWord n).word = n := by
  have hlow : n % 2 ^ 32 < 2 ^ 32 := Nat.mod_lt n (Nat.two_pow_pos 32)
  have hhigh : n / 2 ^ 32 < 2 ^ 32 := Nat.div_lt_of_lt_mul h
  rw [word, ofWord, UInt32.toNat_ofNat_of_lt' hlow, UInt32.toNat_ofNat_of_lt' hhigh]
  exact Nat.mod_add_div n (2 ^ 32)

/-- What `Set` leaves in the fields. -/
structure Holds (multi : UInt32) (time bytes : UInt64) (qlen : UInt32) (rate : UInt64)
    (h : IntHop) : Prop where
  time : h.time = time.toNat % 2 ^ 24
  bytes : h.bytes = bytes.toNat / u32 (byteUnit * multi.toNat) % 2 ^ 20
  qlen : h.qlen = qlen.toNat / u32 (qlenUnit * multi.toNat) % 2 ^ 17
  lineRate : ∀ i, rateIndex rate = some i → h.lineRate = i % 2 ^ 3

theorem holds_set {multi : UInt32} {time bytes : UInt64} {qlen : UInt32} {rate : UInt64}
    (hset : b.set multi time bytes qlen rate = some h) : Holds multi time bytes qlen rate h := by
  simp only [set] at hset
  split at hset
  · cases hset
  · cases hset
    have hword₁ := set_lt (show 3 + 24 ≤ 64 by decide) b.word_lt time.toNat
    have hword₂ := set_lt (show 27 + 20 ≤ 64 by decide) hword₁
      (bytes.toNat / u32 (byteUnit * multi.toNat))
    have hword₃ := set_lt (show 47 + 17 ≤ 64 by decide) hword₂
      (qlen.toNat / u32 (qlenUnit * multi.toNat))
    cases hrate : rateIndex rate with
    | none =>
      refine ⟨?_, ?_, ?_, fun j hj => absurd (hrate.symm.trans hj) nofun⟩
      · rw [IntHop.time, Option.elim_none, word_ofWord hword₃, get_set_below (by decide),
          get_set_below (by decide), get_set_self]
      · rw [IntHop.bytes, Option.elim_none, word_ofWord hword₃, get_set_below (by decide),
          get_set_self]
      · rw [IntHop.qlen, Option.elim_none, word_ofWord hword₃, get_set_self]
    | some i =>
      have hword₄ := set_lt (show 0 + 3 ≤ 64 by decide) hword₃ i
      refine ⟨?_, ?_, ?_, fun j hj => ?_⟩
      · rw [IntHop.time, Option.elim_some, word_ofWord hword₄, get_set_above (by decide),
          get_set_below (by decide), get_set_below (by decide), get_set_self]
      · rw [IntHop.bytes, Option.elim_some, word_ofWord hword₄, get_set_above (by decide),
          get_set_below (by decide), get_set_self]
      · rw [IntHop.qlen, Option.elim_some, word_ofWord hword₄, get_set_above (by decide),
          get_set_self]
      · obtain rfl : i = j := Option.some.inj (hrate.symm.trans hj)
        rw [IntHop.lineRate, Option.elim_some, word_ofWord hword₄, get_set_self]

/-! ## Differences -/

/-- The difference of two counters from what is left of them modulo `n`. -/
theorem wrapped_diff {x y : Nat} (h : x ≤ y) (hlt : y - x < n) :
    (if x % n ≤ y % n then y % n - x % n else y % n + n - x % n) = y - x := by
  obtain ⟨d, rfl⟩ := Nat.exists_eq_add_of_le h
  rw [Nat.add_sub_cancel_left] at hlt ⊢
  have hx : x % n < n := Nat.mod_lt x (Nat.zero_lt_of_lt hlt)
  rw [Nat.add_mod_eq_ite, Nat.mod_eq_of_lt hlt]
  split <;> split <;> omega

end IntHop

/-- A record and the time and byte counter that it was written from. -/
structure Sample where
  time : UInt64
  bytes : UInt64
  hop : IntHop
  written : ∃ qlen rate old, IntHop.set 1 time bytes qlen rate old = some hop

namespace Sample

/-- The whole units in the byte counter. -/
def units (x : Sample) : Nat := x.bytes.toNat / IntHop.byteUnit

/-- The record `y` comes after `x`, and neither field has gone round in between. -/
structure Follows (x y : Sample) : Prop where
  time_le : x.time.toNat ≤ y.time.toNat
  time_lt : y.time.toNat - x.time.toNat < 2 ^ 24
  bytes_le : x.bytes.toNat ≤ y.bytes.toNat
  units_lt : y.units - x.units < 2 ^ 20

/-- The values of `delta` between the records of a chain. -/
def deltas (delta : IntHop → IntHop → Nat) : Sample → List Sample → List Nat
  | _, [] => []
  | x, y :: ys => delta y.hop x.hop :: deltas delta y ys

/-- The last record of a chain. -/
def last : Sample → List Sample → Sample
  | x, [] => x
  | _, y :: ys => last y ys

variable {x y : Sample} {xs : List Sample}

theorem fields (x : Sample) :
    x.hop.time = x.time.toNat % 2 ^ 24 ∧ x.hop.bytes = x.units % 2 ^ 20 := by
  obtain ⟨qlen, rate, old, hset⟩ := x.written
  have h := IntHop.holds_set hset
  exact ⟨h.time, h.bytes⟩

theorem Follows.units_le (h : Follows x y) : x.units ≤ y.units :=
  Nat.div_le_div_right h.bytes_le

theorem Follows.getTimeDelta (h : Follows x y) :
    y.hop.getTimeDelta x.hop = y.time.toNat - x.time.toNat := by
  rw [IntHop.getTimeDelta, x.fields.1, y.fields.1]
  exact IntHop.wrapped_diff h.time_le h.time_lt

theorem Follows.bytesDiff (h : Follows x y) : y.hop.bytesDiff x.hop = y.units - x.units := by
  rw [IntHop.bytesDiff, x.fields.2, y.fields.2]
  exact IntHop.wrapped_diff h.units_le h.units_lt

/-- The product of a difference and the unit has 32 bits. -/
theorem Follows.product_lt (h : Follows x y) :
    y.hop.bytesDiff x.hop * IntHop.byteUnit < 2 ^ 32 := by
  have hlt := h.units_lt
  rw [h.bytesDiff, IntHop.byteUnit]
  omega

theorem Follows.getBytesDelta (h : Follows x y) :
    y.hop.getBytesDelta 1 x.hop = IntHop.byteUnit * (y.units - x.units) := by
  rw [IntHop.getBytesDelta, u32_of_lt h.product_lt, h.bytesDiff]
  show u32 ((y.units - x.units) * IntHop.byteUnit * 1) = _
  rw [Nat.mul_one, ← h.bytesDiff, u32_of_lt h.product_lt, h.bytesDiff, Nat.mul_comm]

/-- Differences of a counter that does not fall add up to its growth. -/
theorem sum_deltas {delta : IntHop → IntHop → Nat} (counter : Sample → Nat)
    (hle : ∀ x y, Follows x y → counter x ≤ counter y)
    (hdelta : ∀ x y, Follows x y → delta y.hop x.hop = counter y - counter x)
    (h : (x :: xs).IsChain Follows) :
    counter x ≤ counter (last x xs) ∧
      (deltas delta x xs).sum = counter (last x xs) - counter x := by
  induction xs generalizing x with
  | nil => exact ⟨Nat.le_refl _, (Nat.sub_self _).symm⟩
  | cons y ys ih =>
    obtain ⟨hfirst, hrest⟩ := List.isChain_cons_cons.mp h
    obtain ⟨hgrow, hsum⟩ := ih hrest
    have hxy := hle x y hfirst
    refine ⟨Nat.le_trans hxy hgrow, ?_⟩
    rw [deltas, List.sum_cons, hdelta x y hfirst, hsum, last]
    omega

/-- The differences of a chain of records add up to the time and to the whole units that have
passed between its ends, and no product of 32 bits wraps. -/
theorem deltas_telescope (x : Sample) (xs : List Sample) (h : (x :: xs).IsChain Follows) :
    (deltas IntHop.getTimeDelta x xs).sum = (last x xs).time.toNat - x.time.toNat ∧
      (deltas (IntHop.getBytesDelta 1) x xs).sum =
        IntHop.byteUnit * ((last x xs).units - x.units) ∧
      (x :: xs).IsChain fun r r' => r'.hop.bytesDiff r.hop * IntHop.byteUnit < 2 ^ 32 := by
  have htime := sum_deltas (fun x => x.time.toNat) (fun _ _ h => h.time_le)
    (fun _ _ h => h.getTimeDelta) h
  have hbytes := sum_deltas (fun x => IntHop.byteUnit * x.units)
    (fun _ _ h => Nat.mul_le_mul_left _ h.units_le)
    (fun _ _ h => h.getBytesDelta.trans (Nat.mul_sub ..)) h
  exact ⟨htime.2, hbytes.2.trans (Nat.mul_sub ..).symm, h.imp fun _ _ h => h.product_lt⟩

/-- Records of a link of 100 Gbit/s on a fresh hop, whose fields go round in between. -/
def beforeWrap : Sample where
  time := 16777000
  bytes := 134217000
  hop := ⟨3623876930, 32767⟩
  written := ⟨0, 100000000000, IntHop.ofWord 0, by decide⟩

def afterWrap : Sample where
  time := 16777300
  bytes := 134218000
  hop := ⟨268436130, 0⟩
  written := ⟨0, 100000000000, IntHop.ofWord 0, by decide⟩

def afterSecondWrap : Sample where
  time := 33554500
  bytes := 268435400
  hop := ⟨4160750114, 32767⟩
  written := ⟨0, 100000000000, IntHop.ofWord 0, by decide⟩

theorem deltas_telescope_wraps :
    (deltas IntHop.getTimeDelta beforeWrap [afterWrap, afterSecondWrap]).sum = 16777500 ∧
      (deltas (IntHop.getBytesDelta 1) beforeWrap [afterWrap, afterSecondWrap]).sum = 134218368 :=
  have hchain : [beforeWrap, afterWrap, afterSecondWrap].IsChain Follows :=
    .cons_cons ⟨by decide, by decide, by decide, by decide⟩
      (.cons_cons ⟨by decide, by decide, by decide, by decide⟩ (.singleton _))
  have h := deltas_telescope beforeWrap [afterWrap, afterSecondWrap] hchain
  ⟨h.1.trans (by decide), h.2.1.trans (by decide)⟩

end Sample

end Paraleon.Wire
