import Paraleon.Library.Memory
import Paraleon.Wire.CustomHeader
import Paraleon.Wire.IntHop

/-!
# INT headers in memory

`IntHeader` is a union: the hops from its first byte on and `nhop` behind them, or `ts`, or
the two bytes of `power`. Its methods work on the object at an address. The host is
little-endian, so that the words of the object are its bytes in the order in which
`ns3::Buffer` writes them.

`serialize_eq_load`, `deserialize_eq_store`: the codec copies the first bytes of the object.
-/

namespace Paraleon.Wire

open Bytes

/-! ## Words in memory -/

def loadU16 (m : Memory) (a : Nat) : UInt16 := UInt16.ofNat (ofBytes (load m a 2))
def loadU32 (m : Memory) (a : Nat) : UInt32 := UInt32.ofNat (ofBytes (load m a 4))
def loadU64 (m : Memory) (a : Nat) : UInt64 := UInt64.ofNat (ofBytes (load m a 8))

section Words

variable {m : Memory} {a : Nat}

theorem ofBytes_load_lt (m : Memory) (a n : Nat) : ofBytes (load m a n) < 256 ^ n := by
  have h := ofBytes_lt (load m a n)
  rwa [length_load] at h

theorem writeLE_load (n : Nat) : writeLE n (ofBytes (load m a n)) = load m a n := by
  have h := writeLE_ofBytes (load m a n)
  rwa [length_load] at h

@[simp] theorem writeU16_load : writeU16 (loadU16 m a) = load m a 2 := by
  rw [writeU16, loadU16, UInt16.toNat_ofNat_of_lt' (ofBytes_load_lt m a 2), writeLE_load]

@[simp] theorem writeU32_load : writeU32 (loadU32 m a) = load m a 4 := by
  rw [writeU32, loadU32, UInt32.toNat_ofNat_of_lt' (ofBytes_load_lt m a 4), writeLE_load]

@[simp] theorem writeU64_load : writeU64 (loadU64 m a) = load m a 8 := by
  rw [writeU64, loadU64, UInt64.toNat_ofNat_of_lt' (ofBytes_load_lt m a 8), writeLE_load]

@[simp] theorem loadU16_store (x : UInt16) : loadU16 (store m a (writeU16 x)) a = x := by
  have hlt : x.toNat < 256 ^ 2 := x.toNat_lt
  rw [loadU16, load_store (length_writeU16 x), writeU16, ofBytes_writeLE, Nat.mod_eq_of_lt hlt,
    UInt16.ofNat_toNat]

@[simp] theorem loadU32_store (x : UInt32) : loadU32 (store m a (writeU32 x)) a = x := by
  have hlt : x.toNat < 256 ^ 4 := x.toNat_lt
  rw [loadU32, load_store (length_writeU32 x), writeU32, ofBytes_writeLE, Nat.mod_eq_of_lt hlt,
    UInt32.ofNat_toNat]

@[simp] theorem store_writeU8 (x : UInt8) : store m a (writeU8 x) a = x := store_apply 0

theorem loadU16_store_of_disjoint {b : Nat} {bs : List UInt8}
    (h : a + 2 ≤ b ∨ b + bs.length ≤ a) : loadU16 (store m b bs) a = loadU16 m a := by
  rw [loadU16, loadU16, load_store_of_disjoint h]

theorem loadU32_store_of_disjoint {b : Nat} {bs : List UInt8}
    (h : a + 4 ≤ b ∨ b + bs.length ≤ a) : loadU32 (store m b bs) a = loadU32 m a := by
  rw [loadU32, loadU32, load_store_of_disjoint h]

theorem writeU16_injective : Function.Injective writeU16 := by
  intro x y h
  have hread := readU16_write [] x
  rw [h, readU16_write] at hread
  cases hread
  rfl

variable {i : List UInt8}

/-- What a reader of a word takes is the bytes that it would write. -/
theorem readLE_eq {n : Nat} (h : n ≤ i.length) :
    readLE n i = some (ofBytes (i.take n), i.drop n) ∧
      ofBytes (i.take n) < 256 ^ n ∧ writeLE n (ofBytes (i.take n)) = i.take n := by
  have hlength : (i.take n).length = n := List.length_take_of_le h
  have hlt := ofBytes_lt (i.take n)
  have hwrite := writeLE_ofBytes (i.take n)
  rw [hlength] at hlt hwrite
  refine ⟨?_, hlt, hwrite⟩
  rw [readLE, readBytes, if_pos h]
  rfl

theorem readU16_eq (h : 2 ≤ i.length) :
    ∃ x, readU16 i = some (x, i.drop 2) ∧ writeU16 x = i.take 2 := by
  obtain ⟨hread, hlt, hwrite⟩ := readLE_eq h
  refine ⟨UInt16.ofNat (ofBytes (i.take 2)), by rw [readU16, hread]; rfl, ?_⟩
  rw [writeU16, UInt16.toNat_ofNat_of_lt' hlt, hwrite]

theorem readU32_eq (h : 4 ≤ i.length) :
    ∃ x, readU32 i = some (x, i.drop 4) ∧ writeU32 x = i.take 4 := by
  obtain ⟨hread, hlt, hwrite⟩ := readLE_eq h
  refine ⟨UInt32.ofNat (ofBytes (i.take 4)), by rw [readU32, hread]; rfl, ?_⟩
  rw [writeU32, UInt32.toNat_ofNat_of_lt' hlt, hwrite]

theorem readU64_eq (h : 8 ≤ i.length) :
    ∃ x, readU64 i = some (x, i.drop 8) ∧ writeU64 x = i.take 8 := by
  obtain ⟨hread, hlt, hwrite⟩ := readLE_eq h
  refine ⟨UInt64.ofNat (ofBytes (i.take 8)), by rw [readU64, hread]; rfl, ?_⟩
  rw [writeU64, UInt64.toNat_ofNat_of_lt' hlt, hwrite]

theorem readU8_eq (h : 1 ≤ i.length) :
    ∃ x, readU8 i = some (x, i.drop 1) ∧ writeU8 x = i.take 1 := by
  cases i with
  | nil => exact absurd h (by decide)
  | cons x i => exact ⟨x, rfl, rfl⟩

end Words

/-! ## The object -/

namespace IntMemory

def loadHop (m : Memory) (a : Nat) : IntHop := { buf0 := loadU32 m a, buf1 := loadU32 m (a + 4) }

def writeHop (h : IntHop) : List UInt8 := writeU32 h.buf0 ++ writeU32 h.buf1

/-- The members of the union, as the object at `ih` has them. -/
def members (m : Memory) (ih : Nat) : IntHeader where
  hop j := loadHop m (ih + 8 * j)
  nhop := loadU16 m (ih + 40)
  ts := loadU64 m ih
  powerLo8 := m ih
  powerHi8 := m (ih + 1)

def serialize (c : IntConfig) (m : Memory) (ih : Nat) : List UInt8 := (members m ih).serialize c

/-- The loop of `Deserialize` over `n` hops from `a` on. -/
def readHops : Memory → Nat → Nat → List UInt8 → Option (Memory × List UInt8)
  | m, _, 0, i => some (m, i)
  | m, a, n + 1, i => do
    let (buf0, i) ← readU32 i
    let (buf1, i) ← readU32 i
    readHops (store (store m a (writeU32 buf0)) (a + 4) (writeU32 buf1)) (a + 8) n i

def deserialize (c : IntConfig) (m : Memory) (ih : Nat) (i : List UInt8) : Option Memory :=
  match c.mode with
  | .normal => do
    let (m, i) ← readHops m ih maxHop i
    let (nhop, _) ← readU16 i
    some (store m (ih + 40) (writeU16 nhop))
  | .ts => do
    let (ts, _) ← readU64 i
    some (store m ih (writeU64 ts))
  | .pint =>
    if c.pintBytes = 1 then do
      let (powerLo8, _) ← readU8 i
      some (store m ih (writeU8 powerLo8))
    else if c.pintBytes = 2 then do
      let (power, _) ← readU16 i
      some (store m ih (writeU16 power))
    else some m
  | .none => some m

/-- `PushHop`; `none` is a division by zero. -/
def pushHop (c : IntConfig) (multi : UInt32) (time bytes : UInt64) (qlen : UInt32) (rate : UInt64)
    (m : Memory) (ih : Nat) : Option Memory :=
  if c.mode = .normal then
    let nhop := loadU16 m (ih + 40)
    let hop := ih + 8 * (nhop.toNat % maxHop)
    ((loadHop m hop).set multi time bytes qlen rate).map fun h =>
      store (store m hop (writeHop h)) (ih + 40) (writeU16 (nhop + 1))
  else some m

def getPower (c : IntConfig) (m : Memory) (ih : Nat) : UInt16 :=
  if c.mode = .pint then if c.pintBytes = 1 then (m ih).toUInt16 else loadU16 m ih else 0

def setPower (c : IntConfig) (power : UInt16) (m : Memory) (ih : Nat) : Memory :=
  if c.mode = .pint then
    if c.pintBytes = 1 then store m ih (writeU8 power.toUInt8) else store m ih (writeU16 power)
  else m

/-! ## The codec copies bytes -/

/-- The number of bytes that `Serialize` writes. -/
def codecSize (c : IntConfig) : Nat :=
  match c.mode with
  | .normal => maxHop * 8 + 2
  | .ts => 8
  | .pint => if c.pintBytes = 1 then 1 else if c.pintBytes = 2 then 2 else 0
  | .none => 0

variable {c : IntConfig} {m : Memory} {ih a n : Nat} {i : List UInt8}

theorem codecSize_le (c : IntConfig) : codecSize c ≤ IntHeader.getStaticSize c := by
  unfold codecSize IntHeader.getStaticSize
  cases c.mode with
  | pint =>
    dsimp only
    split_ifs <;> decide
  | _ => exact le_rfl

@[simp] theorem length_writeHop (h : IntHop) : (writeHop h).length = 8 := by simp [writeHop]

theorem writeHop_load : writeHop (loadHop m a) = load m a 8 := by
  rw [writeHop, loadHop, writeU32_load, writeU32_load, ← load_append]

/-- The two bytes of `power`. -/
theorem power_members : (members m ih).power = loadU16 m ih := by
  have hlo : (m ih).toNat < 256 := (m ih).toNat_lt
  have hhi : (m (ih + 1)).toNat < 256 := (m (ih + 1)).toNat_lt
  have hword : (loadU16 m ih).toNat = (m ih).toNat + 256 * (m (ih + 1)).toNat := by
    rw [loadU16, UInt16.toNat_ofNat_of_lt' (ofBytes_load_lt m ih 2)]
    rfl
  have hlow : (loadU16 m ih).toUInt8 = m ih := by
    rw [← UInt8.toNat_inj, UInt16.toNat_toUInt8, hword]
    omega
  have hhigh : (loadU16 m ih >>> 8).toUInt8 = m (ih + 1) := by
    have hshift : (loadU16 m ih >>> 8).toNat = (loadU16 m ih).toNat / 2 ^ 8 :=
      (UInt16.toNat_shiftRight ..).trans (Nat.shiftRight_eq_div_pow ..)
    rw [← UInt8.toNat_inj, UInt16.toNat_toUInt8, hshift, hword]
    omega
  have hbytes := power_bytes (loadU16 m ih)
  rwa [hlow, hhigh] at hbytes

/-- Hops that lie one behind the other. -/
theorem flatMap_hops (n : Nat) :
    (List.range n).flatMap (fun j => writeHop (loadHop m (a + 8 * j))) = load m a (8 * n) := by
  induction n with
  | zero => rfl
  | succ n ih =>
    rw [List.range_succ, List.flatMap_append, ih, List.flatMap_singleton, writeHop_load,
      Nat.mul_succ, load_append]

theorem serialize_eq_load : serialize c m ih = load m ih (codecSize c) := by
  unfold serialize IntHeader.serialize codecSize
  cases c.mode with
  | normal =>
    have hhops : (List.ofFn (members m ih).hop).flatMap
        (fun hop => writeU32 hop.buf0 ++ writeU32 hop.buf1) = load m ih 40 := by
      rw [← flatMap_hops 5]
      rfl
    dsimp only
    rw [hhops, members, writeU16_load]
    exact (load_append 40 2).symm
  | ts => exact writeU64_load
  | pint =>
    dsimp only
    split_ifs
    · rfl
    · rw [power_members, writeU16_load]
    · rfl
  | none => rfl

theorem length_serialize : (serialize c m ih).length = codecSize c := by
  rw [serialize_eq_load, length_load]

theorem readHops_eq_store (n : Nat) (h : 8 * n ≤ i.length) :
    readHops m a n i = some (store m a (i.take (8 * n)), i.drop (8 * n)) := by
  induction n generalizing m a i with
  | zero =>
    rw [readHops, Nat.mul_zero, List.take_zero, List.drop_zero, store_nil]
  | succ n ih =>
    rw [Nat.mul_succ] at h
    obtain ⟨x, hx, hwx⟩ := readU32_eq (i := i) (by omega)
    obtain ⟨y, hy, hwy⟩ := readU32_eq (i := i.drop 4) (by rw [List.length_drop]; omega)
    have hpair : writeU32 x ++ writeU32 y = i.take 8 := by rw [hwx, hwy, ← List.take_add]
    rw [readHops, hx, Option.bind_eq_bind, Option.bind_some]
    dsimp only
    rw [hy, Option.bind_some]
    dsimp only
    rw [store_append (length_writeU32 x), hpair, List.drop_drop,
      ih (by rw [List.length_drop]; omega),
      store_append (List.length_take_of_le (by omega)), ← List.take_add, List.drop_drop,
      Nat.mul_succ, Nat.add_comm 8]

theorem deserialize_eq_store (h : codecSize c ≤ i.length) :
    deserialize c m ih i = some (store m ih (i.take (codecSize c))) := by
  unfold deserialize
  unfold codecSize at h ⊢
  cases hmode : c.mode with
  | normal =>
    rw [hmode] at h
    have h' : 42 ≤ i.length := h
    obtain ⟨nhop, hnhop, hwrite⟩ := readU16_eq (i := i.drop (8 * maxHop))
      (by rw [List.length_drop, maxHop]; omega)
    dsimp only
    -- the loop stores the hops at once, and `nhop` goes behind them
    rw [readHops_eq_store maxHop (by rw [maxHop]; omega), Option.bind_eq_bind, Option.bind_some]
    dsimp only
    rw [hnhop, Option.bind_eq_bind, Option.bind_some]
    dsimp only
    rw [hwrite]
    have hlength : (i.take (8 * maxHop)).length = 40 :=
      List.length_take_of_le (by rw [maxHop]; omega)
    rw [store_append hlength, ← List.take_add]
    rfl
  | ts =>
    rw [hmode] at h
    obtain ⟨ts, hts, hwrite⟩ := readU64_eq (i := i) h
    dsimp only
    rw [hts, Option.bind_eq_bind, Option.bind_some]
    dsimp only
    rw [hwrite]
  | pint =>
    rw [hmode] at h
    dsimp only at h ⊢
    split_ifs at h ⊢ with hone htwo
    · obtain ⟨power, hpower, hwrite⟩ := readU8_eq (i := i) h
      rw [hpower, Option.bind_eq_bind, Option.bind_some]
      dsimp only
      rw [hwrite]
    · obtain ⟨power, hpower, hwrite⟩ := readU16_eq (i := i) h
      rw [hpower, Option.bind_eq_bind, Option.bind_some]
      dsimp only
      rw [hwrite]
    · rw [List.take_zero, store_nil]
  | none => rw [List.take_zero, store_nil]

/-- The codec copies the first bytes of one object to another. -/
theorem deserialize_serialize (m' : Memory) (ih' : Nat) (i : List UInt8) :
    deserialize c m' ih' (serialize c m ih ++ i) =
      some (store m' ih' (load m ih (codecSize c))) := by
  have hlength : codecSize c ≤ (serialize c m ih ++ i).length := by
    rw [List.length_append, length_serialize]
    exact Nat.le_add_right _ _
  rw [deserialize_eq_store hlength, List.take_left' length_serialize, serialize_eq_load]

/-- Objects with the same first bytes have the same contents. -/
theorem sameInt_of_load {m' : Memory} {ih' : Nat} (hc : c.Valid)
    (h : load m ih (codecSize c) = load m' ih' (codecSize c)) :
    IntHeader.SameInt c (members m ih) (members m' ih') := by
  have hbytes : (members m ih).serialize c = (members m' ih').serialize c :=
    serialize_eq_load.trans (h.trans serialize_eq_load.symm)
  obtain ⟨read, hread, hsame⟩ :=
    Wire.deserialize_serialize (i := []) (members m ih) (members m ih) hc
  obtain ⟨read', hread', hsame'⟩ :=
    Wire.deserialize_serialize (i := []) (members m' ih') (members m ih) hc
  rw [hbytes, hread'] at hread
  obtain rfl := Option.some.inj hread
  exact hsame.of_common hsame'

end IntMemory

end Paraleon.Wire
