import Mathlib.Data.Nat.Bitwise
import Mathlib.Logic.Function.Basic

/-!
# Keys of queue pairs

`m_qpMap` is keyed by the destination, the source port and the priority group of
a flow; `m_rxQpMap` by the source, the priority group and the source port of it,
which are `dip`, `m_ecn_source.qIndex` and `dport` of the receive queue pair.
-/

namespace Paraleon.Rdma

/-- `RdmaHw::GetQpKey`. -/
def getQpKey (dip : UInt32) (sport pg : UInt16) : UInt64 :=
  dip.toUInt64 <<< 32 ||| sport.toUInt64 <<< 16 ||| pg.toUInt64

/-- `RdmaHw::GetRxQpKey`. -/
def getRxQpKey (dip : UInt32) (pg dport : UInt16) : UInt64 :=
  dip.toUInt64 <<< 32 ||| pg.toUInt64 <<< 16 ||| dport.toUInt64

/-- The three words of a key do not overlap. -/
theorem getQpKey_toNat (dip : UInt32) (sport pg : UInt16) :
    (getQpKey dip sport pg).toNat = (dip.toNat * 2 ^ 16 + sport.toNat) * 2 ^ 16 + pg.toNat := by
  have hdip : dip.toNat < 2 ^ 32 := dip.toNat_lt
  have hsport : sport.toNat < 2 ^ 16 := sport.toNat_lt
  have hpg : pg.toNat < 2 ^ 16 := pg.toNat_lt
  have h₁ : dip.toNat <<< 32 % 2 ^ 64 = dip.toNat <<< 32 := by
    rw [Nat.shiftLeft_eq]
    exact Nat.mod_eq_of_lt (by omega)
  have h₂ : sport.toNat <<< 16 % 2 ^ 64 = sport.toNat <<< 16 := by
    rw [Nat.shiftLeft_eq]
    exact Nat.mod_eq_of_lt (by omega)
  have h₃ : dip.toNat <<< 32 ||| sport.toNat <<< 16 = (dip.toNat <<< 16 + sport.toNat) <<< 16 := by
    rw [Nat.shiftLeft_add_eq_or_of_lt hsport, Nat.shiftLeft_or_distrib, ← Nat.shiftLeft_add]
  calc (getQpKey dip sport pg).toNat
      = dip.toNat <<< 32 % 2 ^ 64 ||| sport.toNat <<< 16 % 2 ^ 64 ||| pg.toNat := by
        simp [getQpKey, UInt64.toNat_or, UInt64.toNat_shiftLeft]
    _ = (dip.toNat <<< 16 + sport.toNat) <<< 16 + pg.toNat := by
        rw [h₁, h₂, h₃, ← Nat.shiftLeft_add_eq_or_of_lt hpg]
    _ = (dip.toNat * 2 ^ 16 + sport.toNat) * 2 ^ 16 + pg.toNat := by
        simp only [Nat.shiftLeft_eq]

theorem getQpKey_inj {dip dip' : UInt32} {sport sport' pg pg' : UInt16} :
    getQpKey dip sport pg = getQpKey dip' sport' pg' ↔ dip = dip' ∧ sport = sport' ∧ pg = pg' := by
  constructor
  · intro h
    have hnat := congrArg UInt64.toNat h
    rw [getQpKey_toNat, getQpKey_toNat] at hnat
    have hsport : sport.toNat < 2 ^ 16 := sport.toNat_lt
    have hsport' : sport'.toNat < 2 ^ 16 := sport'.toNat_lt
    have hpg : pg.toNat < 2 ^ 16 := pg.toNat_lt
    have hpg' : pg'.toNat < 2 ^ 16 := pg'.toNat_lt
    refine ⟨UInt32.toNat_inj.mp ?_, UInt16.toNat_inj.mp ?_, UInt16.toNat_inj.mp ?_⟩
    · omega
    · omega
    · omega
  · rintro ⟨rfl, rfl, rfl⟩
    rfl

theorem getRxQpKey_inj {dip dip' : UInt32} {pg pg' dport dport' : UInt16} :
    getRxQpKey dip pg dport = getRxQpKey dip' pg' dport' ↔ dip = dip' ∧ pg = pg' ∧ dport = dport' :=
  getQpKey_inj

/-! ## Receive queue pairs -/

/-- What the headers of a data packet say about its flow, and its ECN bits. -/
structure DataHeader where
  sip : UInt32
  dip : UInt32
  sport : UInt16
  dport : UInt16
  pg : UInt16
  ecnbits : UInt8
deriving DecidableEq, Repr

/-- The addresses in an `RdmaRxQueuePair`, seen from the receiver, with
`m_ecn_source.qIndex`. -/
structure RxQp where
  sip : UInt32
  dip : UInt32
  sport : UInt16
  dport : UInt16
  qIndex : UInt16
deriving DecidableEq, Repr

def RxQp.key (q : RxQp) : UInt64 := getRxQpKey q.dip q.qIndex q.dport

/-- `m_rxQpMap`. -/
abbrev RxQpMap := UInt64 → Option RxQp

/-- `RdmaHw::GetRxQp` with `create`. -/
def getRxQp (m : RxQpMap) (sip dip : UInt32) (sport dport pg : UInt16) : RxQp × RxQpMap :=
  let key := getRxQpKey dip pg dport
  match m key with
  | some q => (q, m)
  | none =>
    let q : RxQp := { sip, dip, sport, dport, qIndex := pg }
    (q, Function.update m key (some q))

/-- Every receive queue pair is stored under its own key. -/
def RxQpMap.Keyed (m : RxQpMap) : Prop := ∀ key q, m key = some q → q.key = key

section GetRxQp

variable {m : RxQpMap} (sip dip : UInt32) (sport dport pg : UInt16)

/-- The receive queue pair is found under the key of the packet, and no other
entry changes. -/
theorem getRxQp_snd : (getRxQp m sip dip sport dport pg).2 =
    Function.update m (getRxQpKey dip pg dport) (some (getRxQp m sip dip sport dport pg).1) := by
  cases h : m (getRxQpKey dip pg dport) with
  | some q =>
    simp only [getRxQp, h]
    rw [← h, Function.update_eq_self]
  | none => simp only [getRxQp, h]

theorem getRxQp_key (hm : m.Keyed) :
    (getRxQp m sip dip sport dport pg).1.key = getRxQpKey dip pg dport := by
  cases h : m (getRxQpKey dip pg dport) with
  | some q =>
    simp only [getRxQp, h]
    exact hm _ q h
  | none =>
    simp only [getRxQp, h]
    rfl

theorem getRxQp_keyed (hm : m.Keyed) : (getRxQp m sip dip sport dport pg).2.Keyed := by
  intro key q hq
  rw [getRxQp_snd] at hq
  rcases eq_or_ne key (getRxQpKey dip pg dport) with rfl | hne
  · rw [Function.update_self] at hq
    obtain rfl := Option.some.inj hq
    exact getRxQp_key _ _ _ _ _ hm
  · rw [Function.update_of_ne hne] at hq
    exact hm key q hq

end GetRxQp

end Paraleon.Rdma
