import Mathlib.Algebra.Order.BigOperators.Group.List
import Mathlib.Algebra.Order.Ring.Rat
import Mathlib.Data.Rat.Cast.Order
import Mathlib.Logic.Function.Basic
import Mathlib.Tactic.Linarith
import Paraleon.Library.Runs

/-!
# Throughput samples

A switch counts the UDP bytes that it receives on each port. `monitor_buffer_new` writes the
counters and sets them to zero, first at a given time and then after each interval, and takes
what it finds for the traffic of one interval.

* `samples_bytes`: between two calls nothing is lost and nothing is counted twice.
* `sampled_iff`: the samples are what they are taken for exactly when nothing was received
  earlier than one interval before the first call, and no counter wraps. The first sample has
  everything since time zero.
-/

namespace Paraleon.Switch.Throughput

open Function Runs

/-! ## The counters and the monitor -/

/-- `SwitchNode::pCnt`. -/
abbrev pCnt : Nat := 257

/-- The id of a switch and a port of it. -/
abbrev Port := UInt32 × Fin pCnt

/-- `QLEN_MON_START`, `QLEN_MON_END` and `QLEN_MON_INTERVAL`, in nanoseconds. -/
structure Config where
  qlenMonStart : Nat
  qlenMonEnd : Nat
  qlenMonInterval : Nat

/-- A UDP packet that a switch has received. -/
structure Received where
  time : Nat
  port : Port
  size : UInt32
deriving DecidableEq

/-- A call of `monitor_buffer_new`: the time and the counters that it reads. `held` is for the
proofs: the packets that were counted since the call before. -/
structure Call where
  time : Nat
  rxBytes : Port → UInt64
  held : Port → List Received

/-- A line of `switch_portrate.tr`. -/
structure PortRate where
  time : Nat
  port : Port
  rxBytes : UInt64

/-- The line of a port; a counter that is zero is not written. -/
def Call.line (k : Call) (p : Port) : Option PortRate :=
  if k.rxBytes p ≠ 0 then some { time := k.time, port := p, rxBytes := k.rxBytes p } else none

/-- The rate in Gbit/s that the monitor takes for that of a port. -/
def throughputGbps (interval : Nat) (bytes : Nat) : ℚ :=
  let monitorWindowSeconds : ℚ := interval / 10 ^ 9
  if 0 < monitorWindowSeconds then bytes * 8 / monitorWindowSeconds / 10 ^ 9 else 0

/-- `throughput_handling2`, for one line: the tuner leaves out port 0. -/
def throughputHandling2 (monitorWindowSeconds : ℚ) (l : PortRate) : Option ℚ :=
  if l.port.2.val = 0 then none
  else some (l.rxBytes.toNat * 8 / monitorWindowSeconds / 10 ^ 9)

/-- `m_rxBytes` of all switches, the packets they have received and the calls so far; `next`
is the time of the next call, and `held` is for the proofs, as in a call. -/
structure State where
  now : Nat
  rxBytes : Port → UInt64
  held : Port → List Received
  received : List Received
  calls : List Call
  next : Option Nat

/-- `main`, which schedules the first call. -/
def Config.init (cfg : Config) : State :=
  { now := 0, rxBytes := fun _ => 0, held := fun _ => [], received := [], calls := [],
    next := some cfg.qlenMonStart }

inductive Event where
  | receive (time : Nat) (port : Port) (l3Prot : UInt8) (size : UInt32)
  | monitorBufferNew

namespace State

/-- What `SwitchReceiveFromDevice` does to the counters. -/
def receive (s : State) (time : Nat) (port : Port) (l3Prot : UInt8) (size : UInt32) : State :=
  if l3Prot = 0x11 then
    let r : Received := { time, port, size }
    { s with now := time
             rxBytes := update s.rxBytes port (s.rxBytes port + size.toUInt64)
             held := update s.held port (s.held port ++ [r])
             received := s.received ++ [r] }
  else { s with now := time }

/-- `monitor_buffer_new`. -/
def monitorBufferNew (cfg : Config) (s : State) (time : Nat) : State :=
  { s with now := time
           rxBytes := fun _ => 0
           held := fun _ => []
           calls := s.calls ++ [{ time, rxBytes := s.rxBytes, held := s.held }]
           next := if time < cfg.qlenMonEnd then some (time + cfg.qlenMonInterval) else none }

end State

/-- The events come in the order of their times, those of one time in any order. -/
def step (cfg : Config) (s : State) : Event → Option State
  | .receive time port l3Prot size =>
    if s.now ≤ time ∧ ∀ t ∈ s.next, time ≤ t then some (s.receive time port l3Prot size) else none
  | .monitorBufferNew => s.next.map (s.monitorBufferNew cfg)

/-! ## What samples are taken for -/

/-- The bytes of some packets. -/
def bytesOf (rs : List Received) : Nat := (rs.map fun r => r.size.toNat).sum

/-- The packet was received in the interval before the call. -/
def InWindow (cfg : Config) (k : Call) (r : Received) : Prop :=
  k.time ≤ r.time + cfg.qlenMonInterval ∧ r.time ≤ k.time

instance (cfg : Config) (k : Call) (r : Received) : Decidable (InWindow cfg k r) :=
  inferInstanceAs (Decidable (_ ∧ _))

/-- The packets of a port that are received in the interval before a call. -/
def windowOf (cfg : Config) (s : State) (k : Call) (p : Port) : List Received :=
  s.received.filter fun r => r.port = p ∧ InWindow cfg k r

/-- Every packet up to the last call is in one sample, whose number is that of the bytes of its
packets, and a sample has only packets of the interval before it. So neither the monitor nor the
tuner, which is told the same interval, takes the traffic for more than it was. -/
structure Sampled (cfg : Config) (s : State) : Prop where
  once : ∀ p, s.calls.flatMap (fun k => k.held p) ++ s.held p = s.received.filter (·.port = p)
  bytes : ∀ k ∈ s.calls, ∀ p, (k.rxBytes p).toNat = bytesOf (k.held p)
  window : ∀ k ∈ s.calls, ∀ p, ∀ r ∈ k.held p, InWindow cfg k r
  throughput_le : ∀ k ∈ s.calls, ∀ p,
    throughputGbps cfg.qlenMonInterval (k.rxBytes p).toNat ≤
      throughputGbps cfg.qlenMonInterval (bytesOf (windowOf cfg s k p))
  tuner_le : 0 < cfg.qlenMonInterval → ∀ k ∈ s.calls, ∀ p l x, k.line p = some l →
    throughputHandling2 (cfg.qlenMonInterval / 10 ^ 9) l = some x →
      x ≤ throughputGbps cfg.qlenMonInterval (bytesOf (windowOf cfg s k p))

/-- Nothing is received before the interval that ends with the first call, if there is one. -/
def NothingEarly (cfg : Config) (s : State) : Prop :=
  s.calls = [] ∨ ∀ r ∈ s.received, cfg.qlenMonStart ≤ r.time + cfg.qlenMonInterval

/-- On no port, `2 ^ 64` bytes are received between two calls. -/
def NoWrap (s : State) : Prop := ∀ k ∈ s.calls, ∀ p, bytesOf (k.held p) < 2 ^ 64

/-! ## Bytes are counted once -/

variable {cfg : Config} {s t : State}

theorem bytesOf_append (rs rs' : List Received) :
    bytesOf (rs ++ rs') = bytesOf rs + bytesOf rs' := by
  simp [bytesOf]

theorem bytesOf_le_of_sublist {rs rs' : List Received} (h : rs.Sublist rs') :
    bytesOf rs ≤ bytesOf rs' :=
  (h.map _).sum_le_sum fun _ _ => Nat.zero_le _

theorem toUInt64_eq_ofNat (n : UInt32) : n.toUInt64 = .ofNat n.toNat := by
  rw [← UInt32.toUInt64_ofNat' n.toNat_lt_size, UInt32.ofNat_toNat]

/-- What the counters hold, and since when. -/
structure Counted (cfg : Config) (s : State) : Prop where
  once : ∀ p, s.calls.flatMap (fun k => k.held p) ++ s.held p = s.received.filter (·.port = p)
  rxBytes : ∀ p, s.rxBytes p = .ofNat (bytesOf (s.held p))
  callBytes : ∀ k ∈ s.calls, ∀ p, k.rxBytes p = .ofNat (bytesOf (k.held p))
  held_le : ∀ p, ∀ r ∈ s.held p, r.time ≤ s.now
  now_le : ∀ n ∈ s.next, s.now ≤ n
  first : s.calls = [] → s.next = some cfg.qlenMonStart
  since : s.calls ≠ [] → cfg.qlenMonStart ≤ s.now ∧ ∀ n ∈ s.next, n ≤ s.now + cfg.qlenMonInterval
  held_since : s.calls ≠ [] → ∀ p, ∀ r ∈ s.held p,
    cfg.qlenMonStart ≤ r.time ∧ ∀ n ∈ s.next, n ≤ r.time + cfg.qlenMonInterval
  call : ∀ k ∈ s.calls, cfg.qlenMonStart ≤ k.time ∧ ∀ p, ∀ r ∈ k.held p, r.time ≤ k.time
  call_since : ∀ k ∈ s.calls, k.time = cfg.qlenMonStart ∨
    ∀ p, ∀ r ∈ k.held p, k.time ≤ r.time + cfg.qlenMonInterval

theorem counted_init (cfg : Config) : Counted cfg cfg.init where
  once _ := rfl
  rxBytes _ := rfl
  callBytes := nofun
  held_le := nofun
  now_le _ _ := Nat.zero_le _
  first _ := rfl
  since h := absurd rfl h
  held_since h := absurd rfl h
  call := nofun
  call_since := nofun

/-- What a port holds after a packet. -/
theorem mem_held_receive {port p : Port} {r r' : Received}
    (h : r' ∈ update s.held port (s.held port ++ [r]) p) : r' ∈ s.held p ∨ r' = r := by
  rcases eq_or_ne p port with rfl | hne
  · rw [update_self] at h
    simpa using h
  · rw [update_of_ne hne] at h
    exact .inl h

theorem Counted.receive (h : Counted cfg s) {time : Nat} (hnow : s.now ≤ time)
    (hnext : ∀ n ∈ s.next, time ≤ n) (port : Port) (l3Prot : UInt8) (size : UInt32) :
    Counted cfg (s.receive time port l3Prot size) := by
  have hsince : s.calls ≠ [] → cfg.qlenMonStart ≤ time ∧
      ∀ n ∈ s.next, n ≤ time + cfg.qlenMonInterval := fun hcalls =>
    ⟨(h.since hcalls).1.trans hnow,
      fun n hn => ((h.since hcalls).2 n hn).trans (Nat.add_le_add_right hnow _)⟩
  unfold State.receive
  split
  · exact
      { once := fun p => by
          dsimp only
          rw [List.filter_append, ← h.once p]
          rcases eq_or_ne p port with rfl | hne
          · rw [update_self, ← List.append_assoc]
            simp
          · rw [update_of_ne hne]
            simp [hne.symm]
        rxBytes := fun p => by
          dsimp only
          rcases eq_or_ne p port with rfl | hne
          · rw [update_self, update_self, bytesOf_append, h.rxBytes p, UInt64.ofNat_add,
              toUInt64_eq_ofNat]
            simp [bytesOf]
          · rw [update_of_ne hne, update_of_ne hne]
            exact h.rxBytes p
        callBytes := h.callBytes
        held_le := fun p r hr => by
          rcases mem_held_receive hr with hr | rfl
          · exact (h.held_le p r hr).trans hnow
          · exact le_rfl
        now_le := hnext
        first := h.first
        since := hsince
        held_since := fun hcalls p r hr => by
          rcases mem_held_receive hr with hr | rfl
          · exact h.held_since hcalls p r hr
          · exact hsince hcalls
        call := h.call
        call_since := h.call_since }
  · exact
      { once := h.once
        rxBytes := h.rxBytes
        callBytes := h.callBytes
        held_le := fun p r hr => (h.held_le p r hr).trans hnow
        now_le := hnext
        first := h.first
        since := hsince
        held_since := h.held_since
        call := h.call
        call_since := h.call_since }

theorem Counted.monitorBufferNew (h : Counted cfg s) {time : Nat} (hnext : s.next = some time) :
    Counted cfg (s.monitorBufferNew cfg time) := by
  have hnow : s.now ≤ time := h.now_le time hnext
  -- the first call is at the start, and every other one interval after the one before
  have hstart : cfg.qlenMonStart ≤ time := by
    by_cases hcalls : s.calls = []
    · exact (Option.some.inj ((h.first hcalls).symm.trans hnext)).le
    · exact (h.since hcalls).1.trans hnow
  have hafter : ∀ n ∈ (s.monitorBufferNew cfg time).next, n = time + cfg.qlenMonInterval := by
    intro n hn
    change n ∈ (if time < cfg.qlenMonEnd then some (time + cfg.qlenMonInterval) else none) at hn
    split at hn
    · exact (Option.some.inj hn).symm
    · cases hn
  exact
    { once := fun p => by
        change _ = s.received.filter (·.port = p)
        rw [← h.once p]
        simp [State.monitorBufferNew]
      rxBytes := fun _ => rfl
      callBytes := fun k hk p => by
        rcases List.mem_append.mp hk with hk | hk
        · exact h.callBytes k hk p
        · obtain rfl := List.mem_singleton.mp hk
          exact h.rxBytes p
      held_le := nofun
      now_le := fun n hn => by
        rw [hafter n hn]
        exact Nat.le_add_right ..
      first := fun hnil => absurd hnil (by simp [State.monitorBufferNew])
      since := fun _ => ⟨hstart, fun n hn => (hafter n hn).le⟩
      held_since := nofun
      call := fun k hk => by
        rcases List.mem_append.mp hk with hk | hk
        · exact h.call k hk
        · obtain rfl := List.mem_singleton.mp hk
          exact ⟨hstart, fun p r hr => (h.held_le p r hr).trans hnow⟩
      call_since := fun k hk => by
        rcases List.mem_append.mp hk with hk | hk
        · exact h.call_since k hk
        · obtain rfl := List.mem_singleton.mp hk
          by_cases hcalls : s.calls = []
          · exact .inl (Option.some.inj (hnext.symm.trans (h.first hcalls)))
          · exact .inr fun p r hr => (h.held_since hcalls p r hr).2 time hnext }

theorem Counted.step {e : Event} (h : Counted cfg s) (hstep : step cfg s e = some t) :
    Counted cfg t := by
  cases e with
  | receive time port l3Prot size =>
    obtain ⟨⟨hnow, hnext⟩, heq⟩ := Option.ite_none_right_eq_some.mp hstep
    cases heq
    exact h.receive hnow hnext port l3Prot size
  | monitorBufferNew =>
    obtain ⟨time, hnext, rfl⟩ := Option.map_eq_some_iff.mp hstep
    exact h.monitorBufferNew hnext

theorem counted_of_reachable (h : Reachable (step cfg) cfg.init s) : Counted cfg s :=
  h.invariant (counted_init cfg) fun _ _ _ hs hstep => hs.step hstep

/-! ## The samples -/

theorem Counted.mem_received (h : Counted cfg s) {k : Call} (hk : k ∈ s.calls) {p : Port}
    {r : Received} (hr : r ∈ k.held p) : r ∈ s.received := by
  have hmem : r ∈ s.received.filter (·.port = p) := by
    rw [← h.once p]
    exact List.mem_append_left _ (List.mem_flatMap.mpr ⟨k, hk, hr⟩)
  exact (List.mem_filter.mp hmem).1

/-- The number of a sample is that of the bytes of its packets, as long as it has 64 bits. -/
theorem Counted.samples_bytes (h : Counted cfg s) :
    (∀ k ∈ s.calls, ∀ p, (k.rxBytes p).toNat = bytesOf (k.held p)) ↔ NoWrap s := by
  refine forall₃_congr fun k hk p => ?_
  rw [h.callBytes k hk p, UInt64.toNat_ofNat']
  constructor
  · intro heq
    rw [← heq]
    exact Nat.mod_lt _ (Nat.two_pow_pos 64)
  · exact Nat.mod_eq_of_lt

/-- Only the first sample can have packets from before its interval. -/
theorem Counted.samples_window (h : Counted cfg s) :
    (∀ k ∈ s.calls, ∀ p, ∀ r ∈ k.held p, InWindow cfg k r) ↔ NothingEarly cfg s := by
  constructor
  · intro hwindow
    by_cases hcalls : s.calls = []
    · exact .inl hcalls
    · refine .inr fun r hr => ?_
      have hmem : r ∈ s.calls.flatMap (fun k => k.held r.port) ++ s.held r.port := by
        rw [h.once]
        exact List.mem_filter.mpr ⟨hr, by simp⟩
      rcases List.mem_append.mp hmem with hmem | hmem
      · obtain ⟨k, hk, hr⟩ := List.mem_flatMap.mp hmem
        exact (h.call k hk).1.trans (hwindow k hk _ r hr).1
      · exact (h.held_since hcalls _ r hmem).1.trans (Nat.le_add_right ..)
  · intro hearly k hk p r hr
    refine ⟨?_, (h.call k hk).2 p r hr⟩
    rcases h.call_since k hk with hfirst | hsince
    · rcases hearly with hnil | hearly
      · rw [hnil] at hk
        cases hk
      · rw [hfirst]
        exact hearly r (h.mem_received hk hr)
    · exact hsince p r hr

/-- The packets of a sample are among those of the interval before it. -/
theorem Counted.bytesOf_le_window (h : Counted cfg s) {k : Call} (hk : k ∈ s.calls) {p : Port}
    (hwindow : ∀ r ∈ k.held p, InWindow cfg k r) :
    bytesOf (k.held p) ≤ bytesOf (windowOf cfg s k p) := by
  have hsub : (k.held p).Sublist (s.received.filter (·.port = p)) := by
    rw [← h.once p]
    have hmem : k.held p ∈ s.calls.map fun k => k.held p := List.mem_map_of_mem hk
    exact (List.sublist_flatten_of_mem hmem).trans (List.sublist_append_left _ _)
  have hkeep : (k.held p).filter (InWindow cfg k) = k.held p :=
    List.filter_eq_self.mpr fun r hr => decide_eq_true (hwindow r hr)
  refine bytesOf_le_of_sublist ?_
  rw [← hkeep]
  have hfilter := hsub.filter fun r => decide (InWindow cfg k r)
  rw [List.filter_filter] at hfilter
  simpa [windowOf, Bool.and_comm] using hfilter

theorem throughputGbps_mono (interval : Nat) {m n : Nat} (h : m ≤ n) :
    throughputGbps interval m ≤ throughputGbps interval n := by
  unfold throughputGbps
  dsimp only
  split
  · next hpos =>
    have hmn : (m : ℚ) ≤ n := Nat.cast_le.mpr h
    gcongr
  · exact le_rfl

/-- The tuner takes the same rate from the line of a port, if it is told the same interval. -/
theorem throughputHandling2_line {interval : Nat} (hinterval : 0 < interval) {k : Call} {p : Port}
    {l : PortRate} {x : ℚ} (hline : k.line p = some l)
    (hx : throughputHandling2 (interval / 10 ^ 9) l = some x) :
    x = throughputGbps interval (k.rxBytes p).toNat := by
  obtain ⟨-, heq⟩ := Option.ite_none_right_eq_some.mp hline
  cases heq
  obtain ⟨-, heq⟩ := Option.ite_none_left_eq_some.mp hx
  have hpos : (0 : ℚ) < interval / 10 ^ 9 :=
    div_pos (Nat.cast_pos.mpr hinterval) (by positivity)
  rw [← Option.some.inj heq, throughputGbps, if_pos hpos]

/-- In every run, the samples are the traffic of one interval each exactly when nothing was
received before the first of these intervals and no counter wraps. -/
theorem sampled_iff (h : Reachable (step cfg) cfg.init s) :
    Sampled cfg s ↔ NothingEarly cfg s ∧ NoWrap s := by
  have hcounted := counted_of_reachable h
  constructor
  · intro hs
    exact ⟨hcounted.samples_window.mp hs.window, hcounted.samples_bytes.mp hs.bytes⟩
  · rintro ⟨hearly, hwrap⟩
    have hwindow := hcounted.samples_window.mpr hearly
    have hbytes := hcounted.samples_bytes.mpr hwrap
    have hthroughput : ∀ k ∈ s.calls, ∀ p,
        throughputGbps cfg.qlenMonInterval (k.rxBytes p).toNat ≤
          throughputGbps cfg.qlenMonInterval (bytesOf (windowOf cfg s k p)) := fun k hk p => by
      rw [hbytes k hk p]
      exact throughputGbps_mono _ (hcounted.bytesOf_le_window hk (hwindow k hk p))
    exact
      { once := hcounted.once
        bytes := hbytes
        window := hwindow
        throughput_le := hthroughput
        tuner_le := fun hinterval k hk p l x hline hx =>
          (throughputHandling2_line hinterval hline hx).trans_le (hthroughput k hk p) }

/-- The times that `third.cc` sets before it reads its configuration. -/
def exConfig : Config :=
  { qlenMonStart := 2000000000, qlenMonEnd := 2100000000, qlenMonInterval := 1000000 }

/-- The last port of the first switch. -/
def exPort : Port := (0, Fin.last 256)

/-- A packet in the interval before the first call, and one after it. -/
def exEvents : List Event :=
  [.receive 1999500000 exPort 0x11 1048, .monitorBufferNew, .receive 2000000000 exPort 0x11 1048,
    .monitorBufferNew]

def exEnd : State := ((run (step exConfig) exConfig.init exEvents).get (by decide))

theorem exEvents_sampled : Sampled exConfig exEnd ↔ NothingEarly exConfig exEnd ∧ NoWrap exEnd :=
  sampled_iff ⟨exEvents, by rw [exEnd, Option.some_get]⟩

/-- A second before the first call, the packet is in its sample all the same. -/
def exEarly : List Event := [.receive 1000000000 exPort 0x11 1048, .monitorBufferNew]

theorem early_packet_sampled :
    ∃ s, run (step exConfig) exConfig.init exEarly = some s ∧
      s.calls.map (fun k => (k.time, k.rxBytes exPort)) = [(2000000000, 1048)] ∧
        ¬Sampled exConfig s := by
  refine ⟨(run (step exConfig) exConfig.init exEarly).get (by decide), ?_, by decide, fun h => ?_⟩
  · rw [Option.some_get]
  · have hwindow := h.window _ List.mem_cons_self exPort
      { time := 1000000000, port := exPort, size := 1048 } (by decide)
    exact absurd hwindow (by decide)

end Paraleon.Switch.Throughput
