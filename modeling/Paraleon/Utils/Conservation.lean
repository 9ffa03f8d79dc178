import Paraleon.Utils.BEgressQueue

/-!
# Nothing is lost in a class queue

Three byte counters at two levels, an inner queue with a limit of its own, and a return value
that nobody reads.

* `inStep_added`, `inStep_taken`: the counters stay in step as long as the 32-bit sum that
  `DoEnqueue` compares with its limit is the sum.
* `conserved_iff`: over whole runs, and no longer than that.
* `forget_enqueue`, `forget_dequeueRR`: while they are in step, a `BEgressQueue` is what
  `Switch.BEgressQueue` says it is.
-/

namespace Paraleon.Utils

open Words Weights Switch Runs DropTailQueue

namespace BEgressQueue

/-- The packets of class `q`. -/
def held (b : BEgressQueue) (q : Switch.Class) : List Packet := (b.queues q).packets

/-- The limit is the default, the inner queues are in step, and the outer counters with
them. -/
structure InStep (b : BEgressQueue) : Prop where
  maxBytes : b.maxBytes = 1000 * 1024 * 1024
  synced : ∀ q, Synced (b.queues q)
  perClass : ∀ q, b.bytesInQueue q = bytesOf (b.held q)
  total : b.bytesInQueueTotal = ∑ q, bytesOf (b.held q)
  nBytes : b.nBytes = ∑ q, bytesOf (b.held q)
  nPackets : b.nPackets = ∑ q, (b.held q).length
  below : b.bytesInQueueTotal < b.maxBytes

theorem inStep_create : InStep create where
  maxBytes := rfl
  synced := fun _ => synced_create
  perClass := fun _ => rfl
  total := rfl
  nBytes := rfl
  nPackets := rfl
  below := by decide

variable {b : BEgressQueue} {p : Packet} {qIndex : Switch.Class} {paused : Switch.Class → Bool}

theorem InStep.bytesOf_le (h : InStep b) (q : Switch.Class) :
    bytesOf (b.held q) ≤ b.bytesInQueueTotal := by
  rw [h.total]
  exact entry_le_sum (fun q => bytesOf (b.held q)) q

theorem InStep.nPackets_le (h : InStep b) : b.nPackets ≤ b.bytesInQueueTotal := by
  rw [h.nPackets, h.total]
  exact Finset.sum_le_sum fun q _ => length_le_bytesOf (h.synced q).positive

/-- The packets after an `Enqueue` that its inner queue has carried out. -/
theorem held_enqueue {b' : BEgressQueue} {d : DropTailQueue}
    (hqueues : b'.queues = Function.update b.queues qIndex d) (q : Switch.Class) :
    b'.held q = if q = qIndex then d.packets else b.held q := by
  rw [held, hqueues, Function.update_apply]
  split <;> rfl

/-- A table over the classes, of the packets they hold, when one class changes. -/
theorem sum_held (w : List Packet → Nat) {b' : BEgressQueue} {d : DropTailQueue}
    (hqueues : b'.queues = Function.update b.queues qIndex d) :
    ∑ q, w (b'.held q) + w (b.held qIndex) = ∑ q, w (b.held q) + w d.packets := by
  have hself : b'.held qIndex = d.packets := by rw [held_enqueue hqueues, if_pos rfl]
  have hother (q : Switch.Class) (hq : q ≠ qIndex) : w (b'.held q) = w (b.held q) := by
    rw [held_enqueue hqueues, if_neg hq]
  rw [← hself]
  exact @sum_changed _ _ _ (fun q => w (b.held q)) (fun q => w (b'.held q)) qIndex hother

/-- A packet comes in, with a sum that does not wrap and passes the limit. -/
theorem inStep_added (qIndex : Switch.Class) (h : InStep b) (hp : 0 < p.size)
    (hfit : b.bytesInQueueTotal + p.size < b.maxBytes) :
    InStep (b.added qIndex p) ∧
      ∀ q, (b.added qIndex p).held q = if q = qIndex then b.held qIndex ++ [p] else b.held q := by
  have hmax := h.maxBytes
  have hclass := h.bytesOf_le qIndex
  have hcount := h.nPackets_le
  have hsum : u32 (b.bytesInQueueTotal + p.size) = b.bytesInQueueTotal + p.size :=
    u32_of_lt (by omega)
  -- the inner limit is above the outer one
  obtain ⟨-, hpackets, hinner⟩ := (h.synced qIndex).enqueue hp (show bytesOf (b.held qIndex) +
    p.size < 30000 * 65535 by omega)
  have hqueues : (b.added qIndex p).queues =
      Function.update b.queues qIndex ((b.queues qIndex).enqueue p).2 := rfl
  have hheld (q : Switch.Class) :
      (b.added qIndex p).held q = if q = qIndex then b.held qIndex ++ [p] else b.held q := by
    rw [held_enqueue hqueues, hpackets]
    rfl
  have hbytes : ∑ q, bytesOf ((b.added qIndex p).held q) = b.bytesInQueueTotal + p.size := by
    have hchange := sum_held bytesOf hqueues
    have hgrow : bytesOf ((b.queues qIndex).enqueue p).2.packets =
        bytesOf (b.held qIndex) + p.size := by
      rw [hpackets]
      simp [bytesOf, held]
    rw [h.total]
    omega
  refine ⟨⟨hmax, fun q => ?_, fun q => ?_, hsum.trans hbytes.symm, ?_, ?_, ?_⟩, hheld⟩
  · rw [hqueues, Function.update_apply]
    split
    · exact hinner
    · exact h.synced q
  · show Function.update b.bytesInQueue qIndex (u32 (b.bytesInQueue qIndex + p.size)) q = _
    rw [hheld, Function.update_apply, h.perClass qIndex]
    split
    · rw [u32_of_lt (by omega)]
      simp [bytesOf]
    · exact h.perClass q
  · show u32 (b.nBytes + p.size) = _
    rw [h.nBytes, ← h.total, hsum, hbytes]
  · show u32 (b.nPackets + 1) = _
    have hlength := sum_held List.length hqueues
    rw [hpackets, List.length_append, List.length_singleton, ← held] at hlength
    rw [u32_of_lt (by omega), h.nPackets]
    omega
  · show u32 (b.bytesInQueueTotal + p.size) < b.maxBytes
    rw [hsum]
    exact hfit

/-- A packet leaves. -/
theorem inStep_taken (h : InStep b) {packets : List Packet} (hd : b.held qIndex = p :: packets) :
    InStep (b.taken qIndex p) ∧
      ∀ q, (b.taken qIndex p).held q = if q = qIndex then packets else b.held q := by
  have hinner := (h.synced qIndex).dequeue hd
  have hqueues : (b.taken qIndex p).queues =
      Function.update b.queues qIndex (b.queues qIndex).dequeue.2 := rfl
  have hpackets : (b.queues qIndex).dequeue.2.packets = packets := by rw [dequeue_of_cons hd]
  have hheld (q : Switch.Class) :
      (b.taken qIndex p).held q = if q = qIndex then packets else b.held q := by
    rw [held_enqueue hqueues, hpackets]
  have hshrink : bytesOf (b.held qIndex) = p.size + bytesOf packets := by
    rw [hd, bytesOf, total_cons]
  -- the packet is in the total, so that the subtraction does not wrap
  have hbytes : ∑ q, bytesOf ((b.taken qIndex p).held q) + p.size = b.bytesInQueueTotal := by
    have hsum := sum_held bytesOf hqueues
    rw [hpackets] at hsum
    rw [h.total]
    omega
  have hsub : sub32 b.bytesInQueueTotal p.size = ∑ q, bytesOf ((b.taken qIndex p).held q) := by
    rw [sub32_of_le (by omega)]
    omega
  refine ⟨⟨h.maxBytes, fun q => ?_, fun q => ?_, hsub, ?_, ?_, ?_⟩, hheld⟩
  · rw [hqueues, Function.update_apply]
    split
    · exact hinner
    · exact h.synced q
  · show Function.update b.bytesInQueue qIndex (sub32 (b.bytesInQueue qIndex) p.size) q = _
    rw [hheld, Function.update_apply, h.perClass qIndex, hshrink]
    split
    · rw [sub32_of_le (Nat.le_add_right _ _), Nat.add_sub_cancel_left]
    · exact h.perClass q
  · show sub32 b.nBytes p.size = _
    rw [h.nBytes, ← h.total, hsub]
  · show sub32 b.nPackets 1 = _
    have hlength := sum_held List.length hqueues
    rw [hpackets, hd, List.length_cons] at hlength
    rw [h.nPackets, sub32_of_le (by omega)]
    omega
  · show sub32 b.bytesInQueueTotal p.size < b.maxBytes
    have hbelow := h.below
    rw [hsub]
    omega

/-! ## The service rule -/

/-- What is asked of a `DequeueRR`: class 0 first, whatever is paused; no paused class else;
nothing only when nothing may go; and always the first packet of a class. -/
structure Serves (b : BEgressQueue) (paused : Switch.Class → Bool) : Prop where
  defined : ∃ out b', b.dequeueRR paused = some (out, b')
  first : ∀ p packets, b.held 0 = p :: packets →
    ∃ b', b.dequeueRR paused = some (some p, b') ∧ b'.qlast = 0
  head : ∀ p b', b.dequeueRR paused = some (some p, b') →
    (b'.qlast = 0 ∨ paused b'.qlast = false) ∧ ∃ packets, b.held b'.qlast = p :: packets
  nothing : (∃ b', b.dequeueRR paused = some (none, b')) ↔
    b.held 0 = [] ∧ ∀ q, q ≠ 0 → b.held q ≠ [] → paused q = true

theorem InStep.held_eq_nil (h : InStep b) (hempty : b.bytesInQueueTotal = 0) (q : Switch.Class) :
    b.held q = [] := by
  have hbytes := h.bytesOf_le q
  have hlength := length_le_bytesOf (h.synced q).positive
  rw [← held] at hlength
  exact List.eq_nil_of_length_eq_zero (by omega)

theorem InStep.total_ne_zero (h : InStep b) {q : Switch.Class} (hq : b.held q ≠ []) :
    b.bytesInQueueTotal ≠ 0 := fun hempty => hq (h.held_eq_nil hempty q)

theorem InStep.getNPackets_pos_iff (h : InStep b) (q : Switch.Class) :
    0 < (b.queues q).getNPackets ↔ b.held q ≠ [] := (h.synced q).getNPackets_pos_iff

theorem InStep.found_eq_none_iff (h : InStep b) : b.found paused = none ↔
    b.held 0 = [] ∧ ∀ q, q ≠ 0 → b.held q ≠ [] → paused q = true := by
  rw [BEgressQueue.found_eq_none_iff]
  simp only [h.getNPackets_pos_iff]
  have hzero := h.getNPackets_pos_iff 0
  rw [Nat.pos_iff_ne_zero] at hzero
  exact and_congr_left fun _ => not_iff_not.mp hzero

/-- With the counters in step a `DequeueRR` does what the class it finds calls for. -/
theorem InStep.dequeueRR_eq (h : InStep b) (paused : Switch.Class → Bool) :
    b.dequeueRR paused =
      match b.found paused with
      | none => some (none, b)
      | some qIndex => (b.held qIndex).head?.map fun p => (some p, b.taken qIndex p) := by
  unfold dequeueRR doDequeueRR
  split
  · next hempty =>
    have hnone : b.found paused = none := h.found_eq_none_iff.mpr
      ⟨h.held_eq_nil hempty 0, fun q _ hq => absurd (h.held_eq_nil hempty q) hq⟩
    rw [hnone]
    rfl
  · cases hfound : b.found paused with
    | none => rfl
    | some qIndex =>
      cases hd : b.held qIndex with
      | nil =>
        have hpos := (h.getNPackets_pos_iff qIndex).mp (found_eq_some hfound).1
        exact absurd hd hpos
      | cons p packets =>
        have hdeq := dequeue_of_cons hd
        simp only [hdeq, hd, Option.map_some, List.head?_cons, taken]

theorem InStep.serves (h : InStep b) (paused : Switch.Class → Bool) : Serves b paused := by
  have heq := h.dequeueRR_eq paused
  cases hfound : b.found paused with
  | none =>
    rw [hfound] at heq
    have hnothing := h.found_eq_none_iff.mp hfound
    refine ⟨⟨_, _, heq⟩, fun p packets hp => ?_, fun p b' hb' => ?_, fun _ => hnothing,
      fun _ => ⟨_, heq⟩⟩
    · rw [hnothing.1] at hp
      cases hp
    · rw [heq] at hb'
      cases hb'
  | some qIndex =>
    obtain ⟨hpos, hallowed⟩ := found_eq_some hfound
    obtain ⟨p₀, packets₀, hd⟩ := List.exists_cons_of_ne_nil ((h.getNPackets_pos_iff _).mp hpos)
    simp only [hfound, hd, List.head?_cons, Option.map_some] at heq
    refine ⟨⟨_, _, heq⟩, fun p packets hp => ?_, fun p b' hb' => ?_, ⟨?_, fun hnothing => ?_⟩⟩
    · have hzero : 0 < (b.queues 0).getNPackets :=
        (h.getNPackets_pos_iff 0).mpr (by rw [hp]; exact List.cons_ne_nil _ _)
      rw [found, if_pos hzero] at hfound
      obtain rfl : 0 = qIndex := Option.some.inj hfound
      obtain ⟨rfl, -⟩ := List.cons.inj (hp.symm.trans hd)
      exact ⟨_, heq, rfl⟩
    · rw [heq] at hb'
      cases hb'
      exact ⟨hallowed, packets₀, hd⟩
    · rintro ⟨b', hb'⟩
      rw [heq] at hb'
      cases hb'
    · rw [h.found_eq_none_iff.mpr hnothing] at hfound
      cases hfound

/-! ## The switch's view -/

/-- What `Switch.BEgressQueue` keeps. -/
def forget (b : BEgressQueue) : Switch.BEgressQueue :=
  { maxBytes := b.maxBytes, queues := b.held, bytesInQueue := b.bytesInQueue,
    bytesInQueueTotal := b.bytesInQueueTotal, rrlast := b.rrlast, qlast := b.qlast }

theorem forget_enqueue (h : InStep b) (hp : 0 < p.size)
    (hexact : b.bytesInQueueTotal + p.size < 2 ^ 32) :
    b.forget.enqueue p qIndex =
      if (b.enqueue p qIndex).1 then some (b.enqueue p qIndex).2.forget else none := by
  unfold Switch.BEgressQueue.enqueue Switch.BEgressQueue.accepts
  rcases Nat.lt_or_ge (u32 (b.bytesInQueueTotal + p.size)) b.maxBytes with hfit | hfull
  · have haccepts : decide (u32 (b.forget.bytesInQueueTotal + p.size) < b.forget.maxBytes) = true :=
      decide_eq_true hfit
    have hheld := (inStep_added qIndex h hp (by rwa [u32_of_lt hexact] at hfit)).2
    rw [enqueue_of_fits qIndex hfit, if_pos rfl, if_pos haccepts]
    refine congrArg some ?_
    simp only [forget, added, Switch.BEgressQueue.mk.injEq, and_true, true_and]
    refine funext fun q => ?_
    rw [Function.update_apply]
    exact (hheld q).symm
  · have hrefuses :
        ¬decide (u32 (b.forget.bytesInQueueTotal + p.size) < b.forget.maxBytes) = true :=
      fun h => Nat.not_lt_of_le hfull (of_decide_eq_true h)
    rw [enqueue_of_full qIndex (Nat.not_lt_of_le hfull), if_neg Bool.false_ne_true, if_neg hrefuses]

theorem InStep.forget_nextQueue (h : InStep b) (paused : Switch.Class → Bool) :
    b.forget.nextQueue paused = b.found paused := by
  have hpos (q : Switch.Class) : (b.held q != []) = decide (0 < (b.queues q).getNPackets) := by
    rw [Bool.eq_iff_iff, bne_iff_ne, decide_eq_true_eq, h.getNPackets_pos_iff]
  unfold Switch.BEgressQueue.nextQueue found
  refine if_congr (h.getNPackets_pos_iff 0).symm rfl ?_
  refine congrArg (fun f => List.find? f _) (funext fun q => ?_)
  exact congrArg (!paused q && ·) (hpos q)

theorem forget_dequeueRR (h : InStep b) (paused : Switch.Class → Bool) :
    b.forget.dequeueRR paused =
      (b.dequeueRR paused).bind fun (out, b') => out.map fun p => (p, b'.forget) := by
  unfold Switch.BEgressQueue.dequeueRR
  rw [h.dequeueRR_eq paused, h.forget_nextQueue]
  cases hfound : b.found paused with
  | none => exact ite_self none
  | some qIndex =>
    have hpos := (h.getNPackets_pos_iff qIndex).mp (found_eq_some hfound).1
    have htotal : b.forget.bytesInQueueTotal ≠ 0 := h.total_ne_zero hpos
    rw [if_neg htotal]
    obtain ⟨p, packets, hd⟩ := List.exists_cons_of_ne_nil hpos
    have hheld := (inStep_taken h hd).2
    have hview : b.forget.queues qIndex = p :: packets := hd
    simp only [hview, hd, List.head?_cons, Option.map_some, Option.bind_some, Option.some.injEq,
      Prod.mk.injEq, true_and]
    simp only [forget, taken, Switch.BEgressQueue.pop, Switch.BEgressQueue.mk.injEq, and_true,
      true_and]
    refine funext fun q => ?_
    rw [Function.update_apply]
    exact (hheld q).symm

end BEgressQueue

/-! ## Runs -/

namespace Traffic

open BEgressQueue

/-- The counters agree with the packets held, and in each class the packets held are those
that came and have not left, in order. -/
structure Conserved (s : Traffic) : Prop where
  total_eq_sum : s.queue.bytesInQueueTotal = ∑ q, s.queue.bytesInQueue q
  total_eq_nBytes : s.queue.bytesInQueueTotal = s.queue.nBytes
  total_eq_held : s.queue.bytesInQueueTotal = ∑ q, bytesOf (s.queue.held q)
  class_eq_held : ∀ q, s.queue.bytesInQueue q = bytesOf (s.queue.held q)
  nPackets_eq_held : s.queue.nPackets = ∑ q, (s.queue.held q).length
  fifo : ∀ q, s.arrived q = s.departed q ++ s.queue.held q

/-- The 32-bit sum that `DoEnqueue` compares with its limit is the sum, or is refused. -/
def Exact (s : Traffic) : Call → Prop
  | .enqueue p _ => s.queue.bytesInQueueTotal + p.size < 2 ^ 32 ∨
      s.queue.maxBytes ≤ u32 (s.queue.bytesInQueueTotal + p.size)
  | .dequeueRR _ => True

structure Good (s : Traffic) : Prop where
  inStep : InStep s.queue
  fifo : ∀ q, s.arrived q = s.departed q ++ s.queue.held q

variable {s t : Traffic} {c : Call}

theorem Good.conserved (h : Good s) : Conserved s where
  total_eq_sum := h.inStep.total.trans
    (Finset.sum_congr rfl fun q _ => (h.inStep.perClass q).symm)
  total_eq_nBytes := h.inStep.total.trans h.inStep.nBytes.symm
  total_eq_held := h.inStep.total
  class_eq_held := h.inStep.perClass
  nPackets_eq_held := h.inStep.nPackets
  fifo := h.fifo

theorem good_start : Good start where
  inStep := inStep_create
  fifo := fun _ => rfl

/-- An `Enqueue` whose packet is added, whatever the inner queue does with it, or refused. -/
theorem step_enqueue (s : Traffic) {p : Packet} (qIndex : Switch.Class)
    (hsize : 0 < p.size ∧ p.size < 2 ^ 32) :
    step s (.enqueue p qIndex) =
      if u32 (s.queue.bytesInQueueTotal + p.size) < s.queue.maxBytes then
        some { s with
          queue := s.queue.added qIndex p
          arrived := Function.update s.arrived qIndex (s.arrived qIndex ++ [p]) }
      else some s := by
  rw [step, if_pos hsize]
  split_ifs with hfit
  · rw [enqueue_of_fits qIndex hfit]
  · rw [enqueue_of_full qIndex hfit]

theorem size_of_enqueue {p : Packet} {qIndex : Switch.Class}
    (hstep : step s (.enqueue p qIndex) = some t) :
    0 < p.size ∧ p.size < 2 ^ 32 := by
  rw [step] at hstep
  split at hstep
  · next hsize => exact hsize
  · cases hstep

theorem good_step (h : Good s) (hexact : Exact s c) (hstep : step s c = some t) : Good t := by
  cases c with
  | enqueue p qIndex =>
    have hsize := size_of_enqueue hstep
    rw [step_enqueue s qIndex hsize] at hstep
    split at hstep
    · next hfit =>
      cases hstep
      -- the sum that is compared with the limit is exact
      have hsum : u32 (s.queue.bytesInQueueTotal + p.size) = s.queue.bytesInQueueTotal + p.size :=
        u32_of_lt (hexact.resolve_right (Nat.not_le_of_lt hfit))
      obtain ⟨hin, hheld⟩ := inStep_added qIndex h.inStep hsize.1 (hsum ▸ hfit)
      refine ⟨hin, fun q => ?_⟩
      show Function.update s.arrived qIndex (s.arrived qIndex ++ [p]) q = _
      rw [hheld, Function.update_apply, h.fifo qIndex]
      split
      · next hq => rw [hq, List.append_assoc]
      · exact h.fifo q
    · cases hstep
      exact h
  | dequeueRR paused =>
    simp only [step] at hstep
    cases hdeq : s.queue.dequeueRR paused with
    | none => simp [hdeq] at hstep
    | some result =>
      obtain ⟨out, queue⟩ := result
      rcases dequeueRR_cases hdeq with ⟨rfl, rfl, -⟩ | ⟨qIndex, p, packets, rfl, rfl, -, hd⟩
      · rw [hdeq] at hstep
        cases hstep
        exact h
      · rw [hdeq] at hstep
        cases hstep
        obtain ⟨hin, hheld⟩ := inStep_taken h.inStep hd
        refine ⟨hin, fun q => ?_⟩
        show s.arrived q = Function.update s.departed qIndex (s.departed qIndex ++ [p]) q ++ _
        rw [hheld, Function.update_apply, h.fifo q]
        split
        · next hq =>
          rw [hq, List.append_assoc]
          exact congrArg (s.departed qIndex ++ ·) hd
        · rfl

/-- A sum that wraps and passes the limit is not the number of bytes held, whether the inner
queue takes the packet or not. -/
theorem exact_of_conserved (hs : Conserved s) (ht : Conserved t) (hstep : step s c = some t) :
    Exact s c := by
  cases c with
  | dequeueRR paused => trivial
  | enqueue p qIndex =>
    have hsize := size_of_enqueue hstep
    rw [step_enqueue s qIndex hsize] at hstep
    split at hstep
    · left
      cases hstep
      have htotal : u32 (s.queue.bytesInQueueTotal + p.size) =
        ∑ q, bytesOf ((s.queue.added qIndex p).held q) := ht.total_eq_held
      have hqueues : (s.queue.added qIndex p).queues =
        Function.update s.queue.queues qIndex ((s.queue.queues qIndex).enqueue p).2 := rfl
      have hchange := sum_held bytesOf hqueues
      have hheld := hs.total_eq_held
      have hinner : bytesOf ((s.queue.queues qIndex).enqueue p).2.packets =
          bytesOf (s.queue.held qIndex) ∨
          bytesOf ((s.queue.queues qIndex).enqueue p).2.packets =
            bytesOf (s.queue.held qIndex) + p.size := by
        rcases (s.queue.queues qIndex).enqueue_packets p with heq | heq
        · exact .inl (congrArg bytesOf heq)
        · right
          rw [heq]
          simp [bytesOf, held]
      unfold u32 at htotal
      omega
    · next hfull => exact .inr (Nat.le_of_not_lt hfull)

/-- A run conserves the packets and serves the classes as it should exactly as long as no
`Enqueue` passes the limit with a sum that has wrapped. -/
theorem conserved_iff (calls : List Call) :
    Always step (fun s => Conserved s ∧ ∀ paused, Serves s.queue paused) start calls ↔
      Guarded step Exact start calls := by
  constructor
  · intro h
    exact guarded_of_always (fun _ _ _ hs ht hstep => exact_of_conserved hs.1 ht.1 hstep) h
  · intro h
    have hgood : Always step Good start calls :=
      always_of_guarded (fun _ _ _ hs hexact hstep => good_step hs hexact hstep) good_start h
    exact hgood.mono fun _ hs => ⟨hs.conserved, hs.inStep.serves⟩

/-- Two packets whose sizes add up to `2 ^ 32`: `Enqueue` returns true for the second, its
inner queue has dropped it, and the total is 0 with the first still there. -/
theorem wrapped_sum_loses_packet :
    ∃ s, run step start [.enqueue { size := 1000000000 } 1, .enqueue { size := 3294967296 } 2] =
        some s ∧
      s.arrived 2 = [{ size := 3294967296 }] ∧ s.departed 2 = [] ∧ s.queue.held 2 = [] ∧
      s.queue.held 1 = [{ size := 1000000000 }] ∧ s.queue.bytesInQueueTotal = 0 ∧
      ¬Conserved s := by
  let s₁ : Traffic := { start with
    queue := start.queue.added 1 { size := 1000000000 }
    arrived := Function.update start.arrived 1 [{ size := 1000000000 }] }
  let s₂ : Traffic := { s₁ with
    queue := s₁.queue.added 2 { size := 3294967296 }
    arrived := Function.update s₁.arrived 2 [{ size := 3294967296 }] }
  have h₁ : step start (.enqueue { size := 1000000000 } 1) = some s₁ :=
    (step_enqueue start 1 (by decide)).trans (if_pos (by decide))
  have h₂ : step s₁ (.enqueue { size := 3294967296 } 2) = some s₂ :=
    (step_enqueue s₁ 2 (by decide)).trans (if_pos (by decide))
  refine ⟨s₂, ?_, rfl, rfl, by decide, by decide, by decide, fun h => ?_⟩
  · rw [run, h₁, Option.bind_some, run, h₂, Option.bind_some, run]
  · have hfifo := h.fifo 2
    revert hfifo
    decide

end Traffic

end Paraleon.Utils
