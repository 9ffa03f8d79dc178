import Paraleon.Library.RoundRobin
import Paraleon.Utils.Conservation

/-!
# No class waits for two turns of another

The scan of `DoDequeueRR` starts behind `m_rrlast`, which follows every class it serves but
class 0. Seen from there, the class that is served goes behind all others, and the classes it
was served before, those passed over included, keep their order. Nothing is asked of the
counters: `fair` holds in runs that lose packets too.
-/

namespace Paraleon.Utils.Traffic

open Switch Runs RoundRobin BEgressQueue

/-- The class in 1..7 that a call serves. -/
def served (s : Traffic) : Call → Option Switch.Class
  | .enqueue _ _ => none
  | .dequeueRR paused =>
    match s.queue.dequeueRR paused with
    | some (some _, queue) => if queue.qlast ≠ 0 then some queue.qlast else none
    | _ => none

/-- When a packet is to be chosen, class `c` holds one and is not paused. -/
def Ready (c : Switch.Class) (s : Traffic) : Call → Prop
  | .enqueue _ _ => True
  | .dequeueRR paused => 0 < (s.queue.queues c).getNPackets ∧ paused c = false

variable {s t : Traffic} {c : Switch.Class} {call : Call}

theorem nodup_scanned (rrlast : Switch.Class) : (scanned rrlast).Nodup := by
  revert rrlast
  decide

theorem scanned_eq_upcoming (rrlast : Switch.Class) :
    scanned rrlast = upcoming (List.finRange 8) (rrlast.val + 1) := by
  revert rrlast
  decide

/-- One call as a waiting class sees it. -/
theorem waits_step (hready : Ready c s call) (hnot : s.served call ≠ some c)
    (hstep : step s call = some t) :
    Waits c (scanned s.queue.rrlast) (s.served call) (scanned t.queue.rrlast) := by
  cases call with
  | enqueue p qIndex =>
    -- an enqueue does not move the scan
    have hrr : t.queue.rrlast = s.queue.rrlast := by
      rw [step_enqueue s qIndex (size_of_enqueue hstep)] at hstep
      split at hstep
      · cases hstep; rfl
      · cases hstep; rfl
    rw [hrr]
    exact waits_refl c _
  | dequeueRR paused =>
    simp only [step] at hstep
    cases hdeq : s.queue.dequeueRR paused with
    | none => simp [hdeq] at hstep
    | some result =>
      obtain ⟨out, queue⟩ := result
      have hserved : s.served (.dequeueRR paused) =
          if out.isSome ∧ queue.qlast ≠ 0 then some queue.qlast else none := by
        rw [served, hdeq]
        cases out <;> simp
      have hqueue : t.queue = queue := by
        rw [hdeq] at hstep
        cases out <;> (cases hstep; rfl)
      rw [hserved] at hnot ⊢
      rw [hqueue]
      rcases dequeueRR_cases hdeq with ⟨rfl, rfl, -⟩ | ⟨qIndex, p, packets, rfl, rfl, hfound, -⟩
      · exact waits_refl c _
      rcases eq_or_ne qIndex 0 with rfl | hzero
      · -- class 0 does not move the scan
        simp only [taken, ne_eq, not_true_eq_false, and_false, if_false]
        exact waits_refl c _
      · simp only [taken, Option.isSome_some, true_and, if_pos hzero] at hnot ⊢
        have hne : qIndex ≠ c := fun h => hnot (congrArg some h)
        unfold found at hfound
        split at hfound
        · cases hfound
          exact absurd rfl hzero
        · obtain ⟨-, l₁, l₂, hsplit, hpassed⟩ := List.find?_eq_some_iff_append.mp hfound
          -- the waiting class is ready, so that the scan cannot have passed it
          have hc : c ∉ l₁ := fun hmem => by
            have := hpassed c hmem
            simp [hready.1, hready.2] at this
          have hafter : scanned qIndex = l₂ ++ l₁ ++ [qIndex] := by
            rw [scanned_eq_upcoming] at hsplit ⊢
            exact upcoming_after (List.nodup_finRange 8) (by simp) hsplit
          have hnodup := nodup_scanned s.queue.rrlast
          rw [hsplit] at hnodup ⊢
          exact waits_pass hnodup hc hne (hafter ▸ List.Sublist.refl _) (mem_scanned _ c)
            (mem_scanned _ qIndex)

/-- While a class holds packets and is not paused whenever a packet is to be chosen, no other
class in 1..7 has two turns before its next one. -/
theorem fair (c c' : Switch.Class) {calls : List Call} (hrun : run step s calls = some t)
    (hready : Guarded step (Ready c) s calls)
    (hwait : Guarded step (fun s call => s.served call ≠ some c) s calls) :
    turns step served c' s calls ≤ 1 :=
  served_le_one (fun s => scanned s.queue.rrlast) (fun _ => True) (fun _ => True) (fun _ => True)
    (fun _ _ _ _ _ => trivial) (fun _ _ _ _ _ _ _ => trivial)
    (fun s _ _ _ _ _ => ⟨trivial, fun _ => mem_scanned s.queue.rrlast c'⟩) (fun _ _ _ => trivial)
    (fun _ _ _ _ _ hG hstep => waits_step hG.1 hG.2 hstep)
    (fun _ _ _ _ hG hstep hserved =>
      have hturn := (waits_step hG.1 hG.2 hstep).turn c' hserved
      ⟨trivial, hturn.1, hturn.2.2⟩)
    trivial hrun (hready.and hwait)

/-- Switch.Class 1 has just had its turn, and classes 1 and 2 hold two packets each. -/
def twoClasses : Traffic := { start with
  queue := ((({ BEgressQueue.create with rrlast := 1 }.added 1 { size := 100 }).added 1
    { size := 200 }).added 2 { size := 300 }).added 2 { size := 400 } }

theorem fair_twoClasses : turns step served 2 twoClasses [.dequeueRR fun _ => false] ≤ 1 := by
  have hfirst : twoClasses.served (.dequeueRR fun _ => false) = some 2 := by decide
  refine fair 1 2 (t := (twoClasses.step (.dequeueRR fun _ => false)).get (by decide)) ?_ ?_ ?_
  · simp [run]
  · exact fun t ht => ⟨⟨by decide, rfl⟩, trivial⟩
  · refine fun t ht => ⟨?_, trivial⟩
    show twoClasses.served (.dequeueRR fun _ => false) ≠ some 1
    rw [hfirst]
    decide

end Paraleon.Utils.Traffic
