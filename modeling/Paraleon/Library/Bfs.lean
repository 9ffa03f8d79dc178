import Mathlib.Data.List.Basic
import Mathlib.Data.List.Nodup
import Mathlib.Data.List.Perm.Subperm
import Mathlib.Data.Nat.Find
import Mathlib.Logic.Function.Basic

/-!
# Breadth-first search with restricted transit

A search from a source over `adj`, in which a path may only pass through nodes that
are fit for `transit`. Beside the distances it collects, for each node, the nodes from
which it was reached on a shortest path: the next hops on the way back.

* `dis_search_iff`: the distances are those of the shortest paths.
* `mem_next_search_iff`: the next hops are all those that are one step nearer.
* `Dist.of_chain`: who goes to a nearer node with each step comes to the source
  without loops.
-/

namespace Bfs

open Function

variable {V : Type*} (adj : V → List V) (transit : V → Bool) (source : V)

/-! ## Paths -/

/-- Some path of `k` steps leads from the source to `v`, and the nodes between them are
fit for transit. -/
inductive Hops : Nat → V → Prop
  | source : Hops 0 source
  | first {v : V} : v ∈ adj source → Hops 1 v
  | through {k : Nat} {m v : V} : Hops k m → transit m = true → v ∈ adj m → Hops (k + 1) v

/-- A shortest path to `v` has `d` steps. -/
def Dist (v : V) (d : Nat) : Prop :=
  Hops adj transit source d v ∧ ∀ k, Hops adj transit source k v → d ≤ k

/-- A path may go on from `m`. -/
def Relays (m : V) : Prop := m = source ∨ transit m = true

section Dist

variable {adj transit source} {v : V} {d e : Nat}

theorem Dist.unique (h : Dist adj transit source v d) (h' : Dist adj transit source v e) :
    d = e := Nat.le_antisymm (h.2 e h'.1) (h'.2 d h.1)

theorem dist_zero_iff : Dist adj transit source v 0 ↔ v = source := by
  constructor
  · rintro ⟨h, -⟩
    cases h
    rfl
  · rintro rfl
    exact ⟨.source, fun k _ => Nat.zero_le k⟩

theorem exists_dist {k : Nat} (h : Hops adj transit source k v) :
    ∃ d, Dist adj transit source v d := by
  classical
  have hex : ∃ k, Hops adj transit source k v := ⟨k, h⟩
  exact ⟨Nat.find hex, Nat.find_spec hex, fun j hj => Nat.find_min' hex hj⟩

/-- A shortest path goes through a node that is one step nearer. -/
theorem Dist.exists_nearer (h : Dist adj transit source v (d + 1)) :
    ∃ m, Relays transit source m ∧ v ∈ adj m ∧ Dist adj transit source m d := by
  obtain ⟨hops, hleast⟩ := h
  cases hops with
  | first hv => exact ⟨source, .inl rfl, hv, dist_zero_iff.mpr rfl⟩
  | @through _ m _ hops htransit hv =>
    refine ⟨m, .inr htransit, hv, hops, ?_⟩
    intro k hk
    exact Nat.le_of_succ_le_succ (hleast (k + 1) (.through hk htransit hv))

/-- `m` is one step nearer to the source than `v`. -/
def Nearer (adj : V → List V) (transit : V → Bool) (source v m : V) : Prop :=
  ∃ d, Dist adj transit source m d ∧ Dist adj transit source v (d + 1)

/-- Who goes to a nearer node with each step meets no node twice, is at the source after
as many steps as it was away from it, and not before. -/
theorem Dist.of_chain {route : List V} (hv : Dist adj transit source v d)
    (hroute : List.IsChain (Nearer adj transit source) (v :: route)) :
    (v :: route).Nodup ∧ (∀ m ∈ route, ∃ e < d, Dist adj transit source m e) ∧
      ∃ left, Dist adj transit source ((v :: route).getLast (List.cons_ne_nil v route)) left ∧
        route.length + left = d := by
  induction route generalizing v d with
  | nil => exact ⟨List.nodup_singleton v, by simp, d, hv, Nat.zero_add d⟩
  | cons m rest ih =>
    obtain ⟨⟨e, hm, hv'⟩, hrest⟩ := List.isChain_cons_cons.mp hroute
    obtain rfl : d = e + 1 := hv.unique hv'
    obtain ⟨hnodup, hnearer, left, hlast, hlen⟩ := ih hm hrest
    have hall : ∀ m' ∈ m :: rest, ∃ e' < e + 1, Dist adj transit source m' e' := by
      intro m' hm'
      rcases List.mem_cons.mp hm' with rfl | hm'
      · exact ⟨e, Nat.lt_succ_self e, hm⟩
      · obtain ⟨e', hlt, he'⟩ := hnearer m' hm'
        exact ⟨e', Nat.lt_succ_of_lt hlt, he'⟩
    refine ⟨List.nodup_cons.mpr ⟨?_, hnodup⟩, hall, left, ?_, ?_⟩
    · intro hmem
      obtain ⟨e', hlt, he'⟩ := hall v hmem
      exact absurd (hv.unique he') (Nat.ne_of_gt hlt)
    · rwa [List.getLast_cons (List.cons_ne_nil m rest)]
    · rw [List.length_cons, Nat.add_right_comm, hlen]

end Dist

/-! ## The search -/

/-- `pending` is the queue, `dis` the distances found so far. -/
structure State (V : Type*) where
  pending : List V
  dis : V → Option Nat
  next : V → List V

def start [DecidableEq V] : State V :=
  { pending := [source], dis := update (fun _ => none) source (some 0), next := fun _ => [] }

/-- A neighbour `v` of `now`, which is at distance `d`. -/
def visit [DecidableEq V] (now : V) (d : Nat) (s : State V) (v : V) : State V :=
  let s :=
    if s.dis v = none then
      { s with dis := update s.dis v (some (d + 1))
               pending := if transit v then s.pending ++ [v] else s.pending }
    else s
  if s.dis v = some (d + 1) then { s with next := update s.next v (s.next v ++ [now]) } else s

/-- The search takes at most `fuel` nodes from the queue. -/
def search [DecidableEq V] : Nat → State V → State V
  | 0, s => s
  | fuel + 1, s =>
    match s.pending with
    | [] => s
    | now :: pending =>
      match s.dis now with
      | none => s
      | some d => search fuel ((adj now).foldl (visit transit now d) { s with pending })

variable {adj transit source}

/-! ## What one turn does -/

section Visit

variable [DecidableEq V] {now v w : V} {d : Nat} {s : State V}

theorem dis_visit :
    (visit transit now d s w).dis v = if s.dis v = none ∧ v = w then some (d + 1) else s.dis v := by
  have hdis : (visit transit now d s w).dis =
      if s.dis w = none then update s.dis w (some (d + 1)) else s.dis := by
    simp only [visit]
    split_ifs <;> rfl
  rw [hdis]
  rcases eq_or_ne v w with rfl | hne
  · split_ifs with h₁ h₂ <;> simp_all
  · split_ifs <;> simp_all

theorem pending_visit :
    (visit transit now d s w).pending =
      s.pending ++ [w].filter fun v => decide (s.dis v = none) && transit v := by
  simp only [visit]
  split_ifs <;> simp_all

theorem next_visit :
    (visit transit now d s w).next v =
      if v = w ∧ (s.dis v = none ∨ s.dis v = some (d + 1)) then s.next v ++ [now]
      else s.next v := by
  simp only [visit]
  rcases eq_or_ne v w with rfl | hne
  · split_ifs <;> simp_all
  · split_ifs <;> simp_all

/-- `s'` is what the turn of `now`, which is at distance `d`, leaves of `s`. -/
structure Turned (adj : V → List V) (transit : V → Bool) (now : V) (d : Nat) (s s' : State V) :
    Prop where
  dis : ∀ v, s'.dis v = if s.dis v = none ∧ v ∈ adj now then some (d + 1) else s.dis v
  pending : s'.pending =
    s.pending ++ (adj now).filter fun v => decide (s.dis v = none) && transit v
  next : ∀ v, s'.next v =
    if v ∈ adj now ∧ (s.dis v = none ∨ s.dis v = some (d + 1)) then s.next v ++ [now]
    else s.next v

variable (transit now d) in
/-- The neighbours of `now` in one turn. -/
theorem foldl_visit (L : List V) (hL : L.Nodup) (s : State V) :
    Turned (fun _ => L) transit now d s (L.foldl (visit transit now d) s) := by
  induction L generalizing s with
  | nil => constructor <;> simp
  | cons w rest ih =>
    obtain ⟨hw, hrest⟩ := List.nodup_cons.mp hL
    obtain ⟨hdis, hpending, hnext⟩ := ih hrest (visit transit now d s w)
    rw [List.foldl_cons]
    constructor
    case dis =>
      intro v
      rw [hdis, dis_visit]
      rcases eq_or_ne v w with rfl | hne
      · split_ifs <;> simp_all
      · simp [hne]
    case pending =>
      have hfilter : rest.filter (fun v =>
          decide ((visit transit now d s w).dis v = none) && transit v) =
            rest.filter (fun v => decide (s.dis v = none) && transit v) := by
        refine List.filter_congr fun v hv => ?_
        have hne : v ≠ w := fun heq => hw (heq ▸ hv)
        rw [dis_visit, if_neg fun h => hne h.2]
      rw [hpending, hfilter, pending_visit, List.append_assoc, ← List.filter_append,
        List.singleton_append]
    case next =>
      intro v
      rw [hnext, dis_visit, next_visit]
      rcases eq_or_ne v w with rfl | hne
      · simp [hw]
      · simp [hne]

end Visit

/-! ## The state of a search -/

/-- `done` are the nodes that have been taken from the queue. -/
structure Searching (adj : V → List V) (transit : V → Bool) (source : V) (done : List V)
    (s : State V) : Prop where
  dis_source : s.dis source = some 0
  sound : ∀ v d, s.dis v = some d → Hops adj transit source d v
  nodup : (done ++ s.pending).Nodup
  queued : ∀ v, v ∈ done ++ s.pending ↔ Relays transit source v ∧ ∃ d, s.dis v = some d
  sorted : s.pending.Pairwise fun a b =>
    ∀ i j, s.dis a = some i → s.dis b = some j → i ≤ j
  near : ∀ v d, s.dis v = some d → ∀ q ∈ s.pending, ∀ i, s.dis q = some i → d ≤ i + 1
  closed : ∀ m ∈ done, ∀ v ∈ adj m, ∀ i, s.dis m = some i →
    ∃ d, s.dis v = some d ∧ d ≤ i + 1
  mem_next : ∀ v m, m ∈ s.next v ↔
    m ∈ done ∧ v ∈ adj m ∧ ∃ d, s.dis m = some d ∧ s.dis v = some (d + 1)
  nodup_next : ∀ v, (s.next v).Nodup

theorem searching_start [DecidableEq V] : Searching adj transit source [] (start source) := by
  have hdis : ∀ v d, (start source).dis v = some d → v = source ∧ d = 0 := by
    intro v d hd
    rcases eq_or_ne v source with rfl | hne
    · exact ⟨rfl, by simpa [start, eq_comm] using hd⟩
    · simp [start, hne] at hd
  constructor
  case dis_source => simp [start]
  case sound =>
    intro v d hd
    obtain ⟨rfl, rfl⟩ := hdis v d hd
    exact .source
  case nodup => simp [start]
  case queued =>
    intro v
    constructor
    · intro hv
      obtain rfl : v = source := by simpa [start] using hv
      exact ⟨.inl rfl, 0, by simp [start]⟩
    · rintro ⟨-, d, hd⟩
      simp [start, (hdis v d hd).1]
  case sorted => simp [start]
  case near =>
    intro v d hd q hq i hi
    rw [(hdis v d hd).2]
    exact Nat.zero_le _
  case closed => exact fun m hm => absurd hm List.not_mem_nil
  case mem_next => simp [start]
  case nodup_next => simp [start]

/-- A path to `now` goes on to its neighbours. -/
theorem Hops.extend {now v : V} {d : Nat} (h : Hops adj transit source d now)
    (hzero : now = source → d = 0) (hrelays : Relays transit source now) (hv : v ∈ adj now) :
    Hops adj transit source (d + 1) v := by
  rcases hrelays with rfl | htransit
  · rw [hzero rfl]
    exact .first hv
  · exact .through h htransit hv

section Turn

variable [DecidableEq V] {done pending : List V} {now v : V} {d i : Nat} {s s' : State V}

/-! What is known stays, and what is new is at distance `d + 1`. -/

theorem Turned.kept (ht : Turned adj transit now d { s with pending } s')
    (hi : s.dis v = some i) : s'.dis v = some i := by
  rw [ht.dis, if_neg fun hx => by simp [hi] at hx]
  exact hi

theorem Turned.fresh (ht : Turned adj transit now d { s with pending } s')
    (hnone : s.dis v = none) (hv : v ∈ adj now) : s'.dis v = some (d + 1) := by
  rw [ht.dis, if_pos ⟨hnone, hv⟩]

theorem Turned.cases (ht : Turned adj transit now d { s with pending } s')
    (hi : s'.dis v = some i) :
    s.dis v = some i ∨ (s.dis v = none ∧ v ∈ adj now ∧ i = d + 1) := by
  rw [ht.dis] at hi
  split at hi
  · next hnew => exact .inr ⟨hnew.1, hnew.2, (Option.some.inj hi).symm⟩
  · exact .inl hi

omit [DecidableEq V] in
theorem mem_fresh (hv : v ∈ (adj now).filter fun v => decide (s.dis v = none) && transit v) :
    v ∈ adj now ∧ s.dis v = none ∧ transit v = true := by
  simpa using hv

theorem Turned.mem_next {m : V} (ht : Turned adj transit now d { s with pending } s') :
    m ∈ s'.next v ↔ m ∈ s.next v ∨
      (m = now ∧ v ∈ adj now ∧ (s.dis v = none ∨ s.dis v = some (d + 1))) := by
  rw [ht.next]
  split
  · next hv => simp [hv]
  · next hv => simp [hv]

theorem Turned.queue (ht : Turned adj transit now d { s with pending } s')
    (hs : s.pending = now :: pending) : done ++ [now] ++ s'.pending = done ++ s.pending ++
      (adj now).filter fun v => decide (s.dis v = none) && transit v := by
  rw [hs, ht.pending]
  simp

theorem Searching.known (h : Searching adj transit source done s)
    (ht : Turned adj transit now d { s with pending } s') (hv : v ∈ done ++ s.pending)
    (hi : s'.dis v = some i) : s.dis v = some i := by
  obtain ⟨j, hj⟩ := ((h.queued v).mp hv).2
  rw [← hi, ht.kept hj, hj]

section Searching

variable (h : Searching adj transit source done s) (hs : s.pending = now :: pending)
  (hd : s.dis now = some d) (ht : Turned adj transit now d { s with pending } s')

include h hs ht

theorem Searching.known_pending (hv : v ∈ pending) (hi : s'.dis v = some i) :
    s.dis v = some i := by
  refine h.known ht ?_ hi
  rw [hs]
  exact List.mem_append_right done (List.mem_cons_of_mem now hv)

theorem Searching.turn_queued :
    v ∈ done ++ [now] ++ s'.pending ↔ Relays transit source v ∧ ∃ i, s'.dis v = some i := by
  rw [ht.queue hs, List.mem_append, h.queued]
  constructor
  · rintro (⟨hrelays, i, hi⟩ | hv)
    · exact ⟨hrelays, i, ht.kept hi⟩
    · obtain ⟨hmem, hnone, htransit⟩ := mem_fresh hv
      exact ⟨.inr htransit, d + 1, ht.fresh hnone hmem⟩
  · rintro ⟨hrelays, i, hi⟩
    rcases ht.cases hi with hi | ⟨hnone, hmem, -⟩
    · exact .inl ⟨hrelays, i, hi⟩
    · rcases hrelays with rfl | htransit
      · rw [h.dis_source] at hnone
        cases hnone
      · exact .inr (List.mem_filter.mpr ⟨hmem, by simp [hnone, htransit]⟩)

include hd

theorem Searching.turn_le (hi : s'.dis v = some i) : i ≤ d + 1 := by
  rcases ht.cases hi with hi | ⟨-, -, rfl⟩
  · exact h.near v i hi now (hs ▸ List.mem_cons_self) d hd
  · exact Nat.le_refl _

theorem Searching.turn_sorted :
    s'.pending.Pairwise fun a b => ∀ i j, s'.dis a = some i → s'.dis b = some j → i ≤ j := by
  have hsorted := h.sorted
  rw [hs, List.pairwise_cons] at hsorted
  have hlast : ∀ a, ∀ b ∈ (adj now).filter fun v => decide (s.dis v = none) && transit v,
      ∀ i j, s'.dis a = some i → s'.dis b = some j → i ≤ j := by
    intro a b hb i j hi hj
    obtain ⟨hmem, hnone, -⟩ := mem_fresh hb
    rw [← Option.some.inj ((ht.fresh hnone hmem).symm.trans hj)]
    exact h.turn_le hs hd ht hi
  rw [ht.pending, List.pairwise_append]
  refine ⟨hsorted.2.imp_of_mem ?_, ?_, fun a _ b hb => hlast a b hb⟩
  · intro a b ha hb hle i j hi hj
    exact hle i j (h.known_pending hs ht ha hi) (h.known_pending hs ht hb hj)
  · exact List.pairwise_of_forall_mem_list fun a _ b hb => hlast a b hb

theorem Searching.turn_near (hi : s'.dis v = some i) {q : V} (hq : q ∈ s'.pending) {j : Nat}
    (hj : s'.dis q = some j) : i ≤ j + 1 := by
  refine Nat.le_trans (h.turn_le hs hd ht hi) (Nat.succ_le_succ ?_)
  rw [ht.pending] at hq
  rcases List.mem_append.mp hq with hq | hq
  · have hsorted := h.sorted
    rw [hs, List.pairwise_cons] at hsorted
    exact hsorted.1 q hq d j hd (h.known_pending hs ht hq hj)
  · obtain ⟨hmem, hnone, -⟩ := mem_fresh hq
    rw [← Option.some.inj ((ht.fresh hnone hmem).symm.trans hj)]
    exact Nat.le_succ d

theorem Searching.turn_closed {m : V} (hm : m ∈ done ++ [now]) (hv : v ∈ adj m)
    (hi : s'.dis m = some i) : ∃ e, s'.dis v = some e ∧ e ≤ i + 1 := by
  rcases List.mem_append.mp hm with hm | hm
  · obtain ⟨e, he, hle⟩ :=
      h.closed m hm v hv i (h.known ht (List.mem_append_left _ hm) hi)
    exact ⟨e, ht.kept he, hle⟩
  · obtain rfl := List.mem_singleton.mp hm
    obtain rfl : d = i := Option.some.inj ((ht.kept hd).symm.trans hi)
    cases hknown : s.dis v with
    | none => exact ⟨d + 1, ht.fresh hknown hv, Nat.le_refl _⟩
    | some e => exact ⟨e, ht.kept hknown, h.turn_le hs hd ht (ht.kept hknown)⟩

theorem Searching.turn_mem_next {m : V} : m ∈ s'.next v ↔
    m ∈ done ++ [now] ∧ v ∈ adj m ∧ ∃ e, s'.dis m = some e ∧ s'.dis v = some (e + 1) := by
  rw [ht.mem_next, h.mem_next]
  constructor
  · rintro (⟨hdone, hv, e, hm, hv'⟩ | ⟨rfl, hv, hv'⟩)
    · exact ⟨List.mem_append_left _ hdone, hv, e, ht.kept hm, ht.kept hv'⟩
    · refine ⟨List.mem_append_right _ List.mem_cons_self, hv, d, ht.kept hd, ?_⟩
      rcases hv' with hnone | hsome
      · exact ht.fresh hnone hv
      · exact ht.kept hsome
  · rintro ⟨hdone, hv, e, hm, hv'⟩
    rcases List.mem_append.mp hdone with hdone | hdone
    · -- the neighbours of `m` have been reached before
      have hm := h.known ht (List.mem_append_left _ hdone) hm
      rcases ht.cases hv' with hv' | ⟨hnone, -, -⟩
      · exact .inl ⟨hdone, hv, e, hm, hv'⟩
      · obtain ⟨e', he', -⟩ := h.closed m hdone v hv e hm
        rw [hnone] at he'
        cases he'
    · obtain rfl := List.mem_singleton.mp hdone
      obtain rfl : d = e := Option.some.inj ((ht.kept hd).symm.trans hm)
      refine .inr ⟨rfl, hv, ?_⟩
      rcases ht.cases hv' with hv' | ⟨hnone, -, -⟩
      · exact .inr hv'
      · exact .inl hnone

/-- One turn keeps everything in order. -/
theorem Searching.turn (hadj : (adj now).Nodup) :
    Searching adj transit source (done ++ [now]) s' := by
  have hnowPending : now ∈ s.pending := hs ▸ List.mem_cons_self
  have hnow : Relays transit source now :=
    ((h.queued now).mp (List.mem_append_right done hnowPending)).1
  constructor
  case dis_source => exact ht.kept h.dis_source
  case sound =>
    intro v i hi
    rcases ht.cases hi with hi | ⟨-, hv, rfl⟩
    · exact h.sound v i hi
    -- a node is only expanded if it may relay, or is the source
    · refine (h.sound now d hd).extend ?_ hnow hv
      rintro rfl
      exact Option.some.inj (hd.symm.trans h.dis_source)
  case nodup =>
    rw [ht.queue hs]
    refine List.Nodup.append h.nodup (hadj.filter _) ?_
    intro v hv hvFresh
    obtain ⟨i, hi⟩ := ((h.queued v).mp hv).2
    rw [(mem_fresh hvFresh).2.1] at hi
    cases hi
  case queued => exact fun v => h.turn_queued hs ht
  case sorted => exact h.turn_sorted hs hd ht
  case near => exact fun v i hi q hq j hj => h.turn_near hs hd ht hi hq hj
  case closed => exact fun m hm v hv i hi => h.turn_closed hs hd ht hm hv hi
  case mem_next => exact fun v m => h.turn_mem_next hs hd ht
  case nodup_next =>
    intro v
    rw [ht.next]
    split
    · refine List.Nodup.append (h.nodup_next v) (List.nodup_singleton _) ?_
      refine List.disjoint_singleton.mpr fun hmem => ?_
      exact (List.nodup_append.mp h.nodup).2.2 now ((h.mem_next v now).mp hmem).1 now
        hnowPending rfl
    · exact h.nodup_next v

end Searching

end Turn

/-! ## The whole search -/

section Search

variable {done nodes : List V} {s : State V} {fuel : Nat}

theorem Hops.mem_nodes {k : Nat} {v : V} (h : Hops adj transit source k v)
    (hsource : source ∈ nodes) (hnodes : ∀ m, ∀ v ∈ adj m, v ∈ nodes) : v ∈ nodes := by
  cases h with
  | source => exact hsource
  | first hv => exact hnodes _ v hv
  | through _ _ hv => exact hnodes _ v hv

/-- Each node is taken from the queue at most once. -/
theorem Searching.length_le (h : Searching adj transit source done s) (hsource : source ∈ nodes)
    (hnodes : ∀ m, ∀ v ∈ adj m, v ∈ nodes) : done.length + s.pending.length ≤ nodes.length := by
  have hsub : done ++ s.pending ⊆ nodes := by
    intro v hv
    obtain ⟨d, hd⟩ := ((h.queued v).mp hv).2
    exact (h.sound v d hd).mem_nodes hsource hnodes
  calc done.length + s.pending.length = (done ++ s.pending).length := List.length_append.symm
    _ ≤ nodes.length := (h.nodup.subperm hsub).length_le

/-- With one turn for each node the search empties its queue. -/
theorem Searching.search [DecidableEq V] (hadj : ∀ m, (adj m).Nodup) (hsource : source ∈ nodes)
    (hnodes : ∀ m, ∀ v ∈ adj m, v ∈ nodes) (h : Searching adj transit source done s)
    (hfuel : nodes.length ≤ done.length + fuel) :
    ∃ done', Searching adj transit source done' (search adj transit fuel s) ∧
      (Bfs.search adj transit fuel s).pending = [] := by
  induction fuel generalizing done s with
  | zero =>
    refine ⟨done, h, ?_⟩
    have hle := h.length_le hsource hnodes
    exact List.length_eq_zero_iff.mp (by show s.pending.length = 0; omega)
  | succ fuel ih =>
    rw [Bfs.search]
    split
    · next hs => exact ⟨done, h, hs⟩
    · next now pending hs =>
      split
      · next hnone =>
        have hmem : now ∈ done ++ s.pending :=
          List.mem_append_right _ (hs ▸ List.mem_cons_self)
        obtain ⟨d, hd⟩ := ((h.queued now).mp hmem).2
        rw [hnone] at hd
        cases hd
      · next d hd =>
        have ht := foldl_visit transit now d (adj now) (hadj now) { s with pending }
        refine ih (h.turn hs hd ⟨ht.dis, ht.pending, ht.next⟩ (hadj now)) ?_
        rw [List.length_append, List.length_singleton]
        omega

/-- When the queue is empty, no path is shorter than what was found. -/
theorem Searching.le_of_hops (h : Searching adj transit source done s) (hs : s.pending = [])
    {k : Nat} {v : V} (hops : Hops adj transit source k v) : ∃ d, s.dis v = some d ∧ d ≤ k := by
  have hdone : ∀ m, Relays transit source m → ∀ d, s.dis m = some d → m ∈ done := by
    intro m hm d hd
    simpa [hs] using (h.queued m).mpr ⟨hm, d, hd⟩
  induction hops with
  | source => exact ⟨0, h.dis_source, Nat.le_refl 0⟩
  | first hv =>
    exact h.closed source (hdone source (.inl rfl) 0 h.dis_source) _ hv 0 h.dis_source
  | through _ htransit hv ih =>
    obtain ⟨d, hd, hle⟩ := ih
    obtain ⟨e, he, hle'⟩ := h.closed _ (hdone _ (.inr htransit) d hd) _ hv d hd
    exact ⟨e, he, Nat.le_trans hle' (Nat.succ_le_succ hle)⟩

theorem Searching.dis_iff (h : Searching adj transit source done s) (hs : s.pending = [])
    {v : V} {d : Nat} : s.dis v = some d ↔ Dist adj transit source v d := by
  constructor
  · intro hd
    refine ⟨h.sound v d hd, ?_⟩
    intro k hk
    obtain ⟨e, he, hle⟩ := h.le_of_hops hs hk
    obtain rfl : d = e := Option.some.inj (hd.symm.trans he)
    exact hle
  · rintro ⟨hops, hleast⟩
    obtain ⟨e, he, hle⟩ := h.le_of_hops hs hops
    obtain rfl : d = e := Nat.le_antisymm (hleast e (h.sound v e he)) hle
    exact he

variable [DecidableEq V] (hadj : ∀ m, (adj m).Nodup) (hsource : source ∈ nodes)
  (hnodes : ∀ m, ∀ v ∈ adj m, v ∈ nodes) (hfuel : nodes.length ≤ fuel)

include hadj hsource hnodes hfuel

variable (transit) in
theorem searching_search :
    ∃ done, Searching adj transit source done (search adj transit fuel (start source)) ∧
      (search adj transit fuel (start source)).pending = [] := by
  have hstart : Searching adj transit source [] (start source) := searching_start
  exact hstart.search hadj hsource hnodes (by simpa using hfuel)

/-- The search finds the distances of the shortest paths. -/
theorem dis_search_iff {v : V} {d : Nat} :
    (search adj transit fuel (start source)).dis v = some d ↔ Dist adj transit source v d := by
  obtain ⟨done, h, hs⟩ := searching_search transit hadj hsource hnodes hfuel
  exact h.dis_iff hs

/-- The next hops of a node are all neighbours on its shortest paths. -/
theorem mem_next_search_iff {v m : V} :
    m ∈ (search adj transit fuel (start source)).next v ↔
      Relays transit source m ∧ v ∈ adj m ∧
        ∃ d, Dist adj transit source m d ∧ Dist adj transit source v (d + 1) := by
  obtain ⟨done, h, hs⟩ := searching_search transit hadj hsource hnodes hfuel
  have hdone : ∀ d, (search adj transit fuel (start source)).dis m = some d →
      (m ∈ done ↔ Relays transit source m) := by
    intro d hd
    have hqueued := h.queued m
    rw [hs, List.append_nil] at hqueued
    rw [hqueued]
    exact and_iff_left ⟨d, hd⟩
  rw [h.mem_next]
  simp only [← h.dis_iff hs]
  constructor
  · rintro ⟨hm, hv, d, hd, hd'⟩
    exact ⟨(hdone d hd).mp hm, hv, d, hd, hd'⟩
  · rintro ⟨hm, hv, d, hd, hd'⟩
    exact ⟨(hdone d hd).mpr hm, hv, d, hd, hd'⟩

theorem nodup_next_search (v : V) :
    ((search adj transit fuel (start source)).next v).Nodup := by
  obtain ⟨done, h, -⟩ := searching_search transit hadj hsource hnodes hfuel
  exact h.nodup_next v

end Search

end Bfs
