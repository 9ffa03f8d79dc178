import Mathlib.Data.List.Induction
import Mathlib.Data.List.ProdSigma
import Mathlib.Order.MinMax
import Mathlib.Tactic.SplitIfs
import Paraleon.Routing

/-!
# Round-trip times and bandwidths

With the next hops `CalculateRoute` finds the delay, the transmission time and the bandwidth from
each host to each node, and `main` has the round-trip time and the bandwidth-delay product of each
pair of hosts from these, with the largest ones.

* `pair_metrics`: after any number of link failures the numbers of a pair that is connected are
  those of one shortest path.
* `rtt_of_shortest`: so are the round-trip time and the product of each pair at the start, and
  `maxRtt` and `maxBdp` are the largest of all pairs.
-/

namespace Paraleon.Routing

open Function Words

/-! ## The loop of `main` -/

/-- `pairRtt`, `pairBdp`, `maxRtt` and `maxBdp` -/
structure Metrics where
  pairRtt : NodeId → NodeId → Nat
  pairBdp : NodeId → NodeId → Nat
  maxRtt : Nat
  maxBdp : Nat

def Metrics.zero : Metrics :=
  { pairRtt := fun _ _ => 0, pairBdp := fun _ _ => 0, maxRtt := 0, maxBdp := 0 }

/-- `rtt` -/
def rttOf (s : State) (i j : NodeId) : Nat :=
  u64 (u64 (s.pairDelay i j * 2) + s.pairTxDelay i j)

/-- `bdp` -/
def bdpOf (s : State) (i j : NodeId) : Nat :=
  u64 (rttOf s i j * s.pairBw i j) / 1000000000 / 8

/-- The body of the inner loop -/
def measurePair (s : State) (i : NodeId) (m : Metrics) (j : NodeId) : Metrics where
  pairRtt := update m.pairRtt i (update (m.pairRtt i) j (rttOf s i j))
  pairBdp := update m.pairBdp i (update (m.pairBdp i) j (bdpOf s i j))
  maxRtt := if m.maxRtt < rttOf s i j then rttOf s i j else m.maxRtt
  maxBdp := if m.maxBdp < bdpOf s i j then bdpOf s i j else m.maxBdp

def measure (t : Topology) (s : State) : Metrics :=
  (List.range t.nodeNum).foldl (fun m i =>
    if t.isSwitch i then m
    else (List.range t.nodeNum).foldl (fun m j =>
      if t.isSwitch j then m else measurePair s i m j) m) .zero

/-! ## The paths of a search -/

/-- A path from a host over links that are up, with only switches between its ends, as the
interfaces it goes over -/
inductive Walk (t : Topology) (links : Links) (h : NodeId) : List Interface → NodeId → Prop
  | host : Walk t links h [] h
  | hop {route : List Interface} {now next : NodeId} {itf : Interface} :
      Walk t links h route now → now = h ∨ t.isSwitch now = true → (next, itf) ∈ links now →
      itf.up = true → Walk t links h (route ++ [itf]) next

/-- What `CalculateRoute` would know of the end of a path -/
def along (t : Topology) (route : List Interface) : Path := route.foldl (Path.extend t) .host

/-- The time to send a packet over an interface, in ns -/
def txTime (t : Topology) (itf : Interface) : Nat :=
  u64 (t.packetPayloadSize * 1000000000 * 8) / itf.bw

section Along

variable (t : Topology) (route : List Interface)

theorem along_snoc (itf : Interface) : along t (route ++ [itf]) = (along t route).extend t itf := by
  rw [along, List.foldl_append]
  rfl

theorem along_dis : (along t route).dis = route.length := by
  induction route using List.reverseRecOn with
  | nil => rfl
  | append_singleton route itf ih =>
    rw [along_snoc, List.length_append, List.length_singleton, ← ih]
    rfl

theorem u64_add_u64 (a b : Nat) : u64 (u64 a + b) = u64 (a + b) := Nat.mod_add_mod a (2 ^ 64) b

theorem along_delay : (along t route).delay = u64 (route.map Interface.delay).sum := by
  induction route using List.reverseRecOn with
  | nil => rfl
  | append_singleton route itf ih =>
    rw [along_snoc, List.map_append, List.sum_append, List.map_singleton, List.sum_singleton,
      ← u64_add_u64, ← ih]
    rfl

theorem along_txDelay : (along t route).txDelay = u64 (route.map (txTime t)).sum := by
  induction route using List.reverseRecOn with
  | nil => rfl
  | append_singleton route itf ih =>
    rw [along_snoc, List.map_append, List.sum_append, List.map_singleton, List.sum_singleton,
      ← u64_add_u64, ← ih]
    rfl

theorem along_bw : (along t route).bw = (route.map Interface.bw).foldl min 0xffffffffffffffff := by
  induction route using List.reverseRecOn with
  | nil => rfl
  | append_singleton route itf ih =>
    rw [along_snoc, List.map_append, List.foldl_append, ← ih]
    rfl

end Along

variable {t : Topology} {links : Links} {s : State} {h n : NodeId} {d : Nat}

/-- What the search knows of a node is true of a path to it. -/
structure Traced (t : Topology) (links : Links) (h : NodeId) (s : Search) : Prop where
  relays : ∀ n ∈ s.q, n = h ∨ t.isSwitch n = true
  path : ∀ n p, s.path n = some p → ∃ route, Walk t links h route n ∧ p = along t route

section Traced

variable {now : NodeId} {path : Path} {s : Search}

/-- A turn reaches a new node, or only changes the next hops. -/
theorem visit_cases (t : Topology) (now : NodeId) (path : Path) (s : Search)
    (it : NodeId × Interface) :
    ((visit t now path s it).q = s.q ∧ (visit t now path s it).path = s.path) ∨
      (it.2.up = true ∧
        (visit t now path s it).q = (if t.isSwitch it.1 then s.q ++ [it.1] else s.q) ∧
        (visit t now path s it).path = update s.path it.1 (some (path.extend t it.2))) := by
  rw [visit]
  dsimp only
  by_cases hup : it.2.up = false
  · rw [if_pos hup]
    exact .inl ⟨rfl, rfl⟩
  · rw [if_neg hup]
    by_cases hnone : (s.path it.1).isNone = true
    · rw [if_pos hnone]
      refine .inr ⟨eq_true_of_ne_false hup, ?_⟩
      split_ifs <;> exact ⟨rfl, rfl⟩
    · rw [if_neg hnone]
      refine .inl ?_
      split_ifs <;> exact ⟨rfl, rfl⟩

theorem Traced.visit (hs : Traced t links h s) {route : List Interface}
    (hwalk : Walk t links h route now) (hrelays : now = h ∨ t.isSwitch now = true)
    {it : NodeId × Interface} (hmem : it ∈ links now) :
    Traced t links h (visit t now (along t route) s it) := by
  rcases visit_cases t now (along t route) s it with ⟨hq, hpath⟩ | ⟨hup, hq, hpath⟩
  · exact ⟨hq ▸ hs.relays, hpath ▸ hs.path⟩
  · constructor
    · intro n hn
      rw [hq] at hn
      split at hn
      · next hswitch =>
        rcases List.mem_append.mp hn with hn | hn
        · exact hs.relays n hn
        · exact .inr (List.mem_singleton.mp hn ▸ hswitch)
      · exact hs.relays n hn
    · intro n p hp
      rw [hpath] at hp
      rcases eq_or_ne n it.1 with rfl | hne
      · rw [update_self, Option.some_inj] at hp
        exact ⟨route ++ [it.2], .hop hwalk hrelays hmem hup, by rw [along_snoc, hp]⟩
      · rw [update_of_ne hne] at hp
        exact hs.path n p hp

theorem Traced.foldl (hs : Traced t links h s) {route : List Interface}
    (hwalk : Walk t links h route now) (hrelays : now = h ∨ t.isSwitch now = true)
    {L : List (NodeId × Interface)} (hL : ∀ it ∈ L, it ∈ links now) :
    Traced t links h (L.foldl (Routing.visit t now (along t route)) s) := by
  induction L generalizing s with
  | nil => exact hs
  | cons it rest ih =>
    obtain ⟨hit, hrest⟩ := List.forall_mem_cons.mp hL
    exact ih (hs.visit hwalk hrelays hit) hrest

theorem Traced.bfs (hs : Traced t links h s) (fuel : Nat) :
    Traced t links h (bfs t links fuel s) := by
  induction fuel generalizing s with
  | zero => exact hs
  | succ fuel ih =>
    rw [Routing.bfs]
    split
    · exact hs
    · next now q hq =>
      have hrelays : now = h ∨ t.isSwitch now = true :=
        hs.relays now (hq ▸ List.mem_cons_self)
      split
      · exact hs
      · next path hpath =>
        obtain ⟨route, hwalk, rfl⟩ := hs.path now path hpath
        have hrest : Traced t links h { s with q } :=
          ⟨fun n hn => hs.relays n (hq ▸ List.mem_cons_of_mem _ hn), hs.path⟩
        exact ih (hrest.foldl hwalk hrelays fun it hit => hit)

end Traced

/-! ## The numbers of a host -/

/-- The search of `CalculateRoute` -/
def searchFrom (t : Topology) (s : State) (host : NodeId) : Search :=
  bfs t s.nbr2if t.nodeNum
    { q := [host], path := update (fun _ => none) host (some .host),
      nextHop := fun n => s.nextHop n host }

theorem traced_searchFrom (t : Topology) (s : State) (h : NodeId) :
    Traced t s.nbr2if h (searchFrom t s h) := by
  refine Traced.bfs ⟨fun n hn => .inl (List.mem_singleton.mp hn), fun n p hp => ?_⟩ t.nodeNum
  rcases eq_or_ne n h with rfl | hne
  · dsimp only at hp
    rw [update_self, Option.some_inj] at hp
    exact ⟨[], .host, hp.symm⟩
  · dsimp only at hp
    rw [update_of_ne hne] at hp
    cases hp

theorem toBfs_searchFrom (hempty : ∀ n, s.nextHop n h = []) :
    (searchFrom t s h).toBfs = found t s.nbr2if h := by
  rw [searchFrom, toBfs_bfs, found]
  congr 1
  simp only [Search.toBfs, Bfs.start, Bfs.State.mk.injEq, true_and]
  refine ⟨?_, funext hempty⟩
  funext v
  rcases eq_or_ne v h with rfl | hne
  · rw [update_self, update_self]
    rfl
  · rw [update_of_ne hne, update_of_ne hne]
    rfl

/-- The numbers from a host to each node it has a path to are those of a shortest path. -/
def Measured (t : Topology) (s : State) (h : NodeId) : Prop :=
  ∀ n d, DistTo t s h n d → ∃ route, Walk t s.nbr2if h route n ∧ route.length = d ∧
    s.pairDelay n h = (along t route).delay ∧ s.pairTxDelay n h = (along t route).txDelay ∧
    s.pairBw n h = (along t route).bw

theorem calculateRoute_pairs (s : State) (host n h : NodeId) :
    (calculateRoute t s host).pairDelay n h = (if h = host then
        ((searchFrom t s host).path n).elim (s.pairDelay n host) Path.delay
      else s.pairDelay n h) ∧
    (calculateRoute t s host).pairTxDelay n h = (if h = host then
        ((searchFrom t s host).path n).elim (s.pairTxDelay n host) Path.txDelay
      else s.pairTxDelay n h) ∧
    (calculateRoute t s host).pairBw n h = (if h = host then
        ((searchFrom t s host).path n).elim (s.pairBw n host) Path.bw
      else s.pairBw n h) :=
  ⟨update_apply .., update_apply .., update_apply ..⟩

theorem measured_calculateRoute (hvalid : Valid t s.nbr2if) (hh : t.Host h)
    (hempty : ∀ n, s.nextHop n h = []) : Measured t (calculateRoute t s h) h := by
  intro n d hd
  have hdis : (found t s.nbr2if h).dis n = some d :=
    (Bfs.dis_search_iff hvalid.nodup_neighbours (List.mem_range.mpr hh.1) hvalid.neighbours_lt
      (Nat.le_of_eq List.length_range)).mpr hd
  rw [← toBfs_searchFrom hempty] at hdis
  obtain ⟨p, hp, hlen⟩ := Option.map_eq_some_iff.mp hdis
  obtain ⟨route, hwalk, rfl⟩ := (traced_searchFrom t s h).path n p hp
  obtain ⟨hdelay, htxDelay, hbw⟩ := calculateRoute_pairs (t := t) s h n h
  rw [if_pos rfl, hp] at hdelay htxDelay hbw
  exact ⟨route, hwalk, (along_dis t route).symm.trans hlen, hdelay, htxDelay, hbw⟩

theorem Measured.calculateRoute (hs : Measured t s h) {host : NodeId} (hne : h ≠ host) :
    Measured t (calculateRoute t s host) h := by
  intro n d hd
  obtain ⟨route, hwalk, hlen, hmetrics⟩ := hs n d hd
  obtain ⟨hdelay, htxDelay, hbw⟩ := calculateRoute_pairs (t := t) s host n h
  rw [if_neg hne] at hdelay htxDelay hbw
  refine ⟨route, hwalk, hlen, ?_⟩
  rw [hdelay, htxDelay, hbw]
  exact hmetrics

theorem Measured.foldl (hs : Measured t s h) {L : List NodeId} (hL : h ∉ L) :
    Measured t (L.foldl (fun s node => if t.isSwitch node then s else
      Routing.calculateRoute t s node) s) h := by
  induction L generalizing s with
  | nil => exact hs
  | cons host rest ih =>
    rw [List.foldl_cons]
    refine ih ?_ (List.not_mem_of_not_mem_cons hL)
    split
    · exact hs
    · exact hs.calculateRoute (List.ne_of_not_mem_cons hL)

theorem measured_foldl {L : List NodeId} (hnodup : L.Nodup) (hvalid : Valid t s.nbr2if)
    (hh : t.Host h) (hmem : h ∈ L) (hempty : ∀ n, ∀ dst ∈ L, s.nextHop n dst = []) :
    Measured t (L.foldl (fun s node => if t.isSwitch node then s else
      calculateRoute t s node) s) h := by
  induction L generalizing s with
  | nil => cases hmem
  | cons host rest ih =>
    obtain ⟨hhost, hrest⟩ := List.nodup_cons.mp hnodup
    have hfirst : ∀ n, s.nextHop n host = [] := fun n => hempty n host List.mem_cons_self
    rw [List.foldl_cons]
    rcases List.mem_cons.mp hmem with rfl | hmem
    · rw [if_neg (by rw [hh.2]; exact Bool.false_ne_true)]
      exact (measured_calculateRoute hvalid hh hfirst).foldl hhost
    · split
      · exact ih hrest hvalid hmem fun n dst hdst => hempty n dst (List.mem_cons_of_mem _ hdst)
      · refine ih hrest hvalid hmem fun n dst hdst => ?_
        have hne : dst ≠ host := fun heq => hhost (heq ▸ hdst)
        rw [calculateRoute_nextHop hfirst, if_neg hne]
        exact hempty n dst (List.mem_cons_of_mem _ hdst)

theorem measured_calculateRoutes (hvalid : Valid t s.nbr2if) (hh : t.Host h)
    (hempty : ∀ n dst, s.nextHop n dst = []) : Measured t (calculateRoutes t s) h :=
  measured_foldl List.nodup_range hvalid hh (List.mem_range.mpr hh.1) fun n dst _ => hempty n dst

theorem measured_setup (hvalid : Valid t links) (hh : t.Host h) : Measured t (setup t links) h :=
  measured_calculateRoutes (s := initial links) hvalid hh fun _ _ => rfl

theorem Measured.takeDownLink (hs : Measured t s h) (hrouted : Routed t s) (hh : t.Host h)
    (a b : NodeId) : Measured t (takeDownLink t s a b) h := by
  rw [Routing.takeDownLink]
  split
  · exact hs
  · exact measured_calculateRoutes
      (s := { s with nbr2if := setDown (setDown s.nbr2if a b) b a, nextHop := fun _ _ => [] })
      hrouted.valid.setDown hh fun _ _ => rfl

theorem Measured.takeDownLinks (hs : Measured t s h) (hrouted : Routed t s) (hh : t.Host h)
    (downs : List (NodeId × NodeId)) : Measured t (takeDownLinks t s downs) h := by
  induction downs generalizing s with
  | nil => exact hs
  | cons link rest ih =>
    exact ih (hs.takeDownLink hrouted hh link.1 link.2) (hrouted.takeDownLink link.1 link.2)

/-- After the setup and any number of link failures, the delay, the transmission time and the
bandwidth from a host to a node that it has a path to are the sums and the minimum over one of
the shortest paths. -/
theorem pair_metrics (hvalid : Valid t links) (downs : List (NodeId × NodeId)) (hh : t.Host h) :
    let s := takeDownLinks t (setup t links) downs
    ∀ n d, DistTo t s h n d → ∃ route, Walk t s.nbr2if h route n ∧ route.length = d ∧
      s.pairDelay n h = u64 (route.map Interface.delay).sum ∧
      s.pairTxDelay n h = u64 (route.map (txTime t)).sum ∧
      s.pairBw n h = (route.map Interface.bw).foldl min 0xffffffffffffffff := by
  intro s n d hd
  obtain ⟨route, hwalk, hlen, hdelay, htxDelay, hbw⟩ :=
    (measured_setup hvalid hh).takeDownLinks (routed_setup hvalid) hh downs n d hd
  exact ⟨route, hwalk, hlen, hdelay.trans (along_delay t route),
    htxDelay.trans (along_txDelay t route), hbw.trans (along_bw t route)⟩

/-- Host 4 has no longer the short way to host 3. -/
theorem pair_metrics_dualHomed :
    let s := takeDownLinks dualHomed (setup dualHomed dualHomedLinks) [(4, 2)]
    ∃ route, Walk dualHomed s.nbr2if 3 route 4 ∧ route.length = 4 ∧
      s.pairDelay 4 3 = u64 (route.map Interface.delay).sum ∧
      s.pairTxDelay 4 3 = u64 (route.map (txTime dualHomed)).sum ∧
      s.pairBw 4 3 = (route.map Interface.bw).foldl min 0xffffffffffffffff :=
  pair_metrics dualHomed_valid [(4, 2)] dualHomed_host 4 4
    ((((routed_setup dualHomed_valid).takeDownLinks [(4, 2)]).dis_iff dualHomed_host).mp
      (by decide +kernel))

/-! ## All pairs of hosts -/

def hosts (t : Topology) : List NodeId :=
  (List.range t.nodeNum).filter fun i => !t.isSwitch i

theorem mem_hosts : n ∈ hosts t ↔ t.Host n := by
  rw [hosts, List.mem_filter, List.mem_range, Bool.not_eq_true']
  exact Iff.rfl

def hostPairs (t : Topology) : List (NodeId × NodeId) := (hosts t).product (hosts t)

theorem measure_eq (t : Topology) (s : State) :
    measure t s = (hostPairs t).foldl (fun m p => measurePair s p.1 m p.2) .zero := by
  have hskip : ∀ (L : List NodeId) (f : Metrics → NodeId → Metrics) (m : Metrics),
      L.foldl (fun m i => if t.isSwitch i then m else f m i) m =
        (L.filter fun i => !t.isSwitch i).foldl f m := by
    intro L f m
    rw [List.foldl_filter]
    refine congrFun (congrFun (congrArg List.foldl ?_) m) L
    funext m i
    cases t.isSwitch i <;> rfl
  rw [measure, hskip, hostPairs, List.product, List.foldl_flatMap]
  refine congrFun (congrFun (congrArg List.foldl ?_) _) _
  funext m i
  rw [hskip, List.foldl_map]
  rfl

/-- What the loop has after some of the pairs -/
structure Covers (s : State) (L : List (NodeId × NodeId)) (m : Metrics) : Prop where
  pairs : ∀ p ∈ L, m.pairRtt p.1 p.2 = rttOf s p.1 p.2 ∧ m.pairBdp p.1 p.2 = bdpOf s p.1 p.2
  rtt_le : ∀ p ∈ L, rttOf s p.1 p.2 ≤ m.maxRtt
  bdp_le : ∀ p ∈ L, bdpOf s p.1 p.2 ≤ m.maxBdp
  maxRtt : m.maxRtt = 0 ∨ ∃ p ∈ L, m.maxRtt = rttOf s p.1 p.2
  maxBdp : m.maxBdp = 0 ∨ ∃ p ∈ L, m.maxBdp = bdpOf s p.1 p.2

/-- The larger of the maximum so far and a new value -/
theorem largest_snoc {α : Type*} {L : List α} {f : α → Nat} {a : Nat} (x : α)
    (hle : ∀ p ∈ L, f p ≤ a) (hmax : a = 0 ∨ ∃ p ∈ L, a = f p) :
    let b := if a < f x then f x else a
    (∀ p ∈ L ++ [x], f p ≤ b) ∧ (b = 0 ∨ ∃ p ∈ L ++ [x], b = f p) := by
  intro b
  have hb : b = max a (f x) := (max_def_lt a (f x)).symm
  rw [hb]
  constructor
  · intro p hp
    rcases List.mem_append.mp hp with hp | hp
    · exact (hle p hp).trans (le_max_left _ _)
    · exact List.mem_singleton.mp hp ▸ le_max_right _ _
  · rcases le_total (f x) a with hxa | hax
    · rw [max_eq_left hxa]
      exact hmax.imp id fun ⟨p, hp, heq⟩ => ⟨p, List.mem_append_left _ hp, heq⟩
    · rw [max_eq_right hax]
      exact .inr ⟨x, List.mem_append_right _ List.mem_cons_self, rfl⟩

theorem Covers.measurePair {L : List (NodeId × NodeId)} {m : Metrics} (hm : Covers s L m)
    (p : NodeId × NodeId) : Covers s (L ++ [p]) (measurePair s p.1 m p.2) := by
  obtain ⟨hrtt, hmaxRtt⟩ := largest_snoc p hm.rtt_le hm.maxRtt
  obtain ⟨hbdp, hmaxBdp⟩ := largest_snoc p hm.bdp_le hm.maxBdp
  refine ⟨fun p' hp' => ?_, hrtt, hbdp, hmaxRtt, hmaxBdp⟩
  have hcell : ∀ (f g : NodeId → NodeId → Nat), (p' ∈ L → f p'.1 p'.2 = g p'.1 p'.2) →
      update f p.1 (update (f p.1) p.2 (g p.1 p.2)) p'.1 p'.2 = g p'.1 p'.2 := by
    intro f g hold
    rcases eq_or_ne p'.1 p.1 with hfst | hfst
    · rcases eq_or_ne p'.2 p.2 with hsnd | hsnd
      · rw [hfst, hsnd, update_self, update_self]
      · rw [hfst, update_self, update_of_ne hsnd, ← hfst]
        refine hold ((List.mem_append.mp hp').resolve_right fun hp' => ?_)
        exact hsnd (congrArg Prod.snd (List.mem_singleton.mp hp'))
    · rw [update_of_ne hfst]
      refine hold ((List.mem_append.mp hp').resolve_right fun hp' => ?_)
      exact hfst (congrArg Prod.fst (List.mem_singleton.mp hp'))
  exact ⟨hcell m.pairRtt (rttOf s) fun hp' => (hm.pairs p' hp').1,
    hcell m.pairBdp (bdpOf s) fun hp' => (hm.pairs p' hp').2⟩

theorem covers_foldl (s : State) (L : List (NodeId × NodeId)) :
    Covers s L (L.foldl (fun m p => measurePair s p.1 m p.2) .zero) := by
  induction L using List.reverseRecOn with
  | nil =>
    exact
      { pairs := fun _ hp => absurd hp List.not_mem_nil
        rtt_le := fun _ hp => absurd hp List.not_mem_nil
        bdp_le := fun _ hp => absurd hp List.not_mem_nil
        maxRtt := .inl rfl
        maxBdp := .inl rfl }
  | append_singleton L p ih =>
    rw [List.foldl_append]
    exact ih.measurePair p

theorem mem_hostPairs {i j : NodeId} : (i, j) ∈ hostPairs t ↔ t.Host i ∧ t.Host j := by
  rw [hostPairs, List.pair_mem_product, mem_hosts, mem_hosts]

/-- What `main` computes for the hosts: the round-trip time and the product of a pair that is
connected are those of one shortest path, and `maxRtt` and `maxBdp` are the largest ones. -/
theorem rtt_of_shortest (hvalid : Valid t links) :
    let s := setup t links
    let m := measure t s
    (∀ i j, t.Host i → t.Host j → m.pairRtt i j ≤ m.maxRtt ∧ m.pairBdp i j ≤ m.maxBdp ∧
      ∀ d, DistTo t s j i d → ∃ route, Walk t links j route i ∧ route.length = d ∧
        m.pairRtt i j =
          u64 ((route.map Interface.delay).sum * 2 + (route.map (txTime t)).sum) ∧
        m.pairBdp i j = u64 (m.pairRtt i j *
          (route.map Interface.bw).foldl min 0xffffffffffffffff) / 1000000000 / 8) ∧
    (m.maxRtt = 0 ∨ ∃ i j, t.Host i ∧ t.Host j ∧ m.maxRtt = m.pairRtt i j) ∧
    (m.maxBdp = 0 ∨ ∃ i j, t.Host i ∧ t.Host j ∧ m.maxBdp = m.pairBdp i j) := by
  intro s m
  have hm : Covers s (hostPairs t) m := by
    change Covers s (hostPairs t) (measure t s)
    rw [measure_eq]
    exact covers_foldl s (hostPairs t)
  refine ⟨fun i j hi hj => ?_, hm.maxRtt.imp id ?_, hm.maxBdp.imp id ?_⟩
  · have hpair : (i, j) ∈ hostPairs t := mem_hostPairs.mpr ⟨hi, hj⟩
    obtain ⟨hrtt, hbdp⟩ := hm.pairs (i, j) hpair
    refine ⟨hrtt ▸ hm.rtt_le (i, j) hpair, hbdp ▸ hm.bdp_le (i, j) hpair, fun d hd => ?_⟩
    obtain ⟨route, hwalk, hlen, hdelay, htxDelay, hbw⟩ := measured_setup hvalid hj i d hd
    rw [setup_nbr2if] at hwalk
    refine ⟨route, hwalk, hlen, ?_, ?_⟩
    · rw [hrtt, rttOf, hdelay, htxDelay, along_delay, along_txDelay]
      simp only [u64]
      lia
    · rw [hbdp, hrtt, bdpOf, hbw, along_bw]
  · rintro ⟨⟨i, j⟩, hpair, heq⟩
    obtain ⟨hi, hj⟩ := mem_hostPairs.mp hpair
    exact ⟨i, j, hi, hj, heq.trans (hm.pairs (i, j) hpair).1.symm⟩
  · rintro ⟨⟨i, j⟩, hpair, heq⟩
    obtain ⟨hi, hj⟩ := mem_hostPairs.mp hpair
    exact ⟨i, j, hi, hj, heq.trans (hm.pairs (i, j) hpair).2.symm⟩

/-- Both ways between the two hosts go over two links of 1 us. -/
theorem rtt_of_shortest_dualHomed :
    (measure dualHomed (setup dualHomed dualHomedLinks)).pairRtt 4 3 ≤
        (measure dualHomed (setup dualHomed dualHomedLinks)).maxRtt ∧
      ∃ route, Walk dualHomed dualHomedLinks 3 route 4 ∧ route.length = 2 := by
  have hd : DistTo dualHomed (setup dualHomed dualHomedLinks) 3 4 2 :=
    ((routed_setup dualHomed_valid).dis_iff dualHomed_host).mp (by decide +kernel)
  obtain ⟨hle, -, hroute⟩ := (rtt_of_shortest dualHomed_valid).1 4 3 ⟨by decide, rfl⟩ dualHomed_host
  obtain ⟨route, hwalk, hlen, -⟩ := hroute 2 hd
  exact ⟨hle, route, hwalk, hlen⟩

end Paraleon.Routing
