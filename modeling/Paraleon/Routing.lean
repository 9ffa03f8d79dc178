import Paraleon.Library.Bfs
import Paraleon.Library.Words

/-!
# Routing

The routes of a run: a breadth-first search from each host, the tables that are filled
from it, and what a link failure does to them.

* `toBfs_bfs`, `calculateRoute_nextHop`: the search from a host, and with it the tables,
  are those of the library's breadth-first search.
* `routing`: after any number of link failures the tables hold the next hops on all
  shortest paths, and lead to their hosts without loops.
-/

namespace Paraleon.Routing

open Function Words
open Bfs (Dist Hops Relays Nearer)

/-! ## The topology -/

/-- A node by its number. -/
abbrev NodeId := Nat

/-- `Interface`: where a link is attached to a node, its delay in ns and its rate in
bit/s. A rate of 0 would end the program. -/
structure Interface where
  idx : Nat
  up : Bool
  delay : Nat
  bw : Nat
  bw_pos : 0 < bw

/-- The nodes `0`, …, `nodeNum - 1`. Those that are no switches are hosts. -/
structure Topology where
  nodeNum : Nat
  isSwitch : NodeId → Bool
  packetPayloadSize : Nat

/-- `nbr2if`: the neighbours of each node in their order of iteration. -/
abbrev Links := NodeId → List (NodeId × Interface)

def Topology.Host (t : Topology) (h : NodeId) : Prop := h < t.nodeNum ∧ t.isSwitch h = false

/-- `node_id_to_ip`. -/
def nodeIdToIp (id : NodeId) : UInt32 :=
  0x0b000001 + UInt32.ofNat id / 256 * 0x00010000 + UInt32.ofNat id % 256 * 0x00000100

/-- The link from `n` to `m` is up. -/
def Up (links : Links) (n m : NodeId) : Prop := ∃ itf, (m, itf) ∈ links n ∧ itf.up = true

/-- At most one link per pair of nodes, with interfaces of its own and one state for
both ends, and an address of its own for each host. -/
structure Valid (t : Topology) (links : Links) : Prop where
  known : ∀ n, ∀ e ∈ links n, e.1 < t.nodeNum
  single : ∀ n, ((links n).map Prod.fst).Nodup
  interface : ∀ n, ∀ e ∈ links n, ∀ e' ∈ links n, e.2.idx = e'.2.idx → e.1 = e'.1
  symm : ∀ n m, Up links n m → Up links m n
  address : ∀ h h', t.Host h → t.Host h' → nodeIdToIp h = nodeIdToIp h' → h = h'

/-! ## The search -/

/-- What `CalculateRoute` knows of a node it has reached: the entries of `dis`, `delay`,
`txDelay` and `bw`. -/
structure Path where
  dis : Nat
  delay : Nat
  txDelay : Nat
  bw : Nat

def Path.host : Path := { dis := 0, delay := 0, txDelay := 0, bw := 0xffffffffffffffff }

/-- The path to a node goes on over an interface. -/
def Path.extend (t : Topology) (path : Path) (itf : Interface) : Path :=
  { dis := path.dis + 1
    delay := u64 (path.delay + itf.delay)
    txDelay := u64 (path.txDelay + u64 (t.packetPayloadSize * 1000000000 * 8) / itf.bw)
    bw := min path.bw itf.bw }

/-- The variables of `CalculateRoute`: the queue from position `i` on, and the next hops
to the host. -/
structure Search where
  q : List NodeId
  path : NodeId → Option Path
  nextHop : NodeId → List NodeId

/-- The turn of the inner loop for a neighbour `it` of `now`. Only switches are enqueued,
because packets do not go through a host. -/
def visit (t : Topology) (now : NodeId) (path : Path) (s : Search) (it : NodeId × Interface) :
    Search :=
  let next := it.1
  if it.2.up = false then s
  else
    let s :=
      if (s.path next).isNone then
        { s with path := update s.path next (some (path.extend t it.2))
                 q := if t.isSwitch next then s.q ++ [next] else s.q }
      else s
    if (s.path next).map Path.dis = some (path.dis + 1) then
      { s with nextHop := update s.nextHop next (s.nextHop next ++ [now]) }
    else s

/-- The outer loop, which takes one node of the queue in each turn. -/
def bfs (t : Topology) (links : Links) : Nat → Search → Search
  | 0, s => s
  | fuel + 1, s =>
    match s.q with
    | [] => s
    | now :: q =>
      match s.path now with
      | none => s
      | some path => bfs t links fuel ((links now).foldl (visit t now path) { s with q })

/-! ## The tables -/

/-- The routing tables of all nodes. An entry that is missing in a table is empty here. -/
abbrev Tables := NodeId → UInt32 → List Nat

/-- The maps `nbr2if`, `nextHop`, `pairDelay`, `pairTxDelay` and `pairBw`, and the routing
tables. -/
structure State where
  nbr2if : Links
  nextHop : NodeId → NodeId → List NodeId
  pairDelay : NodeId → NodeId → Nat
  pairTxDelay : NodeId → NodeId → Nat
  pairBw : NodeId → NodeId → Nat
  rtTable : Tables

/-- `CalculateRoute`. It reaches each node once, so that `nodeNum` turns are enough. -/
def calculateRoute (t : Topology) (s : State) (host : NodeId) : State :=
  let found := bfs t s.nbr2if t.nodeNum
    { q := [host], path := update (fun _ => none) host (some .host),
      nextHop := fun n => s.nextHop n host }
  let store (pair : NodeId → NodeId → Nat) (f : Path → Nat) : NodeId → NodeId → Nat :=
    fun n => update (pair n) host ((found.path n).elim (pair n host) f)
  { s with
    nextHop := fun n => update (s.nextHop n) host (found.nextHop n)
    pairDelay := store s.pairDelay Path.delay
    pairTxDelay := store s.pairTxDelay Path.txDelay
    pairBw := store s.pairBw Path.bw }

def calculateRoutes (t : Topology) (s : State) : State :=
  (List.range t.nodeNum).foldl
    (fun s node => if t.isSwitch node then s else calculateRoute t s node) s

/-- `AddTableEntry` of a switch or a host. -/
def addTableEntry (node : NodeId) (dst : UInt32) (table : Tables) (idx : Nat) : Tables :=
  update table node (update (table node) dst (table node dst ++ [idx]))

/-- The lookup `nbr2if[n][m]`. For a missing entry it makes one that is down, and that
nothing ever looks at. -/
def interfaceTo (links : Links) (n m : NodeId) : Option Interface := (links n).lookup m

/-- `nbr2if[n][m].idx`. -/
def idxTo (links : Links) (n m : NodeId) : Nat := (interfaceTo links n m).elim 0 Interface.idx

/-- `SetRoutingEntries`. A node or destination without next hops adds nothing. -/
def setRoutingEntries (t : Topology) (s : State) : State :=
  let addNexts (table : Tables) (node dst : NodeId) : Tables :=
    (s.nextHop node dst).foldl (fun table next =>
      addTableEntry node (nodeIdToIp dst) table (idxTo s.nbr2if node next)) table
  let rtTable := (List.range t.nodeNum).foldl (fun table node =>
    (List.range t.nodeNum).foldl (fun table dst => addNexts table node dst) table) s.rtTable
  { s with rtTable }

/-- `nbr2if[n][m].up = false`. -/
def setDown (links : Links) (n m : NodeId) : Links :=
  update links n ((links n).map fun e => if e.1 = m then (e.1, { e.2 with up := false }) else e)

/-- `TakeDownLink`, as far as it is about routes. -/
def takeDownLink (t : Topology) (s : State) (a b : NodeId) : State :=
  if (interfaceTo s.nbr2if a b).elim false Interface.up = false then s
  else
    let s := { s with nbr2if := setDown (setDown s.nbr2if a b) b a, nextHop := fun _ _ => [] }
    let s := calculateRoutes t s
    setRoutingEntries t { s with rtTable := fun _ _ => [] }

def initial (links : Links) : State :=
  { nbr2if := links, nextHop := fun _ _ => [], pairDelay := fun _ _ => 0,
    pairTxDelay := fun _ _ => 0, pairBw := fun _ _ => 0, rtTable := fun _ _ => [] }

/-- The routes that `main` sets up. -/
def setup (t : Topology) (links : Links) : State :=
  setRoutingEntries t (calculateRoutes t (initial links))

/-! ## The search is a breadth-first search -/

/-- The neighbours of a node over links that are up. -/
def neighbours (links : Links) (n : NodeId) : List NodeId :=
  ((links n).filter fun e => e.2.up).map Prod.fst

/-- The search from a host. -/
def found (t : Topology) (links : Links) (host : NodeId) : Bfs.State NodeId :=
  Bfs.search (neighbours links) t.isSwitch t.nodeNum (Bfs.start host)

def Search.toBfs (s : Search) : Bfs.State NodeId :=
  { pending := s.q, dis := fun v => (s.path v).map Path.dis, next := s.nextHop }

section Refines

variable {t : Topology} {links : Links}

theorem toBfs_visit (now : NodeId) (path : Path) (s : Search) (it : NodeId × Interface) :
    (visit t now path s it).toBfs =
      if it.2.up then Bfs.visit t.isSwitch now path.dis s.toBfs it.1 else s.toBfs := by
  cases hup : it.2.up with
  | false => simp [visit, hup]
  | true =>
    cases hpath : s.path it.1 with
    | none =>
      have hdis : (path.extend t it.2).dis = path.dis + 1 := rfl
      have hmap : (fun v => (update s.path it.1 (some (path.extend t it.2)) v).map Path.dis) =
          update (fun v => (s.path v).map Path.dis) it.1 (some (path.dis + 1)) := by
        funext v
        rcases eq_or_ne v it.1 with rfl | hne
        · simp [hdis]
        · simp [hne]
      simp [visit, Bfs.visit, Search.toBfs, hup, hpath, hmap, hdis]
    | some found =>
      simp only [visit, Bfs.visit, Search.toBfs, hup, hpath]
      split_ifs <;> simp_all

theorem toBfs_foldl (now : NodeId) (path : Path) (L : List (NodeId × Interface)) (s : Search) :
    (L.foldl (visit t now path) s).toBfs =
      ((L.filter fun e => e.2.up).map Prod.fst).foldl (Bfs.visit t.isSwitch now path.dis)
        s.toBfs := by
  induction L generalizing s with
  | nil => rfl
  | cons it rest ih =>
    rw [List.foldl_cons, ih, toBfs_visit]
    cases hup : it.2.up with
    | false => simp [hup]
    | true => simp [hup]

theorem toBfs_bfs (fuel : Nat) (s : Search) :
    (bfs t links fuel s).toBfs = Bfs.search (neighbours links) t.isSwitch fuel s.toBfs := by
  induction fuel generalizing s with
  | zero => rfl
  | succ fuel ih =>
    rw [bfs, Bfs.search]
    cases hq : s.q with
    | nil => simp [Search.toBfs, hq]
    | cons now q =>
      cases hpath : s.path now with
      | none => simp [Search.toBfs, hq, hpath]
      | some path =>
        have hdis : s.toBfs.dis now = some path.dis := by simp [Search.toBfs, hpath]
        have hpending : s.toBfs.pending = now :: q := hq
        rw [hpending]
        simp only [hpath, hdis, ih, toBfs_foldl]
        rfl

/-- With no next hops to begin with, `CalculateRoute` finds those of the breadth-first
search. -/
theorem calculateRoute_nextHop {s : State} {host : NodeId} (h : ∀ n, s.nextHop n host = [])
    (n dst : NodeId) :
    (calculateRoute t s host).nextHop n dst =
      if dst = host then (found t s.nbr2if host).next n else s.nextHop n dst := by
  have hstart : Search.toBfs
      { q := [host], path := update (fun _ => none) host (some .host),
        nextHop := fun n => s.nextHop n host } = Bfs.start host := by
    simp only [Search.toBfs, Bfs.start, Bfs.State.mk.injEq, true_and]
    refine ⟨?_, funext h⟩
    funext v
    rcases eq_or_ne v host with rfl | hne
    · simp [Path.host]
    · simp [hne]
  rw [found, ← hstart, ← toBfs_bfs]
  rcases eq_or_ne dst host with rfl | hne
  · simp [calculateRoute, Search.toBfs]
  · simp [calculateRoute, hne]

end Refines

/-! ## What the tables hold -/

section Tables

variable {t : Topology} {links : Links} {s : State}

/-- `nextHop` when all hosts have been searched from. -/
def NextHops (t : Topology) (s : State) : Prop :=
  ∀ n dst, s.nextHop n dst = if dst < t.nodeNum ∧ t.isSwitch dst = false then
    (found t s.nbr2if dst).next n else []

@[simp] theorem calculateRoute_nbr2if (s : State) (host : NodeId) :
    (calculateRoute t s host).nbr2if = s.nbr2if := rfl

/-- The searches from some of the nodes. -/
theorem foldl_calculateRoute (L : List NodeId) (hL : L.Nodup) (s : State)
    (h : ∀ n, ∀ dst ∈ L, s.nextHop n dst = []) :
    (L.foldl (fun s node => if t.isSwitch node then s else calculateRoute t s node) s).nbr2if =
        s.nbr2if ∧
      ∀ n dst, (L.foldl (fun s node => if t.isSwitch node then s else calculateRoute t s node)
        s).nextHop n dst =
          if dst ∈ L ∧ t.isSwitch dst = false then (found t s.nbr2if dst).next n
          else s.nextHop n dst := by
  induction L generalizing s with
  | nil => simp
  | cons host rest ih =>
    obtain ⟨hhost, hrest⟩ := List.nodup_cons.mp hL
    have hempty : ∀ n, s.nextHop n host = [] := fun n => h n host List.mem_cons_self
    rw [List.foldl_cons]
    cases hswitch : t.isSwitch host with
    | true =>
      obtain ⟨hlinks, hnext⟩ := ih hrest s fun n dst hdst => h n dst (List.mem_cons_of_mem _ hdst)
      refine ⟨hlinks, ?_⟩
      intro n dst
      rw [if_pos rfl, hnext]
      rcases eq_or_ne dst host with rfl | hne
      · simp [hswitch]
      · simp [hne]
    | false =>
      -- the search of a host writes the entries to this host only
      have hnextHop := calculateRoute_nextHop (t := t) hempty
      rw [if_neg Bool.false_ne_true]
      obtain ⟨hlinks, hnext⟩ := ih hrest (calculateRoute t s host) (by
        intro n dst hdst
        have hne : dst ≠ host := fun heq => hhost (heq ▸ hdst)
        rw [hnextHop, if_neg hne]
        exact h n dst (List.mem_cons_of_mem _ hdst))
      refine ⟨hlinks, ?_⟩
      intro n dst
      rw [hnext, hnextHop, calculateRoute_nbr2if]
      rcases eq_or_ne dst host with rfl | hne
      · simp [hhost, hswitch]
      · simp [hne]

theorem nextHops_calculateRoutes (h : ∀ n dst, s.nextHop n dst = []) :
    (calculateRoutes t s).nbr2if = s.nbr2if ∧ NextHops t (calculateRoutes t s) := by
  obtain ⟨hlinks, hnext⟩ := foldl_calculateRoute (t := t) (List.range t.nodeNum)
    List.nodup_range s fun n dst _ => h n dst
  refine ⟨hlinks, ?_⟩
  intro n dst
  rw [calculateRoutes, hnext, hlinks, h]
  simp only [List.mem_range]

theorem calculateRoutes_rtTable (s : State) : (calculateRoutes t s).rtTable = s.rtTable := by
  rw [calculateRoutes]
  induction List.range t.nodeNum generalizing s with
  | nil => rfl
  | cons node rest ih =>
    rw [List.foldl_cons, ih]
    split <;> rfl

/-- The entries for one node and destination. -/
theorem foldl_addTableEntry (node : NodeId) (dst : UInt32) (f : NodeId → Nat) (L : List NodeId)
    (table : Tables) (n : NodeId) (a : UInt32) :
    L.foldl (fun table next => addTableEntry node dst table (f next)) table n a =
      table n a ++ if n = node ∧ a = dst then L.map f else [] := by
  induction L generalizing table with
  | nil => simp
  | cons next rest ih =>
    rw [List.foldl_cons, ih]
    rcases eq_or_ne n node with rfl | hne
    · rcases eq_or_ne a dst with rfl | hne'
      · simp [addTableEntry]
      · simp [addTableEntry, hne']
    · simp [addTableEntry, hne]

/-- The entries of one node. -/
theorem foldl_dst (node : NodeId) (nexts : NodeId → List NodeId) (f : NodeId → Nat)
    (L : List NodeId) (table : Tables) (n : NodeId) (a : UInt32) :
    L.foldl (fun table dst => (nexts dst).foldl
        (fun table next => addTableEntry node (nodeIdToIp dst) table (f next)) table) table n a =
      table n a ++ if n = node then
        L.flatMap fun dst => if a = nodeIdToIp dst then (nexts dst).map f else [] else [] := by
  induction L generalizing table with
  | nil => simp
  | cons dst rest ih =>
    rw [List.foldl_cons, ih, foldl_addTableEntry]
    rcases eq_or_ne n node with rfl | hne
    · simp
    · simp [hne]

theorem setRoutingEntries_rtTable (s : State) (n : NodeId) (a : UInt32) :
    (setRoutingEntries t s).rtTable n a = s.rtTable n a ++ if n < t.nodeNum then
      (List.range t.nodeNum).flatMap fun dst =>
        if a = nodeIdToIp dst then (s.nextHop n dst).map (idxTo s.nbr2if n) else [] else [] := by
  have hnodes : ∀ (L : List NodeId), L.Nodup → ∀ table : Tables,
      L.foldl (fun table node => (List.range t.nodeNum).foldl (fun table dst =>
        (s.nextHop node dst).foldl (fun table next =>
          addTableEntry node (nodeIdToIp dst) table (idxTo s.nbr2if node next)) table) table)
        table n a = table n a ++ if n ∈ L then
          (List.range t.nodeNum).flatMap fun dst =>
            if a = nodeIdToIp dst then (s.nextHop n dst).map (idxTo s.nbr2if n) else []
        else [] := by
    intro L hL
    induction L with
    | nil => simp
    | cons node rest ih =>
      intro table
      obtain ⟨hnode, hrest⟩ := List.nodup_cons.mp hL
      rw [List.foldl_cons, ih hrest, foldl_dst]
      rcases eq_or_ne n node with rfl | hne
      · simp [hnode]
      · simp [hne]
  have hall := hnodes (List.range t.nodeNum) List.nodup_range s.rtTable
  simp only [List.mem_range] at hall
  exact hall

/-- A list that is empty for all members but one. -/
theorem flatMap_eq_of_single {L : List NodeId} {f : NodeId → List Nat} {h : NodeId}
    (hL : L.Nodup) (hh : h ∈ L) (hf : ∀ dst ∈ L, dst ≠ h → f dst = []) : L.flatMap f = f h := by
  induction L with
  | nil => cases hh
  | cons dst rest ih =>
    obtain ⟨hdst, hrest⟩ := List.nodup_cons.mp hL
    rw [List.flatMap_cons]
    rcases List.mem_cons.mp hh with rfl | hh
    · have hnil : rest.flatMap f = [] := by
        refine List.flatMap_eq_nil_iff.mpr fun dst' hdst' => ?_
        exact hf dst' (List.mem_cons_of_mem _ hdst') fun heq => hdst (heq ▸ hdst')
      rw [hnil, List.append_nil]
    · have hne : dst ≠ h := fun heq => hdst (heq ▸ hh)
      rw [hf dst List.mem_cons_self hne, List.nil_append]
      exact ih hrest hh fun dst' hdst' => hf dst' (List.mem_cons_of_mem _ hdst')

/-- The tables for a host are those of the search from it. -/
def Filled (t : Topology) (s : State) : Prop :=
  ∀ n < t.nodeNum, ∀ h, t.Host h → s.rtTable n (nodeIdToIp h) =
    ((found t s.nbr2if h).next n).map (idxTo s.nbr2if n)

theorem filled_setRoutingEntries (hvalid : Valid t s.nbr2if) (hnext : NextHops t s)
    (hempty : ∀ n a, s.rtTable n a = []) : Filled t (setRoutingEntries t s) := by
  intro n hn h hh
  have hsingle : (List.range t.nodeNum).flatMap (fun dst =>
      if nodeIdToIp h = nodeIdToIp dst then (s.nextHop n dst).map (idxTo s.nbr2if n) else []) =
        (s.nextHop n h).map (idxTo s.nbr2if n) := by
    rw [flatMap_eq_of_single List.nodup_range (List.mem_range.mpr hh.1), if_pos rfl]
    intro dst hdst hne
    split
    · next haddress =>
      -- another node with this address is no host, and has no next hops
      rw [hnext, if_neg, List.map_nil]
      intro hhost
      exact hne (hvalid.address h dst hh hhost haddress).symm
    · rfl
  rw [setRoutingEntries_rtTable, hempty, List.nil_append, if_pos hn, hsingle, hnext,
    if_pos (And.intro hh.1 hh.2)]
  rfl

end Tables

/-! ## Links that go down -/

section TakeDown

variable {t : Topology} {links : Links} {s : State} {a b n m : NodeId}

theorem mem_setDown {e : NodeId × Interface} :
    e ∈ setDown links a b n ↔ ∃ e' ∈ links n, e.1 = e'.1 ∧ e.2.idx = e'.2.idx ∧
      e = if n = a ∧ e'.1 = b then (e'.1, { e'.2 with up := false }) else e' := by
  rcases eq_or_ne n a with rfl | hne
  · simp only [setDown, update_self, List.mem_map, true_and]
    constructor
    · rintro ⟨e', he', rfl⟩
      refine ⟨e', he', ?_⟩
      split_ifs <;> exact ⟨rfl, rfl, rfl⟩
    · rintro ⟨e', he', -, -, heq⟩
      exact ⟨e', he', heq.symm⟩
  · simp only [setDown, update_of_ne hne, hne, false_and, if_false]
    constructor
    · exact fun he => ⟨e, he, rfl, rfl, rfl⟩
    · rintro ⟨e', he', -, -, rfl⟩
      exact he'

theorem map_fst_setDown : (setDown links a b n).map Prod.fst = (links n).map Prod.fst := by
  rcases eq_or_ne n a with rfl | hne
  · rw [setDown, update_self, List.map_map]
    refine List.map_congr_left fun e _ => ?_
    simp only [comp_apply]
    split_ifs <;> rfl
  · rw [setDown, update_of_ne hne]

theorem up_setDown : Up (setDown links a b) n m ↔ Up links n m ∧ ¬(n = a ∧ m = b) := by
  constructor
  · rintro ⟨itf, hmem, hup⟩
    obtain ⟨⟨m', itf'⟩, hmem', hfst, -, heq⟩ := mem_setDown.mp hmem
    obtain rfl : m = m' := hfst
    split at heq
    · cases heq
      cases hup
    · next hother =>
      cases heq
      exact ⟨⟨itf, hmem', hup⟩, hother⟩
  · rintro ⟨⟨itf, hmem, hup⟩, hother⟩
    refine ⟨itf, mem_setDown.mpr ⟨(m, itf), hmem, rfl, rfl, ?_⟩, hup⟩
    rw [if_neg hother]

/-- The topology stays valid when both ends of a link go down. -/
theorem Valid.setDown (h : Valid t links) : Valid t (setDown (setDown links a b) b a) where
  known n e he := by
    obtain ⟨e₁, he₁, hfst₁, -⟩ := mem_setDown.mp he
    obtain ⟨e₂, he₂, hfst₂, -⟩ := mem_setDown.mp he₁
    rw [hfst₁, hfst₂]
    exact h.known n e₂ he₂
  single n := by
    rw [map_fst_setDown, map_fst_setDown]
    exact h.single n
  interface n e he e' he' hidx := by
    obtain ⟨e₁, he₁, hfst₁, hidx₁, -⟩ := mem_setDown.mp he
    obtain ⟨e₂, he₂, hfst₂, hidx₂, -⟩ := mem_setDown.mp he₁
    obtain ⟨e₁', he₁', hfst₁', hidx₁', -⟩ := mem_setDown.mp he'
    obtain ⟨e₂', he₂', hfst₂', hidx₂', -⟩ := mem_setDown.mp he₁'
    rw [hfst₁, hfst₂, hfst₁', hfst₂']
    refine h.interface n e₂ he₂ e₂' he₂' ?_
    rw [← hidx₂, ← hidx₁, hidx, hidx₁', hidx₂']
  symm n m := by
    simp only [up_setDown]
    rintro ⟨⟨hup, hab⟩, hba⟩
    exact ⟨⟨h.symm n m hup, fun hx => hba ⟨hx.2, hx.1⟩⟩, fun hx => hab ⟨hx.2, hx.1⟩⟩
  address := h.address

/-- The topology is valid, and the tables are those of its searches. -/
structure Routed (t : Topology) (s : State) : Prop where
  valid : Valid t s.nbr2if
  filled : Filled t s

theorem routed_setup (h : Valid t links) : Routed t (setup t links) := by
  obtain ⟨hlinks, hnext⟩ := nextHops_calculateRoutes (t := t) (s := initial links) fun _ _ => rfl
  refine ⟨hlinks ▸ h, filled_setRoutingEntries (hlinks ▸ h) hnext ?_⟩
  intro n a
  rw [calculateRoutes_rtTable]
  rfl

theorem setup_nbr2if (t : Topology) (links : Links) : (setup t links).nbr2if = links :=
  (nextHops_calculateRoutes (t := t) (s := initial links) fun _ _ => rfl).1

theorem Routed.takeDownLink (h : Routed t s) (a b : NodeId) :
    Routed t (takeDownLink t s a b) := by
  rw [Routing.takeDownLink]
  split
  · exact h
  · have hvalid := h.valid.setDown (a := a) (b := b)
    obtain ⟨hlinks, hnext⟩ := nextHops_calculateRoutes (t := t)
      (s := { s with nbr2if := setDown (setDown s.nbr2if a b) b a, nextHop := fun _ _ => [] })
      fun _ _ => rfl
    exact ⟨hlinks ▸ hvalid, filled_setRoutingEntries (hlinks ▸ hvalid) hnext fun _ _ => rfl⟩

/-- The links in `downs` go down one after the other. -/
def takeDownLinks (t : Topology) (s : State) (downs : List (NodeId × NodeId)) : State :=
  downs.foldl (fun s link => takeDownLink t s link.1 link.2) s

theorem Routed.takeDownLinks (h : Routed t s) (downs : List (NodeId × NodeId)) :
    Routed t (takeDownLinks t s downs) := by
  induction downs generalizing s with
  | nil => exact h
  | cons link rest ih => exact ih (h.takeDownLink link.1 link.2)

end TakeDown

/-! ## Shortest paths and forwarding -/

/-- The paths to a host over links that are up have only switches between their ends.
The shortest one from `n` takes `d` hops. -/
def DistTo (t : Topology) (s : State) (h n : NodeId) (d : Nat) : Prop :=
  Dist (neighbours s.nbr2if) t.isSwitch h n d

/-- There is a path from `n` to the host. -/
def Reachable (t : Topology) (s : State) (h n : NodeId) : Prop :=
  ∃ k, Hops (neighbours s.nbr2if) t.isSwitch h k n

/-- The tables hold the next hops on all shortest paths to a host. -/
structure ShortestPaths (t : Topology) (s : State) (h : NodeId) : Prop where
  nodup : ∀ n < t.nodeNum, (s.rtTable n (nodeIdToIp h)).Nodup
  mem_iff : ∀ n < t.nodeNum, ∀ idx, idx ∈ s.rtTable n (nodeIdToIp h) ↔
    ∃ m itf, (m, itf) ∈ s.nbr2if n ∧ itf.up = true ∧ itf.idx = idx ∧
      (m = h ∨ t.isSwitch m = true) ∧ ∃ d, DistTo t s h m d ∧ DistTo t s h n (d + 1)
  missing_iff : ∀ n < t.nodeNum, n ≠ h →
    (s.rtTable n (nodeIdToIp h) = [] ↔ ¬Reachable t s h n)

/-- Some entry of the table of `n` for the host `h` leads to `m`. -/
def Forwards (s : State) (h n m : NodeId) : Prop :=
  ∃ itf, (m, itf) ∈ s.nbr2if n ∧ itf.idx ∈ s.rtTable n (nodeIdToIp h)

/-- Whatever entries are chosen, a packet goes over links that are up and through
switches, meets no node twice, and is at the host after as many hops as it was away from
it: it can go on before, and does not arrive before. -/
structure LoopFree (t : Topology) (s : State) (h n : NodeId) (d : Nat) (route : List NodeId) :
    Prop where
  nodup : (n :: route).Nodup
  up : List.IsChain (Up s.nbr2if) (n :: route)
  transit : ∀ m ∈ route, m = h ∨ t.isSwitch m = true
  length_le : route.length ≤ d
  arrived_iff : (n :: route).getLast (List.cons_ne_nil n route) = h ↔ route.length = d
  goes_on : route.length < d →
    ∃ m, Forwards s h ((n :: route).getLast (List.cons_ne_nil n route)) m

section Routed

variable {t : Topology} {s : State} {h n m : NodeId} {d : Nat}

theorem mem_neighbours {links : Links} : m ∈ neighbours links n ↔ Up links n m := by
  simp [neighbours, Up]

theorem Valid.nodup_neighbours {links : Links} (hvalid : Valid t links) (n : NodeId) :
    (neighbours links n).Nodup :=
  (hvalid.single n).sublist (List.filter_sublist.map Prod.fst)

theorem Valid.neighbours_lt {links : Links} (hvalid : Valid t links) (n : NodeId) :
    ∀ m ∈ neighbours links n, m ∈ List.range t.nodeNum := by
  intro m hm
  obtain ⟨itf, hmem, -⟩ := mem_neighbours.mp hm
  exact List.mem_range.mpr (hvalid.known n (m, itf) hmem)

/-- Each entry of `nbr2if` is the one that is looked up. -/
theorem Valid.interfaceTo {links : Links} (hvalid : Valid t links) {itf : Interface}
    (hmem : (m, itf) ∈ links n) : interfaceTo links n m = some itf := by
  have hnodup := hvalid.single n
  rw [Routing.interfaceTo]
  generalize links n = L at hmem hnodup ⊢
  induction L with
  | nil => cases hmem
  | cons e rest ih =>
    obtain ⟨hfirst, hrest⟩ := List.nodup_cons.mp hnodup
    rcases List.mem_cons.mp hmem with heq | hmem
    · rw [← heq, List.lookup_cons_self]
    · have hne : m ≠ e.1 := fun heq => hfirst (heq ▸ List.mem_map_of_mem hmem)
      rw [List.lookup_cons, beq_false_of_ne hne]
      exact ih hmem hrest

theorem Routed.mem_next_iff (hs : Routed t s) (hh : t.Host h) :
    m ∈ (found t s.nbr2if h).next n ↔
      Up s.nbr2if n m ∧ (m = h ∨ t.isSwitch m = true) ∧
        ∃ d, DistTo t s h m d ∧ DistTo t s h n (d + 1) := by
  have hup : n ∈ neighbours s.nbr2if m ↔ Up s.nbr2if n m :=
    mem_neighbours.trans ⟨hs.valid.symm m n, hs.valid.symm n m⟩
  rw [found, Bfs.mem_next_search_iff hs.valid.nodup_neighbours (List.mem_range.mpr hh.1)
    hs.valid.neighbours_lt (Nat.le_of_eq List.length_range), hup]
  exact and_left_comm

/-- An entry of the table stands for a next hop of the search. -/
theorem Routed.idx_mem_iff (hs : Routed t s) (hh : t.Host h) (hn : n < t.nodeNum)
    {itf : Interface} (hmem : (m, itf) ∈ s.nbr2if n) :
    itf.idx ∈ s.rtTable n (nodeIdToIp h) ↔ m ∈ (found t s.nbr2if h).next n := by
  have hidx : ∀ {m itf}, (m, itf) ∈ s.nbr2if n → idxTo s.nbr2if n m = itf.idx := by
    intro m itf hmem
    rw [idxTo, hs.valid.interfaceTo hmem]
    rfl
  rw [hs.filled n hn h hh, List.mem_map]
  constructor
  · rintro ⟨m', hm', heq⟩
    obtain ⟨itf', hmem', -⟩ := ((hs.mem_next_iff hh).mp hm').1
    rw [hidx hmem'] at heq
    have hfst : m' = m := hs.valid.interface n _ hmem' _ hmem heq
    exact hfst ▸ hm'
  · exact fun hm => ⟨m, hm, hidx hmem⟩

theorem Routed.shortestPaths (hs : Routed t s) (hh : t.Host h) : ShortestPaths t s h where
  nodup n hn := by
    rw [hs.filled n hn h hh]
    refine List.Nodup.map_on ?_ (Bfs.nodup_next_search hs.valid.nodup_neighbours
      (List.mem_range.mpr hh.1) hs.valid.neighbours_lt (Nat.le_of_eq List.length_range) n)
    intro m hm m' hm' heq
    obtain ⟨itf, hmem, -⟩ := ((hs.mem_next_iff hh).mp hm).1
    obtain ⟨itf', hmem', -⟩ := ((hs.mem_next_iff hh).mp hm').1
    rw [idxTo, idxTo, hs.valid.interfaceTo hmem, hs.valid.interfaceTo hmem'] at heq
    exact hs.valid.interface n _ hmem _ hmem' heq
  mem_iff n hn idx := by
    constructor
    · intro hidx
      obtain ⟨m, hm, hm'⟩ := List.mem_map.mp (hs.filled n hn h hh ▸ hidx)
      obtain ⟨⟨itf, hmem, hup⟩, hrelays, hdist⟩ := (hs.mem_next_iff hh).mp hm
      rw [idxTo, hs.valid.interfaceTo hmem] at hm'
      exact ⟨m, itf, hmem, hup, hm', hrelays, hdist⟩
    · rintro ⟨m, itf, hmem, hup, rfl, hrelays, hdist⟩
      exact (hs.idx_mem_iff hh hn hmem).mpr
        ((hs.mem_next_iff hh).mpr ⟨⟨itf, hmem, hup⟩, hrelays, hdist⟩)
  missing_iff n hn hne := by
    rw [hs.filled n hn h hh, List.map_eq_nil_iff]
    constructor
    · rintro hnil ⟨k, hops⟩
      -- a node with a path has a nearer neighbour, which would be a next hop
      obtain ⟨d, hd⟩ := Bfs.exists_dist hops
      cases d with
      | zero => exact hne (Bfs.dist_zero_iff.mp hd)
      | succ d =>
        obtain ⟨m, hrelays, hadj, hm⟩ := hd.exists_nearer
        have hmem : m ∈ (found t s.nbr2if h).next n := (hs.mem_next_iff hh).mpr
          ⟨hs.valid.symm m n (mem_neighbours.mp hadj), hrelays, d, hm, hd⟩
        rw [hnil] at hmem
        cases hmem
    · intro hunreachable
      refine List.eq_nil_iff_forall_not_mem.mpr fun m hm => ?_
      obtain ⟨-, -, d, -, hd⟩ := (hs.mem_next_iff hh).mp hm
      exact hunreachable ⟨d + 1, hd.1⟩

/-- The search finds the distances. -/
theorem Routed.dis_iff (hs : Routed t s) (hh : t.Host h) :
    (found t s.nbr2if h).dis n = some d ↔ DistTo t s h n d :=
  Bfs.dis_search_iff hs.valid.nodup_neighbours (List.mem_range.mpr hh.1)
    hs.valid.neighbours_lt (Nat.le_of_eq List.length_range)

/-- A hop goes over a link that is up, to a nearer switch or to the host. -/
theorem Routed.forwards (hs : Routed t s) (hh : t.Host h) (hn : n < t.nodeNum)
    (hforwards : Forwards s h n m) :
    Up s.nbr2if n m ∧ (m = h ∨ t.isSwitch m = true) ∧
      Nearer (neighbours s.nbr2if) t.isSwitch h n m := by
  obtain ⟨itf, hmem, hidx⟩ := hforwards
  exact (hs.mem_next_iff hh).mp ((hs.idx_mem_iff hh hn hmem).mp hidx)

theorem Routed.exists_forwards (hs : Routed t s) (hh : t.Host h) (hn : n < t.nodeNum)
    (hd : DistTo t s h n (d + 1)) : ∃ m, Forwards s h n m := by
  obtain ⟨m, hrelays, hadj, hm⟩ := hd.exists_nearer
  obtain ⟨itf, hmem, hup⟩ := hs.valid.symm m n (mem_neighbours.mp hadj)
  refine ⟨m, itf, hmem, (hs.idx_mem_iff hh hn hmem).mpr ?_⟩
  exact (hs.mem_next_iff hh).mpr ⟨⟨itf, hmem, hup⟩, hrelays, d, hm, hd⟩

/-- The hops of a route, each by itself. -/
theorem Routed.isChain (hs : Routed t s) (hh : t.Host h) {route : List NodeId}
    (hn : n < t.nodeNum) (hroute : List.IsChain (Forwards s h) (n :: route)) :
    List.IsChain (Up s.nbr2if) (n :: route) ∧
      List.IsChain (Nearer (neighbours s.nbr2if) t.isSwitch h) (n :: route) ∧
      (∀ m ∈ route, m = h ∨ t.isSwitch m = true) ∧
      (n :: route).getLast (List.cons_ne_nil n route) < t.nodeNum := by
  induction route generalizing n with
  | nil => exact ⟨.singleton n, .singleton n, by simp, hn⟩
  | cons m rest ih =>
    obtain ⟨hforwards, hrest⟩ := List.isChain_cons_cons.mp hroute
    obtain ⟨hup, hrelays, hnearer⟩ := hs.forwards hh hn hforwards
    have hm : m < t.nodeNum := by
      obtain ⟨itf, hmem, -⟩ := hup
      exact hs.valid.known n (m, itf) hmem
    obtain ⟨hups, hnearers, htransit, hlast⟩ := ih hm hrest
    refine ⟨.cons_cons hup hups, .cons_cons hnearer hnearers, ?_, ?_⟩
    · exact List.forall_mem_cons.mpr ⟨hrelays, htransit⟩
    · rwa [List.getLast_cons (List.cons_ne_nil m rest)]

theorem Routed.loopFree (hs : Routed t s) (hh : t.Host h) {route : List NodeId}
    (hn : n < t.nodeNum) (hd : DistTo t s h n d)
    (hroute : List.IsChain (Forwards s h) (n :: route)) : LoopFree t s h n d route := by
  obtain ⟨hups, hnearers, htransit, hlast⟩ := hs.isChain hh hn hroute
  obtain ⟨hnodup, -, left, hleft, hlen⟩ := Bfs.Dist.of_chain hd hnearers
  refine ⟨hnodup, hups, htransit, ?_, ?_, ?_⟩
  · exact Nat.le.intro hlen
  · constructor
    · intro harrived
      rw [harrived] at hleft
      obtain rfl : left = 0 := hleft.unique (Bfs.dist_zero_iff.mpr rfl)
      exact hlen
    · intro hall
      obtain rfl : left = 0 := Nat.add_left_cancel (hlen.trans hall.symm)
      exact Bfs.dist_zero_iff.mp hleft
  · intro hlt
    cases left with
    | zero => exact absurd hlen (Nat.ne_of_lt hlt)
    | succ left => exact hs.exists_forwards hh hlast hleft

end Routed

/-- After the setup and any number of link failures, the tables hold the next hops on all
shortest paths, and packets come to their hosts without loops. -/
theorem routing {t : Topology} {links : Links} (hvalid : Valid t links)
    (downs : List (NodeId × NodeId)) {h : NodeId} (hh : t.Host h) :
    ShortestPaths t (takeDownLinks t (setup t links) downs) h ∧
      ∀ n < t.nodeNum, ∀ d, DistTo t (takeDownLinks t (setup t links) downs) h n d →
        ∀ route, List.IsChain (Forwards (takeDownLinks t (setup t links) downs) h) (n :: route) →
          LoopFree t (takeDownLinks t (setup t links) downs) h n d route := by
  have hs : Routed t (takeDownLinks t (setup t links) downs) :=
    (routed_setup hvalid).takeDownLinks downs
  refine ⟨hs.shortestPaths hh, ?_⟩
  intro n hn d hd route hroute
  exact hs.loopFree hh hn hd hroute

/-! ## A host with two links

Node 3 is a host behind the switches 0, 1 and 2 in a row. Host 4 has links to the
switches 0 and 2, and is as near to host 3 as switch 1 is. -/

theorem nodeIdToIp_toNat {id : Nat} (h : id < 2 ^ 24) :
    (nodeIdToIp id).toNat = (0x0b000001 + id / 256 * 0x10000 + id % 256 * 0x100) % 2 ^ 32 := by
  have hid : id % 4294967296 = id := Nat.mod_eq_of_lt (by omega)
  simp [nodeIdToIp, UInt32.toNat_add, UInt32.toNat_mul, UInt32.toNat_div, UInt32.toNat_mod, hid]

/-- The first 2^24 nodes have addresses of their own. -/
theorem nodeIdToIp_inj {id id' : Nat} (h : id < 2 ^ 24) (h' : id' < 2 ^ 24)
    (heq : nodeIdToIp id = nodeIdToIp id') : id = id' := by
  have hnat := congrArg UInt32.toNat heq
  rw [nodeIdToIp_toNat h, nodeIdToIp_toNat h'] at hnat
  omega

/-- Only the links of the nodes have to be looked at. -/
theorem Valid.of_bounded {t : Topology} {links : Links} (hcount : t.nodeNum ≤ 2 ^ 24)
    (hnone : ∀ n, t.nodeNum ≤ n → links n = [])
    (h : ∀ n < t.nodeNum, (∀ e ∈ links n, e.1 < t.nodeNum) ∧ ((links n).map Prod.fst).Nodup ∧
      (∀ e ∈ links n, ∀ e' ∈ links n, e.2.idx = e'.2.idx → e.1 = e'.1) ∧
      ∀ m ∈ neighbours links n, n ∈ neighbours links m) : Valid t links := by
  have hlt : ∀ n, ∀ e ∈ links n, n < t.nodeNum := by
    intro n e he
    rcases Nat.lt_or_ge n t.nodeNum with hn | hn
    · exact hn
    · rw [hnone n hn] at he
      cases he
  constructor
  case known => exact fun n e he => (h n (hlt n e he)).1 e he
  case single =>
    intro n
    rcases Nat.lt_or_ge n t.nodeNum with hn | hn
    · exact (h n hn).2.1
    · simp [hnone n hn]
  case interface => exact fun n e he => (h n (hlt n e he)).2.2.1 e he
  case symm =>
    intro n m hup
    obtain ⟨itf, hmem, -⟩ := id hup
    exact mem_neighbours.mp ((h n (hlt n _ hmem)).2.2.2 m (mem_neighbours.mpr hup))
  case address =>
    intro h₁ h₂ hh₁ hh₂ heq
    exact nodeIdToIp_inj (Nat.lt_of_lt_of_le hh₁.1 hcount) (Nat.lt_of_lt_of_le hh₂.1 hcount) heq

instance (s : State) (h n m : NodeId) : Decidable (Forwards s h n m) :=
  decidable_of_iff (∃ e ∈ s.nbr2if n, e.1 = m ∧ e.2.idx ∈ s.rtTable n (nodeIdToIp h)) <| by
    constructor
    · rintro ⟨⟨m', itf⟩, hmem, rfl, hidx⟩
      exact ⟨itf, hmem, hidx⟩
    · rintro ⟨itf, hmem, hidx⟩
      exact ⟨(m, itf), hmem, rfl, hidx⟩

def dualHomed : Topology := { nodeNum := 5, isSwitch := fun n => n < 3, packetPayloadSize := 1000 }

def link (m idx : Nat) : NodeId × Interface :=
  (m, { idx, up := true, delay := 1000, bw := 100000000000, bw_pos := by decide })

def dualHomedLinks : Links
  | 0 => [link 1 1, link 4 2]
  | 1 => [link 0 1, link 2 2]
  | 2 => [link 1 1, link 3 2, link 4 3]
  | 3 => [link 2 1]
  | 4 => [link 0 1, link 2 2]
  | _ => []

theorem dualHomed_valid : Valid dualHomed dualHomedLinks := by
  refine .of_bounded (by decide) ?_ (by decide)
  intro n hn
  match n, hn with
  | 0, hn | 1, hn | 2, hn | 3, hn | 4, hn => exact absurd hn (by decide)
  | _ + 5, _ => rfl

theorem dualHomed_host : dualHomed.Host 3 := ⟨by decide, rfl⟩

/-- Host 4 is one hop nearer to host 3 than switch 0 is, and no next hop of switch 0. -/
theorem host_not_nextHop :
    Valid dualHomed dualHomedLinks ∧ dualHomed.Host 3 ∧
    ¬ ∀ idx, idx ∈ (setup dualHomed dualHomedLinks).rtTable 0 (nodeIdToIp 3) ↔
      ∃ m itf, (m, itf) ∈ (setup dualHomed dualHomedLinks).nbr2if 0 ∧ itf.up = true ∧
        itf.idx = idx ∧ ∃ d, DistTo dualHomed (setup dualHomed dualHomedLinks) 3 m d ∧
          DistTo dualHomed (setup dualHomed dualHomedLinks) 3 0 (d + 1) := by
  refine ⟨dualHomed_valid, dualHomed_host, fun hclaim => ?_⟩
  have hs := routed_setup dualHomed_valid
  have hmem : link 4 2 ∈ (setup dualHomed dualHomedLinks).nbr2if 0 := by
    rw [setup_nbr2if]
    exact List.mem_cons_of_mem _ List.mem_cons_self
  have hhost : DistTo dualHomed (setup dualHomed dualHomedLinks) 3 4 2 :=
    (hs.dis_iff dualHomed_host).mp (by decide +kernel)
  have hswitch : DistTo dualHomed (setup dualHomed dualHomedLinks) 3 0 3 :=
    (hs.dis_iff dualHomed_host).mp (by decide +kernel)
  have hentry : 2 ∈ (setup dualHomed dualHomedLinks).rtTable 0 (nodeIdToIp 3) :=
    (hclaim 2).mpr ⟨4, (link 4 2).2, hmem, rfl, rfl, 2, hhost, hswitch⟩
  exact absurd hentry (by decide +kernel)

/-- The other link of host 4 goes down. Packets of host 4 go through all switches then. -/
theorem routing_dualHomed :
    ShortestPaths dualHomed
        (takeDownLinks dualHomed (setup dualHomed dualHomedLinks) [(4, 2)]) 3 ∧
      LoopFree dualHomed (takeDownLinks dualHomed (setup dualHomed dualHomedLinks) [(4, 2)]) 3 4 4
        [0, 1, 2, 3] := by
  have hs := (routed_setup dualHomed_valid).takeDownLinks [(4, 2)]
  obtain ⟨hshortest, hloopFree⟩ := routing dualHomed_valid [(4, 2)] dualHomed_host
  refine ⟨hshortest, hloopFree 4 (by decide) 4 ?_ [0, 1, 2, 3] (by decide +kernel)⟩
  exact (hs.dis_iff dualHomed_host).mp (by decide +kernel)

end Paraleon.Routing
