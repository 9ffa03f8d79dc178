import Mathlib.Algebra.Order.BigOperators.Group.List
import Mathlib.Algebra.Order.Ring.Nat
import Mathlib.Data.List.Lex
import Mathlib.Data.Prod.Lex
import Mathlib.Data.Set.Finite.List
import Paraleon.Library.Enumeration

/-!
# The ways in which flows share a counter

`BetaGenerator` of `src/src/point-to-point/model/algorithms/elasticSketch/EMFSD.h` goes through
the sizes that a number of flows may have whose packets all count in one light counter.

* `newCombFrom_spec`: `get_new_comb` takes the next combination of the same number of flows.
* `generates_splits`: `get_next` goes through the ways to write `sum` as a sum of fewer than
  `flow_num_limit` positive sizes in order, each of them once.
-/

namespace Paraleon.Sketch

structure BetaGenerator where
  sum : ℕ
  nowFlowNum : ℕ
  flowNumLimit : ℕ
  nowResult : List ℕ
  deriving DecidableEq

namespace BetaGenerator

def create (sum : ℕ) : BetaGenerator where
  sum := sum
  nowFlowNum := 0
  flowNumLimit := if sum > 600 then 3 else if sum > 300 then 4 else if sum > 50 then 5 else 7
  nowResult := []

/-- `v.resize (n)` -/
def resize (v : List ℕ) (n : ℕ) : List ℕ := (v ++ List.replicate (n - v.length) 0).take n

/-- `for (k = from; k < to; ++k) v[k] = t` -/
def fill (v : List ℕ) (start stop t : ℕ) : List ℕ :=
  (List.range' start (stop - start)).foldl (fun v k => v.set k t) v

/-- The sizes after `++now_result[j]`, with the ones behind it as large -/
def raise (g : BetaGenerator) (j : ℕ) : BetaGenerator :=
  let t := g.nowResult.getD j 0 + 1
  { g with nowResult := fill (g.nowResult.set j t) (j + 1) (g.nowFlowNum - 1) t }

/-- What the sizes but the last one leave over -/
def remain (g : BetaGenerator) : ℤ := g.sum - (g.nowResult.take (g.nowFlowNum - 1)).sum

/-- The loop of `get_new_comb`, for `j` from one less than the argument down to zero -/
def newCombFrom (g : BetaGenerator) : ℕ → BetaGenerator × Bool
  | 0 => (g, false)
  | j + 1 =>
    let g := g.raise j
    if (g.nowResult.getD (g.nowFlowNum - 2) 0 : ℤ) ≤ g.remain then
      ({ g with nowResult := g.nowResult.set (g.nowFlowNum - 1) g.remain.toNat }, true)
    else newCombFrom g j

def getNewComb (g : BetaGenerator) : BetaGenerator × Bool := g.newCombFrom (g.nowFlowNum - 1)

/-- The first combination of one more flow comes after this one. -/
def oneMoreFlow (g : BetaGenerator) : BetaGenerator :=
  let n := g.nowFlowNum + 1
  { g with nowFlowNum := n, nowResult := (fill g.nowResult 0 (n - 2) 1).set (n - 2) 0 }

/-- The loop of `get_next`, in at most `fuel` turns -/
def getNextFrom : ℕ → BetaGenerator → BetaGenerator × Bool
  | 0, g => (g, false)
  | fuel + 1, g =>
    if g.nowFlowNum < g.flowNumLimit then
      if g.nowFlowNum = 0 then
        ({ g with nowFlowNum := 1, nowResult := (resize g.nowResult 1).set 0 g.sum }, true)
      else
        -- the case of one flow falls through
        let g := if g.nowFlowNum = 1 then
          { g with nowFlowNum := 2, nowResult := g.nowResult.set 0 0 } else g
        let r := getNewComb { g with nowResult := resize g.nowResult g.nowFlowNum }
        if r.2 then r else getNextFrom fuel r.1.oneMoreFlow
    else (g, false)

/-- `get_next`: each turn of its loop adds a flow. -/
def getNext (g : BetaGenerator) : BetaGenerator × Bool := getNextFrom (g.flowNumLimit + 1) g

/-- `while (bt.get_next ())` -/
def next (g : BetaGenerator) : Option BetaGenerator :=
  if g.getNext.2 then some g.getNext.1 else none

/-! ## Combinations as lists -/

/-- `r` are the sizes, in order, of flows that make up `s`. -/
structure IsSplit (s : ℕ) (r : List ℕ) : Prop where
  nonempty : r ≠ []
  sorted : r.Pairwise (· ≤ ·)
  pos : ∀ x ∈ r, 1 ≤ x
  sum : r.sum = s

/-- A last size that is not less than the others makes up `s`. -/
def Fits (s : ℕ) (q : List ℕ) : Prop := q.sum + q.getLastD 0 ≤ s

/-- All sizes of a split but the last one -/
structure Starts (s : ℕ) (q : List ℕ) : Prop where
  nonempty : q ≠ []
  sorted : q.Pairwise (· ≤ ·)
  pos : ∀ x ∈ q, 1 ≤ x
  fits : Fits s q

/-- What the generator tries next: the size at `j` is raised, and those behind it are as
large. -/
def candidate (p : List ℕ) (j : ℕ) : List ℕ :=
  p.take j ++ List.replicate (p.length - j) (p.getD j 0 + 1)

theorem le_getLastD {q : List ℕ} (h : q.Pairwise (· ≤ ·)) {x : ℕ} (hx : x ∈ q) :
    x ≤ q.getLastD 0 := by
  rcases List.eq_nil_or_concat' q with rfl | ⟨u, b, rfl⟩
  · exact absurd hx List.not_mem_nil
  · rw [List.getLastD_concat]
    rcases List.mem_append.mp hx with hx | hx
    · exact (List.pairwise_append.mp h).2.2 x hx b (List.mem_singleton_self b)
    · exact (List.mem_singleton.mp hx).le

/-- A split of several sizes is determined by all of them but the last one. -/
theorem isSplit_append_iff {s x : ℕ} {q : List ℕ} (hq : q ≠ []) :
    IsSplit s (q ++ [x]) ↔ Starts s q ∧ x = s - q.sum := by
  have hlast : q.getLastD 0 ∈ q := by
    rcases List.eq_nil_or_concat' q with rfl | ⟨u, b, rfl⟩
    · exact absurd rfl hq
    · rw [List.getLastD_concat]
      exact List.mem_append_right u (List.mem_singleton_self b)
  constructor
  · rintro ⟨-, hsorted, hpos, hsum⟩
    obtain ⟨hs, -, hle⟩ := List.pairwise_append.mp hsorted
    rw [List.sum_append, List.sum_singleton] at hsum
    have hx : q.getLastD 0 ≤ x := hle _ hlast x (List.mem_singleton_self x)
    exact ⟨⟨hq, hs, fun y hy => hpos y (List.mem_append_left _ hy), by unfold Fits; lia⟩, by lia⟩
  · rintro ⟨⟨-, hsorted, hpos, hfits⟩, rfl⟩
    unfold Fits at hfits
    have hx : ∀ y ∈ q, y ≤ s - q.sum := fun y hy => (le_getLastD hsorted hy).trans (by lia)
    refine ⟨by simp, ?_, ?_, ?_⟩
    · exact List.pairwise_append.mpr ⟨hsorted, List.pairwise_singleton .., fun y hy z hz =>
        List.mem_singleton.mp hz ▸ hx y hy⟩
    · intro y hy
      rcases List.mem_append.mp hy with hy | hy
      · exact hpos y hy
      · exact List.mem_singleton.mp hy ▸ (hpos _ hlast).trans (hx _ hlast)
    · rw [List.sum_append, List.sum_singleton]
      lia

/-- Lists in order differ at some place first. -/
theorem exists_append_of_lt {p q : List ℕ} (hlen : p.length = q.length) (h : p < q) :
    ∃ u a v b w, p = u ++ a :: v ∧ q = u ++ b :: w ∧ a < b ∧ v.length = w.length := by
  induction p generalizing q with
  | nil =>
    obtain rfl := List.eq_nil_of_length_eq_zero hlen.symm
    exact absurd h (lt_irrefl _)
  | cons a p ih =>
    cases q with
    | nil => exact absurd hlen (Nat.succ_ne_zero _)
    | cons b q =>
      have hpq' : p.length = q.length := Nat.succ.inj hlen
      rcases List.cons_lt_cons_iff.mp h with hab | ⟨rfl, hpq⟩
      · exact ⟨[], a, p, b, q, rfl, rfl, hab, hpq'⟩
      · obtain ⟨u, c, v, d, w, rfl, rfl, hcd, hvw⟩ := ih hpq' hpq
        exact ⟨a :: u, c, v, d, w, rfl, rfl, hcd, hvw⟩

theorem append_lt_append {u : List ℕ} {a b : ℕ} (v w : List ℕ) (h : a < b) :
    u ++ a :: v < u ++ b :: w := by
  induction u with
  | nil => exact List.cons_lt_cons_iff.mpr (.inl h)
  | cons c u ih => exact List.cons_lt_cons_iff.mpr (.inr ⟨rfl, ih⟩)

theorem append_le_append {u v w : List ℕ} (h : v ≤ w) : u ++ v ≤ u ++ w := by
  induction u with
  | nil => exact h
  | cons c u ih =>
    refine not_lt.mp fun hlt => ?_
    rcases List.cons_lt_cons_iff.mp hlt with hcc | ⟨-, hlt⟩
    · exact lt_irrefl c hcc
    · exact not_lt.mpr ih hlt

/-- The least list of sizes of at least `t` -/
theorem replicate_le {l : List ℕ} {t : ℕ} (h : ∀ x ∈ l, t ≤ x) : List.replicate l.length t ≤ l := by
  induction l with
  | nil => exact le_rfl
  | cons x l ih =>
    obtain ⟨hx, hl⟩ := List.forall_mem_cons.mp h
    rw [List.length_cons, List.replicate_succ]
    refine not_lt.mp fun hlt => ?_
    rcases List.cons_lt_cons_iff.mp hlt with hxt | ⟨-, hlt⟩
    · exact absurd hx (not_le.mpr hxt)
    · exact not_lt.mpr (ih hl) hlt

theorem length_mul_le_sum {l : List ℕ} {t : ℕ} (h : ∀ x ∈ l, t ≤ x) : l.length * t ≤ l.sum := by
  induction l with
  | nil => exact (Nat.zero_mul t).le
  | cons x l ih =>
    obtain ⟨hx, hl⟩ := List.forall_mem_cons.mp h
    rw [List.length_cons, List.sum_cons, Nat.succ_mul, Nat.add_comm]
    exact Nat.add_le_add hx (ih hl)

theorem candidate_append (u v : List ℕ) (a : ℕ) :
    candidate (u ++ a :: v) u.length = u ++ List.replicate (v.length + 1) (a + 1) := by
  rw [candidate, List.take_left, List.getD_eq_getElem?_getD, List.getElem?_append_right le_rfl,
    Nat.sub_self, List.length_append, Nat.add_sub_cancel_left, List.length_cons]
  rfl

/-- A candidate that raises a later size comes before one that raises an earlier one. -/
theorem candidate_lt {u v w : List ℕ} {a b j : ℕ} (hab : a < b) (hj : u.length < j) :
    candidate (u ++ a :: v) j < u ++ b :: w := by
  obtain ⟨k, rfl⟩ := Nat.exists_eq_add_of_lt hj
  have htake : (u ++ a :: v).take (u.length + k + 1) = u ++ a :: v.take k := by
    rw [Nat.add_assoc, List.take_length_add_append, List.take_succ_cons]
  rw [candidate, htake, List.append_assoc, List.cons_append]
  exact append_lt_append _ _ hab

/-- The candidate at the first place where a later start differs is not after it, and fits if
the start does. -/
theorem candidate_least {s a b : ℕ} {u v w : List ℕ} (hq : Starts s (u ++ b :: w)) (hab : a < b)
    (hlen : v.length = w.length) :
    candidate (u ++ a :: v) u.length ≤ u ++ b :: w ∧
      Fits s (candidate (u ++ a :: v) u.length) := by
  have hge : ∀ x ∈ b :: w, a + 1 ≤ x := fun x hx => by
    have hs := (List.pairwise_append.mp hq.sorted).2.1
    rcases List.mem_cons.mp hx with rfl | hx
    · exact hab
    · exact le_trans hab ((List.pairwise_cons.mp hs).1 x hx)
  have hrep := replicate_le hge
  rw [List.length_cons, ← hlen] at hrep
  rw [candidate_append]
  refine ⟨append_le_append hrep, ?_⟩
  have hsum := length_mul_le_sum hge
  have hlast : a + 1 ≤ (u ++ b :: w).getLastD 0 :=
    (hge b List.mem_cons_self).trans
      (le_getLastD hq.sorted (List.mem_append_right u List.mem_cons_self))
  have hfits := hq.fits
  unfold Fits at hfits ⊢
  rw [List.sum_append] at hfits ⊢
  rw [List.length_cons, ← hlen] at hsum
  have hend : (u ++ List.replicate (v.length + 1) (a + 1)).getLastD 0 = a + 1 := by
    rw [List.replicate_succ', ← List.append_assoc, List.getLastD_concat]
  rw [hend, List.sum_replicate_nat]
  lia

/-- The sizes but the last one are in order and positive, and the last one is at most one less
than the others: a start, or the first try of one more flow. -/
structure Base (p : List ℕ) : Prop where
  sorted : p.dropLast.Pairwise (· ≤ ·)
  pos : ∀ x ∈ p.dropLast, 1 ≤ x
  last : ∀ x ∈ p.dropLast, x ≤ p.getLastD 0 + 1

theorem candidate_starts {s : ℕ} {p : List ℕ} (hp : Base p) {j : ℕ} (hj : j < p.length)
    (hfits : Fits s (candidate p j)) : Starts s (candidate p j) := by
  have hmem : ∀ x ∈ p.take j, x ∈ p.dropLast := fun x hx => by
    rw [List.dropLast_eq_take]
    exact List.take_subset_take_left p (Nat.le_sub_one_of_lt hj) hx
  have hsorted : (p.take j).Pairwise (· ≤ ·) := by
    refine hp.sorted.sublist ?_
    rw [List.dropLast_eq_take]
    exact List.take_sublist_take_left (Nat.le_sub_one_of_lt hj)
  have htop : ∀ x ∈ p.take j, x ≤ p.getD j 0 + 1 := fun x hx => by
    rcases (Nat.le_sub_one_of_lt hj).eq_or_lt with rfl | hlt
    · have hlast : p.getLastD 0 = p.getD (p.length - 1) 0 := by
        rw [List.getLastD_eq_getLast?, List.getLast?_eq_getElem?, List.getD_eq_getElem?_getD]
      exact hlast ▸ hp.last x (hmem x hx)
    · -- the size at `j` is itself one of those in order
      have hjd : j < p.dropLast.length := by rwa [List.length_dropLast]
      have hget : p.getD j 0 = p.dropLast[j] := by
        rw [List.getElem_dropLast, List.getD_eq_getElem?_getD, List.getElem?_eq_getElem hj,
          Option.getD_some]
      obtain ⟨i, hi, rfl⟩ := List.getElem_of_mem hx
      have hij : i < j := by
        rw [List.length_take] at hi
        exact lt_of_lt_of_le hi (min_le_left _ _)
      have hle := List.pairwise_iff_getElem.mp hp.sorted i j (hij.trans hjd) hjd hij
      rw [List.getElem_take, hget]
      rw [List.getElem_dropLast] at hle
      exact hle.trans (Nat.le_succ _)
  constructor
  · exact List.append_ne_nil_of_right_ne_nil _ (by
      rw [Ne, List.replicate_eq_nil_iff]
      exact (Nat.sub_pos_of_lt hj).ne')
  · refine List.pairwise_append.mpr ⟨hsorted, List.pairwise_replicate.mpr (.inr le_rfl), ?_⟩
    intro x hx y hy
    exact (List.eq_of_mem_replicate hy) ▸ htop x hx
  · intro x hx
    rcases List.mem_append.mp hx with hx | hx
    · exact hp.pos x (hmem x hx)
    · exact (List.eq_of_mem_replicate hx) ▸ Nat.succ_pos _
  · exact hfits

/-! ## The next combination of as many flows -/

theorem fill_eq {v : List ℕ} {a len t : ℕ} (h : a + len ≤ v.length) :
    fill v a (a + len) t = v.take a ++ (List.replicate len t ++ v.drop (a + len)) := by
  rw [fill, Nat.add_sub_cancel_left]
  induction len generalizing v a with
  | zero => rw [List.replicate_zero, List.nil_append, Nat.add_zero, List.take_append_drop]; rfl
  | succ len ih =>
    have ha : a < v.length := by lia
    rw [List.range'_succ, List.foldl_cons, ih (by rw [List.length_set]; lia), List.take_set,
      List.drop_set_of_lt (by lia), List.replicate_succ, Nat.add_right_comm]
    have htake : (v.take (a + 1)).set a t = v.take a ++ [t] := by
      rw [List.take_succ_eq_append_getElem ha, List.set_append_right _ _ (by simp [ha.le]),
        List.length_take, min_eq_left ha.le, Nat.sub_self, List.set_cons_zero]
    rw [htake, List.append_assoc, List.cons_append, List.nil_append, List.cons_append,
      Nat.add_assoc, Nat.add_comm len 1]

theorem length_candidate {p : List ℕ} {j : ℕ} (hj : j < p.length) :
    (candidate p j).length = p.length := by
  rw [candidate, List.length_append, List.length_take, List.length_replicate,
    min_eq_left hj.le, Nat.add_sub_cancel' hj.le]

theorem take_candidate {p : List ℕ} {j : ℕ} (hj : j < p.length) :
    (candidate p j).take j = p.take j := by
  rw [candidate, List.take_append_of_le_length (by rw [List.length_take, min_eq_left hj.le]),
    List.take_take, min_self]

variable {g : BetaGenerator} {p : List ℕ}

/-- Raising the size at `j` leaves the candidate and the last size. -/
theorem raise_eq {j : ℕ} (hj : j < p.length) (hn : g.nowFlowNum = p.length + 1)
    (hlen : g.nowResult.length = p.length + 1)
    (htake : g.nowResult.take (j + 1) = p.take (j + 1)) :
    ∃ y, g.raise j = { g with nowResult := candidate p j ++ [y] } := by
  have hget : g.nowResult.getD j 0 = p.getD j 0 := by
    have h := congrArg (fun l => l[j]?) htake
    rw [List.getElem?_take_of_lt (Nat.lt_succ_self j),
      List.getElem?_take_of_lt (Nat.lt_succ_self j)] at h
    rw [List.getD_eq_getElem?_getD, h, ← List.getD_eq_getElem?_getD]
  have hjlen : j < g.nowResult.length := by lia
  obtain ⟨y, hy⟩ : ∃ y, g.nowResult.drop p.length = [y] :=
    List.length_eq_one_iff.mp (by rw [List.length_drop, hlen, Nat.add_sub_cancel_left])
  refine ⟨y, ?_⟩
  have hfill : fill (g.nowResult.set j (p.getD j 0 + 1)) (j + 1) p.length (p.getD j 0 + 1) =
      candidate p j ++ [y] := by
    have hstop : p.length = (j + 1) + (p.length - (j + 1)) := by lia
    have htop : (g.nowResult.set j (p.getD j 0 + 1)).take (j + 1) =
        p.take j ++ [p.getD j 0 + 1] := by
      have hset : fill g.nowResult j (j + 1) (p.getD j 0 + 1) = g.nowResult.take j ++
          (List.replicate 1 (p.getD j 0 + 1) ++ g.nowResult.drop (j + 1)) := fill_eq (by lia)
      have hset' : fill g.nowResult j (j + 1) (p.getD j 0 + 1) =
          g.nowResult.set j (p.getD j 0 + 1) := by
        rw [fill, Nat.add_sub_cancel_left]
        rfl
      have hpj : g.nowResult.take j = p.take j := by
        have h := congrArg (List.take j) htake
        rwa [List.take_take, List.take_take, min_eq_left (Nat.le_succ j)] at h
      rw [← hset', hset, hpj, List.replicate_one, ← List.append_assoc]
      exact List.take_left' (by rw [List.length_append, List.length_take, min_eq_left hj.le]; rfl)
    conv_lhs => rw [hstop]
    rw [fill_eq (by rw [List.length_set]; lia), ← hstop, htop,
      List.drop_set_of_lt (by lia), hy, candidate]
    obtain ⟨k, hk⟩ : ∃ k, p.length - j = k + 1 := Nat.exists_eq_succ_of_ne_zero (by lia)
    have hk' : p.length - (j + 1) = k := by lia
    rw [hk, hk', List.replicate_succ, List.append_assoc, List.append_assoc]
    rfl
  rw [raise, hget, hn, Nat.add_sub_cancel, hfill]

/-- The loop takes the last candidate that fits, or finds none. -/
theorem newCombFrom_spec {c : ℕ} (hc : c ≤ p.length) (hn : g.nowFlowNum = p.length + 1)
    (hlen : g.nowResult.length = p.length + 1) (htake : g.nowResult.take c = p.take c) :
    (∃ j < c, Fits g.sum (candidate p j) ∧
      (∀ i, j < i → i < c → ¬Fits g.sum (candidate p i)) ∧
      g.newCombFrom c = ({ g with
        nowResult := candidate p j ++ [g.sum - (candidate p j).sum] }, true)) ∨
    ((∀ i < c, ¬Fits g.sum (candidate p i)) ∧ ∃ v, v.length = p.length + 1 ∧
      g.newCombFrom c = ({ g with nowResult := v }, false)) := by
  induction c generalizing g with
  | zero => exact .inr ⟨fun i hi => absurd hi (Nat.not_lt_zero i), g.nowResult, hlen, rfl⟩
  | succ j ih =>
    have hj : j < p.length := hc
    obtain ⟨y, hraise⟩ := raise_eq hj hn hlen htake
    have hclen : (candidate p j).length = p.length := length_candidate hj
    have hlast : (candidate p j ++ [y]).getD (p.length - 1) 0 = (candidate p j).getLastD 0 := by
      rw [List.getD_eq_getElem?_getD, List.getElem?_append_left (by lia), ← hclen,
        ← List.getLast?_eq_getElem?, ← List.getLastD_eq_getLast?]
    have hremain : (g.raise j).remain = g.sum - (candidate p j).sum := by
      rw [remain, hraise]
      dsimp only
      rw [hn, Nat.add_sub_cancel, List.take_left' hclen]
    have hfit : ((g.raise j).nowResult.getD ((g.raise j).nowFlowNum - 2) 0 : ℤ) ≤
        (g.raise j).remain ↔ Fits g.sum (candidate p j) := by
      rw [hremain, hraise]
      dsimp only
      rw [hn, show p.length + 1 - 2 = p.length - 1 by lia, hlast, Fits]
      lia
    rw [newCombFrom]
    by_cases hf : Fits g.sum (candidate p j)
    · refine .inl ⟨j, Nat.lt_succ_self j, hf, fun i hji hi => absurd hi (by lia), ?_⟩
      rw [if_pos (hfit.mpr hf), hremain, hraise, hn, Nat.add_sub_cancel,
        List.set_append_right _ _ hclen.le, hclen, Nat.sub_self, List.set_cons_zero]
      have hnat : ((g.sum : ℤ) - (candidate p j).sum).toNat = g.sum - (candidate p j).sum := by lia
      rw [hnat]
    · rw [if_neg (hfit.not.mpr hf), hraise]
      have htake' : (candidate p j ++ [y]).take j = p.take j := by
        rw [List.take_append_of_le_length (by lia), take_candidate hj]
      rcases ih (g := { g with nowResult := candidate p j ++ [y] }) hj.le hn
        (by rw [List.length_append, hclen]; rfl) htake' with
        ⟨i, hi, hfi, hno, heq⟩ | ⟨hno, v, hv, heq⟩
      · refine .inl ⟨i, hi.trans (Nat.lt_succ_self j), hfi, fun k hik hk => ?_, heq⟩
        rcases (Nat.lt_succ_iff.mp hk).eq_or_lt with rfl | hkj
        · exact hf
        · exact hno k hik hkj
      · refine .inr ⟨fun k hk => ?_, v, hv, heq⟩
        rcases (Nat.lt_succ_iff.mp hk).eq_or_lt with rfl | hkj
        · exact hf
        · exact hno k hkj

/-- The generator is about to look for a combination whose sizes but the last one come
after `p`. -/
structure Ready (g : BetaGenerator) (p : List ℕ) : Prop where
  nonempty : p ≠ []
  base : Base p
  flows : g.nowFlowNum = p.length + 1
  length : g.nowResult.length = p.length + 1
  take : g.nowResult.take p.length = p

theorem lt_candidate {j : ℕ} (hj : j < p.length) : p < candidate p j := by
  have hp : p = p.take j ++ p.getD j 0 :: p.drop (j + 1) := by
    rw [List.getD_eq_getElem?_getD, List.getElem?_eq_getElem hj, Option.getD_some,
      ← List.drop_eq_getElem_cons hj, List.take_append_drop]
  obtain ⟨k, hk⟩ : ∃ k, p.length - j = k + 1 := Nat.exists_eq_succ_of_ne_zero (by lia)
  rw [candidate, hk, List.replicate_succ]
  conv_lhs => rw [hp]
  exact append_lt_append _ _ (Nat.lt_succ_self _)

/-- `get_new_comb` goes to the next start of as many sizes, if there is one. -/
theorem getNewComb_spec (h : Ready g p) :
    (∃ q, Starts g.sum q ∧ q.length = p.length ∧ p < q ∧
      (∀ q', Starts g.sum q' → q'.length = p.length → p < q' → q ≤ q') ∧
      g.getNewComb = ({ g with nowResult := q ++ [g.sum - q.sum] }, true)) ∨
    ((∀ q', Starts g.sum q' → q'.length = p.length → ¬p < q') ∧
      ∃ v, v.length = p.length + 1 ∧ g.getNewComb = ({ g with nowResult := v }, false)) := by
  have hspec := newCombFrom_spec le_rfl h.flows h.length (by rw [h.take, List.take_length])
  have hcomb : g.getNewComb = g.newCombFrom p.length := by
    rw [getNewComb, h.flows, Nat.add_sub_cancel]
  rw [hcomb]
  rcases hspec with ⟨j, hj, hfits, hno, heq⟩ | ⟨hno, v, hv, heq⟩
  · refine .inl ⟨candidate p j, candidate_starts h.base hj hfits, length_candidate hj,
      lt_candidate hj, fun q hq hlen hlt => ?_, heq⟩
    obtain ⟨u, a, v, b, w, rfl, rfl, hab, hvw⟩ := exists_append_of_lt hlen.symm hlt
    have hu : u.length < (u ++ a :: v).length := by
      rw [List.length_append, List.length_cons]
      lia
    obtain ⟨hle, hfit⟩ := candidate_least hq hab hvw
    rcases lt_trichotomy u.length j with huj | rfl | huj
    · exact (candidate_lt hab huj).le
    · exact hle
    · exact absurd hfit (hno _ huj hu)
  · refine .inr ⟨fun q hq hlen hlt => ?_, v, hv, heq⟩
    obtain ⟨u, a, v, b, w, rfl, rfl, hab, hvw⟩ := exists_append_of_lt hlen.symm hlt
    have hu : u.length < (u ++ a :: v).length := by
      rw [List.length_append, List.length_cons]
      lia
    exact hno _ hu (candidate_least hq hab hvw).2

/-! ## The next combination -/

/-- Combinations are in the order of the number of flows, then of their sizes. -/
def rank (r : List ℕ) : ℕ ×ₗ List ℕ := toLex (r.length, r)

theorem rank_lt {q q' : List ℕ} {x x' : ℕ} (hlen : q.length = q'.length) (h : q < q') :
    rank (q ++ [x]) < rank (q' ++ [x']) := by
  obtain ⟨u, a, v, b, w, rfl, rfl, hab, -⟩ := exists_append_of_lt hlen h
  refine Prod.Lex.toLex_lt_toLex.mpr (.inr ⟨by simpa using hlen, ?_⟩)
  rw [List.append_assoc, List.append_assoc]
  exact append_lt_append _ _ hab

theorem rank_lt_of_length {r r' : List ℕ} (h : r.length < r'.length) : rank r < rank r' :=
  Prod.Lex.toLex_lt_toLex.mpr (.inl h)

/-- What is looked for: a split into fewer than `flow_num_limit` sizes -/
structure IsComb (s limit : ℕ) (r : List ℕ) : Prop where
  split : IsSplit s r
  few : r.length < limit

/-- A combination of several flows is a start and the rest. -/
theorem IsComb.exists_start {s limit : ℕ} {r : List ℕ} (h : IsComb s limit r)
    (hlen : 2 ≤ r.length) : ∃ q, Starts s q ∧ r = q ++ [s - q.sum] := by
  obtain ⟨q, x, rfl⟩ := (List.eq_nil_or_concat' r).resolve_left h.split.nonempty
  have hq : q ≠ [] := by
    rintro rfl
    exact absurd hlen (Nat.lt_irrefl 1)
  obtain ⟨hstart, rfl⟩ := (isSplit_append_iff hq).mp h.split
  exact ⟨q, hstart, rfl⟩

/-- The start before all those of `n` sizes -/
def least (n : ℕ) : List ℕ := List.replicate n 1 ++ [0]

theorem base_least (n : ℕ) : Base (least n) where
  sorted := by
    rw [least, List.dropLast_concat]
    exact List.pairwise_replicate.mpr (.inr le_rfl)
  pos x hx := by
    rw [least, List.dropLast_concat] at hx
    exact (List.eq_of_mem_replicate hx).ge
  last x hx := by
    rw [least, List.dropLast_concat] at hx
    rw [least, List.getLastD_concat]
    exact (List.eq_of_mem_replicate hx).le

theorem length_least (n : ℕ) : (least n).length = n + 1 := by
  rw [least, List.length_append, List.length_replicate, List.length_singleton]

theorem least_lt {s n : ℕ} {q : List ℕ} (hq : Starts s q) (hlen : q.length = n + 1) :
    least n < q := by
  have hrep := replicate_le hq.pos
  rw [hlen, List.replicate_succ'] at hrep
  exact (append_lt_append [] [] Nat.zero_lt_one).trans_le hrep

theorem base_of_starts {s : ℕ} {q : List ℕ} (hq : Starts s q) : Base q where
  sorted := hq.sorted.sublist (List.dropLast_sublist q)
  pos x hx := hq.pos x (List.mem_of_mem_dropLast hx)
  last _ hx := (le_getLastD hq.sorted (List.mem_of_mem_dropLast hx)).trans (Nat.le_succ _)

theorem resize_eq_self {v : List ℕ} {n : ℕ} (h : v.length = n) : resize v n = v := by
  rw [resize, h, Nat.sub_self, List.replicate_zero, List.append_nil, List.take_of_length_le h.le]

theorem resize_snoc {v : List ℕ} {n : ℕ} (h : v.length = n) : resize v (n + 1) = v ++ [0] := by
  rw [resize, h, Nat.add_sub_cancel_left, List.replicate_one,
    List.take_of_length_le (by rw [List.length_append, h]; rfl)]

theorem getNextFrom_turn {fuel : ℕ} (hn : 2 ≤ g.nowFlowNum) (hlim : g.nowFlowNum < g.flowNumLimit) :
    getNextFrom (fuel + 1) g =
      let r := getNewComb { g with nowResult := resize g.nowResult g.nowFlowNum }
      if r.2 then r else getNextFrom fuel r.1.oneMoreFlow := by
  have h0 : g.nowFlowNum ≠ 0 := by lia
  have h1 : g.nowFlowNum ≠ 1 := by lia
  rw [getNextFrom, if_pos hlim, if_neg h0, if_neg h1]

theorem oneMoreFlow_eq {v : List ℕ} {n : ℕ} (hn : g.nowFlowNum = n + 2) (hv : v.length = n + 2) :
    oneMoreFlow { g with nowResult := v } =
      { g with nowFlowNum := n + 3, nowResult := least (n + 1) } := by
  have hfill : fill v 0 (0 + (n + 1)) 1 =
      v.take 0 ++ (List.replicate (n + 1) 1 ++ v.drop (0 + (n + 1))) := fill_eq (by lia)
  rw [Nat.zero_add, List.take_zero, List.nil_append] at hfill
  obtain ⟨y, hy⟩ : ∃ y, v.drop (n + 1) = [y] :=
    List.length_eq_one_iff.mp (by rw [List.length_drop, hv]; lia)
  rw [oneMoreFlow]
  dsimp only
  rw [hn, show n + 2 + 1 - 2 = n + 1 by lia, hfill, hy,
    List.set_append_right _ _ (List.length_replicate ..).le, List.length_replicate, Nat.sub_self,
    List.set_cons_zero, least]

/-- Where a number of flows is new, the first combination of that many or more flows is taken. -/
theorem getNextFrom_least {fuel n : ℕ} (hn : g.nowFlowNum = n + 2) (hres : g.nowResult = least n)
    (hfuel : g.flowNumLimit ≤ fuel + (n + 2)) :
    (∃ r, IsComb g.sum g.flowNumLimit r ∧ n + 2 ≤ r.length ∧
      getNextFrom fuel g = ({ g with nowFlowNum := r.length, nowResult := r }, true) ∧
      ∀ r', IsComb g.sum g.flowNumLimit r' → n + 2 ≤ r'.length → rank r ≤ rank r') ∨
    ((∀ r', IsComb g.sum g.flowNumLimit r' → ¬n + 2 ≤ r'.length) ∧
      (getNextFrom fuel g).2 = false) := by
  induction fuel generalizing g n with
  | zero => exact .inr ⟨fun r hr hlen => absurd hr.few (by lia), rfl⟩
  | succ fuel ih =>
    by_cases hlim : g.nowFlowNum < g.flowNumLimit
    · have hready : Ready { g with nowResult := resize g.nowResult g.nowFlowNum } (least n) := by
        have hsize : resize g.nowResult g.nowFlowNum = least n ++ [0] := by
          rw [hres, hn]
          exact resize_snoc (length_least n)
        refine ⟨by simp [least], base_least n, hn.trans (by rw [length_least]), ?_, ?_⟩
        · dsimp only
          rw [hsize, List.length_append]
          rfl
        · dsimp only
          rw [hsize, List.take_left]
      rw [getNextFrom_turn (by lia) hlim]
      dsimp only
      rcases getNewComb_spec hready with ⟨q, hq, hlen, -, hleast, heq⟩ | ⟨hno, v, hv, heq⟩
      · rw [length_least] at hlen
        have hr : (q ++ [g.sum - q.sum]).length = n + 2 := by
          rw [List.length_append, hlen]
          rfl
        refine .inl ⟨q ++ [g.sum - q.sum], ⟨(isSplit_append_iff hq.nonempty).mpr ⟨hq, rfl⟩, ?_⟩, ?_,
          ?_, fun r' hr' hlen' => ?_⟩
        · rw [hr]
          lia
        · exact hr.ge
        · rw [heq, hr]
          exact (if_pos rfl).trans (by rw [hn])
        · rcases hlen'.eq_or_lt with heq' | hlt
          · obtain ⟨q', hq', rfl⟩ := hr'.exists_start (by lia)
            have hlq : q'.length = n + 1 := by
              rw [List.length_append, List.length_singleton] at heq'
              lia
            rcases (hleast q' hq' (by rw [hlq, length_least]) (least_lt hq' hlq)).eq_or_lt with
              rfl | hlt
            · exact le_rfl
            · exact (rank_lt (hlen.trans hlq.symm) hlt).le
          · exact (rank_lt_of_length (by rw [hr]; exact hlt)).le
      · rw [heq]
        rw [length_least] at hv
        have hnone : ∀ r', IsComb g.sum g.flowNumLimit r' → r'.length ≠ n + 2 :=
            fun r' hr' hlen' => by
          obtain ⟨q', hq', rfl⟩ := hr'.exists_start (by lia)
          have hlq : q'.length = n + 1 := by
            rw [List.length_append, List.length_singleton] at hlen'
            lia
          exact hno q' hq' (by rw [hlq, length_least]) (least_lt hq' hlq)
        rw [if_neg Bool.false_ne_true, oneMoreFlow_eq hn hv]
        rcases ih (g := { g with nowFlowNum := n + 3, nowResult := least (n + 1) }) rfl rfl
          (by dsimp only; lia) with ⟨r, hr, hlen, heq, hle⟩ | ⟨hno', hfalse⟩
        · exact .inl ⟨r, hr, by lia, heq, fun r' hr' hlen' =>
            hle r' hr' (lt_of_le_of_ne hlen' (hnone r' hr').symm)⟩
        · exact .inr ⟨fun r' hr' hlen' =>
            hno' r' hr' (lt_of_le_of_ne hlen' (hnone r' hr').symm), hfalse⟩
    · refine .inr ⟨fun r hr hlen => hlim ?_, ?_⟩
      · rw [hn]
        exact hlen.trans_lt hr.few
      · rw [getNextFrom, if_neg hlim]

/-- The generator has found a combination, or none yet. -/
structure Found (s n : ℕ) (g : BetaGenerator) : Prop where
  sum : g.sum = s
  limit : g.flowNumLimit = n
  flows : g.nowFlowNum = g.nowResult.length
  comb : g.nowResult = [] ∨ IsComb s n g.nowResult

/-- What `get_next` has to find after `r`: the next combination, or that there is none -/
def NextOf (g : BetaGenerator) (r : List ℕ) (out : BetaGenerator × Bool) : Prop :=
  (∃ r', IsComb g.sum g.flowNumLimit r' ∧ rank r < rank r' ∧
    out = ({ g with nowFlowNum := r'.length, nowResult := r' }, true) ∧
    ∀ r'', IsComb g.sum g.flowNumLimit r'' → rank r < rank r'' → rank r' ≤ rank r'') ∨
  ((∀ r'', IsComb g.sum g.flowNumLimit r'' → ¬rank r < rank r'') ∧ out.2 = false)

/-- What comes after a combination has as many flows or more. -/
theorem length_le_of_rank_lt {r r' : List ℕ} (h : rank r < rank r') : r.length ≤ r'.length :=
  Prod.Lex.monotone_fst_ofLex h.le

/-- If all that comes after `r` has at least `n + 2` flows, the search may start there. -/
theorem nextOf_least {fuel n : ℕ} {r : List ℕ} (hr : r.length < n + 2)
    (hafter : ∀ r', IsComb g.sum g.flowNumLimit r' → rank r < rank r' → n + 2 ≤ r'.length)
    (hfuel : g.flowNumLimit ≤ fuel + (n + 2)) :
    NextOf g r (getNextFrom fuel { g with nowFlowNum := n + 2, nowResult := least n }) := by
  rcases getNextFrom_least (g := { g with nowFlowNum := n + 2, nowResult := least n }) rfl rfl hfuel
    with ⟨r', hr', hlen, heq, hle⟩ | ⟨hno, hfalse⟩
  · exact .inl ⟨r', hr', rank_lt_of_length (by lia), heq,
      fun r'' hr'' hlt => hle r'' hr'' (hafter r'' hr'' hlt)⟩
  · exact .inr ⟨fun r'' hr'' hlt => hno r'' hr'' (hafter r'' hr'' hlt), hfalse⟩

theorem nextOf_nil (hs : 0 < g.sum) (hlimit : 3 ≤ g.flowNumLimit) (hn : g.nowFlowNum = 0)
    (hres : g.nowResult = []) : NextOf g [] g.getNext := by
  have hsplit : IsSplit g.sum [g.sum] :=
    ⟨List.cons_ne_nil _ _, List.pairwise_singleton .., fun x hx => List.mem_singleton.mp hx ▸ hs,
      List.sum_singleton⟩
  refine .inl ⟨[g.sum], ⟨hsplit, show 1 < g.flowNumLimit by lia⟩,
    rank_lt_of_length Nat.zero_lt_one, ?_, fun r' hr' _ => ?_⟩
  · rw [getNext, getNextFrom, hn, if_pos (by lia), if_pos rfl, hres]
    rfl
  · have hpos : 1 ≤ r'.length := List.length_pos_iff.mpr hr'.split.nonempty
    rcases hpos.eq_or_lt with h1 | h2
    · obtain ⟨x, rfl⟩ := List.length_eq_one_iff.mp h1.symm
      have hx : x = g.sum := by simpa using hr'.split.sum
      rw [hx]
    · exact (rank_lt_of_length (r := [g.sum]) h2).le

/-- The case of one flow falls through to the first combination of two. -/
theorem nextOf_one {x : ℕ} (hlimit : 3 ≤ g.flowNumLimit) (hn : g.nowFlowNum = 1)
    (hres : g.nowResult = [x]) (hcomb : IsComb g.sum g.flowNumLimit [x]) :
    NextOf g [x] g.getNext := by
  have hnext : g.getNext =
      getNextFrom (g.flowNumLimit + 1) { g with nowFlowNum := 0 + 2, nowResult := least 0 } := by
    rw [getNextFrom_turn (g := { g with nowFlowNum := 0 + 2, nowResult := least 0 }) le_rfl hlimit,
      getNext, getNextFrom, if_pos (by lia), if_neg (by lia), if_pos hn, hres]
    rfl
  rw [hnext]
  refine nextOf_least (by decide : 1 < 2) (fun r' hr' hlt => ?_) (by lia)
  refine lt_of_le_of_ne (length_le_of_rank_lt hlt) fun heq => ?_
  -- there is one combination of one flow
  obtain ⟨y, rfl⟩ := List.length_eq_one_iff.mp heq.symm
  have hx : x = g.sum := by simpa using hcomb.split.sum
  have hy : y = g.sum := by simpa using hr'.split.sum
  exact lt_irrefl _ (by rwa [hx, hy] at hlt)

theorem nextOf_several (hn : g.nowFlowNum = g.nowResult.length) (hlen : 2 ≤ g.nowResult.length)
    (hcomb : IsComb g.sum g.flowNumLimit g.nowResult) : NextOf g g.nowResult g.getNext := by
  obtain ⟨q, hq, hr⟩ := hcomb.exists_start hlen
  have hlq : g.nowResult.length = q.length + 1 := by
    rw [hr, List.length_append]
    rfl
  have hlim : g.nowFlowNum < g.flowNumLimit := hn ▸ hcomb.few
  have hsize : { g with nowResult := resize g.nowResult g.nowFlowNum } = g := by
    rw [resize_eq_self hn.symm]
  have hready : Ready g q :=
    ⟨hq.nonempty, base_of_starts hq, hn.trans hlq, hlq, by rw [hr, List.take_left]⟩
  -- what comes after with as many flows starts later
  have hsame : ∀ r', IsComb g.sum g.flowNumLimit r' → rank g.nowResult < rank r' →
      r'.length = g.nowResult.length →
      ∃ q', Starts g.sum q' ∧ r' = q' ++ [g.sum - q'.sum] ∧ q'.length = q.length ∧ q < q' := by
    intro r' hr' hlt heq
    obtain ⟨q', hq', rfl⟩ := hr'.exists_start (by lia)
    have hl : q'.length = q.length := by
      rw [List.length_append, List.length_singleton] at heq
      lia
    refine ⟨q', hq', rfl, hl, ?_⟩
    rw [hr] at hlt
    rcases lt_trichotomy q q' with h | rfl | h
    · exact h
    · exact absurd hlt (lt_irrefl _)
    · exact absurd hlt (rank_lt hl h).asymm
  rw [getNext, getNextFrom_turn (by lia) hlim, hsize]
  dsimp only
  rcases getNewComb_spec hready with ⟨q', hq', hl, hlt, hleast, heq⟩ | ⟨hno, v, hv, heq⟩
  · have hl' : (q' ++ [g.sum - q'.sum]).length = g.nowFlowNum := by
      rw [List.length_append, hl, hn, hlq]
      rfl
    refine .inl ⟨q' ++ [g.sum - q'.sum], ⟨(isSplit_append_iff hq'.nonempty).mpr ⟨hq', rfl⟩, ?_⟩, ?_,
      ?_, fun r' hr' hlt' => ?_⟩
    · exact hl' ▸ hlim
    · rw [hr]
      exact rank_lt hl.symm hlt
    · rw [heq, hl']
      exact if_pos rfl
    · rcases (length_le_of_rank_lt hlt').eq_or_lt with hle | hlonger
      · obtain ⟨p', hp', rfl, hlp, hqp⟩ := hsame r' hr' hlt' hle.symm
        rcases (hleast p' hp' hlp hqp).eq_or_lt with rfl | hlt''
        · exact le_rfl
        · exact (rank_lt (hl.trans hlp.symm) hlt'').le
      · exact (rank_lt_of_length (by rw [hl', hn]; exact hlonger)).le
  · rw [heq, if_neg Bool.false_ne_true]
    obtain ⟨n, hqn⟩ : ∃ n, q.length = n + 1 :=
      Nat.exists_eq_succ_of_ne_zero (List.length_pos_iff.mpr hq.nonempty).ne'
    rw [oneMoreFlow_eq (n := n) (by lia) (by lia)]
    refine nextOf_least (n := n + 1) (by lia) (fun r' hr' hlt' => ?_) (by lia)
    have hle : g.nowResult.length ≤ r'.length := length_le_of_rank_lt hlt'
    have hne : r'.length ≠ g.nowResult.length := fun hlen => by
      obtain ⟨p', hp', -, hlp, hqp⟩ := hsame r' hr' hlt' hlen
      exact hno p' hp' hlp hqp
    lia

/-- `get_next` finds the next combination. -/
theorem getNext_spec {s n : ℕ} (hs : 0 < s) (hlimit : 3 ≤ n) (h : Found s n g) :
    NextOf g g.nowResult g.getNext := by
  obtain ⟨rfl, rfl, hflows, hempty | hcomb⟩ := h
  · rw [hempty] at hflows ⊢
    exact nextOf_nil hs hlimit hflows hempty
  rcases (show 1 ≤ g.nowResult.length from List.length_pos_iff.mpr hcomb.split.nonempty).eq_or_lt
    with h1 | h2
  · obtain ⟨x, hx⟩ := List.length_eq_one_iff.mp h1.symm
    rw [hx] at hflows hcomb ⊢
    exact nextOf_one hlimit hflows hx hcomb
  · exact nextOf_several hflows h2 hcomb

/-- The keys of the states are the combinations. -/
def key (g : BetaGenerator) : ℕ ×ₗ List ℕ := rank g.nowResult

theorem successor {s n : ℕ} (hs : 0 < s) (hlimit : 3 ≤ n) :
    Enumeration.Successor next key (Found s n) fun c => ∃ r, IsComb s n r ∧ rank r = c where
  some := by
    intro g t hg hnext
    obtain ⟨htrue, ht⟩ := Option.ite_none_right_eq_some.mp hnext
    obtain rfl := Option.some.inj ht
    rcases getNext_spec hs hlimit hg with ⟨r, hr, hlt, heq, hleast⟩ | ⟨-, hfalse⟩
    · rw [heq]
      rw [hg.sum, hg.limit] at hr hleast
      refine ⟨⟨hg.sum, hg.limit, rfl, .inr hr⟩, ⟨r, hr, rfl⟩, hlt, ?_⟩
      rintro c ⟨r', hr', rfl⟩ hc
      exact hleast r' hr' hc
    · exact absurd (htrue.symm.trans hfalse) (by decide)
  none := by
    intro g hg hnext
    have hfalse : ¬g.getNext.2 = true := fun h => by simp [next, h] at hnext
    rcases getNext_spec hs hlimit hg with ⟨r, -, -, heq, -⟩ | ⟨hno, -⟩
    · exact absurd (by rw [heq]) hfalse
    · rw [hg.sum, hg.limit] at hno
      rintro c ⟨r', hr', rfl⟩
      exact not_lt.mp (hno r' hr')

/-- There are finitely many combinations. -/
theorem finite_combs (s n : ℕ) : {r | IsComb s n r}.Finite := by
  -- no size is more than the sum, so that the sizes are those of lists over `Fin`
  refine ((List.finite_length_lt (Fin (s + 1)) n).image (List.map Fin.val)).subset ?_
  intro r hr
  have hle : ∀ x ∈ r, x < s + 1 := fun x hx =>
    Nat.lt_succ_of_le (hr.split.sum ▸ List.le_sum_of_mem hx)
  refine ⟨r.pmap Fin.mk hle, ?_, ?_⟩
  · exact (List.length_pmap ..).trans_lt hr.few
  · rw [List.map_pmap]
    exact List.pmap_eq_self.mpr fun _ _ => rfl

theorem create_limit (s : ℕ) : 3 ≤ (create s).flowNumLimit := by
  rw [create]
  dsimp only
  split_ifs <;> decide

/-- The generator visits the combinations in the order of their ranks. -/
theorem visits_combs {s : ℕ} (hs : 0 < s) :
    ∃ l, Enumeration.Visits next (create s) l ∧
      (l.map nowResult).Pairwise (fun r r' => rank r < rank r') ∧
      ∀ r, r ∈ l.map nowResult ↔ IsComb s (create s).flowNumLimit r := by
  have hfound : Found s (create s).flowNumLimit (create s) := ⟨rfl, rfl, rfl, .inl rfl⟩
  obtain ⟨l, hl, hsorted, hmem⟩ := (successor hs (create_limit s)).visits hfound
    (((finite_combs s (create s).flowNumLimit).image rank).subset fun c hc => hc.1)
  refine ⟨l, hl, ?_, fun r => ?_⟩
  · rw [List.pairwise_map] at hsorted ⊢
    exact hsorted
  · have hr : rank r ∈ l.map key ↔ r ∈ l.map nowResult := by
      have hinj : Function.Injective rank := fun a b h => congrArg Prod.snd (toLex.injective h)
      have hmap : l.map key = (l.map nowResult).map rank := by
        rw [List.map_map]
        rfl
      rw [hmap]
      exact List.mem_map_of_injective hinj
    rw [← hr, hmem]
    constructor
    · rintro ⟨⟨r', hr', heq⟩, -⟩
      obtain rfl : r' = r := congrArg Prod.snd (toLex.injective heq)
      exact hr'
    · intro h
      exact ⟨⟨r, h, rfl⟩, rank_lt_of_length (List.length_pos_iff.mpr h.split.nonempty)⟩

/-- `while (bt.get_next ())` ends. It goes through all ways to write the sum as a sum of fewer
than `flow_num_limit` positive sizes in order, each of them once, those of fewer flows first. -/
theorem generates_splits {s : ℕ} (hs : 0 < s) :
    ∃ l, Enumeration.Visits next (create s) l ∧
      (l.map nowResult).Pairwise (fun r r' => rank r < rank r') ∧
      (∀ g ∈ l, g.nowFlowNum = g.nowResult.length) ∧
      ∀ r, r ∈ l.map nowResult ↔ IsComb s (create s).flowNumLimit r := by
  have hfound : Found s (create s).flowNumLimit (create s) := ⟨rfl, rfl, rfl, .inl rfl⟩
  obtain ⟨l, hl, hsorted, hmem⟩ := visits_combs hs
  have hall : ∀ g ∈ l, Found s (create s).flowNumLimit g :=
    hl.forall hfound fun g t hg hnext => ((successor hs (create_limit s)).some hg hnext).1
  exact ⟨l, hl, hsorted, fun g hg => (hall g hg).flows, hmem⟩

/-- The seventh way, by seven flows of one packet, is beyond the limit for a sum of 7. -/
theorem generates_splits_seven : ¬IsComb 7 (create 7).flowNumLimit [1, 1, 1, 1, 1, 1, 1] ∧
    ∃ l, Enumeration.Visits next (create 7) l ∧
      (l.map nowResult).Pairwise (fun r r' => rank r < rank r') ∧
      (∀ g ∈ l, g.nowFlowNum = g.nowResult.length) ∧
      ∀ r, r ∈ l.map nowResult ↔ IsComb 7 (create 7).flowNumLimit r :=
  ⟨fun h => absurd h.few (by decide), generates_splits (by decide)⟩

end BetaGenerator

end Paraleon.Sketch
