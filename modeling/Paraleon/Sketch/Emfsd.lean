import Mathlib.Algebra.BigOperators.Group.List.Basic
import Mathlib.Algebra.Order.Field.Basic
import Mathlib.Algebra.Order.BigOperators.Ring.Finset
import Mathlib.Analysis.Complex.Exponential
import Paraleon.Sketch.BetaGenerator

/-!
# The distribution of flow sizes

`EMFSD` of `src/src/point-to-point/model/algorithms/elasticSketch/EMFSD.h`, which
`LightPart::get_distribution` runs on the light counters. In each epoch each value of the
counters is spread over the combinations of flows that may have made it up, by their
likelihoods. The arithmetic is that of an ordered field, and `std::exp` is a parameter.

`epochs_conserve`: after any number of epochs the sizes of the flows that are estimated add up
to the sum of the counters, and the estimated number of flows is between the number of
counters in use and six times as many.
-/

namespace Paraleon.Sketch

open BetaGenerator Enumeration

structure EMFSD (K : Type*) where
  w : ℕ
  counterDist : List ℕ
  distNew : List K
  ns : List K
  nNew : K

namespace EMFSD

variable {K : Type*} [Field K] (exp : K → K)

/-- `collect_counters`: how many counters have each value -/
def collectCounters (counters : List ℕ) : List ℕ :=
  let maxCounterVal := counters.foldl max 0
  counters.foldl (fun dist c => dist.modify c (· + 1)) (List.replicate (maxCounterVal + 1) 0)

/-- `for (i = 1; i < size; ++i) v[i] = f (i)`, on values that `resize` has made zero -/
def tabulate (size : ℕ) (f : ℕ → K) : List K :=
  (List.range size).map fun i => if i = 0 then 0 else f i

/-- `set_counters` -/
def setCounters (counters : List ℕ) : EMFSD K :=
  let dist := collectCounters counters
  { w := counters.length
    counterDist := dist
    nNew := ((counters.length - dist.getD 0 0 : ℕ) : K)
    distNew := tabulate dist.length fun i =>
      (dist.getD i 0 : K) / ((counters.length - dist.getD 0 0 : ℕ) : K)
    ns := tabulate dist.length fun i => (dist.getD i 0 : K) }

/-- `get_p_from_beta`: the likelihood of a combination, from how often it has each size -/
def getPFromBeta (w : ℕ) (nowResult : List ℕ) (lambda : K) (nowDist : List K) (nowN : K) : K :=
  exp (-lambda) * (nowResult.dedup.map fun si =>
    (nowN * nowDist.getD si 0 / w) ^ nowResult.count si / (nowResult.count si).factorial).prod

/-- The combinations of a generator, if there are fewer than `fuel` -/
def combinations (fuel i : ℕ) : Option (List (List ℕ)) :=
  (collect BetaGenerator.next fuel (BetaGenerator.create i)).map (·.map nowResult)

/-- `for (j = 0; j < now_flow_num; ++j) ns[now_result[j]] += x` -/
def addSizes (x : K) (ns : List K) (nowResult : List ℕ) : List K :=
  nowResult.foldl (fun ns j => ns.modify j (· + x)) ns

/-- The turn of `next_epoch` for the counters of the value `i` -/
def spread (cnt : ℕ) (p : List ℕ → K) (combs : List (List ℕ)) (ns : List K) : List K :=
  let sumP := (combs.map p).sum
  combs.foldl (fun ns r => addSizes (cnt * p r / sumP) ns r) ns

/-- `next_epoch`, if no value has `fuel` combinations -/
def nextEpoch (fuel : ℕ) (e : EMFSD K) : Option (EMFSD K) :=
  let lambda := e.nNew / e.w
  let p := fun r => getPFromBeta exp e.w r lambda e.distNew e.nNew
  ((List.range' 1 (e.counterDist.length - 1)).foldlM (fun ns i =>
      if e.counterDist.getD i 0 = 0 then some ns
      else (combinations fuel i).map fun combs => spread (e.counterDist.getD i 0) p combs ns)
    (e.ns.map fun _ => 0)).map fun ns =>
      let nNew := (ns.drop 1).sum
      { e with
        ns
        nNew
        distNew := tabulate e.counterDist.length fun i => ns.getD i 0 / nNew }

/-- A number of calls of `next_epoch`, of which `get_distribution` makes ten -/
def epochs (fuel : ℕ) : ℕ → EMFSD K → Option (EMFSD K)
  | 0, e => some e
  | k + 1, e => (nextEpoch exp fuel e).bind (epochs fuel k)

/-! ## Histograms -/

theorem getD_modify {α : Type*} (v : List α) (f : α → α) (i j : ℕ) (d : α) :
    (v.modify i f).getD j d = if i = j ∧ j < v.length then f (v.getD j d) else v.getD j d := by
  rw [List.getD_eq_getElem?_getD, List.getElem?_modify, List.getD_eq_getElem?_getD]
  rcases lt_or_ge j v.length with hj | hj
  · rw [List.getElem?_eq_getElem hj]
    by_cases hij : i = j <;> simp [hij, hj]
  · rw [List.getElem?_eq_none hj, if_neg fun h => absurd h.2 (not_lt.mpr hj)]
    rfl

theorem histogram {counters dist : List ℕ} (h : ∀ c ∈ counters, c < dist.length) :
    (counters.foldl (fun dist c => dist.modify c (· + 1)) dist).length = dist.length ∧
    ∀ i, (counters.foldl (fun dist c => dist.modify c (· + 1)) dist).getD i 0 =
      dist.getD i 0 + counters.count i := by
  induction counters generalizing dist with
  | nil => exact ⟨rfl, fun i => rfl⟩
  | cons c counters ih =>
    obtain ⟨hc, h⟩ := List.forall_mem_cons.mp h
    have hlen : (dist.modify c (· + 1)).length = dist.length := List.length_modify ..
    rw [← hlen] at h
    obtain ⟨hlen', hget⟩ := ih h
    refine ⟨hlen'.trans hlen, fun i => ?_⟩
    rw [List.foldl_cons, hget, getD_modify, List.count_cons]
    rcases eq_or_ne c i with rfl | hne
    · rw [if_pos ⟨rfl, hc⟩, beq_self_eq_true, if_pos rfl]
      lia
    · rw [if_neg fun h => hne h.1, if_neg (by simpa using hne), Nat.add_zero]

theorem le_foldl_max {counters : List ℕ} {m c : ℕ} (h : c ∈ counters ∨ c ≤ m) :
    c ≤ counters.foldl max m := by
  induction counters generalizing m with
  | nil => exact h.resolve_left List.not_mem_nil
  | cons d counters ih =>
    rw [List.foldl_cons]
    refine ih ?_
    rcases h with h | h
    · rcases List.mem_cons.mp h with rfl | h
      · exact .inr (le_max_right m c)
      · exact .inl h
    · exact .inr (h.trans (le_max_left m d))

theorem lt_length_collectCounters {counters : List ℕ} {c : ℕ} (hc : c ∈ counters) :
    c < (collectCounters counters).length := by
  have hlt : ∀ c ∈ counters, c < (List.replicate (counters.foldl max 0 + 1) 0).length :=
    fun c hc => by
      rw [List.length_replicate]
      exact Nat.lt_succ_of_le (le_foldl_max (.inl hc))
  rw [collectCounters, (histogram hlt).1]
  exact hlt c hc

theorem getD_collectCounters (counters : List ℕ) (i : ℕ) :
    (collectCounters counters).getD i 0 = counters.count i := by
  have hlt : ∀ c ∈ counters, c < (List.replicate (counters.foldl max 0 + 1) 0).length :=
    fun c hc => by
      rw [List.length_replicate]
      exact Nat.lt_succ_of_le (le_foldl_max (.inl hc))
  rw [collectCounters, (histogram hlt).2, List.getD_eq_getElem?_getD, List.getElem?_replicate]
  split <;> simp

/-- A sum over the values of the counters is one over the counters. -/
theorem sum_count (counters : List ℕ) (f : ℕ → K) {n : ℕ} (h : ∀ c ∈ counters, c < n) :
    ∑ i ∈ Finset.range n, (counters.count i : K) * f i = (counters.map f).sum := by
  induction counters with
  | nil => simp
  | cons c counters ih =>
    obtain ⟨hc, h⟩ := List.forall_mem_cons.mp h
    have hterm : ∀ i ∈ Finset.range n, ((c :: counters).count i : K) * f i =
        (counters.count i : K) * f i + if c = i then f i else 0 := fun i _ => by
      rw [List.count_cons]
      rcases eq_or_ne c i with rfl | hne
      · rw [beq_self_eq_true, if_pos rfl, if_pos rfl]
        push_cast
        ring
      · rw [if_neg (by simpa using hne), if_neg hne, Nat.add_zero, add_zero]
    rw [Finset.sum_congr rfl hterm, Finset.sum_add_distrib, ih h, Finset.sum_ite_eq,
      if_pos (Finset.mem_range.mpr hc), List.map_cons, List.sum_cons, add_comm]

/-! ## Spreading a value -/

theorem length_addSizes (x : K) (ns : List K) (r : List ℕ) :
    (addSizes x ns r).length = ns.length := by
  induction r generalizing ns with
  | nil => rfl
  | cons j r ih => exact (ih _).trans (List.length_modify ..)

theorem getD_addSizes (x : K) {ns : List K} (r : List ℕ) {j : ℕ} (hj : j < ns.length) :
    (addSizes x ns r).getD j 0 = ns.getD j 0 + r.count j * x := by
  induction r generalizing ns with
  | nil => simp [addSizes]
  | cons i r ih =>
    have hlen : (ns.modify i (· + x)).length = ns.length := List.length_modify ..
    have htail := ih (hlen.symm ▸ hj : j < (ns.modify i (· + x)).length)
    rw [addSizes, List.foldl_cons, ← addSizes, htail, getD_modify, List.count_cons]
    rcases eq_or_ne i j with rfl | hne
    · rw [if_pos ⟨rfl, hj⟩, beq_self_eq_true, if_pos rfl]
      push_cast
      ring
    · rw [if_neg fun h => hne h.1, if_neg (by simpa using hne), Nat.add_zero]

theorem spread_foldl (x : List ℕ → K) (combs : List (List ℕ)) (ns : List K) :
    (combs.foldl (fun ns r => addSizes (x r) ns r) ns).length = ns.length ∧
    ∀ j < ns.length, (combs.foldl (fun ns r => addSizes (x r) ns r) ns).getD j 0 =
      ns.getD j 0 + (combs.map fun r => r.count j * x r).sum := by
  induction combs generalizing ns with
  | nil => exact ⟨rfl, fun j _ => (add_zero _).symm⟩
  | cons r combs ih =>
    have hlen := length_addSizes (x r) ns r
    obtain ⟨hlen', hget⟩ := ih (addSizes (x r) ns r)
    refine ⟨hlen'.trans hlen, fun j hj => ?_⟩
    rw [List.foldl_cons, hget j (hlen.symm ▸ hj), getD_addSizes _ _ hj, List.map_cons,
      List.sum_cons, add_assoc]

variable [LinearOrder K] [IsStrictOrderedRing K]

/-- A mean of what is at most `b` is at most `b`. -/
theorem mean_le {combs : List (List ℕ)} {p g : List ℕ → K} {b : K} (cnt : ℕ)
    (hp : ∀ r ∈ combs, 0 ≤ p r) (hsum : 0 < (combs.map p).sum) (hg : ∀ r ∈ combs, g r ≤ b) :
    (combs.map fun r => g r * (cnt * p r / (combs.map p).sum)).sum ≤ cnt * b := by
  have hle : ∀ r ∈ combs, g r * (cnt * p r / (combs.map p).sum) ≤
      b * (cnt / (combs.map p).sum) * p r := fun r hr => by
    have hweight : 0 ≤ cnt * p r / (combs.map p).sum :=
      div_nonneg (mul_nonneg (Nat.cast_nonneg cnt) (hp r hr)) hsum.le
    calc g r * (cnt * p r / (combs.map p).sum)
        ≤ b * (cnt * p r / (combs.map p).sum) := mul_le_mul_of_nonneg_right (hg r hr) hweight
      _ = b * (cnt / (combs.map p).sum) * p r := by ring
  calc (combs.map fun r => g r * (cnt * p r / (combs.map p).sum)).sum
      ≤ (combs.map fun r => b * (cnt / (combs.map p).sum) * p r).sum := List.sum_le_sum hle
    _ = b * (cnt / (combs.map p).sum) * (combs.map p).sum := List.sum_map_mul_left ..
    _ = cnt * b := by rw [mul_assoc, div_mul_cancel₀ _ hsum.ne', mul_comm]

theorem le_mean {combs : List (List ℕ)} {p g : List ℕ → K} {a : K} (cnt : ℕ)
    (hp : ∀ r ∈ combs, 0 ≤ p r) (hsum : 0 < (combs.map p).sum) (hg : ∀ r ∈ combs, a ≤ g r) :
    cnt * a ≤ (combs.map fun r => g r * (cnt * p r / (combs.map p).sum)).sum := by
  have hneg := mean_le (g := fun r => -g r) (b := -a) cnt hp hsum fun r hr => neg_le_neg (hg r hr)
  have heq : (combs.map fun r => -g r * (cnt * p r / (combs.map p).sum)).sum =
      -(combs.map fun r => g r * (cnt * p r / (combs.map p).sum)).sum := by
    rw [← neg_one_mul, ← List.sum_map_mul_left]
    exact congrArg List.sum (List.map_congr_left fun r _ => by rw [neg_mul, neg_one_mul])
  rw [heq, mul_neg] at hneg
  exact neg_le_neg_iff.mp hneg

/-! ## One epoch -/

/-- The combinations of each value in use: they are what the generators go through. -/
structure Enumerates (C : ℕ → List (List ℕ)) (i : ℕ) : Prop where
  comb : ∀ r ∈ C i, IsSplit i r ∧ r.length ≤ 6
  single : [i] ∈ C i

theorem exists_combinations (n : ℕ) : ∃ C : ℕ → List (List ℕ), ∃ limit : ℕ,
    ∀ i, 0 < i → i < n → Enumerates C i ∧ ∀ fuel ≥ limit, combinations fuel i = some (C i) := by
  have hall : ∀ i, 0 < i → ∃ l, Visits BetaGenerator.next (BetaGenerator.create i) l ∧
      ∀ r, r ∈ l.map nowResult ↔ IsComb i (BetaGenerator.create i).flowNumLimit r := fun i hi => by
    obtain ⟨l, hl, -, hmem⟩ := visits_combs hi
    exact ⟨l, hl, hmem⟩
  choose! l hl hmem using hall
  refine ⟨fun i => (l i).map nowResult, (Finset.range n).sup fun i => (l i).length + 1,
    fun i hi hn => ⟨⟨fun r hr => ?_, ?_⟩, fun fuel hfuel => ?_⟩⟩
  · have hcomb := (hmem i hi r).mp hr
    have hlimit : (BetaGenerator.create i).flowNumLimit ≤ 7 := by
      rw [BetaGenerator.create]
      dsimp only
      split_ifs <;> decide
    exact ⟨hcomb.split, Nat.le_of_lt_succ (hcomb.few.trans_le hlimit)⟩
  · refine (hmem i hi [i]).mpr ⟨⟨List.cons_ne_nil _ _, List.pairwise_singleton .., ?_,
      List.sum_singleton⟩, lt_of_lt_of_le (by decide : 1 < 3) (create_limit i)⟩
    exact fun x hx => List.mem_singleton.mp hx ▸ hi
  · have hle : (l i).length + 1 ≤ fuel :=
      (Finset.le_sup (f := fun i => (l i).length + 1) (Finset.mem_range.mpr hn)).trans hfuel
    rw [combinations, (hl i hi).collect hle, Option.map_some]

/-- What the turn for the value `i` adds to the flows of the size `j` -/
def gain (cnt : ℕ → ℕ) (p : List ℕ → K) (C : ℕ → List (List ℕ)) (i j : ℕ) : K :=
  if cnt i = 0 then 0
  else ((C i).map fun r => r.count j * (cnt i * p r / ((C i).map p).sum)).sum

omit [LinearOrder K] [IsStrictOrderedRing K] in
/-- The loop of `next_epoch`, when the generators end -/
theorem foldlM_spread (cnt : ℕ → ℕ) (p : List ℕ → K) {C : ℕ → List (List ℕ)} {fuel : ℕ}
    {is : List ℕ} (hC : ∀ i ∈ is, combinations fuel i = some (C i)) (ns : List K) :
    ∃ ns', is.foldlM (fun ns i => if cnt i = 0 then some ns
        else (combinations fuel i).map fun combs => spread (cnt i) p combs ns) ns = some ns' ∧
      ns'.length = ns.length ∧
      ∀ j < ns.length, ns'.getD j 0 = ns.getD j 0 + (is.map fun i => gain cnt p C i j).sum := by
  induction is generalizing ns with
  | nil => exact ⟨ns, rfl, rfl, fun j _ => (add_zero _).symm⟩
  | cons i is ih =>
    obtain ⟨hi, hC⟩ := List.forall_mem_cons.mp hC
    rw [List.foldlM_cons]
    by_cases hcnt : cnt i = 0
    · obtain ⟨ns', hrun, hlen, hget⟩ := ih hC ns
      refine ⟨ns', by rw [if_pos hcnt]; exact hrun, hlen, fun j hj => ?_⟩
      rw [hget j hj, List.map_cons, List.sum_cons, gain, if_pos hcnt, zero_add]
    · obtain ⟨hlen, hget⟩ :=
        spread_foldl (fun r => (cnt i : K) * p r / ((C i).map p).sum) (C i) ns
      obtain ⟨ns', hrun, hlen', hget'⟩ := ih hC (spread (cnt i) p (C i) ns)
      refine ⟨ns', by rw [if_neg hcnt, hi]; exact hrun, hlen'.trans hlen, fun j hj => ?_⟩
      rw [hget' j (by rw [spread, hlen]; exact hj), spread, hget j hj, List.map_cons,
        List.sum_cons, gain, if_neg hcnt, add_assoc]

/-- The sum of a function of the sizes over the flows that are estimated -/
def weigh (f : ℕ → K) (ns : List K) : K := ∑ j ∈ Finset.range ns.length, f j * ns.getD j 0

/-- The values of the counters but zero, of which there are fewer than `n` -/
def values (n : ℕ) : List ℕ := List.range' 1 (n - 1)

theorem mem_values {n i : ℕ} : i ∈ values n ↔ 0 < i ∧ i < n := by
  rw [values, List.mem_range'_1]
  lia

omit [LinearOrder K] [IsStrictOrderedRing K] in
/-- What is spread is what the turns add. -/
theorem weigh_gain {cnt : ℕ → ℕ} {p : List ℕ → K} {C : ℕ → List (List ℕ)} {is : List ℕ}
    {ns : List K} (f : ℕ → K)
    (hns : ∀ j < ns.length, ns.getD j 0 = (is.map fun i => gain cnt p C i j).sum)
    (hC : ∀ i ∈ is, ∀ r ∈ C i, ∀ x ∈ r, x < ns.length) :
    weigh f ns = (is.map fun i => if cnt i = 0 then 0 else
      ((C i).map fun r => (r.map f).sum * (cnt i * p r / ((C i).map p).sum)).sum).sum := by
  have hterm : ∀ j ∈ Finset.range ns.length,
      f j * ns.getD j 0 = (is.map fun i => f j * gain cnt p C i j).sum := fun j hj => by
    rw [hns j (Finset.mem_range.mp hj), List.sum_map_mul_left]
  rw [weigh, Finset.sum_congr rfl hterm]
  clear hns hterm
  induction is with
  | nil => simp
  | cons i is ih =>
    obtain ⟨hi, hC⟩ := List.forall_mem_cons.mp hC
    simp only [List.map_cons, List.sum_cons, Finset.sum_add_distrib]
    rw [ih hC]
    refine congrArg (· + _) ?_
    by_cases hcnt : cnt i = 0
    · rw [if_pos hcnt]
      exact Finset.sum_eq_zero fun j _ => by rw [gain, if_pos hcnt, mul_zero]
    · rw [if_neg hcnt]
      have hgain : ∀ j ∈ Finset.range ns.length, f j * gain cnt p C i j =
          ((C i).map fun r => (r.count j * f j) * (cnt i * p r / ((C i).map p).sum)).sum :=
        fun j _ => by
          rw [gain, if_neg hcnt, ← List.sum_map_mul_left]
          exact congrArg List.sum (List.map_congr_left fun r _ => by ring)
      rw [Finset.sum_congr rfl hgain]
      generalize ((C i).map p).sum = S
      generalize C i = combs at hi
      induction combs with
      | nil => simp
      | cons r combs ihc =>
        obtain ⟨hr, hi⟩ := List.forall_mem_cons.mp hi
        simp only [List.map_cons, List.sum_cons, Finset.sum_add_distrib]
        rw [ihc hi, ← Finset.sum_mul, sum_count r f hr]

/-- What the estimate is after any number of epochs: no flow size is negative, those that a
counter shows are there, and the sizes add up to the sum of the counters. -/
structure Sound (counters : List ℕ) (e : EMFSD K) : Prop where
  w : e.w = counters.length
  dist : e.counterDist = collectCounters counters
  lengthNew : e.distNew.length = e.counterDist.length
  lengthNs : e.ns.length = e.counterDist.length
  nonneg : ∀ j, 0 ≤ e.distNew.getD j 0
  shown : ∀ c ∈ counters, 0 < c → 0 < e.distNew.getD c 0
  sizes : ∀ j, 0 ≤ e.ns.getD j 0
  sizes_shown : ∀ c ∈ counters, 0 < c → 0 < e.ns.getD c 0
  total : weigh (fun j => (j : K)) e.ns = (counters.sum : K)
  atLeast : (counters.countP (0 < ·) : K) ≤ e.nNew
  atMost : e.nNew ≤ (6 * counters.countP (0 < ·) : ℕ)

section Sums

omit [LinearOrder K] [IsStrictOrderedRing K]

theorem getD_tabulate (n : ℕ) (f : ℕ → K) (j : ℕ) :
    (tabulate n f).getD j 0 = if 0 < j ∧ j < n then f j else 0 := by
  rw [tabulate, List.getD_eq_getElem?_getD, List.getElem?_map]
  rcases lt_or_ge j n with hj | hj
  · rw [List.getElem?_range hj, Option.map_some, Option.getD_some]
    rcases Nat.eq_zero_or_pos j with rfl | h0
    · rw [if_pos rfl, if_neg fun h => lt_irrefl _ h.1]
    · rw [if_neg h0.ne', if_pos ⟨h0, hj⟩]
  · rw [List.getElem?_eq_none (by rwa [List.length_range]), if_neg fun h => not_lt.mpr hj h.2]
    rfl

theorem length_tabulate (n : ℕ) (f : ℕ → K) : (tabulate n f).length = n := by
  rw [tabulate, List.length_map, List.length_range]

/-- A sum over the values but zero is one over the counters in use. -/
theorem sum_values {counters : List ℕ} {n : ℕ} (hn : 0 < n) (h : ∀ c ∈ counters, c < n)
    (f : ℕ → K) : ((values n).map fun i => (counters.count i : K) * f i).sum =
      (counters.map fun c => if c = 0 then 0 else f c).sum := by
  rw [← sum_count counters (fun c => if c = 0 then 0 else f c) h]
  obtain ⟨m, rfl⟩ := Nat.exists_eq_succ_of_ne_zero hn.ne'
  rw [Finset.sum_range_succ', if_pos rfl, mul_zero, add_zero, values, Nat.succ_sub_one,
    List.range'_eq_map_range, List.map_map]
  refine congrArg List.sum (List.map_congr_left fun i _ => ?_)
  rw [if_neg (Nat.succ_ne_zero i), Function.comp_apply, Nat.add_comm]

theorem sum_used (counters : List ℕ) :
    (counters.map fun c => if c = 0 then 0 else (1 : K)).sum = counters.countP (0 < ·) := by
  induction counters with
  | nil => simp
  | cons c counters ih =>
    rw [List.map_cons, List.sum_cons, ih, List.countP_cons]
    rcases Nat.eq_zero_or_pos c with rfl | hc
    · simp
    · simp [hc, hc.ne', add_comm]

theorem sum_eq_weigh {ns : List K} (h : ns.getD 0 0 = 0) :
    (ns.drop 1).sum = weigh (fun _ => 1) ns := by
  have hsum : ∀ l : List K, l.sum = ∑ j ∈ Finset.range l.length, l.getD j 0 := fun l => by
    induction l with
    | nil => rfl
    | cons x l ih =>
      rw [List.sum_cons, ih, List.length_cons, Finset.sum_range_succ', add_comm]
      rfl
  cases ns with
  | nil => rfl
  | cons x ns =>
    have hx : x = 0 := h
    rw [weigh, List.length_cons, Finset.sum_range_succ']
    simp only [one_mul, List.getD_cons_succ, List.getD_cons_zero, hx, add_zero, List.drop_one,
      List.tail_cons]
    exact hsum ns

end Sums

/-- A combination of sizes that may occur has a likelihood. -/
theorem getPFromBeta_nonneg (hexp : ∀ x, 0 < exp x) {w : ℕ} {dist : List K} {lambda n : K}
    (hn : 0 ≤ n) (hdist : ∀ j, 0 ≤ dist.getD j 0) (r : List ℕ) :
    0 ≤ getPFromBeta exp w r lambda dist n := by
  refine mul_nonneg (hexp _).le (List.prod_nonneg fun x hx => ?_)
  obtain ⟨si, -, rfl⟩ := List.mem_map.mp hx
  exact div_nonneg (pow_nonneg (div_nonneg (mul_nonneg hn (hdist si)) (Nat.cast_nonneg w)) _)
    (Nat.cast_nonneg _)

theorem getPFromBeta_single_pos (hexp : ∀ x, 0 < exp x) {w i : ℕ} {dist : List K} {lambda n : K}
    (hw : 0 < w) (hn : 0 < n) (hi : 0 < dist.getD i 0) :
    0 < getPFromBeta exp w [i] lambda dist n := by
  refine mul_pos (hexp _) ?_
  rw [(List.nodup_singleton i).dedup]
  simp only [List.map_cons, List.map_nil, List.prod_cons, List.prod_nil,
    mul_one, List.count_singleton_self, pow_one, Nat.factorial_one, Nat.cast_one, div_one]
  exact div_pos (mul_pos hn hi) (Nat.cast_pos.mpr hw)

theorem sum_pos_of_mem {combs : List (List ℕ)} {p : List ℕ → K} {r : List ℕ} (hr : r ∈ combs)
    (hp : ∀ r ∈ combs, 0 ≤ p r) (hpos : 0 < p r) : 0 < (combs.map p).sum := by
  refine hpos.trans_le (List.single_le_sum (fun x hx => ?_) _ (List.mem_map_of_mem hr))
  obtain ⟨r', hr', rfl⟩ := List.mem_map.mp hx
  exact hp r' hr'

theorem length_collectCounters_pos (counters : List ℕ) : 0 < (collectCounters counters).length := by
  have hlt : ∀ c ∈ counters, c < (List.replicate (counters.foldl max 0 + 1) 0).length :=
    fun c hc => by
      rw [List.length_replicate]
      exact Nat.lt_succ_of_le (le_foldl_max (.inl hc))
  rw [collectCounters, (histogram hlt).1, List.length_replicate]
  exact Nat.succ_pos _

/-- The sizes `ns` are what the turns of an epoch add up to, with likelihoods `p` that are
positive for a flow that makes up a counter alone. -/
structure Spreads (counters : List ℕ) (C : ℕ → List (List ℕ)) (p : List ℕ → K) (ns : List K) :
    Prop where
  length : ns.length = (collectCounters counters).length
  enumerates : ∀ i, 0 < i → i < ns.length → Enumerates C i
  nonneg : ∀ r, 0 ≤ p r
  shown : ∀ i ∈ counters, 0 < i → 0 < p [i]
  gains : ∀ j < ns.length, ns.getD j 0 =
    ((values ns.length).map fun i => gain (fun i => counters.count i) p C i j).sum

namespace Spreads

variable {counters : List ℕ} {C : ℕ → List (List ℕ)} {p : List ℕ → K} {ns : List K}

omit [IsStrictOrderedRing K] in
theorem lt_length (h : Spreads counters C p ns) {c : ℕ} (hc : c ∈ counters) : c < ns.length :=
  h.length ▸ lt_length_collectCounters hc

omit [IsStrictOrderedRing K] in
theorem length_pos (h : Spreads counters C p ns) : 0 < ns.length :=
  h.length ▸ length_collectCounters_pos counters

/-- The likelihoods of the combinations of a counter do not add up to zero. -/
theorem sum_pos (h : Spreads counters C p ns) {c : ℕ} (hc : c ∈ counters) (h0 : 0 < c) :
    0 < ((C c).map p).sum :=
  sum_pos_of_mem (h.enumerates c h0 (h.lt_length hc)).single (fun r _ => h.nonneg r)
    (h.shown c hc h0)

theorem gain_nonneg (h : Spreads counters C p ns) (i j : ℕ) :
    0 ≤ gain (fun i => counters.count i) p C i j := by
  have hsum : 0 ≤ ((C i).map p).sum := List.sum_nonneg fun y hy => by
    obtain ⟨r, -, rfl⟩ := List.mem_map.mp hy
    exact h.nonneg r
  rw [gain]
  split
  · exact le_rfl
  · refine List.sum_nonneg fun x hx => ?_
    obtain ⟨r, -, rfl⟩ := List.mem_map.mp hx
    exact mul_nonneg (Nat.cast_nonneg _)
      (div_nonneg (mul_nonneg (Nat.cast_nonneg _) (h.nonneg r)) hsum)

theorem sizes (h : Spreads counters C p ns) (j : ℕ) : 0 ≤ ns.getD j 0 := by
  rcases lt_or_ge j ns.length with hj | hj
  · rw [h.gains j hj]
    refine List.sum_nonneg fun x hx => ?_
    obtain ⟨i, -, rfl⟩ := List.mem_map.mp hx
    exact h.gain_nonneg i j
  · rw [List.getD_eq_getElem?_getD, List.getElem?_eq_none hj]
    exact le_rfl

/-- The combination of one flow gives a share to the value of the counter itself. -/
theorem sizes_shown (h : Spreads counters C p ns) {c : ℕ} (hc : c ∈ counters) (h0 : 0 < c) :
    0 < ns.getD c 0 := by
  have hcount : 0 < counters.count c := List.count_pos_iff.mpr hc
  have hsum := h.sum_pos hc h0
  have hpart : 0 < gain (fun i => counters.count i) p C c c := by
    rw [gain, if_neg hcount.ne']
    refine sum_pos_of_mem (h.enumerates c h0 (h.lt_length hc)).single (fun r _ =>
      mul_nonneg (Nat.cast_nonneg _)
        (div_nonneg (mul_nonneg (Nat.cast_nonneg _) (h.nonneg r)) hsum.le)) ?_
    rw [List.count_singleton_self, Nat.cast_one, one_mul]
    exact div_pos (mul_pos (Nat.cast_pos.mpr hcount) (h.shown c hc h0)) hsum
  rw [h.gains c (h.lt_length hc)]
  refine hpart.trans_le (List.single_le_sum (fun x hx => ?_) _
    (List.mem_map_of_mem (mem_values.mpr ⟨h0, h.lt_length hc⟩)))
  obtain ⟨i, -, rfl⟩ := List.mem_map.mp hx
  exact h.gain_nonneg i c

omit [IsStrictOrderedRing K] in
theorem first (h : Spreads counters C p ns) : ns.getD 0 0 = 0 := by
  rw [h.gains 0 h.length_pos]
  refine List.sum_eq_zero fun x hx => ?_
  obtain ⟨i, hi, rfl⟩ := List.mem_map.mp hx
  obtain ⟨h0, hn⟩ := mem_values.mp hi
  rw [gain]
  split
  · rfl
  · refine List.sum_eq_zero fun y hy => ?_
    obtain ⟨r, hr, rfl⟩ := List.mem_map.mp hy
    -- no flow of a combination has the size zero
    have hno : r.count 0 = 0 := List.count_eq_zero.mpr fun hmem =>
      absurd (((h.enumerates i h0 hn).comb r hr).1.pos 0 hmem) (by decide)
    rw [hno, Nat.cast_zero, zero_mul]

/-- Where a function of the sizes of each combination is between bounds, the turns keep it
there. -/
theorem weigh_bounds (h : Spreads counters C p ns) {f a b : ℕ → K}
    (hf : ∀ i, 0 < i → i < ns.length → ∀ r ∈ C i, a i ≤ (r.map f).sum ∧ (r.map f).sum ≤ b i) :
    (counters.map fun c => if c = 0 then 0 else a c).sum ≤ weigh f ns ∧
      weigh f ns ≤ (counters.map fun c => if c = 0 then 0 else b c).sum := by
  have hparts : ∀ i ∈ values ns.length, ∀ r ∈ C i, ∀ x ∈ r, x < ns.length :=
    fun i hi r hr x hx => by
      obtain ⟨h0, hn⟩ := mem_values.mp hi
      have hsum := ((h.enumerates i h0 hn).comb r hr).1.sum
      exact (hsum ▸ List.le_sum_of_mem hx).trans_lt hn
  have hturn : ∀ i ∈ values ns.length, counters.count i ≠ 0 → 0 < ((C i).map p).sum :=
    fun i hi hcnt =>
      h.sum_pos (List.count_pos_iff.mp (Nat.pos_of_ne_zero hcnt)) (mem_values.mp hi).1
  rw [weigh_gain f h.gains hparts, ← sum_values h.length_pos (fun c hc => h.lt_length hc) a,
    ← sum_values h.length_pos (fun c hc => h.lt_length hc) b]
  constructor <;> refine List.sum_le_sum fun i hi => ?_
  · obtain ⟨h0, hn⟩ := mem_values.mp hi
    split
    · next hcnt => rw [hcnt, Nat.cast_zero, zero_mul]
    · next hcnt =>
      exact le_mean _ (fun r _ => h.nonneg r) (hturn i hi hcnt) fun r hr => (hf i h0 hn r hr).1
  · obtain ⟨h0, hn⟩ := mem_values.mp hi
    split
    · next hcnt => rw [hcnt, Nat.cast_zero, zero_mul]
    · next hcnt =>
      exact mean_le _ (fun r _ => h.nonneg r) (hturn i hi hcnt) fun r hr => (hf i h0 hn r hr).2

/-- A combination has its value as the sum of its sizes. -/
theorem total (h : Spreads counters C p ns) :
    weigh (fun j => (j : K)) ns = (counters.sum : K) := by
  have hsum : ∀ r : List ℕ, (r.map fun j : ℕ => (j : K)).sum = (r.sum : K) :=
    fun r => (Nat.cast_list_sum r).symm
  have hcounters : (counters.map fun c : ℕ => if c = 0 then 0 else (c : K)).sum = counters.sum := by
    rw [← hsum]
    refine congrArg List.sum (List.map_congr_left fun c _ => ?_)
    split
    · next hc => rw [hc, Nat.cast_zero]
    · rfl
  have hbounds := h.weigh_bounds (f := fun j => (j : K)) (a := fun i => (i : K))
    (b := fun i => (i : K)) fun i h0 hn r hr => by
      rw [hsum, ((h.enumerates i h0 hn).comb r hr).1.sum]
      exact ⟨le_rfl, le_rfl⟩
  rw [hcounters] at hbounds
  exact le_antisymm hbounds.2 hbounds.1

/-- A combination has one to six flows. -/
theorem flows (h : Spreads counters C p ns) :
    (counters.countP (0 < ·) : K) ≤ weigh (fun _ => 1) ns ∧
      weigh (fun _ => 1) ns ≤ (6 * counters.countP (0 < ·) : ℕ) := by
  have hbounds := h.weigh_bounds (f := fun _ => 1) (a := fun _ => (1 : K))
    (b := fun _ => ((6 : ℕ) : K)) fun i h0 hn r hr => by
      rw [List.map_const', List.sum_replicate, nsmul_eq_mul, mul_one]
      have hcomb := (h.enumerates i h0 hn).comb r hr
      exact ⟨Nat.one_le_cast.mpr (List.length_pos_iff.mpr hcomb.1.nonempty),
        Nat.cast_le.mpr hcomb.2⟩
  have hsix : (counters.map fun c => if c = 0 then 0 else ((6 : ℕ) : K)) =
      counters.map fun c => ((6 : ℕ) : K) * if c = 0 then 0 else 1 :=
    List.map_congr_left fun c _ => by rw [mul_ite, mul_zero, mul_one]
  rwa [hsix, List.sum_map_mul_left, sum_used, ← Nat.cast_mul] at hbounds

end Spreads

/-- The likelihood of a combination in the next epoch -/
def likelihood (e : EMFSD K) (r : List ℕ) : K :=
  getPFromBeta exp e.w r (e.nNew / e.w) e.distNew e.nNew

/-- The next epoch comes to sizes that are what the turns add up to. -/
theorem nextEpoch_spreads {counters : List ℕ} {e : EMFSD K} (h : Sound counters e)
    (hexp : ∀ x, 0 < exp x) {C : ℕ → List (List ℕ)} {fuel : ℕ}
    (hC : ∀ i, 0 < i → i < (collectCounters counters).length →
      Enumerates C i ∧ combinations fuel i = some (C i)) :
    ∃ ns, EMFSD.nextEpoch exp fuel e = some { e with
        ns
        nNew := (ns.drop 1).sum
        distNew := tabulate e.counterDist.length fun i => ns.getD i 0 / (ns.drop 1).sum } ∧
      Spreads counters C (likelihood exp e) ns := by
  have hcnt : ∀ i, counters.count i = e.counterDist.getD i 0 := fun i => by
    rw [h.dist, getD_collectCounters]
  have hnNew : 0 ≤ e.nNew := (Nat.cast_nonneg _).trans h.atLeast
  have hcombinations : ∀ i ∈ values e.counterDist.length, combinations fuel i = some (C i) :=
    fun i hi => (hC i (mem_values.mp hi).1 (h.dist ▸ (mem_values.mp hi).2)).2
  obtain ⟨ns, hrun, hlen, hns⟩ := foldlM_spread (fun i => counters.count i) (likelihood exp e)
    hcombinations (e.ns.map fun _ => 0)
  have hlen' : ns.length = (collectCounters counters).length := by
    rw [hlen, List.length_map, h.lengthNs, h.dist]
  have hzero : ∀ j, (e.ns.map fun _ => (0 : K)).getD j 0 = 0 := fun j => by
    rw [List.getD_eq_getElem?_getD, List.getElem?_map]
    cases e.ns[j]? <;> rfl
  refine ⟨ns, ?_, hlen', fun i h0 hn => (hC i h0 (hlen' ▸ hn)).1,
    getPFromBeta_nonneg exp hexp hnNew h.nonneg, fun i hi h0 => ?_, fun j hj => ?_⟩
  · have hloop := congrArg (Option.map fun ns : List K => ({ e with
      ns
      nNew := (ns.drop 1).sum
      distNew := tabulate e.counterDist.length fun i => ns.getD i 0 / (ns.drop 1).sum } : EMFSD K))
      hrun
    simp only [hcnt] at hloop
    exact hloop
  · have hcount : 0 < counters.countP (0 < ·) :=
      List.countP_pos_iff.mpr ⟨i, hi, decide_eq_true h0⟩
    exact getPFromBeta_single_pos exp hexp (h.w ▸ List.length_pos_of_mem hi)
      ((Nat.cast_pos.mpr hcount).trans_le h.atLeast) (h.shown i hi h0)
  · rw [hns j (hlen ▸ hj), hzero, zero_add, hlen', h.dist]

/-- An epoch keeps the estimate sound. -/
theorem Sound.nextEpoch {counters : List ℕ} {e : EMFSD K} (h : Sound counters e)
    (hexp : ∀ x, 0 < exp x) {C : ℕ → List (List ℕ)} {fuel : ℕ}
    (hC : ∀ i, 0 < i → i < (collectCounters counters).length →
      Enumerates C i ∧ combinations fuel i = some (C i)) :
    ∃ e', EMFSD.nextEpoch exp fuel e = some e' ∧ Sound counters e' := by
  obtain ⟨ns, hrun, hs⟩ := nextEpoch_spreads exp h hexp hC
  have hflows : (ns.drop 1).sum = weigh (fun _ => 1) ns := sum_eq_weigh hs.first
  have hnonneg : 0 ≤ (ns.drop 1).sum := hflows ▸ (Nat.cast_nonneg _).trans hs.flows.1
  have hpos : ∀ c ∈ counters, 0 < c → 0 < (ns.drop 1).sum := fun c hc h0 => by
    have hcount : 0 < counters.countP (0 < ·) :=
      List.countP_pos_iff.mpr ⟨c, hc, decide_eq_true h0⟩
    exact hflows ▸ (Nat.cast_pos.mpr hcount).trans_le hs.flows.1
  refine ⟨_, hrun, h.w, h.dist, length_tabulate .., hs.length.trans (congrArg _ h.dist.symm),
    fun j => ?_, fun c hc h0 => ?_, hs.sizes, fun c => hs.sizes_shown, hs.total,
    hflows ▸ hs.flows.1, hflows ▸ hs.flows.2⟩
  · dsimp only
    rw [getD_tabulate]
    split
    · exact div_nonneg (hs.sizes j) hnonneg
    · exact le_rfl
  · dsimp only
    rw [getD_tabulate, if_pos ⟨h0, h.dist ▸ lt_length_collectCounters hc⟩]
    exact div_pos (hs.sizes_shown hc h0) (hpos c hc h0)

omit [LinearOrder K] [IsStrictOrderedRing K] in
theorem count_zero_add (counters : List ℕ) :
    counters.length - counters.count 0 = counters.countP (0 < ·) := by
  induction counters with
  | nil => rfl
  | cons c counters ih =>
    have hle : counters.count 0 ≤ counters.length := List.count_le_length
    rw [List.length_cons, List.count_cons, List.countP_cons, ← ih]
    rcases Nat.eq_zero_or_pos c with rfl | hc
    · simp
    · simp only [beq_iff_eq, hc.ne', if_false, hc, decide_true, if_true, add_zero]
      lia

/-- `set_counters` starts from one flow for each counter in use. -/
theorem sound_setCounters (counters : List ℕ) :
    Sound counters (setCounters counters : EMFSD K) := by
  have hlt : ∀ c ∈ counters, c < (collectCounters counters).length :=
    fun c hc => lt_length_collectCounters hc
  have hcount : ∀ c ∈ counters, 0 < counters.count c := fun c hc => List.count_pos_iff.mpr hc
  have hns : ∀ j, (setCounters counters : EMFSD K).ns.getD j 0 =
      if 0 < j ∧ j < (collectCounters counters).length then (counters.count j : K) else 0 :=
    fun j => by
      rw [setCounters]
      dsimp only
      rw [getD_tabulate, getD_collectCounters]
  have hnNew : (setCounters counters : EMFSD K).nNew = counters.countP (0 < ·) := by
    rw [setCounters]
    dsimp only
    rw [getD_collectCounters, count_zero_add]
  have hweigh : ∀ f : ℕ → K, weigh f (setCounters counters : EMFSD K).ns =
      (counters.map fun c => if c = 0 then 0 else f c).sum := fun f => by
    have hlen : (setCounters counters : EMFSD K).ns.length = (collectCounters counters).length :=
      length_tabulate ..
    rw [weigh, hlen, ← sum_count counters _ hlt]
    refine Finset.sum_congr rfl fun j hj => ?_
    rw [hns]
    rcases Nat.eq_zero_or_pos j with rfl | h0
    · rw [if_neg fun h => lt_irrefl _ h.1, if_pos rfl, mul_zero, mul_zero]
    · rw [if_pos ⟨h0, Finset.mem_range.mp hj⟩, if_neg h0.ne', mul_comm]
  have hdist : ∀ j, (setCounters counters : EMFSD K).distNew.getD j 0 =
      if 0 < j ∧ j < (collectCounters counters).length then
        (counters.count j : K) / counters.countP (0 < ·) else 0 := fun j => by
    rw [setCounters]
    dsimp only
    rw [getD_tabulate, getD_collectCounters, getD_collectCounters, count_zero_add]
  refine ⟨rfl, rfl, length_tabulate .., length_tabulate .., fun j => ?_, fun c hc h0 => ?_,
    fun j => ?_, fun c hc h0 => ?_, ?_, hnNew.ge, ?_⟩
  · rw [hdist]
    split
    · exact div_nonneg (Nat.cast_nonneg _) (Nat.cast_nonneg _)
    · exact le_rfl
  · rw [hdist, if_pos ⟨h0, hlt c hc⟩]
    exact div_pos (Nat.cast_pos.mpr (hcount c hc))
      (Nat.cast_pos.mpr (List.countP_pos_iff.mpr ⟨c, hc, decide_eq_true h0⟩))
  · rw [hns]
    split
    · exact Nat.cast_nonneg _
    · exact le_rfl
  · rw [hns, if_pos ⟨h0, hlt c hc⟩]
    exact Nat.cast_pos.mpr (hcount c hc)
  · rw [hweigh, Nat.cast_list_sum]
    refine congrArg List.sum (List.map_congr_left fun c _ => ?_)
    split
    · next hc => rw [hc, Nat.cast_zero]
    · rfl
  · rw [hnNew, Nat.cast_le]
    lia

/-- After any number of epochs, for which the generators end, the estimate is sound: the sizes
of the flows add up to the sum of the counters, each counter in use shows a flow of its own
value, and there are between one and six flows for each counter in use. -/
theorem epochs_conserve (hexp : ∀ x, 0 < exp x) (counters : List ℕ) :
    ∃ limit, ∀ fuel ≥ limit, ∀ k, ∃ e, epochs exp fuel k (setCounters counters) = some e ∧
      ∑ j ∈ Finset.range e.ns.length, (j : K) * e.ns.getD j 0 = (counters.sum : K) ∧
      (∀ j, 0 ≤ e.ns.getD j 0) ∧ (∀ c ∈ counters, 0 < c → 0 < e.ns.getD c 0) ∧
      (counters.countP (0 < ·) : K) ≤ e.nNew ∧
      e.nNew ≤ (6 * counters.countP (0 < ·) : ℕ) := by
  obtain ⟨C, limit, hC⟩ := exists_combinations (collectCounters counters).length
  refine ⟨limit, fun fuel hfuel k => ?_⟩
  have hrun : ∀ e : EMFSD K, Sound counters e →
      ∃ e', epochs exp fuel k e = some e' ∧ Sound counters e' := by
    induction k with
    | zero => exact fun e he => ⟨e, rfl, he⟩
    | succ k ih =>
      intro e he
      obtain ⟨e', hnext, he'⟩ := he.nextEpoch exp hexp fun i h0 hn =>
        ⟨(hC i h0 hn).1, (hC i h0 hn).2 fuel hfuel⟩
      obtain ⟨e'', hrun, he''⟩ := ih e' he'
      exact ⟨e'', by rw [epochs, hnext]; exact hrun, he''⟩
  obtain ⟨e, hrun, he⟩ := hrun _ (sound_setCounters counters)
  exact ⟨e, hrun, he.total, he.sizes, he.sizes_shown, he.atLeast, he.atMost⟩

theorem epochs_conserve_real : ∃ limit, ∀ fuel ≥ limit, ∀ k, ∃ e,
    epochs Real.exp fuel k (setCounters [3, 0, 1, 2, 0, 3]) = some e ∧
      ∑ j ∈ Finset.range e.ns.length, (j : ℝ) * e.ns.getD j 0 =
        (([3, 0, 1, 2, 0, 3] : List ℕ).sum : ℝ) ∧
      (∀ j, 0 ≤ e.ns.getD j 0) ∧ (∀ c ∈ [3, 0, 1, 2, 0, 3], 0 < c → 0 < e.ns.getD c 0) ∧
      (([3, 0, 1, 2, 0, 3] : List ℕ).countP (0 < ·) : ℝ) ≤ e.nNew ∧
      e.nNew ≤ (6 * ([3, 0, 1, 2, 0, 3] : List ℕ).countP (0 < ·) : ℕ) :=
  epochs_conserve Real.exp Real.exp_pos [3, 0, 1, 2, 0, 3]

end EMFSD

end Paraleon.Sketch
