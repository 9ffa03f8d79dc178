import Mathlib.Data.Set.Finite.Basic
import Mathlib.Order.Interval.Set.Basic

/-!
# Enumerations by successor

A generator goes from one state to the next, until there is none. Each state has a key. When
the key of the next state is the least one with a property that is greater than the key of
this state, and when there is no next state only if there is no such key, the generator
enumerates the keys with the property.

* `Successor.visits`: if there are finitely many such keys, the generator ends, and it visits
  each of them once, in increasing order.
* `Visits.collect`: the states visited, for a loop with a bound.
-/

namespace Enumeration

variable {σ α : Type*} (next : σ → Option σ)

/-- The states visited after `s`, when the generator ends -/
inductive Visits : σ → List σ → Prop
  | done {s : σ} : next s = none → Visits s []
  | more {s t : σ} {l : List σ} : next s = some t → Visits t l → Visits s (t :: l)

/-- The states visited after `s`, if there are fewer than `fuel` -/
def collect : ℕ → σ → Option (List σ)
  | 0, _ => none
  | fuel + 1, s =>
    match next s with
    | none => some []
    | some t => (collect fuel t).map (t :: ·)

/-- The next state has the least greater key with `P`. The states reached have `I`. -/
structure Successor [LinearOrder α] (key : σ → α) (I : σ → Prop) (P : α → Prop) : Prop where
  some : ∀ {s t}, I s → next s = some t →
    I t ∧ P (key t) ∧ key s < key t ∧ ∀ c, P c → key s < c → key t ≤ c
  none : ∀ {s}, I s → next s = none → ∀ c, P c → c ≤ key s

variable {next} {s : σ} {l : List σ}

theorem Visits.collect (h : Visits next s l) {fuel : ℕ} (hfuel : l.length < fuel) :
    collect next fuel s = some l := by
  induction h generalizing fuel with
  | done hnone =>
    obtain ⟨fuel, rfl⟩ := Nat.exists_eq_succ_of_ne_zero (Nat.ne_zero_of_lt hfuel)
    rw [Enumeration.collect, hnone]
  | more hsome _ ih =>
    obtain ⟨fuel, rfl⟩ := Nat.exists_eq_succ_of_ne_zero (Nat.ne_zero_of_lt hfuel)
    simp only [Enumeration.collect, hsome, ih (Nat.lt_of_succ_lt_succ hfuel), Option.map_some]

theorem Visits.forall {I : σ → Prop} (h : Visits next s l) (hs : I s)
    (hstep : ∀ s t, I s → next s = some t → I t) : ∀ t ∈ l, I t := by
  induction h with
  | done => exact fun t ht => absurd ht List.not_mem_nil
  | more hsome _ ih =>
    have ht := hstep _ _ hs hsome
    exact List.forall_mem_cons.mpr ⟨ht, ih ht⟩

variable [LinearOrder α] {key : σ → α} {I : σ → Prop} {P : α → Prop}

/-- The generator visits each key once, in increasing order. -/
theorem Successor.visits (h : Successor next key I P) (hs : I s)
    (hfin : {c | P c ∧ key s < c}.Finite) :
    ∃ l, Visits next s l ∧ (l.map key).Pairwise (· < ·) ∧
      ∀ c, c ∈ l.map key ↔ P c ∧ key s < c := by
  -- the keys still to come become fewer
  induction hn : hfin.toFinset.card using Nat.strong_induction_on generalizing s with
  | _ n ih =>
    cases hnext : next s with
    | none =>
      refine ⟨[], .done hnext, List.Pairwise.nil, fun c => iff_of_false List.not_mem_nil ?_⟩
      exact fun hc => absurd hc.2 (not_lt.mpr (h.none hs hnext c hc.1))
    | some t =>
      obtain ⟨ht, hPt, hlt, hleast⟩ := h.some hs hnext
      have hsub : {c | P c ∧ key t < c} ⊆ {c | P c ∧ key s < c} :=
        fun c hc => ⟨hc.1, hlt.trans hc.2⟩
      have hfin' : {c | P c ∧ key t < c}.Finite := hfin.subset hsub
      have hcard : hfin'.toFinset.card < n := by
        rw [← hn]
        refine Finset.card_lt_card ⟨Set.Finite.toFinset_subset_toFinset.mpr hsub, fun hback => ?_⟩
        have hmem : key t ∈ hfin'.toFinset := hback (hfin.mem_toFinset.mpr ⟨hPt, hlt⟩)
        exact lt_irrefl _ (hfin'.mem_toFinset.mp hmem).2
      obtain ⟨l, hl, hsorted, hmem⟩ := ih _ hcard ht hfin' rfl
      refine ⟨t :: l, .more hnext hl, ?_, fun c => ?_⟩
      · exact List.pairwise_cons.mpr ⟨fun c hc => ((hmem c).mp hc).2, hsorted⟩
      · rw [List.map_cons, List.mem_cons, hmem]
        constructor
        · rintro (rfl | ⟨hP, hc⟩)
          · exact ⟨hPt, hlt⟩
          · exact ⟨hP, hlt.trans hc⟩
        · rintro ⟨hP, hc⟩
          exact (hleast c hP hc).eq_or_lt.imp Eq.symm fun hlt => ⟨hP, hlt⟩

end Enumeration
