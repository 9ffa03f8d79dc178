import Mathlib.Algebra.Order.BigOperators.Group.Finset
import Mathlib.Data.Fintype.Prod
import Paraleon.Sketch.ElasticSketch

/-!
# Accuracy of the elastic sketch

* `counted_insert`: what the slots and the light counters say about the number of
  insertions of each key.
* `accurate`: a flow is never underestimated but for the saturation of a light counter.

The sums of the light part and of a query are `int`s in the source: `sum_le_insertions` says
that they are no larger than the number of insertions.
-/

namespace Paraleon.Sketch

open Words Function ElasticSketch

variable {c : SketchConfig}

/-! ## A slot and its light counter -/

/-- What the value of a slot and the light counter of its key say of a key inserted `n`
times. The light counter of a flagged slot has what was counted before the flag. -/
inductive Held (n light : Nat) : Nat → Prop
  | exact : 0 < n → n < 2 ^ 31 → Held n light n
  | flagged (cnt : Nat) : 0 < cnt → cnt < 2 ^ 31 → cnt ≤ n → min 255 (n - cnt) ≤ light →
      Held n light (2 ^ 31 + cnt)

namespace Held

variable {n light light' val : Nat}

theorem mono (h : Held n light val) (hle : light ≤ light') : Held n light' val := by
  cases h with
  | exact h0 h1 => exact .exact h0 h1
  | flagged cnt h0 h1 h2 h3 => exact .flagged cnt h0 h1 h2 (h3.trans hle)

theorem count (h : Held n light val) (hlt : getCounterVal val + 1 < 2 ^ 31) :
    Held (n + 1) light (u32 (val + 1)) := by
  cases h with
  | exact h0 h1 =>
    rw [getCounterVal_of_lt h1] at hlt
    rw [u32_of_lt (by omega)]
    exact .exact (Nat.succ_pos n) hlt
  | flagged cnt h0 h1 h2 h3 =>
    rw [getCounterVal_flagged h1] at hlt
    rw [u32_of_lt (by omega)]
    exact .flagged (cnt + 1) (Nat.succ_pos cnt) hlt (by omega) (by omega)

/-- A key without a slot takes one with the flag. -/
theorem swapIn (h : min 255 n ≤ light) : Held (n + 1) light 0x80000001 :=
  .flagged 1 Nat.one_pos (by omega) (by omega) h

/-- Whatever the flag, the light counter of a key that was swapped out has its count. -/
theorem swapOut (h : Held n light val) :
    min 255 n ≤ if highestBitIs1 val then min 255 (light + getCounterVal val)
      else max light (min 255 val) := by
  cases h with
  | exact h0 h1 =>
    rw [highestBitIs1_of_lt h1]
    exact Nat.le_max_right ..
  | flagged cnt h0 h1 h2 h3 =>
    rw [highestBitIs1_flagged h1, getCounterVal_flagged h1, if_pos rfl]
    omega

end Held

/-! ## The invariant -/

/-- What a sketch says about the number `n k` of insertions of each key `k`. -/
structure Counted (n : UInt32 → Nat) (s : ElasticSketch c) : Prop extends s.Placed where
  held : ∀ p i, s.slotKey p i ≠ 0 →
    Held (n (s.slotKey p i)) (s.lightQuery (s.slotKey p i)) (s.slotVal p i)
  absent : ∀ k, k ≠ 0 → ¬ s.Resident k → min 255 (n k) ≤ s.lightQuery k
  full : ∀ k, k ≠ 0 → ¬ s.Resident k → 0 < n k → ∀ i, s.slotKey (c.bucketPos k) i ≠ 0
  light_le : ∀ p, s.counters p ≤ 255

theorem counted_clear : Counted (fun _ => 0) (clear : ElasticSketch c) where
  toPlaced := placed_clear
  held _ _ h := absurd rfl h
  absent _ _ _ := by simp
  full _ _ _ h := absurd h (Nat.lt_irrefl 0)
  light_le _ := Nat.zero_le 255

namespace Counted

variable {n : UInt32 → Nat} {s t : ElasticSketch c} {k : UInt32} {p : Fin c.bucketNum} {i : Slot}

/-- A key that had no slot in a bucket with an empty one was never inserted. -/
theorem eq_zero (h : Counted n s) (hk : k ≠ 0) (hi : s.slotKey (c.bucketPos k) i = 0)
    (habs : ∀ j, s.slotKey (c.bucketPos k) j ≠ k) : n k = 0 := by
  by_contra hn
  exact h.full k hk (h.not_resident hk habs) (Nat.pos_of_ne_zero hn) i hi

/-- One more insertion of `k`, which is now in slot `i`. When this was the slot of another
key, its bucket is full and the light part has the count of that key. -/
theorem setSlot (h : Counted n s) {v g : Nat} (hk : k ≠ 0)
    (hslot : s.slotKey (c.bucketPos k) i = k ∨ ∀ j, s.slotKey (c.bucketPos k) j ≠ k)
    (hb : t.buckets = (s.setSlot (c.bucketPos k) i k v g).buckets) (hgrow : s.Grows t)
    (hlight : ∀ p, t.counters p ≤ 255) (hheld : Held (n k + 1) (t.lightQuery k) v)
    (hout : ∀ e, s.slotKey (c.bucketPos k) i = e → e ≠ 0 → e ≠ k →
      min 255 (n e) ≤ t.lightQuery e ∧ ∀ j, s.slotKey (c.bucketPos k) j ≠ 0) :
    Counted (update n k (n k + 1)) t := by
  have hkey : ∀ q j, t.slotKey q j =
      if q = c.bucketPos k ∧ j = i then k else s.slotKey q j := fun q j => by
    rw [← s.setSlot_slotKey _ _ _ _ k v g, slotKey, slotKey, hb]
  have hval : ∀ q j, t.slotVal q j =
      if q = c.bucketPos k ∧ j = i then v else s.slotVal q j := fun q j => by
    rw [← s.setSlot_slotVal _ _ _ _ k v g, slotVal, slotVal, hb]
  have hin : t.Resident k := ⟨c.bucketPos k, i, by rw [hkey, if_pos ⟨rfl, rfl⟩]⟩
  -- what lost its slot was in slot `i`
  have hlost : ∀ e, ¬ t.Resident e → s.Resident e → s.slotKey (c.bucketPos k) i = e := by
    rintro e ht ⟨q, j, hq⟩
    by_contra hne
    refine ht ⟨q, j, ?_⟩
    rw [hkey, if_neg ?_, hq]
    rintro ⟨rfl, rfl⟩
    exact hne hq
  refine
    { toPlaced := (h.toPlaced.setSlot (v := v) (g := g) hk hslot).of_buckets
        (fun q j => by rw [slotKey, hb, slotKey]) (fun q j => by rw [slotVal, hb, slotVal])
      held := fun q j hne => ?_
      absent := fun e he hout' => ?_
      full := fun e he hout' hpos j => ?_
      light_le := hlight }
  · rw [hkey] at hne ⊢
    rw [hval]
    by_cases hq : q = c.bucketPos k ∧ j = i
    · rw [if_pos hq, if_pos hq, update_self]
      exact hheld
    · rw [if_neg hq] at hne
      rw [if_neg hq, if_neg hq, update_of_ne (h.ne_of_slot q j hk hslot hq)]
      exact (h.held q j hne).mono (hgrow _)
  · have hek : e ≠ k := fun hek => hout' (hek ▸ hin)
    rw [update_of_ne hek]
    by_cases hs : s.Resident e
    · exact (hout e (hlost e hout' hs) he hek).1
    · exact (h.absent e he hs).trans (hgrow e)
  · have hek : e ≠ k := fun hek => hout' (hek ▸ hin)
    rw [update_of_ne hek] at hpos
    rw [hkey]
    split
    · exact hk
    · by_cases hs : s.Resident e
      · have hi := hlost e hout' hs
        have hpe : c.bucketPos e = c.bucketPos k := hi ▸ h.home _ i (hi ▸ he)
        rw [hpe]
        exact (hout e hi he hek).2 j
      · exact h.full e he hs hpos j

/-- A miss counts in the light part. -/
theorem lightInsert (h : Counted n s) {g : Nat} (hk : k ≠ 0)
    (hfull : ∀ j, s.slotKey (c.bucketPos k) j ≠ 0)
    (habs : ∀ j, s.slotKey (c.bucketPos k) j ≠ k) :
    Counted (update n k (n k + 1)) ((s.setGuard (c.bucketPos k) g).lightInsert k 1) := by
  have hgrow : s.Grows ((s.setGuard (c.bucketPos k) g).lightInsert k 1) :=
    (s.setGuard (c.bucketPos k) g).le_lightInsert k 1 h.light_le
  have hkey : ∀ q j, ((s.setGuard (c.bucketPos k) g).lightInsert k 1).slotKey q j =
      s.slotKey q j := fun q j => setGuard_slotKey s _ q j g
  have hval : ∀ q j, ((s.setGuard (c.bucketPos k) g).lightInsert k 1).slotVal q j =
      s.slotVal q j := fun q j => setGuard_slotVal s _ q j g
  have hres : ∀ e, ((s.setGuard (c.bucketPos k) g).lightInsert k 1).Resident e ↔ s.Resident e :=
    fun e => by simp only [Resident, hkey]
  -- the key is in no slot, so that its count is that of the light part
  have hnot := h.not_resident hk habs
  refine
    { toPlaced := h.of_buckets hkey hval
      held := fun q j hne => ?_
      absent := fun e he hout => ?_
      full := fun e he hout hpos j => ?_
      light_le := fun p => ?_ }
  · rw [hkey] at hne ⊢
    have hqk : s.slotKey q j ≠ k := fun hq => hnot ⟨q, j, hq⟩
    rw [hval, update_of_ne hqk]
    exact (h.held q j hne).mono (hgrow _)
  · rw [hres] at hout
    rcases eq_or_ne e k with rfl | hek
    · have hle := h.absent e he hout
      rw [update_self, lightInsert_lightQuery, if_pos rfl]
      change min 255 (n e + 1) ≤ min 255 (s.lightQuery e + 1)
      omega
    · rw [update_of_ne hek]
      exact (h.absent e he hout).trans (hgrow e)
  · rw [hres] at hout
    rw [hkey]
    by_cases hek : e = k
    · exact hek ▸ hfull j
    · rw [update_of_ne hek] at hpos
      exact h.full e he hout hpos j
  · exact lightInsert_le_255 _ k 1 h.light_le p

end Counted

/-- One more insertion is one more in the count of its key. -/
theorem counted_insert {n : UInt32 → Nat} {s : ElasticSketch c} {k : UInt32} (h : Counted n s)
    (hk : k ≠ 0) (hlt : ∀ p i, s.slotKey p i = k → getCounterVal (s.slotVal p i) + 1 < 2 ^ 31) :
    Counted (update n k (n k + 1)) (s.insert k) := by
  rcases s.insert_cases k with ⟨i, hi, hins⟩ | ⟨i, hi, habs, hins⟩ |
    ⟨hfull, habs, ⟨i, hins⟩ | hins⟩ <;> rw [hins]
  -- the key has a slot
  · have hheld := h.held (c.bucketPos k) i (hi.symm ▸ hk)
    rw [hi] at hheld
    exact h.setSlot hk (.inl hi) rfl (fun _ => Nat.le_refl _) h.light_le
      (hheld.count (hlt _ i hi)) fun e he _ hek => absurd (he.symm.trans hi) hek
  -- an empty slot: the key has not been seen
  · have hheld : Held (n k + 1) (s.lightQuery k) 1 := by
      rw [h.eq_zero hk hi habs]
      exact .exact Nat.one_pos (by omega)
    exact h.setSlot hk (.inr habs) rfl (fun _ => Nat.le_refl _) h.light_le hheld
      fun e he he0 _ => absurd (he.symm.trans hi) he0
  · -- the key that is swapped out leaves its count in the light part
    have hout := (h.held (c.bucketPos k) i (hfull i)).swapOut
    have hin := h.absent k hk (h.not_resident hk habs)
    dsimp only
    split
    · next hbit =>
      have hgrow := (s.setSlot (c.bucketPos k) i k 0x80000001 0).le_lightInsert
        (s.slotKey (c.bucketPos k) i) (getCounterVal (s.slotVal (c.bucketPos k) i)) h.light_le
      refine h.setSlot hk (.inr habs) (lightInsert_buckets ..) hgrow
        (lightInsert_le_255 _ _ _ h.light_le) (.swapIn (hin.trans (hgrow k))) ?_
      rintro e rfl - -
      rw [hbit, if_pos rfl] at hout
      rw [lightInsert_lightQuery, if_pos rfl]
      exact ⟨hout, hfull⟩
    · next hbit =>
      have hgrow := (s.setSlot (c.bucketPos k) i k 0x80000001 0).le_swapInsert
        (s.slotKey (c.bucketPos k) i) (s.slotVal (c.bucketPos k) i)
      refine h.setSlot hk (.inr habs) (swapInsert_buckets ..) hgrow
        (swapInsert_le_255 _ _ _ h.light_le) (.swapIn (hin.trans (hgrow k))) ?_
      rintro e rfl - -
      rw [if_neg hbit] at hout
      rw [swapInsert_lightQuery, if_pos rfl]
      exact ⟨hout, hfull⟩
  · exact h.lightInsert hk hfull habs

/-- No counter that the insertions raise reaches `2 ^ 31`. -/
def CountersFit : ElasticSketch c → List UInt32 → Prop
  | _, [] => True
  | s, k :: ks =>
    (∀ p i, s.slotKey p i = k → getCounterVal (s.slotVal p i) + 1 < 2 ^ 31) ∧
      CountersFit (s.insert k) ks

/-! ## The sums of the source fit an `int` -/

/-- The sum of the counters of the heavy part. -/
def ElasticSketch.heavySum (s : ElasticSketch c) : Nat :=
  ∑ x : Fin c.bucketNum × Slot, getCounterVal (s.slotVal x.1 x.2)

theorem setSlot_heavySum (s : ElasticSketch c) (p : Fin c.bucketNum) (i : Slot) (k : UInt32)
    (v g : Nat) : (s.setSlot p i k v g).heavySum + getCounterVal (s.slotVal p i) =
      s.heavySum + getCounterVal v := by
  unfold heavySum
  rw [← Finset.add_sum_erase _ _ (Finset.mem_univ (p, i)),
    ← Finset.add_sum_erase Finset.univ (fun x => getCounterVal (s.slotVal x.1 x.2))
      (Finset.mem_univ (p, i))]
  have hrest : ∀ x ∈ Finset.univ.erase (p, i),
      getCounterVal ((s.setSlot p i k v g).slotVal x.1 x.2) =
        getCounterVal (s.slotVal x.1 x.2) := by
    intro x hx
    have hne : ¬ (x.1 = p ∧ x.2 = i) := fun h => Finset.ne_of_mem_erase hx (Prod.ext h.1 h.2)
    rw [setSlot_slotVal, if_neg hne]
  rw [Finset.sum_congr rfl hrest, setSlot_slotVal, if_pos ⟨rfl, rfl⟩]
  dsimp only
  omega

/-- After `N` insertions, no sum over slots and one light counter is above `N`. -/
structure SumLe (N : Nat) (s : ElasticSketch c) : Prop where
  val_lt : ∀ p i, s.slotVal p i < 2 ^ 32
  sum_le : ∀ q, s.heavySum + s.counters q ≤ N

theorem sumLe_clear : SumLe 0 (clear : ElasticSketch c) where
  val_lt _ _ := Nat.two_pow_pos 32
  sum_le q := by
    have hsum : (clear : ElasticSketch c).heavySum = 0 :=
      Finset.sum_eq_zero fun _ _ => getCounterVal_of_lt (Nat.two_pow_pos 31)
    exact hsum.le

theorem getCounterVal_le_heavySum (s : ElasticSketch c) (p : Fin c.bucketNum) (i : Slot) :
    getCounterVal (s.slotVal p i) ≤ s.heavySum :=
  Finset.single_le_sum_of_canonicallyOrdered
    (f := fun x : Fin c.bucketNum × Slot => getCounterVal (s.slotVal x.1 x.2))
    (Finset.mem_univ (p, i))

namespace SumLe

variable {N : Nat} {s : ElasticSketch c} {k : UInt32} {p : Fin c.bucketNum} {i : Slot} {v g : Nat}

theorem setSlot (h : SumLe N s) (hv : v < 2 ^ 32)
    (hle : getCounterVal v ≤ getCounterVal (s.slotVal p i) + 1) :
    SumLe (N + 1) (s.setSlot p i k v g) where
  val_lt q j := by
    rw [setSlot_slotVal]
    split
    · exact hv
    · exact h.val_lt q j
  sum_le q := by
    have hsum := setSlot_heavySum s p i k v g
    have hq : s.heavySum + (s.setSlot p i k v g).counters q ≤ N := h.sum_le q
    omega

/-- What a key leaves to the light part, the heavy part loses. -/
theorem swap (h : SumLe N s) {t : ElasticSketch c}
    (hb : t.buckets = (s.setSlot p i k 0x80000001 g).buckets)
    (hq : ∀ q, t.counters q ≤ s.counters q + getCounterVal (s.slotVal p i)) :
    SumLe (N + 1) t where
  val_lt q j := by
    have hval : t.slotVal q j = (s.setSlot p i k 0x80000001 g).slotVal q j := by
      rw [slotVal, hb, slotVal]
    rw [hval, setSlot_slotVal]
    split
    · omega
    · exact h.val_lt q j
  sum_le q := by
    have ht : t.heavySum = (s.setSlot p i k 0x80000001 g).heavySum := by
      simp only [heavySum, slotVal, hb]
    have hsum := setSlot_heavySum s p i k 0x80000001 g
    have hv : getCounterVal 0x80000001 = 1 := rfl
    have hs := h.sum_le q
    have hle := hq q
    omega

theorem insert (h : SumLe N s) (k : UInt32) : SumLe (N + 1) (s.insert k) := by
  rcases s.insert_cases k with ⟨i, hi, hins⟩ | ⟨i, hi, habs, hins⟩ |
    ⟨hfull, habs, ⟨i, hins⟩ | hins⟩ <;> rw [hins]
  · exact h.setSlot (Nat.mod_lt _ (Nat.two_pow_pos 32)) (getCounterVal_succ _)
  · exact h.setSlot (by omega) (Nat.le_add_left 1 _)
  · dsimp only
    split
    · exact h.swap (lightInsert_buckets ..) fun q => lightInsert_counters_le ..
    · next hbit =>
      have hlt : s.slotVal (c.bucketPos k) i < 2 ^ 31 :=
        lt_of_highestBitIs1 (h.val_lt _ i) (Bool.eq_false_iff.mpr hbit)
      refine h.swap (swapInsert_buckets ..) fun q => ?_
      rw [getCounterVal_of_lt hlt]
      exact swapInsert_counters_le ..
  · exact
      { val_lt := fun q j => (setGuard_slotVal s _ q j _).trans_lt (h.val_lt q j)
        sum_le := fun q => by
          have hsum : ((s.setGuard (c.bucketPos k) (updateGuardVal
              (s.buckets (c.bucketPos k)).guard)).lightInsert k 1).heavySum = s.heavySum :=
            Finset.sum_congr rfl fun x _ => by rw [← setGuard_slotVal s (c.bucketPos k)]; rfl
          have hle := lightInsert_counters_le (s.setGuard (c.bucketPos k)
            (updateGuardVal (s.buckets (c.bucketPos k)).guard)) k 1 q
          rw [hsum]
          exact (Nat.add_le_add_left hle _).trans (Nat.add_le_add_right (h.sum_le q) 1) }

end SumLe

theorem sumLe_insertAll {N : Nat} {s : ElasticSketch c} (ks : List UInt32) (h : SumLe N s) :
    SumLe (N + ks.length) (s.insertAll ks) := by
  induction ks generalizing N s with
  | nil => exact h
  | cons k ks ih =>
    have hlen : N + 1 + ks.length = N + (k :: ks).length := by
      rw [List.length_cons]
      omega
    exact hlen ▸ ih (h.insert k)

/-- Neither a light counter before it is cut at 255 nor the value of a query is more than
the number of insertions. -/
theorem sum_le_insertions (ks : List UInt32) (p : Fin c.bucketNum) (i : Slot)
    (q : Fin c.counterNum) :
    let s : ElasticSketch c := clear.insertAll ks
    getCounterVal (s.slotVal p i) + s.counters q ≤ ks.length := by
  have h : SumLe ks.length (clear.insertAll ks : ElasticSketch c) := by
    simpa using sumLe_insertAll ks (sumLe_clear (c := c))
  exact (Nat.add_le_add_right (getCounterVal_le_heavySum _ p i) _).trans (h.sum_le q)

/-- Fewer than `2 ^ 31` insertions raise no counter too far. -/
theorem countersFit_of_sumLe {N : Nat} {s : ElasticSketch c} {ks : List UInt32}
    (h : SumLe N s) (hlen : N + ks.length < 2 ^ 31) : CountersFit s ks := by
  induction ks generalizing N s with
  | nil => trivial
  | cons k ks ih =>
    rw [List.length_cons] at hlen
    refine ⟨fun p i _ => ?_, ih (h.insert k) (by omega)⟩
    have hle := getCounterVal_le_heavySum s p i
    have hsum := h.sum_le ⟨0, c.counterNum_pos⟩
    omega

/-! ## Accuracy -/

theorem counted_insertAll {n : UInt32 → Nat} {s : ElasticSketch c} {ks : List UInt32}
    (h : Counted n s) (hks : ∀ k ∈ ks, k ≠ 0) (hfit : CountersFit s ks) :
    Counted (fun k => n k + ks.count k) (s.insertAll ks) := by
  induction ks generalizing n s with
  | nil => exact h
  | cons k ks ih =>
    obtain ⟨hk, hks⟩ := List.forall_mem_cons.mp hks
    have hn : (fun e => update n k (n k + 1) e + ks.count e) =
        fun e => n e + (k :: ks).count e := by
      funext e
      rw [List.count_cons, update_apply]
      rcases eq_or_ne e k with rfl | he
      · simp only [if_true, beq_self_eq_true]
        omega
      · have hke : (k == e) = false := by simpa using Ne.symm he
        simp [he, hke]
    have hstep := ih (counted_insert h hk hfit.1) hks hfit.2
    rw [hn] at hstep
    exact hstep

namespace Counted

variable {n : UInt32 → Nat} {s : ElasticSketch c} {k : UInt32} {p : Fin c.bucketNum} {i : Slot}

theorem query_of_exact (h : Counted n s) (hk : k ≠ 0) (hslot : s.slotKey p i = k)
    (hbit : highestBitIs1 (s.slotVal p i) = false) : s.query k = n k := by
  have hheld := h.held p i (hslot.symm ▸ hk)
  rw [hslot] at hheld
  rw [query, h.heavyQuery hk hslot]
  generalize s.slotVal p i = val at hheld hbit ⊢
  cases hheld with
  | exact h0 h1 => rw [hbit, if_neg (by simp; omega)]
  | flagged cnt _ h1 _ _ => exact absurd hbit (by rw [highestBitIs1_flagged h1]; simp)

theorem query_of_flagged (h : Counted n s) (hk : k ≠ 0) (hslot : s.slotKey p i = k)
    (hbit : highestBitIs1 (s.slotVal p i) = true) :
    s.query k = getCounterVal (s.slotVal p i) + s.lightQuery k ∧
      getCounterVal (s.slotVal p i) ≤ n k ∧
      min 255 (n k - getCounterVal (s.slotVal p i)) ≤ s.lightQuery k := by
  have hheld := h.held p i (hslot.symm ▸ hk)
  rw [hslot] at hheld
  rw [query, h.heavyQuery hk hslot]
  generalize s.slotVal p i = val at hheld hbit ⊢
  refine ⟨if_pos (.inr hbit), ?_⟩
  cases hheld with
  | exact _ h1 => simp [highestBitIs1_of_lt h1] at hbit
  | flagged cnt _ h1 h2 h3 =>
    rw [getCounterVal_flagged h1]
    exact ⟨h2, h3⟩

theorem query_of_absent (h : Counted n s) (hk : k ≠ 0) (hres : ¬ s.Resident k) :
    s.query k = s.lightQuery k ∧ min 255 (n k) ≤ s.lightQuery k := by
  refine ⟨?_, h.absent k hk hres⟩
  rw [query, heavyQuery_of_absent hres]
  simp [getCounterVal]

/-- Only a light counter at its maximum lets a query underestimate. -/
theorem saturated (h : Counted n s) (hk : k ≠ 0) (hlt : s.query k < n k) :
    s.lightQuery k = 255 := by
  have hle : s.lightQuery k ≤ 255 := h.light_le _
  by_cases hres : s.Resident k
  · obtain ⟨p, i, hslot⟩ := hres
    cases hbit : highestBitIs1 (s.slotVal p i) with
    | false =>
      have heq := h.query_of_exact hk hslot hbit
      omega
    | true =>
      obtain ⟨hq, -, hl⟩ := h.query_of_flagged hk hslot hbit
      omega
  · obtain ⟨hq, hl⟩ := h.query_of_absent hk hres
    omega

end Counted

/-- After any insertions since `clear`, a query of a key gives the number of its insertions
when its slot is not flagged; with the flag, at least what the slot counted and as much of
the rest as a light counter can hold; without a slot, as much as a light counter can hold. -/
theorem accurate {ks : List UInt32} (hks : ∀ k ∈ ks, k ≠ 0)
    (hfit : CountersFit (clear : ElasticSketch c) ks) {k : UInt32} (hk : k ≠ 0) :
    let s : ElasticSketch c := clear.insertAll ks
    let n := ks.count k
    (∀ p i, s.slotKey p i = k → highestBitIs1 (s.slotVal p i) = false → s.query k = n) ∧
      (∀ p i, s.slotKey p i = k → highestBitIs1 (s.slotVal p i) = true →
        getCounterVal (s.slotVal p i) + min 255 (n - getCounterVal (s.slotVal p i)) ≤
          s.query k) ∧
      (¬ s.Resident k → min 255 n ≤ s.query k) ∧
      (s.query k < n → s.lightQuery k = 255) := by
  have h : Counted (fun k => ks.count k) (clear.insertAll ks : ElasticSketch c) := by
    simpa using counted_insertAll counted_clear hks hfit
  refine ⟨fun p i hslot hbit => h.query_of_exact hk hslot hbit, fun p i hslot hbit => ?_,
    fun hres => ?_, h.saturated hk⟩
  · obtain ⟨hq, -, hl⟩ := h.query_of_flagged hk hslot hbit
    rw [hq]
    exact Nat.add_le_add_left hl _
  · obtain ⟨hq, hl⟩ := h.query_of_absent hk hres
    exact hq ▸ hl

/-- Seven flows fill the only bucket; the ninth miss of another swaps the first one out. -/
def oneBucket : SketchConfig where
  bucketNum := 1
  counterNum := 1
  bobhash := id
  bucketNum_pos := Nat.one_pos
  counterNum_pos := Nat.one_pos

def swapKeys : List UInt32 := [1, 2, 3, 4, 5, 6, 7] ++ List.replicate 9 8

theorem accurate_swapped :
    let s : ElasticSketch oneBucket := clear.insertAll swapKeys
    s.slotKey ⟨0, Nat.one_pos⟩ 0 = 8 ∧ swapKeys.count 8 = 9 ∧
      getCounterVal (s.slotVal ⟨0, Nat.one_pos⟩ 0) +
        min 255 (swapKeys.count 8 - getCounterVal (s.slotVal ⟨0, Nat.one_pos⟩ 0)) ≤ s.query 8 :=
  have hfit : CountersFit (clear : ElasticSketch oneBucket) swapKeys :=
    countersFit_of_sumLe sumLe_clear (by decide)
  have hkeys : ∀ k ∈ swapKeys, k ≠ 0 := by simp [swapKeys]
  have h := accurate hkeys hfit (show (8 : UInt32) ≠ 0 by decide)
  ⟨by decide +kernel, by decide, h.2.1 _ _ (by decide +kernel) (by decide +kernel)⟩

end Paraleon.Sketch
