import Mathlib.Data.List.Nodup
import Mathlib.Data.List.Perm.Basic
import Paraleon.Library.Runs

/-!
# Taking turns

A round robin over a list that grows at its end and shrinks anywhere, kept as an
order with a cursor. `upcoming` is the order as seen from the cursor, in which one
step is a `Turn`: the head is served and goes to the end or leaves, some other
entry leaves, or a new one comes in somewhere.

`served_once`: between two consecutive turns of one entry, every other entry that
was there throughout has had exactly one turn.

A machine may also pass over entries that are not ready. `served_le_one`: while one
entry waits and is ready whenever someone is chosen, no other has two turns.
-/

namespace RoundRobin

variable {α : Type*}

/-- The entries in the order in which their turns come. -/
def upcoming (order : List α) (cursor : Nat) : List α := order.drop cursor ++ order.take cursor

/-- The cursor, back at the start when it has reached the end. -/
def wrap (order : List α) (cursor : Nat) : Nat := if order.length ≤ cursor then 0 else cursor

/-- One step of the list of upcoming entries, with the entry it serves. -/
inductive Turn [DecidableEq α] : List α → Option α → List α → Prop
  | stay (l : List α) : Turn l none l
  | serve (k : α) (l : List α) : Turn (k :: l) (some k) (l ++ [k])
  | drop (k : α) (l : List α) : Turn (k :: l) (some k) l
  | leave (k : α) (l : List α) : Turn l none (l.erase k)
  | enter (k : α) (l₁ l₂ : List α) : Turn (l₁ ++ l₂) none (l₁ ++ k :: l₂)

/-! ## The order and its cursor -/

theorem upcoming_perm (order : List α) (cursor : Nat) : (upcoming order cursor).Perm order := by
  have h := @List.perm_append_comm _ (order.drop cursor) (order.take cursor)
  rwa [List.take_append_drop] at h

theorem mem_upcoming {order : List α} {cursor : Nat} {k : α} :
    k ∈ upcoming order cursor ↔ k ∈ order := (upcoming_perm order cursor).mem_iff

theorem nodup_upcoming {order : List α} (cursor : Nat) (h : order.Nodup) :
    (upcoming order cursor).Nodup := (upcoming_perm order cursor).nodup_iff.mpr h

theorem wrap_lt {order : List α} (h : order ≠ []) (cursor : Nat) :
    wrap order cursor < order.length := by
  unfold wrap
  split
  · exact List.length_pos_iff.mpr h
  · next hlt => exact Nat.lt_of_not_le hlt

theorem wrap_of_lt {order : List α} {cursor : Nat} (h : cursor < order.length) :
    wrap order cursor = cursor := if_neg (Nat.not_le_of_lt h)

theorem upcoming_wrap {order : List α} {cursor : Nat} (h : cursor ≤ order.length) :
    upcoming order (wrap order cursor) = upcoming order cursor := by
  unfold wrap
  split
  · next hge =>
    obtain rfl : cursor = order.length := Nat.le_antisymm h hge
    simp [upcoming]
  · rfl

theorem upcoming_append {order : List α} {cursor : Nat} (h : cursor ≤ order.length) (k : α) :
    upcoming (order ++ [k]) cursor = order.drop cursor ++ k :: order.take cursor := by
  unfold upcoming
  rw [List.drop_append_of_le_length h, List.take_append_of_le_length h, List.append_assoc,
    List.singleton_append]

/-- The entry at the cursor is the next one, and last once the cursor has passed it. -/
theorem upcoming_advance {order : List α} {cursor : Nat} {k : α} (h : order[cursor]? = some k) :
    ∃ rest, upcoming order cursor = k :: rest ∧ upcoming order (cursor + 1) = rest ++ [k] := by
  obtain ⟨hlt, rfl⟩ := List.getElem?_eq_some_iff.mp h
  refine ⟨order.drop (cursor + 1) ++ order.take cursor, ?_, ?_⟩
  · rw [upcoming, List.drop_eq_getElem_cons hlt, List.cons_append]
  · rw [upcoming, List.take_succ_eq_append_getElem hlt, List.append_assoc]

theorem upcoming_append_length (xs ys : List α) : upcoming (xs ++ ys) xs.length = ys ++ xs := by
  simp [upcoming]

/-- Without the entry at position `i`, and with the cursor moved along. -/
theorem upcoming_eraseIdx [DecidableEq α] {order : List α} {cursor i : Nat} {k : α}
    (hnodup : order.Nodup) (hcursor : cursor ≤ order.length) (hi : order[i]? = some k) :
    upcoming (order.eraseIdx i) (if i < cursor then cursor - 1 else cursor)
      = (upcoming order cursor).erase k := by
  obtain ⟨xs, ys, rfl, rfl⟩ : ∃ xs ys, order = xs ++ ys ∧ xs.length = cursor :=
    ⟨order.take cursor, order.drop cursor, (List.take_append_drop ..).symm,
      List.length_take_of_le hcursor⟩
  have hdisj := List.disjoint_of_nodup_append hnodup
  rw [upcoming_append_length]
  split
  · next hbefore =>
    rw [List.getElem?_append_left hbefore] at hi
    obtain ⟨-, rfl⟩ := List.getElem?_eq_some_iff.mp hi
    rw [List.eraseIdx_append_of_lt_length hbefore, ← List.length_eraseIdx_of_lt hbefore,
      upcoming_append_length, List.erase_append_right _ fun h => hdisj (List.getElem_mem _) h,
      (List.Nodup.of_append_left hnodup).erase_getElem]
  · next hbehind =>
    rw [List.getElem?_append_right (Nat.le_of_not_lt hbehind)] at hi
    obtain ⟨-, rfl⟩ := List.getElem?_eq_some_iff.mp hi
    rw [List.eraseIdx_append_of_length_le (Nat.le_of_not_lt hbehind), upcoming_append_length,
      List.erase_append_left _ (List.getElem_mem _),
      (List.Nodup.of_append_right hnodup).erase_getElem]

theorem map_upcoming {β : Type*} (f : α → β) (order : List α) (cursor : Nat) :
    (upcoming order cursor).map f = upcoming (order.map f) cursor := by
  simp [upcoming]

theorem map_getElem?_range (l : List α) : (List.range l.length).map (l[·]?) = l.map some := by
  refine List.ext_getElem (by simp) fun j hj _ => ?_
  simp only [List.length_map, List.length_range] at hj
  simp [hj]

/-- The positions behind `r`, wherever `r` is, as they are counted with a remainder. -/
theorem map_mod_range' (n r : Nat) :
    (List.range' 1 n).map (fun k => (k + r) % n) = upcoming (List.range n) (r % n + 1) := by
  rcases Nat.eq_zero_or_pos n with rfl | hn
  · rfl
  have hr : r % n < n := Nat.mod_lt r hn
  refine List.ext_getElem (by simp [upcoming]; omega) fun j hj _ => ?_
  simp only [List.length_map, List.length_range'] at hj
  simp only [List.getElem_map, List.getElem_range', upcoming, List.getElem_append,
    List.getElem_drop, List.getElem_take, List.getElem_range, List.length_drop, List.length_range,
    Nat.one_mul]
  rw [← Nat.add_mod_mod]
  split
  · rw [Nat.mod_eq_of_lt (by omega)]
    omega
  · rw [Nat.mod_eq_sub_mod (by omega), Nat.mod_eq_of_lt (by omega)]
    omega

/-- The order behind an entry. -/
theorem upcoming_behind {pre post : List α} {x : α} {i : Nat} (hnodup : (pre ++ x :: post).Nodup)
    (hi : (pre ++ x :: post)[i]? = some x) :
    upcoming (pre ++ x :: post) (i + 1) = post ++ (pre ++ [x]) := by
  have hlt := (List.getElem?_eq_some_iff.mp hi).1
  have hmid : (pre ++ x :: post)[pre.length]? = some x := by simp
  have hlen : i + 1 = (pre ++ [x]).length := by
    rw [(List.getElem?_inj hlt hnodup).mp (hi.trans hmid.symm), List.length_append,
      List.length_singleton]
  rw [hlen, ← List.singleton_append, ← List.append_assoc]
  exact upcoming_append_length _ _

/-- The order behind an entry, seen from where it was found. -/
theorem upcoming_after {order l₁ l₂ : List α} {cursor i : Nat} {x : α} (hnodup : order.Nodup)
    (hi : order[i]? = some x) (h : upcoming order cursor = l₁ ++ x :: l₂) :
    upcoming order (i + 1) = l₂ ++ l₁ ++ [x] := by
  have hcut : order = order.take cursor ++ order.drop cursor := (List.take_append_drop ..).symm
  have hbehind {pre post : List α} (heq : order = pre ++ x :: post) :
      upcoming order (i + 1) = post ++ (pre ++ [x]) := by
    rw [heq] at hnodup hi ⊢
    exact upcoming_behind hnodup hi
  have hpassed {l : List α} (hl : l₁ = order.drop cursor ++ l)
      (htake : order.take cursor = l ++ x :: l₂) : upcoming order (i + 1) = l₂ ++ l₁ ++ [x] := by
    have heq : order = l ++ x :: (l₂ ++ order.drop cursor) := by
      rw [← List.cons_append, ← List.append_assoc, ← htake]
      exact hcut
    rw [hbehind heq, hl]
    simp
  unfold upcoming at h
  rcases List.append_eq_append_iff.mp h with ⟨l, hl, htake⟩ | ⟨l, hdrop, hl⟩
  · exact hpassed hl htake
  · cases l with
    | nil => exact hpassed (l := []) (by simpa using hdrop.symm) (by simpa using hl.symm)
    | cons y l =>
      obtain ⟨rfl, rfl⟩ := List.cons.inj hl
      have heq : order = (order.take cursor ++ l₁) ++ x :: l := by
        rw [List.append_assoc, ← hdrop]
        exact hcut
      rw [hbehind heq]
      simp

theorem sublist_around {pre post pre' post' : List α} {x : α} (hnodup : (pre ++ x :: post).Nodup)
    (h : List.Sublist (pre' ++ x :: post') (pre ++ x :: post)) :
    pre'.Sublist pre ∧ post'.Sublist post := by
  have hpre : x ∉ pre := fun hx => List.disjoint_of_nodup_append hnodup hx List.mem_cons_self
  have hpost : x ∉ post := (List.nodup_cons.mp hnodup.of_append_right).1
  obtain ⟨l, r, heq, hl, hr⟩ := List.sublist_append_iff.mp h
  have hxl : x ∉ l := fun hx => hpre (hl.subset hx)
  rcases List.append_eq_append_iff.mp heq with ⟨m, rfl, hm⟩ | ⟨m, rfl, hm⟩
  · cases m with
    | nil =>
      rw [List.nil_append] at hm
      rw [← hm] at hr
      exact ⟨by simpa using hl, List.cons_sublist_cons.mp hr⟩
    | cons y m =>
      obtain ⟨rfl, -⟩ := List.cons.inj hm
      exact absurd (by simp) hxl
  · cases m with
    | nil =>
      rw [List.nil_append] at hm
      rw [hm] at hr
      exact ⟨by simpa using hl, List.cons_sublist_cons.mp hr⟩
    | cons y m =>
      -- `x` would come after something that follows `pre`
      rw [hm] at hr
      cases hr with
      | cons _ hr => exact absurd (hr.subset (by simp)) hpost
      | cons_cons _ hr => exact absurd (hr.subset (by simp)) hpost

/-- Without some entries, behind one that stays. -/
theorem upcoming_sublist {order order' : List α} {i r : Nat} {x : α} (hnodup : order.Nodup)
    (hsub : order'.Sublist order) (hi : order[i]? = some x) (hr : order'[r]? = some x) :
    (upcoming order' (r + 1)).Sublist (upcoming order (i + 1)) := by
  have hnodup' := hsub.nodup hnodup
  obtain ⟨pre, post, rfl⟩ := List.append_of_mem (List.mem_of_getElem? hi)
  obtain ⟨pre', post', rfl⟩ := List.append_of_mem (List.mem_of_getElem? hr)
  obtain ⟨hpre, hpost⟩ := sublist_around hnodup hsub
  rw [upcoming_behind hnodup hi, upcoming_behind hnodup' hr]
  exact hpost.append (hpre.append (List.Sublist.refl [x]))

/-! ## Who comes first -/

section Turns

variable [DecidableEq α] {k k' : α} {l l' : List α} {served : Option α}

/-- After `n` turns of `k'` since the last one of `k`: the next turn of `k'` comes
before that of `k`, or it has had its turn and comes after it. -/
def Phase (k k' : α) (l : List α) (n : Nat) : Prop :=
  (n = 0 ∧ List.Sublist [k', k] l) ∨ (n = 1 ∧ List.Sublist [k, k'] l)

omit [DecidableEq α] in
theorem Phase.mono {n : Nat} (h : Phase k k' l n)
    (hbefore : List.Sublist [k', k] l → List.Sublist [k', k] l')
    (hbehind : List.Sublist [k, k'] l → List.Sublist [k, k'] l') : Phase k k' l' n :=
  h.imp (fun h => ⟨h.1, hbefore h.2⟩) fun h => ⟨h.1, hbehind h.2⟩

omit [DecidableEq α] in
theorem sublist_of_cons_of_ne {a b h : α} (hsub : List.Sublist [a, b] (h :: l)) (hne : a ≠ h) :
    List.Sublist [a, b] l := by
  cases hsub with
  | cons _ hsub => exact hsub
  | cons_cons _ hsub => exact absurd rfl hne

theorem phase_of_served (hne : k' ≠ k) (hk' : k' ∈ l') (hturn : Turn l (some k) l')
    (hk : k ∈ l') (hnodup : l.Nodup) : Phase k k' l' 0 := by
  cases hturn with
  | serve _ rest =>
    refine .inl ⟨rfl, ?_⟩
    have hrest : k' ∈ rest := by simpa [hne] using hk'
    exact (List.singleton_sublist.mpr hrest).append (List.Sublist.refl [k])
  | drop _ rest => exact absurd hk (List.nodup_cons.mp hnodup).1

/-- A turn of neither `k` nor the loss of one of the two keeps the phase. -/
theorem phase_step {n : Nat} (hne : k' ≠ k) (hphase : Phase k k' l n) (hturn : Turn l served l')
    (hnodup : l.Nodup) (hk : k ∈ l') (hk' : k' ∈ l') (hserved : served ≠ some k) :
    Phase k k' l' (n + if served = some k' then 1 else 0) := by
  cases hturn with
  | stay => simpa using hphase
  | enter x l₁ l₂ =>
    have hgrow : List.Sublist (l₁ ++ l₂) (l₁ ++ x :: l₂) :=
      (List.Sublist.refl l₁).append (List.sublist_cons_self x l₂)
    exact hphase.mono (fun h => h.trans hgrow) fun h => h.trans hgrow
  | leave x =>
    have hx : x ≠ k := by
      rintro rfl
      exact hnodup.not_mem_erase hk
    have hx' : x ≠ k' := by
      rintro rfl
      exact hnodup.not_mem_erase hk'
    -- the order of the other two is not disturbed
    have hkeep {a b : α} (ha : x ≠ a) (hb : x ≠ b) (h : List.Sublist [a, b] l) :
        List.Sublist [a, b] (l.erase x) := by
      have := h.erase x
      rwa [List.erase_of_not_mem (by simp [ha, hb])] at this
    exact hphase.mono (hkeep hx' hx) (hkeep hx hx')
  | drop x rest =>
    have hx : x ≠ k := fun h => hserved (congrArg some h)
    have hx' : x ≠ k' := by
      rintro rfl
      exact (List.nodup_cons.mp hnodup).1 hk'
    -- not a turn of `k'`, and the list loses its head
    rw [if_neg fun h => hx' (Option.some.inj h)]
    exact hphase.mono (fun h => sublist_of_cons_of_ne h hx'.symm)
      fun h => sublist_of_cons_of_ne h hx.symm
  | serve x rest =>
    have hx : x ≠ k := fun h => hserved (congrArg some h)
    have hgrow : List.Sublist rest (rest ++ [x]) := List.sublist_append_left rest [x]
    rcases eq_or_ne x k' with rfl | hx'
    · -- the turn of `k'`: it was before `k`, and is now behind it
      rw [if_pos rfl]
      rcases hphase with ⟨rfl, -⟩ | ⟨-, hsub⟩
      · refine .inr ⟨rfl, ?_⟩
        have hrest : k ∈ rest := by simpa [hx.symm] using hk
        exact (List.singleton_sublist.mpr hrest).append (List.Sublist.refl [x])
      · have hmem : x ∈ rest := (sublist_of_cons_of_ne hsub hx.symm).subset (by simp)
        exact absurd hmem (List.nodup_cons.mp hnodup).1
    · rw [if_neg fun h => hx' (Option.some.inj h)]
      exact hphase.mono (fun h => (sublist_of_cons_of_ne h hx'.symm).trans hgrow)
        fun h => (sublist_of_cons_of_ne h hx.symm).trans hgrow

/-- When the turn of `k` has come, `k'` has had its own. -/
theorem phase_next {n : Nat} (hne : k' ≠ k) (hphase : Phase k k' l n) (hturn : Turn l (some k) l')
    (hnodup : l.Nodup) : n = 1 := by
  obtain ⟨rest, rfl⟩ : ∃ rest, l = k :: rest := by
    cases hturn with
    | serve _ rest => exact ⟨rest, rfl⟩
    | drop _ rest => exact ⟨l', rfl⟩
  rcases hphase with ⟨-, hsub⟩ | ⟨rfl, -⟩
  · have hmem : k ∈ rest := (sublist_of_cons_of_ne hsub hne).subset (by simp)
    exact absurd hmem (List.nodup_cons.mp hnodup).1
  · rfl

end Turns

/-! ## Machines that take turns -/

section Machine

open Runs

variable [DecidableEq α] {σ ε : Type*} (step : σ → ε → Option σ) (served : σ → ε → Option α)

/-- How often `k` is served in the run `es`. -/
def turns (k : α) : σ → List ε → Nat
  | _, [] => 0
  | s, e :: es => (if served s e = some k then 1 else 0) + (step s e).elim 0 fun t => turns k t es

variable {step served}

/-- Take a machine with an invariant `I` whose steps are turns of the list `up`.
Between two consecutive turns of `k`, each `k'` that was there throughout, as `k`
was, has had one. -/
theorem served_once (up : σ → List α) {I : σ → Prop}
    (hI : ∀ s e t, I s → step s e = some t → I t) (hnodup : ∀ s, I s → (up s).Nodup)
    (hturn : ∀ s e t, I s → step s e = some t → Turn (up s) (served s e) (up t))
    {k k' : α} (hne : k' ≠ k) {s₀ s t u : σ} {e₀ e : ε} {es : List ε} (h₀ : I s₀)
    (hfirst : step s₀ e₀ = some s) (hserved₀ : served s₀ e₀ = some k)
    (hrun : run step s es = some t)
    (hthere : Always step (fun s => k ∈ up s ∧ k' ∈ up s) s es)
    (hbetween : Guarded step (fun s e => served s e ≠ some k) s es)
    (hlast : step t e = some u) (hserved : served t e = some k) :
    turns step served k' s es = 1 := by
  have hs : I s := hI s₀ e₀ s h₀ hfirst
  have hphase : Phase k k' (up s) 0 :=
    phase_of_served hne hthere.head.2 (hserved₀ ▸ hturn s₀ e₀ s h₀ hfirst) hthere.head.1
      (hnodup s₀ h₀)
  suffices h : ∀ n, Phase k k' (up s) n → n + turns step served k' s es = 1 by
    simpa using h 0 hphase
  clear hphase hfirst
  induction es generalizing s with
  | nil =>
    intro n hphase
    cases hrun
    exact phase_next hne hphase (hserved ▸ hturn _ e u hs hlast) (hnodup _ hs)
  | cons e₁ es ih =>
    intro n hphase
    obtain ⟨s₁, hs₁, hrun⟩ := Option.bind_eq_some_iff.mp hrun
    have hthere₁ := hthere.2 s₁ hs₁
    have hbetween₁ := hbetween s₁ hs₁
    have hphase₁ := phase_step hne hphase (hturn s e₁ s₁ hs hs₁) (hnodup s hs) hthere₁.head.1
      hthere₁.head.2 hbetween₁.1
    have hrest := ih hrun hthere₁ hbetween₁.2 (hI s e₁ s₁ hs hs₁) _ hphase₁
    simpa [turns, hs₁, Nat.add_assoc] using hrest

end Machine

/-! ## Waiting while others are passed over -/

/-- One step as `k` sees it, which waits: whoever is behind it stays behind or leaves, and
whoever is served was not behind it, and is afterwards. -/
structure Waits (k : α) (l : List α) (served : Option α) (l' : List α) : Prop where
  behind : ∀ x ∈ l', List.Sublist [k, x] l → List.Sublist [k, x] l'
  turn : ∀ x, served = some x → x ∈ l ∧ ¬List.Sublist [k, x] l ∧ List.Sublist [k, x] l'

section Waiting

variable {k x : α} {l l' l₁ l₂ : List α}

theorem waits_refl (k : α) (l : List α) : Waits k l none l where
  behind := fun _ _ h => h
  turn := nofun

theorem waits_enter (k x : α) (l₁ l₂ : List α) : Waits k (l₁ ++ l₂) none (l₁ ++ x :: l₂) where
  behind := fun _ _ h => h.trans ((List.Sublist.refl l₁).append (List.sublist_cons_self x l₂))
  turn := nofun

/-- Two entries of a list come in one of the two orders. -/
theorem sublist_pair_or {a b : α} (ha : a ∈ l) (hb : b ∈ l) (hne : a ≠ b) :
    List.Sublist [a, b] l ∨ List.Sublist [b, a] l := by
  obtain ⟨pre, post, rfl⟩ := List.append_of_mem ha
  rcases List.mem_append.mp hb with hb | hb
  · exact .inr ((List.singleton_sublist.mpr hb).append
      (List.singleton_sublist.mpr List.mem_cons_self))
  · have hpost : b ∈ post := (List.mem_cons.mp hb).resolve_left hne.symm
    exact .inl (((List.singleton_sublist.mpr hpost).cons_cons a).trans
      (List.sublist_append_right pre _))

theorem not_sublist_pair_swap {a b : α} (hnodup : l.Nodup) (hab : List.Sublist [a, b] l) :
    ¬List.Sublist [b, a] l := by
  intro hba
  obtain ⟨pre, post, rfl⟩ := List.append_of_mem (hab.subset (by simp : a ∈ [a, b]))
  have hdisj := List.disjoint_of_nodup_append hnodup
  have hcons := List.nodup_cons.mp hnodup.of_append_right
  -- what comes before `a` in the one order and behind it in the other
  have hpre : b ∈ pre := by
    obtain ⟨l₁, l₂, heq, h₁, h₂⟩ := List.sublist_append_iff.mp hba
    cases l₁ with
    | nil =>
      rw [List.nil_append] at heq
      subst heq
      cases h₂ with
      | cons _ h => exact absurd (h.subset (by simp)) hcons.1
      | cons_cons _ h => exact absurd (h.subset (by simp)) hcons.1
    | cons c l₁ =>
      obtain ⟨rfl, -⟩ := List.cons.inj heq
      exact h₁.subset List.mem_cons_self
  have hpost : b ∈ post := by
    obtain ⟨l₁, l₂, heq, h₁, h₂⟩ := List.sublist_append_iff.mp hab
    cases l₁ with
    | nil =>
      rw [List.nil_append] at heq
      subst heq
      exact (List.sublist_cons_iff.mp h₂).elim (fun h => absurd (h.subset (by simp)) hcons.1)
        fun ⟨_, heq, h⟩ => by cases heq; exact h.subset (by simp)
    | cons c l₁ =>
      obtain ⟨rfl, -⟩ := List.cons.inj heq
      exact absurd List.mem_cons_self (hdisj (h₁.subset List.mem_cons_self))
  exact hdisj hpre (List.mem_cons_of_mem _ hpost)

/-- The order of two entries that stay when a list loses others. -/
theorem sublist_pair_of_sublist {a b : α} (hnodup : l.Nodup) (hsub : l'.Sublist l) (ha : a ∈ l')
    (hb : b ∈ l') (hab : List.Sublist [a, b] l) : List.Sublist [a, b] l' := by
  have hne : a ≠ b := by
    rintro rfl
    exact absurd (hab.nodup hnodup) (by simp)
  exact (sublist_pair_or ha hb hne).resolve_right fun hba =>
    not_sublist_pair_swap hnodup hab (hba.trans hsub)

/-- The turn of `x`, with `k` not among those that are passed over for it and go behind
everyone else; some may leave. -/
theorem waits_pass (hnodup : (l₁ ++ x :: l₂).Nodup) (hk : k ∉ l₁) (hne : x ≠ k)
    (hsub : l'.Sublist (l₂ ++ l₁ ++ [x])) (hkl : k ∈ l') (hxl : x ∈ l') :
    Waits k (l₁ ++ x :: l₂) (some x) l' := by
  have hperm : (l₂ ++ l₁ ++ [x]).Perm (l₁ ++ x :: l₂) :=
    (List.perm_append_comm.append_right [x]).trans (by
      rw [List.append_assoc]
      exact (List.perm_append_singleton x l₂).append_left l₁)
  have hnodup' : (l₂ ++ l₁ ++ [x]).Nodup := hperm.nodup_iff.mpr hnodup
  have hk₂ : k ∈ l₂ := by simpa [hk, hne.symm] using hsub.subset hkl
  have hbehind {y : α} (h : List.Sublist [k, y] (l₁ ++ x :: l₂)) : List.Sublist [k, y] l₂ := by
    obtain ⟨m₁, m₂, heq, h₁, h₂⟩ := List.sublist_append_iff.mp h
    cases m₁ with
    | nil =>
      rw [List.nil_append] at heq
      subst heq
      exact sublist_of_cons_of_ne h₂ hne.symm
    | cons c m₁ =>
      obtain ⟨rfl, -⟩ := List.cons.inj heq
      exact absurd (h₁.subset List.mem_cons_self) hk
  have hlast : List.Sublist [k, x] (l₂ ++ l₁ ++ [x]) :=
    (List.singleton_sublist.mpr (List.mem_append_left l₁ hk₂)).append (List.Sublist.refl [x])
  refine ⟨fun y hy h => ?_, fun y hy => ?_⟩
  · refine sublist_pair_of_sublist hnodup' hsub hkl hy ((hbehind h).trans ?_)
    rw [List.append_assoc]
    exact List.sublist_append_left l₂ _
  · obtain rfl : x = y := Option.some.inj hy
    refine ⟨by simp, fun h => ?_, sublist_pair_of_sublist hnodup' hsub hkl hxl hlast⟩
    have hx₂ : x ∈ l₂ := (hbehind h).subset (by simp)
    exact (List.nodup_cons.mp hnodup.of_append_right).1 hx₂

end Waiting

section WaitingMachine

open Runs

variable [DecidableEq α] {σ ε : Type*} {step : σ → ε → Option σ} {served : σ → ε → Option α}
  {G : σ → ε → Prop} {k k' : α} (up : σ → List α) (I J born : σ → Prop)

/-- Once it is behind `k`, or gone, `k'` has no turn while `k` waits. -/
theorem turns_eq_zero (hI : ∀ s e t, I s → step s e = some t → I t)
    (hJ : ∀ s e t, I s → J s → G s e → step s e = some t → J t)
    (hborn : ∀ s e t, I s → step s e = some t → born s → born t ∧ (k' ∈ up t → k' ∈ up s))
    (hwaits : ∀ s e t, I s → J s → G s e → step s e = some t →
      Waits k (up s) (served s e) (up t))
    {s t : σ} {es : List ε} (hs : I s) (hj : J s) (hrun : run step s es = some t)
    (hG : Guarded step G s es) (hold : born s)
    (hbehind : k' ∈ up s → List.Sublist [k, k'] (up s)) : turns step served k' s es = 0 := by
  induction es generalizing s with
  | nil => rfl
  | cons e es ih =>
    obtain ⟨u, hu, hrun⟩ := Option.bind_eq_some_iff.mp hrun
    obtain ⟨hready, hG⟩ := hG u hu
    have hstep := hwaits s e u hs hj hready hu
    obtain ⟨hold', hback⟩ := hborn s e u hs hu hold
    have hnot : served s e ≠ some k' := fun h =>
      (hstep.turn k' h).2.1 (hbehind (hstep.turn k' h).1)
    have hrest := ih (hI s e u hs hu) (hJ s e u hs hj hready hu) hrun hG hold' fun hmem =>
      hstep.behind k' hmem (hbehind (hback hmem))
    rw [turns, if_neg hnot, hu]
    simpa using hrest

/-- While `k` waits, and entries that have left do not come back, `k'` has at most one turn.
Whoever is behind `k` has to stay there only in states with `J`, which holds from the first
turn on. -/
theorem served_le_one (hI : ∀ s e t, I s → step s e = some t → I t)
    (hJ : ∀ s e t, I s → J s → G s e → step s e = some t → J t)
    (hborn : ∀ s e t, I s → step s e = some t → born s → born t ∧ (k' ∈ up t → k' ∈ up s))
    (hup : ∀ s, I s → k' ∈ up s → born s)
    (hwaits : ∀ s e t, I s → J s → G s e → step s e = some t →
      Waits k (up s) (served s e) (up t))
    (hturn : ∀ s e t, I s → G s e → step s e = some t → served s e = some k' →
      J t ∧ k' ∈ up s ∧ List.Sublist [k, k'] (up t))
    {s t : σ} {es : List ε} (hs : I s) (hrun : run step s es = some t)
    (hG : Guarded step G s es) : turns step served k' s es ≤ 1 := by
  induction es generalizing s with
  | nil => exact Nat.zero_le 1
  | cons e es ih =>
    obtain ⟨u, hu, hrun⟩ := Option.bind_eq_some_iff.mp hrun
    obtain ⟨hready, hG⟩ := hG u hu
    rw [turns, hu]
    rcases eq_or_ne (served s e) (some k') with hserved | hserved
    · -- the one turn: afterwards `k'` is behind `k`
      obtain ⟨hj, hmem, hbehind⟩ := hturn s e u hs hready hu hserved
      have hold := (hborn s e u hs hu (hup s hs hmem)).1
      have hrest := turns_eq_zero up I J born hI hJ hborn hwaits (hI s e u hs hu) hj hrun hG hold
        fun _ => hbehind
      simp [hserved, hrest]
    · simpa [hserved] using ih (hI s e u hs hu) hrun hG

end WaitingMachine

end RoundRobin
