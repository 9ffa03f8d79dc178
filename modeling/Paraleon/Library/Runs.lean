import Mathlib.Data.List.Basic

/-!
# Runs of an event-driven machine

A machine is a partial step `σ → ε → Option σ`: `none` means that the event is
not possible in the state. A run is a list of events. This module gives the
rules by which properties of whole runs follow from one step:

* `Reachable.invariant`: an inductive invariant holds in every reachable state.
* `always_of_guarded`: a property kept by every step that meets a guard holds
  in every state of a run all of whose steps meet it.
* `always_iff_guarded`: when the guard is exactly what keeps the property, a
  run keeps the property if and only if all its steps meet the guard.
* `run_isSome_iff_meets`: when the guard is exactly what makes an event possible, a
  run goes to its end if and only if all its events meet the guard.
* `run_related`: a machine that answers each step of another one answers its runs.
* `length_add_le_of_run`: a run is not longer than what every step of it counts up.
-/

namespace Runs

variable {σ ε : Type*} (step : σ → ε → Option σ)

/-- The state after the events `es`, when all of them are possible. -/
def run : σ → List ε → Option σ
  | s, [] => some s
  | s, e :: es => (step s e).bind fun t => run t es

/-- Some list of events leads from `s₀` to `s`. -/
def Reachable (s₀ s : σ) : Prop := ∃ es, run step s₀ es = some s

/-- `P` holds in every state that the run `es` from `s` passes through. -/
def Always (P : σ → Prop) : σ → List ε → Prop
  | s, [] => P s
  | s, e :: es => P s ∧ ∀ t, step s e = some t → Always P t es

/-- Every step that the run `es` takes meets the guard `G` in the state before it. -/
def Guarded (G : σ → ε → Prop) : σ → List ε → Prop
  | _, [] => True
  | s, e :: es => ∀ t, step s e = some t → G s e ∧ Guarded G t es

/-- Every event of the run `es` meets the guard `G` in the state before it, also one that
is not possible there. -/
def Meets (G : σ → ε → Prop) : σ → List ε → Prop
  | _, [] => True
  | s, e :: es => G s e ∧ ∀ t, step s e = some t → Meets G t es

variable {step}

@[simp] theorem run_nil (s : σ) : run step s [] = some s := rfl

theorem run_append (s : σ) (es fs : List ε) :
    run step s (es ++ fs) = (run step s es).bind fun t => run step t fs := by
  induction es generalizing s with
  | nil => rfl
  | cons e es ih =>
    cases h : step s e with
    | none => simp [run, h]
    | some t => simpa [run, h] using ih t

theorem run_snoc {s t : σ} {es : List ε} (h : run step s es = some t) (e : ε) :
    run step s (es ++ [e]) = step t e := by
  rw [run_append, h]
  cases he : step t e <;> simp [run, he]

theorem Reachable.refl (s : σ) : Reachable step s s := ⟨[], rfl⟩

theorem Reachable.snoc {s₀ s t : σ} {e : ε} (h : Reachable step s₀ s) (he : step s e = some t) :
    Reachable step s₀ t := by
  obtain ⟨es, hes⟩ := h
  exact ⟨es ++ [e], (run_snoc hes e).trans he⟩

theorem Reachable.trans {s₀ s t : σ} (h : Reachable step s₀ s) (h' : Reachable step s t) :
    Reachable step s₀ t := by
  obtain ⟨es, hes⟩ := h
  obtain ⟨fs, hfs⟩ := h'
  exact ⟨es ++ fs, by rw [run_append, hes]; exact hfs⟩

/-! ## Runs on concrete inputs can be evaluated -/

instance decidableAlways {P : σ → Prop} [DecidablePred P] :
    ∀ s es, Decidable (Always step P s es)
  | s, [] => inferInstanceAs (Decidable (P s))
  | s, e :: es =>
    match h : step s e with
    | none => decidable_of_iff (P s) (by simp [Always, h])
    | some t =>
      have : Decidable (Always step P t es) := decidableAlways t es
      decidable_of_iff (P s ∧ Always step P t es) (by simp [Always, h])

instance decidableGuarded {G : σ → ε → Prop} [∀ s e, Decidable (G s e)] :
    ∀ s es, Decidable (Guarded step G s es)
  | _, [] => .isTrue trivial
  | s, e :: es =>
    match h : step s e with
    | none => .isTrue fun t ht => by simp [h] at ht
    | some t =>
      have : Decidable (Guarded step G t es) := decidableGuarded t es
      decidable_of_iff (G s e ∧ Guarded step G t es) (by simp [Guarded, h])

instance decidableMeets {G : σ → ε → Prop} [∀ s e, Decidable (G s e)] :
    ∀ s es, Decidable (Meets step G s es)
  | _, [] => .isTrue trivial
  | s, e :: es =>
    match h : step s e with
    | none => decidable_of_iff (G s e) (by simp [Meets, h])
    | some t =>
      have : Decidable (Meets step G t es) := decidableMeets t es
      decidable_of_iff (G s e ∧ Meets step G t es) (by simp [Meets, h])

/-! ## From one step to whole runs -/

/-- The states of a run from a state with the invariant have it. -/
theorem run_invariant {I : σ → Prop} (hstep : ∀ s e t, I s → step s e = some t → I t)
    {s t : σ} {es : List ε} (hs : I s) (hrun : run step s es = some t) : I t := by
  induction es generalizing s with
  | nil => cases hrun; exact hs
  | cons e es ih =>
    obtain ⟨u, hu, hrun⟩ := Option.bind_eq_some_iff.mp hrun
    exact ih (hstep s e u hs hu) hrun

/-- An inductive invariant holds in every reachable state. -/
theorem Reachable.invariant {I : σ → Prop} {s₀ s : σ} (h : Reachable step s₀ s) (h₀ : I s₀)
    (hstep : ∀ s e t, I s → step s e = some t → I t) : I s := by
  obtain ⟨es, hes⟩ := h
  exact run_invariant hstep h₀ hes

/-- When each step counts up, beside an invariant, a run has at most as many events as it
counts. -/
theorem length_add_le_of_run {I : σ → Prop} {count : σ → Nat}
    (hstep : ∀ s e t, I s → step s e = some t → I t)
    (hcount : ∀ s e t, I s → step s e = some t → count s < count t)
    {s t : σ} {es : List ε} (hs : I s) (hrun : run step s es = some t) :
    es.length + count s ≤ count t := by
  induction es generalizing s with
  | nil =>
    cases hrun
    exact Nat.le_of_eq (Nat.zero_add _)
  | cons e es ih =>
    obtain ⟨u, hu, hrun⟩ := Option.bind_eq_some_iff.mp hrun
    have hrest := ih (hstep s e u hs hu) hrun
    have hlt := hcount s e u hs hu
    rw [List.length_cons]
    omega

theorem Always.head {P : σ → Prop} {s : σ} {es : List ε} (h : Always step P s es) : P s := by
  cases es with
  | nil => exact h
  | cons _ _ => exact h.1

theorem Always.mono {P Q : σ → Prop} (hPQ : ∀ s, P s → Q s) {s : σ} {es : List ε}
    (h : Always step P s es) : Always step Q s es := by
  induction es generalizing s with
  | nil => exact hPQ s h
  | cons e es ih => exact ⟨hPQ s h.1, fun t ht => ih (h.2 t ht)⟩

theorem Always.and {P Q : σ → Prop} {s : σ} {es : List ε} (hP : Always step P s es)
    (hQ : Always step Q s es) : Always step (fun s => P s ∧ Q s) s es := by
  induction es generalizing s with
  | nil => exact ⟨hP, hQ⟩
  | cons e es ih => exact ⟨⟨hP.1, hQ.1⟩, fun t ht => ih (hP.2 t ht) (hQ.2 t ht)⟩

/-- The case of a guard that the events meet in every state -/
theorem meets_of_forall {G : σ → ε → Prop} {es : List ε} (hG : ∀ s, ∀ e ∈ es, G s e) (s : σ) :
    Meets step G s es := by
  induction es generalizing s with
  | nil => trivial
  | cons e es ih =>
    exact ⟨hG s e List.mem_cons_self,
      fun t _ => ih (fun s d hd => hG s d (List.mem_cons_of_mem e hd)) t⟩

/-- A machine that answers each step of another one in a related state answers its runs. -/
theorem run_related {τ : Type*} {step' : τ → ε → Option τ} {R : σ → τ → Prop} {G : σ → ε → Prop}
    (hstep : ∀ s t e t', R s t → G s e → step' t e = some t' → ∃ s', step s e = some s' ∧ R s' t')
    {s : σ} {t t' : τ} {es : List ε} (hR : R s t) (hG : Meets step G s es)
    (hrun : run step' t es = some t') : ∃ s', run step s es = some s' ∧ R s' t' := by
  induction es generalizing s t with
  | nil => exact ⟨s, rfl, Option.some.inj hrun ▸ hR⟩
  | cons e es ih =>
    obtain ⟨u, hu, hrun⟩ := Option.bind_eq_some_iff.mp hrun
    obtain ⟨v, hv, hR⟩ := hstep s t e u hR hG.1 hu
    obtain ⟨s', hs', hR⟩ := ih hR (hG.2 v hv) hrun
    exact ⟨s', Option.bind_eq_some_iff.mpr ⟨v, hv, hs'⟩, hR⟩

/-- What holds throughout a run holds in the state after each of its prefixes. -/
theorem Always.of_run {P : σ → Prop} {s t : σ} {es fs : List ε} (h : Always step P s (es ++ fs))
    (hrun : run step s es = some t) : Always step P t fs := by
  induction es generalizing s with
  | nil => cases hrun; exact h
  | cons e es ih =>
    obtain ⟨u, hu, hrun⟩ := Option.bind_eq_some_iff.mp hrun
    exact ih (h.2 u hu) hrun

theorem Always.last {P : σ → Prop} {s t : σ} {es : List ε} (h : Always step P s es)
    (hrun : run step s es = some t) : P t := by
  have h' : Always step P s (es ++ []) := by rwa [List.append_nil]
  exact (h'.of_run hrun).head

theorem Guarded.and {G H : σ → ε → Prop} {s : σ} {es : List ε} (hG : Guarded step G s es)
    (hH : Guarded step H s es) : Guarded step (fun s e => G s e ∧ H s e) s es := by
  induction es generalizing s with
  | nil => trivial
  | cons e es ih => exact fun t ht => ⟨⟨(hG t ht).1, (hH t ht).1⟩, ih (hG t ht).2 (hH t ht).2⟩

theorem Guarded.of_run {G : σ → ε → Prop} {s t : σ} {es fs : List ε}
    (h : Guarded step G s (es ++ fs)) (hrun : run step s es = some t) : Guarded step G t fs := by
  induction es generalizing s with
  | nil => cases hrun; exact h
  | cons e es ih =>
    obtain ⟨u, hu, hrun⟩ := Option.bind_eq_some_iff.mp hrun
    exact ih (h u hu).2 hrun

theorem Guarded.mono {G H : σ → ε → Prop} (hGH : ∀ s e, G s e → H s e) {s : σ} {es : List ε}
    (h : Guarded step G s es) : Guarded step H s es := by
  induction es generalizing s with
  | nil => trivial
  | cons e es ih => exact fun t ht => ⟨hGH s e (h t ht).1, ih (h t ht).2⟩

/-- A property kept by every step holds throughout every run. -/
theorem always_of_invariant {I : σ → Prop} (hstep : ∀ s e t, I s → step s e = some t → I t)
    {s : σ} (hs : I s) (es : List ε) : Always step I s es := by
  induction es generalizing s with
  | nil => exact hs
  | cons e es ih => exact ⟨hs, fun t ht => ih (hstep s e t hs ht)⟩

/-- A property kept by every step that meets the guard holds throughout every
run all of whose steps meet it. -/
theorem always_of_guarded {I : σ → Prop} {G : σ → ε → Prop}
    (hstep : ∀ s e t, I s → G s e → step s e = some t → I t)
    {s : σ} (hs : I s) {es : List ε} (hG : Guarded step G s es) : Always step I s es := by
  induction es generalizing s with
  | nil => exact hs
  | cons e es ih => exact ⟨hs, fun t ht => ih (hstep s e t hs (hG t ht).1 ht) (hG t ht).2⟩

/-- When a property can hold on both sides of a step only if the step meets the
guard, a run that has it throughout meets the guard throughout. -/
theorem guarded_of_always {P : σ → Prop} {G : σ → ε → Prop}
    (hG : ∀ s e t, P s → P t → step s e = some t → G s e)
    {s : σ} {es : List ε} (h : Always step P s es) : Guarded step G s es := by
  induction es generalizing s with
  | nil => trivial
  | cons e es ih => exact fun t ht => ⟨hG s e t h.1 (h.2 t ht).head ht, ih (h.2 t ht)⟩

/-- Beside a background invariant `J`, let a step keep `P` exactly when it meets
the guard. Then a run keeps `P` exactly when all its steps meet the guard. -/
theorem always_iff_guarded {J P : σ → Prop} {G : σ → ε → Prop}
    (hJ : ∀ s e t, J s → step s e = some t → J t)
    (hP : ∀ s e t, J s → P s → step s e = some t → (P t ↔ G s e))
    {s : σ} (hs : J s) (hPs : P s) (es : List ε) : Always step P s es ↔ Guarded step G s es := by
  constructor
  · intro h
    have hJP : Always step (fun s => P s ∧ J s) s es := h.and (always_of_invariant hJ hs es)
    exact guarded_of_always (fun s e t hs ht he => (hP s e t hs.2 hs.1 he).mp ht.1) hJP
  · intro h
    have hJP : Always step (fun s => J s ∧ P s) s es :=
      always_of_guarded (fun s e t hs hg ht => ⟨hJ s e t hs.1 ht, (hP s e t hs.1 hs.2 ht).mpr hg⟩)
        ⟨hs, hPs⟩ h
    exact hJP.mono fun _ h => h.2

/-- Beside a background invariant `J`, let an event be possible exactly when it meets the
guard. Then a run goes to its end exactly when all its events meet the guard. -/
theorem run_isSome_iff_meets {J : σ → Prop} {G : σ → ε → Prop}
    (hJ : ∀ s e t, J s → step s e = some t → J t)
    (hG : ∀ s e, J s → ((step s e).isSome = true ↔ G s e))
    {s : σ} (hs : J s) (es : List ε) : (run step s es).isSome = true ↔ Meets step G s es := by
  induction es generalizing s with
  | nil => exact iff_of_true rfl trivial
  | cons e es ih =>
    rw [Meets, ← hG s e hs, run]
    cases he : step s e with
    | none => simp
    | some t => simpa using ih (hJ s e t hs he)

/-- The case in which it does not depend on the state whether an event is possible. -/
theorem run_isSome_iff_forall {D : ε → Prop} {es : List ε}
    (hD : ∀ s, ∀ e ∈ es, ((step s e).isSome = true ↔ D e)) (s : σ) :
    (run step s es).isSome = true ↔ ∀ e ∈ es, D e := by
  induction es generalizing s with
  | nil => simp
  | cons e es ih =>
    have ih := ih fun s e he => hD s e (List.mem_cons_of_mem _ he)
    rw [List.forall_mem_cons, ← hD s e List.mem_cons_self, run]
    cases he : step s e with
    | none => simp
    | some t => simpa using ih t

end Runs
