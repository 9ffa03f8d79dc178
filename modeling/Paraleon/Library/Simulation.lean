import Mathlib.Init

/-!
# Programs that follow others

A program with a state and failure follows another one, if each of its runs that returns is a run
of the other one on a part of the state. The rules are those of the program's structure.
-/

namespace Simulation

universe u v

variable {σ α γ : Type u} {τ β δ : Type v} {π : σ → τ}

/-- Each run of `x` is one of `y`, of which only `π` of the state is known. -/
def Follows (π : σ → τ) (R : α → β → Prop) (x : StateT σ Option α) (y : StateT τ Option β) : Prop :=
  ∀ s a s', x s = some (a, s') → ∃ b, y (π s) = some (b, π s') ∧ R a b

/-- A program does not change `π` of the state, and gives what has `P`. -/
def Keeps (π : σ → τ) (P : α → Prop) (x : StateT σ Option α) : Prop :=
  ∀ s a s', x s = some (a, s') → π s' = π s ∧ P a

theorem bind_eq_some {x : StateT σ Option α} {f : α → StateT σ Option γ} {s : σ} {r : γ × σ} :
    (x >>= f) s = some r ↔ ∃ a s', x s = some (a, s') ∧ f a s' = some r := by
  change (x s).bind (fun p => f p.1 p.2) = some r ↔ _
  simp [Option.bind_eq_some_iff]

theorem pure_eq_some {a : α} {s : σ} {r : α × σ} :
    (pure a : StateT σ Option α) s = some r ↔ (a, s) = r :=
  Option.some_inj

theorem lift_eq_some {o : Option α} {s : σ} {r : α × σ} :
    (StateT.lift o : StateT σ Option α) s = some r ↔ ∃ a, o = some a ∧ (a, s) = r := by
  cases o with
  | none => exact ⟨nofun, nofun⟩
  | some a =>
    refine pure_eq_some.trans ⟨fun h => ⟨a, rfl, h⟩, ?_⟩
    rintro ⟨b, hb, h⟩
    rwa [Option.some.inj hb]

section Follows

variable {R : α → β → Prop} {S : γ → δ → Prop}
variable {x : StateT σ Option α} {y : StateT τ Option β}

theorem Follows.pure {a : α} {b : β} (h : R a b) :
    Follows π R (Pure.pure a) (Pure.pure b) := by
  intro s a' s' hrun
  obtain ⟨rfl, rfl⟩ := Prod.mk.inj (pure_eq_some.mp hrun)
  exact ⟨b, rfl, h⟩

theorem Follows.bind {f : α → StateT σ Option γ} {g : β → StateT τ Option δ}
    (hx : Follows π R x y) (hf : ∀ a b, R a b → Follows π S (f a) (g b)) :
    Follows π S (x >>= f) (y >>= g) := by
  intro s c s' hrun
  obtain ⟨a, t, hxs, hft⟩ := bind_eq_some.mp hrun
  obtain ⟨b, hyb, hR⟩ := hx s a t hxs
  obtain ⟨d, hgd, hS⟩ := hf a b hR t c s' hft
  exact ⟨d, bind_eq_some.mpr ⟨b, π t, hyb, hgd⟩, hS⟩

/-- What does not change the part that is followed may come first. -/
theorem Follows.keeps_bind {P : γ → Prop} {w : StateT σ Option γ} {f : γ → StateT σ Option α}
    (hw : Keeps π P w) (hf : ∀ c, P c → Follows π R (f c) y) : Follows π R (w >>= f) y := by
  intro s a s' hrun
  obtain ⟨c, t, hws, hft⟩ := bind_eq_some.mp hrun
  obtain ⟨hπ, hc⟩ := hw s c t hws
  obtain ⟨b, hyb, hR⟩ := hf c hc t a s' hft
  exact ⟨b, hπ ▸ hyb, hR⟩

theorem Keeps.lift (o : Option α) :
    Keeps π (fun a => o = some a) (StateT.lift o : StateT σ Option α) := by
  intro s a s' hrun
  obtain ⟨_, ho, heq⟩ := lift_eq_some.mp hrun
  obtain ⟨rfl, rfl⟩ := Prod.mk.inj heq
  exact ⟨rfl, ho⟩

/-- What the other program has to be given first. -/
theorem Follows.lift_bind {o : Option β} {b : β} {g : β → StateT τ Option δ}
    {x : StateT σ Option γ} {S : γ → δ → Prop} (ho : o = some b) (hx : Follows π S x (g b)) :
    Follows π S x (StateT.lift o >>= g) := by
  subst ho
  intro s c s' hrun
  obtain ⟨d, hgd, hS⟩ := hx s c s' hrun
  exact ⟨d, bind_eq_some.mpr ⟨b, π s, lift_eq_some.mpr ⟨b, rfl, rfl⟩, hgd⟩, hS⟩

end Follows

end Simulation
