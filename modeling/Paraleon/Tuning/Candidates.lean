import Mathlib.Algebra.Order.Floor.Semiring
import Mathlib.Data.Rat.Floor
import Paraleon.Tuning.Parameters

/-!
# Candidates of the tuner

`generate_new_parameters` mutates some entries of the current vector and brings the result
back into the table. Random draws are arguments. The result of an operation on floats is
rounded by `Arithmetic.fl`, of which nothing is assumed.

* `generate_legal`: a candidate is legal when the current vector is.
-/

namespace Paraleon.Tuning

open Function

/-! ## The configuration -/

inductive CapPolicy where
  | fixed
  | adaptiveEwma
deriving DecidableEq, Repr

structure Config where
  directionCapPolicy : CapPolicy
  directionProbCapMax : ℚ
  stepScale : ℚ
  mutateCount : Nat
  directionBadEwmaAlpha : ℚ
  directionDeltaEps : ℚ
  initialTemperature : ℚ
  finalTemperature : ℚ
  attemptTimes : Nat
  coolingRate : ℚ

def directionProbCapMin : ℚ := 1 / 2

/-- The rounding of an operation on floats, and `math.exp`. -/
structure Arithmetic where
  fl : ℚ → ℚ
  exp : ℚ → ℚ

/-- Exact arithmetic, but for `math.exp`. -/
def Arithmetic.exact (exp : ℚ → ℚ) : Arithmetic := { fl := id, exp }

/-- The parameter modes, with the one of the first candidate. -/
inductive Mode where
  | default
  | aggressive
  | conservative
deriving DecidableEq, Repr

/-! ## The direction of a mutation -/

structure FlowRatio where
  large : ℚ
  small : ℚ
deriving DecidableEq, Repr

/-- `current_flow_ratio` and `previous_flow_ratio`. The loop over the observations counts
flows in the first one and then copies it to the second one, when it has seen a flow. Before
the first copy the second one is −1 to −1. -/
structure FlowRatios where
  current : FlowRatio
  previous : FlowRatio
  large_nonneg : 0 ≤ current.large
  small_nonneg : 0 ≤ current.small
  previous_total : previous.large + previous.small ≠ 0

/-- The flow numbers that the direction is drawn from. -/
def FlowRatios.numbers (r : FlowRatios) : FlowRatio :=
  if r.current.large ≠ 0 ∧ r.current.small ≠ 0 then r.current else r.previous

/-- No ratio is divided by zero. -/
theorem FlowRatios.total_ne_zero (r : FlowRatios) : r.numbers.large + r.numbers.small ≠ 0 := by
  unfold numbers
  split
  · next h =>
    have hlarge := lt_of_le_of_ne r.large_nonneg (Ne.symm h.1)
    have hsmall := lt_of_le_of_ne r.small_nonneg (Ne.symm h.2)
    exact (add_pos hlarge hsmall).ne'
  · exact r.previous_total

variable (cfg : Config) (arith : Arithmetic)

def getDirectionProbCap (badRateEwma : ℚ) : ℚ :=
  match cfg.directionCapPolicy with
  | .fixed => cfg.directionProbCapMax
  | .adaptiveEwma =>
    arith.fl (directionProbCapMin +
      arith.fl (arith.fl (cfg.directionProbCapMax - directionProbCapMin) *
        arith.fl (1 - badRateEwma)))

def updateBadRateEwma (badRateEwma delta : ℚ) : ℚ :=
  let badSignal := if delta < -cfg.directionDeltaEps then 1 else 0
  arith.fl (arith.fl (cfg.directionBadEwmaAlpha * badSignal) +
    arith.fl (arith.fl (1 - cfg.directionBadEwmaAlpha) * badRateEwma))

def getNewSolutionDirection (mode : Mode) (badRateEwma : ℚ) (ratios : FlowRatios)
    (randomNumber : ℚ) : Int :=
  let n := ratios.numbers
  let flowNumber := match mode with
    | .aggressive => n.large
    | .default | .conservative => n.small
  let ratio := arith.fl (flowNumber / arith.fl (n.large + n.small))
  if randomNumber ≤ min ratio (getDirectionProbCap cfg arith badRateEwma) then 1 else -1

/-! ## `generate_new_parameters` -/

/-- `round` of Python: a tie goes to the even number. -/
def pyRound (x : ℚ) : Int :=
  let rest := x - ⌊x⌋
  if rest < 1 / 2 then ⌊x⌋
  else if 1 / 2 < rest then ⌊x⌋ + 1
  else if ⌊x⌋ % 2 = 0 then ⌊x⌋
  else ⌊x⌋ + 1

/-- A drawn number as a value of its type. -/
def Spec.typed (s : Spec) (parameterValue : ℚ) : Value :=
  match s.type with
  | .int => .int (pyRound parameterValue)
  | .float => if 1 < parameterValue then .int 1 else .float parameterValue

/-- The comparisons with the limits. -/
def Spec.clamp (s : Spec) (parameterValue : Value) : Value :=
  let parameterValue := if s.max.toRat < parameterValue.toRat then s.max else parameterValue
  if parameterValue.toRat < s.min.toRat then s.min else parameterValue

/-- The draws for one candidate: the sample of the indices, for every size, and for each
mutated entry the flow ratios at that time and two random numbers. -/
structure Draws where
  mutateIndices : Nat → List Name
  ratios : Name → FlowRatios
  randomNumber : Name → ℚ
  uniform : Name → ℚ

def mutateParameter (mode : Mode) (badRateEwma : ℚ) (draws : Draws) (name : Name)
    (value : Value) : Value :=
  let s := spec name
  let direction := getNewSolutionDirection cfg arith mode badRateEwma (draws.ratios name)
    (draws.randomNumber name)
  let modeSign := if mode = .aggressive then s.aggressiveDirection else -s.aggressiveDirection
  s.clamp (s.typed (arith.fl (value.toRat +
    arith.fl (arith.fl (modeSign * direction * s.step.toRat * cfg.stepScale) *
      draws.uniform name))))

def generateNewParameters (mode : Mode) (badRateEwma : ℚ) (draws : Draws)
    (currentSolution : ParameterValues) : ParameterValues :=
  if mode = .default then defaultParameterValues
  else
    let mutateCount := min cfg.mutateCount parameterNames.length
    if mutateCount = 0 then normalizeParameterValues currentSolution
    else
      normalizeParameterValues fun name =>
        if name ∈ draws.mutateIndices mutateCount then
          mutateParameter cfg arith mode badRateEwma draws name (currentSolution name)
        else currentSolution name

/-! ## Legal vectors -/

def Spec.Legal (s : Spec) (value : Value) : Prop :=
  s.min.toRat ≤ value.toRat ∧ value.toRat ≤ s.max.toRat ∧ (s.type = .int → ∃ n, value = .int n)

structure Legal (v : ParameterValues) : Prop where
  entry : ∀ name, (spec name).Legal (v name)
  thresholds : (v (.ecn .kmin)).toRat ≤ (v (.ecn .kmax)).toRat

variable {T : FloatTexts} {v : ParameterValues}

/-- The limits of an entry are legal values of it. -/
theorem spec_limits (name : Name) :
    (spec name).min.toRat ≤ (spec name).max.toRat ∧
      (spec name).Legal (spec name).min ∧ (spec name).Legal (spec name).max := by
  have hle : ∀ a ∈ parameterNames, (spec a).min.toRat ≤ (spec a).max.toRat := by decide +kernel
  have hint : (spec name).type = .int →
      (∃ n, (spec name).min = .int n) ∧ ∃ n, (spec name).max = .int n := by
    intro htype
    rcases name with name | field
    · cases name with
      | rateToSetOnFirstCnp | rpgMinDecFac => cases htype
      | timeReset | aiRate | haiRate | rpgMinRate | rpgGd | minTimeBetweenCnps | dceTcpG
      | initialAlphaValue => exact ⟨⟨_, rfl⟩, _, rfl⟩
    · cases field with
      | kmin | kmax => exact ⟨⟨_, rfl⟩, _, rfl⟩
      | pmax => cases htype
  have h := hle name name.mem_parameterNames
  exact ⟨h, ⟨le_rfl, h, fun htype => (hint htype).1⟩, h, le_rfl, fun htype => (hint htype).2⟩

theorem clamp_legal (name : Name) {value : Value}
    (hint : (spec name).type = .int → ∃ n, value = .int n) :
    (spec name).Legal ((spec name).clamp value) := by
  obtain ⟨hle, hmin, hmax⟩ := spec_limits name
  unfold Spec.clamp
  by_cases hgt : (spec name).max.toRat < value.toRat
  · simp only [hgt, if_true, not_lt.mpr hle, if_false]
    exact hmax
  · simp only [hgt, if_false]
    split
    · exact hmin
    · next hge => exact ⟨not_lt.mp hge, not_lt.mp hgt, hint⟩

theorem typed_int {s : Spec} (h : s.type = .int) (x : ℚ) : ∃ n, s.typed x = .int n :=
  ⟨pyRound x, by rw [Spec.typed, h]⟩

/-- Thresholds that change places are legal: each range has the values that the other entry
can have then. -/
theorem normalize_legal (h : ∀ name, (spec name).Legal (v name)) :
    Legal (normalizeParameterValues v) := by
  refine ⟨fun name => ?_, normalize_le v⟩
  obtain ⟨hmin, hmin', hminInt⟩ := h (.ecn .kmin)
  obtain ⟨hmax, hmax', hmaxInt⟩ := h (.ecn .kmax)
  rcases eq_or_ne name (.ecn .kmin) with rfl | hkmin
  · rcases normalize_thresholds v with ⟨heq, -⟩ | ⟨heq, -, hlt⟩
    · exact heq ▸ h _
    · have hlow : (spec (.ecn .kmin)).min.toRat ≤ (spec (.ecn .kmax)).min.toRat := by decide +kernel
      rw [heq]
      exact ⟨hlow.trans hmax, hlt.le.trans hmin', fun _ => hmaxInt rfl⟩
  · rcases eq_or_ne name (.ecn .kmax) with rfl | hkmax
    · rcases normalize_thresholds v with ⟨-, heq, -⟩ | ⟨-, heq, hlt⟩
      · exact heq ▸ h _
      · have hhigh : (spec (.ecn .kmin)).max.toRat ≤ (spec (.ecn .kmax)).max.toRat := by
          decide +kernel
        rw [heq]
        exact ⟨hmax.trans hlt.le, hmin'.trans hhigh, fun _ => hminInt rfl⟩
    · rw [normalize_other hkmin hkmax]
      exact h name

theorem Legal.normalize (h : Legal v) : normalizeParameterValues v = v :=
  if_neg (not_lt.mpr h.thresholds)

theorem default_entry_legal (name : Name) : (spec name).Legal (spec name).default := by
  have h : ∀ a ∈ parameterNames, (spec a).min.toRat ≤ (spec a).default.toRat ∧
      (spec a).default.toRat ≤ (spec a).max.toRat := by decide +kernel
  obtain ⟨hmin, hmax⟩ := h name name.mem_parameterNames
  refine ⟨hmin, hmax, fun htype => ?_⟩
  rcases name with name | field
  · cases name with
    | rateToSetOnFirstCnp | rpgMinDecFac => cases htype
    | timeReset | aiRate | haiRate | rpgMinRate | rpgGd | minTimeBetweenCnps | dceTcpG
    | initialAlphaValue => exact ⟨_, rfl⟩
  · cases field with
    | kmin | kmax => exact ⟨_, rfl⟩
    | pmax => cases htype

theorem default_legal : Legal defaultParameterValues := normalize_legal default_entry_legal

/-- What a candidate can be: its entries before they are ordered. -/
theorem generate_cases (mode : Mode) (badRateEwma : ℚ) (draws : Draws) (v : ParameterValues) :
    ∃ w, generateNewParameters cfg arith mode badRateEwma draws v = normalizeParameterValues w ∧
      ∀ name, w name = (spec name).default ∨ w name = v name ∨
        ∃ x, w name = (spec name).clamp ((spec name).typed x) := by
  by_cases hmode : mode = .default
  · exact ⟨_, if_pos hmode, fun name => .inl rfl⟩
  by_cases hcount : min cfg.mutateCount parameterNames.length = 0
  · exact ⟨v, (if_neg hmode).trans (if_pos hcount), fun name => .inr (.inl rfl)⟩
  refine ⟨_, (if_neg hmode).trans (if_neg hcount), fun name => .inr ?_⟩
  by_cases hname : name ∈ draws.mutateIndices (min cfg.mutateCount parameterNames.length)
  · exact .inr ⟨_, if_pos hname⟩
  · exact .inl (if_neg hname)

theorem generate_legal (h : Legal v) (mode : Mode) (badRateEwma : ℚ) (draws : Draws) :
    Legal (generateNewParameters cfg arith mode badRateEwma draws v) := by
  obtain ⟨w, hw, hentry⟩ := generate_cases cfg arith mode badRateEwma draws v
  rw [hw]
  refine normalize_legal fun name => ?_
  rcases hentry name with heq | heq | ⟨x, heq⟩
  · exact heq ▸ default_entry_legal name
  · exact heq ▸ h.entry name
  · exact heq ▸ clamp_legal name fun htype => typed_int htype x

/-- A candidate has its thresholds in order, so that `write_parameters` writes it as it is. -/
theorem normalize_generate (mode : Mode) (badRateEwma : ℚ) (draws : Draws) :
    normalizeParameterValues (generateNewParameters cfg arith mode badRateEwma draws v) =
      generateNewParameters cfg arith mode badRateEwma draws v := by
  obtain ⟨w, hw, -⟩ := generate_cases cfg arith mode badRateEwma draws v
  rw [hw, normalize_normalize]

end Paraleon.Tuning
