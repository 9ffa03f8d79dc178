import Mathlib.Algebra.Order.Archimedean.Basic
import Mathlib.Data.List.MinMax
import Mathlib.Data.Rat.Floor
import Paraleon.Tuning.Candidates
import Paraleon.Tuning.Transfer

/-!
# Simulated annealing

`aggressive_tuning` and `conservative_tuning` are one function but for the mode. Each round
measures the utility of the candidate that was written last, accepts it or not, and writes
the next candidate. At the end the best solution is written.

* `written_legal`: every vector that is written is legal.
* `writes_best`: the annealing ends, and writes the vector of the earliest maximal utility,
  where a utility counts for the vector that was in the file when it was measured.
-/

namespace Paraleon.Tuning

/-- What the simulator sees of the tuner, and what the tuner measures. -/
inductive Event where
  | measured (utility : ℚ)
  | wrote (parameterValues : ParameterValues)

/-- What comes from outside in one round: the utility that is measured, the random number of
the acceptance test, and the draws for the next candidate. -/
structure Round where
  newValue : ℚ
  random : ℚ
  draws : Draws

/-- The variables of the tuning, with all events so far. -/
structure Annealing where
  currentSolution : ParameterValues
  currentValue : ℚ
  bestSolution : ParameterValues
  bestValue : ℚ
  temperature : ℚ
  tuningRounds : Nat
  newSolution : ParameterValues
  badRateEwma : ℚ
  log : List Event

namespace Annealing

def writeParameters (s : Annealing) (parameterValues : ParameterValues) : Annealing :=
  { s with log := s.log ++ [.wrote (normalizeParameterValues parameterValues)] }

variable (cfg : Config) (arith : Arithmetic) (mode : Mode)

/-- The code before the loops. -/
def start (currentSolution : ParameterValues) (baselineValue badRateEwma : ℚ) (draws : Draws) :
    Annealing :=
  let newSolution := generateNewParameters cfg arith .default badRateEwma draws currentSolution
  let s : Annealing :=
    { currentSolution, currentValue := baselineValue, bestSolution := currentSolution,
      bestValue := baselineValue, temperature := cfg.initialTemperature, tuningRounds := 0,
      newSolution, badRateEwma, log := [.measured baselineValue] }
  s.writeParameters newSolution

/-- The candidate is measured, and becomes the current solution or not. -/
def accept (s : Annealing) (r : Round) : Annealing :=
  let delta := arith.fl (r.newValue - s.currentValue)
  let s := { s with
    badRateEwma := updateBadRateEwma cfg arith s.badRateEwma delta
    log := s.log ++ [.measured r.newValue] }
  if 0 < delta ∨ r.random < arith.exp (arith.fl (delta / s.temperature)) then
    { s with currentSolution := s.newSolution, currentValue := r.newValue }
  else s

def updateBest (s : Annealing) : Annealing :=
  if s.bestValue < s.currentValue then
    { s with bestSolution := s.currentSolution, bestValue := s.currentValue }
  else s

/-- The next candidate. -/
def propose (s : Annealing) (r : Round) : Annealing :=
  let newSolution :=
    generateNewParameters cfg arith mode s.badRateEwma r.draws s.currentSolution
  { s.writeParameters newSolution with newSolution, tuningRounds := s.tuningRounds + 1 }

def round (s : Annealing) (r : Round) : Annealing :=
  (s.accept cfg arith r).updateBest.propose cfg arith mode r

/-- The `for` loop over the attempts; `rounds` are the inputs of all rounds of the tuning. -/
def attempts (rounds : Nat → Round) : Nat → Annealing → Annealing
  | 0, s => s
  | n + 1, s => attempts rounds n (s.round cfg arith mode (rounds s.tuningRounds))

/-- The `while` loop, for at most `fuel` temperatures. -/
def anneal (rounds : Nat → Round) : Nat → Annealing → Annealing
  | 0, s => s
  | fuel + 1, s =>
    if cfg.finalTemperature < s.temperature then
      let s := s.attempts cfg arith mode rounds cfg.attemptTimes
      anneal rounds fuel { s with temperature := arith.fl (s.temperature * cfg.coolingRate) }
    else s

end Annealing

section tuning

variable (cfg : Config) (arith : Arithmetic) (mode : Mode) (currentSolution : ParameterValues)
  (baselineValue badRateEwma : ℚ) (draws : Draws) (rounds : Nat → Round)

/-- The tuning up to its end, or to where the fuel runs out. -/
def tuning (fuel : Nat) : Annealing :=
  let s := (Annealing.start cfg arith currentSolution baselineValue badRateEwma draws).anneal
    cfg arith mode rounds fuel
  if cfg.finalTemperature < s.temperature then s else s.writeParameters s.bestSolution

def aggressiveTuning : Nat → Annealing :=
  tuning cfg arith .aggressive currentSolution baselineValue badRateEwma draws rounds

def conservativeTuning : Nat → Annealing :=
  tuning cfg arith .conservative currentSolution baselineValue badRateEwma draws rounds

end tuning

/-! ## What was measured -/

/-- The vector in the parameter file after the events, from `v`. -/
def inForce (v : ParameterValues) : List Event → ParameterValues
  | [] => v
  | .measured _ :: log => inForce v log
  | .wrote v :: log => inForce v log

/-- Every utility with the vector that it was measured for. -/
def credited (v : ParameterValues) : List Event → List (ParameterValues × ℚ)
  | [] => []
  | .measured utility :: log => (v, utility) :: credited v log
  | .wrote v :: log => credited v log

variable (cfg : Config) (arith : Arithmetic) {v : ParameterValues} {log : List Event}

theorem inForce_snoc_wrote (w : ParameterValues) : inForce v (log ++ [.wrote w]) = w := by
  induction log generalizing v with
  | nil => rfl
  | cons e log ih => cases e <;> exact ih

theorem inForce_snoc_measured (utility : ℚ) :
    inForce v (log ++ [.measured utility]) = inForce v log := by
  induction log generalizing v with
  | nil => rfl
  | cons e log ih => cases e <;> exact ih

theorem credited_snoc_wrote (w : ParameterValues) :
    credited v (log ++ [.wrote w]) = credited v log := by
  induction log generalizing v with
  | nil => rfl
  | cons e log ih =>
    cases e with
    | measured utility => exact congrArg ((v, utility) :: ·) ih
    | wrote w' => exact ih

theorem credited_snoc_measured (utility : ℚ) :
    credited v (log ++ [.measured utility]) = credited v log ++ [(inForce v log, utility)] := by
  induction log generalizing v with
  | nil => rfl
  | cons e log ih =>
    cases e with
    | measured utility' => exact congrArg ((v, utility') :: ·) ih
    | wrote w => exact ih

/-! ## From one round to the whole tuning -/

namespace Annealing

/-- The two ways in which a round deals with the candidate. -/
theorem accept_cases (s : Annealing) (r : Round) :
    ∃ badRateEwma,
      s.accept cfg arith r =
          { s with currentSolution := s.newSolution, currentValue := r.newValue, badRateEwma,
                   log := s.log ++ [.measured r.newValue] } ∨
        ¬ 0 < arith.fl (r.newValue - s.currentValue) ∧
          s.accept cfg arith r =
            { s with badRateEwma, log := s.log ++ [.measured r.newValue] } := by
  refine ⟨updateBadRateEwma cfg arith s.badRateEwma (arith.fl (r.newValue - s.currentValue)), ?_⟩
  by_cases haccept : 0 < arith.fl (r.newValue - s.currentValue) ∨
      r.random < arith.exp (arith.fl (arith.fl (r.newValue - s.currentValue) / s.temperature))
  · exact .inl (if_pos haccept)
  · exact .inr ⟨fun h => haccept (.inl h), if_neg haccept⟩

variable {P : Annealing → Prop} {s : Annealing} (mode : Mode) (rounds : Nat → Round)

theorem attempts_invariant (hround : ∀ s r, P s → P (s.round cfg arith mode r)) (n : Nat)
    (h : P s) : P (s.attempts cfg arith mode rounds n) := by
  induction n generalizing s with
  | zero => exact h
  | succ n ih => exact ih (hround _ _ h)

theorem anneal_invariant (hround : ∀ s r, P s → P (s.round cfg arith mode r))
    (hcool : ∀ s t, P s → P { s with temperature := t }) (fuel : Nat) (h : P s) :
    P (s.anneal cfg arith mode rounds fuel) := by
  induction fuel generalizing s with
  | zero => exact h
  | succ fuel ih =>
    unfold anneal
    split
    · exact ih (hcool _ _ (attempts_invariant cfg arith mode rounds hround _ h))
    · exact h

/-! ## Everything that is written is legal -/

/-- The vectors of the tuning, and those it has written. -/
structure AllLegal (s : Annealing) : Prop where
  currentSolution : Legal s.currentSolution
  bestSolution : Legal s.bestSolution
  newSolution : Legal s.newSolution
  wrote : ∀ v, Event.wrote v ∈ s.log → Legal v

theorem AllLegal.writeParameters (h : s.AllLegal) (hv : Legal v) :
    (s.writeParameters v).AllLegal where
  currentSolution := h.currentSolution
  bestSolution := h.bestSolution
  newSolution := h.newSolution
  wrote w hw := by
    rcases List.mem_append.mp hw with hw | hw
    · exact h.wrote w hw
    · cases List.mem_singleton.mp hw
      rwa [hv.normalize]

theorem AllLegal.start (hv : Legal v) (baselineValue badRateEwma : ℚ) (draws : Draws) :
    (Annealing.start cfg arith v baselineValue badRateEwma draws).AllLegal := by
  have hnew := generate_legal cfg arith hv .default badRateEwma draws
  refine AllLegal.writeParameters ⟨hv, hv, hnew, fun w hw => ?_⟩ hnew
  cases List.mem_singleton.mp hw

theorem AllLegal.accept (h : s.AllLegal) (r : Round) : (s.accept cfg arith r).AllLegal := by
  have hwrote : ∀ w, Event.wrote w ∈ s.log ++ [.measured r.newValue] → Legal w := fun w hw => by
    rcases List.mem_append.mp hw with hw | hw
    · exact h.wrote w hw
    · cases List.mem_singleton.mp hw
  obtain ⟨_, heq | ⟨-, heq⟩⟩ := accept_cases cfg arith s r
  · exact heq ▸ ⟨h.newSolution, h.bestSolution, h.newSolution, hwrote⟩
  · exact heq ▸ ⟨h.currentSolution, h.bestSolution, h.newSolution, hwrote⟩

theorem AllLegal.updateBest (h : s.AllLegal) : s.updateBest.AllLegal := by
  unfold Annealing.updateBest
  split
  · exact { h with bestSolution := h.currentSolution }
  · exact h

theorem AllLegal.round (h : s.AllLegal) (r : Round) : (s.round cfg arith mode r).AllLegal := by
  have hbest := (h.accept cfg arith r).updateBest
  have hnew := generate_legal cfg arith hbest.currentSolution mode
    (s.accept cfg arith r).updateBest.badRateEwma r.draws
  exact { hbest.writeParameters hnew with newSolution := hnew }

end Annealing

/-- Every vector that a tuning writes is legal when the one it starts from is. -/
theorem written_legal (hv : Legal v) (baselineValue badRateEwma : ℚ) (draws : Draws)
    (rounds : Nat → Round) (fuel : Nat) :
    (∀ w, Event.wrote w ∈
        (aggressiveTuning cfg arith v baselineValue badRateEwma draws rounds fuel).log → Legal w) ∧
      ∀ w, Event.wrote w ∈
        (conservativeTuning cfg arith v baselineValue badRateEwma draws rounds fuel).log →
          Legal w := by
  have hall : ∀ mode, (tuning cfg arith mode v baselineValue badRateEwma draws rounds
      fuel).AllLegal := by
    intro mode
    have h := Annealing.anneal_invariant cfg arith mode rounds (P := Annealing.AllLegal)
      (fun s r h => h.round cfg arith mode r) (fun s t h => { h with }) fuel
      (Annealing.AllLegal.start cfg arith hv baselineValue badRateEwma draws)
    unfold tuning
    dsimp only
    split
    · exact h
    · exact h.writeParameters h.bestSolution
  exact ⟨(hall .aggressive).wrote, (hall .conservative).wrote⟩

/-- The default settings of the tuner. -/
def defaultConfig : Config :=
  { directionCapPolicy := .adaptiveEwma, directionProbCapMax := 7 / 10, stepScale := 1,
    mutateCount := 13, directionBadEwmaAlpha := 15 / 100, directionDeltaEps := 1 / 100,
    initialTemperature := 1 / 10, finalTemperature := 1 / 100, attemptTimes := 8,
    coolingRate := 76 / 100 }

/-- One flow of each kind, and the same draws for every entry. -/
def evenDraws : Draws where
  mutateIndices n := parameterNames.take n
  ratios _ :=
    { current := { large := 1, small := 1 }, previous := { large := -1, small := -1 }
      large_nonneg := by decide +kernel
      small_nonneg := by decide +kernel
      previous_total := by decide +kernel }
  randomNumber _ := 0
  uniform _ := 1

/-- A network whose utility never changes. -/
def evenRound : Round := { newValue := 0, random := 0, draws := evenDraws }

theorem written_legal_even :
    let s := aggressiveTuning defaultConfig (.exact fun _ => 1) defaultParameterValues 0 0
      evenDraws (fun _ => evenRound) 2
    Legal defaultParameterValues ∧ ∀ w, Event.wrote w ∈ s.log → Legal w :=
  ⟨default_legal, (written_legal defaultConfig (.exact fun _ => 1) default_legal 0 0 evenDraws
    (fun _ => evenRound) 2).1⟩

/-! ## The best solution -/

namespace Annealing

variable {s : Annealing} (mode : Mode) (rounds : Nat → Round) (exp : ℚ → ℚ)

/-- The best solution is the earliest one of maximal utility among those credited so far. -/
structure Best (v : ParameterValues) (s : Annealing) : Prop where
  argmax : (credited v s.log).argmax Prod.snd = some (s.bestSolution, s.bestValue)
  currentValue_le : s.currentValue ≤ s.bestValue
  currentSolution : normalizeParameterValues s.currentSolution = s.currentSolution
  bestSolution : normalizeParameterValues s.bestSolution = s.bestSolution
  newSolution : normalizeParameterValues s.newSolution = s.newSolution
  inForce : inForce v s.log = s.newSolution

theorem Best.start (hv : normalizeParameterValues v = v) (baselineValue badRateEwma : ℚ)
    (draws : Draws) :
    (Annealing.start cfg arith v baselineValue badRateEwma draws).Best v := by
  have hnew := normalize_generate cfg arith (v := v) .default badRateEwma draws
  exact
    { argmax := congrArg (List.argmax Prod.snd) (credited_snoc_wrote _)
      currentValue_le := le_rfl
      currentSolution := hv
      bestSolution := hv
      newSolution := hnew
      inForce := (inForce_snoc_wrote _).trans hnew }

/-- A candidate that beats the best value beats the current one, so that it is accepted
whatever the random number is. -/
theorem Best.updateBest_accept (h : s.Best v) (r : Round) :
    (s.accept cfg (.exact exp) r).updateBest.Best v := by
  have hargmax : (credited v (s.log ++ [.measured r.newValue])).argmax Prod.snd =
      if s.bestValue < r.newValue then some (s.newSolution, r.newValue)
      else some (s.bestSolution, s.bestValue) := by
    rw [credited_snoc_measured, h.inForce, List.argmax_concat, h.argmax]
  have hforce : Tuning.inForce v (s.log ++ [.measured r.newValue]) = s.newSolution := by
    rw [inForce_snoc_measured, h.inForce]
  unfold Annealing.updateBest
  obtain ⟨_, heq | ⟨hdelta, heq⟩⟩ := accept_cases cfg (.exact exp) s r
  · rw [heq]
    dsimp only
    split
    · next hlt =>
      rw [if_pos hlt] at hargmax
      exact ⟨hargmax, le_rfl, h.newSolution, h.newSolution, h.newSolution, hforce⟩
    · next hle =>
      rw [if_neg hle] at hargmax
      exact ⟨hargmax, not_lt.mp hle, h.newSolution, h.bestSolution, h.newSolution, hforce⟩
  · have hle : r.newValue ≤ s.currentValue := sub_nonpos.mp (not_lt.mp hdelta)
    rw [heq]
    dsimp only
    rw [if_neg (not_lt.mpr h.currentValue_le)]
    rw [if_neg (not_lt.mpr (hle.trans h.currentValue_le))] at hargmax
    exact { h with argmax := hargmax, inForce := hforce }

theorem Best.round (h : s.Best v) (r : Round) : (s.round cfg (.exact exp) mode r).Best v := by
  have hbest := h.updateBest_accept cfg exp r
  have hnew := normalize_generate cfg (.exact exp)
    (v := (s.accept cfg (.exact exp) r).updateBest.currentSolution) mode
    (s.accept cfg (.exact exp) r).updateBest.badRateEwma r.draws
  exact
    { argmax := (congrArg (List.argmax Prod.snd) (credited_snoc_wrote _)).trans hbest.argmax
      currentValue_le := hbest.currentValue_le
      currentSolution := hbest.currentSolution
      bestSolution := hbest.bestSolution
      newSolution := hnew
      inForce := (inForce_snoc_wrote _).trans hnew }

/-! ## The end of the loop -/

theorem temperature_round (s : Annealing) (r : Round) :
    (s.round cfg arith mode r).temperature = s.temperature := by
  have haccept : (s.accept cfg arith r).temperature = s.temperature := by
    obtain ⟨_, heq | ⟨-, heq⟩⟩ := accept_cases cfg arith s r <;> rw [heq]
  have hbest : (s.accept cfg arith r).updateBest.temperature =
      (s.accept cfg arith r).temperature := by
    unfold Annealing.updateBest
    split <;> rfl
  exact hbest.trans haccept

/-- While the loop goes on, each step of the fuel has cooled once. -/
theorem temperature_anneal (fuel : Nat)
    (h : cfg.finalTemperature < (s.anneal cfg (.exact exp) mode rounds fuel).temperature) :
    (s.anneal cfg (.exact exp) mode rounds fuel).temperature =
      s.temperature * cfg.coolingRate ^ fuel := by
  induction fuel generalizing s with
  | zero => rw [pow_zero, mul_one, anneal]
  | succ fuel ih =>
    unfold anneal at h ⊢
    split at h
    · next hgt =>
      have hkeep : (s.attempts cfg (.exact exp) mode rounds cfg.attemptTimes).temperature =
          s.temperature :=
        attempts_invariant cfg (.exact exp) mode rounds
          (P := fun t => t.temperature = s.temperature)
          (fun t r ht => (temperature_round cfg (.exact exp) mode t r).trans ht) _ rfl
      rw [if_pos hgt, ih h]
      change (s.attempts cfg (.exact exp) mode rounds cfg.attemptTimes).temperature *
        cfg.coolingRate * _ = _
      rw [hkeep, pow_succ', mul_assoc]
    · next hle => exact absurd h hle

theorem exists_cold (hfinal : 0 < cfg.finalTemperature)
    (hinitial : cfg.finalTemperature ≤ cfg.initialTemperature) (hrate : 0 < cfg.coolingRate)
    (hrate' : cfg.coolingRate < 1) (hs : s.temperature = cfg.initialTemperature) :
    ∃ n, ∀ fuel ≥ n,
      (s.anneal cfg (.exact exp) mode rounds fuel).temperature ≤ cfg.finalTemperature := by
  have hpos : 0 < cfg.initialTemperature := hfinal.trans_le hinitial
  obtain ⟨n, hn⟩ := exists_pow_lt_of_lt_one (div_pos hfinal hpos) hrate'
  refine ⟨n, fun fuel hfuel => ?_⟩
  by_contra hgt
  have heq := temperature_anneal cfg mode rounds exp fuel (not_le.mp hgt)
  have hpow : cfg.coolingRate ^ fuel ≤ cfg.coolingRate ^ n :=
    pow_le_pow_of_le_one hrate.le hrate'.le hfuel
  have hcold : cfg.initialTemperature * cfg.coolingRate ^ n < cfg.finalTemperature := by
    rwa [lt_div_iff₀' hpos] at hn
  refine hgt ?_
  calc (s.anneal cfg (.exact exp) mode rounds fuel).temperature
      = cfg.initialTemperature * cfg.coolingRate ^ fuel := by rw [heq, hs]
    _ ≤ cfg.initialTemperature * cfg.coolingRate ^ n := mul_le_mul_of_nonneg_left hpow hpos.le
    _ ≤ cfg.finalTemperature := hcold.le

end Annealing

/-- `load_current_parameters` returns its thresholds in order. -/
theorem normalize_load {T : FloatTexts} {text : Numerals.Text}
    (h : loadCurrentParameters T text = some v) : normalizeParameterValues v = v := by
  unfold loadCurrentParameters at h
  split at h
  · cases h
    exact normalize_normalize _
  · obtain ⟨m, -, rfl⟩ := Option.map_eq_some_iff.mp h
    exact normalize_normalize _

/-- With enough fuel the tuning ends, and the parameter file then has the first of the vectors
that were credited with the greatest utility. -/
def WritesBest (cfg : Config) (v : ParameterValues) (run : Nat → Annealing) : Prop :=
  ∃ n, ∀ fuel ≥ n, (run fuel).temperature ≤ cfg.finalTemperature ∧
    ((credited v (run fuel).log).argmax Prod.snd).map Prod.fst = some (inForce v (run fuel).log)

/-- In exact arithmetic the tuning ends with the best solution. The random numbers matter only
for what is generated, and so credited. -/
theorem writes_best {T : FloatTexts} {text : Numerals.Text}
    (hv : loadCurrentParameters T text = some v) (hfinal : 0 < cfg.finalTemperature)
    (hinitial : cfg.finalTemperature ≤ cfg.initialTemperature) (hrate : 0 < cfg.coolingRate)
    (hrate' : cfg.coolingRate < 1) (exp : ℚ → ℚ) (baselineValue badRateEwma : ℚ) (draws : Draws)
    (rounds : Nat → Round) :
    WritesBest cfg v
        (aggressiveTuning cfg (.exact exp) v baselineValue badRateEwma draws rounds) ∧
      WritesBest cfg v
        (conservativeTuning cfg (.exact exp) v baselineValue badRateEwma draws rounds) := by
  have hall : ∀ mode, WritesBest cfg v
      (tuning cfg (.exact exp) mode v baselineValue badRateEwma draws rounds) := by
    intro mode
    have hstart := Annealing.Best.start cfg (.exact exp) (normalize_load hv) baselineValue
      badRateEwma draws
    obtain ⟨n, hn⟩ := Annealing.exists_cold cfg mode rounds exp
      (s := .start cfg (.exact exp) v baselineValue badRateEwma draws) hfinal hinitial hrate
      hrate' rfl
    refine ⟨n, fun fuel hfuel => ?_⟩
    have hcold := hn fuel hfuel
    have hbest := Annealing.anneal_invariant cfg (.exact exp) mode rounds
      (P := Annealing.Best v) (fun s r h => h.round cfg mode exp r) (fun s t h => { h with }) fuel
      hstart
    unfold tuning
    dsimp only
    rw [if_neg (not_lt.mpr hcold)]
    refine ⟨hcold, ?_⟩
    change ((credited v (_ ++ [.wrote _])).argmax Prod.snd).map Prod.fst =
      some (inForce v (_ ++ [.wrote _]))
    rw [credited_snoc_wrote, inForce_snoc_wrote, hbest.argmax, hbest.bestSolution]
    rfl
  exact ⟨hall .aggressive, hall .conservative⟩

/-- A network whose utilities rise and fall, so that worse solutions are accepted too. -/
def variedRound (n : Nat) : Round :=
  { newValue := [1 / 4, 3 / 4, 1 / 2].getD (n % 3) 0, random := 1 / 2, draws := evenDraws }

theorem writes_best_varied :
    WritesBest defaultConfig defaultParameterValues (aggressiveTuning defaultConfig
        (.exact fun _ => 1) defaultParameterValues (1 / 8) 0 evenDraws variedRound) ∧
      WritesBest defaultConfig defaultParameterValues (conservativeTuning defaultConfig
        (.exact fun _ => 1) defaultParameterValues (1 / 8) 0 evenDraws variedRound) :=
  have hload : loadCurrentParameters defaultTexts [] = some defaultParameterValues := rfl
  writes_best defaultConfig hload (by decide +kernel) (by decide +kernel) (by decide +kernel)
    (by decide +kernel) (fun _ => 1) (1 / 8) 0 evenDraws variedRound

end Paraleon.Tuning
