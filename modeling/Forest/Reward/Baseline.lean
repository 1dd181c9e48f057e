import Forest.Reward.State

/-!
# The baseline invariant of the reward actor

Every state the reward actor reaches has its realized sum covered by the baseline sum, by less
than the last baseline step, with a positive step (`Invariant`).  The catch-up loop keeps it: the
baseline step never shrinks, since `BASELINE_EXPONENT` is above one in Q.128, so the loop ends
within as many turns as the realized sum is ahead (`updateToNextEpoch_terminates`), and the turn
that ends it leaves less than one step of baseline unused (`Invariant.afterCatchUp`).

The interpolated time of such a state lies in its last step (`Invariant.rewardTheta_spec`), and
one update never lowers it: without a catch-up turn only the realized sum grows, and with one the
time moves past the whole step it was in (`Invariant.updateToNextEpoch`).  The reward computed
from two such times does not panic, since the denominator of `expneg` is positive at a
non-negative point (`computeReward_isSome`).  So from `State::new` every run of the calls keeps
the invariant, ends each call, and never lowers the time (`Invariant.run`).
-/

namespace Forest.Reward

/-! ## One epoch's arithmetic -/

theorem two_pow_precision_pos : (0 : Int) < ((2 ^ precision : Nat) : Int) := by
  decide

theorem shiftRight_nonneg {x : Int} (nonneg : 0 ≤ x) : 0 ≤ x >>> precision := by
  rw [Int.shiftRight_eq_div_pow]
  exact Int.ediv_nonneg nonneg two_pow_precision_pos.le

/-- The baseline never shrinks: its factor is above one. -/
theorem le_baselinePowerFromPrev {power : Int} (nonneg : 0 ≤ power) :
    power ≤ baselinePowerFromPrev power := by
  have factor : ((2 ^ precision : Nat) : Int) ≤ baselineExponent := by decide
  rw [baselinePowerFromPrev, Int.shiftRight_eq_div_pow]
  exact Int.le_ediv_of_mul_le two_pow_precision_pos (Int.mul_le_mul_of_nonneg_left factor nonneg)

theorem divFloor_of_pos {numerator denominator : Int} (positive : 0 < denominator) :
    divFloor numerator denominator = some (numerator / denominator) := by
  rw [divFloor, if_neg (by omega), Int.fdiv_eq_ediv_of_nonneg _ positive.le]

/-- The unreached part of the last step, in Q.128, is less than one. -/
theorem gap_div_bounds {gap power : Int} (gapNonneg : 0 ≤ gap) (gapBelow : gap < power) :
    0 ≤ gap * 2 ^ precision / power ∧ gap * 2 ^ precision / power < 2 ^ precision := by
  have positive : 0 < power := by omega
  have scale : (0 : Int) < 2 ^ precision := by decide
  constructor
  · exact Int.ediv_nonneg (Int.mul_nonneg gapNonneg scale.le) positive.le
  · apply Int.ediv_lt_of_lt_mul positive
    rw [Int.mul_comm (2 ^ precision)]
    exact Int.mul_lt_mul_of_pos_right gapBelow scale

/-- `compute_r_theta` with a positive step: the time, less the unreached part of the step. -/
theorem computeRTheta_eq {time power realized baseline : Int} (positive : 0 < power) :
    computeRTheta time power realized baseline =
      some (if time ≠ 0 then time * 2 ^ precision - (baseline - realized) * 2 ^ precision / power
        else 0) := by
  by_cases zero : time = 0
  · simp [computeRTheta, zero]
  · simp [computeRTheta, zero, divFloor_of_pos positive]

/-! ## The catch-up loop -/

namespace State

@[simp]
theorem catchUpStep_effectiveBaselinePower (st : State) :
    st.catchUpStep.effectiveBaselinePower = baselinePowerFromPrev st.effectiveBaselinePower := rfl

@[simp]
theorem catchUpStep_cumsumBaseline (st : State) :
    st.catchUpStep.cumsumBaseline =
      st.cumsumBaseline + baselinePowerFromPrev st.effectiveBaselinePower := rfl

/-- The catch-up loop moves the effective time, its step and the baseline sum, and nothing else. -/
theorem iterate_catchUpStep (st : State) (turns : Nat) :
    catchUpStep^[turns] st = { st with
      effectiveNetworkTime := st.effectiveNetworkTime + turns
      effectiveBaselinePower := (catchUpStep^[turns] st).effectiveBaselinePower
      cumsumBaseline := (catchUpStep^[turns] st).cumsumBaseline } := by
  induction turns with
  | zero => simp
  | succ turns inductionHypothesis =>
    rw [Function.iterate_succ_apply', inductionHypothesis]
    simp only [catchUpStep, Nat.cast_add, Nat.cast_one, Int.add_assoc]

/-- Each turn adds a step at least as large as the first, so the baseline sum grows by at least
one a turn. -/
theorem iterate_catchUpStep_grows {st : State} (positive : 0 < st.effectiveBaselinePower)
    (turns : Nat) :
    st.effectiveBaselinePower ≤ (catchUpStep^[turns] st).effectiveBaselinePower ∧
      st.cumsumBaseline + turns ≤ (catchUpStep^[turns] st).cumsumBaseline := by
  induction turns with
  | zero => simp
  | succ turns inductionHypothesis =>
    obtain ⟨powerGrown, sumGrown⟩ := inductionHypothesis
    have turnPositive : 0 ≤ (catchUpStep^[turns] st).effectiveBaselinePower := by omega
    have nextPower := le_baselinePowerFromPrev turnPositive
    rw [Function.iterate_succ_apply', catchUpStep_effectiveBaselinePower,
      catchUpStep_cumsumBaseline]
    constructor
    · omega
    · push_cast
      omega

@[simp]
theorem startEpoch_effectiveBaselinePower (st : State) (power : Int) :
    (st.startEpoch power).effectiveBaselinePower = st.effectiveBaselinePower := rfl

@[simp]
theorem startEpoch_cumsumBaseline (st : State) (power : Int) :
    (st.startEpoch power).cumsumBaseline = st.cumsumBaseline := rfl

@[simp]
theorem startEpoch_cumsumRealized (st : State) (power : Int) :
    (st.startEpoch power).cumsumRealized =
      st.cumsumRealized + min (baselinePowerFromPrev st.thisEpochBaselinePower) power := rfl

@[simp]
theorem startEpoch_effectiveNetworkTime (st : State) (power : Int) :
    (st.startEpoch power).effectiveNetworkTime = st.effectiveNetworkTime := rfl

/-- The loop of an update from a positive step ends within as many turns as the realized sum is
ahead of the baseline sum. -/
theorem updateToNextEpoch_terminates {st : State} (positive : 0 < st.effectiveBaselinePower)
    (currRealizedPower : Int) :
    ∃ turns ≤ ((st.startEpoch currRealizedPower).cumsumRealized - st.cumsumBaseline).toNat,
      ∀ fuel, turns < fuel →
        st.updateToNextEpoch currRealizedPower fuel =
          some (catchUpStep^[turns] (st.startEpoch currRealizedPower)) := by
  have startPositive : 0 < (st.startEpoch currRealizedPower).effectiveBaselinePower := positive
  -- after as many turns as the realized sum is ahead, the baseline sum covers it
  have passes : caughtUp (catchUpStep^[((st.startEpoch currRealizedPower).cumsumRealized -
      st.cumsumBaseline).toNat] (st.startEpoch currRealizedPower)) = true := by
    have grown := (iterate_catchUpStep_grows startPositive
      ((st.startEpoch currRealizedPower).cumsumRealized - st.cumsumBaseline).toNat).2
    have cover := Int.self_le_toNat
      ((st.startEpoch currRealizedPower).cumsumRealized - st.cumsumBaseline)
    have realized := congrArg State.cumsumRealized (iterate_catchUpStep
      (st.startEpoch currRealizedPower)
      ((st.startEpoch currRealizedPower).cumsumRealized - st.cumsumBaseline).toNat)
    simp only [caughtUp, decide_eq_true_eq, realized]
    rw [startEpoch_cumsumBaseline] at grown
    omega
  obtain ⟨turns, within, -, -, run⟩ := Loop.findSuccessor_of_exists passes
  exact ⟨turns, within, run⟩

/-- The state the catch-up loop stops at is covered by the baseline sum, by less than its last
step: either no turn was taken, or the last one started below the realized sum. -/
theorem catchUp_spec {started : State}
    (gapStart : started.cumsumBaseline - started.cumsumRealized < started.effectiveBaselinePower)
    {turns : Nat} (notBefore : ∀ earlier < turns, caughtUp (catchUpStep^[earlier] started) = false)
    (caught : caughtUp (catchUpStep^[turns] started) = true) :
    (catchUpStep^[turns] started).cumsumRealized ≤ (catchUpStep^[turns] started).cumsumBaseline ∧
      (catchUpStep^[turns] started).cumsumBaseline - (catchUpStep^[turns] started).cumsumRealized <
        (catchUpStep^[turns] started).effectiveBaselinePower := by
  refine ⟨by simpa [caughtUp] using caught, ?_⟩
  cases turns with
  | zero => simpa using gapStart
  | succ turns =>
    have below := notBefore turns (Nat.lt_succ_self turns)
    simp only [caughtUp, decide_eq_false_iff_not, Int.not_le] at below
    have realizedBefore := congrArg State.cumsumRealized (iterate_catchUpStep started turns)
    have realizedAfter := congrArg State.cumsumRealized (iterate_catchUpStep started (turns + 1))
    rw [Function.iterate_succ_apply', catchUpStep_cumsumBaseline,
      catchUpStep_effectiveBaselinePower]
    rw [Function.iterate_succ_apply'] at realizedAfter
    dsimp only at realizedBefore realizedAfter
    have sameRealized : (catchUpStep (catchUpStep^[turns] started)).cumsumRealized =
        (catchUpStep^[turns] started).cumsumRealized := rfl
    omega

end State

/-! ## The invariant -/

/-- What every reached state keeps: the realized sum is covered by the baseline sum, by less than
the last baseline step, and the step, the effective time, the epoch and this epoch's baseline are
in range. -/
structure Invariant (st : State) : Prop where
  covered : st.cumsumRealized ≤ st.cumsumBaseline
  gapBelow : st.cumsumBaseline - st.cumsumRealized < st.effectiveBaselinePower
  powerPositive : 0 < st.effectiveBaselinePower
  timeNonneg : 0 ≤ st.effectiveNetworkTime
  epochDefined : -1 ≤ st.epoch
  baselineNonneg : 0 ≤ st.thisEpochBaselinePower

namespace Invariant

variable {st : State}

/-- The interpolated time of a state that keeps the invariant lies in its last step. -/
theorem rewardTheta_spec (inv : Invariant st) :
    ∃ theta, st.rewardTheta = some theta ∧ 0 ≤ theta ∧
      theta ≤ st.effectiveNetworkTime * 2 ^ precision ∧
      (st.effectiveNetworkTime ≠ 0 →
        (st.effectiveNetworkTime - 1) * 2 ^ precision < theta) := by
  have bounds := gap_div_bounds (by have := inv.covered; omega) inv.gapBelow
  refine ⟨_, computeRTheta_eq inv.powerPositive, ?_, ?_, ?_⟩
  · split_ifs with nonzero
    · have timeLarge : 1 * 2 ^ precision ≤ st.effectiveNetworkTime * 2 ^ precision := by
        have : (1 : Int) ≤ st.effectiveNetworkTime := by have := inv.timeNonneg; omega
        exact Int.mul_le_mul_of_nonneg_right this (by decide)
      omega
    · exact le_refl 0
  · split_ifs with nonzero
    · omega
    · have zero : st.effectiveNetworkTime = 0 := by simpa using nonzero
      simp [zero]
  · intro nonzero
    rw [if_pos nonzero, Int.sub_mul, Int.one_mul]
    omega

/-- The update's loop leaves the invariant where it stops. -/
theorem afterCatchUp (inv : Invariant st) {currRealizedPower : Int}
    (nonneg : 0 ≤ currRealizedPower) {turns : Nat}
    (notBefore : ∀ earlier < turns,
      State.caughtUp (State.catchUpStep^[earlier] (st.startEpoch currRealizedPower)) = false)
    (caught : State.caughtUp (State.catchUpStep^[turns] (st.startEpoch currRealizedPower)) = true) :
    Invariant (State.catchUpStep^[turns] (st.startEpoch currRealizedPower)) := by
  -- this epoch's baseline and the capped power added to the realized sum are not negative
  have thisEpochNonneg := Int.le_trans inv.baselineNonneg
    (le_baselinePowerFromPrev inv.baselineNonneg)
  have capped : 0 ≤ min (baselinePowerFromPrev st.thisEpochBaselinePower) currRealizedPower :=
    le_min thisEpochNonneg nonneg
  have gapStart : (st.startEpoch currRealizedPower).cumsumBaseline -
      (st.startEpoch currRealizedPower).cumsumRealized <
        (st.startEpoch currRealizedPower).effectiveBaselinePower := by
    simp only [State.startEpoch_cumsumBaseline, State.startEpoch_cumsumRealized,
      State.startEpoch_effectiveBaselinePower]
    have := inv.gapBelow
    omega
  obtain ⟨covered, gapBelow⟩ := State.catchUp_spec gapStart notBefore caught
  have startPositive : 0 < (st.startEpoch currRealizedPower).effectiveBaselinePower :=
    inv.powerPositive
  have grown := (State.iterate_catchUpStep_grows startPositive turns).1
  have frame := State.iterate_catchUpStep (st.startEpoch currRealizedPower) turns
  refine ⟨covered, gapBelow, Int.lt_of_lt_of_le inv.powerPositive grown, ?_, ?_, ?_⟩
  · rw [frame]
    have := inv.timeNonneg
    simp only [State.startEpoch_effectiveNetworkTime]
    omega
  · rw [frame]
    have := inv.epochDefined
    simp only [State.startEpoch]
    omega
  · rw [frame]
    exact thisEpochNonneg

/-- One update does not lower the interpolated time: with no catch-up turn only the realized sum
grows, and with one the time moves past the step it was in. -/
theorem rewardTheta_le_afterCatchUp (inv : Invariant st) {currRealizedPower : Int}
    (nonneg : 0 ≤ currRealizedPower) {turns : Nat}
    (after : Invariant (State.catchUpStep^[turns] (st.startEpoch currRealizedPower))) :
    ∃ theta theta', st.rewardTheta = some theta ∧
      (State.catchUpStep^[turns] (st.startEpoch currRealizedPower)).rewardTheta = some theta' ∧
      theta ≤ theta' := by
  obtain ⟨theta, thetaIs, -, thetaBelow, -⟩ := inv.rewardTheta_spec
  obtain ⟨theta', thetaIs', -, -, thetaAbove'⟩ := after.rewardTheta_spec
  refine ⟨theta, theta', thetaIs, thetaIs', ?_⟩
  cases turns with
  | zero =>
    -- no turn: the unreached part of the same step shrank
    have capped : 0 ≤ min (baselinePowerFromPrev st.thisEpochBaselinePower) currRealizedPower :=
      le_min (Int.le_trans inv.baselineNonneg (le_baselinePowerFromPrev inv.baselineNonneg)) nonneg
    rw [State.rewardTheta, computeRTheta_eq inv.powerPositive, Option.some.injEq] at thetaIs
    rw [Function.iterate_zero_apply, State.rewardTheta, State.startEpoch_effectiveNetworkTime,
      State.startEpoch_effectiveBaselinePower, State.startEpoch_cumsumBaseline,
      State.startEpoch_cumsumRealized, computeRTheta_eq inv.powerPositive,
      Option.some.injEq] at thetaIs'
    rw [← thetaIs, ← thetaIs']
    split_ifs
    · have smaller : (st.cumsumBaseline - (st.cumsumRealized +
          min (baselinePowerFromPrev st.thisEpochBaselinePower) currRealizedPower)) *
            2 ^ precision ≤ (st.cumsumBaseline - st.cumsumRealized) * 2 ^ precision :=
        Int.mul_le_mul_of_nonneg_right (by omega) (by decide)
      have := Int.ediv_le_ediv inv.powerPositive smaller
      omega
    · exact le_refl 0
  | succ turns =>
    -- a turn: the time moved past the step it was in
    have time := congrArg State.effectiveNetworkTime
      (State.iterate_catchUpStep (st.startEpoch currRealizedPower) (turns + 1))
    simp only [State.startEpoch_effectiveNetworkTime] at time
    have moved := thetaAbove' (by have := inv.timeNonneg; omega)
    rw [time] at moved
    have timeScaled : st.effectiveNetworkTime * 2 ^ precision ≤
        (st.effectiveNetworkTime + ((turns + 1 : Nat) : Int) - 1) * 2 ^ precision :=
      Int.mul_le_mul_of_nonneg_right (by push_cast; omega) (by decide)
    omega

/-- An update from a state that keeps the invariant leaves it, moves the epoch on, and does not
lower the interpolated time. -/
theorem updateToNextEpoch (inv : Invariant st) {currRealizedPower : Int}
    (nonneg : 0 ≤ currRealizedPower) {fuel : Nat} {st' : State}
    (ran : st.updateToNextEpoch currRealizedPower fuel = some st') :
    Invariant st' ∧ st'.epoch = st.epoch + 1 ∧
      ∃ theta theta', st.rewardTheta = some theta ∧ st'.rewardTheta = some theta' ∧
        theta ≤ theta' := by
  obtain ⟨turns, -, rfl, caught, notBefore⟩ := Loop.findSuccessor_eq_some fuel ran
  have after := inv.afterCatchUp nonneg notBefore caught
  refine ⟨after, ?_, inv.rewardTheta_le_afterCatchUp nonneg after⟩
  rw [State.iterate_catchUpStep]
  rfl

end Invariant

/-! ## The reward -/

theorem expDenoCoef_pos : ∀ coeff ∈ expDenoCoef, 0 < coeff := by
  decide

/-- Horner's rule with positive coefficients at a non-negative point stays positive. -/
theorem foldl_horner_pos {x : Int} (xNonneg : 0 ≤ x) :
    ∀ {poly : List Int}, (∀ coeff ∈ poly, 0 < coeff) → poly ≠ [] → ∀ {res : Int}, 0 ≤ res →
      0 < poly.foldl (fun res coeff => ((res * x) >>> precision) + coeff) res
  | [], _, nonempty, _, _ => absurd rfl nonempty
  | coeff :: rest, positive, _, res, resNonneg => by
    have next : 0 < ((res * x) >>> precision) + coeff := by
      have shifted := shiftRight_nonneg (Int.mul_nonneg resNonneg xNonneg)
      have := positive coeff List.mem_cons_self
      omega
    rw [List.foldl_cons]
    cases rest with
    | nil => exact next
    | cons later more =>
      exact foldl_horner_pos xNonneg (fun other member => positive other (List.mem_cons_of_mem _ member))
        (List.cons_ne_nil _ _) next.le

/-- `expneg` does not panic on a non-negative argument: its denominator is positive there. -/
theorem expneg_isSome {x : Int} (xNonneg : 0 ≤ x) : ∃ value, expneg x = some value := by
  have denominator : 0 < polyVal expDenoCoef x :=
    foldl_horner_pos xNonneg expDenoCoef_pos (by decide) (le_refl 0)
  exact ⟨_, divFloor_of_pos denominator⟩

theorem computeBaselineSupply_isSome {theta : Int} (thetaNonneg : 0 ≤ theta) (total : Int) :
    ∃ supply, computeBaselineSupply theta total = some supply := by
  have lambdaPositive : (0 : Int) ≤ lambda := by decide
  obtain ⟨etl, etlIs⟩ := expneg_isSome (shiftRight_nonneg (Int.mul_nonneg thetaNonneg lambdaPositive))
  simp [computeBaselineSupply, etlIs]

/-- `compute_reward` does not panic at a defined epoch and non-negative times. -/
theorem computeReward_isSome {epoch prevTheta currTheta : Int} (epochNonneg : 0 ≤ epoch)
    (prevNonneg : 0 ≤ prevTheta) (currNonneg : 0 ≤ currTheta) (simple baseline : Int) :
    ∃ reward, computeReward epoch prevTheta currTheta simple baseline = some reward := by
  have lambdaPositive : (0 : Int) ≤ lambda := by decide
  obtain ⟨simpleFactor, simpleIs⟩ := expneg_isSome (Int.mul_nonneg lambdaPositive epochNonneg)
  obtain ⟨currSupply, currIs⟩ := computeBaselineSupply_isSome currNonneg baseline
  obtain ⟨prevSupply, prevIs⟩ := computeBaselineSupply_isSome prevNonneg baseline
  simp [computeReward, simpleIs, currIs, prevIs]

namespace State

/-- What `update_to_next_epoch_with_reward` returns: the update, with the reward set. -/
theorem updateToNextEpochWithReward_eq_some {st result : State} {currRealizedPower : Int}
    {fuel : Nat} (ran : st.updateToNextEpochWithReward currRealizedPower fuel = some result) :
    ∃ st' reward, st.updateToNextEpoch currRealizedPower fuel = some st' ∧
      result = { st' with thisEpochReward := reward } := by
  unfold updateToNextEpochWithReward at ran
  cases prev : st.rewardTheta with
  | none => simp [prev] at ran
  | some prevTheta =>
    cases updated : st.updateToNextEpoch currRealizedPower fuel with
    | none => simp [prev, updated] at ran
    | some st' =>
      cases curr : st'.rewardTheta with
      | none => simp [prev, updated, curr] at ran
      | some currTheta =>
        cases rewarded : computeReward st'.epoch prevTheta currTheta st'.simpleTotal
            st'.baselineTotal with
        | none => simp [prev, updated, curr, rewarded] at ran
        | some reward =>
          simp only [prev, updated, curr, rewarded, Option.bind_eq_bind, Option.bind_some,
            Option.pure_def, Option.some.injEq] at ran
          exact ⟨st', reward, rfl, ran.symm⟩

/-- Setting the reward leaves the bookkeeping as it was. -/
@[simp]
theorem rewardTheta_setReward (st : State) (reward : Int) :
    ({ st with thisEpochReward := reward } : State).rewardTheta = st.rewardTheta := rfl

end State

namespace Invariant

variable {st : State}

theorem setReward (inv : Invariant st) (reward : Int) :
    Invariant { st with thisEpochReward := reward } :=
  ⟨inv.covered, inv.gapBelow, inv.powerPositive, inv.timeNonneg, inv.epochDefined,
    inv.baselineNonneg⟩

/-- An epoch with a reward keeps the invariant and does not lower the interpolated time. -/
theorem updateToNextEpochWithReward (inv : Invariant st) {currRealizedPower : Int}
    (nonneg : 0 ≤ currRealizedPower) {fuel : Nat} {result : State}
    (ran : st.updateToNextEpochWithReward currRealizedPower fuel = some result) :
    Invariant result ∧ ∃ theta theta', st.rewardTheta = some theta ∧
      result.rewardTheta = some theta' ∧ theta ≤ theta' := by
  obtain ⟨st', reward, updated, rfl⟩ := State.updateToNextEpochWithReward_eq_some ran
  obtain ⟨after, -, monotone⟩ := inv.updateToNextEpoch nonneg updated
  exact ⟨after.setReward reward, by simpa using monotone⟩

end Invariant

/-! ## Every call ends -/

namespace Invariant

variable {st : State}

/-- From a state that keeps the invariant, an update ends once the fuel passes a bound. -/
theorem updateToNextEpoch_terminates (inv : Invariant st) (currRealizedPower : Int) :
    ∃ (bound : Nat) (st' : State), ∀ fuel, bound < fuel →
      st.updateToNextEpoch currRealizedPower fuel = some st' := by
  obtain ⟨turns, -, run⟩ := State.updateToNextEpoch_terminates inv.powerPositive currRealizedPower
  exact ⟨turns, _, run⟩

/-- From a state that keeps the invariant, an epoch with a reward ends once the fuel passes a
bound, and computing the reward does not panic. -/
theorem updateToNextEpochWithReward_terminates (inv : Invariant st) {currRealizedPower : Int}
    (nonneg : 0 ≤ currRealizedPower) :
    ∃ (bound : Nat) (result : State), ∀ fuel, bound < fuel →
      st.updateToNextEpochWithReward currRealizedPower fuel = some result := by
  obtain ⟨turns, -, run⟩ := State.updateToNextEpoch_terminates inv.powerPositive currRealizedPower
  obtain ⟨after, epochIs, -⟩ := inv.updateToNextEpoch nonneg (run (turns + 1) (by omega))
  obtain ⟨prevTheta, prevIs, prevNonneg, -, -⟩ := inv.rewardTheta_spec
  obtain ⟨currTheta, currIs, currNonneg, -, -⟩ := after.rewardTheta_spec
  have epochNonneg : 0 ≤ (State.catchUpStep^[turns] (st.startEpoch currRealizedPower)).epoch := by
    have := inv.epochDefined
    omega
  obtain ⟨reward, rewardIs⟩ := computeReward_isSome epochNonneg prevNonneg currNonneg
    (State.catchUpStep^[turns] (st.startEpoch currRealizedPower)).simpleTotal
    (State.catchUpStep^[turns] (st.startEpoch currRealizedPower)).baselineTotal
  let reached := State.catchUpStep^[turns] (st.startEpoch currRealizedPower)
  refine ⟨turns, { reached with thisEpochReward := reward }, fun fuel enough => ?_⟩
  simp only [State.updateToNextEpochWithReward, prevIs, run fuel enough, currIs, rewardIs,
    Option.bind_eq_bind, Option.bind_some, Option.pure_def]
  rfl

end Invariant

/-! ## Runs -/

theorem initial_invariant : Invariant State.initial := by
  refine ⟨le_refl 0, by decide, by decide, le_refl 0, le_refl _, ?_⟩
  show 0 ≤ initBaselinePower
  exact shiftRight_nonneg (Int.tdiv_nonneg (by decide) (by decide))

/-- `State::new` with a non-negative power ends, in a state that keeps the invariant. -/
theorem new_terminates {currRealizedPower : Int} (nonneg : 0 ≤ currRealizedPower) :
    ∃ (bound : Nat) (first : State), ∀ fuel, bound < fuel →
      State.new currRealizedPower fuel = some first :=
  initial_invariant.updateToNextEpochWithReward_terminates nonneg

/-- The calls that move the reward actor to its next epoch, with a non-negative realized power:
a null round, or an epoch with a reward. -/
inductive Step : State → State → Prop
  | nullRound {st st' : State} {currRealizedPower : Int} {fuel : Nat}
      (nonneg : 0 ≤ currRealizedPower)
      (ran : st.updateToNextEpoch currRealizedPower fuel = some st') : Step st st'
  | rewardEpoch {st st' : State} {currRealizedPower : Int} {fuel : Nat}
      (nonneg : 0 ≤ currRealizedPower)
      (ran : st.updateToNextEpochWithReward currRealizedPower fuel = some st') : Step st st'

/-- The states `State::new` with a non-negative power reaches, by the calls in any order. -/
def Reachable (st : State) : Prop :=
  ∃ (currRealizedPower : Int) (fuel : Nat) (first : State), 0 ≤ currRealizedPower ∧
    State.new currRealizedPower fuel = some first ∧ Relation.ReflTransGen Step first st

namespace Invariant

variable {st : State}

/-- One call keeps the invariant and does not lower the interpolated time. -/
theorem step (inv : Invariant st) {st' : State} (stepped : Step st st') :
    Invariant st' ∧ ∃ theta theta', st.rewardTheta = some theta ∧
      st'.rewardTheta = some theta' ∧ theta ≤ theta' := by
  cases stepped with
  | nullRound nonneg ran =>
    obtain ⟨after, -, monotone⟩ := inv.updateToNextEpoch nonneg ran
    exact ⟨after, monotone⟩
  | rewardEpoch nonneg ran => exact inv.updateToNextEpochWithReward nonneg ran

/-- Along a run the invariant holds and the interpolated time never goes back. -/
theorem run (inv : Invariant st) {st' : State} (ran : Relation.ReflTransGen Step st st') :
    Invariant st' ∧ ∃ theta theta', st.rewardTheta = some theta ∧
      st'.rewardTheta = some theta' ∧ theta ≤ theta' := by
  induction ran with
  | refl =>
    obtain ⟨theta, thetaIs, -⟩ := inv.rewardTheta_spec
    exact ⟨inv, theta, theta, thetaIs, thetaIs, le_refl theta⟩
  | tail _ stepped inductionHypothesis =>
    obtain ⟨before, theta, theta', thetaIs, thetaIs', grown⟩ := inductionHypothesis
    obtain ⟨after, middle, theta'', middleIs, thetaIs'', grownAgain⟩ := before.step stepped
    rw [thetaIs'] at middleIs
    cases middleIs
    exact ⟨after, theta, theta'', thetaIs, thetaIs'', Int.le_trans grown grownAgain⟩

theorem of_reachable (reachable : Reachable st) : Invariant st := by
  obtain ⟨currRealizedPower, fuel, first, nonneg, created, ran⟩ := reachable
  have firstInvariant := (initial_invariant.updateToNextEpochWithReward nonneg created).1
  exact (firstInvariant.run ran).1

end Invariant

/-- From `State::new` with a non-negative power, through any calls with non-negative powers:
every call ends, the realized sum is covered by less than one baseline step, the interpolated time
lies in the last step, and it never goes back. -/
theorem reward_baseline_laws :
    (∀ currRealizedPower : Int, 0 ≤ currRealizedPower →
      ∃ (bound : Nat) (first : State), ∀ fuel, bound < fuel →
        State.new currRealizedPower fuel = some first) ∧
    ∀ st : State, Reachable st →
      (∀ currRealizedPower : Int, 0 ≤ currRealizedPower →
        (∃ (bound : Nat) (st' : State), ∀ fuel, bound < fuel →
          st.updateToNextEpoch currRealizedPower fuel = some st') ∧
        (∃ (bound : Nat) (st' : State), ∀ fuel, bound < fuel →
          st.updateToNextEpochWithReward currRealizedPower fuel = some st')) ∧
      0 ≤ st.cumsumBaseline - st.cumsumRealized ∧
      st.cumsumBaseline - st.cumsumRealized < st.effectiveBaselinePower ∧
      (0 < st.effectiveNetworkTime → ∃ theta,
        computeRTheta st.effectiveNetworkTime st.effectiveBaselinePower st.cumsumRealized
          st.cumsumBaseline = some theta ∧
        (st.effectiveNetworkTime - 1) * 2 ^ precision < theta ∧
        theta ≤ st.effectiveNetworkTime * 2 ^ precision) ∧
      ∀ st' : State, Relation.ReflTransGen Step st st' →
        ∃ theta theta', st.rewardTheta = some theta ∧ st'.rewardTheta = some theta' ∧
          theta ≤ theta' := by
  refine ⟨fun _ nonneg => new_terminates nonneg, fun st reachable => ?_⟩
  have inv := Invariant.of_reachable reachable
  refine ⟨fun _ nonneg => ⟨inv.updateToNextEpoch_terminates _,
    inv.updateToNextEpochWithReward_terminates nonneg⟩, Int.sub_nonneg_of_le inv.covered,
    inv.gapBelow, ?_,
    fun _ ran => (inv.run ran).2⟩
  intro timePositive
  obtain ⟨theta, thetaIs, -, upper, lower⟩ := inv.rewardTheta_spec
  exact ⟨theta, thetaIs, lower (by omega), upper⟩

/-- `State::new` with a realized power of 1 takes one turn of the catch-up loop, to an effective
network time of 1, where the interpolated time lies in its first step; a reward epoch with the
same power follows, and the interpolated time does not go back. -/
theorem reward_baseline_laws_catch_up :
    ∃ first second : State, State.new 1 2 = some first ∧
      first.updateToNextEpochWithReward 1 2 = some second ∧
      first.effectiveNetworkTime = 1 ∧
      (∃ theta, first.rewardTheta = some theta ∧ 0 < theta ∧ theta ≤ 2 ^ precision) ∧
      ∃ theta theta', first.rewardTheta = some theta ∧ second.rewardTheta = some theta' ∧
        theta ≤ theta' := by
  obtain ⟨first, second, created, stepped, time⟩ : ∃ first second : State,
      State.new 1 2 = some first ∧ first.updateToNextEpochWithReward 1 2 = some second ∧
        first.effectiveNetworkTime = 1 := ⟨_, _, rfl, rfl, rfl⟩
  have reachable : Reachable first := ⟨1, 2, first, by decide, created, .refl⟩
  obtain ⟨-, -, -, bounds, monotone⟩ := reward_baseline_laws.2 first reachable
  obtain ⟨theta, thetaIs, lower, upper⟩ := bounds (by rw [time]; decide)
  rw [time] at lower upper
  refine ⟨first, second, created, stepped, time,
    ⟨theta, thetaIs, by simpa using lower, by simpa using upper⟩, ?_⟩
  exact monotone second (.single (.rewardEpoch (by decide) stepped))

end Forest.Reward
