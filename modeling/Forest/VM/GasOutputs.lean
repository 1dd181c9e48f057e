import Forest.Lib.I64
import Forest.Blocks.Header
import Mathlib.Tactic.Linarith
import Mathlib.Tactic.Ring

/-!
# Gas outputs and their settlement

`compute_gas_outputs` splits the gas a message paid for, `fee_cap * gas_limit`, into the base
fee burn, the miner tip, the over-estimation burn and the refund to the sender, and computes a
penalty charged to the miner.  `VM::apply_message` then deposits the four parts and checks that
they add up to the gas cost it took from the sender.

Token amounts are `BigInt`s; the gas counts are `i64`, and the over-estimation rule multiplies
`gas_used` by 11 in `i64`, which wraps in a release build.  The refund is defined as a
remainder: it is not negative because the base fee is paid on `gas_used + gas_burned`, which
is at most `gas_limit`.
-/

namespace Forest.VM

open Forest.Blocks

/-- `GAS_OVERUSE_NUM`. -/
def gasOveruseNum : Int := 11

/-- `GAS_OVERUSE_DENOM`. -/
def gasOveruseDenom : Int := 10

/-- The split of the paid gas. -/
structure GasOutputs where
  baseFeeBurn : Int
  overEstimationBurn : Int
  minerPenalty : Int
  minerTip : Int
  refund : Int
  gasRefund : Int
  gasBurned : Int
  deriving DecidableEq, Repr

/-- The gas to refund and the gas to burn for over-estimating the limit.  `none` is the panic of
`i64::try_from(gas_to_burn).unwrap()`. -/
def computeGasOverestimationBurn (gasUsed gasLimit : Int) : Option (Int × Int) :=
  if gasUsed = 0 then some (0, gasLimit)
  else
    let overGas := I64.wrappingSub gasLimit
      ((I64.wrappingMul gasOveruseNum gasUsed).tdiv gasOveruseDenom)
    if overGas < 0 then some (I64.wrappingSub gasLimit gasUsed, 0)
    else
      let overGas := if overGas > gasUsed then gasUsed else overGas
      -- the product and the quotient are `BigInt`s
      let gasToBurn := (I64.wrappingSub gasLimit gasUsed * overGas).tdiv gasUsed
      (I64.tryFrom gasToBurn).map fun gasToBurn =>
        (I64.wrappingSub (I64.wrappingSub gasLimit gasUsed) gasToBurn, gasToBurn)

/-- `compute_gas_outputs`. -/
def computeGasOutputs (gasUsed gasLimit baseFee feeCap gasPremium : Int)
    (chargeNetworkFee : Bool) : Option GasOutputs := do
  let baseFeeToPay := if baseFee > feeCap then feeCap else baseFee
  let minerPenalty := if baseFee > feeCap then (baseFee - feeCap) * gasUsed else 0
  -- if charge network fee is disabled the base fee burn is skipped
  let baseFeeBurn := if chargeNetworkFee then baseFeeToPay * gasUsed else 0
  let minerTip := if baseFeeToPay + gasPremium > feeCap then feeCap - baseFeeToPay else gasPremium
  let (gasRefund, gasBurned) ← computeGasOverestimationBurn gasUsed gasLimit
  let overEstimationBurn := if gasBurned ≠ 0 then baseFeeToPay * gasBurned else 0
  let minerPenalty :=
    if gasBurned ≠ 0 then minerPenalty + (baseFee - baseFeeToPay) * gasBurned else minerPenalty
  let requiredFunds := feeCap * gasLimit
  let refund := requiredFunds - baseFeeBurn - minerTip * gasLimit - overEstimationBurn
  pure {
    baseFeeBurn := baseFeeBurn
    overEstimationBurn := overEstimationBurn
    minerPenalty := minerPenalty
    minerTip := minerTip * gasLimit
    refund := refund
    gasRefund := gasRefund
    gasBurned := gasBurned }

/-- `BURNT_FUNDS_ACTOR_ADDR`. -/
def burntFundsActorAddr : Address := .id 99

/-- `REWARD_ACTOR_ADDR`. -/
def rewardActorAddr : Address := .id 2

/-- The `transfer_to_actor` closure of `apply_message`, on the balances of the actors. -/
def transferToActor (balances : Address → Int) (addr : Address) (amt : Int) :
    Except String (Address → Int) :=
  if amt < 0 then .error "attempted to transfer negative value into actor"
  else if amt = 0 then .ok balances
  else .ok (Function.update balances addr (balances addr + amt))

/-- The settlement at the end of `apply_message`, after the sender paid `gas_cost`. -/
def settleGas (balances : Address → Int) (sender : Address) (out : GasOutputs) (gasCost : Int) :
    Except String (Address → Int) := do
  let balances ← transferToActor balances burntFundsActorAddr out.baseFeeBurn
  let balances ← transferToActor balances rewardActorAddr out.minerTip
  let balances ← transferToActor balances burntFundsActorAddr out.overEstimationBurn
  -- refund unused gas
  let balances ← transferToActor balances sender out.refund
  if out.baseFeeBurn + out.overEstimationBurn + out.refund + out.minerTip ≠ gasCost then
    .error "Gas handling math is wrong"
  else .ok balances

/-- The deposits of the settlement, in order. -/
def gasTransfers (sender : Address) (out : GasOutputs) : List (Address × Int) :=
  [(burntFundsActorAddr, out.baseFeeBurn), (rewardActorAddr, out.minerTip),
    (burntFundsActorAddr, out.overEstimationBurn), (sender, out.refund)]

/-- What a list of deposits adds to one address. -/
def creditOf (transfers : List (Address × Int)) (addr : Address) : Int :=
  ((transfers.filter fun transfer => transfer.1 = addr).map Prod.snd).sum

/-! ## The over-estimation burn -/

section Overestimation

variable {gasUsed gasLimit : Int}

/-- The burn is `(gas_limit - gas_used) * over / gas_used` for some `over` in `[0, gas_used]`;
whatever `over` the wrapped `11 * gas_used` gives, the burn stays within the unused gas. -/
theorem burn_le_unused {overGas : Int} (usedPositive : 0 < gasUsed) (usedLe : gasUsed ≤ gasLimit)
    (overNonneg : 0 ≤ overGas) (overLe : overGas ≤ gasUsed) :
    0 ≤ ((gasLimit - gasUsed) * overGas).tdiv gasUsed ∧
      ((gasLimit - gasUsed) * overGas).tdiv gasUsed ≤ gasLimit - gasUsed := by
  have productNonneg : 0 ≤ (gasLimit - gasUsed) * overGas := Int.mul_nonneg (by omega) overNonneg
  rw [Int.tdiv_eq_ediv_of_nonneg productNonneg]
  refine ⟨Int.ediv_nonneg productNonneg usedPositive.le, Int.ediv_le_of_le_mul usedPositive ?_⟩
  exact Int.mul_le_mul_of_nonneg_left overLe (by omega)

/-- The refund and the burn are not negative and add up with the used gas to the limit. -/
theorem computeGasOverestimationBurn_spec (limitFits : gasLimit < 2 ^ 63) (usedNonneg : 0 ≤ gasUsed)
    (usedLe : gasUsed ≤ gasLimit) :
    ∃ gasRefund gasBurned, computeGasOverestimationBurn gasUsed gasLimit = some (gasRefund, gasBurned) ∧
      0 ≤ gasRefund ∧ 0 ≤ gasBurned ∧ gasRefund + gasBurned + gasUsed = gasLimit := by
  have unused : I64.wrappingSub gasLimit gasUsed = gasLimit - gasUsed :=
    I64.wrappingSub_of_inRange ⟨by omega, by omega⟩
  unfold computeGasOverestimationBurn
  split
  · rename_i unusedAll
    exact ⟨0, gasLimit, rfl, le_refl 0, by omega, by omega⟩
  · rename_i usedNonzero
    -- `over` below is whatever the wrapped arithmetic gives; only its sign is read
    generalize I64.wrappingSub gasLimit ((I64.wrappingMul gasOveruseNum gasUsed).tdiv gasOveruseDenom)
      = overGas
    dsimp only
    split
    · exact ⟨_, 0, rfl, by omega, le_refl 0, by omega⟩
    · rename_i overNonneg
      have clamped : 0 ≤ (if overGas > gasUsed then gasUsed else overGas) ∧
          (if overGas > gasUsed then gasUsed else overGas) ≤ gasUsed := by
        split <;> omega
      obtain ⟨burnNonneg, burnLe⟩ := burn_le_unused (by omega) usedLe clamped.1 clamped.2
      simp only [unused]
      rw [I64.tryFrom_of_inRange ⟨by omega, by omega⟩, Option.map_some,
        I64.wrappingSub_of_inRange ⟨by omega, by omega⟩]
      exact ⟨_, _, rfl, by omega, burnNonneg, by omega⟩

end Overestimation

/-! ## Conservation -/

theorem transferToActor_of_nonneg (balances : Address → Int) (addr : Address) {amt : Int}
    (nonneg : 0 ≤ amt) :
    transferToActor balances addr amt =
      .ok fun other => balances other + if other = addr then amt else 0 := by
  unfold transferToActor
  rw [if_neg (by omega)]
  split
  · rename_i zero
    congr 1
    funext other
    split <;> omega
  · congr 1
    funext other
    by_cases same : other = addr
    · simp [same]
    · simp [same]

/-- A settlement of parts that are not negative and add up to the gas cost deposits each part
where `gasTransfers` says. -/
theorem settleGas_of_nonneg (balances : Address → Int) (sender : Address) {out : GasOutputs}
    {gasCost : Int} (baseFeeBurnNonneg : 0 ≤ out.baseFeeBurn) (minerTipNonneg : 0 ≤ out.minerTip)
    (overEstimationBurnNonneg : 0 ≤ out.overEstimationBurn) (refundNonneg : 0 ≤ out.refund)
    (adds : out.baseFeeBurn + out.overEstimationBurn + out.refund + out.minerTip = gasCost) :
    settleGas balances sender out gasCost =
      .ok fun addr => balances addr + creditOf (gasTransfers sender out) addr := by
  simp only [settleGas, transferToActor_of_nonneg _ _ baseFeeBurnNonneg,
    transferToActor_of_nonneg _ _ minerTipNonneg,
    transferToActor_of_nonneg _ _ overEstimationBurnNonneg,
    transferToActor_of_nonneg _ _ refundNonneg, adds, ne_eq, not_true_eq_false, if_false, bind,
    Except.bind]
  congr 1
  funext addr
  simp only [creditOf, gasTransfers]
  by_cases burnt : burntFundsActorAddr = addr <;> by_cases reward : rewardActorAddr = addr <;>
    by_cases refunded : sender = addr <;>
    simp [burnt, reward, refunded, eq_comm (a := addr)] <;> ring

/-- The gas is split into parts that are not negative and add up to what the sender paid, and
the settlement deposits exactly those parts: neither check of `apply_message` fires. -/
theorem gasSettlement_conserves {gasUsed gasLimit baseFee feeCap gasPremium : Int}
    (chargeNetworkFee : Bool) (limitPositive : 0 < gasLimit) (limitFits : gasLimit < 2 ^ 63)
    (usedNonneg : 0 ≤ gasUsed) (usedLe : gasUsed ≤ gasLimit) (baseFeeNonneg : 0 ≤ baseFee)
    (premiumNonneg : 0 ≤ gasPremium) (premiumLe : gasPremium ≤ feeCap) :
    ∃ out, computeGasOutputs gasUsed gasLimit baseFee feeCap gasPremium chargeNetworkFee = some out ∧
      0 ≤ out.baseFeeBurn ∧ 0 ≤ out.overEstimationBurn ∧ 0 ≤ out.minerTip ∧ 0 ≤ out.refund ∧
      0 ≤ out.minerPenalty ∧
      out.baseFeeBurn + out.overEstimationBurn + out.minerTip + out.refund = feeCap * gasLimit ∧
      out.gasRefund + out.gasBurned + gasUsed = gasLimit ∧ 0 ≤ out.gasBurned ∧ 0 ≤ out.gasRefund ∧
      ∀ (balances : Address → Int) (sender : Address),
        settleGas balances sender out (feeCap * gasLimit) =
            .ok (fun addr => balances addr + creditOf (gasTransfers sender out) addr) ∧
          ((gasTransfers sender out).map Prod.snd).sum = feeCap * gasLimit := by
  obtain ⟨gasRefund, gasBurned, burned, refundNonneg, burnedNonneg, gasSum⟩ :=
    computeGasOverestimationBurn_spec limitFits usedNonneg usedLe
  simp only [computeGasOutputs, burned]
  refine ⟨_, rfl, ?_⟩
  -- the base fee paid is `min(base_fee, fee_cap)` and the tip per gas at most what is left
  generalize payEq : (if baseFee > feeCap then feeCap else baseFee) = pay
  have payBounds : 0 ≤ pay ∧ pay ≤ feeCap ∧ pay ≤ baseFee := by
    rw [← payEq]
    split <;> omega
  generalize tipEq : (if pay + gasPremium > feeCap then feeCap - pay else gasPremium) = tip
  have tipBounds : 0 ≤ tip ∧ tip ≤ feeCap - pay := by
    rw [← tipEq]
    split <;> omega
  generalize burnEq : (if chargeNetworkFee = true then pay * gasUsed else 0) = baseFeeBurn
  have burnBounds : 0 ≤ baseFeeBurn ∧ baseFeeBurn ≤ pay * gasUsed := by
    rw [← burnEq]
    have := Int.mul_nonneg payBounds.1 usedNonneg
    split <;> omega
  generalize overEq : (if gasBurned ≠ 0 then pay * gasBurned else 0) = overEstimationBurn
  have overBurned : overEstimationBurn = pay * gasBurned := by
    rw [← overEq]
    split
    · rfl
    · rename_i zero
      rw [not_not.mp zero, Int.mul_zero]
  have penaltyNonneg : 0 ≤ (if gasBurned ≠ 0 then
      (if baseFee > feeCap then (baseFee - feeCap) * gasUsed else 0) + (baseFee - pay) * gasBurned
      else if baseFee > feeCap then (baseFee - feeCap) * gasUsed else 0) := by
    have before : 0 ≤ (if baseFee > feeCap then (baseFee - feeCap) * gasUsed else 0) := by
      split
      · exact Int.mul_nonneg (by omega) usedNonneg
      · exact le_refl 0
    have burnedPart := Int.mul_nonneg (by omega : 0 ≤ baseFee - pay) burnedNonneg
    split <;> omega
  -- the refund is what the base fee on the refunded gas leaves
  have tipPaid : tip * gasLimit ≤ (feeCap - pay) * gasLimit :=
    Int.mul_le_mul_of_nonneg_right tipBounds.2 limitPositive.le
  have refundedGas : 0 ≤ pay * gasRefund := Int.mul_nonneg payBounds.1 refundNonneg
  have unpaid : pay * gasRefund = pay * gasLimit - pay * gasUsed - pay * gasBurned := by
    rw [← gasSum]
    ring
  have spread : (feeCap - pay) * gasLimit = feeCap * gasLimit - pay * gasLimit := by ring
  have refundNonneg' : 0 ≤ feeCap * gasLimit - baseFeeBurn - tip * gasLimit - overEstimationBurn := by
    rw [overBurned]
    linarith [burnBounds.2]
  have tipNonneg : 0 ≤ tip * gasLimit := Int.mul_nonneg tipBounds.1 limitPositive.le
  have overNonneg : 0 ≤ overEstimationBurn := overBurned ▸ Int.mul_nonneg payBounds.1 burnedNonneg
  refine ⟨burnBounds.1, overNonneg, tipNonneg, refundNonneg', penaltyNonneg, by ring, gasSum,
    burnedNonneg, refundNonneg, fun balances sender => ⟨?_, ?_⟩⟩
  · exact settleGas_of_nonneg balances sender burnBounds.1 tipNonneg overNonneg refundNonneg'
      (by ring)
  · simp only [gasTransfers, List.map_cons, List.map_nil, List.sum_cons, List.sum_nil]
    ring

/-- Half of a limit of 10 used at a base fee of 2, a fee cap of 3 and a premium of 1. -/
theorem gasSettlement_conserves_half_used :
    ∃ out, computeGasOutputs 5 10 2 3 1 true = some out ∧
      0 ≤ out.baseFeeBurn ∧ 0 ≤ out.overEstimationBurn ∧ 0 ≤ out.minerTip ∧ 0 ≤ out.refund ∧
      0 ≤ out.minerPenalty ∧
      out.baseFeeBurn + out.overEstimationBurn + out.minerTip + out.refund = 3 * 10 ∧
      out.gasRefund + out.gasBurned + 5 = 10 ∧ 0 ≤ out.gasBurned ∧ 0 ≤ out.gasRefund ∧
      ∀ (balances : Address → Int) (sender : Address),
        settleGas balances sender out (3 * 10) =
            .ok (fun addr => balances addr + creditOf (gasTransfers sender out) addr) ∧
          ((gasTransfers sender out).map Prod.snd).sum = 3 * 10 :=
  gasSettlement_conserves true (by decide) (by decide) (by decide) (by decide) (by decide)
    (by decide) (by decide)

end Forest.VM
