import Forest.Chain.ChainStore
import Forest.Lib.I64
import Forest.Lib.FirstOccurrence

/-!
# The base fee of the next tipset

`compute_base_fee` adds up the gas limits of the distinct messages of a tipset and moves the
parent base fee towards the gas target: by at most an eighth of it, never below the minimum.
`compute_next_base_fee` works out the move in `i64` arithmetic, which wraps in a release
build and panics on a division by zero, and then scales the fee exactly with `BigInt`s.

Within the range where the `i64` arithmetic neither wraps nor divides by zero (`DeltaFits`),
the move is the gas quotient less the target, capped at the target (`computeNextBaseFee_eq`);
the bounds and the monotonicity in the gas used follow from that form.  `UPGRADE_SMOKE_HEIGHT`
is the main network's.  The seen set of `compute_base_fee` is a list of CIDs, and the CID of a
message is any function of it that may fail as `cid()` may.
-/

namespace Forest.Chain

open Forest.Blocks Forest.Message FirstOccurrence

/-- `BLOCK_GAS_TARGET`: half the block gas limit. -/
def blockGasTarget : Int := blockGasLimit / 2

/-- `BASE_FEE_MAX_CHANGE_DENOM`: the change is at most an eighth of the fee. -/
def baseFeeMaxChangeDenom : Int := 8

/-- `INITIAL_BASE_FEE`: the genesis base fee. -/
def initialBaseFee : Int := 100000000

/-- `PACKING_EFFICIENCY_DENOM`. -/
def packingEfficiencyDenom : Int := 5

/-- `PACKING_EFFICIENCY_NUM`. -/
def packingEfficiencyNum : Int := 4

/-- `MINIMUM_BASE_FEE`. -/
def minimumBaseFee : Int := 100

/-- `UPGRADE_SMOKE_HEIGHT` of the main network. -/
def upgradeSmokeHeight : Int := 51000

/-- How `compute_base_fee` ends when it returns no fee: an `Err`, or a panic of the `i64`
division. -/
inductive Failure where
  | error (e : Error)
  | panic (message : String)
  deriving DecidableEq, Repr

/-- `compute_next_base_fee`. -/
def computeNextBaseFee (baseFee gasLimitUsed : Int) (noOfBlocks : Nat) (epoch : Int) :
    Except Failure Int := do
  let quotient ← Except.mapError Failure.panic
    (if epoch > upgradeSmokeHeight then
      I64.checkedDiv gasLimitUsed (I64.ofUsize noOfBlocks)
    else
      -- the denominator and numerator are flipped on purpose, to match go
      I64.checkedDiv (I64.wrappingMul packingEfficiencyDenom gasLimitUsed)
        (I64.wrappingMul (I64.ofUsize noOfBlocks) packingEfficiencyNum))
  let delta := I64.wrappingSub quotient blockGasTarget
  -- limit the absolute change at the block gas target; `abs` wraps at `i64::MIN`
  let delta :=
    if I64.wrap |delta| > blockGasTarget then
      if delta > 0 then blockGasTarget else -blockGasTarget
    else delta
  -- cap the change at 12.5% by capping the delta
  let change := ((baseFee * delta).fdiv blockGasTarget).fdiv baseFeeMaxChangeDenom
  let nextBaseFee := baseFee + change
  return if nextBaseFee < minimumBaseFee then minimumBaseFee else nextBaseFee

/-- A case of the source's `run_base_fee_tests`: one and a half block gas limits over two
blocks, before and after the smoke upgrade. -/
example : computeNextBaseFee 100000000 (blockGasLimit * 15 / 10) 2 (upgradeSmokeHeight - 1) =
    .ok 110937500 := rfl

example : computeNextBaseFee 100000000 (blockGasLimit * 15 / 10) 2 (upgradeSmokeHeight + 1) =
    .ok 106250000 := rfl

/-- The loop of `compute_base_fee` over the messages of a block: a message whose CID is not in
`seen` adds its gas limit to the total, and its CID to `seen`.  The total is an `i64`, and its
`+=` wraps in a release build. -/
def addUniqueGasLimits (cid : ChainMessage → Except Error Cid) :
    Int × List Cid → List ChainMessage → Except Error (Int × List Cid)
  | state, [] => .ok state
  | (totalLimit, seen), m :: rest => do
    let mCid ← cid m
    if mCid ∈ seen then
      addUniqueGasLimits cid (totalLimit, seen) rest
    else
      addUniqueGasLimits cid (I64.wrappingAdd totalLimit m.message.gasLimit, mCid :: seen) rest

/-- The loop of `compute_base_fee` over the blocks: the BLS messages of each, then its secp
messages. -/
def uniqueGasLimitLoop
    (blockMessages : BlockHeader → Except Error (List UnsignedMessage × List SignedMessage))
    (cid : ChainMessage → Except Error Cid) :
    Int × List Cid → List BlockHeader → Except Error (Int × List Cid)
  | state, [] => .ok state
  | state, header :: rest => do
    let (msg1, msg2) ← blockMessages header
    let state ← addUniqueGasLimits cid state (msg1.map .unsigned)
    let state ← addUniqueGasLimits cid state (msg2.map .signed)
    uniqueGasLimitLoop blockMessages cid state rest

/-- `compute_base_fee`, with `blockMessages` the store's `block_messages` and `cid` the
messages' `cid()`. -/
def computeBaseFee
    (blockMessages : BlockHeader → Except Error (List UnsignedMessage × List SignedMessage))
    (cid : ChainMessage → Except Error Cid) (tipset : Tipset) : Except Failure Int := do
  let (totalLimit, _) ←
    (uniqueGasLimitLoop blockMessages cid (0, []) tipset.headers).mapError Failure.error
  let parentBaseFee := (tipset.headers.head tipset.nonempty).parentBaseFee
  computeNextBaseFee parentBaseFee totalLimit tipset.headers.length tipset.epoch

/-! ## The move of the fee

Where the `i64` arithmetic stays in range, the delta is the gas quotient less the target,
capped at the target from above; it is never below minus the target, since the quotient is not
negative.  The fee then moves by an eighth of the fee times the delta's share of the target. -/

/-- The `i64` arithmetic of `compute_next_base_fee` neither wraps nor divides by zero: the gas
used is an `i64`, the block count fits one, and before the smoke upgrade so do five times the
gas and four times the block count. -/
def DeltaFits (gasLimitUsed : Int) (noOfBlocks : Nat) (epoch : Int) : Prop :=
  gasLimitUsed < 2 ^ 63 ∧ noOfBlocks < 2 ^ 63 ∧
    (epoch ≤ upgradeSmokeHeight → 5 * gasLimitUsed < 2 ^ 63 ∧ 4 * noOfBlocks < 2 ^ 63)

instance (gasLimitUsed : Int) (noOfBlocks : Nat) (epoch : Int) :
    Decidable (DeltaFits gasLimitUsed noOfBlocks epoch) :=
  inferInstanceAs (Decidable (_ ∧ _ ∧ _))

/-- The gas quotient the fee moves by: the gas per block, or before the smoke upgrade a quarter
more. -/
def gasQuotient (gasLimitUsed : Int) (noOfBlocks : Nat) (epoch : Int) : Int :=
  if epoch > upgradeSmokeHeight then gasLimitUsed / noOfBlocks
  else packingEfficiencyDenom * gasLimitUsed / (noOfBlocks * packingEfficiencyNum)

/-- The fee after a move by `delta` of gas against the target, never below the minimum. -/
def nextBaseFeeOf (baseFee delta : Int) : Int :=
  max minimumBaseFee (baseFee + baseFee * delta / blockGasTarget / baseFeeMaxChangeDenom)

section InRange

variable {gasLimitUsed : Int} {noOfBlocks : Nat} {epoch : Int}

theorem gasQuotient_nonneg (used : 0 ≤ gasLimitUsed) : 0 ≤ gasQuotient gasLimitUsed noOfBlocks epoch := by
  unfold gasQuotient packingEfficiencyDenom packingEfficiencyNum
  split
  · exact Int.ediv_nonneg used (Int.natCast_nonneg _)
  · exact Int.ediv_nonneg (by omega) (by omega)

theorem gasQuotient_lt (fits : DeltaFits gasLimitUsed noOfBlocks epoch) (used : 0 ≤ gasLimitUsed) :
    gasQuotient gasLimitUsed noOfBlocks epoch < 2 ^ 63 := by
  obtain ⟨usedFits, -, scaledFits⟩ := fits
  unfold gasQuotient packingEfficiencyDenom packingEfficiencyNum
  split
  · exact lt_of_le_of_lt (Int.ediv_le_self _ used) usedFits
  · rename_i early
    have scaled := (scaledFits (by omega)).1
    exact lt_of_le_of_lt (Int.ediv_le_self _ (by omega)) scaled

/-- In range, the `i64` division computes the gas quotient. -/
theorem quotient_eq (fits : DeltaFits gasLimitUsed noOfBlocks epoch) (used : 0 ≤ gasLimitUsed)
    (blocks : 1 ≤ noOfBlocks) :
    Except.mapError Failure.panic
      (if epoch > upgradeSmokeHeight then
        I64.checkedDiv gasLimitUsed (I64.ofUsize noOfBlocks)
      else
        I64.checkedDiv (I64.wrappingMul packingEfficiencyDenom gasLimitUsed)
          (I64.wrappingMul (I64.ofUsize noOfBlocks) packingEfficiencyNum)) =
      .ok (gasQuotient gasLimitUsed noOfBlocks epoch) := by
  obtain ⟨usedFits, blocksFit, scaledFits⟩ := fits
  have blockCount : I64.ofUsize noOfBlocks = noOfBlocks := if_pos blocksFit
  unfold gasQuotient
  split
  · rw [blockCount, I64.checkedDiv_of_pos used (by omega)]
    rfl
  · rename_i early
    obtain ⟨scaledGas, scaledBlocks⟩ := scaledFits (by omega)
    have gas : I64.wrappingMul packingEfficiencyDenom gasLimitUsed =
        packingEfficiencyDenom * gasLimitUsed :=
      I64.wrap_of_inRange ⟨by unfold packingEfficiencyDenom; omega,
        by unfold packingEfficiencyDenom; omega⟩
    have count : I64.wrappingMul (I64.ofUsize noOfBlocks) packingEfficiencyNum =
        noOfBlocks * packingEfficiencyNum := by
      rw [blockCount]
      exact I64.wrap_of_inRange ⟨by unfold packingEfficiencyNum; omega,
        by unfold packingEfficiencyNum; omega⟩
    rw [gas, count, I64.checkedDiv_of_pos (by unfold packingEfficiencyDenom; omega)
      (by unfold packingEfficiencyNum; omega)]
    rfl

/-- For a quotient in range, the capped delta is the quotient less the target, at most the
target. -/
theorem cappedDelta_eq {quotient : Int} (nonneg : 0 ≤ quotient) (fits : quotient < 2 ^ 63) :
    (if I64.wrap |I64.wrappingSub quotient blockGasTarget| > blockGasTarget then
      if I64.wrappingSub quotient blockGasTarget > 0 then blockGasTarget else -blockGasTarget
    else I64.wrappingSub quotient blockGasTarget) =
      min blockGasTarget (quotient - blockGasTarget) := by
  have target : blockGasTarget = 5000000000 := rfl
  have delta : I64.wrappingSub quotient blockGasTarget = quotient - blockGasTarget :=
    I64.wrappingSub_of_inRange ⟨by omega, by omega⟩
  have magnitude : I64.wrap |quotient - blockGasTarget| = |quotient - blockGasTarget| :=
    I64.wrap_of_inRange ⟨by rw [abs_eq_max_neg]; omega, by rw [abs_eq_max_neg]; omega⟩
  rw [delta, magnitude, abs_eq_max_neg]
  split
  · split <;> omega
  · omega

/-- The exact scaling of the fee, and the floor at the minimum. -/
theorem scaledFee_eq (baseFee delta : Int) :
    (let nextBaseFee := baseFee +
        ((baseFee * delta).fdiv blockGasTarget).fdiv baseFeeMaxChangeDenom
      if nextBaseFee < minimumBaseFee then minimumBaseFee else nextBaseFee) =
      nextBaseFeeOf baseFee delta := by
  rw [Int.fdiv_eq_ediv_of_nonneg _ (by decide), Int.fdiv_eq_ediv_of_nonneg _ (by decide),
    nextBaseFeeOf]
  dsimp only
  split <;> omega

/-- In range, `compute_next_base_fee` moves the fee by the gas quotient less the target, capped
at the target. -/
theorem computeNextBaseFee_eq (baseFee : Int) (fits : DeltaFits gasLimitUsed noOfBlocks epoch)
    (used : 0 ≤ gasLimitUsed) (blocks : 1 ≤ noOfBlocks) :
    computeNextBaseFee baseFee gasLimitUsed noOfBlocks epoch =
      .ok (nextBaseFeeOf baseFee
        (min blockGasTarget (gasQuotient gasLimitUsed noOfBlocks epoch - blockGasTarget))) := by
  rw [computeNextBaseFee, quotient_eq fits used blocks]
  simp only [bind, Except.bind, pure, Except.pure]
  rw [cappedDelta_eq (gasQuotient_nonneg used) (gasQuotient_lt fits used), scaledFee_eq]

end InRange

/-! ## How far the fee moves -/

section Move

variable {baseFee : Int}

/-- The fee grows with the delta. -/
theorem nextBaseFeeOf_mono (nonneg : 0 ≤ baseFee) {delta delta' : Int} (le : delta ≤ delta') :
    nextBaseFeeOf baseFee delta ≤ nextBaseFeeOf baseFee delta' := by
  have scaled : baseFee * delta ≤ baseFee * delta' := Int.mul_le_mul_of_nonneg_left le nonneg
  have moved : baseFee * delta / blockGasTarget / baseFeeMaxChangeDenom ≤
      baseFee * delta' / blockGasTarget / baseFeeMaxChangeDenom :=
    Int.ediv_le_ediv (by decide) (Int.ediv_le_ediv (by decide) scaled)
  unfold nextBaseFeeOf
  omega

/-- A delta of the whole target raises the fee by the floor of an eighth. -/
theorem nextBaseFeeOf_target :
    nextBaseFeeOf baseFee blockGasTarget = max minimumBaseFee (baseFee + baseFee / 8) := by
  rw [nextBaseFeeOf, Int.mul_ediv_cancel _ (by decide)]
  rfl

/-- A delta of minus the target lowers the fee by the ceiling of an eighth. -/
theorem nextBaseFeeOf_neg_target :
    nextBaseFeeOf baseFee (-blockGasTarget) = max minimumBaseFee (baseFee - (baseFee + 7) / 8) := by
  have cancel : baseFee * -blockGasTarget / blockGasTarget = -baseFee := by
    rw [Int.mul_neg, ← Int.neg_mul, Int.mul_ediv_cancel _ (by decide)]
  rw [nextBaseFeeOf, cancel]
  unfold baseFeeMaxChangeDenom
  omega

theorem nextBaseFeeOf_zero : nextBaseFeeOf baseFee 0 = max minimumBaseFee baseFee := by
  simp [nextBaseFeeOf]

/-- A delta within the target moves the fee by at most an eighth either way, and never below
the minimum. -/
theorem nextBaseFeeOf_bounds (atLeastMinimum : minimumBaseFee ≤ baseFee) {delta : Int}
    (above : -blockGasTarget ≤ delta) (below : delta ≤ blockGasTarget) :
    max minimumBaseFee (baseFee - (baseFee + 7) / 8) ≤ nextBaseFeeOf baseFee delta ∧
      nextBaseFeeOf baseFee delta ≤ baseFee + baseFee / 8 ∧
      minimumBaseFee ≤ nextBaseFeeOf baseFee delta := by
  have nonneg : 0 ≤ baseFee := le_trans (by decide) atLeastMinimum
  have lowest := nextBaseFeeOf_mono nonneg above
  have highest := nextBaseFeeOf_mono nonneg below
  rw [nextBaseFeeOf_neg_target] at lowest
  rw [nextBaseFeeOf_target] at highest
  have raised : max minimumBaseFee (baseFee + baseFee / 8) = baseFee + baseFee / 8 := by
    have eighth : 0 ≤ baseFee / 8 := Int.ediv_nonneg nonneg (by decide)
    exact max_eq_right (by omega)
  refine ⟨lowest, raised ▸ highest, ?_⟩
  exact le_max_left _ _

end Move

/-- Five quarters of the gas per block grows with the gas. -/
theorem gasQuotient_mono {gasLimitUsed gasLimitUsed' : Int} (le : gasLimitUsed ≤ gasLimitUsed')
    (noOfBlocks : Nat) (epoch : Int) :
    gasQuotient gasLimitUsed noOfBlocks epoch ≤ gasQuotient gasLimitUsed' noOfBlocks epoch := by
  unfold gasQuotient packingEfficiencyDenom packingEfficiencyNum
  split
  · rcases Nat.eq_zero_or_pos noOfBlocks with none | some
    · simp [none]
    · exact Int.ediv_le_ediv (by omega) le
  · rcases Nat.eq_zero_or_pos noOfBlocks with none | some
    · simp [none]
    · exact Int.ediv_le_ediv (by omega) (by omega)

theorem DeltaFits.of_le {gasLimitUsed gasLimitUsed' : Int} {noOfBlocks : Nat} {epoch : Int}
    (fits : DeltaFits gasLimitUsed' noOfBlocks epoch) (le : gasLimitUsed ≤ gasLimitUsed') : DeltaFits gasLimitUsed noOfBlocks epoch := by
  obtain ⟨usedFits, blocksFit, scaledFits⟩ := fits
  refine ⟨by omega, blocksFit, ?_⟩
  intro early
  obtain ⟨scaledGas, scaledBlocks⟩ := scaledFits early
  exact ⟨by omega, scaledBlocks⟩

/-! ## The gas of a tipset

The seen set of `compute_base_fee` makes it count the first message of each CID, over the BLS
and then the secp messages of each block in turn. -/

section Loop

variable (key : ChainMessage → Cid)

/-- The messages of the blocks in the order `compute_base_fee` visits them. -/
def tipsetMessages (blsOf : BlockHeader → List UnsignedMessage)
    (secpOf : BlockHeader → List SignedMessage) (headers : List BlockHeader) : List ChainMessage :=
  headers.flatMap fun header => (blsOf header).map .unsigned ++ (secpOf header).map .signed

@[simp]
theorem tipsetMessages_cons (blsOf : BlockHeader → List UnsignedMessage)
    (secpOf : BlockHeader → List SignedMessage) (header : BlockHeader) (rest : List BlockHeader) :
    tipsetMessages blsOf secpOf (header :: rest) =
      (blsOf header).map .unsigned ++ (secpOf header).map .signed ++
        tipsetMessages blsOf secpOf rest := by
  simp [tipsetMessages]

/-- The loop over the messages of a block adds the gas limits of those whose CID is new, as one
wrapped `i64` sum: wrapping each partial sum changes nothing modulo `2 ^ 64`. -/
theorem addUniqueGasLimits_eq {totalLimit : Int} (inRange : I64.InRange totalLimit)
    (seen : List Cid) (msgs : List ChainMessage) :
    addUniqueGasLimits (fun m => .ok (key m)) (totalLimit, seen) msgs =
      .ok (I64.wrap (totalLimit + ((firstByKey key seen msgs).map (·.message.gasLimit)).sum),
        (firstByKey key seen msgs).reverse.map key ++ seen) := by
  induction msgs generalizing totalLimit seen with
  | nil => simp [addUniqueGasLimits, I64.wrap_of_inRange inRange]
  | cons m rest inductionHypothesis =>
    rw [addUniqueGasLimits, firstByKey_cons]
    by_cases wasSeen : key m ∈ seen
    · simp only [bind, Except.bind, wasSeen, if_true]
      exact inductionHypothesis inRange seen
    · simp only [bind, Except.bind, wasSeen, if_false,
        inductionHypothesis (I64.inRange_wrap _), I64.wrappingAdd, I64.wrap_wrap_add]
      simp [Int.add_assoc]

/-- The loop over the blocks adds the gas limits of the first message of each new CID. -/
theorem uniqueGasLimitLoop_eq
    (blockMessages : BlockHeader → Except Error (List UnsignedMessage × List SignedMessage))
    (blsOf : BlockHeader → List UnsignedMessage) (secpOf : BlockHeader → List SignedMessage) :
    ∀ (headers : List BlockHeader), (∀ header ∈ headers,
      blockMessages header = .ok (blsOf header, secpOf header)) → ∀ totalLimit seen,
    I64.InRange totalLimit →
    uniqueGasLimitLoop blockMessages (fun m => .ok (key m)) (totalLimit, seen) headers =
      .ok (I64.wrap (totalLimit +
          ((firstByKey key seen (tipsetMessages blsOf secpOf headers)).map
            (·.message.gasLimit)).sum),
        (firstByKey key seen (tipsetMessages blsOf secpOf headers)).reverse.map key ++ seen) := by
  intro headers
  induction headers with
  | nil =>
    intro _ totalLimit seen inRange
    simp [uniqueGasLimitLoop, tipsetMessages, I64.wrap_of_inRange inRange]
  | cons header rest inductionHypothesis =>
    intro loads totalLimit seen inRange
    have loaded := loads header List.mem_cons_self
    have restLoads := fun later member => loads later (List.mem_cons_of_mem header member)
    -- the BLS messages, then the secp messages, then the later blocks with the CIDs seen so far
    rw [tipsetMessages_cons, firstByKey_append, firstByKey_append]
    simp only [uniqueGasLimitLoop, loaded, bind, Except.bind, addUniqueGasLimits_eq key inRange,
      addUniqueGasLimits_eq key (I64.inRange_wrap _),
      inductionHypothesis restLoads _ _ (I64.inRange_wrap _), I64.wrap_wrap_add]
    simp [List.reverse_append, Int.add_assoc, List.append_assoc]

end Loop

/-- Where its `i64` arithmetic stays in range, `compute_next_base_fee` keeps a fee of at least
the minimum within an eighth of itself (the floor of an eighth up, the ceiling down) and at
least the minimum, grows with the gas used, and after the smoke upgrade keeps the fee when the
gas per block is the target; `compute_base_fee` counts the gas of the first message of each
distinct CID once, in a total that wraps as an `i64`. -/
theorem base_fee_update_bounds :
    (∀ (baseFee gasLimitUsed : Int) (noOfBlocks : Nat) (epoch : Int),
      minimumBaseFee ≤ baseFee → 0 ≤ gasLimitUsed → 1 ≤ noOfBlocks →
      DeltaFits gasLimitUsed noOfBlocks epoch →
      ∃ next, computeNextBaseFee baseFee gasLimitUsed noOfBlocks epoch = .ok next ∧
        max minimumBaseFee (baseFee - (baseFee + 7) / 8) ≤ next ∧
        next ≤ baseFee + baseFee / 8 ∧ minimumBaseFee ≤ next) ∧
    (∀ (baseFee gasLimitUsed gasLimitUsed' : Int) (noOfBlocks : Nat) (epoch : Int),
      minimumBaseFee ≤ baseFee → 0 ≤ gasLimitUsed → gasLimitUsed ≤ gasLimitUsed' →
      1 ≤ noOfBlocks → DeltaFits gasLimitUsed' noOfBlocks epoch →
      ∃ next next', computeNextBaseFee baseFee gasLimitUsed noOfBlocks epoch = .ok next ∧
        computeNextBaseFee baseFee gasLimitUsed' noOfBlocks epoch = .ok next' ∧ next ≤ next') ∧
    (∀ (baseFee gasLimitUsed : Int) (noOfBlocks : Nat) (epoch : Int),
      minimumBaseFee ≤ baseFee → 0 ≤ gasLimitUsed → gasLimitUsed < 2 ^ 63 → 1 ≤ noOfBlocks →
      upgradeSmokeHeight < epoch → gasLimitUsed / noOfBlocks = blockGasTarget →
      computeNextBaseFee baseFee gasLimitUsed noOfBlocks epoch = .ok baseFee) ∧
    (∀ (blockMessages : BlockHeader → Except Error (List UnsignedMessage × List SignedMessage))
      (key : ChainMessage → Cid) (blsOf : BlockHeader → List UnsignedMessage)
      (secpOf : BlockHeader → List SignedMessage) (tipset : Tipset),
      (∀ header ∈ tipset.headers, blockMessages header = .ok (blsOf header, secpOf header)) →
      ((firstByKey key [] (tipsetMessages blsOf secpOf tipset.headers)).map key).Nodup ∧
      (∀ m ∈ tipsetMessages blsOf secpOf tipset.headers,
        key m ∈ (firstByKey key [] (tipsetMessages blsOf secpOf tipset.headers)).map key) ∧
      (firstByKey key [] (tipsetMessages blsOf secpOf tipset.headers)).Sublist
        (tipsetMessages blsOf secpOf tipset.headers) ∧
      computeBaseFee blockMessages (fun m => .ok (key m)) tipset =
        computeNextBaseFee (tipset.headers.head tipset.nonempty).parentBaseFee
          (I64.wrap ((firstByKey key [] (tipsetMessages blsOf secpOf tipset.headers)).map
            (·.message.gasLimit)).sum)
          tipset.headers.length tipset.epoch) := by
  refine ⟨?_, ?_, ?_, ?_⟩
  · intro baseFee gasLimitUsed noOfBlocks epoch atLeastMinimum used blocks fits
    have quotient := @gasQuotient_nonneg gasLimitUsed noOfBlocks epoch used
    have target : blockGasTarget = 5000000000 := rfl
    refine ⟨_, computeNextBaseFee_eq baseFee fits used blocks, ?_⟩
    exact nextBaseFeeOf_bounds atLeastMinimum (by omega) (min_le_left _ _)
  · intro baseFee gasLimitUsed gasLimitUsed' noOfBlocks epoch atLeastMinimum used le blocks fits
    have nonneg : 0 ≤ baseFee := le_trans (by decide) atLeastMinimum
    have smaller := gasQuotient_mono le noOfBlocks epoch
    refine ⟨_, _, computeNextBaseFee_eq baseFee (fits.of_le le) used blocks,
      computeNextBaseFee_eq baseFee fits (le_trans used le) blocks, ?_⟩
    exact nextBaseFeeOf_mono nonneg (min_le_min_left _ (by omega))
  · intro baseFee gasLimitUsed noOfBlocks epoch atLeastMinimum used usedFits blocks late onTarget
    -- a block count above the gas would make the quotient zero, not the target
    have blocksFit : (noOfBlocks : Int) ≤ gasLimitUsed := by
      by_contra more
      rw [Int.ediv_eq_zero_of_lt used (by omega)] at onTarget
      exact absurd onTarget (by decide)
    have fits : DeltaFits gasLimitUsed noOfBlocks epoch :=
      ⟨usedFits, by omega, fun early => absurd early (by omega)⟩
    have quotient : gasQuotient gasLimitUsed noOfBlocks epoch = blockGasTarget := by
      rw [gasQuotient, if_pos late, onTarget]
    rw [computeNextBaseFee_eq baseFee fits used blocks, quotient, Int.sub_self,
      min_eq_right (by decide), nextBaseFeeOf_zero, max_eq_right atLeastMinimum]
  · intro blockMessages key blsOf secpOf tipset loads
    obtain ⟨distinct, -⟩ := @nodup_keys_firstByKey _ _ _ key []
      (tipsetMessages blsOf secpOf tipset.headers)
    refine ⟨distinct, ?_, firstByKey_sublist _ _, ?_⟩
    · intro m member
      rcases @key_mem_firstByKey _ _ _ key [] _ m member with seen | kept
      · cases seen
      · exact kept
    · have zeroInRange : I64.InRange 0 := by decide
      simp only [computeBaseFee, uniqueGasLimitLoop_eq key blockMessages blsOf secpOf
        tipset.headers loads 0 [] zeroInRange, Except.mapError, bind, Except.bind, Int.zero_add]

/-- The source's test of a full target after the smoke upgrade: the genesis fee is kept. -/
theorem base_fee_update_bounds_on_target :
    computeNextBaseFee initialBaseFee blockGasTarget 1 (upgradeSmokeHeight + 1) =
      .ok initialBaseFee :=
  base_fee_update_bounds.2.2.1 initialBaseFee blockGasTarget 1 (upgradeSmokeHeight + 1)
    (by decide) (by decide) (by decide) (by decide) (by decide) (by decide)

/-- Before the smoke upgrade, five times the gas used wraps past `i64::MAX` one unit of gas
later: the genesis fee, raised by an eighth at the lower gas, is lowered by an eighth at the
higher. -/
theorem next_base_fee_wraps_before_smoke :
    computeNextBaseFee initialBaseFee 1844674407370955161 1 0 = .ok 112500000 ∧
      computeNextBaseFee initialBaseFee 1844674407370955162 1 0 = .ok 87500000 :=
  ⟨rfl, rfl⟩

end Forest.Chain
