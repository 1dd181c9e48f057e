import Mathlib
import Forest.Lib.SortedMap
import Forest.Lib.Result

/-!
# The storage power actor's claims and totals

The power actor keeps each miner's claimed power in a HAMT keyed by the miner's address, and
beside it five running numbers: the raw and quality-adjusted power committed by all claims, the
same two over the claims that meet the consensus minimum of their proof type, and how many
claims meet it.  `add_to_claim` moves the committed totals by the deltas, and the above-minimum
ones by a case on whether the claim crosses its minimum; `create_miner` stores a zero claim and
counts it when the minimum is not positive; `delete_claim` subtracts the whole claim through
`add_to_claim` and then removes it.  The model keeps the HAMT's contents as a sorted map (its
traversal order plays no part: only sums are taken) and the fields of the state these calls
read or write.

A call runs inside `rt.transaction`, which commits the state only when the call returns, so a
failed call leaves the state as it was; `add_to_claim` changes the committed totals before its
checks, which matters only where a caller goes on after an error (`cron_tick`, below).
Messages leave out the address they print.  The proof types' minimum is the default build's.
-/

namespace Forest.Power

open Forest

/-- `RegisteredPoStProof`: the proof types, and the code of an unsupported one. -/
inductive RegisteredPoStProof where
  | stackedDRGWinning2KiBV1
  | stackedDRGWinning8MiBV1
  | stackedDRGWinning512MiBV1
  | stackedDRGWinning32GiBV1
  | stackedDRGWinning64GiBV1
  | stackedDRGWindow2KiBV1
  | stackedDRGWindow8MiBV1
  | stackedDRGWindow512MiBV1
  | stackedDRGWindow32GiBV1
  | stackedDRGWindow64GiBV1
  | invalid (code : Int)
  deriving DecidableEq, Repr

/-- `consensus_miner_min_power`: 10 TiB for every supported proof type on the default build
(neither `devnet` nor `interopnet`). -/
def consensusMinerMinPower : RegisteredPoStProof → Except String Int
  | .invalid code => .error s!"unsupported proof type: {code}"
  | _ => .ok (10 * 2 ^ 40)

/-- `CONSENSUS_MINER_MIN_MINERS`. -/
def consensusMinerMinMiners : Int := 4

/-- A miner's claimed power. -/
structure Claim where
  windowPostProofType : RegisteredPoStProof
  rawBytePower : Int
  qualityAdjPower : Int
  deriving DecidableEq, Repr

/-- The exit codes the power actor raises here. -/
inductive ExitCode where
  | errNotFound
  | errIllegalState
  deriving DecidableEq, Repr

/-- An actor error: its exit code and message. -/
structure ActorError where
  exitCode : ExitCode
  msg : String
  deriving DecidableEq, Repr

/-- A boxed error: an actor error, or any other error by its text. -/
inductive BoxError where
  | actor (error : ActorError)
  | other (text : String)
  deriving DecidableEq, Repr

/-- `ActorError::wrap`: prefix the message. -/
def ActorError.wrap (error : ActorError) (msg : String) : ActorError :=
  { error with msg := msg ++ ": " ++ error.msg }

/-- `downcast_default`: keep an actor error (wrapped), make any other one an actor error with
the default exit code. -/
def BoxError.downcastDefault (error : BoxError) (defaultExitCode : ExitCode) (msg : String) :
    ActorError :=
  match error with
  | .actor error => error.wrap msg
  | .other text => ⟨defaultExitCode, msg ++ ": " ++ text⟩

/-- `downcast_wrap`: wrap the message without changing an exit code. -/
def BoxError.downcastWrap (error : BoxError) (msg : String) : BoxError :=
  match error with
  | .actor error => .actor (error.wrap msg)
  | .other text => .other (msg ++ ": " ++ text)

variable {κ : Type} [LinearOrder κ]

/-- The fields of the power actor's state that the claim calls read and write. -/
structure State (κ : Type) [LinearOrder κ] where
  totalRawBytePower : Int
  totalBytesCommitted : Int
  totalQualityAdjPower : Int
  totalQaBytesCommitted : Int
  minerCount : Int
  minerAboveMinPowerCount : Int
  claims : SortedMap κ Claim

/-- The calls change the state and may fail. -/
abbrev PowerM (κ : Type) [LinearOrder κ] (ε α : Type) := EStateM ε (State κ) α

namespace State

/-- `State::new`: no claims and every total zero. -/
def new : State κ := ⟨0, 0, 0, 0, 0, 0, SortedMap.empty⟩

/-- The committed totals move by the deltas, whatever the claim. -/
def commitDeltas (state : State κ) (power qaPower : Int) : State κ :=
  { state with
    totalQaBytesCommitted := state.totalQaBytesCommitted + qaPower
    totalBytesCommitted := state.totalBytesCommitted + power }

/-- The branch of `add_to_claim` on the minimum: a claim that passes it adds all of its new
power and is counted, one that drops below takes all of its old power away and is no longer
counted, one that stays above moves by the deltas, one that stays below changes nothing.
`BigInt::checked_sub` never fails, so its `expect`s never panic. -/
def updateAboveMin (state : State κ) (prevBelow stillBelow : Bool) (oldClaim newClaim : Claim)
    (power qaPower : Int) : State κ :=
  if prevBelow && !stillBelow then
    { state with
      minerAboveMinPowerCount := state.minerAboveMinPowerCount + 1
      totalQualityAdjPower := state.totalQualityAdjPower + newClaim.qualityAdjPower
      totalRawBytePower := state.totalRawBytePower + newClaim.rawBytePower }
  else if !prevBelow && stillBelow then
    { state with
      minerAboveMinPowerCount := state.minerAboveMinPowerCount - 1
      totalQualityAdjPower := state.totalQualityAdjPower - oldClaim.qualityAdjPower
      totalRawBytePower := state.totalRawBytePower - oldClaim.rawBytePower }
  else if !prevBelow && !stillBelow then
    { state with
      totalQualityAdjPower := state.totalQualityAdjPower + qaPower
      totalRawBytePower := state.totalRawBytePower + power }
  else state

/-- `current_total_power`: the committed totals while fewer than
`CONSENSUS_MINER_MIN_MINERS` miners meet their minimum, the above-minimum totals after. -/
def currentTotalPower (state : State κ) : Int × Int :=
  if state.minerAboveMinPowerCount < consensusMinerMinMiners then
    (state.totalBytesCommitted, state.totalQaBytesCommitted)
  else
    (state.totalRawBytePower, state.totalQualityAdjPower)

end State

/-- `State::add_to_claim`. -/
def addToClaim (miner : κ) (power qaPower : Int) : PowerM κ BoxError Unit := do
  let some oldClaim := (← get).claims.get? miner
    | throw (.actor ⟨.errNotFound, "no claim for actor"⟩)
  modify (·.commitDeltas power qaPower)
  let newClaim : Claim := { oldClaim with
    rawBytePower := oldClaim.rawBytePower + power
    qualityAdjPower := oldClaim.qualityAdjPower + qaPower }
  let minPower ← liftExcept ((consensusMinerMinPower oldClaim.windowPostProofType).mapError
    BoxError.other)
  let prevBelow := decide (oldClaim.rawBytePower < minPower)
  let stillBelow := decide (newClaim.rawBytePower < minPower)
  modify (·.updateAboveMin prevBelow stillBelow oldClaim newClaim power qaPower)
  if newClaim.rawBytePower < 0 then
    throw (.actor ⟨.errIllegalState,
      s!"negative claimed raw byte power: {newClaim.rawBytePower}"⟩)
  if newClaim.qualityAdjPower < 0 then
    throw (.actor ⟨.errIllegalState,
      s!"negative claimed quality adjusted power: {newClaim.qualityAdjPower}"⟩)
  let count := (← get).minerAboveMinPowerCount
  if count < 0 then
    throw (.actor ⟨.errIllegalState, s!"negative amount of miners lather than min: {count}"⟩)
  modify fun state => { state with claims := state.claims.set miner newClaim }

/-- `State::update_stats_for_new_miner`: a new miner starts above the minimum only when the
minimum is not positive. -/
def updateStatsForNewMiner (windowPostProof : RegisteredPoStProof) : PowerM κ String Unit := do
  let minPower ← liftExcept (consensusMinerMinPower windowPostProof)
  if !decide (0 < minPower) then
    modify fun state => { state with minerAboveMinPowerCount := state.minerAboveMinPowerCount + 1 }

/-- The transaction of `Actor::create_miner`, for the ID address the init actor returned. -/
def createMiner (idAddress : κ) (windowPostProofType : RegisteredPoStProof) :
    PowerM κ ActorError Unit := do
  modify fun state => { state with
    claims := state.claims.set idAddress ⟨windowPostProofType, 0, 0⟩ }
  modify fun state => { state with minerCount := state.minerCount + 1 }
  (updateStatsForNewMiner windowPostProofType).adaptExcept fun e =>
    ⟨.errIllegalState, s!"failed to update power stats for new miner: {e}"⟩

/-- The transaction of `Actor::update_claimed_power`, for the calling miner. -/
def updateClaimedPower (miner : κ) (rawByteDelta qualityAdjustedDelta : Int) :
    PowerM κ ActorError Unit :=
  (addToClaim miner rawByteDelta qualityAdjustedDelta).adaptExcept fun e =>
    e.downcastDefault .errIllegalState
      s!"failed to update power raw {rawByteDelta}, qa {qualityAdjustedDelta}"

/-- `State::delete_claim`: nothing to do without a claim; otherwise subtract the whole claim
and remove it. -/
def deleteClaim (miner : κ) : PowerM κ BoxError Unit := do
  match (← get).claims.get? miner with
  | none => pure ()
  | some claim =>
    (addToClaim miner (-claim.rawBytePower) (-claim.qualityAdjPower)).adaptExcept fun e =>
      e.downcastWrap "failed to subtract miner power before deleting claim"
    match (← get).claims.get? miner with
    | none => throw (.other "failed to delete claim for address: doesn't exist")
    | some _ => modify fun state => { state with claims := state.claims.delete miner }

/-- The end of `Actor::cron_tick`: the claims of the miners whose deferred cron event failed
are deleted one by one; a deletion that fails is logged and skipped, and what it changed before
failing stays, since the transaction around the loop returns. -/
def deleteFailedMinerClaims : List κ → State κ → State κ
  | [], state => state
  | miner :: rest, state =>
    match deleteClaim miner state with
    | .ok () state' => deleteFailedMinerClaims rest state'
    | .error _ state' => deleteFailedMinerClaims rest state'

/-! ## What each call does -/

namespace State

@[simp] theorem commitDeltas_claims (state : State κ) (power qaPower : Int) :
    (state.commitDeltas power qaPower).claims = state.claims := rfl

@[simp] theorem updateAboveMin_claims (state : State κ) (prevBelow stillBelow : Bool)
    (oldClaim newClaim : Claim) (power qaPower : Int) :
    (state.updateAboveMin prevBelow stillBelow oldClaim newClaim power qaPower).claims =
      state.claims := by
  unfold updateAboveMin
  split_ifs <;> rfl

@[simp] theorem updateAboveMin_totalBytesCommitted (state : State κ) (prevBelow stillBelow : Bool)
    (oldClaim newClaim : Claim) (power qaPower : Int) :
    (state.updateAboveMin prevBelow stillBelow oldClaim newClaim power qaPower).totalBytesCommitted =
      state.totalBytesCommitted := by
  unfold updateAboveMin
  split_ifs <;> rfl

@[simp] theorem updateAboveMin_totalQaBytesCommitted (state : State κ) (prevBelow stillBelow : Bool)
    (oldClaim newClaim : Claim) (power qaPower : Int) :
    (state.updateAboveMin prevBelow stillBelow oldClaim newClaim power qaPower).totalQaBytesCommitted =
      state.totalQaBytesCommitted := by
  unfold updateAboveMin
  split_ifs <;> rfl

end State

/-- Everything a successful `add_to_claim` does: the miner had a claim of a supported proof
type, the new claim is not negative, neither is the count after the minimum's branch, and the
new claim is stored. -/
theorem addToClaim_eq_ok {state state' : State κ} {miner : κ} {power qaPower : Int}
    (ran : addToClaim miner power qaPower state = .ok () state') :
    ∃ oldClaim minPower, state.claims.get? miner = some oldClaim ∧
      consensusMinerMinPower oldClaim.windowPostProofType = .ok minPower ∧
      0 ≤ oldClaim.rawBytePower + power ∧ 0 ≤ oldClaim.qualityAdjPower + qaPower ∧
      let newClaim : Claim := { oldClaim with
        rawBytePower := oldClaim.rawBytePower + power
        qualityAdjPower := oldClaim.qualityAdjPower + qaPower }
      let counted := (state.commitDeltas power qaPower).updateAboveMin
        (decide (oldClaim.rawBytePower < minPower)) (decide (newClaim.rawBytePower < minPower))
        oldClaim newClaim power qaPower
      0 ≤ counted.minerAboveMinPowerCount ∧
        state' = { counted with claims := state.claims.set miner newClaim } := by
  unfold addToClaim at ran
  simp only [EStateM.get_bind] at ran
  cases found : state.claims.get? miner with
  | none => simp [found] at ran
  | some oldClaim =>
    cases minFound : consensusMinerMinPower oldClaim.windowPostProofType with
    | error failure => simp [found, minFound, Except.mapError] at ran
    | ok minPower =>
      simp only [found, minFound, Except.mapError, EStateM.modify_bind, EStateM.liftExcept_ok,
        EStateM.pure_bind] at ran
      -- each check that fails throws; past all three the claim is stored
      by_cases rawNegative : oldClaim.rawBytePower + power < 0
      · simp [rawNegative] at ran
      by_cases qaNegative : oldClaim.qualityAdjPower + qaPower < 0
      · simp [rawNegative, qaNegative] at ran
      refine ⟨oldClaim, minPower, rfl, minFound, by omega, by omega, ?_⟩
      intro newClaim counted
      by_cases countNegative : counted.minerAboveMinPowerCount < 0
      · simp [rawNegative, qaNegative, countNegative, counted, newClaim] at ran
      simp only [rawNegative, qaNegative, countNegative, counted, newClaim, if_false,
        EStateM.get_bind, EStateM.modify_apply, EStateM.Result.ok.injEq, true_and,
        State.updateAboveMin_claims, State.commitDeltas_claims] at ran
      exact ⟨by omega, ran.symm⟩

/-- Everything a successful `create_miner` transaction does: the proof type is supported, the
zero claim is stored, and it is counted when the minimum is not positive. -/
theorem createMiner_eq_ok {state state' : State κ} {idAddress : κ} {proof : RegisteredPoStProof}
    (ran : createMiner idAddress proof state = .ok () state') :
    ∃ minPower, consensusMinerMinPower proof = .ok minPower ∧
      state' = { state with
        claims := state.claims.set idAddress ⟨proof, 0, 0⟩
        minerCount := state.minerCount + 1
        minerAboveMinPowerCount := if 0 < minPower then state.minerAboveMinPowerCount
          else state.minerAboveMinPowerCount + 1 } := by
  unfold createMiner updateStatsForNewMiner at ran
  simp only [EStateM.modify_bind, EStateM.adaptExcept_eq_ok] at ran
  cases minFound : consensusMinerMinPower proof with
  | error failure => simp [minFound] at ran
  | ok minPower =>
    refine ⟨minPower, rfl, ?_⟩
    simp only [minFound, EStateM.liftExcept_ok, EStateM.pure_bind] at ran
    by_cases positive : 0 < minPower
    · simp only [positive, decide_true, Bool.not_true, Bool.false_eq_true, if_false,
        EStateM.pure_apply, EStateM.Result.ok.injEq, true_and] at ran
      rw [if_pos positive]
      exact ran.symm
    · simp only [positive, decide_false, Bool.not_false, if_true, EStateM.modify_apply,
        EStateM.Result.ok.injEq, true_and] at ran
      rw [if_neg positive]
      exact ran.symm

/-- Everything a successful `delete_claim` does: nothing without a claim; otherwise it
subtracts the whole claim through `add_to_claim` and removes the key. -/
theorem deleteClaim_eq_ok {state state' : State κ} {miner : κ}
    (ran : deleteClaim miner state = .ok () state') :
    (state.claims.get? miner = none ∧ state' = state) ∨
      ∃ claim middle, state.claims.get? miner = some claim ∧
        addToClaim miner (-claim.rawBytePower) (-claim.qualityAdjPower) state = .ok () middle ∧
        state' = { middle with claims := middle.claims.delete miner } := by
  unfold deleteClaim at ran
  simp only [EStateM.get_bind] at ran
  cases found : state.claims.get? miner with
  | none =>
    simp only [found, EStateM.pure_apply, EStateM.Result.ok.injEq, true_and] at ran
    exact .inl ⟨rfl, ran.symm⟩
  | some claim =>
    simp only [found] at ran
    obtain ⟨⟨⟩, middle, subtracted, removed⟩ := EStateM.bind_eq_ok.mp ran
    refine .inr ⟨claim, middle, rfl, EStateM.adaptExcept_eq_ok.mp subtracted, ?_⟩
    simp only [EStateM.get_bind] at removed
    -- the second lookup finds the claim just stored; without it the call would have failed
    cases stillFound : middle.claims.get? miner with
    | none => simp [stillFound] at removed
    | some _ =>
      simp only [stillFound, EStateM.modify_apply, EStateM.Result.ok.injEq, true_and] at removed
      exact removed.symm

/-! ## What the totals mean -/

namespace Claim

/-- Whether a claim meets the consensus minimum of its proof type; a claim of an unsupported
type meets none. -/
def meetsMinimum (claim : Claim) : Bool :=
  match consensusMinerMinPower claim.windowPostProofType with
  | .ok minPower => decide (minPower ≤ claim.rawBytePower)
  | .error _ => false

/-- A measure of a claim, counted only when the claim meets its minimum. -/
def aboveMin (measure : Claim → Int) (claim : Claim) : Int :=
  if claim.meetsMinimum then measure claim else 0

/-- A claim as the table may hold it: no negative power, and a supported proof type. -/
structure WellFormed (claim : Claim) : Prop where
  rawNonneg : 0 ≤ claim.rawBytePower
  qaNonneg : 0 ≤ claim.qualityAdjPower
  supported : ∃ minPower, consensusMinerMinPower claim.windowPostProofType = .ok minPower

theorem meetsMinimum_of_minPower {claim : Claim} {minPower : Int}
    (minFound : consensusMinerMinPower claim.windowPostProofType = .ok minPower) :
    claim.meetsMinimum = decide (minPower ≤ claim.rawBytePower) := by
  simp only [meetsMinimum, minFound]

end Claim

/-- Every supported proof type has a positive minimum. -/
theorem consensusMinerMinPower_pos {proof : RegisteredPoStProof} {minPower : Int}
    (minFound : consensusMinerMinPower proof = .ok minPower) : 0 < minPower := by
  unfold consensusMinerMinPower at minFound
  split at minFound
  · cases minFound
  · cases minFound
    decide

/-- A claim with no power adds nothing above the minimum. -/
theorem Claim.aboveMin_of_zero {claim : Claim} (wellFormed : claim.WellFormed)
    (rawZero : claim.rawBytePower = 0) (measure : Claim → Int) : claim.aboveMin measure = 0 := by
  obtain ⟨minPower, minFound⟩ := wellFormed.supported
  have positive := consensusMinerMinPower_pos minFound
  have notMeeting : claim.meetsMinimum = false := by
    rw [Claim.meetsMinimum_of_minPower minFound, decide_eq_false_iff_not]
    omega
  simp [Claim.aboveMin, notMeeting]

/-- The sum of a measure over the stored claims. -/
def sumClaims (measure : Claim → Int) (claims : SortedMap κ Claim) : Int :=
  (claims.entries.map fun entry => measure entry.2).sum

section Sums

variable {claims : SortedMap κ Claim} {key : κ}

@[simp] theorem sumClaims_empty (measure : Claim → Int) :
    sumClaims measure (SortedMap.empty : SortedMap κ Claim) = 0 := rfl

theorem sumClaims_set_of_get? {old : Claim} (present : claims.get? key = some old)
    (measure : Claim → Int) (value : Claim) :
    sumClaims measure (claims.set key value) = sumClaims measure claims - measure old + measure value := by
  have split := SortedMap.sum_eq_add_delete present fun entry => measure entry.2
  have stored := SortedMap.sum_set claims key value fun entry => measure entry.2
  dsimp only at split stored
  unfold sumClaims
  omega

theorem sumClaims_set_of_get?_eq_none (absent : claims.get? key = none) (measure : Claim → Int)
    (value : Claim) : sumClaims measure (claims.set key value) = sumClaims measure claims + measure value := by
  have stored := SortedMap.sum_set claims key value fun entry => measure entry.2
  rw [SortedMap.delete_of_get?_eq_none absent] at stored
  dsimp only at stored
  unfold sumClaims
  omega

theorem sumClaims_delete {old : Claim} (present : claims.get? key = some old) (measure : Claim → Int) :
    sumClaims measure (claims.delete key) = sumClaims measure claims - measure old := by
  have split := SortedMap.sum_eq_add_delete present fun entry => measure entry.2
  dsimp only at split
  unfold sumClaims
  omega

/-- A stored claim's share of a sum of non-negative measures is at most the sum. -/
theorem le_sumClaims {old : Claim} (present : claims.get? key = some old) {measure : Claim → Int}
    (nonneg : ∀ claim, 0 ≤ measure claim) : measure old ≤ sumClaims measure claims := by
  have rest : 0 ≤ sumClaims measure (claims.delete key) :=
    List.sum_nonneg fun _ member => by
      obtain ⟨entry, -, rfl⟩ := List.mem_map.mp member
      exact nonneg entry.2
  rw [sumClaims_delete present] at rest
  omega

/-- The above-minimum sum is the sum over the claims that meet their minimum. -/
theorem sumClaims_aboveMin (measure : Claim → Int) (claims : SortedMap κ Claim) :
    sumClaims (Claim.aboveMin measure) claims =
      ((claims.entries.filter fun entry => entry.2.meetsMinimum).map fun entry => measure entry.2).sum := by
  unfold sumClaims Claim.aboveMin
  rw [List.sum_map_ite]
  simp

end Sums

/-- What the running numbers of a power state mean: each is a sum over the stored claims, and
every stored claim is well formed. -/
structure Consistent (state : State κ) : Prop where
  bytesCommitted : state.totalBytesCommitted = sumClaims Claim.rawBytePower state.claims
  qaBytesCommitted : state.totalQaBytesCommitted = sumClaims Claim.qualityAdjPower state.claims
  rawBytePower : state.totalRawBytePower = sumClaims (Claim.aboveMin Claim.rawBytePower) state.claims
  qualityAdjPower :
    state.totalQualityAdjPower = sumClaims (Claim.aboveMin Claim.qualityAdjPower) state.claims
  aboveMinCount : state.minerAboveMinPowerCount = sumClaims (Claim.aboveMin fun _ => 1) state.claims
  wellFormed : ∀ {key claim}, state.claims.get? key = some claim → claim.WellFormed

/-- The minimum's branch of `add_to_claim` moves each above-minimum number by what the claim
adds to it after the call less what it added before. -/
theorem updateAboveMin_spec (state : State κ) {oldClaim : Claim} {minPower : Int}
    (minFound : consensusMinerMinPower oldClaim.windowPostProofType = .ok minPower)
    (power qaPower : Int) :
    let newClaim : Claim := { oldClaim with
      rawBytePower := oldClaim.rawBytePower + power
      qualityAdjPower := oldClaim.qualityAdjPower + qaPower }
    let counted := state.updateAboveMin (decide (oldClaim.rawBytePower < minPower))
      (decide (newClaim.rawBytePower < minPower)) oldClaim newClaim power qaPower
    counted.totalRawBytePower = state.totalRawBytePower -
        oldClaim.aboveMin Claim.rawBytePower + newClaim.aboveMin Claim.rawBytePower ∧
      counted.totalQualityAdjPower = state.totalQualityAdjPower -
        oldClaim.aboveMin Claim.qualityAdjPower + newClaim.aboveMin Claim.qualityAdjPower ∧
      counted.minerAboveMinPowerCount = state.minerAboveMinPowerCount -
        oldClaim.aboveMin (fun _ => 1) + newClaim.aboveMin (fun _ => 1) := by
  intro newClaim counted
  have oldMeets := Claim.meetsMinimum_of_minPower minFound
  have newMeets : newClaim.meetsMinimum = decide (minPower ≤ newClaim.rawBytePower) :=
    Claim.meetsMinimum_of_minPower minFound
  simp only [counted, State.updateAboveMin, Claim.aboveMin, oldMeets, newMeets, newClaim]
  by_cases wasBelow : oldClaim.rawBytePower < minPower
  · have oldOut : ¬minPower ≤ oldClaim.rawBytePower := by omega
    by_cases isBelow : oldClaim.rawBytePower + power < minPower
    · -- stays below: nothing moves
      have newOut : ¬minPower ≤ oldClaim.rawBytePower + power := by omega
      simp [wasBelow, isBelow, oldOut, newOut]
    · -- passes the minimum: the whole new claim is added and counted
      have newIn : minPower ≤ oldClaim.rawBytePower + power := by omega
      simp [wasBelow, isBelow, oldOut, newIn]
  · have oldIn : minPower ≤ oldClaim.rawBytePower := by omega
    by_cases isBelow : oldClaim.rawBytePower + power < minPower
    · -- drops below: the whole old claim is taken away and no longer counted
      have newOut : ¬minPower ≤ oldClaim.rawBytePower + power := by omega
      simp [wasBelow, isBelow, oldIn, newOut]
    · -- stays above: the deltas move the totals
      have newIn : minPower ≤ oldClaim.rawBytePower + power := by omega
      simp [wasBelow, isBelow, oldIn, newIn]
      omega

namespace Consistent

variable {state state' : State κ}

/-- A new power actor has no claims and zero totals. -/
theorem new : Consistent (State.new : State κ) where
  bytesCommitted := rfl
  qaBytesCommitted := rfl
  rawBytePower := rfl
  qualityAdjPower := rfl
  aboveMinCount := rfl
  wellFormed := by
    intro key claim found
    simp [State.new] at found

/-- A successful `add_to_claim` keeps the totals consistent with the claims. -/
theorem addToClaim (consistent : Consistent state) {miner : κ} {power qaPower : Int}
    (ran : addToClaim miner power qaPower state = .ok () state') : Consistent state' := by
  obtain ⟨oldClaim, minPower, found, minFound, rawOk, qaOk, -, rfl⟩ := addToClaim_eq_ok ran
  obtain ⟨rawMoved, qaMoved, countMoved⟩ :=
    updateAboveMin_spec (state.commitDeltas power qaPower) minFound power qaPower
  have stored := fun measure => sumClaims_set_of_get? found measure
    { oldClaim with
      rawBytePower := oldClaim.rawBytePower + power
      qualityAdjPower := oldClaim.qualityAdjPower + qaPower }
  refine ⟨?_, ?_, ?_, ?_, ?_, ?_⟩
  · simp only [State.updateAboveMin_totalBytesCommitted, stored, ← consistent.bytesCommitted]
    simp only [State.commitDeltas]
    omega
  · simp only [State.updateAboveMin_totalQaBytesCommitted, stored,
      ← consistent.qaBytesCommitted]
    simp only [State.commitDeltas]
    omega
  · simp only [rawMoved, stored, ← consistent.rawBytePower]
    rfl
  · simp only [qaMoved, stored, ← consistent.qualityAdjPower]
    rfl
  · simp only [countMoved, stored, ← consistent.aboveMinCount]
    rfl
  · intro key claim stored
    rw [SortedMap.get?_set] at stored
    split at stored
    · cases stored
      exact ⟨rawOk, qaOk, minPower, minFound⟩
    · exact consistent.wellFormed stored

/-- A successful `create_miner` for a key without a claim keeps the totals consistent: the
zero claim adds nothing to any sum but the count, and only when the minimum is not positive. -/
theorem createMiner (consistent : Consistent state) {idAddress : κ} {proof : RegisteredPoStProof}
    (absent : state.claims.get? idAddress = none)
    (ran : createMiner idAddress proof state = .ok () state') : Consistent state' := by
  obtain ⟨minPower, minFound, rfl⟩ := createMiner_eq_ok ran
  have stored := fun measure =>
    sumClaims_set_of_get?_eq_none absent measure (⟨proof, 0, 0⟩ : Claim)
  have meets : (⟨proof, 0, 0⟩ : Claim).meetsMinimum = decide (minPower ≤ 0) :=
    Claim.meetsMinimum_of_minPower minFound
  refine ⟨?_, ?_, ?_, ?_, ?_, ?_⟩
  · simp [stored, consistent.bytesCommitted]
  · simp [stored, consistent.qaBytesCommitted]
  · simp [stored, consistent.rawBytePower, Claim.aboveMin]
  · simp [stored, consistent.qualityAdjPower, Claim.aboveMin]
  · -- the zero claim is counted exactly when `update_stats_for_new_miner` counts it
    by_cases positive : 0 < minPower
    · have notMeeting : ¬minPower ≤ 0 := by omega
      simp [stored, consistent.aboveMinCount, Claim.aboveMin, meets, positive, notMeeting]
    · have meeting : minPower ≤ 0 := by omega
      simp [stored, consistent.aboveMinCount, Claim.aboveMin, meets, positive, meeting]
  · intro key claim stored
    rw [SortedMap.get?_set] at stored
    split at stored
    · cases stored
      exact ⟨le_rfl, le_rfl, minPower, minFound⟩
    · exact consistent.wellFormed stored

/-- Removing a stored claim with no power keeps the totals consistent: it adds nothing to any
of them, since every minimum is positive. -/
theorem delete_of_zero (consistent : Consistent state) {key : κ} {claim : Claim}
    (found : state.claims.get? key = some claim) (rawZero : claim.rawBytePower = 0)
    (qaZero : claim.qualityAdjPower = 0) :
    Consistent { state with claims := state.claims.delete key } := by
  have nothingAbove := Claim.aboveMin_of_zero (consistent.wellFormed found) rawZero
  have removed := fun measure => sumClaims_delete found measure
  refine ⟨?_, ?_, ?_, ?_, ?_, ?_⟩
  · simp [removed, consistent.bytesCommitted, rawZero]
  · simp [removed, consistent.qaBytesCommitted, qaZero]
  · simp [removed, consistent.rawBytePower, nothingAbove]
  · simp [removed, consistent.qualityAdjPower, nothingAbove]
  · simp [removed, consistent.aboveMinCount, nothingAbove]
  · intro other remaining stored
    rw [SortedMap.get?_delete] at stored
    split at stored
    · cases stored
    · exact consistent.wellFormed stored

/-- A successful `delete_claim` keeps the totals consistent: the claim is first brought to
zero through `add_to_claim`, and a zero claim adds nothing. -/
theorem deleteClaim (consistent : Consistent state) {miner : κ}
    (ran : deleteClaim miner state = .ok () state') : Consistent state' := by
  rcases deleteClaim_eq_ok ran with ⟨-, rfl⟩ | ⟨claim, middle, found, subtracted, rfl⟩
  · exact consistent
  · have middleConsistent := consistent.addToClaim subtracted
    obtain ⟨oldClaim, minPower, found', -, -, -, -, rfl⟩ := addToClaim_eq_ok subtracted
    have same : oldClaim = claim := Option.some.inj (found'.symm.trans found)
    subst same
    -- what is left under the key is the claim brought to zero
    have zeroed := SortedMap.get?_set state.claims miner miner
      { oldClaim with
        rawBytePower := oldClaim.rawBytePower + -oldClaim.rawBytePower
        qualityAdjPower := oldClaim.qualityAdjPower + -oldClaim.qualityAdjPower }
    rw [if_pos rfl] at zeroed
    exact middleConsistent.delete_of_zero zeroed (by simp) (by simp)

end Consistent

/-- A call that succeeds adds no key: `add_to_claim` only rewrites a stored claim. -/
theorem addToClaim_get?_eq_none {state state' : State κ} {miner : κ} {power qaPower : Int}
    (ran : addToClaim miner power qaPower state = .ok () state') {key : κ}
    (absent : state.claims.get? key = none) : state'.claims.get? key = none := by
  obtain ⟨oldClaim, -, found, -, -, -, -, rfl⟩ := addToClaim_eq_ok ran
  have differs : miner ≠ key := by
    rintro rfl
    rw [found] at absent
    cases absent
  simp [differs, absent]

/-- After a successful `add_to_claim` the miner still has a claim. -/
theorem addToClaim_stores {state state' : State κ} {miner : κ} {power qaPower : Int}
    (ran : addToClaim miner power qaPower state = .ok () state') :
    ∃ newClaim, state'.claims.get? miner = some newClaim := by
  obtain ⟨oldClaim, -, -, -, -, -, -, rfl⟩ := addToClaim_eq_ok ran
  exact ⟨_, by rw [SortedMap.get?_set, if_pos rfl]⟩

/-- `delete_claim` adds no key either. -/
theorem deleteClaim_get?_eq_none {state state' : State κ} {miner : κ}
    (ran : deleteClaim miner state = .ok () state') {key : κ}
    (absent : state.claims.get? key = none) : state'.claims.get? key = none := by
  rcases deleteClaim_eq_ok ran with ⟨-, rfl⟩ | ⟨claim, middle, -, subtracted, rfl⟩
  · exact absent
  · have middleAbsent := addToClaim_get?_eq_none subtracted absent
    simp [middleAbsent]

/-- The converse of `addToClaim_eq_ok`: with a stored claim of a supported proof type and all
three checks passing, `add_to_claim` stores the new claim. -/
theorem addToClaim_eq_ok_of {state : State κ} {miner : κ} {oldClaim : Claim} {minPower : Int}
    (found : state.claims.get? miner = some oldClaim)
    (minFound : consensusMinerMinPower oldClaim.windowPostProofType = .ok minPower)
    (power qaPower : Int) (rawOk : 0 ≤ oldClaim.rawBytePower + power) (qaOk : 0 ≤ oldClaim.qualityAdjPower + qaPower) :
    let newClaim : Claim := { oldClaim with
      rawBytePower := oldClaim.rawBytePower + power
      qualityAdjPower := oldClaim.qualityAdjPower + qaPower }
    let counted := (state.commitDeltas power qaPower).updateAboveMin
      (decide (oldClaim.rawBytePower < minPower)) (decide (newClaim.rawBytePower < minPower))
      oldClaim newClaim power qaPower
    0 ≤ counted.minerAboveMinPowerCount →
      addToClaim miner power qaPower state =
        .ok () { counted with claims := state.claims.set miner newClaim } := by
  intro newClaim counted countOk
  have rawPasses : ¬oldClaim.rawBytePower + power < 0 := by omega
  have qaPasses : ¬oldClaim.qualityAdjPower + qaPower < 0 := by omega
  have countPasses : ¬counted.minerAboveMinPowerCount < 0 := by omega
  unfold addToClaim
  simp only [EStateM.get_bind, found, minFound, Except.mapError, EStateM.modify_bind,
    EStateM.liftExcept_ok, EStateM.pure_bind]
  simp only [rawPasses, qaPasses, if_false]
  simp only [counted, newClaim] at countPasses
  simp only [countPasses, if_false, EStateM.get_bind, EStateM.modify_apply,
    State.updateAboveMin_claims, State.commitDeltas_claims]
  rfl

/-- From a consistent state `delete_claim` never fails: the claim brought to zero is not
negative, and a claim that met its minimum was counted, so the count stays non-negative. -/
theorem Consistent.deleteClaim_succeeds {state : State κ} (consistent : Consistent state)
    (miner : κ) : ∃ state', Power.deleteClaim miner state = .ok () state' := by
  cases found : state.claims.get? miner with
  | none => exact ⟨state, by simp [Power.deleteClaim, found]⟩
  | some claim =>
    have wellFormed := consistent.wellFormed found
    obtain ⟨minPower, minFound⟩ := wellFormed.supported
    have oldCounted : claim.aboveMin (fun _ => 1) ≤
        sumClaims (Claim.aboveMin fun _ => 1) state.claims :=
      le_sumClaims found fun other => by
        unfold Claim.aboveMin
        split <;> simp
    obtain ⟨-, -, countMoved⟩ := updateAboveMin_spec
      (state.commitDeltas (-claim.rawBytePower) (-claim.qualityAdjPower)) minFound
      (-claim.rawBytePower) (-claim.qualityAdjPower)
    -- the claim brought to zero is counted nowhere
    have zeroWellFormed : Claim.WellFormed
        { claim with
          rawBytePower := claim.rawBytePower + -claim.rawBytePower
          qualityAdjPower := claim.qualityAdjPower + -claim.qualityAdjPower } :=
      ⟨by simp, by simp, minPower, minFound⟩
    have zeroUncounted := Claim.aboveMin_of_zero zeroWellFormed (by simp) fun _ => 1
    have countStored := consistent.aboveMinCount
    have subtracted := addToClaim_eq_ok_of found minFound (-claim.rawBytePower)
      (-claim.qualityAdjPower) (by omega) (by omega) (by
      dsimp only [State.commitDeltas] at countMoved zeroUncounted ⊢
      omega)
    obtain ⟨middle, subtractedRun⟩ : ∃ middle, Power.addToClaim miner (-claim.rawBytePower)
        (-claim.qualityAdjPower) state = .ok () middle := ⟨_, subtracted⟩
    -- the second lookup finds the zeroed claim, which is then removed
    obtain ⟨leftover, stillFound⟩ := addToClaim_stores subtractedRun
    refine ⟨{ middle with claims := middle.claims.delete miner }, ?_⟩
    unfold Power.deleteClaim
    simp only [EStateM.get_bind, found]
    rw [EStateM.bind_apply_of_ok (EStateM.adaptExcept_apply_of_ok subtractedRun)]
    simp only [EStateM.get_bind, stillFound, EStateM.modify_apply]

/-- The end of `cron_tick` keeps the totals consistent: from a consistent state no deletion
fails, so none leaves a half-made change behind. -/
theorem Consistent.deleteFailedMinerClaims :
    ∀ (miners : List κ) {state : State κ}, Consistent state →
      Consistent (deleteFailedMinerClaims miners state)
  | [], _, consistent => consistent
  | miner :: rest, state, consistent => by
    obtain ⟨state', deleted⟩ := consistent.deleteClaim_succeeds miner
    simp only [Power.deleteFailedMinerClaims, deleted]
    exact Consistent.deleteFailedMinerClaims rest (consistent.deleteClaim deleted)

/-! ## Runs of the actor -/

/-- The power actor beside the one field of the init actor that `create_miner` depends on:
`Exec` hands out the ID address `Address::new_id(next_id)` and increments `next_id`, so the
claims are keyed by ID numbers. -/
structure System where
  nextId : Nat
  power : State Nat

/-- One successful call: `create_miner` (with the ID the init actor hands out),
`update_claimed_power` by a miner, or `delete_claim`.  A failed call changes nothing. -/
inductive Step : System → System → Prop
  | createMiner {system : System} {power' : State Nat} (windowPostProofType : RegisteredPoStProof)
      (created : createMiner system.nextId windowPostProofType system.power = .ok () power') :
      Step system ⟨system.nextId + 1, power'⟩
  | updateClaimedPower {system : System} {power' : State Nat} (miner : Nat)
      (rawByteDelta qualityAdjustedDelta : Int)
      (updated :
        updateClaimedPower miner rawByteDelta qualityAdjustedDelta system.power = .ok () power') :
      Step system ⟨system.nextId, power'⟩
  | deleteClaim {system : System} {power' : State Nat} (miner : Nat)
      (deleted : deleteClaim miner system.power = .ok () power') :
      Step system ⟨system.nextId, power'⟩

/-- The systems that runs of calls reach from a new power actor, whatever ID the init actor
hands out first. -/
def Reachable (system : System) : Prop :=
  ∃ firstId, Relation.ReflTransGen Step ⟨firstId, State.new⟩ system

namespace System

/-- What holds along every run: the totals are consistent with the claims, and no claim is
stored under an ID the init actor has yet to hand out. -/
structure Invariant (system : System) : Prop where
  consistent : Consistent system.power
  fresh : ∀ id, system.nextId ≤ id → system.power.claims.get? id = none

/-- Every call keeps the invariant. -/
theorem Invariant.step {system system' : System} (invariant : system.Invariant)
    (step : Step system system') : system'.Invariant := by
  cases step with
  | createMiner windowPostProofType created =>
    refine ⟨invariant.consistent.createMiner (invariant.fresh _ le_rfl) created, ?_⟩
    intro id later
    change system.nextId + 1 ≤ id at later
    obtain ⟨-, -, rfl⟩ := createMiner_eq_ok created
    have differs : system.nextId ≠ id := by omega
    simp [differs, invariant.fresh id (by omega)]
  | updateClaimedPower miner rawByteDelta qualityAdjustedDelta updated =>
    have added := EStateM.adaptExcept_eq_ok.mp updated
    exact ⟨invariant.consistent.addToClaim added,
      fun id later => addToClaim_get?_eq_none added (invariant.fresh id later)⟩
  | deleteClaim miner deleted =>
    exact ⟨invariant.consistent.deleteClaim deleted,
      fun id later => deleteClaim_get?_eq_none deleted (invariant.fresh id later)⟩

/-- The invariant holds of every reachable system, by induction on the run. -/
theorem Invariant.of_reachable {system : System} (reachable : Reachable system) :
    system.Invariant := by
  obtain ⟨firstId, run⟩ := reachable
  induction run with
  | refl => exact ⟨Consistent.new, fun id _ => rfl⟩
  | tail _ step inductionHypothesis => exact inductionHypothesis.step step

end System

/-- In every reachable power state the committed totals are the sums over all claims, the
above-minimum totals and the count are the sums and the number of the claims that meet the
minimum of their proof type, every claim is non-negative with a supported proof type, and so
`current_total_power` counts all claims while fewer than `CONSENSUS_MINER_MIN_MINERS` meet
their minimum and only those that do after. -/
theorem reachable_totals_match_claims {system : System} (reachable : Reachable system) :
    let claims := system.power.claims.entries
    let meeting := claims.filter fun entry => entry.2.meetsMinimum
    system.power.totalBytesCommitted = (claims.map fun entry => entry.2.rawBytePower).sum ∧
      system.power.totalQaBytesCommitted = (claims.map fun entry => entry.2.qualityAdjPower).sum ∧
      system.power.totalRawBytePower = (meeting.map fun entry => entry.2.rawBytePower).sum ∧
      system.power.totalQualityAdjPower = (meeting.map fun entry => entry.2.qualityAdjPower).sum ∧
      system.power.minerAboveMinPowerCount = meeting.length ∧
      (∀ entry ∈ claims, 0 ≤ entry.2.rawBytePower ∧ 0 ≤ entry.2.qualityAdjPower ∧
        ∃ minPower, consensusMinerMinPower entry.2.windowPostProofType = .ok minPower ∧
          (entry.2.meetsMinimum = true ↔ minPower ≤ entry.2.rawBytePower)) ∧
      system.power.currentTotalPower =
        if (meeting.length : Int) < consensusMinerMinMiners then
          ((claims.map fun entry => entry.2.rawBytePower).sum,
            (claims.map fun entry => entry.2.qualityAdjPower).sum)
        else
          ((meeting.map fun entry => entry.2.rawBytePower).sum,
            (meeting.map fun entry => entry.2.qualityAdjPower).sum) := by
  intro claims meeting
  have consistent := (System.Invariant.of_reachable reachable).consistent
  have committedRaw := consistent.bytesCommitted
  have committedQa := consistent.qaBytesCommitted
  have aboveRaw := consistent.rawBytePower
  have aboveQa := consistent.qualityAdjPower
  have count := consistent.aboveMinCount
  rw [sumClaims_aboveMin] at aboveRaw aboveQa count
  simp only [List.map_const', List.sum_replicate, Int.nsmul_eq_mul, mul_one] at count
  refine ⟨committedRaw, committedQa, aboveRaw, aboveQa, count, ?_, ?_⟩
  · intro entry member
    have wellFormed := consistent.wellFormed ((SortedMap.mem_entries_iff _).mp member)
    obtain ⟨minPower, minFound⟩ := wellFormed.supported
    refine ⟨wellFormed.rawNonneg, wellFormed.qaNonneg, minPower, minFound, ?_⟩
    rw [Claim.meetsMinimum_of_minPower minFound, decide_eq_true_iff]
  · unfold State.currentTotalPower
    rw [count, committedRaw, committedQa, aboveRaw, aboveQa]
    rfl

/-- A new miner given ID 100 for 32 GiB window proofs. -/
def oneMinerCreated : State Nat :=
  { (State.new : State Nat) with
    minerCount := 1
    claims := ⟨[(100, ⟨.stackedDRGWindow32GiBV1, 0, 0⟩)], by decide⟩ }

/-- The same miner after claiming 10 TiB, its minimum. -/
def oneMinerPowered : State Nat :=
  { oneMinerCreated with
    totalRawBytePower := 10 * 2 ^ 40
    totalBytesCommitted := 10 * 2 ^ 40
    totalQualityAdjPower := 10 * 2 ^ 40
    totalQaBytesCommitted := 10 * 2 ^ 40
    minerAboveMinPowerCount := 1
    claims := ⟨[(100, ⟨.stackedDRGWindow32GiBV1, 10 * 2 ^ 40, 10 * 2 ^ 40⟩)], by decide⟩ }

theorem reachable_totals_match_claims_one_miner :
    Reachable ⟨101, oneMinerPowered⟩ ∧
      let system : System := ⟨101, oneMinerPowered⟩
      let claims := system.power.claims.entries
      let meeting := claims.filter fun entry => entry.2.meetsMinimum
      system.power.totalBytesCommitted = (claims.map fun entry => entry.2.rawBytePower).sum ∧
        system.power.totalQaBytesCommitted =
          (claims.map fun entry => entry.2.qualityAdjPower).sum ∧
        system.power.totalRawBytePower = (meeting.map fun entry => entry.2.rawBytePower).sum ∧
        system.power.totalQualityAdjPower =
          (meeting.map fun entry => entry.2.qualityAdjPower).sum ∧
        system.power.minerAboveMinPowerCount = meeting.length ∧
        (∀ entry ∈ claims, 0 ≤ entry.2.rawBytePower ∧ 0 ≤ entry.2.qualityAdjPower ∧
          ∃ minPower, consensusMinerMinPower entry.2.windowPostProofType = .ok minPower ∧
            (entry.2.meetsMinimum = true ↔ minPower ≤ entry.2.rawBytePower)) ∧
        system.power.currentTotalPower =
          if (meeting.length : Int) < consensusMinerMinMiners then
            ((claims.map fun entry => entry.2.rawBytePower).sum,
              (claims.map fun entry => entry.2.qualityAdjPower).sum)
          else
            ((meeting.map fun entry => entry.2.rawBytePower).sum,
              (meeting.map fun entry => entry.2.qualityAdjPower).sum) := by
  have created :
      createMiner 100 .stackedDRGWindow32GiBV1 (State.new : State Nat) = .ok () oneMinerCreated :=
    rfl
  have updated :
      updateClaimedPower 100 (10 * 2 ^ 40) (10 * 2 ^ 40) oneMinerCreated = .ok () oneMinerPowered :=
    rfl
  have reachable : Reachable ⟨101, oneMinerPowered⟩ :=
    ⟨100, .tail (.single (.createMiner _ created)) (.updateClaimedPower _ _ _ updated)⟩
  exact ⟨reachable, reachable_totals_match_claims reachable⟩

end Forest.Power
