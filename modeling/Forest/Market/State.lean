import Mathlib
import Forest.Actor.BalanceTable

/-!
# The storage market's balances

The market actor holds every participant's funds in an escrow table and the part of them
committed to deals in a locked table, with three running totals of the locked funds by reason.
`MarketStateMutation` loads these, runs its operations and writes them back; an operation that
fails discards the mutation (`rt.transaction`), so only successful runs change the state.

The totals are `Option`s in the source, loaded as `Some` by `build()` whenever the locked table
is; every operation here runs with the locked table loaded, so the model keeps them as numbers.
Addresses are the keys of the balance tables, of any ordered type.
-/

namespace Forest.Market

open Forest.Actor

/-- The exit codes the market raises here. -/
inductive ExitCode where
  | errIllegalArgument
  | errInsufficientFunds
  | errIllegalState
  deriving DecidableEq, Repr

/-- An actor error: its exit code and message. -/
structure ActorError where
  exitCode : ExitCode
  msg : String
  deriving DecidableEq, Repr

/-- `ActorError::wrap`: prefix the message. -/
def ActorError.wrap (error : ActorError) (msg : String) : ActorError :=
  { error with msg := msg ++ ": " ++ error.msg }

/-- A boxed error: an actor error, or any other error by its text. -/
inductive BoxError where
  | actor (error : ActorError)
  | other (text : String)
  deriving DecidableEq, Repr

/-- `downcast_default`: keep an actor error (wrapped), make any other one an actor error with
the default exit code. -/
def BoxError.downcastDefault (error : BoxError) (defaultExitCode : ExitCode) (msg : String) :
    ActorError :=
  match error with
  | .actor error => error.wrap msg
  | .other text => ⟨defaultExitCode, msg ++ ": " ++ text⟩

/-- Why funds are locked. -/
inductive Reason where
  | clientCollateral
  | clientStorageFee
  | providerCollateral
  deriving DecidableEq, Repr

/-- `EPOCH_UNDEFINED`. -/
def epochUndefined : Int := -1

/-- `DEAL_UPDATES_INTERVAL`: one day of 30-second epochs. -/
def dealUpdatesInterval : Int := 2880

variable {κ : Type} [LinearOrder κ]

/-- The fields of a deal proposal that the balance operations read. -/
structure DealProposal (κ : Type) where
  client : κ
  provider : κ
  startEpoch : Int
  endEpoch : Int
  storagePricePerEpoch : Int
  providerCollateral : Int
  clientCollateral : Int
  deriving DecidableEq, Repr

/-- The state of an active deal. -/
structure DealState where
  sectorStartEpoch : Int
  lastUpdatedEpoch : Int
  slashEpoch : Int
  deriving DecidableEq, Repr

namespace DealProposal

/-- The number of epochs of the deal. -/
def duration (deal : DealProposal κ) : Int := deal.endEpoch - deal.startEpoch

/-- `storage_price_per_epoch * duration as u64`: the cast wraps a negative duration. -/
def totalStorageFee (deal : DealProposal κ) : Int :=
  deal.storagePricePerEpoch * (deal.duration % 2 ^ 64)

/-- What the client must have locked for the deal. -/
def clientBalanceRequirement (deal : DealProposal κ) : Int :=
  deal.clientCollateral + deal.totalStorageFee

/-- What the provider must have locked for the deal. -/
def providerBalanceRequirement (deal : DealProposal κ) : Int := deal.providerCollateral

end DealProposal

/-- The market state a `MarketStateMutation` loads with the escrow and locked tables. -/
structure MarketState (κ : Type) [LinearOrder κ] where
  escrowTable : BalanceTable κ
  lockedTable : BalanceTable κ
  totalClientLockedColateral : Int
  totalClientStorageFee : Int
  totalProviderLockedColateral : Int

/-- The operations of a mutation change the state and may fail. -/
abbrev MarketM (κ : Type) [LinearOrder κ] (ε α : Type) := EStateM ε (MarketState κ) α

namespace MarketState

/-- Lift a failing computation of the state into the monad. -/
def update {ε : Type} (change : MarketState κ → Except ε (MarketState κ)) : MarketM κ ε Unit :=
  fun state => match change state with
    | .ok state' => .ok () state'
    | .error error => .error error state

/-- Fail with an error. -/
def fail {ε α : Type} (error : ε) : MarketM κ ε α := fun state => .error error state

/-- Rename the error of a computation. -/
def mapError {ε ε' α : Type} (rename : ε → ε') (run : MarketM κ ε α) : MarketM κ ε' α :=
  fun state => match run state with
    | .ok value state' => .ok value state'
    | .error error state' => .error (rename error) state'

/-- The locked funds of one reason change by `amount`. -/
def adjustTotal (reason : Reason) (amount : Int) (state : MarketState κ) : MarketState κ :=
  match reason with
  | .clientCollateral =>
    { state with totalClientLockedColateral := state.totalClientLockedColateral + amount }
  | .clientStorageFee =>
    { state with totalClientStorageFee := state.totalClientStorageFee + amount }
  | .providerCollateral =>
    { state with totalProviderLockedColateral := state.totalProviderLockedColateral + amount }

/-- Lock `amount` more of `addr`'s escrow, if the escrow covers it. -/
def maybeLockBalance (addr : κ) (amount : Int) : MarketM κ ActorError Unit := do
  if amount < 0 then
    fail ⟨.errIllegalState, s!"cannot lock negative amount {amount}"⟩
  let state ← get
  let prevLocked := state.lockedTable.get addr
  let escrowBalance := state.escrowTable.get addr
  if prevLocked + amount > escrowBalance then
    fail ⟨.errInsufficientFunds, s!"not enough balance to lock for addr: escrow balance {escrowBalance} < prev locked {prevLocked} + amount {amount}"⟩
  update fun state => match state.lockedTable.add addr amount with
    | .ok table => .ok { state with lockedTable := table }
    | .error text => .error ⟨.errIllegalState, "failed to add locked balance: " ++ text⟩

/-- Lock the client's storage fee and collateral and the provider's collateral of a deal. -/
def lockClientAndProviderBalances (proposal : DealProposal κ) : MarketM κ ActorError Unit := do
  mapError (·.wrap "failed to lock client funds")
    (maybeLockBalance proposal.client proposal.clientBalanceRequirement)
  mapError (·.wrap "failed to lock provider funds")
    (maybeLockBalance proposal.provider proposal.providerCollateral)
  modify (adjustTotal .clientCollateral proposal.clientCollateral)
  modify (adjustTotal .clientStorageFee proposal.totalStorageFee)
  modify (adjustTotal .providerCollateral proposal.providerCollateral)

/-- Release `amount` of `addr`'s locked funds held for `lockReason`. -/
def unlockBalance (addr : κ) (amount : Int) (lockReason : Reason) : MarketM κ BoxError Unit := do
  if amount < 0 then
    fail (.actor ⟨.errIllegalState, s!"unlock negative amount: {amount}"⟩)
  update fun state => match state.lockedTable.mustSubtract addr amount with
    | .ok table => .ok { state with lockedTable := table }
    | .error text => .error (.other text)
  modify (adjustTotal lockReason (-amount))

/-- Move funds from locked in client to available in provider. -/
def transferBalance (fromAddr toAddr : κ) (amount : Int) : MarketM κ ActorError Unit := do
  if amount < 0 then
    fail ⟨.errIllegalState, s!"transfer negative amount: {amount}"⟩
  -- subtract from locked and escrow tables
  update fun state => match state.escrowTable.mustSubtract fromAddr amount with
    | .ok table => .ok { state with escrowTable := table }
    | .error text => .error ⟨.errIllegalState, "subtract from escrow: " ++ text⟩
  mapError (·.downcastDefault .errIllegalState "subtract from locked")
    (unlockBalance fromAddr amount .clientStorageFee)
  -- add subtracted amount to the recipient
  update fun state => match state.escrowTable.add toAddr amount with
    | .ok table => .ok { state with escrowTable := table }
    | .error text => .error ⟨.errIllegalState, "add to escrow: " ++ text⟩

/-- Take `amount` of `addr`'s locked funds out of the market. -/
def slashBalance (addr : κ) (amount : Int) (lockReason : Reason) : MarketM κ BoxError Unit := do
  if amount < 0 then
    fail (.actor ⟨.errIllegalState, s!"negative amount to slash: {amount}"⟩)
  -- subtract from locked and escrow tables
  update fun state => match state.escrowTable.mustSubtract addr amount with
    | .ok table => .ok { state with escrowTable := table }
    | .error text => .error (.other text)
  unlockBalance addr amount lockReason

/-- The storage fee a deal slashed at `slashEpoch` still owes, which is unlocked. -/
def dealGetPaymentRemaining (deal : DealProposal κ) (slashEpoch : Int) : Except ActorError Int :=
  if slashEpoch > deal.endEpoch then
    .error ⟨.errIllegalState, s!"deal slash epoch {slashEpoch} after end epoch {deal.endEpoch}"⟩
  else
    -- payments are always for start -> end epoch irrespective of when the deal is slashed
    let slashEpoch := max slashEpoch deal.startEpoch
    let durationRemaining := deal.endEpoch - slashEpoch
    if durationRemaining < 0 then
      .error ⟨.errIllegalState, s!"deal remaining duration negative: {durationRemaining}"⟩
    else .ok (deal.storagePricePerEpoch * durationRemaining)

/-- Normal expiration: unlock the collaterals of both parties. -/
def processDealExpired (deal : DealProposal κ) (state : DealState) :
    MarketM κ ActorError Unit := do
  if state.sectorStartEpoch = epochUndefined then
    fail ⟨.errIllegalState, "start sector epoch undefined"⟩
  mapError (·.downcastDefault .errIllegalArgument "failed unlocking deal provider balance")
    (unlockBalance deal.provider deal.providerCollateral .providerCollateral)
  mapError (·.downcastDefault .errIllegalArgument "failed unlocking deal client balance")
    (unlockBalance deal.client deal.clientCollateral .clientCollateral)

/-- Deal start deadline elapsed without appearing in a proven sector: slash the provider's
collateral and unlock the client's funds.  Returns the slashed amount. -/
def processDealInitTimedOut (deal : DealProposal κ) : MarketM κ ActorError Int := do
  mapError (·.downcastDefault .errIllegalState "failure unlocking client storage fee")
    (unlockBalance deal.client deal.totalStorageFee .clientStorageFee)
  mapError (·.downcastDefault .errIllegalState "failure unlocking client collateral")
    (unlockBalance deal.client deal.clientCollateral .clientCollateral)
  -- `collateral_penalty_for_deal_activation_missed` is the whole provider collateral
  let amountSlashed := deal.providerCollateral
  let amountRemaining := deal.providerBalanceRequirement - amountSlashed
  mapError (·.downcastDefault .errIllegalState "failed to slash balance")
    (slashBalance deal.provider amountSlashed .providerCollateral)
  mapError (·.downcastDefault .errIllegalState "failed to unlock deal provider balance")
    (unlockBalance deal.provider amountRemaining .providerCollateral)
  pure amountSlashed

/-- Pay the provider for the epochs elapsed since the last update, and settle a slashed or
expired deal.  Returns the slashed amount, the next epoch to process and whether the deal is
done. -/
def updatePendingDealState (state : DealState) (deal : DealProposal κ) (epoch : Int) :
    MarketM κ ActorError (Int × Int × Bool) := do
  let everUpdated := state.lastUpdatedEpoch ≠ epochUndefined
  let everSlashed := state.slashEpoch ≠ epochUndefined
  -- if the deal was ever updated, make sure it didn't happen in the future
  if everUpdated ∧ state.lastUpdatedEpoch > epoch then
    fail ⟨.errIllegalState, s!"deal updated at future epoch {state.lastUpdatedEpoch}"⟩
  if deal.startEpoch > epoch then
    return (0, epochUndefined, false)
  let paymentEndEpoch ← if everSlashed then do
      if epoch < state.slashEpoch then
        fail ⟨.errIllegalState, s!"current epoch less than deal slash epoch {state.slashEpoch}"⟩
      if state.slashEpoch > deal.endEpoch then
        fail ⟨.errIllegalState, s!"deal slash epoch {state.slashEpoch} after deal end {deal.endEpoch}"⟩
      pure state.slashEpoch
    else pure (min deal.endEpoch epoch)
  let paymentStartEpoch :=
    if everUpdated ∧ state.lastUpdatedEpoch > deal.startEpoch then state.lastUpdatedEpoch
    else deal.startEpoch
  let numEpochsElapsed := paymentEndEpoch - paymentStartEpoch
  let totalPayment := deal.storagePricePerEpoch * numEpochsElapsed
  if totalPayment > 0 then
    transferBalance deal.client deal.provider totalPayment
  if everSlashed then
    -- unlock client collateral and locked storage fee
    let paymentRemaining ← fun market => match dealGetPaymentRemaining deal state.slashEpoch with
      | .ok amount => .ok amount market
      | .error error => .error error market
    mapError (·.downcastDefault .errIllegalState "failed to unlock remaining client storage fee")
      (unlockBalance deal.client paymentRemaining .clientStorageFee)
    mapError (·.downcastDefault .errIllegalState "failed to unlock client collateral")
      (unlockBalance deal.client deal.clientCollateral .clientCollateral)
    -- slash provider collateral
    let slashed := deal.providerCollateral
    mapError (·.downcastDefault .errIllegalState "slashing balance")
      (slashBalance deal.provider slashed .providerCollateral)
    return (slashed, epochUndefined, true)
  if epoch ≥ deal.endEpoch then
    processDealExpired deal state
    return (0, epochUndefined, true)
  -- the expiration may be processed late, so that activating many deals with one end epoch
  -- cannot load a cron tick
  let next := epoch + dealUpdatesInterval
  return (0, next, false)

/-- `add_balance`: deposit the received value into the escrow of `nominal`. -/
def addBalance (nominal : κ) (msgValue : Int) : MarketM κ ActorError Unit := do
  if msgValue ≤ 0 then
    fail ⟨.errIllegalArgument, s!"balance to add must be greater than zero was: {msgValue}"⟩
  update fun state => match state.escrowTable.add nominal msgValue with
    | .ok table => .ok { state with escrowTable := table }
    | .error text => .error ⟨.errIllegalState, "failed to add balance to escrow table: " ++ text⟩

/-- `withdraw_balance`: take up to `amount` of the escrow of `nominal` that is not locked.
Returns the amount extracted, which is then sent to the recipient. -/
def withdrawBalance (nominal : κ) (amount : Int) : MarketM κ ActorError Int := do
  if amount < 0 then
    fail ⟨.errIllegalArgument, s!"negative amount: {amount}"⟩
  let state ← get
  -- the withdrawable amount might be slightly less than nominal depending on whether or not
  -- all relevant entries have been processed by cron
  let minBalance := state.lockedTable.get nominal
  match state.escrowTable.subtractWithMinimum nominal amount minBalance with
  | .ok (table, extracted) =>
    set { state with escrowTable := table }
    pure extracted
  | .error text => fail ⟨.errIllegalState, "failed to subtract from escrow table: " ++ text⟩

end MarketState

end Forest.Market
