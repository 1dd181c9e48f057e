import Mathlib
import Forest.Market.Escrow

/-!
# A deal's life under cron

After a deal is activated, `cron_tick` visits it at the epochs it is scheduled for: each visit
runs `update_pending_deal_state` at the current epoch, which pays the provider for the epochs
since the last visit and, once the deal is slashed or has ended, settles it; the deal is then
either deleted or scheduled again a day later.  `on_miner_sectors_terminate` marks a deal of a
terminated sector for slashing, which the next visit settles.

What a visit does to the balances is a list of `BalanceOp`s: `settlementOps` lists them from the
deal's state, and a visit that succeeds changes the balances by running exactly that list
(`updatePendingDealState_ops`).  A run of visits and terminations is a `DealRun`, which collects
the operations of its visits.  Along a run the payments telescope: each visit pays from where
the last one stopped, so a deal that is deleted has paid its provider up to its end, or up to its
slash epoch, and released the rest of the fee (`DealRun.settles`).  Each visit that keeps the
deal moves its schedule a day on, and a visit at or after the end deletes it, so a deal is
visited a bounded number of times (`DealRun.visits_bounded`).

Only the parts of `cron_tick` and `on_miner_sectors_terminate` that act on one deal are kept:
the pending-proposal set, the slashed total and the other deals of the same calls are left out.
-/

namespace Forest.Market

open Forest.Actor

variable {κ : Type} [LinearOrder κ]

/-- A call the market makes on its balance tables. -/
inductive BalanceOp (κ : Type) where
  | transfer (fromAddr toAddr : κ) (amount : Int)
  | unlock (addr : κ) (amount : Int) (lockReason : Reason)
  | slash (addr : κ) (amount : Int) (lockReason : Reason)
  deriving DecidableEq, Repr

open MarketState in
/-- Run one balance call; the messages of its errors do not matter here. -/
def BalanceOp.run : BalanceOp κ → MarketM κ ActorError Unit
  | .transfer fromAddr toAddr amount => transferBalance fromAddr toAddr amount
  | .unlock addr amount lockReason =>
    mapError (·.downcastDefault .errIllegalState "unlock") (unlockBalance addr amount lockReason)
  | .slash addr amount lockReason =>
    mapError (·.downcastDefault .errIllegalState "slash") (slashBalance addr amount lockReason)

/-- Run balance calls one after the other. -/
def runOps : List (BalanceOp κ) → MarketM κ ActorError Unit
  | [] => pure ()
  | op :: rest => do
    op.run
    runOps rest

/-- `payment_start_epoch` of `update_pending_deal_state`: where the last visit stopped paying. -/
def DealState.paymentStartEpoch (state : DealState) (deal : DealProposal κ) : Int :=
  if state.lastUpdatedEpoch ≠ epochUndefined ∧ state.lastUpdatedEpoch > deal.startEpoch then
    state.lastUpdatedEpoch
  else deal.startEpoch

/-- `payment_end_epoch` of `update_pending_deal_state`: a slashed deal is paid up to its slash
epoch, any other up to its end or the current epoch. -/
def DealState.paymentEndEpoch (state : DealState) (deal : DealProposal κ) (epoch : Int) : Int :=
  if state.slashEpoch ≠ epochUndefined then state.slashEpoch else min deal.endEpoch epoch

/-- The payment of a visit: the provider is paid from where the last visit stopped to
`paymentEndEpoch`, when that comes to a positive amount. -/
def paymentOps (state : DealState) (deal : DealProposal κ) (paymentEndEpoch : Int) :
    List (BalanceOp κ) :=
  let totalPayment :=
    deal.storagePricePerEpoch * (paymentEndEpoch - state.paymentStartEpoch deal)
  if totalPayment > 0 then [.transfer deal.client deal.provider totalPayment] else []

/-- The calls that settle a slashed deal, or one that has ended, after its payment. -/
def closingOps (state : DealState) (deal : DealProposal κ) (epoch : Int) : List (BalanceOp κ) :=
  if state.slashEpoch ≠ epochUndefined then
    [.unlock deal.client
        (deal.storagePricePerEpoch * (deal.endEpoch - max state.slashEpoch deal.startEpoch))
        .clientStorageFee,
      .unlock deal.client deal.clientCollateral .clientCollateral,
      .slash deal.provider deal.providerCollateral .providerCollateral]
  else if epoch ≥ deal.endEpoch then
    [.unlock deal.provider deal.providerCollateral .providerCollateral,
      .unlock deal.client deal.clientCollateral .clientCollateral]
  else []

/-- The balance calls of `update_pending_deal_state` at `epoch` for a deal that has started and
passes its checks. -/
def settlementOps (state : DealState) (deal : DealProposal κ) (epoch : Int) :
    List (BalanceOp κ) :=
  paymentOps state deal (state.paymentEndEpoch deal epoch) ++ closingOps state deal epoch

/-- What `update_pending_deal_state` returns for a deal that has started: the slashed amount,
the next epoch to visit and whether the deal is done. -/
def settlementResult (state : DealState) (deal : DealProposal κ) (epoch : Int) : Int × Int × Bool :=
  if state.slashEpoch ≠ epochUndefined then (deal.providerCollateral, epochUndefined, true)
  else if epoch ≥ deal.endEpoch then (0, epochUndefined, true)
  else (0, epoch + dealUpdatesInterval, false)

namespace MarketState

/-- `cron_tick`'s visit of an activated deal at the current epoch: `update_pending_deal_state`
and the checks of what it returns.  The deal's next state and scheduled epoch, or `none` when
it is deleted. -/
def cronTickDeal (deal : DealProposal κ) (dealId : Nat) (state : DealState) (currEpoch : Int) :
    MarketM κ ActorError (Option (DealState × Int)) := do
  let (slashAmount, nextEpoch, removeDeal) ← updatePendingDealState state deal currEpoch
  if slashAmount < 0 then
    fail ⟨.errIllegalState, s!"computed negative slash amount {slashAmount} for deal {dealId}"⟩
  if removeDeal then
    if nextEpoch ≠ epochUndefined then
      fail ⟨.errIllegalState, s!"removed deal {dealId} should have no scheduled epoch (got {nextEpoch})"⟩
    return none
  else
    if nextEpoch ≤ currEpoch then
      fail ⟨.errIllegalState, s!"continuing deal {dealId} next epoch {nextEpoch} should be in the future"⟩
    if slashAmount ≠ 0 then
      fail ⟨.errIllegalState, s!"continuing deal {dealId} should not be slashed"⟩
    return some ({ state with lastUpdatedEpoch := currEpoch }, nextEpoch)

end MarketState

/-- `on_miner_sectors_terminate` for a deal of the terminated sector: a deal that has ended by
the epoch, or is already marked, is left alone; otherwise it is marked for slashing. -/
def terminateDeal (deal : DealProposal κ) (state : DealState) (epoch : Int) : DealState :=
  if deal.endEpoch ≤ epoch then state
  else if state.slashEpoch ≠ epochUndefined then state
  else { state with slashEpoch := epoch }

/-- What happens to one deal: a cron visit, or its sector terminated, at an epoch. -/
inductive DealEvent where
  | cron (epoch : Int)
  | terminate (epoch : Int)
  deriving DecidableEq, Repr

/-- The chain's epoch, the market's balances, and the deal's state with the epoch it is
scheduled for, while it exists. -/
structure DealLife (κ : Type) [LinearOrder κ] where
  epoch : Int
  market : MarketState κ
  status : Option (DealState × Int)

/-- The runs of a deal's events in epoch order, with the balance calls of its visits.  Cron
visits a deal at an epoch at or after the one it is scheduled for; a visit that fails is not
part of any run. -/
inductive DealRun (deal : DealProposal κ) (dealId : Nat) :
    DealLife κ → List DealEvent → List (BalanceOp κ) → DealLife κ → Prop
  | done (life : DealLife κ) : DealRun deal dealId life [] [] life
  | cron {life final : DealLife κ} {state : DealState} {scheduled currEpoch : Int}
      {market' : MarketState κ} {status : Option (DealState × Int)} {events : List DealEvent}
      {ops : List (BalanceOp κ)}
      (alive : life.status = some (state, scheduled)) (due : scheduled ≤ currEpoch)
      (later : life.epoch ≤ currEpoch)
      (ran : MarketState.cronTickDeal deal dealId state currEpoch life.market = .ok status market')
      (rest : DealRun deal dealId ⟨currEpoch, market', status⟩ events ops final) :
      DealRun deal dealId life (.cron currEpoch :: events) (settlementOps state deal currEpoch ++ ops)
        final
  | terminate {life final : DealLife κ} {state : DealState} {scheduled epoch : Int}
      {events : List DealEvent} {ops : List (BalanceOp κ)}
      (alive : life.status = some (state, scheduled)) (later : life.epoch ≤ epoch)
      (rest : DealRun deal dealId
        ⟨epoch, life.market, some (terminateDeal deal state epoch, scheduled)⟩ events ops final) :
      DealRun deal dealId life (.terminate epoch :: events) ops final

namespace MarketState

/-! ## A visit runs its balance calls -/

theorem runOps_cons_eq_ok {op : BalanceOp κ} {rest : List (BalanceOp κ)}
    {market market' : MarketState κ} :
    runOps (op :: rest) market = .ok () market' ↔
      ∃ middle, op.run market = .ok () middle ∧ runOps rest middle = .ok () market' := by
  rw [runOps, EStateM.bind_eq_ok]
  constructor
  · rintro ⟨⟨⟩, middle, first, rest⟩
    exact ⟨middle, first, rest⟩
  · rintro ⟨middle, first, rest⟩
    exact ⟨(), middle, first, rest⟩

theorem runOps_append_eq_ok {ops ops' : List (BalanceOp κ)} {market market' : MarketState κ} :
    runOps (ops ++ ops') market = .ok () market' ↔
      ∃ middle, runOps ops market = .ok () middle ∧ runOps ops' middle = .ok () market' := by
  induction ops generalizing market with
  | nil =>
    constructor
    · intro ran
      exact ⟨market, rfl, ran⟩
    · rintro ⟨middle, ⟨⟩, ran⟩
      exact ran
  | cons op rest inductionHypothesis =>
    rw [List.cons_append, runOps_cons_eq_ok]
    constructor
    · rintro ⟨middle, first, later⟩
      obtain ⟨middle', restRan, later'⟩ := inductionHypothesis.mp later
      exact ⟨middle', runOps_cons_eq_ok.mpr ⟨middle, first, restRan⟩, later'⟩
    · rintro ⟨middle', restRan, later'⟩
      obtain ⟨middle, first, restRan⟩ := runOps_cons_eq_ok.mp restRan
      exact ⟨middle, first, inductionHypothesis.mpr ⟨middle', restRan, later'⟩⟩

@[simp]
theorem run_transfer {fromAddr toAddr : κ} {amount : Int} {market market' : MarketState κ} :
    (BalanceOp.transfer fromAddr toAddr amount).run market = .ok () market' ↔
      transferBalance fromAddr toAddr amount market = .ok () market' := Iff.rfl

@[simp]
theorem run_unlock {addr : κ} {amount : Int} {lockReason : Reason}
    {market market' : MarketState κ} :
    (BalanceOp.unlock addr amount lockReason).run market = .ok () market' ↔
      unlockBalance addr amount lockReason market = .ok () market' := mapError_eq_ok

@[simp]
theorem run_slash {addr : κ} {amount : Int} {lockReason : Reason}
    {market market' : MarketState κ} :
    (BalanceOp.slash addr amount lockReason).run market = .ok () market' ↔
      slashBalance addr amount lockReason market = .ok () market' := mapError_eq_ok

@[simp]
theorem runOps_nil_eq_ok {market market' : MarketState κ} :
    runOps [] market = .ok () market' ↔ market = market' := by
  constructor
  · rintro ⟨⟩
    rfl
  · rintro rfl
    rfl

omit [LinearOrder κ] in
/-- The fee a slashed deal still owes, when `deal_get_payment_remaining` finds one. -/
theorem dealGetPaymentRemaining_eq_ok {deal : DealProposal κ} {slashEpoch amount : Int}
    (computed : dealGetPaymentRemaining deal slashEpoch = .ok amount) :
    amount = deal.storagePricePerEpoch * (deal.endEpoch - max slashEpoch deal.startEpoch) := by
  unfold dealGetPaymentRemaining at computed
  split at computed
  · cases computed
  · dsimp only at computed
    split at computed
    · cases computed
    · cases computed
      rfl

/-- A visit of a deal that has started and that succeeds changes the balances by running
`settlementOps`, and returns `settlementResult`. -/
theorem updatePendingDealState_ops {state : DealState} {deal : DealProposal κ} {epoch : Int}
    {market market' : MarketState κ} {result : Int × Int × Bool}
    (started : deal.startEpoch ≤ epoch)
    (ran : updatePendingDealState state deal epoch market = .ok result market') :
    runOps (settlementOps state deal epoch) market = .ok () market' ∧
      result = settlementResult state deal epoch := by
  unfold updatePendingDealState at ran
  split at ran
  · simp at ran
  beta_reduce at ran
  split at ran
  · omega
  extract_lets paymentStartEpoch slashed next settle pay payUntilSlash checkSlashEnd at ran
  -- what follows the payment runs `closingOps`
  have settled : ∀ {middle : MarketState κ} {result : Int × Int × Bool},
      settle () middle = .ok result market' →
        runOps (closingOps state deal epoch) middle = .ok () market' ∧
          result = settlementResult state deal epoch := by
    intro middle result ran
    simp only [settle] at ran
    split at ran
    · rename_i slashedDeal
      obtain ⟨remaining, computed, remainingRan, rest⟩ := EStateM.bind_eq_ok.mp ran
      have remainingIs : remaining = deal.storagePricePerEpoch *
          (deal.endEpoch - max state.slashEpoch deal.startEpoch) ∧ computed = middle := by
        split at remainingRan
        · rename_i amount found
          cases remainingRan
          exact ⟨dealGetPaymentRemaining_eq_ok found, rfl⟩
        · cases remainingRan
      obtain ⟨rfl, rfl⟩ := remainingIs
      obtain ⟨⟨⟩, afterFee, feeRan, rest⟩ := EStateM.bind_eq_ok.mp rest
      obtain ⟨⟨⟩, afterCollateral, collateralRan, rest⟩ := EStateM.bind_eq_ok.mp rest
      obtain ⟨⟨⟩, afterSlash, slashRan, returned⟩ := EStateM.bind_eq_ok.mp rest
      rw [mapError_eq_ok] at feeRan collateralRan slashRan
      rw [EStateM.pure_apply] at returned
      cases returned
      refine ⟨?_, by simp [settlementResult, slashedDeal, slashed]⟩
      simp only [closingOps, slashedDeal, ne_eq, not_false_eq_true, if_true, runOps_cons_eq_ok,
        run_unlock, run_slash, runOps_nil_eq_ok]
      exact ⟨_, feeRan, _, collateralRan, _, slashRan, rfl⟩
    · rename_i notSlashed
      split at ran
      · rename_i ended
        obtain ⟨⟨⟩, afterExpiry, expired, returned⟩ := EStateM.bind_eq_ok.mp ran
        rw [EStateM.pure_apply] at returned
        cases returned
        simp only [processDealExpired] at expired
        split at expired
        · simp at expired
        obtain ⟨⟨⟩, afterProvider, providerRan, clientRan⟩ := EStateM.bind_eq_ok.mp expired
        rw [mapError_eq_ok] at providerRan clientRan
        refine ⟨?_, by simp [settlementResult, notSlashed, ended]⟩
        simp only [closingOps, notSlashed, ended, if_false, if_true, runOps_cons_eq_ok,
          run_unlock, runOps_nil_eq_ok]
        exact ⟨_, providerRan, _, clientRan, rfl⟩
      · rename_i notEnded
        cases ran
        exact ⟨by simp [closingOps, notSlashed, notEnded],
          by simp [settlementResult, notSlashed, notEnded, next]⟩
  -- the payment runs `paymentOps`
  have paid : ∀ {paymentEndEpoch : Int} {result : Int × Int × Bool},
      pay paymentEndEpoch market = .ok result market' →
        runOps (paymentOps state deal paymentEndEpoch ++ closingOps state deal epoch) market =
            .ok () market' ∧ result = settlementResult state deal epoch := by
    intro paymentEndEpoch result ran
    simp only [pay] at ran
    rw [runOps_append_eq_ok]
    split at ran
    · rename_i positive
      have positive' : deal.storagePricePerEpoch *
          (paymentEndEpoch - state.paymentStartEpoch deal) > 0 := positive
      obtain ⟨⟨⟩, afterPayment, transferred, rest⟩ := EStateM.bind_eq_ok.mp ran
      obtain ⟨closed, resultIs⟩ := settled rest
      refine ⟨⟨afterPayment, ?_, closed⟩, resultIs⟩
      simp only [paymentOps, positive', if_true, runOps_cons_eq_ok, run_transfer,
        runOps_nil_eq_ok]
      exact ⟨_, transferred, rfl⟩
    · rename_i notPositive
      have notPositive' : ¬deal.storagePricePerEpoch *
          (paymentEndEpoch - state.paymentStartEpoch deal) > 0 := notPositive
      obtain ⟨closed, resultIs⟩ := settled ran
      refine ⟨⟨market, ?_, closed⟩, resultIs⟩
      simp only [paymentOps, notPositive', if_false]
      rfl
  have payEnd : ∀ {paymentEndEpoch : Int} {result : Int × Int × Bool},
      paymentEndEpoch = state.paymentEndEpoch deal epoch →
      pay paymentEndEpoch market = .ok result market' →
        runOps (settlementOps state deal epoch) market = .ok () market' ∧
          result = settlementResult state deal epoch := by
    intro paymentEndEpoch result same ran
    rw [settlementOps, ← same]
    exact paid ran
  split at ran
  · -- a slashed deal is paid up to its slash epoch, after two checks
    rename_i slashedDeal
    split at ran
    · simp at ran
    simp only [checkSlashEnd] at ran
    split at ran
    · simp at ran
    simp only [payUntilSlash, EStateM.pure_bind] at ran
    exact payEnd (by simp [DealState.paymentEndEpoch, slashedDeal]) ran
  · rename_i notSlashed
    rw [EStateM.pure_bind] at ran
    exact payEnd (by simp [DealState.paymentEndEpoch, notSlashed]) ran

/-- A visit that cron completes runs the visit's balance calls, and keeps the deal, paid up to
the current epoch and scheduled a day later, unless it is slashed or has ended. -/
theorem cronTickDeal_ops {deal : DealProposal κ} {dealId : Nat} {state : DealState}
    {currEpoch : Int} {market market' : MarketState κ} {status : Option (DealState × Int)}
    (started : deal.startEpoch ≤ currEpoch)
    (ran : cronTickDeal deal dealId state currEpoch market = .ok status market') :
    runOps (settlementOps state deal currEpoch) market = .ok () market' ∧
      status = if state.slashEpoch ≠ epochUndefined ∨ deal.endEpoch ≤ currEpoch then none
        else some ({ state with lastUpdatedEpoch := currEpoch }, currEpoch + dealUpdatesInterval) := by
  unfold cronTickDeal at ran
  obtain ⟨result, middle, updated, rest⟩ := EStateM.bind_eq_ok.mp ran
  obtain ⟨opsRan, rfl⟩ := updatePendingDealState_ops started updated
  by_cases slashedDeal : state.slashEpoch ≠ epochUndefined
  · have resultIs : settlementResult state deal currEpoch =
        (deal.providerCollateral, epochUndefined, true) := by
      simp [settlementResult, slashedDeal]
    rw [resultIs] at rest
    dsimp only at rest
    split at rest
    · simp at rest
    simp only [ne_eq, not_true_eq_false, if_false, if_true] at rest
    rw [EStateM.pure_apply] at rest
    cases rest
    exact ⟨opsRan, by simp [slashedDeal]⟩
  by_cases ended : deal.endEpoch ≤ currEpoch
  · have resultIs : settlementResult state deal currEpoch = (0, epochUndefined, true) := by
      simp [settlementResult, slashedDeal, ended]
    rw [resultIs] at rest
    simp only [Int.lt_irrefl, if_false, ne_eq, not_true_eq_false, if_true] at rest
    rw [EStateM.pure_apply] at rest
    cases rest
    exact ⟨opsRan, by simp [ended]⟩
  · have resultIs : settlementResult state deal currEpoch =
        (0, currEpoch + dealUpdatesInterval, false) := by
      simp [settlementResult, slashedDeal, Int.not_le.mp ended]
    have future : ¬currEpoch + dealUpdatesInterval ≤ currEpoch := by
      unfold dealUpdatesInterval
      omega
    rw [resultIs] at rest
    simp only [Int.lt_irrefl, if_false, Bool.false_eq_true, future, ne_eq, not_true_eq_false]
      at rest
    rw [EStateM.pure_apply] at rest
    cases rest
    exact ⟨opsRan, by simp [slashedDeal, ended]⟩

end MarketState

/-! ## What a run pays -/

namespace BalanceOp

/-- The amount a call moves from one escrow to another. -/
def transferred : BalanceOp κ → Int
  | .transfer _ _ amount => amount
  | _ => 0

/-- The amount a call unlocks for `reason`. -/
def unlocked (reason : Reason) : BalanceOp κ → Int
  | .unlock _ amount lockReason => if lockReason = reason then amount else 0
  | _ => 0

/-- Whether a call unlocks funds held for `reason`. -/
def unlocks (reason : Reason) : BalanceOp κ → Bool
  | .unlock _ _ lockReason => decide (lockReason = reason)
  | _ => false

/-- Whether a call slashes funds held for `reason`. -/
def slashes (reason : Reason) : BalanceOp κ → Bool
  | .slash _ _ lockReason => decide (lockReason = reason)
  | _ => false

end BalanceOp

namespace BalanceOp

/-- The amount a call slashes of funds held for `reason`. -/
def slashed (reason : Reason) : BalanceOp κ → Int
  | .slash _ amount lockReason => if lockReason = reason then amount else 0
  | _ => 0

open MarketState in
/-- What a call adds to each address's escrow. -/
def escrowGain : BalanceOp κ → κ → Int
  | .transfer fromAddr toAddr amount => single fromAddr (-amount) + single toAddr amount
  | .unlock _ _ _ => 0
  | .slash addr amount _ => single addr (-amount)

open MarketState in
/-- What a call adds to each address's locked funds. -/
def lockedGain : BalanceOp κ → κ → Int
  | .transfer fromAddr _ amount => single fromAddr (-amount)
  | .unlock addr amount _ => single addr (-amount)
  | .slash addr amount _ => single addr (-amount)

/-- What a call adds to the escrow table's sum. -/
def escrowIn : BalanceOp κ → Int
  | .slash _ amount _ => -amount
  | _ => 0

/-- What a call adds to the locked table's sum, and to the totals of locked funds. -/
def lockedIn : BalanceOp κ → Int
  | .transfer _ _ amount => -amount
  | .unlock _ amount _ => -amount
  | .slash _ amount _ => -amount

/-- The calls a visit makes for a deal: the payment from its client to its provider, the unlock
of the rest of the fee and of the two collaterals, and the slash of the provider's collateral. -/
inductive OfDeal (deal : DealProposal κ) : BalanceOp κ → Prop
  | payment (amount : Int) : OfDeal deal (.transfer deal.client deal.provider amount)
  | fee (amount : Int) : OfDeal deal (.unlock deal.client amount .clientStorageFee)
  | clientCollateral : OfDeal deal (.unlock deal.client deal.clientCollateral .clientCollateral)
  | providerCollateral :
      OfDeal deal (.unlock deal.provider deal.providerCollateral .providerCollateral)
  | slash : OfDeal deal (.slash deal.provider deal.providerCollateral .providerCollateral)

end BalanceOp

namespace MarketState

/-- A call that succeeds moves the tables by what it says. -/
theorem BalanceOp.run_moves {op : BalanceOp κ} {market market' : MarketState κ}
    (ran : op.run market = .ok () market') :
    Moves market market' op.escrowGain op.lockedGain op.escrowIn op.lockedIn op.lockedIn := by
  cases op with
  | transfer fromAddr toAddr amount => exact (transferBalance_moves (run_transfer.mp ran)).2
  | unlock addr amount lockReason => exact (unlockBalance_spec (run_unlock.mp ran)).2
  | slash addr amount lockReason => exact (slashBalance_moves (run_slash.mp ran)).2

/-- Calls run one after another move the tables by the sum of what each moves. -/
theorem runOps_moves {ops : List (BalanceOp κ)} {market market' : MarketState κ}
    (ran : runOps ops market = .ok () market') :
    Moves market market' (ops.map BalanceOp.escrowGain).sum (ops.map BalanceOp.lockedGain).sum
      (ops.map BalanceOp.escrowIn).sum (ops.map BalanceOp.lockedIn).sum
      (ops.map BalanceOp.lockedIn).sum := by
  induction ops generalizing market with
  | nil =>
    rw [runOps_nil_eq_ok] at ran
    subst ran
    simpa using Moves.refl market
  | cons op rest inductionHypothesis =>
    obtain ⟨middle, first, later⟩ := runOps_cons_eq_ok.mp ran
    simpa using (BalanceOp.run_moves first).trans (inductionHypothesis later)

/-- What the calls of a deal move, from the amounts they pay, unlock and slash: the provider
gains the payments less the slashed collateral and the client loses the payments; the client's
locked funds drop by the payments, the fee and its collateral, and the provider's by its
collateral, unlocked or slashed. -/
theorem moves_of_ofDeal {deal : DealProposal κ} :
    ∀ {ops : List (BalanceOp κ)}, (∀ op ∈ ops, op.OfDeal deal) →
      (ops.map BalanceOp.escrowGain).sum =
          single deal.provider ((ops.map BalanceOp.transferred).sum -
            (ops.map (BalanceOp.slashed .providerCollateral)).sum) +
          single deal.client (-(ops.map BalanceOp.transferred).sum) ∧
        (ops.map BalanceOp.lockedGain).sum =
          single deal.client (-((ops.map BalanceOp.transferred).sum +
            (ops.map (BalanceOp.unlocked .clientStorageFee)).sum +
            (ops.map (BalanceOp.unlocked .clientCollateral)).sum)) +
          single deal.provider (-((ops.map (BalanceOp.unlocked .providerCollateral)).sum +
            (ops.map (BalanceOp.slashed .providerCollateral)).sum)) ∧
        (ops.map BalanceOp.escrowIn).sum = -(ops.map (BalanceOp.slashed .providerCollateral)).sum ∧
        (ops.map BalanceOp.lockedIn).sum = -((ops.map BalanceOp.transferred).sum +
          (ops.map (BalanceOp.unlocked .clientStorageFee)).sum +
          (ops.map (BalanceOp.unlocked .clientCollateral)).sum +
          (ops.map (BalanceOp.unlocked .providerCollateral)).sum +
          (ops.map (BalanceOp.slashed .providerCollateral)).sum) := by
  intro ops
  induction ops with
  | nil => intro _; simp
  | cons op rest inductionHypothesis =>
    intro ofDeal
    obtain ⟨escrow, locked, escrowTotal, lockedTotal⟩ :=
      inductionHypothesis fun later member => ofDeal later (List.mem_cons_of_mem op member)
    simp only [List.map_cons, List.sum_cons, escrow, locked, escrowTotal, lockedTotal]
    -- each kind of call adds its amount to one of the sums
    refine ⟨funext fun addr => ?_, funext fun addr => ?_, ?_, ?_⟩ <;>
      cases ofDeal op List.mem_cons_self <;>
      simp only [BalanceOp.escrowGain, BalanceOp.lockedGain, BalanceOp.escrowIn,
        BalanceOp.lockedIn, BalanceOp.transferred, BalanceOp.unlocked, BalanceOp.slashed,
        Pi.add_apply, Pi.zero_apply, single, reduceCtorEq, if_true, if_false] <;>
      (try split_ifs) <;> omega

end MarketState

/-- Whether an event is a cron visit. -/
def DealEvent.isCron : DealEvent → Bool
  | .cron _ => true
  | .terminate _ => false

/-- The epoch of the first termination before the deal's end: the one that marks it. -/
def firstSlash (deal : DealProposal κ) : List DealEvent → Option Int
  | [] => none
  | .cron _ :: rest => firstSlash deal rest
  | .terminate epoch :: rest => if epoch < deal.endEpoch then some epoch else firstSlash deal rest

/-- The epoch a deal is paid up to by the end of its life, from its state and the events to
come: its end, or its slash epoch when it is marked, but never before its start. -/
def paidUpTo (deal : DealProposal κ) (state : DealState) (events : List DealEvent) : Int :=
  if state.slashEpoch ≠ epochUndefined then max state.slashEpoch deal.startEpoch
  else match firstSlash deal events with
    | none => deal.endEpoch
    | some slashEpoch => max slashEpoch deal.startEpoch

/-- Whether a deal is marked for slashing by the end of its life. -/
def slashedBy (deal : DealProposal κ) (state : DealState) (events : List DealEvent) : Bool :=
  decide (state.slashEpoch ≠ epochUndefined) || (firstSlash deal events).isSome

/-- A deal between visits: activated, scheduled no earlier than its start, last paid up to an
epoch before its end that has passed, and marked for slashing, if at all, before its end at an
epoch that has passed, no earlier than its last payment.  Chain epochs are not negative, so a
recorded epoch is never `EPOCH_UNDEFINED`. -/
structure Alive (deal : DealProposal κ) (life : DealLife κ) (state : DealState) (scheduled : Int) :
    Prop where
  status : life.status = some (state, scheduled)
  chainEpoch : 0 ≤ life.epoch
  activated : state.sectorStartEpoch ≠ epochUndefined
  scheduledStarted : deal.startEpoch ≤ scheduled
  lastUpdated : state.lastUpdatedEpoch = epochUndefined ∨
    (0 ≤ state.lastUpdatedEpoch ∧ deal.startEpoch ≤ state.lastUpdatedEpoch ∧
      state.lastUpdatedEpoch < deal.endEpoch ∧ state.lastUpdatedEpoch ≤ life.epoch)
  slashEpoch : state.slashEpoch = epochUndefined ∨
    (0 ≤ state.slashEpoch ∧ state.slashEpoch < deal.endEpoch ∧ state.slashEpoch ≤ life.epoch ∧
      (state.lastUpdatedEpoch = epochUndefined ∨ state.lastUpdatedEpoch ≤ state.slashEpoch))

/-- What the balance calls of the rest of a deal's life come to, once it is deleted: the
provider is paid up to `paidUpTo`, the client gets the rest of the fee back and its collateral
once, and the provider's collateral is unlocked once, or slashed once if the deal was marked. -/
structure Settles (deal : DealProposal κ) (state : DealState) (events : List DealEvent)
    (ops : List (BalanceOp κ)) : Prop where
  transferred : (ops.map BalanceOp.transferred).sum =
    deal.storagePricePerEpoch * (paidUpTo deal state events - state.paymentStartEpoch deal)
  feeUnlocked : (ops.map (BalanceOp.unlocked .clientStorageFee)).sum =
    deal.storagePricePerEpoch * (deal.endEpoch - paidUpTo deal state events)
  clientCollateral : ops.filter (BalanceOp.unlocks .clientCollateral) =
    [.unlock deal.client deal.clientCollateral .clientCollateral]
  providerUnlocked : ops.filter (BalanceOp.unlocks .providerCollateral) =
    if slashedBy deal state events then []
    else [.unlock deal.provider deal.providerCollateral .providerCollateral]
  providerSlashed : ops.filter (BalanceOp.slashes .providerCollateral) =
    if slashedBy deal state events then [.slash deal.provider deal.providerCollateral .providerCollateral]
    else []

/-! ## One visit -/

section Visit

variable {deal : DealProposal κ} {state : DealState}

omit [LinearOrder κ] in
@[simp]
theorem filter_unlocks_paymentOps (reason : Reason) (paymentEndEpoch : Int) :
    (paymentOps state deal paymentEndEpoch).filter (BalanceOp.unlocks reason) = [] := by
  unfold paymentOps
  dsimp only
  split <;> rfl

omit [LinearOrder κ] in
@[simp]
theorem filter_slashes_paymentOps (reason : Reason) (paymentEndEpoch : Int) :
    (paymentOps state deal paymentEndEpoch).filter (BalanceOp.slashes reason) = [] := by
  unfold paymentOps
  dsimp only
  split <;> rfl

omit [LinearOrder κ] in
@[simp]
theorem sum_unlocked_paymentOps (reason : Reason) (paymentEndEpoch : Int) :
    ((paymentOps state deal paymentEndEpoch).map (BalanceOp.unlocked reason)).sum = 0 := by
  unfold paymentOps
  dsimp only
  split <;> rfl

omit [LinearOrder κ] in
/-- A visit's calls are calls of its deal. -/
theorem ofDeal_settlementOps (epoch : Int) :
    ∀ op ∈ settlementOps state deal epoch, op.OfDeal deal := by
  intro op member
  simp only [settlementOps, paymentOps, closingOps, List.mem_append] at member
  rcases member with paid | closed
  · split at paid
    · rw [List.mem_singleton.mp paid]
      exact .payment _
    · cases paid
  · split at closed
    · rcases List.mem_cons.mp closed with rfl | closed
      · exact .fee _
      rcases List.mem_cons.mp closed with rfl | closed
      · exact .clientCollateral
      rw [List.mem_singleton.mp closed]
      exact .slash
    · split at closed
      · rcases List.mem_cons.mp closed with rfl | closed
        · exact .providerCollateral
        rw [List.mem_singleton.mp closed]
        exact .clientCollateral
      · cases closed

omit [LinearOrder κ] in
/-- The payment of a visit, or nothing when it would not be positive. -/
theorem sum_transferred_paymentOps (paymentEndEpoch : Int) :
    ((paymentOps state deal paymentEndEpoch).map BalanceOp.transferred).sum =
      max 0 (deal.storagePricePerEpoch * (paymentEndEpoch - state.paymentStartEpoch deal)) := by
  unfold paymentOps
  dsimp only
  split
  · rename_i positive
    simp [BalanceOp.transferred, le_of_lt positive]
  · rename_i notPositive
    simp [Int.not_lt.mp notPositive]

/-- Between visits a deal that was paid is paid up to its last visit. -/
theorem paymentStartEpoch_of_alive {life : DealLife κ} {scheduled : Int}
    (alive : Alive deal life state scheduled) :
    state.paymentStartEpoch deal =
      if state.lastUpdatedEpoch = epochUndefined then deal.startEpoch else state.lastUpdatedEpoch := by
  unfold DealState.paymentStartEpoch
  rcases alive.lastUpdated with never | ⟨nonneg, started, -, -⟩
  · simp [never]
  · have recorded : state.lastUpdatedEpoch ≠ epochUndefined := by
      unfold epochUndefined
      omega
    by_cases after : state.lastUpdatedEpoch > deal.startEpoch
    · simp [recorded, after]
    · simp only [recorded, ne_eq, not_false_eq_true, true_and, after, if_false]
      omega

/-- A payment for a non-negative number of epochs at a non-negative price is what it adds. -/
theorem max_zero_payment {price elapsed : Int} (priceNonneg : 0 ≤ price)
    (elapsedNonneg : 0 ≤ elapsed) : max 0 (price * elapsed) = price * elapsed :=
  max_eq_right (Int.mul_nonneg priceNonneg elapsedNonneg)

end Visit

/-! ## Steps of a run -/

section Steps

variable {deal : DealProposal κ} {state : DealState} {life : DealLife κ} {scheduled : Int}

theorem epoch_ne_epochUndefined {epoch : Int} (nonneg : 0 ≤ epoch) : epoch ≠ epochUndefined := by
  unfold epochUndefined
  omega

omit [LinearOrder κ] in
/-- A visit that keeps the deal has paid it up to the visit. -/
theorem paymentStartEpoch_visited {currEpoch : Int} (nonneg : 0 ≤ currEpoch)
    (started : deal.startEpoch ≤ currEpoch) :
    ({ state with lastUpdatedEpoch := currEpoch } : DealState).paymentStartEpoch deal = currEpoch := by
  unfold DealState.paymentStartEpoch
  by_cases after : currEpoch > deal.startEpoch
  · simp [epoch_ne_epochUndefined nonneg, after]
  · simp only [ne_eq, epoch_ne_epochUndefined nonneg, not_false_eq_true, true_and, after, if_false]
    omega

omit [LinearOrder κ] in
@[simp]
theorem paymentStartEpoch_terminateDeal (epoch : Int) :
    (terminateDeal deal state epoch).paymentStartEpoch deal = state.paymentStartEpoch deal := by
  unfold terminateDeal
  split
  · rfl
  · split <;> rfl

omit [LinearOrder κ] in
@[simp]
theorem paidUpTo_cron (currEpoch : Int) (events : List DealEvent) :
    paidUpTo deal state (.cron currEpoch :: events) = paidUpTo deal state events := rfl

omit [LinearOrder κ] in
@[simp]
theorem slashedBy_cron (currEpoch : Int) (events : List DealEvent) :
    slashedBy deal state (.cron currEpoch :: events) = slashedBy deal state events := rfl

omit [LinearOrder κ] in
/-- A termination is counted where it marks the deal: in its state or among the events. -/
theorem paidUpTo_terminate {epoch : Int} (nonneg : 0 ≤ epoch) (events : List DealEvent) :
    paidUpTo deal state (.terminate epoch :: events) =
      paidUpTo deal (terminateDeal deal state epoch) events ∧
    slashedBy deal state (.terminate epoch :: events) =
      slashedBy deal (terminateDeal deal state epoch) events := by
  unfold terminateDeal
  by_cases ended : deal.endEpoch ≤ epoch
  · have notBefore : ¬epoch < deal.endEpoch := Int.not_lt.mpr ended
    simp [paidUpTo, slashedBy, firstSlash, ended, notBefore]
  · have before : epoch < deal.endEpoch := Int.not_le.mp ended
    by_cases marked : state.slashEpoch ≠ epochUndefined
    · simp [paidUpTo, slashedBy, ended, marked]
    · simp [paidUpTo, slashedBy, firstSlash, ended, marked, before,
        epoch_ne_epochUndefined nonneg]

/-- A visit that keeps the deal leaves it alive, paid up to the visit and scheduled a day on. -/
theorem Alive.visit (alive : Alive deal life state scheduled) {currEpoch : Int}
    (due : scheduled ≤ currEpoch) (later : life.epoch ≤ currEpoch)
    (notMarked : state.slashEpoch = epochUndefined) (beforeEnd : currEpoch < deal.endEpoch)
    (market : MarketState κ) :
    Alive deal ⟨currEpoch, market,
        some ({ state with lastUpdatedEpoch := currEpoch }, currEpoch + dealUpdatesInterval)⟩
      { state with lastUpdatedEpoch := currEpoch } (currEpoch + dealUpdatesInterval) := by
  have nonneg := alive.chainEpoch
  have started := alive.scheduledStarted
  refine ⟨rfl, by simp only; omega, alive.activated, by unfold dealUpdatesInterval; omega,
    Or.inr ⟨by simp only; omega, by simp only; omega, beforeEnd, le_refl _⟩, Or.inl notMarked⟩

/-- A termination leaves the deal alive, marked if it was neither marked nor over. -/
theorem Alive.terminate (alive : Alive deal life state scheduled) {epoch : Int}
    (later : life.epoch ≤ epoch) :
    Alive deal ⟨epoch, life.market, some (terminateDeal deal state epoch, scheduled)⟩
      (terminateDeal deal state epoch) scheduled := by
  have nonneg := alive.chainEpoch
  have lastUpdated : state.lastUpdatedEpoch = epochUndefined ∨
      (0 ≤ state.lastUpdatedEpoch ∧ deal.startEpoch ≤ state.lastUpdatedEpoch ∧
        state.lastUpdatedEpoch < deal.endEpoch ∧ state.lastUpdatedEpoch ≤ epoch) := by
    rcases alive.lastUpdated with never | ⟨recorded, started, beforeEnd, passed⟩
    · exact Or.inl never
    · exact Or.inr ⟨recorded, started, beforeEnd, by omega⟩
  have slashEpoch : state.slashEpoch = epochUndefined ∨
      (0 ≤ state.slashEpoch ∧ state.slashEpoch < deal.endEpoch ∧ state.slashEpoch ≤ epoch ∧
        (state.lastUpdatedEpoch = epochUndefined ∨
          state.lastUpdatedEpoch ≤ state.slashEpoch)) := by
    rcases alive.slashEpoch with never | ⟨recorded, beforeEnd, passed, afterUpdate⟩
    · exact Or.inl never
    · exact Or.inr ⟨recorded, beforeEnd, by omega, afterUpdate⟩
  unfold terminateDeal
  split
  · exact ⟨rfl, by simp only; omega, alive.activated, alive.scheduledStarted, lastUpdated,
      slashEpoch⟩
  · rename_i notEnded
    split
    · exact ⟨rfl, by simp only; omega, alive.activated, alive.scheduledStarted, lastUpdated,
        slashEpoch⟩
    · -- the deal is marked at this epoch, after its last payment
      refine ⟨rfl, by simp only; omega, alive.activated, alive.scheduledStarted, lastUpdated,
        Or.inr ⟨by simp only; omega, by simp only; omega, le_refl _, ?_⟩⟩
      rcases alive.lastUpdated with never | ⟨-, -, -, passed⟩
      · exact Or.inl never
      · exact Or.inr (by simp only; omega)

end Steps

/-! ## What the visits pay -/

section Payments

variable {deal : DealProposal κ} {state : DealState} {life : DealLife κ} {scheduled : Int}

/-- The visit of a marked deal pays it up to its slash epoch, or not at all when that comes
before its start, and settles it. -/
theorem settles_marked (alive : Alive deal life state scheduled)
    (priceNonneg : 0 ≤ deal.storagePricePerEpoch) (marked : state.slashEpoch ≠ epochUndefined)
    (currEpoch : Int) :
    Settles deal state [.cron currEpoch] (settlementOps state deal currEpoch) := by
  have paidUntil : (((paymentOps state deal state.slashEpoch).map BalanceOp.transferred).sum) =
      deal.storagePricePerEpoch * (max state.slashEpoch deal.startEpoch -
        state.paymentStartEpoch deal) := by
    rw [sum_transferred_paymentOps, paymentStartEpoch_of_alive alive]
    rcases alive.slashEpoch with never | ⟨-, -, -, afterUpdate⟩
    · exact absurd never marked
    rcases alive.lastUpdated with never | ⟨recordedNonneg, started, -, -⟩
    · rw [if_pos never]
      by_cases afterStart : deal.startEpoch ≤ state.slashEpoch
      · rw [max_eq_left afterStart]
        exact max_zero_payment priceNonneg (by omega)
      · -- marked before its start: nothing is paid
        rw [max_eq_right (show state.slashEpoch ≤ deal.startEpoch by omega), Int.sub_self,
          Int.mul_zero]
        exact max_eq_left (Int.mul_nonpos_of_nonneg_of_nonpos priceNonneg (by omega))
    · have recorded : state.lastUpdatedEpoch ≠ epochUndefined := by
        unfold epochUndefined
        omega
      have afterLast : state.lastUpdatedEpoch ≤ state.slashEpoch := by
        rcases afterUpdate with never | afterLast
        · exact absurd never recorded
        · exact afterLast
      rw [if_neg recorded, max_eq_left (show deal.startEpoch ≤ state.slashEpoch by omega)]
      exact max_zero_payment priceNonneg (by omega)
  have paymentEnd : state.paymentEndEpoch deal currEpoch = state.slashEpoch := by
    simp [DealState.paymentEndEpoch, marked]
  refine ⟨?_, ?_, ?_, ?_, ?_⟩ <;>
    simp [settlementOps, paymentEnd, closingOps, marked, paidUpTo, slashedBy, paidUntil,
      BalanceOp.transferred, BalanceOp.unlocked, BalanceOp.unlocks, BalanceOp.slashes]

/-- The visit of an unmarked deal at or after its end pays it up to its end and unlocks both
collaterals. -/
theorem settles_ended (alive : Alive deal life state scheduled)
    (priceNonneg : 0 ≤ deal.storagePricePerEpoch) (ordered : deal.startEpoch < deal.endEpoch)
    (notMarked : state.slashEpoch = epochUndefined) {currEpoch : Int}
    (ended : deal.endEpoch ≤ currEpoch) :
    Settles deal state [.cron currEpoch] (settlementOps state deal currEpoch) := by
  have paidUntil : (((paymentOps state deal deal.endEpoch).map BalanceOp.transferred).sum) =
      deal.storagePricePerEpoch * (deal.endEpoch - state.paymentStartEpoch deal) := by
    rw [sum_transferred_paymentOps]
    apply max_zero_payment priceNonneg
    rw [paymentStartEpoch_of_alive alive]
    rcases alive.lastUpdated with never | ⟨-, -, beforeEnd, -⟩
    · rw [if_pos never]
      omega
    · split <;> omega
  have paymentEnd : state.paymentEndEpoch deal currEpoch = deal.endEpoch := by
    simp [DealState.paymentEndEpoch, notMarked, ended]
  refine ⟨?_, ?_, ?_, ?_, ?_⟩ <;>
    simp [settlementOps, paymentEnd, closingOps, notMarked, ended, paidUpTo, slashedBy, firstSlash,
      paidUntil, BalanceOp.transferred, BalanceOp.unlocked, BalanceOp.unlocks, BalanceOp.slashes]

/-- A visit that keeps the deal pays it up to the visit; the rest of its life pays the rest. -/
theorem Settles.visit (alive : Alive deal life state scheduled)
    (priceNonneg : 0 ≤ deal.storagePricePerEpoch) {currEpoch : Int}
    (due : scheduled ≤ currEpoch) (later : life.epoch ≤ currEpoch)
    (notMarked : state.slashEpoch = epochUndefined) (beforeEnd : currEpoch < deal.endEpoch)
    {events : List DealEvent} {ops : List (BalanceOp κ)}
    (rest : Settles deal { state with lastUpdatedEpoch := currEpoch } events ops) :
    Settles deal state (.cron currEpoch :: events) (settlementOps state deal currEpoch ++ ops) := by
  have nonneg : 0 ≤ currEpoch := by
    have := alive.chainEpoch
    omega
  have started : deal.startEpoch ≤ currEpoch := by
    have := alive.scheduledStarted
    omega
  have paymentEnd : state.paymentEndEpoch deal currEpoch = currEpoch := by
    simp [DealState.paymentEndEpoch, notMarked, beforeEnd.le]
  have noClosing : closingOps state deal currEpoch = [] := by
    simp [closingOps, notMarked, beforeEnd]
  have paidSoFar : state.paymentStartEpoch deal ≤ currEpoch := by
    rw [paymentStartEpoch_of_alive alive]
    rcases alive.lastUpdated with never | ⟨-, -, -, passed⟩
    · rw [if_pos never]
      exact started
    · split <;> omega
  have samePaid : paidUpTo deal { state with lastUpdatedEpoch := currEpoch } events =
      paidUpTo deal state events := by
    simp [paidUpTo, notMarked]
  have sameSlashed : slashedBy deal { state with lastUpdatedEpoch := currEpoch } events =
      slashedBy deal state events := by
    simp [slashedBy, notMarked]
  obtain ⟨transferred, feeUnlocked, clientCollateral, providerUnlocked, providerSlashed⟩ := rest
  rw [paymentStartEpoch_visited nonneg started, samePaid] at transferred
  rw [samePaid] at feeUnlocked
  rw [sameSlashed] at providerUnlocked providerSlashed
  refine ⟨?_, ?_, ?_, ?_, ?_⟩
  · -- the payments telescope: to the visit, then from it
    rw [settlementOps, paymentEnd, noClosing, List.append_nil, List.map_append, List.sum_append,
      sum_transferred_paymentOps, max_zero_payment priceNonneg (by omega), transferred,
      paidUpTo_cron, ← Int.mul_add]
    congr 1
    omega
  · simp [settlementOps, paymentEnd, noClosing, feeUnlocked]
  · simp [settlementOps, paymentEnd, noClosing, clientCollateral]
  · rw [settlementOps, paymentEnd, noClosing, List.append_nil, List.filter_append,
      filter_unlocks_paymentOps, List.nil_append, slashedBy_cron]
    exact providerUnlocked
  · rw [settlementOps, paymentEnd, noClosing, List.append_nil, List.filter_append,
      filter_slashes_paymentOps, List.nil_append, slashedBy_cron]
    exact providerSlashed

/-- A termination changes what the rest of the life pays only through the mark it sets. -/
theorem Settles.terminate (alive : Alive deal life state scheduled) {epoch : Int}
    (later : life.epoch ≤ epoch) {events : List DealEvent} {ops : List (BalanceOp κ)}
    (rest : Settles deal (terminateDeal deal state epoch) events ops) :
    Settles deal state (.terminate epoch :: events) ops := by
  have nonneg : 0 ≤ epoch := by
    have := alive.chainEpoch
    omega
  obtain ⟨samePaid, sameSlashed⟩ : paidUpTo deal state (.terminate epoch :: events) =
        paidUpTo deal (terminateDeal deal state epoch) events ∧
      slashedBy deal state (.terminate epoch :: events) =
        slashedBy deal (terminateDeal deal state epoch) events :=
    paidUpTo_terminate nonneg events
  obtain ⟨transferred, feeUnlocked, clientCollateral, providerUnlocked, providerSlashed⟩ := rest
  rw [paymentStartEpoch_terminateDeal] at transferred
  exact ⟨by rw [samePaid]; exact transferred, by rw [samePaid]; exact feeUnlocked,
    clientCollateral, by rw [sameSlashed]; exact providerUnlocked,
    by rw [sameSlashed]; exact providerSlashed⟩

end Payments

/-! ## Whole runs -/

namespace DealRun

variable {deal : DealProposal κ} {dealId : Nat}

/-- Nothing happens to a deleted deal. -/
theorem of_deleted {life final : DealLife κ} {events : List DealEvent} {ops : List (BalanceOp κ)}
    (run : DealRun deal dealId life events ops final) (deleted : life.status = none) :
    events = [] ∧ ops = [] ∧ final = life := by
  cases run with
  | done => exact ⟨rfl, rfl, rfl⟩
  | cron alive => rw [deleted] at alive; cases alive
  | terminate alive => rw [deleted] at alive; cases alive

/-- A visit of a live deal, read through `cronTickDeal_ops`: it ran the visit's calls, and the
deal is deleted, or alive again a day later. -/
theorem visit_cases {life : DealLife κ} {state : DealState} {scheduled currEpoch : Int}
    {market' : MarketState κ} {status : Option (DealState × Int)}
    (alive : Alive deal life state scheduled) (due : scheduled ≤ currEpoch)
    (later : life.epoch ≤ currEpoch)
    (ran : MarketState.cronTickDeal deal dealId state currEpoch life.market = .ok status market') :
    runOps (settlementOps state deal currEpoch) life.market = .ok () market' ∧
      ((state.slashEpoch ≠ epochUndefined ∨ deal.endEpoch ≤ currEpoch) ∧ status = none ∨
        state.slashEpoch = epochUndefined ∧ currEpoch < deal.endEpoch ∧
          status = some ({ state with lastUpdatedEpoch := currEpoch },
            currEpoch + dealUpdatesInterval) ∧
          Alive deal ⟨currEpoch, market', status⟩ { state with lastUpdatedEpoch := currEpoch }
            (currEpoch + dealUpdatesInterval)) := by
  have started : deal.startEpoch ≤ currEpoch := by
    have := alive.scheduledStarted
    omega
  obtain ⟨opsRan, statusIs⟩ := MarketState.cronTickDeal_ops started ran
  refine ⟨opsRan, ?_⟩
  by_cases closing : state.slashEpoch ≠ epochUndefined ∨ deal.endEpoch ≤ currEpoch
  · exact Or.inl ⟨closing, by rw [statusIs, if_pos closing]⟩
  · rw [statusIs, if_neg closing]
    have notMarked : state.slashEpoch = epochUndefined := by
      by_contra marked
      exact closing (Or.inl marked)
    have beforeEnd : currEpoch < deal.endEpoch := by
      by_contra ended
      exact closing (Or.inr (Int.not_lt.mp ended))
    exact Or.inr ⟨notMarked, beforeEnd, rfl, alive.visit due later notMarked beforeEnd market'⟩

/-- The balances at the end of a run are those of running its calls. -/
theorem market_eq {life final : DealLife κ} {events : List DealEvent} {ops : List (BalanceOp κ)}
    (run : DealRun deal dealId life events ops final) :
    ∀ {state : DealState} {scheduled : Int}, Alive deal life state scheduled →
      runOps ops life.market = .ok () final.market := by
  induction run with
  | done => exact fun _ => rfl
  | cron status due later ran rest inductionHypothesis =>
    intro state scheduled alive
    rw [alive.status] at status
    cases status
    rw [MarketState.runOps_append_eq_ok]
    obtain ⟨opsRan, deleted | kept⟩ := visit_cases alive due later ran
    · obtain ⟨-, statusIs⟩ := deleted
      subst statusIs
      obtain ⟨rfl, rfl, rfl⟩ := of_deleted rest rfl
      exact ⟨_, opsRan, rfl⟩
    · obtain ⟨-, -, -, stillAlive⟩ := kept
      exact ⟨_, opsRan, inductionHypothesis stillAlive⟩
  | terminate status later rest inductionHypothesis =>
    intro state scheduled alive
    rw [alive.status] at status
    cases status
    exact inductionHypothesis (alive.terminate later)

/-- A run that deletes the deal has paid the provider up to `paidUpTo`, given the client the
rest of the fee and its collateral back once, and unlocked or slashed the provider's collateral
once. -/
theorem settles (priceNonneg : 0 ≤ deal.storagePricePerEpoch)
    (ordered : deal.startEpoch < deal.endEpoch) {life final : DealLife κ}
    {events : List DealEvent} {ops : List (BalanceOp κ)}
    (run : DealRun deal dealId life events ops final) (deleted : final.status = none) :
    ∀ {state : DealState} {scheduled : Int}, Alive deal life state scheduled →
      Settles deal state events ops := by
  induction run with
  | done =>
    intro state scheduled alive
    rw [alive.status] at deleted
    cases deleted
  | cron status due later ran rest inductionHypothesis =>
    intro state scheduled alive
    rw [alive.status, Option.some.injEq, Prod.mk.injEq] at status
    obtain ⟨rfl, rfl⟩ := status
    obtain ⟨-, closing | kept⟩ := visit_cases alive due later ran
    · obtain ⟨closing, statusIs⟩ := closing
      subst statusIs
      obtain ⟨rfl, rfl, -⟩ := of_deleted rest rfl
      rw [List.append_nil]
      by_cases marked : state.slashEpoch ≠ epochUndefined
      · exact settles_marked alive priceNonneg marked _
      · have ended : deal.endEpoch ≤ _ := closing.resolve_left marked
        exact settles_ended alive priceNonneg ordered (not_not.mp marked) ended
    · obtain ⟨notMarked, beforeEnd, -, stillAlive⟩ := kept
      exact Settles.visit alive priceNonneg due later notMarked beforeEnd
        (inductionHypothesis deleted stillAlive)
  | terminate status later rest inductionHypothesis =>
    intro state scheduled alive
    rw [alive.status, Option.some.injEq, Prod.mk.injEq] at status
    obtain ⟨rfl, rfl⟩ := status
    exact Settles.terminate alive later (inductionHypothesis deleted (alive.terminate later))

/-- Every visit that keeps the deal moves its schedule a day past the visit, and happens before
its end: a run that keeps the deal visits it a bounded number of times. -/
theorem visits_bounded {life final : DealLife κ} {events : List DealEvent}
    {ops : List (BalanceOp κ)} (run : DealRun deal dealId life events ops final)
    {finalState : DealState} {finalScheduled : Int}
    (kept : final.status = some (finalState, finalScheduled)) :
    ∀ {state : DealState} {scheduled : Int}, Alive deal life state scheduled →
      scheduled + (events.countP DealEvent.isCron : Int) * dealUpdatesInterval ≤ finalScheduled ∧
        (events.countP DealEvent.isCron = 0 → finalScheduled = scheduled) ∧
        (0 < events.countP DealEvent.isCron →
          finalScheduled < deal.endEpoch + dealUpdatesInterval) := by
  induction run with
  | done =>
    intro state scheduled alive
    rw [alive.status] at kept
    cases kept
    simp
  | @cron _ _ _ _ currEpoch _ _ laterEvents _ status due later ran rest inductionHypothesis =>
    intro state scheduled alive
    rw [alive.status, Option.some.injEq, Prod.mk.injEq] at status
    obtain ⟨rfl, rfl⟩ := status
    obtain ⟨-, closing | stays⟩ := visit_cases alive due later ran
    · obtain ⟨-, statusIs⟩ := closing
      subst statusIs
      obtain ⟨-, -, rfl⟩ := of_deleted rest rfl
      cases kept
    · obtain ⟨-, beforeEnd, -, stillAlive⟩ := stays
      obtain ⟨grown, unvisited, bounded⟩ := inductionHypothesis kept stillAlive
      rw [List.countP_cons_of_pos rfl]
      unfold dealUpdatesInterval at grown unvisited bounded ⊢
      refine ⟨by push_cast; omega, by omega, fun _ => ?_⟩
      -- the last visit of the run is this one or a later one
      by_cases visitedLater : 0 < laterEvents.countP DealEvent.isCron
      · exact bounded visitedLater
      · have unchanged := unvisited (by omega)
        omega
  | terminate status later rest inductionHypothesis =>
    intro state scheduled alive
    rw [alive.status, Option.some.injEq, Prod.mk.injEq] at status
    obtain ⟨rfl, rfl⟩ := status
    simp only [List.countP_cons, DealEvent.isCron, Bool.false_eq_true, if_false, Nat.add_zero]
    exact inductionHypothesis kept (alive.terminate later)

/-- Every call of a run is a call of its deal. -/
theorem ofDeal {life final : DealLife κ} {events : List DealEvent}
    {ops : List (BalanceOp κ)} (run : DealRun deal dealId life events ops final) :
    ∀ op ∈ ops, op.OfDeal deal := by
  induction run with
  | done => simp
  | @cron _ _ state _ currEpoch _ _ _ _ _ _ _ _ _ inductionHypothesis =>
    intro op member
    rcases List.mem_append.mp member with visited | later
    · exact ofDeal_settlementOps currEpoch op visited
    · exact inductionHypothesis op later
  | terminate _ _ _ inductionHypothesis => exact inductionHypothesis

end DealRun

/-! ## The balances at the end of a deal -/

/-- A sum over a list is the sum over what a filter keeps when the rest adds nothing. -/
theorem sum_map_filter_of_zero {α : Type} {p : α → Bool} {f : α → Int}
    (zero : ∀ a, p a = false → f a = 0) : ∀ l : List α, ((l.filter p).map f).sum = (l.map f).sum
  | [] => rfl
  | a :: rest => by
    by_cases kept : p a = true
    · simp [List.filter_cons_of_pos kept, sum_map_filter_of_zero zero rest]
    · simp [List.filter_cons_of_neg kept, zero a (by simpa using kept),
        sum_map_filter_of_zero zero rest]

omit [LinearOrder κ] in
theorem BalanceOp.unlocked_eq_zero {reason : Reason} {op : BalanceOp κ}
    (other : op.unlocks reason = false) : op.unlocked reason = 0 := by
  cases op with
  | unlock addr amount lockReason =>
    have differ : lockReason ≠ reason := by simpa [BalanceOp.unlocks] using other
    simp [BalanceOp.unlocked, differ]
  | transfer => rfl
  | slash => rfl

omit [LinearOrder κ] in
theorem BalanceOp.slashed_eq_zero {reason : Reason} {op : BalanceOp κ}
    (other : op.slashes reason = false) : op.slashed reason = 0 := by
  cases op with
  | slash addr amount lockReason =>
    have differ : lockReason ≠ reason := by simpa [BalanceOp.slashes] using other
    simp [BalanceOp.slashed, differ]
  | transfer => rfl
  | unlock => rfl

/-- An activated deal under cron, from the first epoch it is scheduled for: whatever the visits
and terminations, while it is kept it is visited at most about once a day between its start and
its end.  Once it is deleted, the escrow and locked tables have moved as follows.  The provider
has been paid from the client's escrow up to its end, or up to the epoch it was marked for
slashing but not before its start, and has lost its collateral if it was marked.  The client's
locked funds have dropped by the whole fee and its collateral: what was paid, and the rest of
the fee unlocked back.  The provider's locked funds have dropped by its collateral, unlocked or
slashed.  No other address moved; the escrow table's sum dropped by the slashed collateral, and
the totals of locked funds by the fee and both collaterals. -/
theorem deal_payments_conserved (deal : DealProposal κ) (dealId : Nat) (state : DealState)
    (scheduled : Int) (life final : DealLife κ) (events : List DealEvent)
    (ops : List (BalanceOp κ)) (ordered : deal.startEpoch < deal.endEpoch)
    (priceNonneg : 0 ≤ deal.storagePricePerEpoch)
    (activated : state.sectorStartEpoch ≠ epochUndefined ∧
      state.lastUpdatedEpoch = epochUndefined ∧ state.slashEpoch = epochUndefined)
    (status : life.status = some (state, scheduled)) (chainEpoch : 0 ≤ life.epoch)
    (scheduledStarted : deal.startEpoch ≤ scheduled)
    (run : DealRun deal dealId life events ops final) :
    (∀ finalState finalScheduled, final.status = some (finalState, finalScheduled) →
      (events.countP DealEvent.isCron : Int) * dealUpdatesInterval <
        deal.endEpoch - deal.startEpoch + dealUpdatesInterval) ∧
    (final.status = none →
      (∀ addr,
        final.market.escrowTable.get addr = life.market.escrowTable.get addr +
          MarketState.single deal.provider
            (deal.storagePricePerEpoch * (paidUpTo deal state events - deal.startEpoch) -
              if slashedBy deal state events then deal.providerCollateral else 0) addr +
          MarketState.single deal.client
            (-(deal.storagePricePerEpoch * (paidUpTo deal state events - deal.startEpoch))) addr) ∧
      (∀ addr,
        final.market.lockedTable.get addr = life.market.lockedTable.get addr +
          MarketState.single deal.client
            (-(deal.storagePricePerEpoch * (deal.endEpoch - deal.startEpoch) +
              deal.clientCollateral)) addr +
          MarketState.single deal.provider (-deal.providerCollateral) addr) ∧
      final.market.escrowTable.total = life.market.escrowTable.total -
        (if slashedBy deal state events then deal.providerCollateral else 0) ∧
      final.market.lockedTotal = life.market.lockedTotal -
        (deal.storagePricePerEpoch * (deal.endEpoch - deal.startEpoch) + deal.clientCollateral +
          deal.providerCollateral)) := by
  obtain ⟨started, neverPaid, notMarked⟩ := activated
  have alive : Alive deal life state scheduled :=
    ⟨status, chainEpoch, started, scheduledStarted, Or.inl neverPaid, Or.inl notMarked⟩
  refine ⟨?_, fun deleted => ?_⟩
  · intro finalState finalScheduled kept
    obtain ⟨grown, -, bounded⟩ := run.visits_bounded kept alive
    by_cases visited : 0 < events.countP DealEvent.isCron
    · have := bounded visited
      omega
    · have none : events.countP DealEvent.isCron = 0 := by omega
      rw [none]
      unfold dealUpdatesInterval
      omega
  · have fromStart : state.paymentStartEpoch deal = deal.startEpoch := by
      rw [paymentStartEpoch_of_alive alive, if_pos neverPaid]
    obtain ⟨transferred, feeUnlocked, clientCollateral, providerUnlocked, providerSlashed⟩ :=
      run.settles priceNonneg ordered deleted alive
    rw [fromStart] at transferred
    -- the collaterals each come from the one call the filters keep
    have clientSum : (ops.map (BalanceOp.unlocked .clientCollateral)).sum = deal.clientCollateral := by
      rw [← sum_map_filter_of_zero (fun _ => BalanceOp.unlocked_eq_zero), clientCollateral]
      simp [BalanceOp.unlocked]
    have providerSum : (ops.map (BalanceOp.unlocked .providerCollateral)).sum =
        if slashedBy deal state events then 0 else deal.providerCollateral := by
      rw [← sum_map_filter_of_zero (fun _ => BalanceOp.unlocked_eq_zero), providerUnlocked]
      split <;> simp [BalanceOp.unlocked]
    have slashedSum : (ops.map (BalanceOp.slashed .providerCollateral)).sum =
        if slashedBy deal state events then deal.providerCollateral else 0 := by
      rw [← sum_map_filter_of_zero (fun _ => BalanceOp.slashed_eq_zero), providerSlashed]
      split <;> simp [BalanceOp.slashed]
    have moves := MarketState.runOps_moves (run.market_eq alive)
    obtain ⟨escrowGain, lockedGain, escrowIn, lockedIn⟩ := MarketState.moves_of_ofDeal run.ofDeal
    -- the fee is what was paid and what was unlocked back
    have wholeFee : deal.storagePricePerEpoch * (paidUpTo deal state events - deal.startEpoch) +
        deal.storagePricePerEpoch * (deal.endEpoch - paidUpTo deal state events) =
        deal.storagePricePerEpoch * (deal.endEpoch - deal.startEpoch) := by ring
    refine ⟨fun addr => ?_, fun addr => ?_, ?_, ?_⟩
    · rw [moves.escrow, escrowGain, transferred, slashedSum, Pi.add_apply, Int.add_assoc]
    · rw [moves.locked, lockedGain, transferred, feeUnlocked, clientSum, providerSum, slashedSum,
        Pi.add_apply, wholeFee, Int.add_assoc]
      congr 3
      split <;> omega
    · rw [moves.escrowTotal, escrowIn, slashedSum]
      omega
    · rw [moves.totals, lockedIn, transferred, feeUnlocked, clientSum, providerSum, slashedSum]
      split <;> linarith

/-- A deal of ten epochs at two per epoch, between client `0` and provider `1`. -/
def halfwayDeal : DealProposal Nat := ⟨0, 1, 10, 20, 2, 5, 3⟩

/-- The market with the deal's funds locked: its fee and collaterals. -/
def halfwayMarket : MarketState Nat :=
  ⟨⟨(SortedMap.empty.set 0 100).set 1 10⟩, ⟨(SortedMap.empty.set 0 23).set 1 5⟩, 3, 20, 5⟩

/-- The deal activated at its start and scheduled for it. -/
def halfwayLife : DealLife Nat :=
  ⟨10, halfwayMarket, some (⟨10, epochUndefined, epochUndefined⟩, 10)⟩

/-- The deal's sector is terminated halfway and cron then visits it: the provider (address `1`)
gains the ten paid for the first five epochs less its slashed collateral of five, the client
(address `0`) pays ten, and both have nothing locked left: the client's fee and collateral are
released, and the provider's collateral is slashed. -/
theorem deal_payments_conserved_slashed_halfway :
    ∃ (ops : List (BalanceOp Nat)) (final : DealLife Nat),
      DealRun halfwayDeal 0 halfwayLife [.terminate 15, .cron 16] ops final ∧
      final.status = none ∧
      final.market.escrowTable.get 1 = 15 ∧ final.market.escrowTable.get 0 = 90 ∧
      final.market.lockedTable.get 0 = 0 ∧ final.market.lockedTable.get 1 = 0 := by
  obtain ⟨market', ran⟩ : ∃ market', MarketState.cronTickDeal halfwayDeal 0
      (terminateDeal halfwayDeal ⟨10, epochUndefined, epochUndefined⟩ 15) 16 halfwayMarket =
      .ok none market' := ⟨_, rfl⟩
  have run : DealRun halfwayDeal 0 halfwayLife [.terminate 15, .cron 16] _ ⟨16, market', none⟩ :=
    .terminate rfl (by decide) (.cron rfl (by decide) (by decide) ran (.done _))
  obtain ⟨-, settled⟩ := deal_payments_conserved halfwayDeal 0 _ _ _ _ _ _
    (by decide) (by decide) ⟨by decide, rfl, rfl⟩ rfl (by decide) (by decide) run
  obtain ⟨escrow, locked, -, -⟩ := settled rfl
  refine ⟨_, _, run, rfl, ?_, ?_, ?_, ?_⟩
  · rw [escrow 1]
    decide
  · rw [escrow 0]
    decide
  · rw [locked 0]
    decide
  · rw [locked 1]
    decide

end Forest.Market
