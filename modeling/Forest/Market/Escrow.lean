import Forest.Market.State
import Forest.Lib.Result
import Mathlib.Algebra.Group.Pi.Basic

/-!
# The escrow ledger

The market keeps two facts about its balances: every address has at most its escrow locked, and
the locked table sums to the three totals of locked funds.  Every successful operation keeps
both, and moves the escrow table's sum only by what was deposited, withdrawn or slashed.

Each operation is described by what it moves (`Moves`): the escrow and locked funds it adds to
each address and to the two tables' sums, and what it adds to the totals.  Moves compose, and the
two facts follow from the moves of a whole operation: the locked table and the totals move
together, and no address gains locked funds that its escrow does not cover.
-/

namespace Forest.Market

open Forest.Actor

variable {κ : Type} [LinearOrder κ]

namespace MarketState

/-! ## Running the monad -/

section Monad

variable {ε ε' α : Type} {state state' : MarketState κ}

@[simp] theorem update_eq_ok {change : MarketState κ → Except ε (MarketState κ)} {value : Unit} :
    update change state = .ok value state' ↔ change state = .ok state' := by
  unfold update
  cases change state <;> simp

@[simp] theorem fail_bind {β : Type} (error : ε) (rest : α → MarketM κ ε β) :
    (fail error >>= rest) state = .error error state := rfl

@[simp] theorem fail_ne_ok {error : ε} {value : α} : fail error state ≠ .ok value state' := by
  simp [fail]

@[simp] theorem mapError_eq_ok {rename : ε → ε'} {run : MarketM κ ε α} {value : α} :
    mapError rename run state = .ok value state' ↔ run state = .ok value state' := by
  unfold mapError
  cases run state <;> simp

end Monad

/-! ## What an operation moves -/

/-- The three totals of locked funds. -/
def lockedTotal (state : MarketState κ) : Int :=
  state.totalClientLockedColateral + state.totalClientStorageFee + state.totalProviderLockedColateral

/-- `amount` at `addr` and nothing elsewhere. -/
def single (addr : κ) (amount : Int) : κ → Int := fun other => if other = addr then amount else 0

/-- What a run moved: the escrow and locked funds each address gained, what the two tables' sums
gained and what the totals of locked funds gained. -/
structure Moves (state state' : MarketState κ) (escrowGain lockedGain : κ → Int)
    (escrowIn lockedIn totalsIn : Int) : Prop where
  escrow : ∀ addr, state'.escrowTable.get addr = state.escrowTable.get addr + escrowGain addr
  locked : ∀ addr, state'.lockedTable.get addr = state.lockedTable.get addr + lockedGain addr
  escrowTotal : state'.escrowTable.total = state.escrowTable.total + escrowIn
  lockedTableTotal : state'.lockedTable.total = state.lockedTable.total + lockedIn
  totals : state'.lockedTotal = state.lockedTotal + totalsIn

theorem Moves.refl (state : MarketState κ) : Moves state state 0 0 0 0 0 :=
  ⟨fun _ => by simp, fun _ => by simp, by simp, by simp, by simp⟩

theorem Moves.trans {first middle last : MarketState κ} {escrowGain lockedGain escrowGain'
    lockedGain' : κ → Int} {escrowIn lockedIn totalsIn escrowIn' lockedIn' totalsIn' : Int}
    (moves : Moves first middle escrowGain lockedGain escrowIn lockedIn totalsIn)
    (moves' : Moves middle last escrowGain' lockedGain' escrowIn' lockedIn' totalsIn') :
    Moves first last (escrowGain + escrowGain') (lockedGain + lockedGain') (escrowIn + escrowIn')
      (lockedIn + lockedIn') (totalsIn + totalsIn') where
  escrow addr := by rw [moves'.escrow, moves.escrow, Pi.add_apply]; omega
  locked addr := by rw [moves'.locked, moves.locked, Pi.add_apply]; omega
  escrowTotal := by rw [moves'.escrowTotal, moves.escrowTotal]; omega
  lockedTableTotal := by rw [moves'.lockedTableTotal, moves.lockedTableTotal]; omega
  totals := by rw [moves'.totals, moves.totals]; omega

/-- No address has more locked than in escrow. -/
def Covered (state : MarketState κ) : Prop :=
  ∀ addr, state.lockedTable.get addr ≤ state.escrowTable.get addr

/-- The ledger invariant of the market. -/
structure Ledger (state : MarketState κ) : Prop where
  covered : state.Covered
  totals : state.lockedTable.total = state.lockedTotal

/-- A run that keeps the ledger's balance: it moves the locked table and the totals alike, gives
no address locked funds beyond its escrow gain, and moves the escrow table's sum by `escrowIn`. -/
def Keeps (state state' : MarketState κ) (escrowIn : Int) : Prop :=
  ∃ escrowGain lockedGain lockedIn, Moves state state' escrowGain lockedGain escrowIn lockedIn lockedIn ∧
    ∀ addr, lockedGain addr ≤ escrowGain addr

theorem Keeps.refl (state : MarketState κ) : Keeps state state 0 :=
  ⟨0, 0, 0, Moves.refl state, fun _ => le_refl 0⟩

theorem Keeps.trans {first middle last : MarketState κ} {escrowIn escrowIn' : Int}
    (keeps : Keeps first middle escrowIn) (keeps' : Keeps middle last escrowIn') :
    Keeps first last (escrowIn + escrowIn') := by
  obtain ⟨escrowGain, lockedGain, lockedIn, moves, dominated⟩ := keeps
  obtain ⟨escrowGain', lockedGain', lockedIn', moves', dominated'⟩ := keeps'
  refine ⟨_, _, _, moves.trans moves', fun addr => ?_⟩
  simp only [Pi.add_apply]
  exact Int.add_le_add (dominated addr) (dominated' addr)

theorem Keeps.of_moves {state state' : MarketState κ} {escrowGain lockedGain : κ → Int}
    {escrowIn lockedIn : Int}
    (moves : Moves state state' escrowGain lockedGain escrowIn lockedIn lockedIn)
    (dominated : ∀ addr, lockedGain addr ≤ escrowGain addr) : Keeps state state' escrowIn :=
  ⟨_, _, _, moves, dominated⟩

/-- After a run every address is covered when its locked funds and gain stay within its escrow
and gain. -/
theorem Covered.of_moves {state state' : MarketState κ} {escrowGain lockedGain : κ → Int}
    {escrowIn lockedIn totalsIn : Int}
    (moves : Moves state state' escrowGain lockedGain escrowIn lockedIn totalsIn)
    (fits : ∀ addr,
      state.lockedTable.get addr + lockedGain addr ≤ state.escrowTable.get addr + escrowGain addr) :
    state'.Covered := by
  intro addr
  rw [moves.locked, moves.escrow]
  exact fits addr

/-- A run that moves the locked table and the totals alike keeps the ledger when it ends
covered. -/
theorem Ledger.of_moves {state state' : MarketState κ} {escrowGain lockedGain : κ → Int}
    {escrowIn lockedIn : Int} (ledger : Ledger state)
    (moves : Moves state state' escrowGain lockedGain escrowIn lockedIn lockedIn)
    (covered : state'.Covered) : Ledger state' where
  covered := covered
  totals := by rw [moves.lockedTableTotal, moves.totals, ledger.totals]

/-- A run that keeps the balance keeps the ledger and moves the escrow sum as it says. -/
theorem Ledger.of_keeps {state state' : MarketState κ} {escrowIn : Int} (ledger : Ledger state)
    (keeps : Keeps state state' escrowIn) :
    Ledger state' ∧ state'.escrowTable.total = state.escrowTable.total + escrowIn := by
  obtain ⟨escrowGain, lockedGain, lockedIn, moves, dominated⟩ := keeps
  have covered := Covered.of_moves moves fun addr => by
    have := ledger.covered addr
    have := dominated addr
    omega
  exact ⟨ledger.of_moves moves covered, moves.escrowTotal⟩

theorem single_nonpos {addr : κ} {amount : Int} (nonpos : amount ≤ 0) (other : κ) :
    single addr amount other ≤ 0 := by
  unfold single
  split
  · exact nonpos
  · exact le_refl 0

theorem single_nonneg {addr : κ} {amount : Int} (nonneg : 0 ≤ amount) (other : κ) :
    0 ≤ single addr amount other := by
  unfold single
  split
  · exact nonneg
  · exact le_refl 0

@[simp] theorem single_zero (addr : κ) : single addr 0 = 0 := by
  funext other
  simp [single]

/-- A run that moves the funds of one address keeps every address covered when that address
stays covered. -/
theorem Covered.of_single {state state' : MarketState κ} {addr : κ} {escrowGain lockedGain : Int}
    {escrowIn lockedIn totalsIn : Int} (covered : state.Covered)
    (moves : Moves state state' (single addr escrowGain) (single addr lockedGain) escrowIn lockedIn
      totalsIn)
    (stays : state.lockedTable.get addr + lockedGain ≤ state.escrowTable.get addr + escrowGain) :
    state'.Covered := by
  refine Covered.of_moves moves fun other => ?_
  by_cases same : other = addr
  · subst same
    simpa [single] using stays
  · simpa [single, same] using covered other

@[simp] theorem covered_adjustTotal (reason : Reason) (amount : Int) (state : MarketState κ) :
    (adjustTotal reason amount state).Covered ↔ state.Covered := by
  cases reason <;> exact Iff.rfl

/-! ## The primitive operations -/

theorem lockedTotal_adjustTotal (reason : Reason) (amount : Int) (state : MarketState κ) :
    (adjustTotal reason amount state).lockedTotal = state.lockedTotal + amount := by
  cases reason <;> simp only [adjustTotal, lockedTotal] <;> omega

theorem moves_adjustTotal (reason : Reason) (amount : Int) (state : MarketState κ) :
    Moves state (adjustTotal reason amount state) 0 0 0 0 amount where
  escrow addr := by cases reason <;> simp [adjustTotal]
  locked addr := by cases reason <;> simp [adjustTotal]
  escrowTotal := by cases reason <;> simp [adjustTotal]
  lockedTableTotal := by cases reason <;> simp [adjustTotal]
  totals := lockedTotal_adjustTotal reason amount state

/-- Changing the locked table by a successful `add` moves the locked funds of one address. -/
theorem moves_lockedTable_add {state : MarketState κ} {addr : κ} {amount : Int}
    {table : BalanceTable κ} (added : state.lockedTable.add addr amount = .ok table) :
    Moves state { state with lockedTable := table } 0 (single addr amount) 0 amount 0 where
  escrow addr := by simp
  locked other := by
    rw [BalanceTable.get_add added]
    by_cases same : other = addr <;> simp [single, same]
  escrowTotal := by simp
  lockedTableTotal := BalanceTable.total_add added
  totals := by simp [lockedTotal]

/-- Changing the escrow table by a successful `add` moves the escrow of one address. -/
theorem moves_escrowTable_add {state : MarketState κ} {addr : κ} {amount : Int}
    {table : BalanceTable κ} (added : state.escrowTable.add addr amount = .ok table) :
    Moves state { state with escrowTable := table } (single addr amount) 0 amount 0 0 where
  escrow other := by
    rw [BalanceTable.get_add added]
    by_cases same : other = addr <;> simp [single, same]
  locked addr := by simp
  escrowTotal := BalanceTable.total_add added
  lockedTableTotal := by simp
  totals := by simp [lockedTotal]

/-- `unlock_balance` takes the amount from the address's locked funds and from the totals. -/
theorem unlockBalance_spec {addr : κ} {amount : Int} {reason : Reason} {state state' : MarketState κ}
    {value : Unit} (ran : unlockBalance addr amount reason state = .ok value state') :
    0 ≤ amount ∧ Moves state state' 0 (single addr (-amount)) 0 (-amount) (-amount) := by
  simp only [unlockBalance] at ran
  split at ran
  · simp at ran
  · rename_i notNegative
    obtain ⟨⟨⟩, unlocked, subtracted, changed⟩ := EStateM.bind_eq_ok.mp ran
    rw [update_eq_ok] at subtracted
    split at subtracted
    · rename_i table mustSubtracted
      cases subtracted
      rw [EStateM.modify_apply] at changed
      cases changed
      have moved := moves_lockedTable_add (BalanceTable.mustSubtract_cases mustSubtracted).2
      refine ⟨by omega, ?_⟩
      simpa using moved.trans (moves_adjustTotal reason (-amount) _)
    · cases subtracted

/-- `unlock_balance` keeps the balance: it releases locked funds only. -/
theorem keeps_unlockBalance {addr : κ} {amount : Int} {reason : Reason}
    {state state' : MarketState κ} {value : Unit}
    (ran : unlockBalance addr amount reason state = .ok value state') : Keeps state state' 0 := by
  obtain ⟨nonneg, moves⟩ := unlockBalance_spec ran
  exact Keeps.of_moves moves (single_nonpos (by omega))

/-- `slash_balance` takes the amount from the address's escrow, its locked funds and the
totals. -/
theorem slashBalance_moves {addr : κ} {amount : Int} {reason : Reason}
    {state state' : MarketState κ} {value : Unit}
    (ran : slashBalance addr amount reason state = .ok value state') :
    0 ≤ amount ∧ Moves state state' (single addr (-amount)) (single addr (-amount)) (-amount)
      (-amount) (-amount) := by
  simp only [slashBalance] at ran
  split at ran
  · simp at ran
  · rename_i notNegative
    obtain ⟨⟨⟩, subtracted, updated, unlocked⟩ := EStateM.bind_eq_ok.mp ran
    rw [update_eq_ok] at updated
    split at updated
    · rename_i table mustSubtracted
      cases updated
      have escrowMoved := moves_escrowTable_add (BalanceTable.mustSubtract_cases mustSubtracted).2
      obtain ⟨-, lockedMoved⟩ := unlockBalance_spec unlocked
      exact ⟨by omega, by simpa using escrowMoved.trans lockedMoved⟩
    · cases updated

/-- `slash_balance` keeps the balance: the escrow it takes is the locked funds it takes. -/
theorem slashBalance_spec {addr : κ} {amount : Int} {reason : Reason} {state state' : MarketState κ}
    {value : Unit} (ran : slashBalance addr amount reason state = .ok value state') :
    0 ≤ amount ∧ Keeps state state' (-amount) := by
  obtain ⟨nonneg, moves⟩ := slashBalance_moves ran
  exact ⟨nonneg, Keeps.of_moves moves fun _ => le_refl _⟩

/-- `transfer_balance` moves escrow from one address to another and releases as much of the
first's locked funds. -/
theorem transferBalance_moves {fromAddr toAddr : κ} {amount : Int} {state state' : MarketState κ}
    {value : Unit} (ran : transferBalance fromAddr toAddr amount state = .ok value state') :
    0 ≤ amount ∧ Moves state state' (single fromAddr (-amount) + single toAddr amount)
      (single fromAddr (-amount)) 0 (-amount) (-amount) := by
  simp only [transferBalance] at ran
  split at ran
  · simp at ran
  · rename_i notNegative
    obtain ⟨⟨⟩, subtracted, updated, rest⟩ := EStateM.bind_eq_ok.mp ran
    rw [update_eq_ok] at updated
    split at updated
    · rename_i table mustSubtracted
      cases updated
      obtain ⟨⟨⟩, unlocked, unlockedRan, added⟩ := EStateM.bind_eq_ok.mp rest
      rw [mapError_eq_ok] at unlockedRan
      obtain ⟨-, lockedMoved⟩ := unlockBalance_spec unlockedRan
      rw [update_eq_ok] at added
      split at added
      · rename_i table' addedOk
        cases added
        have taken := moves_escrowTable_add (BalanceTable.mustSubtract_cases mustSubtracted).2
        have given := moves_escrowTable_add addedOk
        exact ⟨by omega, by simpa using (taken.trans lockedMoved).trans given⟩
      · cases added
    · cases updated

/-- `transfer_balance` keeps the balance: the sender's escrow covers what it releases. -/
theorem transferBalance_spec {fromAddr toAddr : κ} {amount : Int} {state state' : MarketState κ}
    {value : Unit} (ran : transferBalance fromAddr toAddr amount state = .ok value state') :
    0 ≤ amount ∧ Keeps state state' 0 := by
  obtain ⟨nonneg, moves⟩ := transferBalance_moves ran
  refine ⟨nonneg, Keeps.of_moves moves fun other => ?_⟩
  have received : 0 ≤ single toAddr amount other := single_nonneg nonneg other
  simp only [Pi.add_apply]
  omega

/-- `maybe_lock_balance` locks the amount at the address after checking that its escrow covers
its locked funds and the amount. -/
theorem maybeLockBalance_spec {addr : κ} {amount : Int} {state state' : MarketState κ}
    {value : Unit} (ran : maybeLockBalance addr amount state = .ok value state') :
    0 ≤ amount ∧ state.lockedTable.get addr + amount ≤ state.escrowTable.get addr ∧
      Moves state state' 0 (single addr amount) 0 amount 0 := by
  simp only [maybeLockBalance] at ran
  split at ran
  · simp at ran
  · rename_i notNegative
    rw [EStateM.get_bind] at ran
    split at ran
    · simp at ran
    · rename_i covered
      rw [update_eq_ok] at ran
      split at ran
      · rename_i table added
        cases ran
        exact ⟨by omega, by omega, moves_lockedTable_add added⟩
      · cases ran

/-- Locking an amount that the address's escrow covers keeps every address covered. -/
theorem Covered.of_lock {state state' : MarketState κ} {addr : κ} {amount : Int}
    (covered : state.Covered)
    (fits : state.lockedTable.get addr + amount ≤ state.escrowTable.get addr)
    (moves : Moves state state' 0 (single addr amount) 0 amount 0) : state'.Covered := by
  refine Covered.of_moves moves fun other => ?_
  by_cases same : other = addr
  · subst same
    simpa [single] using fits
  · simpa [single, same] using covered other

/-! ## The deal operations -/

/-- `lock_client_and_provider_balances` locks what the client and the provider owe for the deal,
and adds it to the totals. -/
theorem lockClientAndProviderBalances_spec {proposal : DealProposal κ}
    {state state' : MarketState κ} {value : Unit} (ledger : Ledger state)
    (ran : lockClientAndProviderBalances proposal state = .ok value state') :
    Ledger state' ∧ state'.escrowTable.total = state.escrowTable.total := by
  simp only [lockClientAndProviderBalances] at ran
  obtain ⟨⟨⟩, afterClient, clientRan, rest⟩ := EStateM.bind_eq_ok.mp ran
  obtain ⟨⟨⟩, afterProvider, providerRan, rest⟩ := EStateM.bind_eq_ok.mp rest
  rw [mapError_eq_ok] at clientRan providerRan
  simp only [EStateM.modify_bind, EStateM.modify_apply] at rest
  cases rest
  obtain ⟨-, clientFits, clientMoves⟩ := maybeLockBalance_spec clientRan
  obtain ⟨-, providerFits, providerMoves⟩ := maybeLockBalance_spec providerRan
  have clientCovered := Covered.of_lock ledger.covered clientFits clientMoves
  have providerCovered := Covered.of_lock clientCovered providerFits providerMoves
  -- the client's requirement is its collateral and its storage fee, the two totals it adds to
  have moves := ((clientMoves.trans providerMoves).trans
    (moves_adjustTotal .clientCollateral proposal.clientCollateral _)).trans
    ((moves_adjustTotal .clientStorageFee proposal.totalStorageFee _).trans
      (moves_adjustTotal .providerCollateral proposal.providerCollateral _))
  refine ⟨⟨by simpa using providerCovered, ?_⟩, by simpa using moves.escrowTotal⟩
  rw [moves.lockedTableTotal, moves.totals, ledger.totals, DealProposal.clientBalanceRequirement]
  omega

/-- `add_balance` deposits a positive amount into the nominal's escrow. -/
theorem addBalance_spec {nominal : κ} {msgValue : Int} {state state' : MarketState κ}
    {value : Unit} (ran : addBalance nominal msgValue state = .ok value state') :
    0 < msgValue ∧ Keeps state state' msgValue := by
  simp only [addBalance] at ran
  split at ran
  · simp at ran
  · rename_i positive
    rw [update_eq_ok] at ran
    split at ran
    · rename_i table added
      cases ran
      refine ⟨by omega, Keeps.of_moves (moves_escrowTable_add added) fun other => ?_⟩
      exact single_nonneg (by omega) other
    · cases ran

/-- `withdraw_balance` takes from the nominal's escrow what is not locked, up to the amount, and
returns it. -/
theorem withdrawBalance_spec {nominal : κ} {amount : Int} {state state' : MarketState κ}
    {extracted : Int} (ledger : Ledger state)
    (ran : withdrawBalance nominal amount state = .ok extracted state') :
    extracted = min (state.escrowTable.get nominal - state.lockedTable.get nominal) amount ∧
      0 ≤ extracted ∧ Ledger state' ∧
      state'.escrowTable.total = state.escrowTable.total - extracted := by
  simp only [withdrawBalance] at ran
  split at ran
  · simp at ran
  rename_i notNegative
  rw [EStateM.get_bind] at ran
  cases subtracted :
      state.escrowTable.subtractWithMinimum nominal amount (state.lockedTable.get nominal) with
  | error text =>
    simp only [subtracted] at ran
    simp at ran
  | ok result =>
    obtain ⟨table, taken⟩ := result
    simp only [subtracted] at ran
    obtain ⟨⟨⟩, afterSet, setRan, returned⟩ := EStateM.bind_eq_ok.mp ran
    rw [EStateM.set_apply] at setRan
    cases setRan
    rw [EStateM.pure_apply] at returned
    cases returned
    obtain ⟨computed, positiveAdds, otherwise⟩ := BalanceTable.subtractWithMinimum_cases subtracted
    -- the escrow covers the locked funds, so the amount taken is not negative
    have covered := ledger.covered nominal
    have nonneg : 0 ≤ extracted := by omega
    refine ⟨computed, nonneg, ?_⟩
    by_cases positive : 0 < extracted
    · have moves := moves_escrowTable_add (positiveAdds positive)
      have stays : state.lockedTable.get nominal + 0 ≤ state.escrowTable.get nominal + -extracted := by
        omega
      have atNominal : Moves state { state with escrowTable := table }
          (single nominal (-extracted)) (single nominal 0) (-extracted) 0 0 := by
        simpa using moves
      refine ⟨ledger.of_moves moves (Covered.of_single ledger.covered atNominal stays), ?_⟩
      rw [moves.escrowTotal]
      omega
    · have unchanged := otherwise positive
      subst unchanged
      have none : extracted = 0 := by omega
      subst none
      exact ⟨ledger, by simp⟩

/-- `process_deal_expired` only unlocks. -/
theorem keeps_processDealExpired {deal : DealProposal κ} {dealState : DealState}
    {state state' : MarketState κ} {value : Unit}
    (ran : processDealExpired deal dealState state = .ok value state') : Keeps state state' 0 := by
  simp only [processDealExpired] at ran
  split at ran
  · simp at ran
  · obtain ⟨⟨⟩, middle, providerRan, clientRan⟩ := EStateM.bind_eq_ok.mp ran
    rw [mapError_eq_ok] at providerRan clientRan
    simpa using (keeps_unlockBalance providerRan).trans (keeps_unlockBalance clientRan)

/-- `process_deal_init_timed_out` unlocks the client's funds and slashes the provider's
collateral, which it returns. -/
theorem processDealInitTimedOut_spec {deal : DealProposal κ} {state state' : MarketState κ}
    {slashed : Int} (ran : processDealInitTimedOut deal state = .ok slashed state') :
    0 ≤ slashed ∧ Keeps state state' (-slashed) := by
  simp only [processDealInitTimedOut] at ran
  obtain ⟨⟨⟩, afterFee, feeRan, rest⟩ := EStateM.bind_eq_ok.mp ran
  obtain ⟨⟨⟩, afterCollateral, collateralRan, rest⟩ := EStateM.bind_eq_ok.mp rest
  obtain ⟨⟨⟩, afterSlash, slashRan, rest⟩ := EStateM.bind_eq_ok.mp rest
  obtain ⟨⟨⟩, afterRemaining, remainingRan, returned⟩ := EStateM.bind_eq_ok.mp rest
  rw [mapError_eq_ok] at feeRan collateralRan slashRan remainingRan
  rw [EStateM.pure_apply] at returned
  cases returned
  obtain ⟨nonneg, slashKeeps⟩ := slashBalance_spec slashRan
  have unlocked := (keeps_unlockBalance feeRan).trans (keeps_unlockBalance collateralRan)
  exact ⟨nonneg, by simpa using (unlocked.trans slashKeeps).trans (keeps_unlockBalance remainingRan)⟩

/-- `update_pending_deal_state` pays the provider by a transfer and settles a slashed deal by
slashing the provider's collateral, which it returns. -/
theorem updatePendingDealState_spec {dealState : DealState} {deal : DealProposal κ} {epoch : Int}
    {state state' : MarketState κ} {result : Int × Int × Bool}
    (ran : updatePendingDealState dealState deal epoch state = .ok result state') :
    0 ≤ result.1 ∧ Keeps state state' (-result.1) := by
  unfold updatePendingDealState at ran
  split at ran
  · simp at ran
  beta_reduce at ran
  split at ran
  · -- the deal has not started: nothing is paid
    cases ran
    exact ⟨le_refl 0, by simpa using Keeps.refl state⟩
  -- name the join points of the body: what follows the payment, the payment, and the checks of
  -- a slashed deal
  extract_lets paymentStartEpoch slashed next settle pay payUntilSlash checkSlashEnd at ran
  have settled : ∀ {state state' : MarketState κ} {result : Int × Int × Bool},
      settle () state = .ok result state' → 0 ≤ result.1 ∧ Keeps state state' (-result.1) := by
    intro state state' result ran
    simp only [settle] at ran
    split at ran
    · -- a slashed deal: unlock the client's remaining fee and collateral, slash the provider
      obtain ⟨remaining, computed, remainingRan, rest⟩ := EStateM.bind_eq_ok.mp ran
      have unchanged : computed = state := by
        split at remainingRan <;> cases remainingRan
        rfl
      subst unchanged
      obtain ⟨⟨⟩, afterFee, feeRan, rest⟩ := EStateM.bind_eq_ok.mp rest
      obtain ⟨⟨⟩, afterCollateral, collateralRan, rest⟩ := EStateM.bind_eq_ok.mp rest
      obtain ⟨⟨⟩, afterSlash, slashRan, returned⟩ := EStateM.bind_eq_ok.mp rest
      rw [mapError_eq_ok] at feeRan collateralRan slashRan
      rw [EStateM.pure_apply] at returned
      cases returned
      obtain ⟨nonneg, slashKeeps⟩ := slashBalance_spec slashRan
      have unlocked := (keeps_unlockBalance feeRan).trans (keeps_unlockBalance collateralRan)
      exact ⟨nonneg, by simpa using unlocked.trans slashKeeps⟩
    · split at ran
      · -- an expired deal: unlock both collaterals
        obtain ⟨⟨⟩, afterExpiry, expired, returned⟩ := EStateM.bind_eq_ok.mp ran
        rw [EStateM.pure_apply] at returned
        cases returned
        exact ⟨le_refl 0, by simpa using keeps_processDealExpired expired⟩
      · cases ran
        exact ⟨le_refl 0, by simpa using Keeps.refl _⟩
  have paid : ∀ {paymentEndEpoch : Int} {state state' : MarketState κ} {result : Int × Int × Bool},
      pay paymentEndEpoch state = .ok result state' →
        0 ≤ result.1 ∧ Keeps state state' (-result.1) := by
    intro paymentEndEpoch state state' result ran
    simp only [pay] at ran
    split at ran
    · obtain ⟨⟨⟩, afterPayment, transferred, rest⟩ := EStateM.bind_eq_ok.mp ran
      obtain ⟨-, transferKeeps⟩ := transferBalance_spec transferred
      obtain ⟨nonneg, settleKeeps⟩ := settled rest
      exact ⟨nonneg, by simpa using transferKeeps.trans settleKeeps⟩
    · exact settled ran
  split at ran
  · -- a slashed deal is paid up to its slash epoch, after two checks
    split at ran
    · simp at ran
    simp only [checkSlashEnd] at ran
    split at ran
    · simp at ran
    simp only [payUntilSlash, EStateM.pure_bind] at ran
    exact paid ran
  · rw [EStateM.pure_bind] at ran
    exact paid ran

end MarketState

/-! ## The operations on the ledger -/

/-- The operations that move escrow or locked funds: the four of a `MarketStateMutation` and the
actor's two methods that deposit and withdraw. -/
inductive EscrowOp (κ : Type) where
  | lockClientAndProviderBalances (proposal : DealProposal κ)
  | updatePendingDealState (dealState : DealState) (deal : DealProposal κ) (epoch : Int)
  | processDealInitTimedOut (deal : DealProposal κ)
  | processDealExpired (deal : DealProposal κ) (dealState : DealState)
  | addBalance (nominal : κ) (msgValue : Int)
  | withdrawBalance (nominal : κ) (amount : Int)

namespace EscrowOp

/-- Run the operation.  Its value is the amount it reports: what a deal operation slashed, what a
withdrawal sends to the recipient, and nothing for the others. -/
def run : EscrowOp κ → MarketM κ ActorError Int
  | .lockClientAndProviderBalances proposal => do
    MarketState.lockClientAndProviderBalances proposal
    pure 0
  | .updatePendingDealState dealState deal epoch => do
    let (slashed, _, _) ← MarketState.updatePendingDealState dealState deal epoch
    pure slashed
  | .processDealInitTimedOut deal => MarketState.processDealInitTimedOut deal
  | .processDealExpired deal dealState => do
    MarketState.processDealExpired deal dealState
    pure 0
  | .addBalance nominal msgValue => do
    MarketState.addBalance nominal msgValue
    pure 0
  | .withdrawBalance nominal amount => MarketState.withdrawBalance nominal amount

/-- What the operation adds to the sum of the escrow table, given what it reported: a deposit,
or minus the withdrawn or slashed amount. -/
def escrowChange : EscrowOp κ → Int → Int
  | .addBalance _ msgValue, _ => msgValue
  | .lockClientAndProviderBalances _, reported
  | .updatePendingDealState _ _ _, reported
  | .processDealInitTimedOut _, reported
  | .processDealExpired _ _, reported
  | .withdrawBalance _ _, reported => -reported

end EscrowOp

open MarketState in
/-- One operation keeps the ledger, reports an amount that is not negative, and moves the escrow
table's sum only by the deposit, the withdrawn amount or the slashed amount. -/
theorem EscrowOp.run_keeps_ledger {op : EscrowOp κ} {state state' : MarketState κ}
    {reported : Int} (ledger : state.Ledger) (ran : op.run state = .ok reported state') :
    state'.Ledger ∧ 0 ≤ reported ∧
      state'.escrowTable.total = state.escrowTable.total + op.escrowChange reported := by
  cases op with
  | lockClientAndProviderBalances proposal =>
    obtain ⟨⟨⟩, locked, lockRan, returned⟩ := EStateM.bind_eq_ok.mp ran
    rw [EStateM.pure_apply] at returned
    cases returned
    obtain ⟨ledger', total⟩ := lockClientAndProviderBalances_spec ledger lockRan
    exact ⟨ledger', le_refl 0, by simpa [EscrowOp.escrowChange] using total⟩
  | updatePendingDealState dealState deal epoch =>
    obtain ⟨⟨slashed, next, done⟩, updated, updateRan, returned⟩ := EStateM.bind_eq_ok.mp ran
    dsimp only at returned
    rw [EStateM.pure_apply] at returned
    cases returned
    obtain ⟨nonneg, keeps⟩ := updatePendingDealState_spec updateRan
    obtain ⟨ledger', total⟩ := ledger.of_keeps keeps
    exact ⟨ledger', nonneg, total⟩
  | processDealInitTimedOut deal =>
    obtain ⟨nonneg, keeps⟩ := processDealInitTimedOut_spec ran
    obtain ⟨ledger', total⟩ := ledger.of_keeps keeps
    exact ⟨ledger', nonneg, total⟩
  | processDealExpired deal dealState =>
    obtain ⟨⟨⟩, expired, expiredRan, returned⟩ := EStateM.bind_eq_ok.mp ran
    rw [EStateM.pure_apply] at returned
    cases returned
    obtain ⟨ledger', total⟩ := ledger.of_keeps (keeps_processDealExpired expiredRan)
    exact ⟨ledger', le_refl 0, by simpa [EscrowOp.escrowChange] using total⟩
  | addBalance nominal msgValue =>
    obtain ⟨⟨⟩, added, addRan, returned⟩ := EStateM.bind_eq_ok.mp ran
    rw [EStateM.pure_apply] at returned
    cases returned
    obtain ⟨-, keeps⟩ := addBalance_spec addRan
    obtain ⟨ledger', total⟩ := ledger.of_keeps keeps
    exact ⟨ledger', le_refl 0, total⟩
  | withdrawBalance nominal amount =>
    obtain ⟨-, nonneg, ledger', total⟩ := withdrawBalance_spec ledger ran
    exact ⟨ledger', nonneg, by rw [total, EscrowOp.escrowChange]; omega⟩

/-- Every successful operation keeps the ledger, reports an amount that is not negative, and
moves the escrow table's sum only by the deposit, the withdrawn amount or the slashed amount. -/
theorem escrowOp_keeps_ledger {op : EscrowOp κ} {state state' : MarketState κ} {reported : Int}
    (ledger : state.Ledger) (ran : op.run state = .ok reported state') :
    state'.Ledger ∧ 0 ≤ reported ∧
      state'.escrowTable.total = state.escrowTable.total + op.escrowChange reported :=
  EscrowOp.run_keeps_ledger ledger ran

/-- A market where address 1 has 10 in escrow, 4 of it locked as client collateral. -/
def fundedMarket : MarketState Nat where
  escrowTable := ⟨SortedMap.empty.set 1 10⟩
  lockedTable := ⟨SortedMap.empty.set 1 4⟩
  totalClientLockedColateral := 4
  totalClientStorageFee := 0
  totalProviderLockedColateral := 0

/-- The funded market keeps the ledger: 4 of the 10 in escrow are locked. -/
theorem fundedMarket_ledger : fundedMarket.Ledger := by
  refine ⟨fun addr => ?_, rfl⟩
  by_cases same : 1 = addr <;>
    simp [fundedMarket, BalanceTable.get, SortedMap.get?_empty, same]

/-- Withdrawing 100 from the funded market sends the 6 that are not locked. -/
theorem escrowOp_keeps_ledger_withdraw_six :
    fundedMarket.Ledger ∧
      (EscrowOp.withdrawBalance 1 100).run fundedMarket =
        .ok 6 { fundedMarket with escrowTable := ⟨SortedMap.empty.set 1 4⟩ } ∧
      ({ fundedMarket with escrowTable := ⟨SortedMap.empty.set 1 4⟩ } : MarketState Nat).Ledger ∧
      (0 : Int) ≤ 6 ∧
      (⟨SortedMap.empty.set 1 4⟩ : BalanceTable Nat).total =
        fundedMarket.escrowTable.total + (EscrowOp.withdrawBalance 1 100).escrowChange 6 := by
  have ran : (EscrowOp.withdrawBalance 1 100).run fundedMarket =
      .ok 6 { fundedMarket with escrowTable := ⟨SortedMap.empty.set 1 4⟩ } := rfl
  exact ⟨fundedMarket_ledger, ran, escrowOp_keeps_ledger fundedMarket_ledger ran⟩

/-- Operations run one after another keep the ledger, report amounts that are not negative, and
move the escrow table's sum by the sum of their changes. -/
theorem escrowOps_keep_ledger {ops : List (EscrowOp κ)} {state state' : MarketState κ}
    {reports : List Int} (ledger : state.Ledger)
    (ran : ops.mapM EscrowOp.run state = .ok reports state') :
    state'.Ledger ∧ (∀ reported ∈ reports, 0 ≤ reported) ∧
      state'.escrowTable.total =
        state.escrowTable.total + (List.zipWith EscrowOp.escrowChange ops reports).sum := by
  -- induction on the operations, from any state that keeps the ledger
  induction ops generalizing state reports with
  | nil =>
    rw [List.mapM_nil, EStateM.pure_apply] at ran
    cases ran
    exact ⟨ledger, by simp, by simp⟩
  | cons op rest inductionHypothesis =>
    rw [List.mapM_cons] at ran
    obtain ⟨reported, middle, stepRan, restRan⟩ := EStateM.bind_eq_ok.mp ran
    obtain ⟨reportsRest, last, runRan, returned⟩ := EStateM.bind_eq_ok.mp restRan
    rw [EStateM.pure_apply] at returned
    cases returned
    obtain ⟨middleLedger, nonneg, stepTotal⟩ := EscrowOp.run_keeps_ledger ledger stepRan
    obtain ⟨lastLedger, restNonneg, restTotal⟩ := inductionHypothesis middleLedger runRan
    refine ⟨lastLedger, ?_, ?_⟩
    · intro value mem
      rcases List.mem_cons.mp mem with same | inRest
      · exact same ▸ nonneg
      · exact restNonneg value inRest
    · rw [restTotal, stepTotal, List.zipWith_cons_cons, List.sum_cons]
      omega

/-- Withdrawing 100 twice from the funded market sends the 6 that are not locked and then
nothing: the escrow table's sum drops by 6, and the market still keeps the ledger. -/
theorem escrowOps_keep_ledger_withdraw_twice :
    ∃ state', [EscrowOp.withdrawBalance 1 100, .withdrawBalance 1 100].mapM EscrowOp.run
        fundedMarket = .ok [6, 0] state' ∧
      state'.Ledger ∧ (∀ reported ∈ [(6 : Int), 0], 0 ≤ reported) ∧
      state'.escrowTable.total = fundedMarket.escrowTable.total +
        (List.zipWith EscrowOp.escrowChange
          [EscrowOp.withdrawBalance 1 100, .withdrawBalance 1 100] [6, 0]).sum := by
  obtain ⟨state', ran⟩ : ∃ state', [EscrowOp.withdrawBalance 1 100, .withdrawBalance 1 100].mapM
      EscrowOp.run fundedMarket = .ok [6, 0] state' := ⟨_, rfl⟩
  exact ⟨state', ran, escrowOps_keep_ledger fundedMarket_ledger ran⟩

end Forest.Market

