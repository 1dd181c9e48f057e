import Forest.Miner.EarlyTerminations
import Forest.Lib.I64
import Forest.Lib.Loop
import Mathlib.Data.Nat.Find

/-!
# Deadline timing

A miner's proving period of `WPOST_PROVING_PERIOD` epochs is cut into
`WPOST_PERIOD_DEADLINES` deadlines of `WPOST_CHALLENGE_WINDOW` epochs each.  `DeadlineInfo`
of `types/src/deadlines/mod.rs` holds the epochs of one deadline, computed by
`DeadlineInfo::new` from the start of its proving period and its index.

The miner finds the current deadline in two ways (`miner/deadlines.rs`, `miner/state.rs`):
`deadline_info` rounds the current epoch down to the grid of period starts through the
recorded `proving_period_start`, and `recorded_deadline_info` reads the period start and
the deadline index that `advance_deadline` keeps.  `deadlineInfo_eq` says what the first
computes for every epoch, and `advanceDeadlinePeriod_agrees` that the two agree on the epoch
after the last one of a deadline, when the cron has just advanced.

`next_not_elapsed` searches an iterator without end for the first instance of a deadline,
one proving period after another, that has not closed.  It is modelled with a bound on the
number of instances looked at (`nextNotElapsed`), and `nextNotElapsed_of_new` says that for a
deadline built by `DeadlineInfo::new` with a positive proving period enough fuel always finds
the deadline shifted by the least number of periods that reopens it.  The default
`DeadlineInfo` has a proving period of zero, and for it the search never ends
(`nextNotElapsed_default`).

Epochs are integers, as in `Policy`; the constants are those of the main network.
-/

namespace Forest.Miner

/-- `EPOCH_DURATION_SECONDS`. -/
def epochDurationSeconds : Int := 30

/-- `SECONDS_IN_DAY`. -/
def secondsInDay : Int := 86400

/-- `EPOCHS_IN_DAY`. -/
def epochsInDay : Int := secondsInDay / epochDurationSeconds

/-- `WPOST_PROVING_PERIOD`: the period over which all of a miner's sectors are challenged. -/
def wPoStProvingPeriod : Int := epochsInDay

/-- `WPOST_CHALLENGE_WINDOW`: half an hour, so that the 48 deadlines fill a day. -/
def wPoStChallengeWindow : Int := 30 * 60 / epochDurationSeconds

/-- `WPOST_CHALLENGE_LOOKBACK`. -/
def wPoStChallengeLookback : Int := 20

/-- `FAULT_DECLARATION_CUTOFF`. -/
def faultDeclarationCutoff : Int := wPoStChallengeLookback + 50

theorem wPoStProvingPeriod_eq : wPoStProvingPeriod = 2880 := by decide

theorem wPoStChallengeWindow_eq : wPoStChallengeWindow = 60 := by decide

/-- `DeadlineInfo`: the epochs of one deadline and the protocol parameters they were computed
with.  `open` is a keyword of Lean, so that field is `openEpoch`. -/
structure DeadlineInfo where
  currentEpoch : Int
  periodStart : Int
  index : Nat
  openEpoch : Int
  close : Int
  challenge : Int
  faultCutoff : Int
  wPostPeriodDeadlines : Nat
  wPostProvingPeriod : Int
  wPostChallengeWindow : Int
  wPostChallengeLookback : Int
  faultDeclarationCutoff : Int
  deriving DecidableEq, Repr

namespace DeadlineInfo

/-- `Default for DeadlineInfo`: every field zero. -/
instance : Inhabited DeadlineInfo := ⟨⟨0, 0, 0, 0, 0, 0, 0, 0, 0, 0, 0, 0⟩⟩

/-- `DeadlineInfo::new`.  An index past the last deadline gives an empty deadline at the end
of the period. -/
def new (periodStart : Int) (deadlineIdx : Nat) (currentEpoch : Int) (wPostPeriodDeadlines : Nat)
    (wPostProvingPeriod wPostChallengeWindow wPostChallengeLookback faultDeclarationCutoff : Int) :
    DeadlineInfo :=
  if deadlineIdx < wPostPeriodDeadlines then
    let deadlineOpen := periodStart + I64.ofUsize deadlineIdx * wPostChallengeWindow
    { currentEpoch
      periodStart
      index := deadlineIdx
      openEpoch := deadlineOpen
      close := deadlineOpen + wPostChallengeWindow
      challenge := deadlineOpen - wPostChallengeLookback
      faultCutoff := deadlineOpen - faultDeclarationCutoff
      wPostPeriodDeadlines
      wPostProvingPeriod
      wPostChallengeWindow
      wPostChallengeLookback
      faultDeclarationCutoff }
  else
    let afterLastDeadline := periodStart + wPostProvingPeriod
    { currentEpoch
      periodStart
      index := deadlineIdx
      openEpoch := afterLastDeadline
      close := afterLastDeadline
      challenge := afterLastDeadline
      faultCutoff := 0
      wPostPeriodDeadlines
      wPostProvingPeriod
      wPostChallengeWindow
      wPostChallengeLookback
      faultDeclarationCutoff }

/-- `DeadlineInfo::period_started`. -/
def periodStarted (info : DeadlineInfo) : Bool :=
  info.currentEpoch ≥ info.periodStart

/-- `DeadlineInfo::next_period_start`. -/
def nextPeriodStart (info : DeadlineInfo) : Int :=
  info.periodStart + info.wPostProvingPeriod

/-- `DeadlineInfo::is_open`. -/
def isOpen (info : DeadlineInfo) : Bool :=
  info.currentEpoch ≥ info.openEpoch && info.currentEpoch < info.close

/-- `DeadlineInfo::has_elapsed`. -/
def hasElapsed (info : DeadlineInfo) : Bool :=
  info.currentEpoch ≥ info.close

/-- `DeadlineInfo::last`. -/
def last (info : DeadlineInfo) : Int :=
  info.close - 1

/-- The step of the iterator of `next_not_elapsed`: the same deadline in the next proving
period, computed with the parameters of the deadline the search started from. -/
def nextNotElapsedStep (self info : DeadlineInfo) : DeadlineInfo :=
  new info.nextPeriodStart info.index info.currentEpoch self.wPostPeriodDeadlines
    self.wPostProvingPeriod self.wPostChallengeWindow self.wPostChallengeLookback
    self.faultDeclarationCutoff

/-- `DeadlineInfo::next_not_elapsed`, looking at no more than `fuel` instances.  The
iterator of the source has no end; `none` only says that the fuel ran out. -/
def nextNotElapsed (self : DeadlineInfo) (fuel : Nat) : Option DeadlineInfo :=
  Loop.findSuccessor (nextNotElapsedStep self) (fun info => !info.hasElapsed) fuel self

/-- The same deadline `periods` proving periods later: its epochs move by as many periods,
the epoch it was computed at stays. -/
def shift (info : DeadlineInfo) (periods : Nat) : DeadlineInfo :=
  { info with
    periodStart := info.periodStart + periods * info.wPostProvingPeriod
    openEpoch := info.openEpoch + periods * info.wPostProvingPeriod
    close := info.close + periods * info.wPostProvingPeriod
    challenge := info.challenge + periods * info.wPostProvingPeriod
    faultCutoff := info.faultCutoff + periods * info.wPostProvingPeriod }

section New

variable {periodStart currentEpoch wPostProvingPeriod wPostChallengeWindow wPostChallengeLookback
  faultDeclarationCutoff : Int} {deadlineIdx wPostPeriodDeadlines : Nat}

@[simp]
theorem new_currentEpoch :
    (new periodStart deadlineIdx currentEpoch wPostPeriodDeadlines wPostProvingPeriod
      wPostChallengeWindow wPostChallengeLookback faultDeclarationCutoff).currentEpoch =
      currentEpoch := by
  unfold new; split <;> rfl

@[simp]
theorem new_periodStart :
    (new periodStart deadlineIdx currentEpoch wPostPeriodDeadlines wPostProvingPeriod
      wPostChallengeWindow wPostChallengeLookback faultDeclarationCutoff).periodStart =
      periodStart := by
  unfold new; split <;> rfl

@[simp]
theorem new_index :
    (new periodStart deadlineIdx currentEpoch wPostPeriodDeadlines wPostProvingPeriod
      wPostChallengeWindow wPostChallengeLookback faultDeclarationCutoff).index = deadlineIdx := by
  unfold new; split <;> rfl

@[simp]
theorem new_wPostPeriodDeadlines :
    (new periodStart deadlineIdx currentEpoch wPostPeriodDeadlines wPostProvingPeriod
      wPostChallengeWindow wPostChallengeLookback faultDeclarationCutoff).wPostPeriodDeadlines =
      wPostPeriodDeadlines := by
  unfold new; split <;> rfl

@[simp]
theorem new_wPostProvingPeriod :
    (new periodStart deadlineIdx currentEpoch wPostPeriodDeadlines wPostProvingPeriod
      wPostChallengeWindow wPostChallengeLookback faultDeclarationCutoff).wPostProvingPeriod =
      wPostProvingPeriod := by
  unfold new; split <;> rfl

@[simp]
theorem new_wPostChallengeWindow :
    (new periodStart deadlineIdx currentEpoch wPostPeriodDeadlines wPostProvingPeriod
      wPostChallengeWindow wPostChallengeLookback faultDeclarationCutoff).wPostChallengeWindow =
      wPostChallengeWindow := by
  unfold new; split <;> rfl

@[simp]
theorem new_wPostChallengeLookback :
    (new periodStart deadlineIdx currentEpoch wPostPeriodDeadlines wPostProvingPeriod
      wPostChallengeWindow wPostChallengeLookback faultDeclarationCutoff).wPostChallengeLookback =
      wPostChallengeLookback := by
  unfold new; split <;> rfl

@[simp]
theorem new_faultDeclarationCutoff :
    (new periodStart deadlineIdx currentEpoch wPostPeriodDeadlines wPostProvingPeriod
      wPostChallengeWindow wPostChallengeLookback faultDeclarationCutoff).faultDeclarationCutoff =
      faultDeclarationCutoff := by
  unfold new; split <;> rfl

theorem new_openEpoch_of_lt (below : deadlineIdx < wPostPeriodDeadlines) :
    (new periodStart deadlineIdx currentEpoch wPostPeriodDeadlines wPostProvingPeriod
      wPostChallengeWindow wPostChallengeLookback faultDeclarationCutoff).openEpoch =
      periodStart + I64.ofUsize deadlineIdx * wPostChallengeWindow := by
  simp [new, below]

/-- A deadline in range closes one challenge window after it opens. -/
theorem new_close_of_lt (below : deadlineIdx < wPostPeriodDeadlines) :
    (new periodStart deadlineIdx currentEpoch wPostPeriodDeadlines wPostProvingPeriod
      wPostChallengeWindow wPostChallengeLookback faultDeclarationCutoff).close =
      periodStart + I64.ofUsize deadlineIdx * wPostChallengeWindow + wPostChallengeWindow := by
  simp [new, below]

/-- The same deadline built some periods later is the deadline shifted by those periods. -/
theorem new_shift (below : deadlineIdx < wPostPeriodDeadlines) (periods : Nat) :
    (new periodStart deadlineIdx currentEpoch wPostPeriodDeadlines wPostProvingPeriod
        wPostChallengeWindow wPostChallengeLookback faultDeclarationCutoff).shift periods =
      new (periodStart + periods * wPostProvingPeriod) deadlineIdx currentEpoch
        wPostPeriodDeadlines wPostProvingPeriod wPostChallengeWindow wPostChallengeLookback
        faultDeclarationCutoff := by
  simp only [new, below, if_true, shift, DeadlineInfo.mk.injEq, true_and, and_true]
  omega

/-- The `periods`-th instance the search of `next_not_elapsed` looks at is the deadline
shifted by `periods` proving periods. -/
theorem iterate_nextNotElapsedStep {info : DeadlineInfo}
    (built : info = new periodStart deadlineIdx currentEpoch wPostPeriodDeadlines
      wPostProvingPeriod wPostChallengeWindow wPostChallengeLookback faultDeclarationCutoff)
    (below : deadlineIdx < wPostPeriodDeadlines) (periods : Nat) :
    (nextNotElapsedStep info)^[periods] info = info.shift periods := by
  induction periods with
  | zero => simp [shift]
  | succ periods inductionHypothesis =>
    -- one more step builds the deadline one period after the shifted one
    have onePeriodMore : periodStart + periods * wPostProvingPeriod + wPostProvingPeriod =
        periodStart + ((periods + 1 : Nat) : Int) * wPostProvingPeriod := by
      rw [Nat.cast_succ, Int.add_mul, Int.one_mul, Int.add_assoc]
    rw [Function.iterate_succ_apply', inductionHypothesis, built, new_shift below,
      new_shift below]
    simp only [nextNotElapsedStep, nextPeriodStart, new_periodStart, new_index, new_currentEpoch,
      new_wPostPeriodDeadlines, new_wPostProvingPeriod, new_wPostChallengeWindow,
      new_wPostChallengeLookback, new_faultDeclarationCutoff, onePeriodMore]

end New

theorem hasElapsed_shift (info : DeadlineInfo) (periods : Nat) :
    (info.shift periods).hasElapsed =
      decide (info.close + periods * info.wPostProvingPeriod ≤ info.currentEpoch) := by
  simp [hasElapsed, shift]

/-- For a deadline built by `DeadlineInfo::new` with its index in range and a positive proving
period, the search of `next_not_elapsed` ends: some number of periods reopens the deadline,
and with more fuel than the least such number the search returns the deadline shifted by
it. -/
theorem nextNotElapsed_of_new {info : DeadlineInfo} {periodStart currentEpoch wPostProvingPeriod
      wPostChallengeWindow wPostChallengeLookback faultDeclarationCutoff : Int}
    {deadlineIdx wPostPeriodDeadlines : Nat}
    (built : info = new periodStart deadlineIdx currentEpoch wPostPeriodDeadlines
      wPostProvingPeriod wPostChallengeWindow wPostChallengeLookback faultDeclarationCutoff)
    (below : deadlineIdx < wPostPeriodDeadlines) (positive : 0 < wPostProvingPeriod) :
    ∃ periods : Nat, info.currentEpoch < info.close + periods * info.wPostProvingPeriod ∧
      (∀ fewer < periods, info.close + fewer * info.wPostProvingPeriod ≤ info.currentEpoch) ∧
      ∀ fuel, periods < fuel → info.nextNotElapsed fuel = some (info.shift periods) := by
  have period : info.wPostProvingPeriod = wPostProvingPeriod := by rw [built, new_wPostProvingPeriod]
  -- a positive period moves the close past the current epoch after finitely many periods
  have reopens : ∃ periods : Nat, info.currentEpoch < info.close + periods * info.wPostProvingPeriod := by
    refine ⟨(info.currentEpoch - info.close).toNat + 1, ?_⟩
    have atLeastOnce : (((info.currentEpoch - info.close).toNat + 1 : Nat) : Int) * 1 ≤
        ((info.currentEpoch - info.close).toNat + 1 : Nat) * info.wPostProvingPeriod :=
      Int.mul_le_mul_of_nonneg_left (by omega) (Int.natCast_nonneg _)
    omega
  refine ⟨Nat.find reopens, Nat.find_spec reopens,
    fun fewer fewerBelow => Int.not_lt.mp (Nat.find_min reopens fewerBelow), fun fuel enough => ?_⟩
  unfold nextNotElapsed
  rw [← iterate_nextNotElapsedStep built below]
  apply Loop.findSuccessor_of_first _ _ ?found ?notBefore fuel enough
  · rw [iterate_nextNotElapsedStep built below, hasElapsed_shift]
    simpa using Nat.find_spec reopens
  · intro earlier earlierBelow
    rw [iterate_nextNotElapsedStep built below, hasElapsed_shift]
    simpa using Int.not_lt.mp (Nat.find_min reopens earlierBelow)

/-- The default `DeadlineInfo` is its own next instance and has elapsed: its index is in
range, and the search of `next_not_elapsed` never ends. -/
theorem nextNotElapsed_default :
    (default : DeadlineInfo).index < wPoStPeriodDeadlines ∧
      ∀ fuel, (default : DeadlineInfo).nextNotElapsed fuel = none := by
  have fixed : nextNotElapsedStep default default = default := by decide
  refine ⟨by decide, fun fuel => Loop.findSuccessor_of_never fuel default fun index => ?_⟩
  rw [Function.iterate_fixed fixed]
  decide

end DeadlineInfo

/-- `new_deadline_info`: a `DeadlineInfo` with the miner's parameters. -/
def newDeadlineInfo (provingPeriodStart : Int) (deadlineIdx : Nat) (currentEpoch : Int) :
    DeadlineInfo :=
  DeadlineInfo.new provingPeriodStart deadlineIdx currentEpoch wPoStPeriodDeadlines
    wPoStProvingPeriod wPoStChallengeWindow wPoStChallengeLookback faultDeclarationCutoff

/-- `new_deadline_info_from_offset_and_epoch`: the period start is the current epoch rounded
down to the grid of period starts through the seed, and the index counts the challenge
windows since.  The casts `as u64` and `as usize` keep the bits of a 64-bit word. -/
def newDeadlineInfoFromOffsetAndEpoch (periodStartSeed currentEpoch : Int) : DeadlineInfo :=
  let q : QuantSpec := ⟨wPoStProvingPeriod, periodStartSeed⟩
  let currentPeriodStart := q.quantizeDown currentEpoch
  let currentDeadlineIdx :=
    I64.toUsize ((currentEpoch - currentPeriodStart).tdiv wPoStChallengeWindow) %
      wPoStPeriodDeadlines
  newDeadlineInfo currentPeriodStart currentDeadlineIdx currentEpoch

namespace State

/-- `State::deadline_info`. -/
def deadlineInfo (state : State) (currentEpoch : Int) : DeadlineInfo :=
  newDeadlineInfoFromOffsetAndEpoch state.provingPeriodStart currentEpoch

/-- `State::recorded_deadline_info`. -/
def recordedDeadlineInfo (state : State) (currentEpoch : Int) : DeadlineInfo :=
  newDeadlineInfo state.provingPeriodStart state.currentDeadline currentEpoch

/-- The first lines of `State::advance_deadline`, which move the current deadline on and,
after the last deadline, the proving period.  What the call then does to the deadlines is
not modelled here. -/
def advanceDeadlinePeriod (state : State) (currentEpoch : Int) : State :=
  let dlInfo := state.deadlineInfo currentEpoch
  if !dlInfo.periodStarted then state
  else
    let currentDeadline := (dlInfo.index + 1) % wPoStPeriodDeadlines
    if currentDeadline = 0 then
      { state with
        currentDeadline
        provingPeriodStart := dlInfo.periodStart + wPoStProvingPeriod }
    else { state with currentDeadline }

end State

/-- What `new_deadline_info_from_offset_and_epoch` computes for every seed and epoch: the
deadline whose period starts at the epoch rounded down to the grid of period starts through
the seed, at the index of the challenge window the epoch falls in.  The shifted epoch lies
within one period, so the truncated quotient is the floored one, and the casts and the
remainder by `WPOST_PERIOD_DEADLINES` change nothing. -/
theorem newDeadlineInfoFromOffsetAndEpoch_eq (seed epoch : Int) :
    newDeadlineInfoFromOffsetAndEpoch seed epoch =
      newDeadlineInfo (Grid.floorTo wPoStProvingPeriod seed epoch)
        ((epoch - Grid.floorTo wPoStProvingPeriod seed epoch) / wPoStChallengeWindow).toNat
        epoch := by
  have positive : 0 < wPoStProvingPeriod := by decide
  have atMost := Grid.floorTo_le positive seed epoch
  have within := Grid.sub_floorTo_lt positive seed epoch
  have windowsBelow : (epoch - Grid.floorTo wPoStProvingPeriod seed epoch) / wPoStChallengeWindow
      < 48 := by
    have periodValue := wPoStProvingPeriod_eq
    rw [wPoStChallengeWindow_eq]
    omega
  have windowsNonneg : 0 ≤ (epoch - Grid.floorTo wPoStProvingPeriod seed epoch) /
      wPoStChallengeWindow := Int.ediv_nonneg (by omega) (by decide)
  have down : (QuantSpec.mk wPoStProvingPeriod seed).quantizeDown epoch =
      Grid.floorTo wPoStProvingPeriod seed epoch :=
    QuantSpec.quantizeDown_eq_floorTo positive epoch
  unfold newDeadlineInfoFromOffsetAndEpoch
  dsimp only
  rw [down, Int.tdiv_eq_ediv_of_nonneg (by omega),
    I64.toUsize_of_nonneg windowsNonneg (by omega),
    Nat.mod_eq_of_lt (show _ < wPoStPeriodDeadlines by unfold wPoStPeriodDeadlines; omega)]

/-- When a period start on the grid of the seed is at most one period before the epoch, the
deadline computed from the seed is the one of that period. -/
theorem newDeadlineInfoFromOffsetAndEpoch_of_period {seed start epoch : Int}
    (onGrid : start ≡ seed [ZMOD wPoStProvingPeriod]) (startBelow : start ≤ epoch)
    (withinPeriod : epoch < start + wPoStProvingPeriod) :
    newDeadlineInfoFromOffsetAndEpoch seed epoch =
      newDeadlineInfo start ((epoch - start) / wPoStChallengeWindow).toNat epoch := by
  have floored : Grid.floorTo wPoStProvingPeriod seed epoch = start :=
    Grid.floorTo_eq_of (by decide) startBelow (by omega) onGrid
  rw [newDeadlineInfoFromOffsetAndEpoch_eq, floored]

/-- The epochs of a deadline of the miner at a given index. -/
theorem newDeadlineInfo_epochs {start epoch : Int} {deadlineIdx : Nat}
    (below : deadlineIdx < wPoStPeriodDeadlines) :
    (newDeadlineInfo start deadlineIdx epoch).openEpoch = start + deadlineIdx * 60 ∧
      (newDeadlineInfo start deadlineIdx epoch).close = start + deadlineIdx * 60 + 60 := by
  have small : deadlineIdx < 2 ^ 63 := by unfold wPoStPeriodDeadlines at below; omega
  unfold newDeadlineInfo
  rw [DeadlineInfo.new_openEpoch_of_lt below, DeadlineInfo.new_close_of_lt below,
    I64.ofUsize_of_lt small, wPoStChallengeWindow_eq]
  exact ⟨rfl, rfl⟩

/-- The deadline `new_deadline_info_from_offset_and_epoch` finds: its period starts at the
greatest epoch at most the given one on the grid through the seed, its index counts the
challenge windows since, is in range, and the deadline is open at the epoch. -/
theorem newDeadlineInfoFromOffsetAndEpoch_spec (seed epoch : Int) :
    (newDeadlineInfoFromOffsetAndEpoch seed epoch).periodStart =
        Grid.floorTo wPoStProvingPeriod seed epoch ∧
      ((newDeadlineInfoFromOffsetAndEpoch seed epoch).index : Int) =
        (epoch - (newDeadlineInfoFromOffsetAndEpoch seed epoch).periodStart) /
          wPoStChallengeWindow ∧
      (newDeadlineInfoFromOffsetAndEpoch seed epoch).index < wPoStPeriodDeadlines ∧
      (newDeadlineInfoFromOffsetAndEpoch seed epoch).openEpoch ≤ epoch ∧
      epoch < (newDeadlineInfoFromOffsetAndEpoch seed epoch).close := by
  have positive : 0 < wPoStProvingPeriod := by decide
  have atMost := Grid.floorTo_le positive seed epoch
  have within := Grid.sub_floorTo_lt positive seed epoch
  have periodValue := wPoStProvingPeriod_eq
  rw [newDeadlineInfoFromOffsetAndEpoch_eq]
  set start := Grid.floorTo wPoStProvingPeriod seed epoch
  set windows := (epoch - start) / wPoStChallengeWindow with windowsEq
  rw [wPoStChallengeWindow_eq] at windowsEq
  have indexBelow : windows.toNat < wPoStPeriodDeadlines := by
    unfold wPoStPeriodDeadlines
    omega
  obtain ⟨opens, closes⟩ := @newDeadlineInfo_epochs start epoch windows.toNat indexBelow
  have startIs : (newDeadlineInfo start windows.toNat epoch).periodStart = start :=
    DeadlineInfo.new_periodStart
  have indexIs : (newDeadlineInfo start windows.toNat epoch).index = windows.toNat :=
    DeadlineInfo.new_index
  rw [startIs, indexIs, opens, closes, wPoStChallengeWindow_eq]
  refine ⟨rfl, by omega, indexBelow, by omega, by omega⟩

/-- On the epoch after the last one of a deadline, once the cron has advanced the deadline,
the deadline recorded in the state is the one computed from the epoch: both name the next
deadline, and after the last deadline both start the next period. -/
theorem advanceDeadlinePeriod_agrees (state : State) (epoch : Int)
    (started : state.provingPeriodStart ≤ epoch)
    (withinPeriod : epoch < state.provingPeriodStart + wPoStProvingPeriod)
    (lastEpoch : epoch = (state.deadlineInfo epoch).last) :
    (state.advanceDeadlinePeriod epoch).recordedDeadlineInfo (epoch + 1) =
      (state.advanceDeadlinePeriod epoch).deadlineInfo (epoch + 1) := by
  have periodValue := wPoStProvingPeriod_eq
  -- the deadline of the epoch is in the recorded period, at the window the epoch falls in
  set windows := (epoch - state.provingPeriodStart) / wPoStChallengeWindow with windowsEq
  have current : state.deadlineInfo epoch =
      newDeadlineInfo state.provingPeriodStart windows.toNat epoch :=
    newDeadlineInfoFromOffsetAndEpoch_of_period Int.ModEq.rfl started withinPeriod
  rw [wPoStChallengeWindow_eq] at windowsEq
  have indexBelow : windows.toNat < wPoStPeriodDeadlines := by
    unfold wPoStPeriodDeadlines
    omega
  obtain ⟨-, closes⟩ := @newDeadlineInfo_epochs state.provingPeriodStart epoch windows.toNat
    indexBelow
  have atEnd : epoch = state.provingPeriodStart + windows.toNat * 60 + 59 := by
    rw [current, DeadlineInfo.last, closes] at lastEpoch
    omega
  have startedFlag : (state.deadlineInfo epoch).periodStarted = true := by
    rw [current]
    simp [DeadlineInfo.periodStarted, newDeadlineInfo, started]
  have currentIndex : (state.deadlineInfo epoch).index = windows.toNat := by
    rw [current]
    exact DeadlineInfo.new_index
  have currentStart : (state.deadlineInfo epoch).periodStart = state.provingPeriodStart := by
    rw [current]
    exact DeadlineInfo.new_periodStart
  unfold State.advanceDeadlinePeriod
  simp only [startedFlag, Bool.not_true, Bool.false_eq_true, if_false, currentIndex, currentStart]
  by_cases lastDeadline : windows.toNat + 1 = wPoStPeriodDeadlines
  · -- after the last deadline both start the next period at its first deadline
    have wraps : (windows.toNat + 1) % wPoStPeriodDeadlines = 0 := by
      rw [lastDeadline, Nat.mod_self]
    unfold wPoStPeriodDeadlines at lastDeadline
    have nextStarted : state.provingPeriodStart + wPoStProvingPeriod ≤ epoch + 1 := by omega
    have nextWithin :
        epoch + 1 < state.provingPeriodStart + wPoStProvingPeriod + wPoStProvingPeriod := by omega
    simp only [wraps, if_true, State.recordedDeadlineInfo, State.deadlineInfo]
    rw [newDeadlineInfoFromOffsetAndEpoch_of_period Int.ModEq.rfl nextStarted nextWithin,
      wPoStChallengeWindow_eq]
    congr 1
    omega
  · -- otherwise both name the next deadline of the same period
    have stays : (windows.toNat + 1) % wPoStPeriodDeadlines = windows.toNat + 1 :=
      Nat.mod_eq_of_lt (by omega)
    simp only [stays, Nat.add_one_ne_zero, if_false, State.recordedDeadlineInfo,
      State.deadlineInfo]
    unfold wPoStPeriodDeadlines at indexBelow lastDeadline
    have nextWithin : epoch + 1 < state.provingPeriodStart + wPoStProvingPeriod := by omega
    rw [newDeadlineInfoFromOffsetAndEpoch_of_period Int.ModEq.rfl (by omega) nextWithin,
      wPoStChallengeWindow_eq]
    congr 1
    omega

/-- The timing of the miner's deadlines: the deadline computed from the seed and an epoch
starts its period at the greatest epoch at most the given one on the grid of period starts,
counts the challenge windows since and is open at the epoch; the search of
`next_not_elapsed` from a deadline built by `DeadlineInfo::new` with a positive period ends
at the deadline shifted by the least number of periods that reopens it; and after the cron
advances on the last epoch of a deadline, the recorded deadline is the computed one. -/
theorem deadline_timing_laws :
    (∀ seed epoch : Int, 0 ≤ epoch →
      (newDeadlineInfoFromOffsetAndEpoch seed epoch).periodStart ≤ epoch ∧
      (newDeadlineInfoFromOffsetAndEpoch seed epoch).periodStart ≡ seed
        [ZMOD wPoStProvingPeriod] ∧
      (∀ other, other ≤ epoch → other ≡ seed [ZMOD wPoStProvingPeriod] →
        other ≤ (newDeadlineInfoFromOffsetAndEpoch seed epoch).periodStart) ∧
      ((newDeadlineInfoFromOffsetAndEpoch seed epoch).index : Int) =
        (epoch - (newDeadlineInfoFromOffsetAndEpoch seed epoch).periodStart) /
          wPoStChallengeWindow ∧
      (newDeadlineInfoFromOffsetAndEpoch seed epoch).index < wPoStPeriodDeadlines ∧
      (newDeadlineInfoFromOffsetAndEpoch seed epoch).openEpoch ≤ epoch ∧
      epoch < (newDeadlineInfoFromOffsetAndEpoch seed epoch).close) ∧
    (∀ (info : DeadlineInfo) (periodStart currentEpoch wPostProvingPeriod wPostChallengeWindow
        wPostChallengeLookback faultDeclarationCutoff : Int) (deadlineIdx wPostPeriodDeadlines : Nat),
      info = DeadlineInfo.new periodStart deadlineIdx currentEpoch wPostPeriodDeadlines
        wPostProvingPeriod wPostChallengeWindow wPostChallengeLookback faultDeclarationCutoff →
      deadlineIdx < wPostPeriodDeadlines → 0 < wPostProvingPeriod →
      ∃ periods : Nat, info.currentEpoch < info.close + periods * info.wPostProvingPeriod ∧
        (∀ fewer < periods, info.close + fewer * info.wPostProvingPeriod ≤ info.currentEpoch) ∧
        ∀ fuel, periods < fuel → info.nextNotElapsed fuel = some (info.shift periods)) ∧
    (∀ (state : State) (epoch : Int), state.provingPeriodStart ≤ epoch →
      epoch < state.provingPeriodStart + wPoStProvingPeriod →
      epoch = (state.deadlineInfo epoch).last →
      (state.advanceDeadlinePeriod epoch).recordedDeadlineInfo (epoch + 1) =
        (state.advanceDeadlinePeriod epoch).deadlineInfo (epoch + 1)) := by
  have positive : 0 < wPoStProvingPeriod := by decide
  refine ⟨fun seed epoch _ => ?_, fun info _ _ _ _ _ _ _ _ built below positivePeriod =>
      DeadlineInfo.nextNotElapsed_of_new built below positivePeriod,
    advanceDeadlinePeriod_agrees⟩
  -- the period start is the rounding down of the epoch, with the laws of the grid
  obtain ⟨floored, index, indexBelow, opens, closes⟩ :=
    newDeadlineInfoFromOffsetAndEpoch_spec seed epoch
  rw [floored]
  exact ⟨Grid.floorTo_le positive seed epoch, Grid.floorTo_modEq seed epoch,
    fun _ below congruent => Grid.le_floorTo positive below congruent,
    floored ▸ index, indexBelow, opens, closes⟩

theorem deadline_timing_laws_at_period_end :
    ((0 : Int) ≤ 2879 ∧
      (newDeadlineInfoFromOffsetAndEpoch 100 2879).periodStart ≤ 2879 ∧
      (newDeadlineInfoFromOffsetAndEpoch 100 2879).periodStart ≡ 100 [ZMOD wPoStProvingPeriod] ∧
      (∀ other, other ≤ 2879 → other ≡ 100 [ZMOD wPoStProvingPeriod] →
        other ≤ (newDeadlineInfoFromOffsetAndEpoch 100 2879).periodStart) ∧
      ((newDeadlineInfoFromOffsetAndEpoch 100 2879).index : Int) =
        (2879 - (newDeadlineInfoFromOffsetAndEpoch 100 2879).periodStart) /
          wPoStChallengeWindow ∧
      (newDeadlineInfoFromOffsetAndEpoch 100 2879).index < wPoStPeriodDeadlines ∧
      (newDeadlineInfoFromOffsetAndEpoch 100 2879).openEpoch ≤ 2879 ∧
      2879 < (newDeadlineInfoFromOffsetAndEpoch 100 2879).close) ∧
    (newDeadlineInfo 0 5 3000 = DeadlineInfo.new 0 5 3000 wPoStPeriodDeadlines wPoStProvingPeriod
        wPoStChallengeWindow wPoStChallengeLookback faultDeclarationCutoff ∧
      5 < wPoStPeriodDeadlines ∧ 0 < wPoStProvingPeriod ∧
      ∃ periods : Nat, (newDeadlineInfo 0 5 3000).currentEpoch <
          (newDeadlineInfo 0 5 3000).close + periods * (newDeadlineInfo 0 5 3000).wPostProvingPeriod ∧
        (∀ fewer < periods, (newDeadlineInfo 0 5 3000).close +
          fewer * (newDeadlineInfo 0 5 3000).wPostProvingPeriod ≤
            (newDeadlineInfo 0 5 3000).currentEpoch) ∧
        ∀ fuel, periods < fuel → (newDeadlineInfo 0 5 3000).nextNotElapsed fuel =
          some ((newDeadlineInfo 0 5 3000).shift periods)) ∧
    (staleIndexState.provingPeriodStart ≤ 2879 ∧
      2879 < staleIndexState.provingPeriodStart + wPoStProvingPeriod ∧
      2879 = (staleIndexState.deadlineInfo 2879).last ∧
      (staleIndexState.advanceDeadlinePeriod 2879).recordedDeadlineInfo (2879 + 1) =
        (staleIndexState.advanceDeadlinePeriod 2879).deadlineInfo (2879 + 1)) := by
  have atEnd : (2879 : Int) = (staleIndexState.deadlineInfo 2879).last := by decide
  have fifth : 5 < wPoStPeriodDeadlines := by decide
  have positive : 0 < wPoStProvingPeriod := by decide
  obtain ⟨first, second, third⟩ := deadline_timing_laws
  exact ⟨⟨by decide, first 100 2879 (by decide)⟩,
    ⟨rfl, fifth, positive, second (newDeadlineInfo 0 5 3000) 0 3000 wPoStProvingPeriod
      wPoStChallengeWindow wPoStChallengeLookback faultDeclarationCutoff 5 wPoStPeriodDeadlines rfl
      fifth positive⟩,
    ⟨by decide, by decide, atEnd, third staleIndexState 2879 (by decide) (by decide) atEnd⟩⟩

end Forest.Miner
