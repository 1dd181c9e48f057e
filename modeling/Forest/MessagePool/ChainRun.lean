import Mathlib
import Forest.Lib.Result
import Forest.MessagePool.MsgChain

/-!
# The run of messages a sender's chains hold

The checking loop of `create_message_chains` walks the pending messages of one sender in nonce
order.  It skips the nonces below the sender's, then accepts messages at consecutive nonces
while each pays its minimum on-chain gas, the block gas limit holds the gas accepted so far,
and the balance covers the message's required funds; it takes the required funds and then the
value once more from the balance.  Here that run is specified on its own (`LongestRun`: an
acceptable run of pending messages that no pending message extends), shown to be the only
one of its kind, and shown to be what the loop accepts.
-/

namespace Forest.MessagePool

variable {A : Type}

/-! ## Sums over messages -/

/-- The gas limit of messages together. -/
def gasUsed (msgs : List (SignedMessage A)) : Int :=
  (msgs.map (·.gasLimit)).sum

/-- The gas reward of messages together, at a base fee. -/
def totalReward (baseFee : Int) (msgs : List (SignedMessage A)) : Int :=
  (msgs.map (getGasReward · baseFee)).sum

/-- What the checks of `create_message_chains` take from the balance for messages: the
required funds of each, and its value once more. -/
def deducted (msgs : List (SignedMessage A)) : Int :=
  (msgs.map fun msg => msg.requiredFunds + msg.value).sum

@[simp] theorem gasUsed_nil : gasUsed ([] : List (SignedMessage A)) = 0 := rfl

@[simp] theorem gasUsed_cons (msg : SignedMessage A) (msgs : List (SignedMessage A)) :
    gasUsed (msg :: msgs) = msg.gasLimit + gasUsed msgs := by
  simp [gasUsed]

@[simp] theorem gasUsed_append (first second : List (SignedMessage A)) :
    gasUsed (first ++ second) = gasUsed first + gasUsed second := by
  simp [gasUsed]

@[simp] theorem totalReward_nil (baseFee : Int) :
    totalReward baseFee ([] : List (SignedMessage A)) = 0 := rfl

@[simp] theorem totalReward_cons (baseFee : Int) (msg : SignedMessage A)
    (msgs : List (SignedMessage A)) :
    totalReward baseFee (msg :: msgs) = getGasReward msg baseFee + totalReward baseFee msgs := by
  simp [totalReward]

@[simp] theorem totalReward_append (baseFee : Int) (first second : List (SignedMessage A)) :
    totalReward baseFee (first ++ second) =
      totalReward baseFee first + totalReward baseFee second := by
  simp [totalReward]

@[simp] theorem deducted_nil : deducted ([] : List (SignedMessage A)) = 0 := rfl

@[simp] theorem deducted_append (first second : List (SignedMessage A)) :
    deducted (first ++ second) = deducted first + deducted second := by
  simp [deducted]

@[simp] theorem deducted_singleton (msg : SignedMessage A) :
    deducted [msg] = msg.requiredFunds + msg.value := by
  simp [deducted]

/-! ## The minimum gas of a message -/

/-- `price_list_by_epoch(epoch)`'s `storage_gas_multiplier`: 1000 in `BASE_PRICES`, 1300 in
`CALICO_PRICES` from `UPGRADE_CALICO_HEIGHT` on. -/
def storageGasMultiplier (upgradeCalicoHeight epoch : Int) : Int :=
  if epoch < upgradeCalicoHeight then 1000 else 1300

/-- `on_chain_message(msg_size).total()`: the compute base 38863 and the storage base 36 plus 1
per byte, times the storage multiplier; the two price lists agree on all but the multiplier. -/
def onChainMessageTotal (storageGasMultiplier : Int) (size : Nat) : Int :=
  38863 + (36 + 1 * (size : Int)) * storageGasMultiplier

/-- The minimum gas of every message is positive under both price lists. -/
theorem onChainMessageTotal_pos (upgradeCalicoHeight epoch : Int) (size : Nat) :
    0 < onChainMessageTotal (storageGasMultiplier upgradeCalicoHeight epoch) size := by
  unfold onChainMessageTotal storageGasMultiplier
  split <;> omega

/-! ## The longest acceptable run -/

section Run

variable (minGas : Nat → Int) (sequence : Nat) (balance : Int)

/-- A message can come after `run`: it pays its minimum on-chain gas, the gas of the run with
it stays within the block gas limit, and its required funds are covered by what the checks
have left of the balance. -/
def Fits (run : List (SignedMessage A)) (msg : SignedMessage A) : Prop :=
  minGas msg.size ≤ msg.gasLimit ∧ gasUsed run + msg.gasLimit ≤ blockGasLimit ∧
    msg.requiredFunds ≤ balance - deducted run

instance (run : List (SignedMessage A)) (msg : SignedMessage A) :
    Decidable (Fits minGas balance run msg) :=
  inferInstanceAs (Decidable (_ ∧ _ ∧ _))

/-- Runs of messages at consecutive nonces from `sequence`, each fitting the messages before
it. -/
inductive AcceptableRun : List (SignedMessage A) → Prop
  | nil : AcceptableRun []
  | snoc {run : List (SignedMessage A)} {msg : SignedMessage A} :
      AcceptableRun run → msg.sequence = sequence + run.length → Fits minGas balance run msg →
      AcceptableRun (run ++ [msg])

/-- The longest acceptable run of the pending messages `mset`: all of it is pending, and no
pending message extends it. -/
structure LongestRun (mset run : List (SignedMessage A)) : Prop where
  acceptable : AcceptableRun minGas sequence balance run
  pending : ∀ msg ∈ run, msg ∈ mset
  maximal : ∀ msg ∈ mset, msg.sequence = sequence + run.length → ¬ Fits minGas balance run msg

variable {minGas sequence balance}

/-- An acceptable run holds the nonces from `sequence` on, one each. -/
theorem AcceptableRun.sequences {run : List (SignedMessage A)}
    (accepted : AcceptableRun minGas sequence balance run) :
    run.map (·.sequence) = List.range' sequence run.length := by
  induction accepted with
  | nil => rfl
  | snoc _ isNext _ inductionHypothesis =>
    rw [List.map_append, inductionHypothesis, List.length_append, List.length_singleton,
      List.range'_concat]
    simp [isNext]

/-- The message at position `pre.length` of an acceptable run has nonce
`sequence + pre.length`. -/
theorem AcceptableRun.sequence_eq {pre post : List (SignedMessage A)} {msg : SignedMessage A}
    (accepted : AcceptableRun minGas sequence balance (pre ++ msg :: post)) :
    msg.sequence = sequence + pre.length := by
  have atPosition : ((pre ++ msg :: post).map (·.sequence))[pre.length]? = some msg.sequence := by
    simp
  rw [accepted.sequences, List.getElem?_range' (by simp)] at atPosition
  simpa using atPosition.symm

/-- Every message of an acceptable run has a nonce below `sequence + run.length`. -/
theorem AcceptableRun.sequence_lt {run : List (SignedMessage A)}
    (accepted : AcceptableRun minGas sequence balance run) {msg : SignedMessage A}
    (member : msg ∈ run) : msg.sequence < sequence + run.length := by
  have listed : msg.sequence ∈ run.map (·.sequence) := List.mem_map_of_mem member
  rw [accepted.sequences, List.mem_range'_1] at listed
  exact listed.2

/-- Every message of an acceptable run pays its minimum on-chain gas. -/
theorem AcceptableRun.minGas_le {run : List (SignedMessage A)}
    (accepted : AcceptableRun minGas sequence balance run) :
    ∀ msg ∈ run, minGas msg.size ≤ msg.gasLimit := by
  induction accepted with
  | nil => exact fun _ member => nomatch member
  | snoc _ _ fits inductionHypothesis =>
    intro msg member
    rcases List.mem_append.mp member with earlier | isLast
    · exact inductionHypothesis msg earlier
    · rw [List.mem_singleton.mp isLast]
      exact fits.1

/-- The longest run is the only one of its kind: with nonces as the keys of the pending
messages, every acceptable run of pending messages is a prefix of it. -/
theorem LongestRun.prefix_of_acceptable {mset run other : List (SignedMessage A)}
    (longest : LongestRun minGas sequence balance mset run)
    (keyedByNonce : (mset.map (·.sequence)).Nodup)
    (acceptable : AcceptableRun minGas sequence balance other)
    (pending : ∀ msg ∈ other, msg ∈ mset) : other <+: run := by
  induction acceptable with
  | nil => exact List.nil_prefix
  | @snoc shorter msg _ isNext fits inductionHypothesis =>
    have msgPending : msg ∈ mset := pending msg (by simp)
    obtain ⟨tail, grown⟩ :=
      inductionHypothesis fun other member => pending other (by simp [member])
    cases tail with
    | nil =>
      -- the run is no longer than `shorter`, so `msg` would extend it
      rw [List.append_nil] at grown
      subst grown
      exact absurd fits (longest.maximal msg msgPending isNext)
    | cons next rest =>
      -- the run's next message has `msg`'s nonce, so it is `msg`
      have nextNonce : next.sequence = sequence + shorter.length := by
        rw [← grown] at longest
        exact longest.acceptable.sequence_eq
      have nextPending : next ∈ mset := longest.pending next (by simp [← grown])
      have same : msg = next :=
        List.inj_on_of_nodup_map keyedByNonce msgPending nextPending (isNext.trans nextNonce.symm)
      subst same
      exact ⟨rest, by simp [← grown]⟩

/-- A pending message of sender 0 at `nonce`: gas limit 200000, fee cap 10, premium 1, 50 bytes. -/
def pendingAt (nonce : Nat) : SignedMessage Nat :=
  ⟨0, nonce, 0, 200000, 10, 1, 50⟩

/-- Pending messages at nonces 1 and 0, a balance that covers both and the price list before
the calico upgrade: the run of both is the longest, and the run of the message at nonce 0 is a
prefix of it. -/
theorem LongestRun.prefix_of_acceptable_two_pending :
    LongestRun (onChainMessageTotal 1000) 0 1000000000000 [pendingAt 1, pendingAt 0]
        [pendingAt 0, pendingAt 1] ∧
      AcceptableRun (onChainMessageTotal 1000) 0 1000000000000 [pendingAt 0] ∧
      [pendingAt 0] <+: [pendingAt 0, pendingAt 1] := by
  have first : AcceptableRun (onChainMessageTotal 1000) 0 1000000000000 [pendingAt 0] :=
    (AcceptableRun.snoc .nil rfl (by decide) :
      AcceptableRun (onChainMessageTotal 1000) 0 1000000000000 ([] ++ [pendingAt 0]))
  have both : AcceptableRun (onChainMessageTotal 1000) 0 1000000000000
      [pendingAt 0, pendingAt 1] :=
    (AcceptableRun.snoc first rfl (by decide) :
      AcceptableRun (onChainMessageTotal 1000) 0 1000000000000 ([pendingAt 0] ++ [pendingAt 1]))
  have longest : LongestRun (onChainMessageTotal 1000) 0 1000000000000 [pendingAt 1, pendingAt 0]
      [pendingAt 0, pendingAt 1] := ⟨both, by decide, by decide⟩
  exact ⟨longest, first, LongestRun.prefix_of_acceptable longest (by decide) first (by decide)⟩

end Run

/-! ## What the checking loop accepts -/

section Scan

variable (provider : Provider A) (baseFee : Int)

/-- The state of the checking loop once it has skipped `skip` messages and accepted `run`. -/
def scanAfter (sequence : Nat) (balance : Int) (skip : Nat) (run : List (SignedMessage A)) :
    ScanState :=
  ⟨sequence + run.length, balance - deducted run, gasUsed run, skip, skip + run.length,
    run.map (getGasReward · baseFee)⟩

/-- What `create_message_chains` reads of the loop's final state: it skipped `skip` messages
and accepted `run`, with their rewards. -/
def ScanState.Accepted (skip : Nat) (run : List (SignedMessage A)) (scan : ScanState) : Prop :=
  scan.skip = skip ∧ scan.i = skip + run.length ∧ scan.rewards = run.map (getGasReward · baseFee)

/-- The loop steps over the messages below the sender's nonce, counting them as skipped. -/
theorem scanMessages_skipped (sequence : Nat) (balance : Int) :
    ∀ (msgs : List (SignedMessage A)) (skip : Nat),
      scanMessages provider baseFee msgs ⟨sequence, balance, 0, skip, skip, []⟩ =
        scanMessages provider baseFee (msgs.dropWhile (·.sequence < sequence))
          ⟨sequence, balance, 0, skip + (msgs.takeWhile (·.sequence < sequence)).length,
            skip + (msgs.takeWhile (·.sequence < sequence)).length, []⟩
  | [], skip => rfl
  | msg :: rest, skip => by
    by_cases below : msg.sequence < sequence
    · have stepped := scanMessages_skipped sequence balance rest (skip + 1)
      rw [scanMessages, if_pos below, List.dropWhile_cons_of_pos (by simpa using below),
        List.takeWhile_cons_of_pos (by simpa using below), List.length_cons]
      rw [show skip + ((rest.takeWhile (·.sequence < sequence)).length + 1) =
        skip + 1 + (rest.takeWhile (·.sequence < sequence)).length by omega]
      exact stepped
    · rw [List.dropWhile_cons_of_neg (by simpa using below),
        List.takeWhile_cons_of_neg (by simpa using below)]
      rfl

/-- A message past the sender's nonce ends the loop at a gap. -/
theorem scanMessages_of_gap {msg : SignedMessage A} {rest : List (SignedMessage A)}
    {scan : ScanState} (above : scan.curSeq < msg.sequence) :
    scanMessages provider baseFee (msg :: rest) scan = scan := by
  rw [scanMessages, if_neg (by omega), if_pos (by omega)]

/-- A message at the sender's nonce that the loop refuses ends it with the counts and rewards
as they were. -/
theorem scanMessages_of_refused {msg : SignedMessage A} {rest : List (SignedMessage A)}
    {scan : ScanState} (current : msg.sequence = scan.curSeq)
    (refused : ¬ (provider.onChainMessageGas msg.size ≤ msg.gasLimit ∧
      scan.gasLimit + msg.gasLimit ≤ blockGasLimit ∧ msg.requiredFunds ≤ scan.balance)) :
    (scanMessages provider baseFee (msg :: rest) scan).skip = scan.skip ∧
      (scanMessages provider baseFee (msg :: rest) scan).i = scan.i ∧
      (scanMessages provider baseFee (msg :: rest) scan).rewards = scan.rewards := by
  rw [scanMessages, if_neg (by omega), if_neg (by omega)]
  dsimp only
  split_ifs with lowGas overLimit poor
  · exact ⟨rfl, rfl, rfl⟩
  · exact ⟨rfl, rfl, rfl⟩
  · exact ⟨rfl, rfl, rfl⟩
  · exact absurd ⟨by omega, by omega, by omega⟩ refused

/-- A message at the sender's nonce that passes the checks is accepted. -/
theorem scanMessages_of_accepted {msg : SignedMessage A} {rest : List (SignedMessage A)}
    {scan : ScanState} (current : msg.sequence = scan.curSeq)
    (passes : provider.onChainMessageGas msg.size ≤ msg.gasLimit ∧
      scan.gasLimit + msg.gasLimit ≤ blockGasLimit ∧ msg.requiredFunds ≤ scan.balance) :
    scanMessages provider baseFee (msg :: rest) scan =
      scanMessages provider baseFee rest
        ⟨scan.curSeq + 1, scan.balance - msg.requiredFunds - msg.value,
          scan.gasLimit + msg.gasLimit, scan.skip, scan.i + 1,
          scan.rewards ++ [getGasReward msg baseFee]⟩ := by
  obtain ⟨enoughGas, withinBlock, funded⟩ := passes
  rw [scanMessages, if_neg (by omega), if_neg (by omega)]
  dsimp only
  rw [if_neg (by omega), if_neg (by omega), if_neg (by omega)]

/-- The checks of one message after `run` are those of `Fits`. -/
theorem fits_iff_checks {sequence : Nat} {balance : Int} {skip : Nat}
    {run : List (SignedMessage A)} {msg : SignedMessage A} :
    Fits provider.onChainMessageGas balance run msg ↔
      (provider.onChainMessageGas msg.size ≤ msg.gasLimit ∧
        (scanAfter baseFee sequence balance skip run).gasLimit + msg.gasLimit ≤ blockGasLimit ∧
        msg.requiredFunds ≤ (scanAfter baseFee sequence balance skip run).balance) :=
  Iff.rfl

/-- From the state after `run`, over messages at or above the next nonce with increasing
nonces, the loop accepts a prefix `more` of them, and the message after that prefix, if it has
the next nonce, does not fit. -/
theorem scanMessages_accepts (sequence : Nat) (balance : Int) (skip : Nat) :
    ∀ (rest run : List (SignedMessage A)),
      AcceptableRun provider.onChainMessageGas sequence balance run →
      (∀ msg ∈ rest, sequence + run.length ≤ msg.sequence) →
      rest.Pairwise (fun first second => first.sequence < second.sequence) →
      ∃ more, more <+: rest ∧
        AcceptableRun provider.onChainMessageGas sequence balance (run ++ more) ∧
        (scanMessages provider baseFee rest (scanAfter baseFee sequence balance skip run)).Accepted
          baseFee skip (run ++ more) ∧
        ∀ msg ∈ rest.drop more.length, msg.sequence = sequence + (run ++ more).length →
          ¬ Fits provider.onChainMessageGas balance (run ++ more) msg
  | [], run, accepted, _, _ => ⟨[], List.nil_prefix, by simpa using accepted,
      by simp [ScanState.Accepted, scanMessages, scanAfter], by simp⟩
  | msg :: rest, run, accepted, atLeast, increasing => by
    obtain ⟨msgBelow, restIncreasing⟩ := List.pairwise_cons.mp increasing
    have msgAtLeast := atLeast msg (by simp)
    -- the messages after `msg` are past its nonce
    have restAbove : ∀ other ∈ rest, msg.sequence < other.sequence := msgBelow
    have stopped : (scanAfter baseFee sequence balance skip run).Accepted baseFee skip run :=
      ⟨rfl, rfl, rfl⟩
    by_cases current : msg.sequence = sequence + run.length
    · by_cases fits : Fits provider.onChainMessageGas balance run msg
      · -- accepted: go on from the state after `run ++ [msg]`
        have nextAtLeast : ∀ other ∈ rest, sequence + (run ++ [msg]).length ≤ other.sequence := by
          intro other member
          have := restAbove other member
          simp only [List.length_append, List.length_singleton]
          omega
        obtain ⟨more, isPrefix, acceptedMore, scanned, maximal⟩ := scanMessages_accepts
          sequence balance skip rest (run ++ [msg]) (accepted.snoc current fits) nextAtLeast
          restIncreasing
        have stateAfter : (⟨(scanAfter baseFee sequence balance skip run).curSeq + 1,
            (scanAfter baseFee sequence balance skip run).balance - msg.requiredFunds - msg.value,
            (scanAfter baseFee sequence balance skip run).gasLimit + msg.gasLimit,
            (scanAfter baseFee sequence balance skip run).skip,
            (scanAfter baseFee sequence balance skip run).i + 1,
            (scanAfter baseFee sequence balance skip run).rewards ++ [getGasReward msg baseFee]⟩ :
              ScanState) = scanAfter baseFee sequence balance skip (run ++ [msg]) := by
          simp only [scanAfter, List.length_append, List.length_singleton, deducted_append,
            deducted_singleton, gasUsed_append, gasUsed_cons, gasUsed_nil, List.map_append,
            List.map_cons, List.map_nil, ScanState.mk.injEq]
          refine ⟨by omega, by omega, by omega, trivial, by omega, trivial⟩
        refine ⟨msg :: more, (List.prefix_cons_inj msg).mpr isPrefix, by simpa using acceptedMore,
          ?_, ?_⟩
        · rw [scanMessages_of_accepted provider baseFee current ((fits_iff_checks provider baseFee).mp fits),
            stateAfter]
          simpa using scanned
        · simpa using maximal
      · -- refused: the loop ends, and `msg` is the message that does not fit
        obtain ⟨sameSkip, sameI, sameRewards⟩ := @scanMessages_of_refused A provider baseFee msg rest
          _ current (fun checks => fits ((fits_iff_checks provider baseFee).mpr checks))
        refine ⟨[], List.nil_prefix, by simpa using accepted, ?_, ?_⟩
        · rw [List.append_nil]
          exact ⟨sameSkip.trans stopped.1, sameI.trans stopped.2.1, sameRewards.trans stopped.2.2⟩
        · intro other member nonce
          rcases List.mem_cons.mp (by simpa using member) with same | later
          · rw [same, List.append_nil]
            exact fits
          · have := restAbove other later
            simp only [List.append_nil] at nonce
            omega
    · -- a gap: no message left has the next nonce
      have above : (scanAfter baseFee sequence balance skip run).curSeq < msg.sequence := by
        simp only [scanAfter]
        omega
      refine ⟨[], List.nil_prefix, by simpa using accepted, ?_, ?_⟩
      · rw [scanMessages_of_gap provider baseFee above, List.append_nil]
        exact stopped
      · intro other member nonce
        rcases List.mem_cons.mp (by simpa using member) with same | later
        · rw [same] at nonce
          simp only [List.append_nil] at nonce
          exact absurd nonce current
        · have := restAbove other later
          simp only [List.append_nil] at nonce
          omega

/-- Dropping the prefix `takeWhile` takes leaves what `dropWhile` leaves. -/
theorem drop_length_takeWhile {α : Type} (p : α → Bool) :
    ∀ items : List α, items.drop (items.takeWhile p).length = items.dropWhile p
  | [] => rfl
  | item :: rest => by
    by_cases taken : p item = true
    · rw [List.takeWhile_cons_of_pos taken, List.dropWhile_cons_of_pos taken, List.length_cons,
        List.drop_succ_cons]
      exact drop_length_takeWhile p rest
    · rw [List.takeWhile_cons_of_neg taken, List.dropWhile_cons_of_neg taken]
      rfl

/-- Past the messages below a nonce, a list with increasing nonces holds only messages at or
above it. -/
theorem le_of_mem_dropWhile {sequence : Nat} :
    ∀ {msgs : List (SignedMessage A)},
      msgs.Pairwise (fun first second => first.sequence < second.sequence) →
      ∀ msg ∈ msgs.dropWhile (·.sequence < sequence), sequence ≤ msg.sequence
  | [], _, _, member => nomatch member
  | first :: rest, increasing, msg, member => by
    obtain ⟨firstBelow, restIncreasing⟩ := List.pairwise_cons.mp increasing
    by_cases below : first.sequence < sequence
    · rw [List.dropWhile_cons_of_pos (by simpa using below)] at member
      exact le_of_mem_dropWhile restIncreasing msg member
    · rw [List.dropWhile_cons_of_neg (by simpa using below)] at member
      rcases List.mem_cons.mp member with same | later
      · rw [same]
        omega
      · have := firstBelow msg later
        omega

/-- Over the pending messages in increasing nonce order, the checking loop skips the messages
below the sender's nonce and accepts the longest acceptable run after them. -/
theorem scanMessages_longestRun {mset msgs : List (SignedMessage A)} (permuted : msgs.Perm mset)
    (increasing : msgs.Pairwise (fun first second => first.sequence < second.sequence))
    (sequence : Nat) (balance : Int) :
    ∃ run, LongestRun provider.onChainMessageGas sequence balance mset run ∧
      (scanMessages provider baseFee msgs ⟨sequence, balance, 0, 0, 0, []⟩).Accepted baseFee
        (msgs.takeWhile (·.sequence < sequence)).length run ∧
      run <+: msgs.dropWhile (·.sequence < sequence) := by
  have suffixIncreasing :=
    increasing.sublist (List.dropWhile_suffix fun msg => decide (msg.sequence < sequence)).sublist
  have atLeast : ∀ msg ∈ msgs.dropWhile (·.sequence < sequence),
      sequence + ([] : List (SignedMessage A)).length ≤ msg.sequence := by
    intro msg member
    simpa using le_of_mem_dropWhile increasing msg member
  obtain ⟨run, isPrefix, acceptable, scanned, maximal⟩ :=
    scanMessages_accepts provider baseFee sequence balance
      (msgs.takeWhile (·.sequence < sequence)).length _ [] .nil atLeast suffixIncreasing
  rw [List.nil_append] at acceptable scanned maximal
  have start : (⟨sequence, balance, 0, 0 + (msgs.takeWhile (·.sequence < sequence)).length,
      0 + (msgs.takeWhile (·.sequence < sequence)).length, []⟩ : ScanState) =
      scanAfter baseFee sequence balance (msgs.takeWhile (·.sequence < sequence)).length
        ([] : List (SignedMessage A)) := by
    simp [scanAfter]
  refine ⟨run, ⟨acceptable, fun msg member => ?_, fun msg pendingMsg nonce => ?_⟩, ?_, isPrefix⟩
  · -- the run is part of the sorted messages
    have inSuffix := isPrefix.subset member
    exact permuted.subset ((List.dropWhile_suffix _).subset inSuffix)
  · -- a pending message at the next nonce is past the run in nonce order
    have sorted : msg ∈ msgs := permuted.symm.subset pendingMsg
    rw [← @List.takeWhile_append_dropWhile _ (fun msg => decide (msg.sequence < sequence)) msgs]
      at sorted
    rcases List.mem_append.mp sorted with skipped | past
    · have below := List.mem_takeWhile_imp skipped
      simp only [decide_eq_true_eq] at below
      omega
    · obtain ⟨after, grown⟩ := isPrefix
      rw [← grown] at past maximal
      rcases List.mem_append.mp past with inRun | afterRun
      · have := acceptable.sequence_lt inRun
        omega
      · exact maximal msg (by simpa using afterRun) nonce
  · rw [scanMessages_skipped, start]
    exact scanned

end Scan

end Forest.MessagePool
