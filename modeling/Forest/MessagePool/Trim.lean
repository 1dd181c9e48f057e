import Mathlib
import Forest.MessagePool.MsgChain

namespace Forest.MessagePool

/-!
# Trimming a chain

`Chains::trim_msgs_at` cuts a chain down to a gas limit.  Its loop walks back from the last
message and drops messages while the chain is over the limit or has a negative
performance, each time taking the message's gas limit and reward off the chain's
(`trimLoop_spec`); it never panics, since it computes a performance only for a positive gas
limit.  The sums then describe the messages before the stopping index.

What the source does with the messages is the opposite: `msgs.drain(0..i + 1)` removes the
messages the sums still count and keeps the ones the loop dropped
(`trimMsgsAt_keeps_uncounted_suffix`), and a chain at position zero is returned untouched,
whatever its gas limit.
-/

variable {A F : Type} (fl : FloatOps F)

namespace MsgChainNode

/-- `set_eff_perf` writes the effective performance and the parent offset and nothing else. -/
theorem setEffPerf_eq (node : MsgChainNode A F) (prev : Option (F × Int)) :
    ∃ effPerf parentOffset, node.setEffPerf fl prev = { node with effPerf, parentOffset } := by
  unfold setEffPerf
  dsimp only
  split
  · split
    · exact ⟨_, _, rfl⟩
    · exact ⟨_, node.parentOffset, rfl⟩
  · exact ⟨_, node.parentOffset, rfl⟩

variable (node : MsgChainNode A F) (prev : Option (F × Int))

@[simp]
theorem setEffPerf_msgs : (node.setEffPerf fl prev).msgs = node.msgs := by
  obtain ⟨_, _, setEq⟩ := setEffPerf_eq fl node prev
  rw [setEq]

@[simp]
theorem setEffPerf_next : (node.setEffPerf fl prev).next = node.next := by
  obtain ⟨_, _, setEq⟩ := setEffPerf_eq fl node prev
  rw [setEq]

@[simp]
theorem setEffPerf_valid : (node.setEffPerf fl prev).valid = node.valid := by
  obtain ⟨_, _, setEq⟩ := setEffPerf_eq fl node prev
  rw [setEq]

@[simp]
theorem setEffPerf_gasLimit : (node.setEffPerf fl prev).gasLimit = node.gasLimit := by
  obtain ⟨_, _, setEq⟩ := setEffPerf_eq fl node prev
  rw [setEq]

@[simp]
theorem setEffPerf_gasReward : (node.setEffPerf fl prev).gasReward = node.gasReward := by
  obtain ⟨_, _, setEq⟩ := setEffPerf_eq fl node prev
  rw [setEq]

end MsgChainNode

namespace Chains

section Loop

variable {gasLimit baseFee : Int} {prev : Option (F × Int)}

/-- A step of the trim loop on a chain over the limit or with a negative performance goes on
with a chain of the same messages, link and validity, less this message's gas limit and
reward. -/
theorem trimLoop_cons_of_over {msg : SignedMessage A} {pending : List (SignedMessage A)}
    {node : MsgChainNode A F} {i : Int}
    (exceeds : (node.gasLimit > gasLimit || fl.lt node.gasPerf fl.zero) = true) :
    ∃ next : MsgChainNode A F, next.msgs = node.msgs ∧ next.next = node.next ∧
      next.valid = node.valid ∧ next.gasLimit = node.gasLimit - msg.gasLimit ∧
      next.gasReward = node.gasReward - getGasReward msg baseFee ∧
      trimLoop fl gasLimit baseFee prev (msg :: pending) node i =
        trimLoop fl gasLimit baseFee prev pending next (i - 1) := by
  rw [trimLoop, if_pos exceeds]
  dsimp only
  split
  · next positive =>
    split
    · next failure failed =>
      -- a positive gas limit always has a performance
      rw [getGasPerf, if_neg (by omega)] at failed
      cases failed
    · -- the performance fields are all that the update of the effective performance writes
      refine ⟨_, ?_, ?_, ?_, ?_, ?_, rfl⟩ <;> split <;> simp
  · refine ⟨_, ?_, ?_, ?_, ?_, ?_, rfl⟩ <;> rfl

/-- The trim loop stops at a chain within the limit and with a performance that is not
negative. -/
theorem trimLoop_cons_of_within {msg : SignedMessage A} {pending : List (SignedMessage A)}
    {node : MsgChainNode A F} {i : Int}
    (within : (node.gasLimit > gasLimit || fl.lt node.gasPerf fl.zero) = false) :
    trimLoop fl gasLimit baseFee prev (msg :: pending) node i = .ok (node, i) := by
  rw [trimLoop, if_neg (by simp [within])]

/-- The trim loop over the messages `pending` (the chain's, from the last one back) drops
some of the first of them: the chain's gas limit and reward lose exactly theirs, its
messages, link and validity stay, and the index moves down by their number. -/
theorem trimLoop_spec (pending : List (SignedMessage A)) :
    ∀ (node : MsgChainNode A F) (i : Int),
      ∃ dropped ≤ pending.length, ∃ node' : MsgChainNode A F,
        trimLoop fl gasLimit baseFee prev pending node i = .ok (node', i - dropped) ∧
        node'.msgs = node.msgs ∧ node'.next = node.next ∧ node'.valid = node.valid ∧
        node'.gasLimit =
          node.gasLimit - ((pending.take dropped).map SignedMessage.gasLimit).sum ∧
        node'.gasReward =
          node.gasReward - ((pending.take dropped).map fun msg => getGasReward msg baseFee).sum := by
  induction pending with
  | nil =>
    intro node i
    exact ⟨0, le_refl 0, node, by simp [trimLoop], rfl, rfl, rfl, by simp, by simp⟩
  | cons msg pending inductionHypothesis =>
    intro node i
    cases exceeds : (node.gasLimit > gasLimit || fl.lt node.gasPerf fl.zero) with
    | false =>
      exact ⟨0, Nat.zero_le _, node, by rw [trimLoop_cons_of_within fl exceeds]; simp, rfl, rfl,
        rfl, by simp, by simp⟩
    | true =>
      -- one message dropped, and the rest of the loop from the shorter chain
      obtain ⟨next, sameMsgs, sameNext, sameValid, lowerLimit, lowerReward, stepped⟩ :=
        @trimLoop_cons_of_over A F fl gasLimit baseFee prev msg pending node i exceeds
      obtain ⟨dropped, fewer, node', loop, msgs', next', valid', limit', reward'⟩ :=
        inductionHypothesis next (i - 1)
      refine ⟨dropped + 1, by simp only [List.length_cons]; omega, node', ?_, msgs'.trans sameMsgs,
        next'.trans sameNext, valid'.trans sameValid, ?_, ?_⟩
      · rw [stepped, loop]
        congr 2
        omega
      · simp only [List.take_succ_cons, List.map_cons, List.sum_cons]
        omega
      · simp only [List.take_succ_cons, List.map_cons, List.sum_cons]
        omega

end Loop

/-- `trim_msgs_at` at a position past the first, on the last chain of a sender.  The loop
takes the last messages off the sums and stops with `kept` messages counted; the drain then
removes those `kept` messages and leaves the ones the sums no longer count.  When the loop
takes off every message, the chain is emptied and invalidated.  At position zero the
chains are left as they are. -/
theorem trimMsgsAt_keeps_uncounted_suffix (chains : Chains A F) {idx : Nat} (gasLimit baseFee : Int)
    {prevKey key : Nat} {node : MsgChainNode A F} (positive : 0 < idx)
    (prevAt : chains.keyVec[idx - 1]? = some prevKey) (atIdx : chains.keyVec[idx]? = some key)
    (present : chains.lookup key = some node) (last : node.next = none) :
    trimMsgsAt fl 0 gasLimit baseFee chains = .ok () chains ∧
    ∃ kept ≤ node.msgs.length, ∃ trimmed : MsgChainNode A F,
      trimMsgsAt fl idx gasLimit baseFee chains =
        .ok () { chains with map := chains.map.set key (some trimmed) } ∧
      trimmed.gasLimit =
        node.gasLimit - ((node.msgs.drop kept).map SignedMessage.gasLimit).sum ∧
      trimmed.gasReward =
        node.gasReward - ((node.msgs.drop kept).map fun msg => getGasReward msg baseFee).sum ∧
      (kept = 0 → trimmed.msgs = [] ∧ trimmed.valid = false) ∧
      (0 < kept → trimmed.msgs = node.msgs.drop kept ∧ trimmed.valid = node.valid) := by
  refine ⟨by simp [trimMsgsAt, pure, EStateM.pure], ?_⟩
  obtain ⟨dropped, fewer, node', loop, msgs', next', valid', limit', reward'⟩ :=
    @trimLoop_spec A F fl gasLimit baseFee
      ((chains.lookup prevKey).map fun node => (node.effPerf, node.gasLimit)) node.msgs.reverse
      node ((node.msgs.length : Int) - 1)
  rw [List.length_reverse] at fewer
  -- the messages the loop took off the sums are the last `dropped` ones
  have droppedSuffix : node.msgs.reverse.take dropped = (node.msgs.drop (node.msgs.length - dropped)).reverse := List.take_reverse
  refine ⟨node.msgs.length - dropped, Nat.sub_le _ _,
    if (node.msgs.length : Int) - 1 - dropped < 0 then { node' with msgs := [], valid := false }
    else { node' with msgs := node'.msgs.drop (((node.msgs.length : Int) - 1 - dropped).toNat + 1) },
    ?_, ?_, ?_, ?_, ?_⟩
  · have notZero : idx ≠ 0 := by omega
    simp [trimMsgsAt, notZero, Chains.keyAt, getKeyAt, atIdx, prevAt, present, liftFailure, loop, setNode,
      bind, EStateM.bind, get, getThe, MonadStateOf.get, EStateM.get, modify, modifyGet,
      MonadStateOf.modifyGet, EStateM.modifyGet, pure, EStateM.pure, last, next',
      apply_ite MsgChainNode.next]
  · split <;> simp only [limit', droppedSuffix, List.map_reverse, List.sum_reverse]
  · split <;> simp only [reward', droppedSuffix, List.map_reverse, List.sum_reverse]
  · intro nothingKept
    rw [if_pos (by omega)]
    exact ⟨rfl, rfl⟩
  · intro someKept
    rw [if_neg (by omega), msgs']
    refine ⟨?_, valid'⟩
    dsimp only
    congr 1
    omega

/-- A message of sender 0 at `sequence` with gas limit 10 and a premium of 1. -/
def tenGasMessage (sequence : Nat) : SignedMessage Nat :=
  ⟨0, sequence, 0, 10, 1, 1, 0⟩

/-- The last chain of sender 0: two messages of gas limit 10, with their sums. -/
def twoMessageChain : MsgChainNode Nat ℚ where
  msgs := [tenGasMessage 0, tenGasMessage 1]
  gasReward := 20
  gasLimit := 20
  gasPerf := 10000000000
  effPerf := 0
  bp := 0
  parentOffset := 0
  valid := true
  merged := false
  next := none
  prev := some 0

/-- Two chains in selection order, the chain of two messages second, at key 1. -/
def twoChains : Chains Nat ℚ :=
  ⟨[some { MsgChainNode.default FloatOps.rat with next := some 1 }, some twoMessageChain], [0, 1]⟩

/-- The failing input: the chain of two messages at position 1 trimmed to a gas limit of 15
at base fee 0. -/
theorem trimMsgsAt_keeps_uncounted_suffix_two_messages :
    0 < 1 ∧ twoChains.keyVec[1 - 1]? = some 0 ∧ twoChains.keyVec[1]? = some 1 ∧
      twoChains.lookup 1 = some twoMessageChain ∧ twoMessageChain.next = none ∧
      (trimMsgsAt FloatOps.rat 0 15 0 twoChains = .ok () twoChains ∧
      ∃ kept ≤ twoMessageChain.msgs.length, ∃ trimmed : MsgChainNode Nat ℚ,
        trimMsgsAt FloatOps.rat 1 15 0 twoChains =
          .ok () { twoChains with map := twoChains.map.set 1 (some trimmed) } ∧
        trimmed.gasLimit = twoMessageChain.gasLimit -
          ((twoMessageChain.msgs.drop kept).map SignedMessage.gasLimit).sum ∧
        trimmed.gasReward = twoMessageChain.gasReward -
          ((twoMessageChain.msgs.drop kept).map fun msg => getGasReward msg 0).sum ∧
        (kept = 0 → trimmed.msgs = [] ∧ trimmed.valid = false) ∧
        (0 < kept → trimmed.msgs = twoMessageChain.msgs.drop kept ∧
          trimmed.valid = twoMessageChain.valid)) :=
  ⟨by decide, rfl, rfl, rfl, rfl,
    trimMsgsAt_keeps_uncounted_suffix FloatOps.rat twoChains 15 0 (by decide) rfl rfl rfl rfl⟩

example : (match trimMsgsAt FloatOps.rat 1 15 0 twoChains with
      | .ok () after => (after.lookup 1).map fun node => (node.msgs, node.gasLimit)
      | .error _ _ => none) = some ([tenGasMessage 1], 10) := by
  decide +kernel

end Chains

end Forest.MessagePool
