import Forest.MessagePool.Selection

namespace Forest.MessagePool

/-!
# Selection when no chain can be built

A sender whose pending messages all miss its current nonce contributes no chain: the
checking loop of `create_message_chains` skips the stale nonces and stops at the first
gap, so no message is accepted and the chains are left as they were.  When that holds of
every sender, greedy selection reaches `merge_and_trim` with no chains, and
`merge_and_trim` reads `chains[0]` before it checks for emptiness: `select_messages`
panics instead of returning an empty block.
-/

variable {A F : Type} (fl : FloatOps F) (provider : Provider A)

/-- Every sender of a pool has a state, and none of its pending messages carries its
current nonce. -/
def NoCurrentNonce (entries : List (Sigma fun _ : A => List (SignedMessage A))) : Prop :=
  ∀ entry ∈ entries, ∃ state, provider.getActorAfter entry.1 = .ok state ∧
    ∀ msg ∈ entry.2, msg.sequence ≠ state.sequence

/-- Without a message at the current nonce the checking loop accepts nothing: it skips
exactly the messages it steps over. -/
theorem scanMessages_i_le_skip (baseFee : Int) (msgs : List (SignedMessage A))
    (scan : ScanState) (noCurrent : ∀ msg ∈ msgs, msg.sequence ≠ scan.curSeq)
    (behind : scan.i ≤ scan.skip) :
    (scanMessages provider baseFee msgs scan).i ≤
      (scanMessages provider baseFee msgs scan).skip := by
  induction msgs generalizing scan with
  | nil => exact behind
  | cons msg rest inductionHypothesis =>
    have notCurrent : msg.sequence ≠ scan.curSeq := noCurrent msg (by simp)
    by_cases below : msg.sequence < scan.curSeq
    · rw [scanMessages, if_pos below]
      exact inductionHypothesis _ (fun other member => noCurrent other (by simp [member]))
        (by simp; omega)
    · rw [scanMessages, if_neg below, if_pos notCurrent]
      exact behind

/-- `create_message_chains` leaves the chains unchanged for a sender with no message at
its current nonce. -/
theorem createMessageChains_of_noCurrent {actor : A} {mset : List (SignedMessage A)}
    {state : ActorState} (baseFee : Int) (chains : Chains A F)
    (found : provider.getActorAfter actor = .ok state)
    (noCurrent : ∀ msg ∈ mset, msg.sequence ≠ state.sequence) :
    createMessageChains fl provider actor mset baseFee chains = .ok () chains := by
  have sortedNoCurrent : ∀ msg ∈ mset.insertionSort (fun a b => a.sequence ≤ b.sequence),
      msg.sequence ≠ state.sequence := fun msg member =>
    noCurrent msg ((List.perm_insertionSort _ mset).mem_iff.mp member)
  have stops := scanMessages_i_le_skip provider baseFee _
    ⟨state.sequence, state.balance, 0, 0, 0, []⟩ sortedNoCurrent (Nat.le_refl 0)
  simp only [createMessageChains, bind, EStateM.bind, liftFailure, found, Except.mapError]
  simp [stops, pure, EStateM.pure]

/-- Chain creation over a pool without current nonces leaves the chains unchanged. -/
theorem chainsForPending_of_noCurrent [DecidableEq A] (baseFee : Int) (chains : Chains A F)
    (entries : List (Sigma fun _ : A => List (SignedMessage A)))
    (noCurrent : NoCurrentNonce provider entries) :
    chainsForPending fl provider baseFee entries chains = .ok () chains := by
  induction entries with
  | nil => rfl
  | cons entry rest inductionHypothesis =>
    obtain ⟨state, found, fresh⟩ := noCurrent entry (by simp)
    have restNoCurrent : NoCurrentNonce provider rest :=
      fun other member => noCurrent other (by simp [member])
    simp only [chainsForPending, bind, EStateM.bind,
      createMessageChains_of_noCurrent fl provider baseFee chains found fresh]
    exact inductionHypothesis restNoCurrent

/-- `merge_and_trim` on chains without keys panics at `chains[0]`. -/
theorem mergeAndTrim_of_no_keys [DecidableEq A] (result : List (SignedMessage A))
    (baseFee gasLimit minGas : Int) (chains : Chains A F) (noKeys : chains.keyVec = []) :
    mergeAndTrim fl result baseFee gasLimit minGas chains =
      .error (.panic (indexOutOfBounds 0 0)) chains := by
  obtain ⟨map, keyVec⟩ := chains
  subst noKeys
  rfl

section Pool

variable [DecidableEq A]

/-- The priority loop removes senders from a pool without current nonces and builds no
chain; what is left has no current nonces either. -/
theorem priorityChains_of_noCurrent (baseFee : Int) (chains : Chains A F)
    (priorityAddrs : List A) (pending : Pending A)
    (noCurrent : NoCurrentNonce provider pending.entries) :
    ∃ rest : Pending A, NoCurrentNonce provider rest.entries ∧
      priorityChains fl provider baseFee priorityAddrs pending chains = .ok rest chains := by
  induction priorityAddrs generalizing pending with
  | nil => exact ⟨pending, noCurrent, rfl⟩
  | cons actor others inductionHypothesis =>
    cases looked : pending.lookup actor with
    | none =>
      simp only [priorityChains, looked]
      exact inductionHypothesis pending noCurrent
    | some mset =>
      have member :
          (⟨actor, mset⟩ : Sigma fun _ : A => List (SignedMessage A)) ∈ pending.entries :=
        AList.mem_lookup_iff.mp looked
      obtain ⟨state, found, fresh⟩ := noCurrent _ member
      have erasedNoCurrent : NoCurrentNonce provider (pending.erase actor).entries :=
        fun entry kept => noCurrent entry ((List.kerase_sublist actor pending.entries).subset kept)
      obtain ⟨rest, restNoCurrent, ran⟩ :=
        inductionHypothesis (pending.erase actor) erasedNoCurrent
      refine ⟨rest, restNoCurrent, ?_⟩
      simp only [priorityChains, looked, bind, EStateM.bind,
        createMessageChains_of_noCurrent fl provider baseFee chains found fresh]
      exact ran

/-- Priority selection over a pool without current nonces selects nothing and leaves the
whole block gas limit. -/
theorem selectPriorityMessages_of_noCurrent (priorityAddrs : List A) (pending : Pending A)
    (baseFee : Int) (noCurrent : NoCurrentNonce provider pending.entries) :
    ∃ rest : Pending A, NoCurrentNonce provider rest.entries ∧
      selectPriorityMessages fl provider priorityAddrs pending baseFee =
        .ok (([], blockGasLimit), rest) := by
  obtain ⟨rest, restNoCurrent, ran⟩ :=
    priorityChains_of_noCurrent fl provider baseFee Chains.new priorityAddrs pending noCurrent
  refine ⟨rest, restNoCurrent, ?_⟩
  simp only [selectPriorityMessages, runChains, EStateM.run, bind, EStateM.bind, ran]
  rfl

/-- Greedy selection over a non-empty pool without current nonces builds no chain and
panics in `merge_and_trim`. -/
theorem selectMessagesGreedy_of_noCurrent (priorityAddrs : List A) (pending : Pending A)
    {baseFee : Int} (baseFeeOk : provider.chainComputeBaseFee = .ok baseFee)
    (someSender : pending.entries ≠ [])
    (noCurrent : NoCurrentNonce provider pending.entries) :
    selectMessagesGreedy fl provider priorityAddrs pending =
      .error (.panic (indexOutOfBounds 0 0)) := by
  obtain ⟨rest, restNoCurrent, priority⟩ :=
    selectPriorityMessages_of_noCurrent fl provider priorityAddrs pending baseFee noCurrent
  have nonempty : pending.entries.isEmpty = false := List.isEmpty_eq_false_iff.mpr someSender
  have fits : ¬ blockGasLimit < minGas := by decide
  simp only [selectMessagesGreedy, baseFeeOk, Except.mapError, bind, Except.bind, nonempty,
    Bool.false_eq_true, if_false, priority, fits, runChains, EStateM.run, EStateM.bind,
    chainsForPending_of_noCurrent fl provider baseFee Chains.new rest.entries restNoCurrent,
    mergeAndTrim_of_no_keys fl _ baseFee blockGasLimit minGas Chains.new rfl]

/--
`select_messages` with a ticket quality above 0.84 panics on every non-empty pending pool
in which no sender has a message at its current nonce (a nonce gap, or only stale
messages): no chain is built, and `merge_and_trim` indexes `chains[0]` of the empty
chains.  Whatever the priority senders, the floating-point outcomes and the block
probabilities, no block is returned.
-/
theorem selectMessages_panics_without_current_nonce (priorityAddrs : List A)
    (blockProbabilities : F → List F) (shuffle : List Nat → List Nat) (pending : Pending A)
    (tq : F) (baseFee : Int) (greedy : fl.lt (fl.ofRat (21 / 25)) tq = true)
    (baseFeeOk : provider.chainComputeBaseFee = .ok baseFee)
    (someSender : pending.entries ≠ [])
    (noCurrent : NoCurrentNonce provider pending.entries) :
    selectMessages fl provider priorityAddrs blockProbabilities shuffle pending tq =
      .error (.panic (indexOutOfBounds 0 0)) := by
  simp only [selectMessages, greedy, if_true,
    selectMessagesGreedy_of_noCurrent fl provider priorityAddrs pending baseFeeOk someSender
      noCurrent]
  rfl

end Pool

/-- A chain state where every sender is at nonce 0 with ample balance. -/
def staleProvider : Provider Nat where
  getActorAfter _ := .ok ⟨0, 1000000000000000000⟩
  chainComputeBaseFee := .ok 100
  onChainMessageGas _ := 100

/-- A message of sender 0 at nonce 1. -/
def gapMessage : SignedMessage Nat :=
  ⟨0, 1, 0, 1000000, 200, 10, 100⟩

/-- The failing input: sender 0 at nonce 0 with a single pending message at nonce 1, no
priority senders, ticket quality 1. -/
theorem selectMessages_panics_on_nonce_gap :
    FloatOps.rat.lt (FloatOps.rat.ofRat (21 / 25)) 1 = true ∧
      staleProvider.chainComputeBaseFee = .ok 100 ∧
      (AList.insert 0 [gapMessage] ∅ : Pending Nat).entries ≠ [] ∧
      NoCurrentNonce staleProvider (AList.insert 0 [gapMessage] ∅ : Pending Nat).entries ∧
      selectMessages FloatOps.rat staleProvider [] (fun _ => []) id
          (AList.insert 0 [gapMessage] ∅) 1 =
        .error (.panic (indexOutOfBounds 0 0)) := by
  have greedy : FloatOps.rat.lt (FloatOps.rat.ofRat (21 / 25)) 1 = true := by decide +kernel
  have entries : (AList.insert 0 [gapMessage] ∅ : Pending Nat).entries = [⟨0, [gapMessage]⟩] :=
    rfl
  have someSender : (AList.insert 0 [gapMessage] ∅ : Pending Nat).entries ≠ [] := by
    rw [entries]
    exact List.cons_ne_nil _ _
  have noCurrent :
      NoCurrentNonce staleProvider (AList.insert 0 [gapMessage] ∅ : Pending Nat).entries := by
    intro entry member
    rw [entries, List.mem_singleton] at member
    subst member
    refine ⟨⟨0, 1000000000000000000⟩, rfl, ?_⟩
    intro msg held
    rw [List.mem_singleton] at held
    subst held
    decide
  exact ⟨greedy, rfl, someSender, noCurrent,
    selectMessages_panics_without_current_nonce FloatOps.rat staleProvider [] (fun _ => []) id
      _ 1 100 greedy rfl someSender noCurrent⟩

end Forest.MessagePool
