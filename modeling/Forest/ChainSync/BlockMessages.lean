import Forest.ChainSync.HeaderSync
import Forest.VM.ApplyMessage
import Forest.Chain.ChainStore

/-!
# The messages of a block

`check_block_messages` checks a block's messages against the state its parent tipset computes:
the BLS aggregate signature, then `check_msg` on every BLS message and every secp message (with
the secp signature after it), then the message root of the header.  `check_msg` makes the
syntactic checks of `valid_for_block_inclusion`, sums the gas limits, and checks nonces: the
first message of a sender must carry the sender's nonce in the state, and each later one the
next nonce.

The map of next nonces is keyed by the address the message names, while the state is read
through `lookup_id`, which resolves a key address to the actor's ID.  A block may send from an
account both under its ID address and under its key address, and then each address starts at
the actor's nonce: the block is accepted with one nonce used twice by one actor.
`block_msgs_for_tipset` keys its map the same way and keeps both messages, and the VM, which
resolves the sender, refuses the second with a stale nonce, at the miner's expense.

The cryptography, the price list, the network version schedule and the message root are
parameters, `MessageChecks`.
-/

namespace Forest.ChainSync

open Forest.Blocks Forest.Message Forest.VM
open Forest.StateMigration (ActorState)

/-- The parts of `check_block_messages` the model leaves to parameters. -/
structure MessageChecks where
  /-- `is_account_actor`: a code CID of the account actor of some actors version. -/
  isAccountActor : Cid → Bool
  /-- `price_list_by_epoch(epoch).on_chain_message(size).total()`. -/
  onChainMessage : Int → Nat → Int
  /-- `get_network_version_default`. -/
  networkVersion : Int → Nat
  /-- The public keys of the BLS senders and `verify_bls_aggregate` against the header's
  aggregate signature. -/
  blsAggregate : Block → Except TipsetRangeSyncerError Unit
  /-- `resolve_to_key_addr` and the signature check of a secp message. -/
  secpSignature : SignedMessage → Except TipsetRangeSyncerError Unit
  /-- `TipsetValidator::compute_msg_root`. -/
  computeMsgRoot : List UnsignedMessage → List SignedMessage → Except String Cid
  /-- The `Display` of a CID. -/
  displayCid : Cid → String

/-- What `check_block_messages` reads of the parent tipset: its epoch, and the state
`tipset_state` computes from it. -/
structure BaseTipset where
  epoch : Int
  state : Except TipsetRangeSyncerError ActorTable

/-- What `check_msg` keeps from one message to the next: the next nonce of each sender seen so
far, by the address the message names, and the sum of the gas limits. -/
structure CheckState where
  accountSequences : Address → Option Nat
  sumGasLimit : Int

/-- The state `check_block_messages` starts its loops with. -/
def CheckState.empty : CheckState := ⟨fun _ => none, 0⟩

section CheckMsg

variable (checks : MessageChecks) (base : BaseTipset) (version : Nat) (tree : ActorTable)

/-- The nonce `check_msg` expects of a message: the next nonce recorded for its address, or else
the nonce of the actor the address resolves to, which must be an account. -/
def expectedSequence (accountSequences : Address → Option Nat) (msg : UnsignedMessage) :
    Except String Nat :=
  match accountSequences msg.sender with
  | some sequence => .ok sequence
  | none =>
    match tree.getActor msg.sender with
    | none => .error "Failed to retrieve nonce for addr: Actor does not exist in state"
    | some actor =>
      if !checks.isAccountActor actor.code then .error "Sending must be an account actor"
      else .ok actor.sequence

/-- The `check_msg` closure. -/
def checkMsg (msg : UnsignedMessage) (state : CheckState) : Except String CheckState := do
  let minGas := checks.onChainMessage base.epoch msg.size
  msg.validForBlockInclusion minGas version
  let sumGasLimit := state.sumGasLimit + msg.gasLimit
  if sumGasLimit > blockGasLimit then throw "block gas limit exceeded"
  let sequence ← expectedSequence checks tree state.accountSequences msg
  if sequence ≠ msg.sequence then
    let got := msg.sequence
    throw s!"Message has incorrect sequence (exp: {sequence} got: {got})"
  return ⟨Function.update state.accountSequences msg.sender (some (sequence + 1)), sumGasLimit⟩

end CheckMsg

/-- A loop of `check_block_messages` over one kind of message: `check_msg` on each, its error
wrapped with the index in the text `describe` gives, then the kind's own check. -/
def checkMsgs {α : Type} (message : α → UnsignedMessage) (describe : Nat → String → String)
    (after : α → Except TipsetRangeSyncerError Unit)
    (check : UnsignedMessage → CheckState → Except String CheckState) :
    Nat → List α → CheckState → Except TipsetRangeSyncerError CheckState
  | _, [], state => .ok state
  | index, msg :: rest, state =>
    match check (message msg) state with
    | .error e => .error (.validation (describe index e))
    | .ok state' => do
      after msg
      checkMsgs message describe after check (index + 1) rest state'

/-- The loop of `check_block_messages` over the BLS messages. -/
def checkBlsMsgs (check : UnsignedMessage → CheckState → Except String CheckState) :
    List UnsignedMessage → CheckState → Except TipsetRangeSyncerError CheckState :=
  checkMsgs id (fun index e => s!"Block had invalid BLS message at index {index}: {e}")
    (fun _ => .ok ()) check 0

/-- The loop of `check_block_messages` over the secp messages, with the signature check of
each after `check_msg`. -/
def checkSecpMsgs (checks : MessageChecks)
    (check : UnsignedMessage → CheckState → Except String CheckState) :
    List SignedMessage → CheckState → Except TipsetRangeSyncerError CheckState :=
  checkMsgs SignedMessage.message
    (fun index e => s!"block had an invalid secp message at index {index}: {e}")
    checks.secpSignature check 0

/-- `check_block_messages`. -/
def checkBlockMessages (checks : MessageChecks) (base : BaseTipset) (block : Block) :
    Except TipsetRangeSyncerError Unit := do
  checks.blsAggregate block
  let tree ← base.state
  let check := checkMsg checks base (checks.networkVersion block.header.epoch) tree
  let state ← checkBlsMsgs check block.blsMessages CheckState.empty
  let _ ← checkSecpMsgs checks check block.secpMessages state
  let msgRoot ← (checks.computeMsgRoot block.blsMessages block.secpMessages).mapError
    .computingMessageRoot
  if block.header.messages ≠ msgRoot then
    throw (.blockMessageRootInvalid (debugCid checks.displayCid block.header.messages)
      (debugCid checks.displayCid msgRoot))

/-! ## What an accepted block carries -/

section Spec

variable {checks : MessageChecks} {base : BaseTipset} {version : Nat} {tree : ActorTable}
  {msg : UnsignedMessage} {state state' : CheckState}

/-- A sender the loop has not met yet is expected at the nonce of the account it resolves to. -/
theorem expectedSequence_of_unseen {accountSequences : Address → Option Nat} {actor : ActorState}
    (unseen : accountSequences msg.sender = none) (found : tree.getActor msg.sender = some actor)
    (account : checks.isAccountActor actor.code = true) :
    expectedSequence checks tree accountSequences msg = .ok actor.sequence := by
  simp [expectedSequence, unseen, found, account]

/-- `check_msg` accepts a message exactly when it is valid for inclusion, the gas limits still
fit in a block and it carries the expected nonce; it then records the next nonce for the address
the message names. -/
theorem checkMsg_eq_ok :
    checkMsg checks base version tree msg state = .ok state' ↔
      msg.validForBlockInclusion (checks.onChainMessage base.epoch msg.size) version = .ok () ∧
      state.sumGasLimit + msg.gasLimit ≤ blockGasLimit ∧
      expectedSequence checks tree state.accountSequences msg = .ok msg.sequence ∧
      state' = ⟨Function.update state.accountSequences msg.sender (some (msg.sequence + 1)),
        state.sumGasLimit + msg.gasLimit⟩ := by
  simp only [checkMsg]
  cases valid : msg.validForBlockInclusion (checks.onChainMessage base.epoch msg.size) version with
  | error e => simp
  | ok u =>
    by_cases overLimit : state.sumGasLimit + msg.gasLimit > blockGasLimit
    · simp [overLimit]
    · cases expected : expectedSequence checks tree state.accountSequences msg with
      | error e => simp [overLimit]
      | ok sequence =>
        by_cases same : sequence = msg.sequence
        · subst same
          simp only [overLimit, ne_eq, not_true_eq_false, if_false, Except.ok_bind, pure,
            Except.pure, Except.ok.injEq, true_and]
          exact ⟨fun recorded => ⟨by omega, recorded.symm⟩, fun ⟨_, recorded⟩ => recorded.symm⟩
        · simp [overLimit, same]

/-- The nonce expected of a sender the loop has met is the one it recorded. -/
theorem expectedSequence_of_seen {accountSequences : Address → Option Nat} {sequence : Nat}
    (seen : accountSequences msg.sender = some sequence) :
    expectedSequence checks tree accountSequences msg = .ok sequence := by
  simp [expectedSequence, seen]

/-- A nonce expected of a sender the loop has not met is the nonce of the account its address
resolves to. -/
theorem account_of_expectedSequence {accountSequences : Address → Option Nat} {sequence : Nat}
    (unseen : accountSequences msg.sender = none)
    (expected : expectedSequence checks tree accountSequences msg = .ok sequence) :
    ∃ actor, tree.getActor msg.sender = some actor ∧ checks.isAccountActor actor.code = true ∧
      actor.sequence = sequence := by
  simp only [expectedSequence, unseen] at expected
  cases found : tree.getActor msg.sender with
  | none => simp [found] at expected
  | some actor =>
    by_cases account : checks.isAccountActor actor.code = true
    · simp only [found, account, Bool.not_true, Bool.false_eq_true, if_false,
        Except.ok.injEq] at expected
      exact ⟨actor, rfl, account, expected⟩
    · simp [found, account] at expected

theorem checkMsgs_cons_eq_ok {α : Type} {message : α → UnsignedMessage}
    {describe : Nat → String → String} {after : α → Except TipsetRangeSyncerError Unit}
    {check : UnsignedMessage → CheckState → Except String CheckState} {index : Nat} {item : α}
    {rest : List α} {final : CheckState} :
    checkMsgs message describe after check index (item :: rest) state = .ok final ↔
      ∃ middle, check (message item) state = .ok middle ∧ after item = .ok () ∧
        checkMsgs message describe after check (index + 1) rest middle = .ok final := by
  simp only [checkMsgs]
  cases checked : check (message item) state with
  | error e => simp
  | ok middle =>
    cases afterwards : after item with
    | error e => simp
    | ok u => simp

/-- A block `check_block_messages` accepts has messages that hash to its header's message
root. -/
theorem computeMsgRoot_of_checkBlockMessages {block : Block}
    (accepted : checkBlockMessages checks base block = .ok ()) :
    checks.computeMsgRoot block.blsMessages block.secpMessages = .ok block.header.messages := by
  simp only [checkBlockMessages] at accepted
  obtain ⟨_, -, afterAggregate⟩ := Except.bind_eq_ok.mp accepted
  obtain ⟨tree, -, afterState⟩ := Except.bind_eq_ok.mp afterAggregate
  obtain ⟨_, -, afterBls⟩ := Except.bind_eq_ok.mp afterState
  obtain ⟨_, -, afterSecp⟩ := Except.bind_eq_ok.mp afterBls
  obtain ⟨msgRoot, computed, compared⟩ := Except.bind_eq_ok.mp afterSecp
  rw [Except.mapError_eq_ok] at computed
  by_cases same : block.header.messages = msgRoot
  · rw [computed, same]
  · simp [same] at compared

end Spec

/-! ## Nonces by address -/

/-- The nonces of the messages of a list that name an address, in order. -/
def sentBy (seen : List UnsignedMessage) (addr : Address) : List Nat :=
  (seen.filter fun msg => msg.sender = addr).map UnsignedMessage.sequence

@[simp] theorem sentBy_nil (addr : Address) : sentBy [] addr = [] := rfl

theorem sentBy_concat_self (seen : List UnsignedMessage) (msg : UnsignedMessage) :
    sentBy (seen ++ [msg]) msg.sender = sentBy seen msg.sender ++ [msg.sequence] := by
  simp [sentBy]

theorem sentBy_concat_other (seen : List UnsignedMessage) {msg : UnsignedMessage}
    {addr : Address} (other : msg.sender ≠ addr) : sentBy (seen ++ [msg]) addr = sentBy seen addr := by
  simp [sentBy, other]

/-- What the nonce map of `check_msg` says after a list of messages, address by address:
nothing for an address no message named, and otherwise the nonce after the last of them, their
nonces running on from the nonce of the account the address resolves to. -/
def Tracks (checks : MessageChecks) (tree : ActorTable) (seen : List UnsignedMessage)
    (accountSequences : Address → Option Nat) : Prop :=
  ∀ addr, (sentBy seen addr = [] ∧ accountSequences addr = none) ∨
    ∃ actor, tree.getActor addr = some actor ∧ checks.isAccountActor actor.code = true ∧
      sentBy seen addr = List.range' actor.sequence (sentBy seen addr).length ∧
      accountSequences addr = some (actor.sequence + (sentBy seen addr).length)

section Tracks

variable {checks : MessageChecks} {base : BaseTipset} {version : Nat} {tree : ActorTable}
  {seen : List UnsignedMessage}

theorem tracks_empty : Tracks checks tree [] CheckState.empty.accountSequences :=
  fun _ => .inl ⟨rfl, rfl⟩

/-- One message `check_msg` accepts keeps the map tracking the messages: its address either
meets its account's nonce for the first time or continues from the nonce recorded last. -/
theorem Tracks.step {msg : UnsignedMessage} {state state' : CheckState}
    (tracks : Tracks checks tree seen state.accountSequences)
    (checked : checkMsg checks base version tree msg state = .ok state') :
    Tracks checks tree (seen ++ [msg]) state'.accountSequences := by
  obtain ⟨-, -, expected, rfl⟩ := checkMsg_eq_ok.mp checked
  intro addr
  by_cases other : msg.sender = addr
  case neg =>
    rw [sentBy_concat_other seen other]
    simpa [Function.update_of_ne (Ne.symm other)] using tracks addr
  case pos =>
    subst other
    refine .inr ?_
    rw [sentBy_concat_self]
    simp only [Function.update_self, List.length_append, List.length_singleton]
    rcases tracks msg.sender with ⟨none_sent, unseen⟩ | ⟨actor, found, account, running, recorded⟩
    · -- the first message naming the address: it carries its account's nonce
      obtain ⟨actor, found, account, same⟩ := account_of_expectedSequence unseen expected
      refine ⟨actor, found, account, ?_, ?_⟩
      · simp [none_sent, same]
      · simp [none_sent, same]
    · -- a later one: it carries the nonce recorded after the last one
      rw [expectedSequence_of_seen recorded, Except.ok.injEq] at expected
      refine ⟨actor, found, account, ?_, ?_⟩
      · rw [← expected, running, List.length_range', List.range'_concat, Nat.one_mul]
      · rw [← expected, Nat.add_assoc]

/-- A loop of `check_msg` that accepts every message keeps the map tracking all of them; the
induction is on the messages, with the map and the messages seen before them generalized. -/
theorem Tracks.checkMsgs {α : Type} {message : α → UnsignedMessage}
    {describe : Nat → String → String} {after : α → Except TipsetRangeSyncerError Unit} :
    ∀ {index : Nat} {items : List α} {seen : List UnsignedMessage} {state final : CheckState},
      Tracks checks tree seen state.accountSequences →
      checkMsgs message describe after (checkMsg checks base version tree) index items state =
        .ok final →
      Tracks checks tree (seen ++ items.map message) final.accountSequences
  | _, [], seen, state, final, tracks, ran => by
    simp only [ChainSync.checkMsgs, Except.ok.injEq] at ran
    subst ran
    simpa using tracks
  | _, item :: rest, seen, state, final, tracks, ran => by
    obtain ⟨middle, checked, -, others⟩ := checkMsgs_cons_eq_ok.mp ran
    have continued := Tracks.checkMsgs (tracks.step checked) others
    simpa using continued

end Tracks

/-- In a block `check_block_messages` accepts, the messages naming one address, BLS messages
first, carry consecutive nonces from the nonce of the account the address resolves to in the
state of the parent tipset.  The nonces are tracked by address, not by actor. -/
theorem checkBlockMessages_sequences_by_address {checks : MessageChecks} {base : BaseTipset}
    {tree : ActorTable} {block : Block} (accepted : checkBlockMessages checks base block = .ok ())
    (computed : base.state = .ok tree) {addr : Address}
    (named : sentBy (block.blsMessages ++ block.secpMessages.map SignedMessage.message) addr ≠ []) :
    ∃ actor, tree.getActor addr = some actor ∧ checks.isAccountActor actor.code = true ∧
      sentBy (block.blsMessages ++ block.secpMessages.map SignedMessage.message) addr =
        List.range' actor.sequence
          (sentBy (block.blsMessages ++ block.secpMessages.map SignedMessage.message) addr).length := by
  simp only [checkBlockMessages] at accepted
  obtain ⟨_, -, afterAggregate⟩ := Except.bind_eq_ok.mp accepted
  rw [computed, Except.ok_bind] at afterAggregate
  obtain ⟨blsState, blsRan, afterBls⟩ := Except.bind_eq_ok.mp afterAggregate
  obtain ⟨secpState, secpRan, -⟩ := Except.bind_eq_ok.mp afterBls
  have tracked := (tracks_empty.checkMsgs blsRan).checkMsgs secpRan
  simp only [List.nil_append, List.map_id] at tracked
  rcases tracked addr with ⟨none_sent, -⟩ | ⟨actor, found, account, running, -⟩
  · exact absurd none_sent named
  · exact ⟨actor, found, account, running⟩

/-! ## One nonce under two addresses of one account -/

/-- An account that sends one BLS message under its ID address and one under its key address,
both with its nonce, gets the block accepted: each address starts at the account's nonce in the
map of `check_msg`.  `block_msgs_for_tipset`, whose map is keyed the same way, keeps both
messages, and the VM, which resolves both senders to the account, charges the first and refuses
the second for its stale nonce, with the penalty on the miner. -/
theorem checkBlockMessages_accepts_repeated_nonce {checks : MessageChecks} {base : BaseTipset}
    {tree : ActorTable} {actorId : Nat} {actor : ActorState} {keyAddress : Address}
    {header : BlockHeader} {first second : UnsignedMessage}
    (computed : base.state = .ok tree)
    (resolves : tree.lookupId keyAddress = some actorId) (keyed : keyAddress ≠ .id actorId)
    (stored : tree.actors actorId = some actor) (account : checks.isAccountActor actor.code = true)
    (firstSender : first.sender = .id actorId) (secondSender : second.sender = keyAddress)
    (firstSequence : first.sequence = actor.sequence)
    (secondSequence : second.sequence = actor.sequence)
    (firstValid : first.validForBlockInclusion (checks.onChainMessage base.epoch first.size)
      (checks.networkVersion header.epoch) = .ok ())
    (secondValid : second.validForBlockInclusion (checks.onChainMessage base.epoch second.size)
      (checks.networkVersion header.epoch) = .ok ())
    (gasFits : first.gasLimit + second.gasLimit ≤ blockGasLimit)
    (signed : checks.blsAggregate ⟨header, [first, second], []⟩ = .ok ())
    (rooted : checks.computeMsgRoot [first, second] [] = .ok header.messages)
    {blockMessages : BlockHeader → Except Chain.Error (List UnsignedMessage × List SignedMessage)}
    (loaded : blockMessages header = .ok ([first, second], [])) {tipset : Tipset}
    (single : tipset.headers = [header]) (execution : Execution checks.isAccountActor)
    {baseFee : Int} {costTotal : UnsignedMessage → Int}
    (firstGas : 0 < first.gasLimit ∧ costTotal first ≤ first.gasLimit)
    (secondGas : 0 < second.gasLimit ∧ costTotal second ≤ second.gasLimit)
    (funded : first.gasFeeCap * first.gasLimit ≤ actor.balance) :
    checkBlockMessages checks base ⟨header, [first, second], []⟩ = .ok () ∧
    Chain.blockMsgsForTipset blockMessages tipset =
      .ok [⟨header.minerAddress, [.unsigned first, .unsigned second],
        (header.electionProof.map ElectionProof.winCount).getD 0⟩] ∧
    applyMessages checks.isAccountActor execution baseFee costTotal tree [first, second] =
      .ok [none, some ⟨.sysErrSenderStateInvalid, baseFee * second.gasLimit,
        "actor sequence invalid: " ++ toString actor.sequence ++ " != " ++
          toString (actor.sequence + 1)⟩] := by
  have apart : second.sender ≠ first.sender := by
    rw [firstSender, secondSender]
    exact keyed
  -- the block: both messages meet the account's nonce, each under an address not seen before
  have firstFound : tree.getActor first.sender = some actor := by
    simp [ActorTable.getActor, firstSender, stored]
  have secondFound : tree.getActor second.sender = some actor := by
    simp [ActorTable.getActor, secondSender, resolves, stored]
  have firstBounded := UnsignedMessage.bounds_of_validForBlockInclusion firstValid
  let afterFirst : CheckState :=
    ⟨Function.update (fun _ => none) first.sender (some (first.sequence + 1)), first.gasLimit⟩
  have firstChecked : checkMsg checks base (checks.networkVersion header.epoch) tree first
      CheckState.empty = .ok afterFirst := by
    refine checkMsg_eq_ok.mpr ⟨firstValid, ?_, ?_, ?_⟩
    · show 0 + first.gasLimit ≤ blockGasLimit
      omega
    · exact firstSequence ▸ expectedSequence_of_unseen rfl firstFound account
    · simp [afterFirst, CheckState.empty]
  have secondChecked : checkMsg checks base (checks.networkVersion header.epoch) tree second
      afterFirst = .ok ⟨Function.update afterFirst.accountSequences second.sender
        (some (second.sequence + 1)), first.gasLimit + second.gasLimit⟩ := by
    refine checkMsg_eq_ok.mpr ⟨secondValid, gasFits, ?_, rfl⟩
    exact secondSequence ▸ expectedSequence_of_unseen (by simp [afterFirst, apart]) secondFound
      account
  refine ⟨?accepted, ?kept, ?applied⟩
  case accepted =>
    simp [checkBlockMessages, checkBlsMsgs, checkSecpMsgs, checkMsgs, signed, computed,
      firstChecked, secondChecked, rooted, Except.mapError]
  case kept =>
    -- both senders are new to the map of `select_msg`, keyed by address
    let applied : Chain.AppliedNonces :=
      Function.update (fun _ => none) first.sender (some (first.sequence + 1))
    have firstSelected : Chain.selectMsg (fun _ => none) (.unsigned first) =
        (some (.unsigned first), applied) := Chain.selectMsg_of_unseen rfl
    have secondSelected : Chain.selectMsg applied (.unsigned second) =
        (some (.unsigned second), Function.update applied second.sender
          (some (second.sequence + 1))) :=
      Chain.selectMsg_of_unseen (by simp [applied, ChainMessage.message, apart])
    simp [Chain.blockMsgsForTipset, single, Chain.blockMsgsLoop, loaded, Chain.selectMessages,
      firstSelected, secondSelected]
  case applied =>
    -- the VM resolves both senders to the account: the first is charged, the second is stale
    let chargedActor : ActorState :=
      { actor with balance := actor.balance - first.gasFeeCap * first.gasLimit,
                   sequence := actor.sequence + 1 }
    let charged : ActorTable := tree.setActor actorId chargedActor
    have firstCharged : checkSender checks.isAccountActor baseFee (costTotal first) tree first =
        .ok (.charged charged) :=
      checkSender_charged firstGas.1 firstGas.2 (by simp [firstSender]) stored account
        firstSequence funded
    obtain ⟨after, afterStored, afterCode, afterSequence⟩ :=
      execution.keepsAccounts charged first actorId chargedActor (by simp [charged]) account
    have secondStale : checkSender checks.isAccountActor baseFee (costTotal second)
        (execution.run charged first) second = .ok (.refused
          ⟨.sysErrSenderStateInvalid, baseFee * second.gasLimit,
            "actor sequence invalid: " ++ toString second.sequence ++ " != " ++
              toString after.sequence⟩) :=
      checkSender_stale secondGas.1 secondGas.2
        (execution.lookupId_run (by simp [charged, secondSender, resolves])) afterStored
        (afterCode ▸ account) (by simp [afterSequence, secondSequence, chargedActor])
    rw [afterSequence, secondSequence] at secondStale
    simp [applyMessages, firstCharged, secondStale, chargedActor]

/-- The v5 account actor's code, `make_builtin(b"fil/5/account")`: a raw CIDv1 over the identity
multihash of the name. -/
def accountCode : Cid :=
  ⟨[0x01, 0x55, 0x00, 0x0d, 0x66, 0x69, 0x6c, 0x2f, 0x35, 0x2f, 0x61, 0x63, 0x63, 0x6f, 0x75, 0x6e,
    0x74]⟩

/-- A parent state with one account, at ID 100 under the BLS key address `bls [7]`, at nonce 4. -/
def resolvedAccount : ActorTable where
  addressMap := fun addr => if addr = .bls [7] then some 100 else none
  actors := fun actorId => if actorId = 100 then some ⟨accountCode, ⟨[]⟩, 4, 1000000⟩ else none

/-- A transfer of one unit to ID 101 at nonce 4, from the given address. -/
def transferFrom (sender : Address) : UnsignedMessage where
  version := 0
  sender := sender
  recipient := .id 101
  sequence := 4
  value := 1
  methodNum := 0
  gasLimit := 1000
  gasFeeCap := 1
  gasPremium := 1
  size := 0

/-- Checks whose cryptography accepts everything and whose message root is the one of
`exampleHeader`. -/
def acceptingChecks : MessageChecks where
  isAccountActor := fun code => decide (code = accountCode)
  onChainMessage := fun _ _ => 0
  networkVersion := fun _ => 13
  blsAggregate := fun _ => .ok ()
  secpSignature := fun _ => .ok ()
  computeMsgRoot := fun _ _ => .ok ⟨[0]⟩
  displayCid := fun _ => ""

/-- A send that changes no actor's code, nonce or address. -/
def idleExecution : Execution acceptingChecks.isAccountActor where
  run := fun table _ => table
  keepsAccounts := fun _ _ _ actor stored _ => ⟨actor, stored, rfl, rfl⟩
  keepsAddresses := fun _ _ _ _ mapped => mapped

theorem checkBlockMessages_accepts_repeated_nonce_f0100 :
    checkBlockMessages acceptingChecks ⟨0, .ok resolvedAccount⟩
        ⟨exampleHeader 1000 1, [transferFrom (.id 100), transferFrom (.bls [7])], []⟩ = .ok () ∧
    Chain.blockMsgsForTipset
        (fun _ => .ok ([transferFrom (.id 100), transferFrom (.bls [7])], []))
        ⟨[exampleHeader 1000 1], List.cons_ne_nil _ _⟩ =
      .ok [⟨.id 1000, [.unsigned (transferFrom (.id 100)), .unsigned (transferFrom (.bls [7]))],
        1⟩] ∧
    applyMessages acceptingChecks.isAccountActor idleExecution 1 (fun _ => 0) resolvedAccount
        [transferFrom (.id 100), transferFrom (.bls [7])] =
      .ok [none, some ⟨.sysErrSenderStateInvalid, 1000,
        "actor sequence invalid: " ++ toString 4 ++ " != " ++ toString (4 + 1)⟩] :=
  @checkBlockMessages_accepts_repeated_nonce acceptingChecks ⟨0, .ok resolvedAccount⟩
    resolvedAccount 100 ⟨accountCode, ⟨[]⟩, 4, 1000000⟩ (.bls [7]) (exampleHeader 1000 1)
    (transferFrom (.id 100)) (transferFrom (.bls [7])) rfl (by decide) (by decide) rfl
    (by decide) rfl rfl rfl rfl (by decide) (by decide) (by decide) rfl rfl
    (fun _ => .ok ([transferFrom (.id 100), transferFrom (.bls [7])], [])) rfl
    ⟨[exampleHeader 1000 1], List.cons_ne_nil _ _⟩ rfl idleExecution 1 (fun _ => 0)
    ⟨by decide, by decide⟩ ⟨by decide, by decide⟩ (by decide)

/-- A block of two transfers from the account's ID address `f0100`, at nonces 4 and 5. -/
def consecutiveTransfers : Block :=
  ⟨exampleHeader 1000 1, [transferFrom (.id 100), { transferFrom (.id 100) with sequence := 5 }], []⟩

/-- The block is accepted, and the messages of `f0100` carry the nonces 4 and 5 from the nonce of
account 100. -/
theorem checkBlockMessages_sequences_by_address_consecutive :
    checkBlockMessages acceptingChecks ⟨0, .ok resolvedAccount⟩ consecutiveTransfers = .ok () ∧
      ∃ actor, resolvedAccount.getActor (.id 100) = some actor ∧
        acceptingChecks.isAccountActor actor.code = true ∧
        sentBy (consecutiveTransfers.blsMessages ++
            consecutiveTransfers.secpMessages.map SignedMessage.message) (.id 100) =
          List.range' actor.sequence (sentBy (consecutiveTransfers.blsMessages ++
            consecutiveTransfers.secpMessages.map SignedMessage.message) (.id 100)).length := by
  have accepted : checkBlockMessages acceptingChecks ⟨0, .ok resolvedAccount⟩
      consecutiveTransfers = .ok () := rfl
  exact ⟨accepted, checkBlockMessages_sequences_by_address accepted rfl (by decide)⟩

end Forest.ChainSync
