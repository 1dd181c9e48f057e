import Forest.StateMigration.Migration
import Forest.Message.Message

/-!
# The sender checks of `VM::apply_message`

Before a message is sent, `apply_message` refuses it, with an exit code and a penalty for the
miner, when its on-chain gas cost is over its gas limit, when its sender is not an account actor
of the state, when its nonce is not the sender's, or when the sender cannot cover
`gas_fee_cap * gas_limit`.  Otherwise the gas is deducted and the sender's nonce bumped, and
only then is the message sent.

The state is read as `StateTree::get_actor` reads it: `lookup_id` keeps an ID address and
resolves any other address through the init actor's address map, so an account's key address
and its ID address name one actor.  What the send and the gas settlement do after the checks is
a parameter, `Execution`: it keeps every account actor with its code and nonce, and every
address the init actor resolves, as the builtin actors do.
-/

namespace Forest.VM

open Forest.Blocks Forest.Message
open Forest.StateMigration (ActorState)

/-- The actors of a state as `StateTree::get_actor` finds them: the init actor's map from
addresses to actor IDs, and the actor the HAMT holds at each ID. -/
structure ActorTable where
  addressMap : Address → Option Nat
  actors : Nat → Option ActorState

namespace ActorTable

/-- `StateTree::lookup_id`: an ID address is its own ID; any other goes through the init
actor. -/
def lookupId (table : ActorTable) : Address → Option Nat
  | .id actorId => some actorId
  | addr => table.addressMap addr

/-- `StateTree::get_actor`. -/
def getActor (table : ActorTable) (addr : Address) : Option ActorState :=
  (table.lookupId addr).bind table.actors

/-- `StateTree::set_actor` at an actor ID. -/
def setActor (table : ActorTable) (actorId : Nat) (actor : ActorState) : ActorTable :=
  { table with actors := Function.update table.actors actorId (some actor) }

@[simp] theorem lookupId_id (table : ActorTable) (actorId : Nat) :
    table.lookupId (.id actorId) = some actorId := rfl

@[simp] theorem actors_setActor (table : ActorTable) (actorId other : Nat) (actor : ActorState) :
    (table.setActor actorId actor).actors other =
      if other = actorId then some actor else table.actors other := by
  simp only [setActor, Function.update_apply]

@[simp] theorem addressMap_setActor (table : ActorTable) (actorId : Nat) (actor : ActorState) :
    (table.setActor actorId actor).addressMap = table.addressMap := rfl

@[simp] theorem lookupId_setActor (table : ActorTable) (actorId : Nat) (actor : ActorState)
    (addr : Address) : (table.setActor actorId actor).lookupId addr = table.lookupId addr := by
  cases addr <;> rfl

end ActorTable

/-- The exit codes the sender checks end with. -/
inductive ExitCode where
  | sysErrSenderInvalid
  | sysErrSenderStateInvalid
  | sysErrOutOfGas
  deriving DecidableEq, Repr

/-- A message the sender checks refuse: the exit code of its receipt, the penalty the miner
pays and the actor error's text. -/
structure Refusal where
  exitCode : ExitCode
  penalty : Int
  actError : String
  deriving DecidableEq, Repr

/-- How the sender checks end: the message is refused, or the gas is charged to the sender and
the message goes on to be sent. -/
inductive SenderCheck where
  | refused (refusal : Refusal)
  | charged (table : ActorTable)

/-- `check_message`: a message must set a positive gas limit. -/
def checkMessage (msg : UnsignedMessage) : Except String Unit :=
  if msg.gasLimit = 0 then .error "Message has no gas limit set"
  else if msg.gasLimit < 0 then .error "Message has negative gas limit"
  else .ok ()

section Sender

variable (isAccountActor : Cid → Bool)

/-- The part of `VM::apply_message` before the send.  `costTotal` is
`price_list.on_chain_message(len).total()` for the serialized message; `baseFee` is the base fee
of the VM.  `check_message` failing fails the whole application. -/
def checkSender (baseFee costTotal : Int) (table : ActorTable) (msg : UnsignedMessage) :
    Except String SenderCheck := do
  checkMessage msg
  if costTotal > msg.gasLimit then
    let limit := msg.gasLimit
    return .refused
      ⟨.sysErrOutOfGas, baseFee * costTotal, s!"Out of gas ({costTotal} > {limit})"⟩
  let minerPenaltyAmount := baseFee * msg.gasLimit
  match table.lookupId msg.sender with
  | none => return .refused ⟨.sysErrSenderInvalid, minerPenaltyAmount, "Sender invalid"⟩
  | some actorId =>
    match table.actors actorId with
    | none => return .refused ⟨.sysErrSenderInvalid, minerPenaltyAmount, "Sender invalid"⟩
    | some fromAct =>
      if !isAccountActor fromAct.code then
        return .refused ⟨.sysErrSenderInvalid, minerPenaltyAmount, "send not from account actor"⟩
      else if msg.sequence ≠ fromAct.sequence then
        let got := msg.sequence
        let expected := fromAct.sequence
        return .refused ⟨.sysErrSenderStateInvalid, minerPenaltyAmount,
          s!"actor sequence invalid: {got} != {expected}"⟩
      else
        let gasCost := msg.gasFeeCap * msg.gasLimit
        if fromAct.balance < gasCost then
          let balance := fromAct.balance
          return .refused ⟨.sysErrSenderStateInvalid, minerPenaltyAmount,
            s!"actor balance less than needed: {balance} < {gasCost}"⟩
        else
          -- `deduct_funds` cannot fail after the balance check
          return .charged (table.setActor actorId
            { fromAct with balance := fromAct.balance - gasCost, sequence := fromAct.sequence + 1 })

/-- What `VM::send` and the gas settlement after the sender checks do to the actors: anything
that keeps each account actor, with its code and nonce, and each address the init actor
resolves. -/
structure Execution where
  run : ActorTable → UnsignedMessage → ActorTable
  keepsAccounts : ∀ table msg actorId actor, table.actors actorId = some actor →
    isAccountActor actor.code = true →
      ∃ actor', (run table msg).actors actorId = some actor' ∧ actor'.code = actor.code ∧
        actor'.sequence = actor.sequence
  keepsAddresses : ∀ table msg addr actorId, table.addressMap addr = some actorId →
    (run table msg).addressMap addr = some actorId

/-- The messages of a tipset applied in order: for each, `none` when it passed the sender checks
and was sent, or how it was refused. -/
def applyMessages (execution : Execution isAccountActor) (baseFee : Int)
    (costTotal : UnsignedMessage → Int) :
    ActorTable → List UnsignedMessage → Except String (List (Option Refusal))
  | _, [] => .ok []
  | table, msg :: rest => do
    match ← checkSender isAccountActor baseFee (costTotal msg) table msg with
    | .refused refusal =>
      return some refusal ::
        (← applyMessages execution baseFee costTotal table rest)
    | .charged charged =>
      return none :: (← applyMessages execution baseFee costTotal (execution.run charged msg) rest)

end Sender

section Spec

variable {isAccountActor : Cid → Bool} {baseFee costTotal : Int} {table : ActorTable}
  {msg : UnsignedMessage} {actorId : Nat} {fromAct : ActorState}

theorem checkMessage_of_pos (positive : 0 < msg.gasLimit) : checkMessage msg = .ok () := by
  simp only [checkMessage]
  split_ifs <;> first | rfl | omega

/-- A message that passes every sender check is charged: the sender pays the gas cost and its
nonce moves on. -/
theorem checkSender_charged (positive : 0 < msg.gasLimit) (covered : costTotal ≤ msg.gasLimit)
    (resolved : table.lookupId msg.sender = some actorId)
    (stored : table.actors actorId = some fromAct) (account : isAccountActor fromAct.code = true)
    (current : msg.sequence = fromAct.sequence)
    (funded : msg.gasFeeCap * msg.gasLimit ≤ fromAct.balance) :
    checkSender isAccountActor baseFee costTotal table msg = .ok (.charged (table.setActor actorId
      { fromAct with balance := fromAct.balance - msg.gasFeeCap * msg.gasLimit,
                     sequence := fromAct.sequence + 1 })) := by
  have notOver : ¬ costTotal > msg.gasLimit := by omega
  have notShort : ¬ fromAct.balance < msg.gasFeeCap * msg.gasLimit := by omega
  simp [checkSender, checkMessage_of_pos positive, notOver, resolved, stored, account, current,
    notShort]

/-- A message whose nonce is not its sender's is refused with `SysErrSenderStateInvalid` and the
miner pays the penalty. -/
theorem checkSender_stale (positive : 0 < msg.gasLimit) (covered : costTotal ≤ msg.gasLimit)
    (resolved : table.lookupId msg.sender = some actorId)
    (stored : table.actors actorId = some fromAct) (account : isAccountActor fromAct.code = true)
    (stale : msg.sequence ≠ fromAct.sequence) :
    checkSender isAccountActor baseFee costTotal table msg = .ok (.refused
      ⟨.sysErrSenderStateInvalid, baseFee * msg.gasLimit,
        "actor sequence invalid: " ++ toString msg.sequence ++ " != " ++
          toString fromAct.sequence⟩) := by
  have notOver : ¬ costTotal > msg.gasLimit := by omega
  simp [checkSender, checkMessage_of_pos positive, notOver, resolved, stored, account, stale]
  -- what is left is the `toString` of the literal parts of the text
  rfl

/-- An address the init actor resolves keeps resolving to the same actor after a message is
sent. -/
theorem Execution.lookupId_run (execution : Execution isAccountActor)
    {addr : Address} (resolved : table.lookupId addr = some actorId) :
    (execution.run table msg).lookupId addr = some actorId := by
  cases addr with
  | id other => exact resolved
  | secp256k1 payload => exact execution.keepsAddresses _ _ _ _ resolved
  | actor payload => exact execution.keepsAddresses _ _ _ _ resolved
  | bls payload => exact execution.keepsAddresses _ _ _ _ resolved

end Spec

end Forest.VM
