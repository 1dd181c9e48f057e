import Forest.Lib.FloatOps
import Forest.Lib.SortBy
import Mathlib.Data.List.Sort
import Mathlib.Data.List.AList

namespace Forest.MessagePool

/-!
# Message chains

`msg_chain.rs` of the message pool: the pending messages of one sender, in nonce order,
are cut into chains of non-decreasing gas performance, and every chain is a node of a
slot map with links to the chains before and after it.  Block selection sorts, trims,
invalidates and merges these nodes.

The slot map is a list of slots: inserting appends, so a key is a slot index and a
removed key is never handed out again, as with the versioned keys of `SlotMap`.  The
`f64` fields are over an arbitrary `FloatOps F`, so every property here holds for every
outcome of the floating-point comparisons.  The chain operations are `EStateM` programs
over the chains; a panic ends the whole selection.
-/

/-- `types::BLOCK_GAS_LIMIT`. -/
def blockGasLimit : Int := 10000000000

/-- `MIN_GAS` of the message pool. -/
def minGas : Int := 1298450

/-- `MAX_BLOCK_MSGS`. -/
def maxBlockMsgs : Nat := 16000

/-- `MAX_BLOCKS`. -/
def maxBlocks : Nat := 15

/-- The fields of a `SignedMessage` that selection reads; `size` is the length of its
CBOR encoding (`marshal_cbor()?.len()`). -/
structure SignedMessage (A : Type) where
  sender : A
  sequence : Nat
  value : Int
  gasLimit : Int
  gasFeeCap : Int
  gasPremium : Int
  size : Nat
  deriving DecidableEq, Repr

/-- `Message::required_funds`: `gas_fee_cap * gas_limit + value`. -/
def SignedMessage.requiredFunds {A : Type} (msg : SignedMessage A) : Int :=
  msg.gasFeeCap * msg.gasLimit + msg.value

/-- The `ActorState` fields selection reads. -/
structure ActorState where
  sequence : Nat
  balance : Int
  deriving DecidableEq, Repr

/-- The message pool `Error` enum, restricted to the variants the modelled code raises. -/
inductive Error where
  | gasPriceTooLow
  | duplicateSequence
  | other (message : String)
  deriving DecidableEq, Repr

/-- How a modelled call ends when it does not return `Ok`: an `Err`, a panic, or a loop
that the source never leaves. -/
inductive Failure where
  | error (e : Error)
  | panic (message : String)
  | diverges
  deriving DecidableEq, Repr

/-- The panic of `Option::unwrap` on `None`. -/
def unwrapNone : String :=
  "called `Option::unwrap()` on a `None` value"

/-- The panic of an out-of-bounds index into a `Vec`. -/
def indexOutOfBounds (len index : Nat) : String :=
  s!"index out of bounds: the len is {len} but the index is {index}"

/-- The calls selection makes on the chain, at the tipset it selects for. -/
structure Provider (A : Type) where
  /-- `get_actor_after(addr, ts)`. -/
  getActorAfter : A → Except Error ActorState
  /-- `chain_compute_base_fee(ts)`. -/
  chainComputeBaseFee : Except Error Int
  /-- `price_list_by_epoch(ts.epoch()).on_chain_message(size).total()`. -/
  onChainMessageGas : Nat → Int

/-- `MsgChainNode`; `next` and `prev` are keys of the slot map. -/
structure MsgChainNode (A F : Type) where
  msgs : List (SignedMessage A)
  gasReward : Int
  gasLimit : Int
  gasPerf : F
  effPerf : F
  bp : F
  parentOffset : F
  valid : Bool
  merged : Bool
  next : Option Nat
  prev : Option Nat

/-- `Chains`: the slot map of chain nodes and the keys in selection order. -/
structure Chains (A F : Type) where
  map : List (Option (MsgChainNode A F))
  keyVec : List Nat

/-- A program over the chains. -/
abbrev ChainsM (A F α : Type) := EStateM Failure (Chains A F) α

variable {A F : Type} (fl : FloatOps F)

/-- `get_gas_reward`: the larger of `gas_fee_cap - base_fee` and `gas_premium`, per unit
of gas. -/
def getGasReward (msg : SignedMessage A) (baseFee : Int) : Int :=
  let maxPrem := msg.gasFeeCap - baseFee
  let maxPrem := if maxPrem < msg.gasPremium then msg.gasPremium else maxPrem
  maxPrem * msg.gasLimit

/-- `get_gas_perf`: `gas_reward * BLOCK_GAS_LIMIT / gas_limit` as an `f64`;
`BigRational::new` panics on a zero denominator. -/
def getGasPerf (gasReward gasLimit : Int) : Except Failure F :=
  if gasLimit = 0 then
    .error (.panic "denominator == 0")
  else
    .ok (fl.ofRat ((gasReward * blockGasLimit : Int) / (gasLimit : ℚ)))

/-- `approx_cmp`: `Equal` within relative epsilon, else `partial_cmp(..).unwrap()`, which
panics on a NaN. -/
def approxCmp (a b : F) : Except Failure Ordering :=
  if fl.le (fl.abs (fl.sub a b)) (fl.abs (fl.mul a fl.epsilon)) then .ok .eq
  else if fl.lt a b then .ok .lt
  else if fl.lt b a then .ok .gt
  else if fl.eq a b then .ok .eq
  else .error (.panic unwrapNone)

namespace MsgChainNode

/-- `MsgChainNode::default`. -/
def default : MsgChainNode A F where
  msgs := []
  gasReward := 0
  gasLimit := 0
  gasPerf := fl.zero
  effPerf := fl.zero
  bp := fl.zero
  parentOffset := fl.zero
  valid := true
  merged := false
  next := none
  prev := none

/-- `MsgChainNode::compare`: `Greater` for better gas performance, ties broken by gas
reward, and `Less` otherwise (never `Equal`). -/
def compare (node other : MsgChainNode A F) : Except Failure Ordering := do
  let perf ← approxCmp fl node.gasPerf other.gasPerf
  if perf == .gt || perf == .eq && node.gasReward > other.gasReward then
    return .gt
  return .lt

/-- `MsgChainNode::cmp_effective`; the `||` of the source evaluates `approx_cmp` only
when the earlier operands are false. -/
def cmpEffective (node other : MsgChainNode A F) : Except Failure Ordering := do
  if node.merged && !other.merged
      || fl.le fl.zero node.gasPerf && fl.lt other.gasPerf fl.zero
      || fl.lt other.effPerf node.effPerf then
    return .gt
  let effEqual := (← approxCmp fl node.effPerf other.effPerf) == .eq
  if effEqual && fl.lt other.gasPerf node.gasPerf then
    return .gt
  if effEqual then
    if (← approxCmp fl node.gasPerf other.gasPerf) == .eq && node.gasReward > other.gasReward then
      return .gt
  return .lt

/-- `MsgChainNode::set_null_effective_perf`. -/
def setNullEffectivePerf (node : MsgChainNode A F) : MsgChainNode A F :=
  if fl.lt node.gasPerf fl.zero then
    { node with effPerf := node.gasPerf }
  else
    { node with effPerf := fl.zero }

/-- `MsgChainNode::set_eff_perf`: the performance weighted by block probability, averaged
with the parent chain's by gas limit when positive. -/
def setEffPerf (node : MsgChainNode A F) (prev : Option (F × Int)) : MsgChainNode A F :=
  let effPerf := fl.mul node.gasPerf node.bp
  match prev with
  | some (prevEffPerf, prevGasLimit) =>
    if fl.lt fl.zero effPerf then
      let effPerfWithParent :=
        fl.div (fl.add (fl.mul effPerf (fl.ofInt node.gasLimit))
            (fl.mul prevEffPerf (fl.ofInt prevGasLimit)))
          (fl.ofInt (node.gasLimit + prevGasLimit))
      { node with
        parentOffset := fl.sub effPerf effPerfWithParent
        effPerf := effPerfWithParent }
    else
      { node with effPerf := effPerf }
  | none => { node with effPerf := effPerf }

end MsgChainNode

/-- Lift a computation that does not touch the chains. -/
def liftFailure {α : Type} (x : Except Failure α) : ChainsM A F α := fun chains =>
  match x with
  | .ok a => .ok a chains
  | .error e => .error e chains

namespace Chains

/-- `Chains::new`. -/
def new : Chains A F :=
  ⟨[], []⟩

/-- `Chains::len`: the number of nodes in the slot map. -/
def len (chains : Chains A F) : Nat :=
  (chains.map.filter Option.isSome).length

/-- `Chains::is_empty`. -/
def isEmpty (chains : Chains A F) : Bool :=
  chains.len == 0

/-- `map.get(k)`. -/
def lookup (chains : Chains A F) (key : Nat) : Option (MsgChainNode A F) :=
  chains.map.getD key none

/-- `map.get(k).unwrap()`. -/
def getNode (key : Nat) : ChainsM A F (MsgChainNode A F) := do
  match (← get).lookup key with
  | some node => pure node
  | none => throw (.panic unwrapNone)

/-- Store a node under a key of the slot map (`*map.get_mut(k).unwrap() = node`). -/
def setNode (key : Nat) (node : MsgChainNode A F) : ChainsM A F Unit :=
  modify fun chains => { chains with map := chains.map.set key (some node) }

/-- `key_vec[i]`. -/
def keyAt (i : Nat) : ChainsM A F Nat := do
  let keyVec := (← get).keyVec
  match keyVec[i]? with
  | some key => pure key
  | none => throw (.panic (indexOutOfBounds keyVec.length i))

/-- `chains[i]`: the node of the `i`-th key. -/
def nodeAt (i : Nat) : ChainsM A F (MsgChainNode A F) := do
  getNode (← keyAt i)

/-- `get_key_at(i)`. -/
def getKeyAt (chains : Chains A F) (i : Nat) : Option Nat :=
  chains.keyVec[i]?

/-- `Chains::push_with`: insert a node and return its key. -/
def pushWith (node : MsgChainNode A F) : ChainsM A F Nat :=
  modifyGet fun chains => (chains.map.length, { chains with map := chains.map ++ [some node] })

/-- Sort keys by a comparison of their nodes; a comparison reads the nodes with
`map.get(k).unwrap()`. -/
def sortKeys (cmp : MsgChainNode A F → MsgChainNode A F → Except Failure Ordering)
    (keys : List Nat) : ChainsM A F (List Nat) :=
  keys.insertionSortM fun a b => do
    let nodeA ← getNode a
    let nodeB ← getNode b
    return (← liftFailure (cmp nodeA nodeB)) == .lt

/-- `Chains::sort`: by `compare`, descending when `rev`. -/
def sort (rev : Bool) : ChainsM A F Unit := do
  let chains ← get
  let sorted ← sortKeys
    (fun a b => if rev then MsgChainNode.compare fl b a else MsgChainNode.compare fl a b)
    chains.keyVec
  modify fun chains => { chains with keyVec := sorted }

/-- `Chains::sort_effective`. -/
def sortEffective : ChainsM A F Unit := do
  let sorted ← sortKeys (MsgChainNode.cmpEffective fl) (← get).keyVec
  modify fun chains => { chains with keyVec := sorted }

/-- `Chains::sort_range_effective(start..)`. -/
def sortRangeEffective (start : Nat) : ChainsM A F Unit := do
  let keyVec := (← get).keyVec
  if start > keyVec.length then
    let len := keyVec.length
    throw (.panic s!"range start index {start} out of range for slice of length {len}")
  let sorted ← sortKeys (MsgChainNode.cmpEffective fl) (keyVec.drop start)
  modify fun chains => { chains with keyVec := keyVec.take start ++ sorted }

/-- `key_vec.swap(a, b)`. -/
def swapKeys (a b : Nat) : ChainsM A F Unit := do
  let keyVec := (← get).keyVec
  match keyVec[a]?, keyVec[b]? with
  | some keyA, some keyB =>
    modify fun chains => { chains with keyVec := (keyVec.set a keyB).set b keyA }
  | none, _ => throw (.panic (indexOutOfBounds keyVec.length a))
  | _, none => throw (.panic (indexOutOfBounds keyVec.length b))

/-- The `while let` loop of `Chains::invalidate`: the keys reached from `key` along
`next`, bounded by `fuel`. -/
def collectNext : Nat → Option Nat → ChainsM A F (List Nat)
  | _, none => pure []
  | 0, some _ => throw .diverges
  | fuel + 1, some key => do
    let node ← getNode key
    return key :: (← collectNext fuel node.next)

/-- `Chains::invalidate`: every chain from `key` on along `next` becomes invalid and
empty, and loses its `next` link. -/
def invalidate (key : Option Nat) : ChainsM A F Unit := do
  let nextKeys ← collectNext ((← get).map.length + 1) key
  for key in nextKeys.reverse do
    match (← get).lookup key with
    | some node => setNode key { node with valid := false, msgs := [], next := none }
    | none => pure ()

/-- `Chains::drop_invalid`: remove the invalid nodes of `keyVec` from the map and return
the valid keys. -/
def dropInvalid : List Nat → ChainsM A F (List Nat)
  | [] => pure []
  | key :: rest => do
    let node ← getNode key
    if node.valid then
      return key :: (← dropInvalid rest)
    else
      modify fun chains => { chains with map := chains.map.set key none }
      dropInvalid rest

/-- The `while` loop of `Chains::trim_msgs_at` over `msgs[i], msgs[i - 1], ...` (the list
`pending`): drop messages from the end while the chain is over the gas limit or has
negative performance.  Returns the node and the index `i` where the loop stopped. -/
def trimLoop (gasLimit baseFee : Int) (prev : Option (F × Int)) :
    List (SignedMessage A) → MsgChainNode A F → Int → Except Failure (MsgChainNode A F × Int)
  | [], node, i => .ok (node, i)
  | msg :: pending, node, i =>
    if node.gasLimit > gasLimit || fl.lt node.gasPerf fl.zero then
      let node : MsgChainNode A F := { node with
        gasReward := node.gasReward - getGasReward msg baseFee
        gasLimit := node.gasLimit - msg.gasLimit }
      if node.gasLimit > 0 then
        match getGasPerf fl node.gasReward node.gasLimit with
        | .error e => .error e
        | .ok gasPerf =>
          let node : MsgChainNode A F := { node with gasPerf := gasPerf }
          let node := if !fl.eq node.bp fl.zero then node.setEffPerf fl prev else node
          trimLoop gasLimit baseFee prev pending node (i - 1)
      else
        trimLoop gasLimit baseFee prev pending
          { node with gasPerf := fl.zero, effPerf := fl.zero } (i - 1)
    else
      .ok (node, i)

/-- `Chains::trim_msgs_at`: trim the chain at position `idx` to `gas_limit`.  As in the
source, position zero is left alone, and the kept messages are `msgs.drain(0..i + 1)`
removed, so the chain keeps the messages the loop dropped. -/
def trimMsgsAt (idx : Nat) (gasLimit baseFee : Int) : ChainsM A F Unit := do
  if idx = 0 then
    return
  let prevKey ← keyAt (idx - 1)
  let prev := ((← get).lookup prevKey).map fun node => (node.effPerf, node.gasLimit)
  let some key := (← get).getKeyAt idx | throw (.panic unwrapNone)
  let some node := (← get).lookup key | throw (.panic unwrapNone)
  let (node, i) ← liftFailure
    (trimLoop fl gasLimit baseFee prev node.msgs.reverse node ((node.msgs.length : Int) - 1))
  let node :=
    if i < 0 then { node with msgs := [], valid := false }
    else { node with msgs := node.msgs.drop (i.toNat + 1) }
  setNode key node
  if node.next.isSome then
    invalidate node.next

end Chains

section Creation

variable (provider : Provider A)

/-- The running values of the checking loop of `create_message_chains`. -/
structure ScanState where
  curSeq : Nat
  balance : Int
  gasLimit : Int
  skip : Nat
  i : Nat
  rewards : List Int

/-- The checking `while` loop of `create_message_chains` over the sorted messages from
position `i`: skip nonces below the actor's, and stop at a gap, a message below its
minimum gas, the block gas limit, or a balance that cannot pay. -/
def scanMessages (baseFee : Int) : List (SignedMessage A) → ScanState → ScanState
  | [], scan => scan
  | msg :: rest, scan =>
    if msg.sequence < scan.curSeq then
      scanMessages baseFee rest { scan with skip := scan.skip + 1, i := scan.i + 1 }
    else if msg.sequence ≠ scan.curSeq then
      scan
    else
      let scan := { scan with curSeq := scan.curSeq + 1 }
      if msg.gasLimit < provider.onChainMessageGas msg.size then
        scan
      else
        let scan := { scan with gasLimit := scan.gasLimit + msg.gasLimit }
        if scan.gasLimit > blockGasLimit then
          scan
        else if scan.balance < msg.requiredFunds then
          scan
        else
          scanMessages baseFee rest { scan with
            balance := scan.balance - msg.requiredFunds - msg.value
            rewards := scan.rewards ++ [getGasReward msg baseFee]
            i := scan.i + 1 }

/-- `rewards[i]`. -/
def rewardAt (rewards : List Int) (i : Nat) : Except Failure Int :=
  match rewards[i]? with
  | some reward => .ok reward
  | none => .error (.panic (indexOutOfBounds rewards.length i))

/-- The `new_chain` closure: a valid chain of one message. -/
def newChain (msg : SignedMessage A) (reward : Int) : Except Failure (MsgChainNode A F) := do
  let gasPerf ← getGasPerf fl reward msg.gasLimit
  return { (MsgChainNode.default fl : MsgChainNode A F) with
    msgs := [msg]
    gasReward := reward
    gasLimit := msg.gasLimit
    gasPerf := gasPerf }

/-- The chunking loop of `create_message_chains` over the messages after the first, with
their positions: a message that lowers the current chain's performance starts a new
chain, the finished one going into the map and its key into `nodeVec`. -/
def chunkChains (rewards : List Int) :
    List (SignedMessage A × Nat) → MsgChainNode A F → List Nat →
      ChainsM A F (MsgChainNode A F × List Nat)
  | [], cur, nodeVec => pure (cur, nodeVec)
  | (msg, i) :: rest, cur, nodeVec => do
    let reward ← liftFailure (rewardAt rewards i)
    let gasReward := cur.gasReward + reward
    let gasLimit := cur.gasLimit + msg.gasLimit
    let gasPerf ← liftFailure (getGasPerf fl gasReward gasLimit)
    if fl.lt gasPerf cur.gasPerf then
      let key ← Chains.pushWith cur
      let next ← liftFailure (newChain fl msg reward)
      chunkChains rewards rest next (nodeVec ++ [key])
    else
      chunkChains rewards rest
        { cur with msgs := cur.msgs ++ [msg], gasReward, gasLimit, gasPerf } nodeVec

/-- `get_from(i, node_vec)`. -/
def getFrom (i : Nat) (nodeVec : List Nat) : ChainsM A F (MsgChainNode A F) := do
  match nodeVec[i]? with
  | some key => Chains.getNode key
  | none => throw (.panic (indexOutOfBounds nodeVec.length i))

/-- One pass of the merging loop, over the positions `i` given (from the last down to
one): a chain at least as good as the one before it is appended to it and invalidated.
Returns the number of merges. -/
def mergePass (nodeVec : List Nat) : List Nat → Nat → ChainsM A F Nat
  | [], merged => pure merged
  | i :: rest, merged => do
    let node ← getFrom i nodeVec
    let before ← getFrom (i - 1) nodeVec
    if fl.le before.gasPerf node.gasPerf then
      let joined := { before with
        msgs := before.msgs ++ node.msgs
        gasReward := before.gasReward + node.gasReward
        gasLimit := before.gasLimit + node.gasLimit }
      let gasPerf ← liftFailure (getGasPerf fl joined.gasReward joined.gasLimit)
      Chains.setNode (nodeVec.getD (i - 1) 0) { joined with gasPerf := gasPerf }
      Chains.setNode (nodeVec.getD i 0) { node with valid := false }
      mergePass nodeVec rest (merged + 1)
    else
      mergePass nodeVec rest merged

/-- The merging `loop` of `create_message_chains`: passes until one merges nothing,
dropping the merged chains after each.  Every pass that merges shortens `nodeVec`. -/
def mergeLoop : Nat → List Nat → ChainsM A F (List Nat)
  | 0, _ => throw .diverges
  | fuel + 1, nodeVec => do
    let merged ← mergePass fl nodeVec ((List.range nodeVec.length).drop 1).reverse 0
    if merged = 0 then
      return nodeVec
    mergeLoop fuel (← Chains.dropInvalid nodeVec)

/-- Link each chain to the next and the previous one of `nodeVec`.  With no chains,
`node_vec.len() - 1` wraps and `node_vec.get(0).unwrap()` panics. -/
def linkChains : List Nat → ChainsM A F Unit
  | [] => throw (.panic unwrapNone)
  | [_] => pure ()
  | first :: second :: rest => do
    let node ← Chains.getNode first
    Chains.setNode first { node with next := some second }
    let nextNode ← Chains.getNode second
    Chains.setNode second { nextNode with prev := some first }
    linkChains (second :: rest)

/-- `create_message_chains`: the chains of one sender's pending messages, appended to
`chains` in nonce order. -/
def createMessageChains (actor : A) (mset : List (SignedMessage A)) (baseFee : Int) :
    ChainsM A F Unit := do
  let msgs := mset.insertionSort fun a b => a.sequence ≤ b.sequence
  let actorState ← liftFailure ((provider.getActorAfter actor).mapError Failure.error)
  let scan := scanMessages provider baseFee msgs ⟨actorState.sequence, actorState.balance, 0, 0, 0, []⟩
  if scan.i ≤ scan.skip then
    return
  match (msgs.drop scan.skip).take (scan.i - scan.skip) with
  | [] => return
  | first :: rest =>
    let reward ← liftFailure (rewardAt scan.rewards 0)
    let cur ← liftFailure (newChain fl first reward)
    let (cur, nodeVec) ← chunkChains fl scan.rewards (rest.zip (List.range' 1 rest.length)) cur []
    let key ← Chains.pushWith cur
    let nodeVec ← mergeLoop fl (nodeVec.length + 2) (nodeVec ++ [key])
    linkChains nodeVec
    modify fun chains => { chains with keyVec := chains.keyVec ++ nodeVec }

end Creation

end Forest.MessagePool
