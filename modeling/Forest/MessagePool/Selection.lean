import Forest.MessagePool.MsgChain

namespace Forest.MessagePool

/-!
# Message selection

`selection.rs`: `select_messages` picks the messages of a block from the pending pool.
With a ticket quality above 0.84 it selects greedily: the chains of the priority
senders first, then the chains of all other senders by gas performance, trimming the
first chain that does not fit (`merge_and_trim`).  Otherwise it selects optimally:
chains are assigned to the blocks of other miners by gas performance, weighted by the
probability of each block, merged with their dependencies, trimmed at the edge, and the
rest of the block is filled from a random order of the chains.

The pending pool is what `get_pending_messages` returns, one entry per sender in
iteration order.  The block probabilities of `block_probabilities(tq)` and the
permutation that `shuffle` draws are parameters.  Every loop of the source that is not
a walk over a list carries fuel; the fuel given is enough for every run that ends.
-/

/-- The pending messages of each sender. -/
abbrev Pending (A : Type) := AList fun _ : A => List (SignedMessage A)

/-- What one round of a `'tail_loop` does next. -/
inductive TailStep where
  | breakTail
  | continueTail (last : Nat)
  | finished
  deriving DecidableEq, Repr

variable {A F : Type} [DecidableEq A] (fl : FloatOps F) (provider : Provider A)

/-- Run a program on fresh chains. -/
def runChains {α : Type} (program : ChainsM A F α) : Except Failure α :=
  match program.run Chains.new with
  | .ok a _ => .ok a
  | .error e _ => .error e

/-- `create_message_chains` for every sender of a pending pool, in its order. -/
def chainsForPending (baseFee : Int) : List (Sigma fun _ : A => List (SignedMessage A)) →
    ChainsM A F Unit
  | [] => pure ()
  | entry :: rest => do
    createMessageChains fl provider entry.1 entry.2 baseFee
    chainsForPending baseFee rest

section MergeAndTrim

/-- The first loop of `merge_and_trim`: take chains whole, in order, while they have
non-negative performance and fit; the position of the first that does not fit. -/
def headLoop (result : List (SignedMessage A)) (gasLimit : Int) :
    List Nat → ChainsM A F (List (SignedMessage A) × Int × Option Nat)
  | [] => pure (result, gasLimit, none)
  | i :: rest => do
    let node ← Chains.nodeAt i
    if fl.lt node.gasPerf fl.zero then
      return (result, gasLimit, none)
    if node.gasLimit ≤ gasLimit then
      headLoop (result ++ node.msgs) (gasLimit - node.gasLimit) rest
    else
      return (result, gasLimit, some i)

/-- The push-down loop of `merge_and_trim` over positions `i`: swap the chain down while
it does not compare greater than the next. -/
def pushDown : List Nat → ChainsM A F Unit
  | [] => pure ()
  | i :: rest => do
    let cur ← Chains.nodeAt i
    let next ← Chains.nodeAt (i + 1)
    if (← liftFailure (MsgChainNode.compare fl cur next)) == .gt then
      return
    Chains.swapKeys i (i + 1)
    pushDown rest

/-- The selecting loop inside the `'tail_loop` of `merge_and_trim` over positions `i`:
valid chains that fit are appended (their messages moved out); the first one that does
not fit sets `last += i`. -/
def tailSelect (result : List (SignedMessage A)) (gasLimit : Int) (last : Nat) :
    List Nat → ChainsM A F (List (SignedMessage A) × Int × TailStep)
  | [] => pure (result, gasLimit, .finished)
  | i :: rest => do
    let key ← Chains.keyAt i
    let chain ← Chains.getNode key
    if !chain.valid then
      tailSelect result gasLimit last rest
    else if fl.lt chain.gasPerf fl.zero then
      return (result, gasLimit, .breakTail)
    else if chain.gasLimit ≤ gasLimit then
      Chains.setNode key { chain with msgs := [] }
      tailSelect (result ++ chain.msgs) (gasLimit - chain.gasLimit) last rest
    else
      return (result, gasLimit, .continueTail (last + i))

/-- The `'tail_loop` of `merge_and_trim`: trim the chain at `last`, push it down, and
select from `last` on, while gas is left. -/
def mergeTailLoop (baseFee minGas : Int) (chainLen : Nat) :
    Nat → List (SignedMessage A) → Int → Nat → ChainsM A F (List (SignedMessage A) × Int)
  | fuel, result, gasLimit, last =>
    if gasLimit ≥ minGas && last < chainLen then
      match fuel with
      | 0 => throw .diverges
      | fuel + 1 => do
        Chains.trimMsgsAt fl last gasLimit baseFee
        let node ← Chains.nodeAt last
        if node.valid then
          pushDown fl (List.range' last (chainLen - 1 - last))
        let len := (← get).len
        let (result, gasLimit, step) ← tailSelect fl result gasLimit last
          (List.range' last (len - last))
        match step with
        | .continueTail last => mergeTailLoop baseFee minGas chainLen fuel result gasLimit last
        | .breakTail | .finished => pure (result, gasLimit)
    else
      pure (result, gasLimit)

/-- `merge_and_trim`: sort the chains by performance, take them whole while they fit,
then trim at the edge.  `chains[0]` is read before the chains are checked to be
non-empty. -/
def mergeAndTrim (result : List (SignedMessage A)) (baseFee gasLimit minGas : Int) :
    ChainsM A F (List (SignedMessage A) × Int) := do
  Chains.sort fl true
  let first ← Chains.nodeAt 0
  if !(← get).isEmpty && fl.lt first.gasPerf fl.zero then
    return ([], gasLimit)
  let chainLen := (← get).len
  let (result, gasLimit, stop) ← headLoop fl result gasLimit (List.range chainLen)
  mergeTailLoop fl baseFee minGas chainLen (chainLen + 2) result gasLimit (stop.getD chainLen)

end MergeAndTrim

section Priority

/-- The loop of `select_priority_messages` over the priority senders: each one's pending
messages are removed from the pool and made into chains. -/
def priorityChains (baseFee : Int) : List A → Pending A → ChainsM A F (Pending A)
  | [], pending => pure pending
  | actor :: rest, pending =>
    match pending.lookup actor with
    | some mset => do
      createMessageChains fl provider actor mset baseFee
      priorityChains baseFee rest (pending.erase actor)
    | none => priorityChains baseFee rest pending

/-- `select_priority_messages`: the messages of the priority senders that fit in a block,
the gas left, and the pool without those senders. -/
def selectPriorityMessages (priorityAddrs : List A) (pending : Pending A) (baseFee : Int) :
    Except Failure ((List (SignedMessage A) × Int) × Pending A) :=
  let gasLimit := blockGasLimit
  let minGas : Int := 1298450
  runChains do
    let pending ← priorityChains fl provider baseFee priorityAddrs pending
    if (← get).isEmpty then
      return (([], gasLimit), pending)
    return (← mergeAndTrim fl [] baseFee gasLimit minGas, pending)

end Priority

/-- `select_messages_greedy`. -/
def selectMessagesGreedy (priorityAddrs : List A) (pending : Pending A) :
    Except Failure (List (SignedMessage A)) := do
  let baseFee ← provider.chainComputeBaseFee.mapError Failure.error
  if pending.entries.isEmpty then
    return []
  let ((result, gasLimit), pending) ← selectPriorityMessages fl provider priorityAddrs pending baseFee
  if gasLimit < minGas then
    return result
  let (msgs, _) ← runChains do
    chainsForPending fl provider baseFee pending.entries
    mergeAndTrim fl result baseFee gasLimit minGas
  return msgs

section Optimal

/-- The inner `while` of step 3: fill one partition with the next chains until its gas
runs below `MIN_GAS`. -/
def fillPartition (len : Nat) :
    Nat → Nat → Int → List Nat → ChainsM A F (List Nat × Nat)
  | fuel, nextChain, gasLimit, partition =>
    if nextChain < len then
      match fuel with
      | 0 => throw .diverges
      | fuel + 1 => do
        let key ← Chains.keyAt nextChain
        let node ← Chains.getNode key
        let gasLimit := gasLimit - node.gasLimit
        if gasLimit < minGas then
          return (partition ++ [key], nextChain + 1)
        fillPartition len fuel (nextChain + 1) gasLimit (partition ++ [key])
    else
      pure (partition, nextChain)

/-- Step 3: partition the chains into at most `MAX_BLOCKS` blocks.  Returns the partitions
and the final value of the block counter `i`. -/
def partitionChains (len : Nat) :
    Nat → Nat → Nat → List (List Nat) → ChainsM A F (List (List Nat) × Nat)
  | 0, i, _, partitions => pure (partitions, i)
  | remaining + 1, i, nextChain, partitions =>
    if nextChain < len then do
      let (partition, nextChain) ← fillPartition len len nextChain blockGasLimit []
      partitionChains len remaining (i + 1) nextChain (partitions.set i partition)
    else
      pure (partitions, i)

/-- Step 4 for one partition: `eff_perf = gas_perf * block_prob[i]` for its chains. -/
def weighPartition (prob : Except Failure F) : List Nat → ChainsM A F Unit
  | [] => pure ()
  | key :: rest => do
    match (← get).lookup key with
    | some node =>
      let p ← liftFailure prob
      Chains.setNode key { node with effPerf := fl.mul node.gasPerf p }
    | none => pure ()
    weighPartition prob rest

/-- Step 4: weigh every partition by the probability of its block, and null the effective
performance of the chains past them. -/
def weighChains (blockProb : List F) (partitions : List (List Nat)) : ChainsM A F Unit := do
  let mut effChains := 0
  for (partition, i) in partitions.zipIdx do
    let prob : Except Failure F :=
      match blockProb[i]? with
      | some p => .ok p
      | none => .error (.panic (indexOutOfBounds blockProb.length i))
    weighPartition fl prob partition
    effChains := effChains + partition.length
  let len := (← get).len
  for i in List.range' effChains (len - effChains) do
    let chains ← get
    if let some key := chains.getKeyAt i then
      if let some node := chains.lookup key then
        Chains.setNode key (node.setNullEffectivePerf fl)

/-- The dependency walk of step 6 along `prev`: the chains not yet merged, with their gas
added to `chainGasLimit`. -/
def unmergedDeps : Nat → Option Nat → List Nat → Int → ChainsM A F (List Nat × Int)
  | _, none, deps, chainGasLimit => pure (deps, chainGasLimit)
  | 0, some _, _, _ => throw .diverges
  | fuel + 1, some key, deps, chainGasLimit => do
    let node ← Chains.getNode key
    if !node.merged then
      unmergedDeps fuel node.prev (deps ++ [key]) (chainGasLimit + node.gasLimit)
    else
      pure (deps, chainGasLimit)

/-- The dependency walk of steps 7 and 8 along `prev`, merged chains included: the
dependencies with the gas of the chain and of its dependencies. -/
def allDeps : Nat → Option Nat → List Nat → Int → Int → ChainsM A F (List Nat × Int × Int)
  | _, none, deps, chainGasLimit, depGasLimit => pure (deps, chainGasLimit, depGasLimit)
  | 0, some _, _, _, _ => throw .diverges
  | fuel + 1, some key, deps, chainGasLimit, depGasLimit => do
    let node ← Chains.getNode key
    allDeps fuel node.prev (deps ++ [key]) (chainGasLimit + node.gasLimit)
      (depGasLimit + node.gasLimit)

/-- Mark the given chains merged and append their messages (`node.merged = true;
result.extend(node.msgs.clone())`), skipping keys without a node. -/
def mergeDeps (result : List (SignedMessage A)) : List Nat →
    ChainsM A F (List (SignedMessage A))
  | [] => pure result
  | key :: rest => do
    match (← get).lookup key with
    | some node =>
      Chains.setNode key { node with merged := true }
      mergeDeps (result ++ node.msgs) rest
    | none => mergeDeps result rest

/-- The `while let` of step 6 that refreshes the effective performance of the chains
after a merged one, along `next`, while it is positive (`get_mut_with_prev_eff`). -/
def refreshNext : Nat → Option Nat → ChainsM A F Unit
  | _, none => pure ()
  | 0, some _ => throw .diverges
  | fuel + 1, some key => do
    let some node := (← get).lookup key | return
    let prev ← match node.prev with
      | some prevKey => do
        let prevNode ← Chains.getNode prevKey
        pure (some (prevNode.effPerf, prevNode.gasLimit))
      | none => pure none
    if fl.lt fl.zero node.effPerf then
      let node := node.setEffPerf fl prev
      Chains.setNode key node
      refreshNext fuel node.next
    else
      return

/-- Step 6 over positions `i`: merge each chain with its unmerged dependencies while they
fit, re-sorting the rest after each merge; the position where a chain does not fit. -/
def mergeHeads (result : List (SignedMessage A)) (gasLimit : Int) :
    List Nat → ChainsM A F (List (SignedMessage A) × Int × Option Nat)
  | [] => pure (result, gasLimit, none)
  | i :: rest => do
    let node ← Chains.nodeAt i
    if fl.lt node.gasPerf fl.zero then
      return (result, gasLimit, none)
    if node.merged then
      return ← mergeHeads result gasLimit rest
    let fuel := (← get).map.length + 1
    let (deps, chainGasLimit) ← unmergedDeps fuel node.prev [] node.gasLimit
    if chainGasLimit ≤ gasLimit then
      let result ← mergeDeps result deps.reverse
      let key ← Chains.keyAt i
      let node ← Chains.getNode key
      Chains.setNode key { node with merged := true }
      if let some nextKey := node.next then
        let nextNode ← Chains.getNode nextKey
        if fl.lt fl.zero nextNode.effPerf then
          let nextNode := { nextNode with effPerf := fl.add nextNode.effPerf nextNode.parentOffset }
          Chains.setNode nextKey nextNode
          refreshNext fl fuel nextNode.next
      let node ← Chains.nodeAt i
      let result := result ++ node.msgs
      Chains.sortRangeEffective fl (i + 1)
      mergeHeads result (gasLimit - chainGasLimit) rest
    else
      return (result, gasLimit, some i)

/-- The push-down of step 7: compare neighbours until one is greater; the loop has no
other effect, the swap after it uses the block counter `i` of step 3. -/
def comparePushDown : List Nat → ChainsM A F Unit
  | [] => pure ()
  | i :: rest => do
    let cur ← Chains.nodeAt i
    let next ← Chains.nodeAt (i + 1)
    if (← liftFailure (MsgChainNode.cmpEffective fl cur next)) == .gt then
      return
    comparePushDown rest

/-- The inner `for j in (0..=deps.len()).rev()` of step 7: for each `j`, the dependency
`deps[j]` if there is one and the chain at position `j` are merged, and the gas of the
whole chain is charged each time. -/
def mergeShadowed (deps : List Nat) (chainGasLimit : Int) :
    List Nat → List (SignedMessage A) → Int → ChainsM A F (List (SignedMessage A) × Int)
  | [], result, gasLimit => pure (result, gasLimit)
  | j :: rest, result, gasLimit => do
    let mut result := result
    if let some key := deps[j]? then
      let node ← Chains.getNode key
      Chains.setNode key { node with merged := true }
      result := result ++ node.msgs
    let key ← Chains.keyAt j
    let chain ← Chains.getNode key
    Chains.setNode key { chain with merged := true }
    mergeShadowed deps chainGasLimit rest (result ++ chain.msgs) (gasLimit - chainGasLimit)

/-- The selecting loop inside the `'tail_loop` of step 7 over positions `i`. -/
def optimalTailSelect (baseFee : Int) (result : List (SignedMessage A)) (gasLimit : Int)
    (last : Nat) : List Nat → ChainsM A F (List (SignedMessage A) × Int × TailStep)
  | [] => pure (result, gasLimit, .finished)
  | i :: rest => do
    let chain ← Chains.nodeAt i
    if !chain.valid || chain.merged then
      return ← optimalTailSelect baseFee result gasLimit last rest
    if fl.lt chain.gasPerf fl.zero then
      return (result, gasLimit, .breakTail)
    let fuel := (← get).map.length + 1
    let (deps, chainGasLimit, depGasLimit) ← allDeps fuel chain.prev [] chain.gasLimit 0
    let (result, gasLimit) ←
      if chainGasLimit ≤ gasLimit then
        mergeShadowed deps chainGasLimit (List.range (deps.length + 1)).reverse result gasLimit
      else
        pure (result, gasLimit)
    if depGasLimit > gasLimit then
      Chains.invalidate ((← get).getKeyAt i)
      return (result, gasLimit, .continueTail (last + i + 1))
    Chains.trimMsgsAt fl i (gasLimit - depGasLimit) baseFee
    return (result, gasLimit, .continueTail (last + i))

/-- Step 7, the `'tail_loop` of the optimal selection. -/
def optimalTailLoop (baseFee : Int) (partitionCount : Nat) :
    Nat → List (SignedMessage A) → Int → Nat → ChainsM A F (List (SignedMessage A) × Int)
  | fuel, result, gasLimit, last => do
    let len := (← get).len
    if gasLimit ≥ minGas && last < len then
      match fuel with
      | 0 => throw .diverges
      | fuel + 1 =>
        let node ← Chains.nodeAt last
        if node.gasLimit > gasLimit then
          Chains.trimMsgsAt fl last gasLimit baseFee
        let node ← Chains.nodeAt last
        if node.valid then
          comparePushDown fl (List.range' last (len - 1 - last))
          Chains.swapKeys partitionCount (partitionCount + 1)
        let len := (← get).len
        let (result, gasLimit, step) ← optimalTailSelect fl baseFee result gasLimit last
          (List.range' last (len - last))
        match step with
        | .continueTail last => optimalTailLoop baseFee partitionCount fuel result gasLimit last
        | .breakTail | .finished => pure (result, gasLimit)
    else
      pure (result, gasLimit)

/-- Step 8 over positions `i`: fill the block from the shuffled chains, with their
dependencies, trimming the one that does not fit. -/
def randomFill (baseFee : Int) (result : List (SignedMessage A)) (gasLimit : Int) :
    List Nat → ChainsM A F (List (SignedMessage A) × Int)
  | [] => pure (result, gasLimit)
  | i :: rest => do
    if gasLimit < minGas then
      return (result, gasLimit)
    let chain ← Chains.nodeAt i
    if chain.merged || !chain.valid || fl.lt chain.gasPerf fl.zero then
      return ← randomFill baseFee result gasLimit rest
    let fuel := (← get).map.length + 1
    let (deps, chainGasLimit, depGasLimit) ← allDeps fuel chain.prev [] chain.gasLimit 0
    if depGasLimit > gasLimit then
      Chains.invalidate ((← get).getKeyAt i)
      return ← randomFill baseFee result gasLimit rest
    if chainGasLimit > gasLimit then
      Chains.trimMsgsAt fl i (gasLimit - depGasLimit) baseFee
      if !(← Chains.nodeAt i).valid then
        return ← randomFill baseFee result gasLimit rest
    let mut result := result
    for key in deps.reverse do
      let node ← Chains.getNode key
      Chains.setNode key { node with merged := true }
      result := result ++ node.msgs
    let key ← Chains.keyAt i
    let chain ← Chains.getNode key
    Chains.setNode key { chain with merged := true }
    randomFill baseFee (result ++ chain.msgs) (gasLimit - chainGasLimit) rest

/-- `select_messages_optimal`, with the block probabilities of the ticket quality and
the permutation drawn by `shuffle`. -/
def selectMessagesOptimal (priorityAddrs : List A) (blockProb : List F)
    (shuffle : List Nat → List Nat) (pending : Pending A) :
    Except Failure (List (SignedMessage A)) := do
  let baseFee ← provider.chainComputeBaseFee.mapError Failure.error
  if pending.entries.isEmpty then
    return []
  let ((result, gasLimit), pending) ← selectPriorityMessages fl provider priorityAddrs pending baseFee
  if gasLimit < minGas then
    return result
  runChains do
    chainsForPending fl provider baseFee pending.entries
    Chains.sort fl false
    if !(← get).isEmpty then
      if fl.lt (← Chains.nodeAt 0).gasPerf fl.zero then
        return result
    let len := (← get).len
    let (partitions, partitionCount) ←
      partitionChains len maxBlocks 0 0 (List.replicate maxBlocks [])
    weighChains fl blockProb partitions
    Chains.sortEffective fl
    let len := (← get).len
    let (result, gasLimit, stop) ← mergeHeads fl result gasLimit (List.range len)
    let (result, gasLimit) ←
      optimalTailLoop fl baseFee partitionCount (len + 2) result gasLimit (stop.getD len)
    if gasLimit ≥ minGas then
      modify fun chains => { chains with keyVec := shuffle chains.keyVec }
      let len := (← get).len
      let (result, _) ← randomFill fl baseFee result gasLimit (List.range len)
      return result
    return result

end Optimal

/-- `select_messages`: greedy above ticket quality 0.84, optimal otherwise, truncated to
`MAX_BLOCK_MSGS`. -/
def selectMessages (priorityAddrs : List A) (blockProbabilities : F → List F)
    (shuffle : List Nat → List Nat) (pending : Pending A) (tq : F) :
    Except Failure (List (SignedMessage A)) := do
  let msgs ←
    if fl.lt (fl.ofRat (21 / 25)) tq then
      selectMessagesGreedy fl provider priorityAddrs pending
    else
      selectMessagesOptimal fl provider priorityAddrs (blockProbabilities tq) shuffle pending
  return msgs.take maxBlockMsgs

end Forest.MessagePool
