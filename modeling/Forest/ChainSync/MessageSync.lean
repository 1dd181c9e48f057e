import Forest.ChainSync.BlockMessages

/-!
# Message sync

`sync_messages_check_state` walks a synced header range from its oldest tipset and validates
each tipset with its messages.  Messages come from the store when `fill_tipset` finds them all,
and otherwise from a peer: `chain_exchange_messages` asks for the bundle of one tipset, and the
bundles of the answer are paired with the tipset asked for and then with the next tipsets of the
range, one each, whatever the peer sent.  `fts_from_bundle_parts` puts a bundle's messages in the
blocks by the indexes it lists, without comparing them with the headers' message roots.

`validate_tipset` runs `validate_block` on every block.  The first failure to come back fails the
tipset, and in `Strict` mode its block goes to the bad block cache, unless it was a block from
the future or one whose parent could not be loaded.  `validate_block` fails when
`check_block_messages` fails, and that includes the message root: a peer's bundle that does not
hash to a header's message root gets the block itself marked bad.

The peers are a function of the requested key, the count and the position of the request; the
checks of `validate_block` that read only the header are parameters, `BlockChecks`; the order in
which the spawned validations finish is a parameter, `arrival`.  Every spawned validation runs to
its end, so every block that passes is marked validated, whichever failure came back first.
-/

namespace Forest.ChainSync

open Forest.Blocks Forest.Message Forest.VM

/-- `InvalidBlockStrategy`: whether failed blocks go to the bad block cache. -/
inductive InvalidBlockStrategy where
  | strict
  | forgiving
  deriving DecidableEq, Repr

/-- `CompactedMessages`: the messages of a tipset bundle, and for each block the indexes of its
messages. -/
structure CompactedMessages where
  blsMsgs : List UnsignedMessage
  blsMsgIncludes : List (List Nat)
  secpMsgs : List SignedMessage
  secpMsgIncludes : List (List Nat)
  deriving DecidableEq, Repr

/-- `BLOCK_MESSAGE_LIMIT`. -/
def blockMessageLimit : Nat := 10000

/-! ## fts_from_bundle_parts -/

/-- `values_from_indexes`. -/
def valuesFromIndexes {α : Type} (indexes : List Nat) (values : List α) : Except String (List α) :=
  indexes.mapM fun idx =>
    match values[idx]? with
    | some value => .ok value
    | none => .error "Invalid message index"

/-- One block of `fts_from_bundle_parts`: the header with the messages its indexes pick. -/
def blockFromBundle (bundle : CompactedMessages) (i : Nat) (header : BlockHeader)
    (blsIncludes secpIncludes : List Nat) : Except String Block := do
  let messageCount := blsIncludes.length + secpIncludes.length
  if messageCount > blockMessageLimit then
    throw s!"Block {i} in bundle has too many messages ({messageCount} > {blockMessageLimit})"
  let blsMessages ← valuesFromIndexes blsIncludes bundle.blsMsgs
  let secpMessages ← valuesFromIndexes secpIncludes bundle.secpMsgs
  return ⟨header, blsMessages, secpMessages⟩

/-- `fts_from_bundle_parts`: the blocks of the headers with the bundle's messages, which are not
compared with the headers' message roots. -/
def ftsFromBundleParts (blake2b256 : List UInt8 → List UInt8) (headers : List BlockHeader)
    (messages : Option CompactedMessages) : Except String FullTipset := do
  let some bundle := messages | throw "Tipset bundle did not contain message bundle"
  if headers.length ≠ bundle.blsMsgIncludes.length ∨
      headers.length ≠ bundle.secpMsgIncludes.length then
    let headerLen := headers.length
    let blsLen := bundle.blsMsgIncludes.length
    let secpLen := bundle.secpMsgIncludes.length
    throw (s!"Invalid formed Tipset bundle, lengths of includes does not match blocks. " ++
      s!"Header len: {headerLen}, bls_msg len: {blsLen}, secp_msg len: {secpLen}")
  let blocks ← ((headers.zip (bundle.blsMsgIncludes.zip bundle.secpMsgIncludes)).zipIdx.mapM
    fun ((header, blsIncludes, secpIncludes), i) =>
      blockFromBundle bundle i header blsIncludes secpIncludes)
  (FullTipset.new blake2b256 blocks).mapError Error.toString

/-! ## validate_block and validate_tipset -/

/-- The checks of `validate_block` besides `check_block_messages`.  They read the header, the
chain store, the state manager, the beacon and the clock, and never the block's messages. -/
structure BlockChecks where
  /-- The checks before the async validations, to the first failure: `block_sanity_checks`,
  loading the parent tipset (`TipsetParentNotFound`), the lookback tipset and state, the latest
  beacon entry, the timestamps (`UnequalBlockTimestamps`, `TimeTravellingBlock`) and the
  worker address. -/
  prepare : BlockHeader → Except TipsetRangeSyncerError Unit
  /-- The parent tipset, as `check_block_messages` reads it. -/
  baseTipset : BlockHeader → BaseTipset
  /-- The other async validations, in the order they are pushed: miner, base fee, parent
  weight, state and receipt roots, winner election, block signature, beacon values, ticket and
  winning PoSt. -/
  otherValidations : BlockHeader → List (Except TipsetRangeSyncerError Unit)

/-- What the message sync reads and changes: the bad block cache, the blocks the chain store has
marked validated, the messages the store holds by message root (what `fill_tipset` reads through
`block_messages`), and the number of requests sent to peers. -/
structure MessageSyncState where
  badBlockCache : BadBlockCache
  validatedBlocks : List Cid
  storedMessages : Cid → Option (List UnsignedMessage × List SignedMessage)
  requests : Nat

/-- Whether `validate_tipset` puts a block that failed with this error in the bad block cache:
a block from the future or one whose parent is missing may be fine later. -/
def TipsetRangeSyncerError.marksBadBlock : TipsetRangeSyncerError → Bool
  | .timeTravellingBlock _ _ => false
  | .tipsetParentNotFound _ => false
  | _ => true

/-- The text `validate_block` collects for a failed async validation. -/
def validationText (displayCid : Cid → String) :
    Except TipsetRangeSyncerError Unit → Option String
  | .ok () => none
  | .error why => some (why.toString displayCid)

section Validation

variable (checks : MessageChecks) (blockChecks : BlockChecks)

/-- `validate_block`: a block already marked validated passes at once.  Otherwise the checks
before the async validations stop at their first failure; then all async validations run,
`check_block_messages` first, and their failures are joined into one `Validation` error.  The
error carries the block's CID for the bad block cache. -/
def validateBlock (validated : List Cid) (block : Block) : Except (Cid × TipsetRangeSyncerError) Unit :=
  if block.cid ∈ validated then .ok ()
  else
    match blockChecks.prepare block.header with
    | .error why => .error (block.cid, why)
    | .ok () =>
      let messagesChecked := (checkBlockMessages checks (blockChecks.baseTipset block.header)
        block).mapError fun e => TipsetRangeSyncerError.validation (e.toString checks.displayCid)
      let errorVec := (messagesChecked :: blockChecks.otherValidations block.header).filterMap
        (validationText checks.displayCid)
      if errorVec = [] then .ok ()
      else .error (block.cid, .validation (String.intercalate ", " errorVec))

/-- The failure of a block's validation, if it failed. -/
def failureOf (validated : List Cid) (block : Block) : Option (Cid × TipsetRangeSyncerError) :=
  match validateBlock checks blockChecks validated block with
  | .ok () => none
  | .error failure => some failure

variable (strategy : InvalidBlockStrategy) (genesis : Tipset)
  (arrival : List Block → List Block)

/-- `validate_tipset`.  The genesis tipset passes unchecked.  Every block is validated and
every block that passes is marked validated; the first failure in `arrival`, the order the
validations finish in, fails the tipset and, in `Strict` mode, marks its block bad with the
error's text. -/
def validateTipset (fullTipset : FullTipset) :
    EStateM TipsetRangeSyncerError MessageSyncState Unit := fun state =>
  if (Tipset.ofFullTipset fullTipset).key = genesis.key then .ok () state
  else
    let passed := fullTipset.blocks.filter fun block =>
      (failureOf checks blockChecks state.validatedBlocks block).isNone
    let marked := { state with validatedBlocks := passed.map Block.cid ++ state.validatedBlocks }
    match (arrival fullTipset.blocks).findSome?
        (failureOf checks blockChecks state.validatedBlocks) with
    | none => .ok () marked
    | some (cid, why) =>
      if strategy = .strict ∧ why.marksBadBlock then
        .error why { marked with
          badBlockCache := marked.badBlockCache.put cid (.other (why.toString checks.displayCid)) }
      else .error why marked

end Validation

/-! ## What a validation writes -/

section ValidationSpec

variable {checks : MessageChecks} {blockChecks : BlockChecks} {validated : List Cid}
  {block : Block}

/-- A block not validated before, whose checks before the async validations pass and whose
messages `check_block_messages` refuses, fails its validation with a `Validation` error. -/
theorem validateBlock_of_checkBlockMessages {refusal : TipsetRangeSyncerError}
    (fresh : block.cid ∉ validated) (prepared : blockChecks.prepare block.header = .ok ())
    (refused : checkBlockMessages checks (blockChecks.baseTipset block.header) block =
      .error refusal) :
    ∃ text, validateBlock checks blockChecks validated block = .error (block.cid, .validation text) := by
  simp [validateBlock, fresh, prepared, refused, Except.mapError, validationText]

/-- Messages that do not hash to the header's message root fail the block's validation, when the
block was not validated before and its checks before the async validations pass. -/
theorem validateBlock_of_root_mismatch {root : Cid} (fresh : block.cid ∉ validated)
    (prepared : blockChecks.prepare block.header = .ok ())
    (forged : checks.computeMsgRoot block.blsMessages block.secpMessages = .ok root)
    (mismatch : root ≠ block.header.messages) :
    ∃ text, validateBlock checks blockChecks validated block = .error (block.cid, .validation text) := by
  cases checked : checkBlockMessages checks (blockChecks.baseTipset block.header) block with
  | error refusal => exact validateBlock_of_checkBlockMessages fresh prepared checked
  | ok u =>
    have rooted := computeMsgRoot_of_checkBlockMessages checked
    rw [forged, Except.ok.injEq] at rooted
    exact absurd rooted mismatch

variable {genesis : Tipset} {arrival : List Block → List Block} {fullTipset : FullTipset}
  {state : MessageSyncState}

/-- In `Strict` mode, a tipset whose only failing block fails with an error that marks blocks
bad fails with that error, and the block is in the bad block cache with the error's text. -/
theorem validateTipset_marks_failed_block {why : TipsetRangeSyncerError}
    (notGenesis : (Tipset.ofFullTipset fullTipset).key ≠ genesis.key)
    (arrived : (arrival fullTipset.blocks).Perm fullTipset.blocks)
    (listed : block ∈ fullTipset.blocks)
    (failed : failureOf checks blockChecks state.validatedBlocks block = some (block.cid, why))
    (others : ∀ other ∈ fullTipset.blocks, other ≠ block →
      failureOf checks blockChecks state.validatedBlocks other = none)
    (marks : why.marksBadBlock = true) :
    ∃ state', validateTipset checks blockChecks .strict genesis arrival fullTipset state =
        .error why state' ∧
      state'.badBlockCache.get block.cid = some (.other (why.toString checks.displayCid)) := by
  -- the block is the only hit of the search for the first failure, in any arrival order
  have first : (arrival fullTipset.blocks).findSome?
      (failureOf checks blockChecks state.validatedBlocks) = some (block.cid, why) := by
    refine List.findSome?_eq_of_hits ?_ ⟨block, arrived.symm.subset listed, failed⟩
    intro other arrivedOther
    by_cases same : other = block
    · exact .inr (same ▸ failed)
    · exact .inl (others other (arrived.subset arrivedOther) same)
  simp only [validateTipset, notGenesis, if_false, first, marks, and_self, if_true]
  exact ⟨_, rfl, BadBlockCache.get_put_self _ _ _⟩

/-- A tipset whose blocks all pass their validation leaves the bad block cache as it was. -/
theorem validateTipset_of_passing
    (passing : ∀ block ∈ arrival fullTipset.blocks,
      failureOf checks blockChecks state.validatedBlocks block = none)
    (strategy : InvalidBlockStrategy) :
    ∃ state', validateTipset checks blockChecks strategy genesis arrival fullTipset state =
        .ok () state' ∧ state'.badBlockCache = state.badBlockCache := by
  have none_failed : (arrival fullTipset.blocks).findSome?
      (failureOf checks blockChecks state.validatedBlocks) = none :=
    List.findSome?_eq_none_iff.mpr passing
  simp only [validateTipset]
  split
  · exact ⟨state, rfl, rfl⟩
  · simp only [none_failed]
    exact ⟨_, rfl, rfl⟩

end ValidationSpec

/-! ## sync_messages_check_state -/

/-- How the message sync ends when it does not return `Ok`: with an error, or with the panic of
the `unwrap` in `fill_tipset` when the stored blocks do not form a tipset. -/
inductive MessageSyncFailure where
  | error (why : TipsetRangeSyncerError)
  | panic
  deriving DecidableEq, Repr

/-- A step of the message sync. -/
abbrev MessageSyncM := EStateM MessageSyncFailure MessageSyncState

/-- The peers' answers to `chain_exchange_messages`, by the requested key, the count and the
position of the request: any list of bundles, or a failure. -/
abbrev MessageNetwork := TipsetKeys → Nat → Nat → Except String (List CompactedMessages)

/-- `REQUEST_WINDOW`. -/
def requestWindow : Nat := 1

/-- `ChainStore::fill_tipset`: the stored messages of every header, or `none`; the blocks are
put together with `FullTipset::new`, whose failure is the panic of its `unwrap`. -/
def fillTipset (blake2b256 : List UInt8 → List UInt8)
    (storedMessages : Cid → Option (List UnsignedMessage × List SignedMessage)) (tipset : Tipset) :
    Option (Except Error FullTipset) :=
  (tipset.headers.mapM fun header =>
    (storedMessages header.messages).map fun (bls, secp) => (⟨header, bls, secp⟩ : Block)).map
    (FullTipset.new blake2b256)

/-- The store after a block's messages are written under its message root. -/
def storeBlockMessages (stored : Cid → Option (List UnsignedMessage × List SignedMessage))
    (block : Block) : Cid → Option (List UnsignedMessage × List SignedMessage) :=
  Function.update stored block.header.messages (some (block.blsMessages, block.secpMessages))

/-- `persist_objects` of a validated bundle's messages, with the message roots
`compute_msg_root` stored: every block's messages can then be read back under its root. -/
def persistMessages (fullTipset : FullTipset) : MessageSyncM Unit :=
  modify fun state =>
    { state with storedMessages := fullTipset.blocks.foldl storeBlockMessages state.storedMessages }

section Sync

variable (blake2b256 : List UInt8 → List UInt8) (checks : MessageChecks)
  (blockChecks : BlockChecks) (strategy : InvalidBlockStrategy) (genesis : Tipset)
  (arrival : List Block → List Block) (network : MessageNetwork)

/-- `validate_tipset` as a step of the sync. -/
def validateInSync (fullTipset : FullTipset) : MessageSyncM Unit :=
  (validateTipset checks blockChecks strategy genesis arrival fullTipset).adaptExcept .error

/-- `SyncNetworkContext::chain_exchange_messages`, answered by the peers. -/
def chainExchangeMessages (tsk : TipsetKeys) (count : Nat) :
    MessageSyncM (List CompactedMessages) := fun state =>
  let asked := { state with requests := state.requests + 1 }
  match network tsk count state.requests with
  | .ok bundles => .ok bundles asked
  | .error text => .error (.error (.networkMessageQueryFailed text)) asked

/-- The body of the loop over the bundles of an answer: the bundle with the headers of the tipset
it is paired with, validated, and its messages persisted. -/
def validateBundle (tipset : Tipset) (messages : CompactedMessages) : MessageSyncM Unit := do
  let fullTipset ← match ftsFromBundleParts blake2b256 tipset.headers (some messages) with
    | .ok fullTipset => pure fullTipset
    | .error text => throw (.error (.generatingTipsetFromTipsetBundle text))
  validateInSync checks blockChecks strategy genesis arrival fullTipset
  persistMessages fullTipset

/-- The loops of `sync_messages_check_state`, over the bundles of the last answer not yet paired
and the tipsets of the range not yet taken, oldest first.  A tipset is taken from the store when
its messages are all there; otherwise one bundle is asked for, and each bundle of the answer is
paired with the next tipset, the one asked for first.  An answer without bundles leaves the
tipset asked for unvalidated. -/
def messageSyncLoop : List CompactedMessages → List Tipset → MessageSyncM Unit
  | [], [] => pure ()
  | [], tipset :: rest => do
    let state ← get
    match fillTipset blake2b256 state.storedMessages tipset with
    | some (.ok fullTipset) =>
      validateInSync checks blockChecks strategy genesis arrival fullTipset
      messageSyncLoop [] rest
    | some (.error _) => throw .panic
    | none =>
      match ← chainExchangeMessages network tipset.key requestWindow with
      | [] => messageSyncLoop [] rest
      | messages :: more =>
        validateBundle blake2b256 checks blockChecks strategy genesis arrival tipset messages
        messageSyncLoop more rest
  | _ :: _, [] =>
    throw (.error (.networkMessageQueryFailed "Messages returned exceeded tipsets in chain"))
  | messages :: more, tipset :: rest => do
    validateBundle blake2b256 checks blockChecks strategy genesis arrival tipset messages
    messageSyncLoop more rest

/-- `sync_messages_check_state`: the range, newest first, is walked from its oldest tipset. -/
def syncMessagesCheckState (tipsets : List Tipset) : MessageSyncM Unit :=
  messageSyncLoop blake2b256 checks blockChecks strategy genesis arrival network [] tipsets.reverse

end Sync

/-! ## A forged bundle in a run of the sync -/

section SyncSpec

variable {blake2b256 : List UInt8 → List UInt8} {checks : MessageChecks}
  {blockChecks : BlockChecks} {strategy : InvalidBlockStrategy} {genesis : Tipset}
  {arrival : List Block → List Block} {state : MessageSyncState}

/-- A tipset whose messages are not all in the store is validated with the first bundle of the
peers' answer, and the rest of the answer goes to the next tipsets. -/
theorem messageSyncLoop_of_unfilled {network : MessageNetwork} {tipset : Tipset}
    {rest : List Tipset} {messages : CompactedMessages} {more : List CompactedMessages}
    (unfilled : fillTipset blake2b256 state.storedMessages tipset = none)
    (answered : network tipset.key requestWindow state.requests = .ok (messages :: more)) :
    messageSyncLoop blake2b256 checks blockChecks strategy genesis arrival network []
        (tipset :: rest) state =
      (do validateBundle blake2b256 checks blockChecks strategy genesis arrival tipset messages
          messageSyncLoop blake2b256 checks blockChecks strategy genesis arrival network more rest)
        { state with requests := state.requests + 1 } := by
  have asked : chainExchangeMessages network tipset.key requestWindow state =
      .ok (messages :: more) { state with requests := state.requests + 1 } := by
    simp only [chainExchangeMessages, answered]
  simp only [messageSyncLoop, EStateM.get_bind, unfilled]
  rw [EStateM.bind_apply_of_ok asked]

/-- A bundle that forms a full tipset with the headers is validated as that full tipset, and
its messages are persisted when the validation passes. -/
theorem validateBundle_of_assembled {tipset : Tipset} {messages : CompactedMessages}
    {fullTipset : FullTipset}
    (assembled : ftsFromBundleParts blake2b256 tipset.headers (some messages) = .ok fullTipset) :
    validateBundle blake2b256 checks blockChecks strategy genesis arrival tipset messages =
      (do validateInSync checks blockChecks strategy genesis arrival fullTipset
          persistMessages fullTipset) := by
  simp only [validateBundle, assembled]
  rfl

variable {network : MessageNetwork} {tipset : Tipset} {rest : List Tipset}
  {messages : CompactedMessages} {more : List CompactedMessages} {fullTipset : FullTipset}

/-- A bundle for a tipset missing from the store, whose blocks all pass their validation, leaves
the bad block cache as it was, and the loop goes on with the rest of the answer and of the
range. -/
theorem messageSyncLoop_of_passing_bundle
    (unfilled : fillTipset blake2b256 state.storedMessages tipset = none)
    (answered : network tipset.key requestWindow state.requests = .ok (messages :: more))
    (assembled : ftsFromBundleParts blake2b256 tipset.headers (some messages) = .ok fullTipset)
    (passing : ∀ block ∈ arrival fullTipset.blocks,
      failureOf checks blockChecks state.validatedBlocks block = none) :
    ∃ state', state'.badBlockCache = state.badBlockCache ∧
      messageSyncLoop blake2b256 checks blockChecks strategy genesis arrival network []
          (tipset :: rest) state =
        messageSyncLoop blake2b256 checks blockChecks strategy genesis arrival network more rest
          state' := by
  -- asking the peers changes only the count of requests, which the validation does not read
  have passingAsked : ∀ block ∈ arrival fullTipset.blocks, failureOf checks blockChecks
      ({ state with requests := state.requests + 1 } : MessageSyncState).validatedBlocks block =
        none :=
    passing
  obtain ⟨validatedState, accepted, kept⟩ := validateTipset_of_passing passingAsked strategy
  have inSync : validateInSync checks blockChecks strategy genesis arrival fullTipset
      { state with requests := state.requests + 1 } = .ok () validatedState :=
    EStateM.adaptExcept_apply_of_ok accepted
  have bundled : validateBundle blake2b256 checks blockChecks strategy genesis arrival tipset
      messages { state with requests := state.requests + 1 } =
      .ok () { validatedState with
        storedMessages := fullTipset.blocks.foldl storeBlockMessages validatedState.storedMessages } := by
    rw [validateBundle_of_assembled assembled, EStateM.bind_apply_of_ok inSync]
    rfl
  refine ⟨{ validatedState with
    storedMessages := fullTipset.blocks.foldl storeBlockMessages validatedState.storedMessages },
    kept, ?_⟩
  rw [messageSyncLoop_of_unfilled unfilled answered, EStateM.bind_apply_of_ok bundled]

/-- In `Strict` mode, a bundle for a tipset missing from the store whose messages do not hash to
a block's message root fails the sync, and the block goes to the bad block cache, when the block
was not validated before, its checks before the async validations pass and the other blocks of
the bundle pass. -/
theorem messageSyncLoop_of_forged_bundle {block : Block} {root : Cid}
    (unfilled : fillTipset blake2b256 state.storedMessages tipset = none)
    (answered : network tipset.key requestWindow state.requests = .ok (messages :: more))
    (assembled : ftsFromBundleParts blake2b256 tipset.headers (some messages) = .ok fullTipset)
    (notGenesis : (Tipset.ofFullTipset fullTipset).key ≠ genesis.key)
    (arrived : (arrival fullTipset.blocks).Perm fullTipset.blocks)
    (listed : block ∈ fullTipset.blocks) (fresh : block.cid ∉ state.validatedBlocks)
    (prepared : blockChecks.prepare block.header = .ok ())
    (forged : checks.computeMsgRoot block.blsMessages block.secpMessages = .ok root)
    (mismatch : root ≠ block.header.messages)
    (others : ∀ other ∈ fullTipset.blocks, other ≠ block →
      failureOf checks blockChecks state.validatedBlocks other = none) :
    ∃ why state', messageSyncLoop blake2b256 checks blockChecks .strict genesis arrival network
        [] (tipset :: rest) state = .error (.error why) state' ∧
      state'.badBlockCache.get block.cid = some (.other (why.toString checks.displayCid)) := by
  obtain ⟨text, refused⟩ : ∃ text, validateBlock checks blockChecks state.validatedBlocks block =
      .error (block.cid, .validation text) :=
    validateBlock_of_root_mismatch fresh prepared forged mismatch
  have failed : failureOf checks blockChecks state.validatedBlocks block =
      some (block.cid, .validation text) := by
    simp only [failureOf, refused]
  -- asking the peers changes only the count of requests, which the validation does not read
  obtain ⟨rejectedState, rejected, marked⟩ : ∃ rejectedState,
      validateTipset checks blockChecks .strict genesis arrival fullTipset
          { state with requests := state.requests + 1 } = .error (.validation text) rejectedState ∧
        rejectedState.badBlockCache.get block.cid =
          some (.other ((TipsetRangeSyncerError.validation text).toString checks.displayCid)) :=
    validateTipset_marks_failed_block notGenesis arrived listed failed others rfl
  have inSync : validateInSync checks blockChecks .strict genesis arrival fullTipset
      { state with requests := state.requests + 1 } = .error (.error (.validation text)) rejectedState :=
    EStateM.adaptExcept_apply_of_error rejected
  have bundled : validateBundle blake2b256 checks blockChecks .strict genesis arrival tipset
      messages { state with requests := state.requests + 1 } =
      .error (.error (.validation text)) rejectedState := by
    rw [validateBundle_of_assembled assembled, EStateM.bind_apply_of_error inSync]
  refine ⟨_, _, ?_, marked⟩
  rw [messageSyncLoop_of_unfilled unfilled answered, EStateM.bind_apply_of_error bundled]

/-- Two runs of the message sync in `Strict` mode over a range of one tipset whose messages are
not in the store, which differ only in the bundle the peers send.  Under a bundle whose messages
do not hash to a block's message root the sync fails and the block goes to the bad block cache;
under a bundle whose blocks all pass, the block stays out of it.  Which blocks are marked bad is
up to the peers. -/
theorem syncMessagesCheckState_marks_block_of_forged_bundle
    {forged honest : CompactedMessages} {forgedTipset honestTipset : FullTipset}
    {forgedNetwork honestNetwork : MessageNetwork} {block : Block} {root : Cid}
    (unfilled : fillTipset blake2b256 state.storedMessages tipset = none)
    (forgedAnswer : forgedNetwork tipset.key requestWindow state.requests = .ok [forged])
    (honestAnswer : honestNetwork tipset.key requestWindow state.requests = .ok [honest])
    (forgedAssembled :
      ftsFromBundleParts blake2b256 tipset.headers (some forged) = .ok forgedTipset)
    (honestAssembled :
      ftsFromBundleParts blake2b256 tipset.headers (some honest) = .ok honestTipset)
    (notGenesis : (Tipset.ofFullTipset forgedTipset).key ≠ genesis.key)
    (arrived : (arrival forgedTipset.blocks).Perm forgedTipset.blocks)
    (listed : block ∈ forgedTipset.blocks) (fresh : block.cid ∉ state.validatedBlocks)
    (prepared : blockChecks.prepare block.header = .ok ())
    (forgedRoot : checks.computeMsgRoot block.blsMessages block.secpMessages = .ok root)
    (mismatch : root ≠ block.header.messages)
    (others : ∀ other ∈ forgedTipset.blocks, other ≠ block →
      failureOf checks blockChecks state.validatedBlocks other = none)
    (passing : ∀ honestBlock ∈ arrival honestTipset.blocks,
      failureOf checks blockChecks state.validatedBlocks honestBlock = none)
    (unmarked : state.badBlockCache.get block.cid = none) :
    (∃ why forgedState, syncMessagesCheckState blake2b256 checks blockChecks .strict genesis
        arrival forgedNetwork [tipset] state = .error (.error why) forgedState ∧
      forgedState.badBlockCache.get block.cid = some (.other (why.toString checks.displayCid))) ∧
    ∃ honestState, syncMessagesCheckState blake2b256 checks blockChecks .strict genesis arrival
        honestNetwork [tipset] state = .ok () honestState ∧
      honestState.badBlockCache.get block.cid = none := by
  constructor
  · exact messageSyncLoop_of_forged_bundle unfilled forgedAnswer forgedAssembled notGenesis arrived
      listed fresh prepared forgedRoot mismatch others
  · -- the honest bundle is the whole answer, and the range ends with its tipset
    obtain ⟨honestState, kept, continues⟩ : ∃ honestState,
        honestState.badBlockCache = state.badBlockCache ∧
        messageSyncLoop blake2b256 checks blockChecks .strict genesis arrival honestNetwork []
            [tipset] state =
          messageSyncLoop blake2b256 checks blockChecks .strict genesis arrival honestNetwork []
            [] honestState :=
      messageSyncLoop_of_passing_bundle unfilled honestAnswer honestAssembled passing
    refine ⟨honestState, ?_, ?_⟩
    · rw [syncMessagesCheckState, List.reverse_singleton, continues]
      rfl
    · rw [kept]
      exact unmarked

/-- Checks whose cryptography accepts everything and whose message root tells a block without
messages, the root of `exampleHeader`, from any other. -/
def rootingChecks : MessageChecks where
  isAccountActor := fun _ => true
  onChainMessage := fun _ _ => 0
  networkVersion := fun _ => 13
  blsAggregate := fun _ => .ok ()
  secpSignature := fun _ => .ok ()
  computeMsgRoot := fun bls secp => .ok (if bls.isEmpty && secp.isEmpty then ⟨[0]⟩ else ⟨[1]⟩)
  displayCid := fun _ => ""

/-- Header checks that all pass, with the parent state `resolvedAccount`. -/
def passingBlockChecks : BlockChecks where
  prepare := fun _ => .ok ()
  baseTipset := fun _ => ⟨0, .ok resolvedAccount⟩
  otherValidations := fun _ => []

/-- A bundle that gives the one block of a tipset a transfer. -/
def forgedBundle : CompactedMessages := ⟨[transferFrom (.id 100)], [[0]], [], [[]]⟩

/-- A bundle that gives the one block of a tipset no messages. -/
def emptyBundle : CompactedMessages := ⟨[], [[]], [], [[]]⟩

theorem syncMessagesCheckState_marks_block_of_forged_bundle_f01000 :
    (∃ why forgedState, syncMessagesCheckState id rootingChecks passingBlockChecks .strict
        ⟨[exampleHeader 1001 2], List.cons_ne_nil _ _⟩ id (fun _ _ _ => .ok [forgedBundle])
        [⟨[exampleHeader 1000 1], List.cons_ne_nil _ _⟩] ⟨⟨∅⟩, [], fun _ => none, 0⟩ =
          .error (.error why) forgedState ∧
      forgedState.badBlockCache.get (exampleHeader 1000 1).cid =
        some (.other (why.toString rootingChecks.displayCid))) ∧
    ∃ honestState, syncMessagesCheckState id rootingChecks passingBlockChecks .strict
        ⟨[exampleHeader 1001 2], List.cons_ne_nil _ _⟩ id (fun _ _ _ => .ok [emptyBundle])
        [⟨[exampleHeader 1000 1], List.cons_ne_nil _ _⟩] ⟨⟨∅⟩, [], fun _ => none, 0⟩ =
          .ok () honestState ∧
      honestState.badBlockCache.get (exampleHeader 1000 1).cid = none :=
  @syncMessagesCheckState_marks_block_of_forged_bundle id rootingChecks passingBlockChecks
    ⟨[exampleHeader 1001 2], List.cons_ne_nil _ _⟩ id ⟨⟨∅⟩, [], fun _ => none, 0⟩
    ⟨[exampleHeader 1000 1], List.cons_ne_nil _ _⟩ forgedBundle emptyBundle
    ⟨[⟨exampleHeader 1000 1, [transferFrom (.id 100)], []⟩], List.cons_ne_nil _ _⟩
    ⟨[⟨exampleHeader 1000 1, [], []⟩], List.cons_ne_nil _ _⟩
    (fun _ _ _ => .ok [forgedBundle]) (fun _ _ _ => .ok [emptyBundle])
    ⟨exampleHeader 1000 1, [transferFrom (.id 100)], []⟩ ⟨[1]⟩ rfl rfl rfl
    (by
      simp [ftsFromBundleParts, forgedBundle, blockFromBundle, valuesFromIndexes,
        FullTipset.new, List.sortByCachedKey, blockMessageLimit, verifyBlocks]
      rfl)
    (by
      simp [ftsFromBundleParts, emptyBundle, blockFromBundle, valuesFromIndexes,
        FullTipset.new, List.sortByCachedKey, blockMessageLimit, verifyBlocks]
      rfl)
    (by decide) (List.Perm.refl _) (List.mem_singleton_self _) List.not_mem_nil rfl rfl
    (by decide) (fun _ listed apart => absurd (List.mem_singleton.mp listed) apart) (by decide) rfl

end SyncSpec

end Forest.ChainSync
