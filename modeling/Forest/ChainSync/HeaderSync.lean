import Forest.Blocks.Tipset
import Forest.Lib.Result
import Mathlib.Data.List.AList
import Mathlib.Data.List.Chain

/-!
# Header sync

`sync_headers_in_reverse` walks back from a proposed head towards the current head and returns
the tipsets it passed, newest first.  Each pass of its loop checks the oldest tipset's parent key
against the bad block cache, stops once the epoch of the current head is reached, and otherwise
loads the parents from the local store or, failing that, asks a peer for a batch of ancestors.
The tipsets of a batch are checked against the cache and by epoch only: nothing compares their
keys with the parent key that was requested, so a peer decides what the returned range holds.
When the range does not end on the current head's parents, a second request fetches a fork,
which is spliced in up to a common ancestor found by walking the local chain.

The peers are a function of the request (its key, its count and its position among the
requests), which an adversary chooses; the loop, which the source runs until it breaks, runs
here for a number of passes, and `none` stands for a run that needs more.
-/

namespace Forest.ChainSync

open Forest.Blocks

/-- Why a block is in the bad block cache. -/
inductive BadBlockReason where
  /-- `"chain contained {cid}"`: the block descends from the bad block `cid`. -/
  | chainContained (cid : Cid)
  | other (text : String)
  deriving DecidableEq, Repr

/-- `BadBlockCache`: the reason each bad block was marked.  The source's cache is an LRU of
bounded size; the model keeps every entry. -/
structure BadBlockCache where
  entries : AList fun _ : Cid => BadBlockReason

namespace BadBlockCache

/-- `BadBlockCache::get`. -/
def get (cache : BadBlockCache) (cid : Cid) : Option BadBlockReason := cache.entries.lookup cid

/-- `BadBlockCache::put`. -/
def put (cache : BadBlockCache) (cid : Cid) (reason : BadBlockReason) : BadBlockCache :=
  ⟨cache.entries.insert cid reason⟩

@[simp] theorem get_put_self (cache : BadBlockCache) (cid : Cid) (reason : BadBlockReason) :
    (cache.put cid reason).get cid = some reason := by
  simp [get, put]

theorem get_put_of_ne (cache : BadBlockCache) {cid other : Cid} (reason : BadBlockReason)
    (apart : other ≠ cid) : (cache.put cid reason).get other = cache.get other := by
  simp [get, put, AList.lookup_insert_ne apart]

end BadBlockCache

/-- `TipsetRangeSyncerError`.  The errors of other crates that it wraps (of the chain store, the
state manager, the encoding and the blocks crate, and the chain store error of a missing parent)
are kept as their display text, and so is the list of CIDs of `ForkAtGenesisBlock`, which the
model keeps as the CIDs. -/
inductive TipsetRangeSyncerError where
  | invalidTipsetAdded
  | invalidTipsetRangeLength
  | invalidTipsetEpoch
  | invalidTipsetParent
  | blockWithoutElectionProof
  | blockWithoutSignature
  | blockWithoutBlsAggregate
  | blockWithoutTicket
  | unequalBlockTimestamps (header target : Nat)
  | timeTravellingBlock (now block : Nat)
  | tipsetRangeWithBadBlock (cid : Cid) (reason : BadBlockReason)
  | tipsetWithoutTicket
  | validation (text : String)
  | calculation (text : String)
  | chainStore (text : String)
  | stateManager (text : String)
  | forestEncoding (text : String)
  | winnerElectionProofVerificationFailed (text : String)
  | invalidOrSlashedMiner
  | minerPowerNotAvailable
  | minerWinClaimsIncorrect (claimed computed : Int)
  | drawingChainRandomness (text : String)
  | minerNotEligibleToMine
  | blockError (text : String)
  | chainForkLengthExceedsMaximum
  | chainForkLengthExceedsFinalityThreshold
  | forkAtGenesisBlock (cids : List Cid)
  | minerPowerUnavailable (text : String)
  | powerActorUnavailable
  | networkTipsetQueryFailed (text : String)
  | networkMessageQueryFailed (text : String)
  | vrfValidation (text : String)
  | blsAggregateSignatureInvalid (signature messages : String)
  | messageSignatureInvalid (text : String)
  | blockMessageRootInvalid (expected computed : String)
  | blockMessageValidationFailed (index : Nat) (text : String)
  | computingMessageRoot (text : String)
  | resolvingAddressFromMessage (text : String)
  | generatingTipsetFromTipsetBundle (text : String)
  | insecurePostValidation (text : String)
  | tipsetParentNotFound (text : String)
  deriving DecidableEq, Repr

section Display

variable (displayCid : Cid → String)

/-- The `Debug` text of a CID: its `Display` inside `Cid("…")`. -/
def debugCid (cid : Cid) : String := "Cid(\"" ++ displayCid cid ++ "\")"

/-- The text a bad block cache entry holds. -/
def BadBlockReason.toString : BadBlockReason → String
  | .chainContained cid => "chain contained " ++ displayCid cid
  | .other text => text

/-- The `Display` of `TipsetRangeSyncerError`, from its `#[error]` attributes; `displayCid` is
the `Display` of a CID. -/
def TipsetRangeSyncerError.toString : TipsetRangeSyncerError → String
  | .invalidTipsetAdded => "Tipset added to range syncer does share the same epoch and parents"
  | .invalidTipsetRangeLength => "Tipset range length is less than 0"
  | .invalidTipsetEpoch => "Provided tiset does not match epoch for the range"
  | .invalidTipsetParent => "Provided tipset does not match parent for the range"
  | .blockWithoutElectionProof => "Block must have an election proof included in tipset"
  | .blockWithoutSignature => "Block must have a signature"
  | .blockWithoutBlsAggregate => "Block without BLS aggregate signature"
  | .blockWithoutTicket => "Block without ticket"
  | .unequalBlockTimestamps header target => s!"Block had the wrong timestamp: {header} != {target}"
  | .timeTravellingBlock now block => s!"Block received from the future: now = {now}, block = {block}"
  | .tipsetRangeWithBadBlock cid reason =>
    "Tipset range contains bad block [block = " ++ displayCid cid ++ "]: " ++
      reason.toString displayCid
  | .tipsetWithoutTicket => "Tipset without ticket to verify"
  | .validation text => s!"Validation error: {text}"
  | .calculation text => s!"Processing error: {text}"
  | .chainStore text => s!"Chain store error: {text}"
  | .stateManager text => s!"StateManager error: {text}"
  | .forestEncoding text => s!"Encoding error: {text}"
  | .winnerElectionProofVerificationFailed text =>
    s!"Winner election proof verification failed: {text}"
  | .invalidOrSlashedMiner => "Block miner was slashed or is invalid"
  | .minerPowerNotAvailable => "Miner power not available for miner address"
  | .minerWinClaimsIncorrect claimed computed =>
    s!"Miner claimed wrong number of wins: miner = {claimed}, computed = {computed}"
  | .drawingChainRandomness text => s!"Drawing chain randomness failed: {text}"
  | .minerNotEligibleToMine => "Miner isn't elligible to mine"
  | .blockError text => s!"Block error: {text}"
  | .chainForkLengthExceedsMaximum => "Chain fork length exceeds the maximum"
  | .chainForkLengthExceedsFinalityThreshold => "Chain fork length exceeds finality threshold"
  | .forkAtGenesisBlock cids =>
    "Chain for block forked from local chain at genesis, refusing to sync block: [" ++
      String.intercalate ", " (cids.map (debugCid displayCid)) ++ "]"
  | .minerPowerUnavailable text => s!"Querying miner power failed: {text}"
  | .powerActorUnavailable => "Power actor not found"
  | .networkTipsetQueryFailed text => s!"Querying tipsets from the network failed: {text}"
  | .networkMessageQueryFailed text => s!"Query tipset messages from the network failed: {text}"
  | .vrfValidation text => s!"Verifying VRF failed: {text}"
  | .blsAggregateSignatureInvalid signature messages =>
    s!"BLS aggregate signature {signature} was invalid for msgs {messages}"
  | .messageSignatureInvalid text => s!"Message signature invalid: {text}"
  | .blockMessageRootInvalid expected computed =>
    s!"Block message root does not match: expected {expected}, computed {computed}"
  | .blockMessageValidationFailed index text => s!"Message validation for msg {index} failed: {text}"
  | .computingMessageRoot text => s!"Computing message root failed: {text}"
  | .resolvingAddressFromMessage text => s!"Resolving address from message failed: {text}"
  | .generatingTipsetFromTipsetBundle text => s!"Generating Tipset from bundle failed: {text}"
  | .insecurePostValidation text => s!"[INSECURE-POST-VALIDATION] {text}"
  | .tipsetParentNotFound text => s!"Loading tipset parent from the store failed: {text}"

end Display

/-- What the header sync changes as it runs: the bad block cache, and how many requests it has
sent to peers. -/
structure SyncState where
  badBlockCache : BadBlockCache
  requests : Nat

/-- A step of the sync. -/
abbrev SyncM := EStateM TipsetRangeSyncerError SyncState

/-- The peers' answers to `chain_exchange_headers`, by the requested key, the count and the
position of the request: any list of tipsets, or a failure. -/
abbrev Network := TipsetKeys → Nat → Nat → Except String (List Tipset)

/-- `ChainStore::tipset_from_keys`. -/
abbrev TipsetLoader := TipsetKeys → Except String Tipset

/-- `MAX_TIPSETS_TO_REQUEST`. -/
def maxTipsetsToRequest : Int := 100

/-- `FORK_LENGTH_THRESHOLD`. -/
def forkLengthThreshold : Nat := 500

/-- Fail the sync with an error of a pure computation. -/
def liftExcept {α : Type} (result : Except TipsetRangeSyncerError α) : SyncM α := fun state =>
  match result with
  | .ok value => .ok value state
  | .error error => .error error state

/-- `validate_tipset_against_cache`: a key with a bad block fails the sync, after every
descendant block is marked bad. -/
def validateTipsetAgainstCache (tipset : TipsetKeys) (descendantBlocks : List Cid) : SyncM Unit :=
  fun state =>
    match tipset.cids.findSome? fun cid => (state.badBlockCache.get cid).map (cid, ·) with
    | none => .ok () state
    | some (cid, reason) =>
      let marked := descendantBlocks.foldl (fun cache block => cache.put block (.chainContained cid))
        state.badBlockCache
      .error (.tipsetRangeWithBadBlock cid reason) { state with badBlockCache := marked }

/-- `SyncNetworkContext::chain_exchange_headers`, answered by the peers. -/
def chainExchangeHeaders (network : Network) (tsk : TipsetKeys) (count : Nat) :
    SyncM (List Tipset) := fun state =>
  let asked := { state with requests := state.requests + 1 }
  match network tsk count state.requests with
  | .ok tipsets => .ok tipsets asked
  | .error text => .error (.networkTipsetQueryFailed text) asked

/-- Where the walk over a batch of network tipsets ended: at the batch's end, or at a tipset
older than the current head, which breaks the whole `'sync` loop. -/
inductive BatchEnd where
  | exhausted
  | breakSync
  deriving DecidableEq, Repr

/-- The walk over a batch from the network: each tipset not older than the current head is
checked against the cache and appended, with its blocks. -/
def appendBatch (currentHead : Tipset) :
    List Tipset → List Tipset → List Cid → SyncM (BatchEnd × List Tipset × List Cid)
  | [], older, parentBlocks => pure (.exhausted, older, parentBlocks)
  | tipset :: rest, older, parentBlocks =>
    if tipset.epoch < currentHead.epoch then pure (.breakSync, older, parentBlocks)
    else do
      validateTipsetAgainstCache tipset.key parentBlocks
      appendBatch currentHead rest (older ++ [tipset]) (parentBlocks ++ tipset.key.cids)

/-- The `'sync` loop, for at most `fuel` passes: the tipsets after the proposed head, oldest
last, or `none` when the passes run out. -/
def syncLoop (chainStore : TipsetLoader) (network : Network) (proposedHead currentHead : Tipset) :
    Nat → List Tipset → List Cid → SyncM (Option (List Tipset))
  | 0, _, _ => pure none
  | fuel + 1, older, parentBlocks => do
    let oldestParent := (proposedHead :: older).getLast (List.cons_ne_nil _ _)
    validateTipsetAgainstCache oldestParent.parents parentBlocks
    -- the end of the range: the current head's epoch is reached
    if oldestParent.epoch ≤ currentHead.epoch then pure (some older)
    else
      match chainStore oldestParent.parents with
      | .ok tipset =>
        syncLoop chainStore network proposedHead currentHead fuel (older ++ [tipset])
          (parentBlocks ++ tipset.key.cids)
      | .error _ =>
        let window := min (oldestParent.epoch - currentHead.epoch) maxTipsetsToRequest
        let networkTipsets ← chainExchangeHeaders network oldestParent.parents window.toNat
        let (ending, older, parentBlocks) ← appendBatch currentHead networkTipsets older parentBlocks
        match ending with
        | .breakSync => pure (some older)
        | .exhausted => syncLoop chainStore network proposedHead currentHead fuel older parentBlocks

/-- The search for a common ancestor of a fork: walk the fork tipsets from the network and the
local chain from the current head's parents together, and give the fork tipsets up to the one
that meets the local chain (none when the fork tipsets run out first). -/
def forkLoop (chainStore : TipsetLoader) (oldestCids : List Cid) (forkTipsets : List Tipset) :
    List Tipset → Nat → Tipset → Nat → Except TipsetRangeSyncerError (List Tipset)
  | [], _, _, _ => .ok []
  | tipset :: rest, i, potentialCommonAncestor, forkLength =>
    if tipset.epoch = 0 then .error (.forkAtGenesisBlock oldestCids)
    else if potentialCommonAncestor.headers = tipset.headers then .ok (forkTipsets.take (i + 1))
    -- a local tipset below the fork tipset waits for the fork to come down to it
    else if potentialCommonAncestor.epoch < tipset.epoch then
      forkLoop chainStore oldestCids forkTipsets rest (i + 1) potentialCommonAncestor forkLength
    else if forkLength + 1 > forkLengthThreshold then .error .chainForkLengthExceedsMaximum
    else if i = forkTipsets.length - 1 then .error .chainForkLengthExceedsFinalityThreshold
    else
      match chainStore potentialCommonAncestor.parents with
      | .error text => .error (.chainStore text)
      | .ok parent => forkLoop chainStore oldestCids forkTipsets rest (i + 1) parent (forkLength + 1)

/-- `sync_headers_in_reverse`: the tipsets from the proposed head back to the current head, newest
first, with a fork spliced in when the range does not end on the current head's parents. -/
def syncHeadersInReverse (chainStore : TipsetLoader) (network : Network)
    (proposedHead currentHead : Tipset) (fuel : Nat) : SyncM (Option (List Tipset)) := do
  match ← syncLoop chainStore network proposedHead currentHead fuel [] [] with
  | none => pure none
  | some older =>
    let oldestTipset := (proposedHead :: older).getLast (List.cons_ne_nil _ _)
    if oldestTipset.parents ≠ currentHead.parents then
      let forkTipsets ← chainExchangeHeaders network oldestTipset.parents forkLengthThreshold
      let potentialCommonAncestor ←
        liftExcept ((chainStore currentHead.parents).mapError .chainStore)
      let spliced ← liftExcept (forkLoop chainStore oldestTipset.key.cids forkTipsets forkTipsets 0
        potentialCommonAncestor 1)
      pure (some (proposedHead :: older ++ spliced))
    else pure (some (proposedHead :: older))

/-- A tipset is linked to the next older one when that one's key is its parent key. -/
def Linked (newer older : Tipset) : Prop := older.key = newer.parents

instance (newer older : Tipset) : Decidable (Linked newer older) :=
  inferInstanceAs (Decidable (older.key = newer.parents))

/-- No block of the key is in the cache. -/
def Clean (cache : BadBlockCache) (keys : TipsetKeys) : Prop :=
  ∀ cid ∈ keys.cids, cache.get cid = none

/-- The cache check passes exactly on a clean key, and then leaves the state alone. -/
theorem validateTipsetAgainstCache_eq_ok {keys : TipsetKeys} {descendantBlocks : List Cid}
    {state state' : SyncState} {value : Unit} :
    validateTipsetAgainstCache keys descendantBlocks state = .ok value state' ↔
      Clean state.badBlockCache keys ∧ state' = state := by
  unfold validateTipsetAgainstCache
  cases found : keys.cids.findSome? fun cid => (state.badBlockCache.get cid).map (cid, ·) with
  | none =>
    rw [List.findSome?_eq_none_iff] at found
    have clean : Clean state.badBlockCache keys := fun cid listed => by
      simpa using found cid listed
    simp only [EStateM.Result.ok.injEq, clean, true_and]
    exact eq_comm
  | some hit =>
    obtain ⟨hitCid, listed, hitThere⟩ := List.exists_of_findSome?_eq_some found
    simp only [reduceCtorEq, false_iff, not_and]
    intro clean
    simp [clean hitCid listed] at hitThere

@[simp] theorem liftExcept_eq_ok {α : Type} {result : Except TipsetRangeSyncerError α} {value : α}
    {state state' : SyncState} :
    liftExcept result state = .ok value state' ↔ result = .ok value ∧ state' = state := by
  unfold liftExcept
  cases result with
  | ok found =>
    simp only [EStateM.Result.ok.injEq, Except.ok.injEq]
    exact ⟨fun ⟨same, moved⟩ => ⟨same, moved.symm⟩, fun ⟨same, moved⟩ => ⟨same, moved.symm⟩⟩
  | error failure => simp

/-- A request that succeeds got the peers' answer to it. -/
theorem chainExchangeHeaders_eq_ok {network : Network} {tsk : TipsetKeys} {count : Nat}
    {state state' : SyncState} {tipsets : List Tipset}
    (asked : chainExchangeHeaders network tsk count state = .ok tipsets state') :
    network tsk count state.requests = .ok tipsets := by
  unfold chainExchangeHeaders at asked
  split at asked
  · next answered => cases asked; exact answered
  · cases asked

/-- A batch walk appends a prefix of the batch. -/
theorem appendBatch_eq_ok {currentHead : Tipset} :
    ∀ {batch older : List Tipset} {parentBlocks : List Cid} {state state' : SyncState}
      {ending : BatchEnd} {older' : List Tipset} {parentBlocks' : List Cid},
      appendBatch currentHead batch older parentBlocks state =
          .ok (ending, older', parentBlocks') state' →
        ∃ count, older' = older ++ batch.take count
  | [], _, _, _, _, _, _, _, walked => by
    rw [appendBatch, EStateM.pure_apply] at walked
    cases walked
    exact ⟨0, by simp⟩
  | tipset :: rest, older, parentBlocks, state, state', ending, older', parentBlocks', walked => by
    rw [appendBatch] at walked
    split at walked
    · rw [EStateM.pure_apply] at walked
      cases walked
      exact ⟨0, by simp⟩
    · obtain ⟨⟨⟩, checked, -, walkedRest⟩ := EStateM.bind_eq_ok.mp walked
      obtain ⟨count, appended⟩ := appendBatch_eq_ok walkedRest
      exact ⟨count + 1, by rw [appended, List.take_succ_cons, List.append_assoc, List.singleton_append]⟩

/-- The fork search splices a prefix of the fork tipsets. -/
theorem forkLoop_eq_ok {chainStore : TipsetLoader} {oldestCids : List Cid}
    {forkTipsets : List Tipset} :
    ∀ {remaining : List Tipset} {i : Nat} {potentialCommonAncestor : Tipset} {forkLength : Nat}
      {spliced : List Tipset},
      forkLoop chainStore oldestCids forkTipsets remaining i potentialCommonAncestor forkLength =
          .ok spliced →
        ∃ count, spliced = forkTipsets.take count
  | [], _, _, _, _, searched => by
    cases searched
    exact ⟨0, by simp⟩
  | tipset :: rest, i, potentialCommonAncestor, forkLength, spliced, searched => by
    rw [forkLoop] at searched
    -- every branch fails, splices, or searches on
    split at searched
    · cases searched
    split at searched
    · cases searched
      exact ⟨i + 1, rfl⟩
    split at searched
    · exact forkLoop_eq_ok searched
    split at searched
    · cases searched
    split at searched
    · cases searched
    split at searched
    · cases searched
    · exact forkLoop_eq_ok searched

/-! ## A peer chooses the range -/

/-- The sync appends a peer's tipset without comparing its key with the parent key it asked for:
from a proposed head whose parents are in no local store, a reply of one tipset at the current
head's epoch and parents ends the sync with that tipset, whatever its key. -/
theorem syncHeadersInReverse_accepts_unlinked_tipset {chainStore : TipsetLoader}
    {network : Network} {cache : BadBlockCache} {proposedHead currentHead stray : Tipset}
    {fuel : Nat} {text : String} (passes : 2 ≤ fuel)
    (ahead : currentHead.epoch < proposedHead.epoch)
    (notStored : chainStore proposedHead.parents = .error text)
    (replied : network proposedHead.parents
      (min (proposedHead.epoch - currentHead.epoch) maxTipsetsToRequest).toNat 0 = .ok [stray])
    (reached : stray.epoch = currentHead.epoch) (sameParents : stray.parents = currentHead.parents)
    (cleanParents : Clean cache proposedHead.parents) (cleanStray : Clean cache stray.key)
    (cleanStrayParents : Clean cache stray.parents) (unlinked : stray.key ≠ proposedHead.parents) :
    ∃ state', syncHeadersInReverse chainStore network proposedHead currentHead fuel ⟨cache, 0⟩ =
        .ok (some [proposedHead, stray]) state' ∧ ¬ [proposedHead, stray].IsChain Linked := by
  obtain ⟨rest, rfl⟩ : ∃ rest, fuel = rest + 2 := ⟨fuel - 2, by omega⟩
  have checkParents : validateTipsetAgainstCache proposedHead.parents [] ⟨cache, 0⟩ =
      .ok () ⟨cache, 0⟩ := validateTipsetAgainstCache_eq_ok.mpr ⟨cleanParents, rfl⟩
  have asked : chainExchangeHeaders network proposedHead.parents
      (min (proposedHead.epoch - currentHead.epoch) maxTipsetsToRequest).toNat ⟨cache, 0⟩ =
        .ok [stray] ⟨cache, 1⟩ := by
    simp only [chainExchangeHeaders, replied]
  -- the reply's one tipset is at the current head's epoch: it is appended, and the batch ends
  have appended : appendBatch currentHead [stray] [] [] ⟨cache, 1⟩ =
      .ok (.exhausted, [stray], stray.key.cids) ⟨cache, 1⟩ := by
    have checkStray : validateTipsetAgainstCache stray.key [] ⟨cache, 1⟩ = .ok () ⟨cache, 1⟩ :=
      validateTipsetAgainstCache_eq_ok.mpr ⟨cleanStray, rfl⟩
    simp only [appendBatch, reached, lt_self_iff_false, if_false]
    rw [EStateM.bind_apply_of_ok checkStray]
    rfl
  -- the next pass finds the range at the current head's epoch
  have stops : syncLoop chainStore network proposedHead currentHead (rest + 1) [stray]
      stray.key.cids ⟨cache, 1⟩ = .ok (some [stray]) ⟨cache, 1⟩ := by
    have checkStrayParents : validateTipsetAgainstCache stray.parents stray.key.cids ⟨cache, 1⟩ =
        .ok () ⟨cache, 1⟩ := validateTipsetAgainstCache_eq_ok.mpr ⟨cleanStrayParents, rfl⟩
    have last : [proposedHead, stray].getLast (List.cons_ne_nil _ _) = stray := rfl
    simp only [syncLoop, last]
    rw [EStateM.bind_apply_of_ok checkStrayParents]
    simp [reached]
  have synced : syncLoop chainStore network proposedHead currentHead (rest + 2) [] []
      ⟨cache, 0⟩ = .ok (some [stray]) ⟨cache, 1⟩ := by
    simp only [syncLoop, List.getLast_singleton]
    rw [EStateM.bind_apply_of_ok checkParents]
    simp only [not_le.mpr ahead, if_false, notStored]
    rw [EStateM.bind_apply_of_ok asked, EStateM.bind_apply_of_ok appended]
    exact stops
  refine ⟨⟨cache, 1⟩, ?_, fun linked => unlinked (List.isChain_pair (R := Linked) |>.mp linked)⟩
  simp only [syncHeadersInReverse]
  rw [EStateM.bind_apply_of_ok synced]
  simp [sameParents]

/-- A tipset of one header at `epoch` on the parent key `parents`, whose block has the CID of
the single byte `cidByte`. -/
def singleTipset (epoch : Int) (parents : List Cid) (cidByte : UInt8) : Tipset :=
  ⟨[{ exampleHeader 1000 cidByte with epoch := epoch, parents := ⟨parents⟩ }],
    List.cons_ne_nil _ _⟩

/-- A peer that answers every request with one tipset at epoch 0 on the empty parent key. -/
def strayNetwork : Network := fun _ _ _ => .ok [singleTipset 0 [] 9]

/-- Syncing from a head at epoch 2 with parent key `[1]` to a head at epoch 0, with an empty
store, ends with the peer's tipset of key `[9]`. -/
theorem syncHeadersInReverse_accepts_unlinked_tipset_stray :
    ∃ state', syncHeadersInReverse (fun _ => .error "not found") strayNetwork
        (singleTipset 2 [⟨[1]⟩] 3) (singleTipset 0 [] 1) 2 ⟨⟨∅⟩, 0⟩ =
      .ok (some [singleTipset 2 [⟨[1]⟩] 3, singleTipset 0 [] 9]) state' ∧
      ¬ [singleTipset 2 [⟨[1]⟩] 3, singleTipset 0 [] 9].IsChain Linked :=
  syncHeadersInReverse_accepts_unlinked_tipset (le_refl 2) (by decide) rfl rfl rfl rfl
    (fun _ _ => rfl) (fun _ _ => rfl) (fun _ _ => rfl) (by decide)

/-! ## Honest peers give a linked range -/

/-- Tipsets that continue a range whose oldest tipset has the parent key `keys`: the first has
that key, and each is linked to the next. -/
def Continues (keys : TipsetKeys) (tipsets : List Tipset) : Prop :=
  (∀ first ∈ tipsets.head?, first.key = keys) ∧ tipsets.IsChain Linked

/-- A store that gives, for a key, the tipset of that key. -/
def Faithful (chainStore : TipsetLoader) : Prop :=
  ∀ keys tipset, chainStore keys = .ok tipset → tipset.key = keys

/-- Peers that answer a request for a key with tipsets that continue from that key. -/
def Honest (network : Network) : Prop :=
  ∀ keys count index tipsets, network keys count index = .ok tipsets → Continues keys tipsets

theorem Continues.take {keys : TipsetKeys} {tipsets : List Tipset}
    (continues : Continues keys tipsets) (count : Nat) : Continues keys (tipsets.take count) := by
  refine ⟨fun first found => continues.1 first ?_, continues.2.take count⟩
  rw [List.head?_take] at found
  split at found
  · cases found
  · exact found

/-- A linked range extended by tipsets that continue from its oldest tipset stays linked. -/
theorem isChain_append_of_continues {newest : Tipset} {older tipsets : List Tipset}
    (linked : (newest :: older).IsChain Linked)
    (continues : Continues ((newest :: older).getLast (List.cons_ne_nil _ _)).parents tipsets) :
    (newest :: older ++ tipsets).IsChain Linked := by
  show ((newest :: older) ++ tipsets).IsChain Linked
  refine linked.append continues.2 fun last lastFound first firstFound => ?_
  rw [List.getLast?_eq_some_getLast (List.cons_ne_nil _ _), Option.mem_some_iff] at lastFound
  subst lastFound
  exact continues.1 first firstFound

/-- From a linked range, a faithful store and honest peers, the sync loop keeps the range
linked. -/
theorem syncLoop_linked {chainStore : TipsetLoader} {network : Network}
    (faithful : Faithful chainStore) (honest : Honest network) {proposedHead currentHead : Tipset} :
    ∀ {fuel : Nat} {older : List Tipset} {parentBlocks : List Cid} {state state' : SyncState}
      {older' : List Tipset},
      (proposedHead :: older).IsChain Linked →
      syncLoop chainStore network proposedHead currentHead fuel older parentBlocks state =
          .ok (some older') state' →
        (proposedHead :: older').IsChain Linked
  | 0, _, _, _, _, _, _, looped => by
    rw [syncLoop, EStateM.pure_apply] at looped
    cases looped
  | fuel + 1, older, parentBlocks, state, state', older', linked, looped => by
    rw [syncLoop] at looped
    dsimp only at looped
    obtain ⟨⟨⟩, checked, -, looped⟩ := EStateM.bind_eq_ok.mp looped
    split at looped
    · -- the range reached the current head's epoch
      rw [EStateM.pure_apply] at looped
      cases looped
      exact linked
    cases loaded : chainStore ((proposedHead :: older).getLast (List.cons_ne_nil _ _)).parents with
    | ok tipset =>
      -- the parents came from the local store, which gives the tipset of the key
      rw [loaded] at looped
      have continues : Continues _ [tipset] :=
        ⟨fun first found => by cases found; exact faithful _ _ loaded, List.isChain_singleton _⟩
      exact syncLoop_linked faithful honest (isChain_append_of_continues linked continues) looped
    | error text =>
      -- the parents came from a peer, which continues from the requested key
      rw [loaded] at looped
      obtain ⟨reply, asked, requested, looped⟩ := EStateM.bind_eq_ok.mp looped
      obtain ⟨⟨ending, extended, parentBlocks'⟩, walked, appended, looped⟩ :=
        EStateM.bind_eq_ok.mp looped
      have continues := honest _ _ _ _ (chainExchangeHeaders_eq_ok requested)
      obtain ⟨count, prefixed⟩ := appendBatch_eq_ok appended
      have linked' : (proposedHead :: extended).IsChain Linked := by
        rw [prefixed]
        exact isChain_append_of_continues linked (continues.take count)
      cases ending with
      | exhausted => exact syncLoop_linked faithful honest linked' looped
      | breakSync =>
        dsimp only at looped
        rw [EStateM.pure_apply] at looped
        cases looped
        exact linked'

/-- With a faithful store and honest peers, a sync that returns a range returns one that starts
at the proposed head and in which each tipset's key is the parent key of the one before. -/
theorem syncHeadersInReverse_linked_of_honest {chainStore : TipsetLoader} {network : Network}
    (faithful : Faithful chainStore) (honest : Honest network) {proposedHead currentHead : Tipset}
    {fuel : Nat} {state state' : SyncState} {tipsets : List Tipset}
    (synced : syncHeadersInReverse chainStore network proposedHead currentHead fuel state =
      .ok (some tipsets) state') :
    tipsets.head? = some proposedHead ∧ tipsets.IsChain Linked := by
  rw [syncHeadersInReverse] at synced
  obtain ⟨found, afterLoop, looped, synced⟩ := EStateM.bind_eq_ok.mp synced
  cases found with
  | none =>
    dsimp only at synced
    rw [EStateM.pure_apply] at synced
    cases synced
  | some older =>
    have linked := syncLoop_linked faithful honest (List.isChain_singleton proposedHead) looped
    dsimp only at synced
    split at synced
    · -- a fork is spliced in: a prefix of what a peer sent for the oldest parents
      obtain ⟨forkTipsets, asked, requested, synced⟩ := EStateM.bind_eq_ok.mp synced
      obtain ⟨potentialCommonAncestor, loaded, -, synced⟩ := EStateM.bind_eq_ok.mp synced
      obtain ⟨spliced, searched, searchedRan, returned⟩ := EStateM.bind_eq_ok.mp synced
      rw [EStateM.pure_apply] at returned
      cases returned
      obtain ⟨count, taken⟩ := forkLoop_eq_ok (liftExcept_eq_ok.mp searchedRan).1
      have continues := (honest _ _ _ _ (chainExchangeHeaders_eq_ok requested)).take count
      refine ⟨rfl, ?_⟩
      rw [taken]
      exact isChain_append_of_continues linked continues
    · rw [EStateM.pure_apply] at synced
      cases synced
      exact ⟨rfl, linked⟩

/-- A store that holds one tipset, of key `[1]` at epoch 0, under its key. -/
def parentStore : TipsetLoader := fun keys =>
  if keys = (singleTipset 0 [] 1).key then .ok (singleTipset 0 [] 1) else .error "not found"

/-- Peers that answer every request with no tipsets. -/
def silentNetwork : Network := fun _ _ _ => .ok []

/-- Syncing from a head at epoch 1 on the parent key `[1]` to the stored tipset: the store gives
the parent, and the range is the head and its parent, linked. -/
theorem syncHeadersInReverse_linked_of_honest_stored_parent :
    Faithful parentStore ∧ Honest silentNetwork ∧
      ∃ state', syncHeadersInReverse parentStore silentNetwork (singleTipset 1 [⟨[1]⟩] 3)
          (singleTipset 0 [] 1) 2 ⟨⟨∅⟩, 0⟩ =
        .ok (some [singleTipset 1 [⟨[1]⟩] 3, singleTipset 0 [] 1]) state' ∧
      [singleTipset 1 [⟨[1]⟩] 3, singleTipset 0 [] 1].head? = some (singleTipset 1 [⟨[1]⟩] 3) ∧
      [singleTipset 1 [⟨[1]⟩] 3, singleTipset 0 [] 1].IsChain Linked := by
  have faithful : Faithful parentStore := by
    intro keys tipset loaded
    unfold parentStore at loaded
    split at loaded
    · next stored =>
      cases loaded
      exact stored.symm
    · cases loaded
  have honest : Honest silentNetwork := by
    intro keys count index tipsets answered
    cases answered
    exact ⟨fun first found => (nomatch found), List.IsChain.nil⟩
  obtain ⟨state', synced⟩ : ∃ state', syncHeadersInReverse parentStore silentNetwork
      (singleTipset 1 [⟨[1]⟩] 3) (singleTipset 0 [] 1) 2 ⟨⟨∅⟩, 0⟩ =
        .ok (some [singleTipset 1 [⟨[1]⟩] 3, singleTipset 0 [] 1]) state' := ⟨_, rfl⟩
  exact ⟨faithful, honest, state', synced, syncHeadersInReverse_linked_of_honest faithful honest synced⟩

end Forest.ChainSync
