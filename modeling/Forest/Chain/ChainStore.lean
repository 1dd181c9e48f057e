import Forest.Blocks.Tipset
import Forest.Lib.MapM

/-!
# The tipset tracker and the heaviest tipset

`TipsetTracker` records, per epoch, the CIDs of the headers it has seen; `expand` turns a
header into the largest tipset it can form with the tracked headers of its epoch that have
its parents.  `ChainStore::put_tipset` stores a tipset's headers, expands its first header
and makes the result the heaviest tipset when its weight is greater.

`add` only logs when a miner already has a block at the epoch, and `expand` takes every
tracked header of the epoch with the same parents.  Nothing keeps one block per miner:
`Tipset::new` is left to refuse repeated miners, and its `verify_blocks` refuses them only
when the repeated miner is the miner of the first header.

The block store is a map from CIDs to headers; a failed read and a missing block are both
`None`, as `get(..).ok().flatten()` makes them.
-/

namespace Forest.Chain

open Forest.Blocks

/-- Chain error, restricted to the variants these functions raise.  `UndefinedKey` carries the
text of the missing key; the model keeps the key. -/
inductive Error where
  | blockchain (failure : Blocks.Error)
  | undefinedKey (key : Cid)
  | other (message : String)
  deriving DecidableEq, Repr

/-- Tracks blocks by their height for the purpose of forming tipsets. -/
structure TipsetTracker where
  entries : Int → List Cid

/-- A tracker that has seen no header. -/
def TipsetTracker.new : TipsetTracker := ⟨fun _ => []⟩

/-- The block store: the header stored under a CID, if any. -/
abbrev BlockStore := Cid → Option BlockHeader

/-- Adds a block header to the tracker.  A header already tracked is ignored; a second block
of the same miner is only logged. -/
def TipsetTracker.add (tracker : TipsetTracker) (header : BlockHeader) : TipsetTracker :=
  let cids := tracker.entries header.epoch
  if header.cid ∈ cids then tracker
  else ⟨Function.update tracker.entries header.epoch (cids ++ [header.cid])⟩

/-- The loop of `expand` over the tracked CIDs of the epoch: skip the header's own CID, load
every other header and keep it when it has the header's parents. -/
def expandLoop (db : BlockStore) (header : BlockHeader) :
    List Cid → List BlockHeader → Except Error (List BlockHeader)
  | [], headers => .ok headers
  | cid :: rest, headers =>
    if cid = header.cid then expandLoop db header rest headers
    else
      match db cid with
      | none => .error (.other s!"failed to load block ({cid.toBytes}) for tipset expansion")
      | some loaded =>
        expandLoop db header rest
          (if loaded.parents = header.parents then headers ++ [loaded] else headers)

section Expand

variable (blake2b256 : List UInt8 → List UInt8)

/-- Expands the given block header into the largest possible tipset by combining it with
known blocks at the same height with the same parents. -/
def TipsetTracker.expand (db : BlockStore) (tracker : TipsetTracker) (header : BlockHeader) :
    Except Error Tipset := do
  let headers ← expandLoop db header (tracker.entries header.epoch) [header]
  (Tipset.new blake2b256 headers).mapError .blockchain

end Expand

/-! ## What the tracker holds -/

/-- The headers `expand` adds to `header`: every tracked CID but its own, loaded, with the
header's parents. -/
def candidates (db : BlockStore) (header : BlockHeader) (cids : List Cid) : List BlockHeader :=
  cids.filterMap fun cid =>
    if cid = header.cid then none else (db cid).filter fun loaded => loaded.parents = header.parents

/-- When every tracked CID is in the store, the loop appends the candidates. -/
theorem expandLoop_of_stored {db : BlockStore} {header : BlockHeader} :
    ∀ {cids : List Cid} (headers : List BlockHeader),
      (∀ cid ∈ cids, cid ≠ header.cid → (db cid).isSome) →
      expandLoop db header cids headers = .ok (headers ++ candidates db header cids)
  | [], headers, _ => by simp [expandLoop, candidates]
  | cid :: rest, headers, stored => by
    have storedRest : ∀ other ∈ rest, other ≠ header.cid → (db other).isSome :=
      fun other inRest => stored other (List.mem_cons_of_mem cid inRest)
    by_cases own : cid = header.cid
    · simp only [expandLoop, own, if_true, candidates, List.filterMap_cons]
      exact expandLoop_of_stored headers storedRest
    · obtain ⟨loaded, found⟩ := Option.isSome_iff_exists.mp (stored cid List.mem_cons_self own)
      simp only [expandLoop, own, if_false, found]
      rw [expandLoop_of_stored _ storedRest]
      simp only [candidates, List.filterMap_cons, own, if_false, found]
      by_cases sameParents : loaded.parents = header.parents
      · simp [Option.filter_some, sameParents]
      · simp [Option.filter_some, sameParents]

/-- The tracker's invariant: every tracked CID, at every epoch, is the CID of a stored header
of that epoch, and no CID is tracked twice at an epoch. -/
structure Tracked (db : BlockStore) (tracker : TipsetTracker) : Prop where
  stored : ∀ epoch cid, cid ∈ tracker.entries epoch →
    ∃ header, db cid = some header ∧ header.epoch = epoch ∧ header.cid = cid
  distinct : ∀ epoch, (tracker.entries epoch).Nodup

theorem tracked_new (db : BlockStore) : Tracked db TipsetTracker.new :=
  ⟨fun _ _ absent => absurd absent List.not_mem_nil, fun _ => List.nodup_nil⟩

/-- The entries after `add`: the header's CID is appended at its epoch unless it is there. -/
theorem entries_add (tracker : TipsetTracker) (header : BlockHeader) (epoch : Int) :
    (tracker.add header).entries epoch =
      if epoch = header.epoch ∧ header.cid ∉ tracker.entries header.epoch then
        tracker.entries epoch ++ [header.cid]
      else tracker.entries epoch := by
  unfold TipsetTracker.add
  by_cases seen : header.cid ∈ tracker.entries header.epoch
  · simp [seen]
  · by_cases sameEpoch : epoch = header.epoch
    · subst sameEpoch
      simp [seen]
    · simp [seen, sameEpoch]

/-- Adding a stored header keeps the invariant. -/
theorem Tracked.add {db : BlockStore} {tracker : TipsetTracker} (tracked : Tracked db tracker)
    {header : BlockHeader} (stored : db header.cid = some header) :
    Tracked db (tracker.add header) where
  stored epoch cid inEntries := by
    rw [entries_add] at inEntries
    split at inEntries
    · rename_i appended
      rcases List.mem_append.mp inEntries with old | added
      · exact tracked.stored epoch cid old
      · rw [List.mem_singleton] at added
        exact ⟨header, added ▸ stored, appended.1.symm, added.symm⟩
    · exact tracked.stored epoch cid inEntries
  distinct epoch := by
    rw [entries_add]
    split
    · rename_i appended
      obtain ⟨sameEpoch, fresh⟩ := appended
      subst sameEpoch
      exact (tracked.distinct header.epoch).append (List.nodup_singleton _)
        (List.disjoint_singleton.mpr fresh)
    · exact tracked.distinct epoch

/-- A tracker built by adding stored headers to an empty one keeps the invariant. -/
theorem tracked_of_adds {db : BlockStore} {headers : List BlockHeader}
    (stored : ∀ header ∈ headers, db header.cid = some header) :
    Tracked db (headers.foldl TipsetTracker.add TipsetTracker.new) := by
  suffices run : ∀ (tracker : TipsetTracker), Tracked db tracker →
      Tracked db (headers.foldl TipsetTracker.add tracker) from run _ (tracked_new db)
  induction headers with
  | nil => exact fun _ tracked => tracked
  | cons header rest inductionHypothesis =>
    intro tracker tracked
    exact inductionHypothesis (fun other inRest => stored other (List.mem_cons_of_mem _ inRest))
      _ (tracked.add (stored header List.mem_cons_self))

/-- Adding headers of one epoch with new, distinct CIDs appends their CIDs in order. -/
theorem entries_foldl_add {epoch : Int} :
    ∀ {headers : List BlockHeader} (tracker : TipsetTracker),
      (∀ header ∈ headers, header.epoch = epoch) →
      (∀ header ∈ headers, header.cid ∉ tracker.entries epoch) →
      (headers.map BlockHeader.cid).Nodup →
      (headers.foldl TipsetTracker.add tracker).entries epoch =
        tracker.entries epoch ++ headers.map BlockHeader.cid
  | [], tracker, _, _, _ => by simp
  | header :: rest, tracker, sameEpoch, fresh, distinct => by
    rw [List.map_cons, List.nodup_cons] at distinct
    have added : (tracker.add header).entries epoch = tracker.entries epoch ++ [header.cid] := by
      have atEpoch := sameEpoch header List.mem_cons_self
      rw [entries_add, if_pos ⟨atEpoch.symm, atEpoch ▸ fresh header List.mem_cons_self⟩]
    have freshRest : ∀ other ∈ rest, other.cid ∉ (tracker.add header).entries epoch := by
      intro other inRest
      rw [added, List.mem_append, List.mem_singleton, not_or]
      exact ⟨fresh other (List.mem_cons_of_mem _ inRest),
        fun same => distinct.1 (same ▸ List.mem_map_of_mem inRest)⟩
    rw [List.foldl_cons, entries_foldl_add (tracker.add header)
      (fun other inRest => sameEpoch other (List.mem_cons_of_mem _ inRest)) freshRest distinct.2,
      added, List.map_cons, List.append_assoc, List.singleton_append]

/-- A block store holding the given headers. -/
def storeOf (headers : List BlockHeader) : BlockStore :=
  fun cid => headers.find? fun header => header.cid = cid

section Expand

variable {blake2b256 : List UInt8 → List UInt8}

/-- With the invariant, `expand` builds `Tipset::new` of the header and its candidates. -/
theorem expand_of_tracked {db : BlockStore} {tracker : TipsetTracker} (tracked : Tracked db tracker)
    (header : BlockHeader) :
    tracker.expand blake2b256 db header =
      (Tipset.new blake2b256
        (header :: candidates db header (tracker.entries header.epoch))).mapError .blockchain := by
  have stored : ∀ cid ∈ tracker.entries header.epoch, cid ≠ header.cid → (db cid).isSome := by
    intro cid tracked' _
    obtain ⟨loaded, found, -, -⟩ := tracked.stored header.epoch cid tracked'
    simp [found]
  simp only [TipsetTracker.expand, expandLoop_of_stored [header] stored, List.singleton_append]
  rfl

/-- A miner with two blocks at an epoch is not deduplicated: after adding a header and two
compatible blocks of one other miner, `expand` of the header returns a tipset with that miner
twice, and `expand` of the miner's first block fails. -/
theorem expand_keeps_equivocating_miner (db : BlockStore) (header first second : BlockHeader)
    (stored : ∀ block ∈ [header, first, second], db block.cid = some block)
    (compatibleFirst : Compatible header first) (compatibleSecond : Compatible header second)
    (equivocating : second.minerAddress = first.minerAddress)
    (distinctCids : [header.cid, first.cid, second.cid].Nodup) :
    (∃ tipset, ([header, first, second].foldl TipsetTracker.add TipsetTracker.new).expand
          blake2b256 db header = .ok tipset ∧
        tipset.headers.Perm [header, first, second] ∧
        ¬ (tipset.headers.map BlockHeader.minerAddress).Nodup) ∧
      ([header, first, second].foldl TipsetTracker.add TipsetTracker.new).expand
          blake2b256 db first =
        .error (.blockchain (.invalidTipset "miner_addresses are not distinct")) := by
  have tracked := tracked_of_adds stored
  have sameEpochs : ∀ block ∈ [header, first, second], block.epoch = header.epoch := by
    simp [compatibleFirst.epoch, compatibleSecond.epoch]
  have entries : ([header, first, second].foldl TipsetTracker.add TipsetTracker.new).entries
      header.epoch = [header.cid, first.cid, second.cid] :=
    entries_foldl_add TipsetTracker.new sameEpochs (fun _ _ => List.not_mem_nil) distinctCids
  simp only [List.nodup_cons, List.mem_cons, List.not_mem_nil, or_false, not_or] at distinctCids
  obtain ⟨⟨headerFirst, headerSecond⟩, firstSecond, -⟩ := distinctCids
  simp only [List.mem_cons, List.not_mem_nil, or_false, forall_eq_or_imp, forall_eq] at stored
  obtain ⟨storedHeader, storedFirst, storedSecond⟩ := stored
  constructor
  · -- the header collects both blocks of the other miner, and they pass `verify_blocks`
    have collected : candidates db header [header.cid, first.cid, second.cid] = [first, second] := by
      simp [candidates, Option.filter_some, Ne.symm headerFirst, Ne.symm headerSecond, storedFirst,
        storedSecond, compatibleFirst.parents, compatibleSecond.parents]
    have verified : verifyBlocks [header, first, second] = .ok () := by
      refine verifyBlocks_eq_ok.mpr ⟨header, [first, second], rfl, fun block inRest => ?_⟩
      rcases List.mem_pair.mp inRest with rfl | rfl
      · exact compatibleFirst
      · exact compatibleSecond
    rw [expand_of_tracked tracked, entries, collected]
    refine ⟨⟨_, sortByCachedKey_ne_nil (List.cons_ne_nil header [first, second])⟩,
      Except.mapError_eq_ok.mpr (Tipset.new_eq_ok.mpr ⟨verified, rfl⟩),
      List.sortByCachedKey_perm _, fun distinct => ?_⟩
    have minersPerm : ((List.sortByCachedKey (BlockHeader.toSortKey blake2b256)
        [header, first, second]).map BlockHeader.minerAddress).Perm
          ([header, first, second].map BlockHeader.minerAddress) :=
      (List.sortByCachedKey_perm _).map _
    have miners := minersPerm.nodup_iff.mp distinct
    simp [equivocating] at miners
  · -- from the miner's first block, its second block is compared with it and refused
    have collected : candidates db first [header.cid, first.cid, second.cid] = [header, second] := by
      simp [candidates, Option.filter_some, headerFirst, Ne.symm firstSecond, storedHeader,
        storedSecond, compatibleFirst.parents, compatibleSecond.parents]
    have headerPasses : verifyHeader first header = .ok () :=
      verifyHeader_eq_ok.mpr compatibleFirst.swap
    have secondFails : verifyHeader first second =
        .error (.invalidTipset "miner_addresses are not distinct") :=
      verifyHeader_of_same_miner (compatibleSecond.parents.trans compatibleFirst.parents.symm)
        (compatibleSecond.stateRoot.trans compatibleFirst.stateRoot.symm)
        (compatibleSecond.epoch.trans compatibleFirst.epoch.symm) equivocating
    have refused : verifyBlocks [first, header, second] =
        .error (.invalidTipset "miner_addresses are not distinct") := by
      simp only [verifyBlocks, List.forM, headerPasses, secondFails]
      rfl
    rw [expand_of_tracked tracked, compatibleFirst.epoch, entries, collected,
      Tipset.new_eq_error_of_verifyBlocks refused]
    rfl

/-- Two blocks of miner `f01001` beside a block of miner `f01000`, on one parent set. -/
def equivocation : List BlockHeader :=
  [exampleHeader 1000 1, exampleHeader 1001 2, exampleHeader 1001 3]

theorem expand_keeps_equivocating_miner_f01001 :
    (∀ block ∈ equivocation, storeOf equivocation block.cid = some block) ∧
      Compatible (exampleHeader 1000 1) (exampleHeader 1001 2) ∧
      Compatible (exampleHeader 1000 1) (exampleHeader 1001 3) ∧
      (exampleHeader 1001 3).minerAddress = (exampleHeader 1001 2).minerAddress ∧
      (equivocation.map BlockHeader.cid).Nodup ∧
      ((∃ tipset, (equivocation.foldl TipsetTracker.add TipsetTracker.new).expand id
            (storeOf equivocation) (exampleHeader 1000 1) = .ok tipset ∧
          tipset.headers.Perm equivocation ∧
          ¬ (tipset.headers.map BlockHeader.minerAddress).Nodup) ∧
        (equivocation.foldl TipsetTracker.add TipsetTracker.new).expand id
            (storeOf equivocation) (exampleHeader 1001 2) =
          .error (.blockchain (.invalidTipset "miner_addresses are not distinct"))) :=
  have stored : ∀ block ∈ [exampleHeader 1000 1, exampleHeader 1001 2, exampleHeader 1001 3],
      storeOf [exampleHeader 1000 1, exampleHeader 1001 2, exampleHeader 1001 3] block.cid =
        some block := by decide
  have compatibleFirst : Compatible (exampleHeader 1000 1) (exampleHeader 1001 2) :=
    ⟨rfl, rfl, rfl, by decide⟩
  have compatibleSecond : Compatible (exampleHeader 1000 1) (exampleHeader 1001 3) :=
    ⟨rfl, rfl, rfl, by decide⟩
  have distinctCids : [(exampleHeader 1000 1).cid, (exampleHeader 1001 2).cid,
      (exampleHeader 1001 3).cid].Nodup := by decide
  ⟨stored, compatibleFirst, compatibleSecond, rfl, distinctCids,
    @expand_keeps_equivocating_miner id _ _ _ _ stored compatibleFirst compatibleSecond rfl
      distinctCids⟩

end Expand

/-! ## Chain weight and the heaviest tipset -/

/-- `W_RATIO_NUM`. -/
def wRatioNum : Int := 1

/-- `W_RATIO_DEN`. -/
def wRatioDen : Int := 2

/-- `BLOCKS_PER_EPOCH`. -/
def blocksPerEpoch : Int := 5

/-- The error of `weight` when the network has no power. -/
def allPowerGone : String :=
  "All power in the net is gone. You network might be disconnected, or the net is dead!"

/-- The sum of the win counts of the blocks, failing on a block without election proof. -/
def winCountTotal (headers : List BlockHeader) : Except String Int :=
  headers.foldlM (fun total header =>
    match header.electionProof with
    | none => .error "Block contained no election proof when calculating weight"
    | some proof => .ok (total + proof.winCount)) 0

/-- The weight of a tipset: the parent weight, plus `log2` of the network's total power
(`tpow.bits() - 1`) shifted by 8, plus an election part proportional to the wins of all its
blocks.  `totalPower` reads the total quality-adjusted power of the power actor under a state
root. -/
def weight (totalPower : Cid → Except String Int) (tipset : Tipset) : Except String Int := do
  let tpow ← totalPower tipset.parentState
  let log2P ← if tpow > 0 then pure (tpow.toNat.log2 : Int) else .error allPowerGone
  let totalJ ← winCountTotal tipset.headers
  let out := tipset.weight + log2P * 2 ^ 8
  -- `div_floor` by a positive number is Euclidean division
  let eWeight := log2P * wRatioNum * 2 ^ 8 * totalJ / (blocksPerEpoch * wRatioDen)
  pure (out + eWeight)

/-- The chain store parts `put_tipset` reads and writes. -/
structure ChainStore where
  db : BlockStore
  tracker : TipsetTracker
  heaviest : Option Tipset

section PutTipset

variable (blake2b256 : List UInt8 → List UInt8) (totalPower : Cid → Except String Int)

/-- Determines if provided tipset is heavier than existing known heaviest tipset. -/
def ChainStore.updateHeaviest (store : ChainStore) (tipset : Tipset) : Except Error ChainStore :=
  match store.heaviest with
  | some heaviest => do
    let newWeight ← (weight totalPower tipset).mapError .other
    let currWeight ← (weight totalPower heaviest).mapError .other
    if newWeight > currWeight then pure { store with heaviest := some tipset } else pure store
  | none => pure { store with heaviest := some tipset }

/-- Writes the headers to the block store. -/
def persistObjects (db : BlockStore) (headers : List BlockHeader) : BlockStore :=
  headers.foldl (fun db header => Function.update db header.cid (some header)) db

/-- Writes tipset block headers to data store and updates heaviest tipset with other
compatible tracked headers. -/
def ChainStore.putTipset (store : ChainStore) (tipset : Tipset) : Except Error ChainStore := do
  let db := persistObjects store.db tipset.headers
  let expanded ← store.tracker.expand blake2b256 db tipset.minTicketBlock
  { store with db }.updateHeaviest totalPower expanded

end PutTipset

/-- `put_tipset` fails whenever the expansion of its first header fails. -/
theorem ChainStore.putTipset_of_expand_error {blake2b256 : List UInt8 → List UInt8}
    {totalPower : Cid → Except String Int} {store : ChainStore} {tipset : Tipset}
    {failure : Error}
    (failed : store.tracker.expand blake2b256 (persistObjects store.db tipset.headers)
      tipset.minTicketBlock = .error failure) :
    store.putTipset blake2b256 totalPower tipset = .error failure := by
  simp only [ChainStore.putTipset, failed]
  rfl

/-! ## The messages of a tipset for the VM -/

open Forest.Message

/-! ### Reading a block's messages

A header names its messages by one CID, the root of a `TxMeta`; `read_msg_cids` loads it and
the two AMTs of message CIDs it points to.  The model takes that read as given and keeps the
loading of the messages themselves. -/

/-- The reads of the block store that loading messages makes: `read_msg_cids` of a message root,
and the typed `get` of a stored message, which fails when the stored bytes do not decode. -/
structure MessageStore where
  readMsgCids : Cid → Except Error (List Cid × List Cid)
  getUnsigned : Cid → Except String (Option UnsignedMessage)
  getSigned : Cid → Except String (Option SignedMessage)

/-- `messages_from_cids`: the message stored under each key, in order. -/
def messagesFromCids {T : Type} (get : Cid → Except String (Option T)) (keys : List Cid) :
    Except Error (List T) :=
  keys.mapM fun key =>
    match get key with
    | .error e => .error (.other e)
    | .ok none => .error (.undefinedKey key)
    | .ok (some message) => .ok message

/-- `block_messages_from_cids`: the BLS messages, then the secp messages, of two lists of CIDs. -/
def blockMessagesFromCids (db : MessageStore) (blsCids secpCids : List Cid) :
    Except Error (List UnsignedMessage × List SignedMessage) := do
  let blsMsgs ← messagesFromCids db.getUnsigned blsCids
  let secpMsgs ← messagesFromCids db.getSigned secpCids
  return (blsMsgs, secpMsgs)

/-- `block_messages`: the messages of a block, read through its message root. -/
def blockMessages (db : MessageStore) (bh : BlockHeader) :
    Except Error (List UnsignedMessage × List SignedMessage) := do
  let (blsCids, secpkCids) ← db.readMsgCids bh.messages
  let blsMsgs ← messagesFromCids db.getUnsigned blsCids
  let secpMsgs ← messagesFromCids db.getSigned secpkCids
  return (blsMsgs, secpMsgs)

/-- The blocks `fill_tipset` builds: each header of the tipset with the messages
`block_messages` reads for it. -/
def fillBlocks (db : MessageStore) (ts : Tipset) : Except Error (List Block) :=
  ts.headers.mapM fun header => do
    let (blsMessages, secpMessages) ← blockMessages db header
    return ⟨header, blsMessages, secpMessages⟩

/-- `ChainStore::fill_tipset`: `None` when a block's messages cannot be read; otherwise
`FullTipset::new` of the blocks, whose `Err` is where its `unwrap` panics. -/
def fillTipset (blake2b256 : List UInt8 → List UInt8) (db : MessageStore) (ts : Tipset) :
    Option (Except Blocks.Error FullTipset) :=
  match fillBlocks db ts with
  | .error _ => none
  | .ok blocks => some (FullTipset.new blake2b256 blocks)

/-- The messages of a list of CIDs are read exactly when each CID's message is stored. -/
theorem messagesFromCids_eq_ok {T : Type} {get : Cid → Except String (Option T)}
    {keys : List Cid} {messages : List T} :
    messagesFromCids get keys = .ok messages ↔
      keys.map get = messages.map fun message => .ok (some message) := by
  rw [messagesFromCids, List.mapM_except_eq_ok_iff]
  refine List.map_eq_map_congr fun key message => ?_
  cases get key with
  | error e => simp
  | ok stored => cases stored <;> simp

/-- The messages of a list of CIDs whose every message is stored are read. -/
theorem messagesFromCids_exists_ok {T : Type} {get : Cid → Except String (Option T)}
    {keys : List Cid} (stored : ∀ key ∈ keys, ∃ message, get key = .ok (some message)) :
    ∃ messages, messagesFromCids get keys = .ok messages := by
  apply List.exists_mapM_eq_ok
  intro key member
  obtain ⟨message, found⟩ := stored key member
  exact ⟨message, by simp [found]⟩

/-- Every CID of a list whose messages were read has its message stored. -/
theorem stored_of_messagesFromCids {T : Type} {get : Cid → Except String (Option T)}
    {keys : List Cid} {messages : List T} (read : messagesFromCids get keys = .ok messages)
    {key : Cid} (member : key ∈ keys) : ∃ message, get key = .ok (some message) := by
  have listed : get key ∈ messages.map fun message => .ok (some message) :=
    messagesFromCids_eq_ok.mp read ▸ List.mem_map_of_mem member
  obtain ⟨message, -, found⟩ := List.mem_map.mp listed
  exact ⟨message, found.symm⟩

/-- A content-addressed store holds each message under one CID only, so the messages of distinct
CIDs are distinct. -/
theorem nodup_of_messagesFromCids {T : Type} {get : Cid → Except String (Option T)}
    {keys : List Cid} {messages : List T}
    (addressed : ∀ key key' message, get key = .ok (some message) →
      get key' = .ok (some message) → key = key')
    (distinct : keys.Nodup) (read : messagesFromCids get keys = .ok messages) : messages.Nodup := by
  have mapped := messagesFromCids_eq_ok.mp read
  have readDistinct : (keys.map get).Nodup := by
    refine distinct.map_on fun key member key' member' same => ?_
    obtain ⟨message, found⟩ := stored_of_messagesFromCids read member
    exact addressed key key' message found (same ▸ found)
  rw [mapped] at readDistinct
  exact readDistinct.of_map _

/-- Reading a block's messages is reading its two CID lists and then the messages of both. -/
theorem blockMessages_eq (db : MessageStore) (bh : BlockHeader) :
    blockMessages db bh = (do
      let (blsCids, secpCids) ← db.readMsgCids bh.messages
      blockMessagesFromCids db blsCids secpCids) := by
  simp only [blockMessages, blockMessagesFromCids]

/-- A block's messages are read exactly when its two CID lists are and the messages of both
are stored. -/
theorem blockMessages_eq_ok {db : MessageStore} {bh : BlockHeader} {blsMsgs : List UnsignedMessage}
    {secpMsgs : List SignedMessage} :
    blockMessages db bh = .ok (blsMsgs, secpMsgs) ↔
      ∃ blsCids secpCids, db.readMsgCids bh.messages = .ok (blsCids, secpCids) ∧
        messagesFromCids db.getUnsigned blsCids = .ok blsMsgs ∧
        messagesFromCids db.getSigned secpCids = .ok secpMsgs := by
  simp only [blockMessages, Except.bind_eq_ok, pure, Except.pure, Except.ok.injEq, Prod.mk.injEq]
  constructor
  · rintro ⟨⟨blsCids, secpCids⟩, read, bls, blsRead, secp, secpRead, rfl, rfl⟩
    exact ⟨blsCids, secpCids, read, blsRead, secpRead⟩
  · rintro ⟨blsCids, secpCids, read, blsRead, secpRead⟩
    exact ⟨(blsCids, secpCids), read, blsMsgs, blsRead, secpMsgs, secpRead, rfl, rfl⟩

/-- The blocks `fill_tipset` builds are the tipset's headers, each with the messages stored for
it. -/
theorem fillBlocks_eq_ok {db : MessageStore} {ts : Tipset} {blocks : List Block} :
    fillBlocks db ts = .ok blocks ↔
      List.Forall₂ (fun header block => block.header = header ∧
        blockMessages db header = .ok (block.blsMessages, block.secpMessages))
        ts.headers blocks := by
  constructor
  · intro filled
    refine (List.forall₂_of_mapM_except filled).imp fun header block built => ?_
    obtain ⟨⟨blsMessages, secpMessages⟩, read, returned⟩ := Except.bind_eq_ok.mp built
    cases returned
    exact ⟨rfl, read⟩
  · intro related
    apply List.mapM_eq_ok_of_forall₂
    refine related.imp fun header block ⟨sameHeader, read⟩ => ?_
    subst sameHeader
    simp only [read]
    rfl

/-! ### The messages the VM applies -/

/-- `BlockMessages`: a block's miner, the messages the VM applies for it and its win count. -/
structure BlockMessages where
  miner : Address
  messages : List ChainMessage
  winCount : Int
  deriving DecidableEq, Repr

/-- The map of `block_msgs_for_tipset`: the next nonce of each sender, by the address the
message names. -/
abbrev AppliedNonces := Address → Option Nat

/-- The `select_msg` closure: the first message of a sender sets its entry to its own nonce; a
message is kept when its nonce is the entry, which then moves past it. -/
def selectMsg (applied : AppliedNonces) (m : ChainMessage) : Option ChainMessage × AppliedNonces :=
  let entry := (applied m.message.sender).getD m.message.sequence
  if entry ≠ m.message.sequence then (none, Function.update applied m.message.sender (some entry))
  else (some m, Function.update applied m.message.sender (some (entry + 1)))

/-- `filter_map` of `select_msg` over a list of messages. -/
def selectMessages : AppliedNonces → List ChainMessage → List ChainMessage × AppliedNonces
  | applied, [] => ([], applied)
  | applied, m :: rest =>
    let (kept, applied) := selectMsg applied m
    let (others, applied) := selectMessages applied rest
    (kept.toList ++ others, applied)

/-- The loop of `block_msgs_for_tipset` over the blocks, in tipset order: each block's BLS
messages, then its secp messages, filtered with one map for the whole tipset. -/
def blockMsgsLoop
    (blockMessages : BlockHeader → Except Error (List UnsignedMessage × List SignedMessage)) :
    AppliedNonces → List BlockHeader → Except Error (List BlockMessages)
  | _, [] => .ok []
  | applied, header :: rest => do
    let (usm, sm) ← blockMessages header
    let (messages, applied) := selectMessages applied (usm.map .unsigned ++ sm.map .signed)
    let others ← blockMsgsLoop blockMessages applied rest
    return ⟨header.minerAddress, messages, (header.electionProof.map ElectionProof.winCount).getD 0⟩ ::
      others

/-- A message whose sender the map has not seen is kept, and the sender's entry moves past its
nonce. -/
theorem selectMsg_of_unseen {applied : AppliedNonces} {m : ChainMessage}
    (unseen : applied m.message.sender = none) :
    selectMsg applied m =
      (some m, Function.update applied m.message.sender (some (m.message.sequence + 1))) := by
  simp [selectMsg, unseen]

/-- `ChainStore::block_msgs_for_tipset`, with `blockMessages` the store's `block_messages`. -/
def blockMsgsForTipset
    (blockMessages : BlockHeader → Except Error (List UnsignedMessage × List SignedMessage))
    (tipset : Tipset) : Except Error (List BlockMessages) :=
  blockMsgsLoop blockMessages (fun _ => none) tipset.headers

/-! ## The messages of a tipset for gas estimation

`messages_for_tipset` is meant to keep, like `block_msgs_for_tipset`, the messages in nonce
order from each sender's actor in the parent state, and also to drop those the sender can no
longer pay for.  It fills its two maps from the state only when the sender is already in them,
which it never is: no message is ever kept. -/

/-- The fields of an actor's state that `messages_for_tipset` reads. -/
structure ActorState where
  sequence : Nat
  balance : Int
  deriving DecidableEq, Repr

/-- The maps of `messages_for_tipset`: each sender's next nonce and remaining balance. -/
structure TipsetSelection where
  applied : Address → Option Nat
  balances : Address → Option Int

/-- Both maps empty, as `messages_for_tipset` starts. -/
def TipsetSelection.empty : TipsetSelection := ⟨fun _ => none, fun _ => none⟩

/-- The body of the loop of `get_message_for_block_header` for one message: the kept message,
if any, and the maps after it.  `getActor` is `get_actor` on the parent state. -/
def selectForTipset (getActor : Address → Except String (Option ActorState))
    (selection : TipsetSelection) (message : ChainMessage) :
    Except Error (Option ChainMessage × TipsetSelection) := do
  let fromAddress := message.message.sender
  let selection ←
    if (selection.applied fromAddress).isSome then do
      let actorState ← (getActor fromAddress).mapError Error.other
      let some actorState := actorState | throw (.other "Actor state not found")
      pure ⟨Function.update selection.applied fromAddress (some actorState.sequence),
        Function.update selection.balances fromAddress (some actorState.balance)⟩
    else pure selection
  let some seq := selection.applied fromAddress | return (none, selection)
  if seq ≠ message.message.sequence then
    return (none, selection)
  let selection := { selection with
    applied := Function.update selection.applied fromAddress (some (seq + 1)) }
  let some bal := selection.balances fromAddress | return (none, selection)
  if bal < message.message.requiredFunds then
    return (none, selection)
  return (some message, { selection with
    balances := Function.update selection.balances fromAddress
      (some (bal - message.message.requiredFunds)) })

/-- The loop of `get_message_for_block_header` over a block's messages. -/
def selectAllForTipset (getActor : Address → Except String (Option ActorState)) :
    TipsetSelection → List ChainMessage → Except Error (List ChainMessage × TipsetSelection)
  | selection, [] => .ok ([], selection)
  | selection, message :: rest => do
    let (kept, selection) ← selectForTipset getActor selection message
    let (others, selection) ← selectAllForTipset getActor selection rest
    return (kept.toList ++ others, selection)

/-- The fold of `messages_for_tipset` over the blocks, with the maps shared by all of them. -/
def messagesForBlocks (getActor : Address → Except String (Option ActorState))
    (blockMessages : BlockHeader → Except Error (List UnsignedMessage × List SignedMessage)) :
    TipsetSelection → List BlockHeader → Except Error (List ChainMessage)
  | _, [] => .ok []
  | selection, header :: rest => do
    let (unsigned, signed) ← blockMessages header
    let (messages, selection) ←
      selectAllForTipset getActor selection (unsigned.map .unsigned ++ signed.map .signed)
    let others ← messagesForBlocks getActor blockMessages selection rest
    return messages ++ others

/-- `messages_for_tipset`, with `newFromRoot` loading the state tree at a root
(`StateTree::new_from_root`) and `blockMessages` the store's `block_messages`. -/
def messagesForTipset
    (newFromRoot : Cid → Except String (Address → Except String (Option ActorState)))
    (blockMessages : BlockHeader → Except Error (List UnsignedMessage × List SignedMessage))
    (tipset : Tipset) : Except Error (List ChainMessage) := do
  let getActor ← (newFromRoot tipset.parentState).mapError Error.other
  messagesForBlocks getActor blockMessages TipsetSelection.empty tipset.headers

/-- With no sender in its maps, the loop body skips the message and leaves the maps empty. -/
theorem selectForTipset_empty (getActor : Address → Except String (Option ActorState))
    (message : ChainMessage) :
    selectForTipset getActor TipsetSelection.empty message = .ok (none, TipsetSelection.empty) := by
  simp [selectForTipset, TipsetSelection.empty, pure, Except.pure, bind, Except.bind]

theorem selectAllForTipset_empty (getActor : Address → Except String (Option ActorState))
    (messages : List ChainMessage) :
    selectAllForTipset getActor TipsetSelection.empty messages =
      .ok ([], TipsetSelection.empty) := by
  induction messages with
  | nil => rfl
  | cons message rest inductionHypothesis =>
    simp [selectAllForTipset, selectForTipset_empty, inductionHypothesis, bind, Except.bind,
      pure, Except.pure]

/-- Whatever the messages of the tipset and the state of their senders, once the parent state
and the blocks' messages load, `messages_for_tipset` returns no message: its maps start empty and
are filled only for senders already in them. -/
theorem messages_for_tipset_always_empty
    (newFromRoot : Cid → Except String (Address → Except String (Option ActorState)))
    (blockMessages : BlockHeader → Except Error (List UnsignedMessage × List SignedMessage))
    (tipset : Tipset) (getActor : Address → Except String (Option ActorState))
    (blsOf : BlockHeader → List UnsignedMessage) (secpOf : BlockHeader → List SignedMessage)
    (loaded : newFromRoot tipset.parentState = .ok getActor)
    (loads : ∀ header ∈ tipset.headers, blockMessages header = .ok (blsOf header, secpOf header)) :
    messagesForTipset newFromRoot blockMessages tipset = .ok [] := by
  -- the maps stay empty block after block
  have blocks : ∀ headers : List BlockHeader, (∀ header ∈ headers,
      blockMessages header = .ok (blsOf header, secpOf header)) →
      messagesForBlocks getActor blockMessages TipsetSelection.empty headers = .ok [] := by
    intro headers
    induction headers with
    | nil => intro _; rfl
    | cons header rest inductionHypothesis =>
      intro headersLoad
      have restLoad := fun later member => headersLoad later (List.mem_cons_of_mem header member)
      simp [messagesForBlocks, headersLoad header List.mem_cons_self, selectAllForTipset_empty,
        inductionHypothesis restLoad, bind, Except.bind, pure, Except.pure]
  simp [messagesForTipset, loaded, Except.mapError, bind, Except.bind, blocks tipset.headers loads]

/-- A sender of the example block: ID address 100. -/
def exampleSender : Address := .id 100

/-- The one message of the example block: nonce 0 from `exampleSender`, needing 10. -/
def exampleMessage : UnsignedMessage :=
  ⟨0, exampleSender, .id 101, 0, 0, 0, 10, 1, 1, 0⟩

/-- The example tipset: one block, mined by `f01000`. -/
def exampleTipset : Tipset := ⟨[exampleHeader 1000 1], List.cons_ne_nil _ _⟩

/-- A block of one message, from a sender at nonce 0 with a balance of 100: `block_msgs_for_tipset`
passes the message to the VM, while `messages_for_tipset` returns nothing. -/
theorem messages_for_tipset_always_empty_one_message :
    messagesForTipset (fun _ => .ok fun _ => .ok (some ⟨0, 100⟩))
        (fun _ => .ok ([exampleMessage], [])) exampleTipset = .ok [] ∧
      blockMsgsForTipset (fun _ => .ok ([exampleMessage], [])) exampleTipset =
        .ok [⟨.id 1000, [.unsigned exampleMessage], 1⟩] :=
  ⟨messages_for_tipset_always_empty _ _ exampleTipset (fun _ => .ok (some ⟨0, 100⟩))
    (fun _ => [exampleMessage]) (fun _ => []) rfl (fun _ _ => rfl), rfl⟩

end Forest.Chain
