import Forest.Chain.ChainStore
import Forest.Lib.FirstOccurrence

/-!
# Compacted messages of the chain exchange

A chain-exchange server sends the messages of a tipset compacted: every distinct message once,
in `bls_msgs` and `secp_msgs`, and for each block the positions of its messages in those lists
(`compact_messages`).  The client rebuilds the blocks from the positions and hands them to
`FullTipset::new` (`fts_from_bundle_parts`), checking the lengths and positions the peer sent.

The server numbers the CIDs of each kind by first occurrence, with one map shared by all the
blocks: its loop is `FirstOccurrence.numberLists` over the blocks' CID lists, BLS and secp
apart.  So each position it sends picks the block's CID out of the combined list, the combined
list is the first occurrences of all the CIDs, and reading the combined list once and picking
by position gives each block the messages the store holds for it.  The client builds the same
blocks as `fill_tipset` does from the store.

`FullTipset::new` then checks the headers again, in the tipset's order.  `Tipset::new` checked
them before sorting, against the first header only, so a tipset whose sorted first header
shares its miner with a later header passes `Tipset::new` and is refused here; `fill_tipset`
unwraps the same refusal.
-/

namespace Forest.ChainExchange

open Forest.Blocks Forest.Chain Forest.Message FirstOccurrence

/-- `CompactedMessages`: the messages of a tipset, each once, and for every block the indexes of
its BLS and secp messages in those lists. -/
structure CompactedMessages where
  blsMsgs : List UnsignedMessage
  blsMsgIncludes : List (List Nat)
  secpMsgs : List SignedMessage
  secpMsgIncludes : List (List Nat)
  deriving DecidableEq, Repr

/-- How a call of the client ends when it returns no value: an `Err` with its text, or a
panic. -/
inductive Failure where
  | error (message : String)
  | panic (message : String)
  deriving DecidableEq, Repr

/-! ## compact_messages -/

/-- The variables of `compact_messages` that its loop over the blocks updates. -/
structure Compaction where
  blsMessagesOrder : Cid → Option Nat
  secpMessagesOrder : Cid → Option Nat
  blsCidsCombined : List Cid
  secpCidsCombined : List Cid
  blsMsgIncludes : List (List Nat)
  secpMsgIncludes : List (List Nat)

/-- The variables before the loop: empty maps and lists. -/
def Compaction.empty : Compaction := ⟨fun _ => none, fun _ => none, [], [], [], []⟩

/-- The loop of `compact_messages` over the blocks.  The inner loop over one block's CIDs is
`numberItems`, the same for BLS and secp, each kind with its own map and combined list. -/
def compactLoop (db : MessageStore) (state : Compaction) :
    List BlockHeader → Except Chain.Error Compaction
  | [] => .ok state
  | blockHeader :: rest => do
    let (blsCids, secpCids) ← db.readMsgCids blockHeader.messages
    let (blsInclude, blsMessagesOrder, blsCidsCombined) :=
      numberItems state.blsMessagesOrder state.blsCidsCombined blsCids
    let (secpInclude, secpMessagesOrder, secpCidsCombined) :=
      numberItems state.secpMessagesOrder state.secpCidsCombined secpCids
    compactLoop db ⟨blsMessagesOrder, secpMessagesOrder, blsCidsCombined, secpCidsCombined,
      state.blsMsgIncludes ++ [blsInclude], state.secpMsgIncludes ++ [secpInclude]⟩ rest

/-- `compact_messages`: number the CIDs of every block, then read the combined lists once. -/
def compactMessages (db : MessageStore) (tipset : Tipset) :
    Except Chain.Error CompactedMessages := do
  let state ← compactLoop db Compaction.empty tipset.headers
  let (blsMsgs, secpMsgs) ←
    blockMessagesFromCids db state.blsCidsCombined state.secpCidsCombined
  return ⟨blsMsgs, state.blsMsgIncludes, secpMsgs, state.secpMsgIncludes⟩

/-- When every block's CID lists are read, the loop numbers the BLS CIDs of all the blocks with
one map and list, and the secp CIDs with another. -/
theorem compactLoop_eq {db : MessageStore} :
    ∀ {headers : List BlockHeader} {cidLists : List (List Cid × List Cid)} (state : Compaction)
      {blsIncludes secpIncludes : List (List Nat)} {blsOrder secpOrder : Cid → Option Nat}
      {blsCombined secpCombined : List Cid},
      headers.map (fun header => db.readMsgCids header.messages) = cidLists.map .ok →
      numberLists state.blsMessagesOrder state.blsCidsCombined (cidLists.map Prod.fst) =
        (blsIncludes, blsOrder, blsCombined) →
      numberLists state.secpMessagesOrder state.secpCidsCombined (cidLists.map Prod.snd) =
        (secpIncludes, secpOrder, secpCombined) →
      compactLoop db state headers = .ok ⟨blsOrder, secpOrder, blsCombined, secpCombined,
        state.blsMsgIncludes ++ blsIncludes, state.secpMsgIncludes ++ secpIncludes⟩
  | [], [], state, _, _, _, _, _, _, _, blsRan, secpRan => by
    simp only [List.map_nil, numberLists, Prod.mk.injEq] at blsRan secpRan
    obtain ⟨rfl, rfl, rfl⟩ := blsRan
    obtain ⟨rfl, rfl, rfl⟩ := secpRan
    simp [compactLoop]
  | [], _ :: _, _, _, _, _, _, _, _, read, _, _ => by simp at read
  | _ :: _, [], _, _, _, _, _, _, _, read, _, _ => by simp at read
  | header :: rest, (blsCids, secpCids) :: cidLists, state, _, _, _, _, _, _, read, blsRan,
      secpRan => by
    simp only [List.map_cons, List.cons.injEq] at read
    obtain ⟨headerRead, restRead⟩ := read
    rcases blsStep : numberItems state.blsMessagesOrder state.blsCidsCombined blsCids with
      ⟨blsInclude, blsOrder₁, blsCombined₁⟩
    rcases secpStep : numberItems state.secpMessagesOrder state.secpCidsCombined secpCids with
      ⟨secpInclude, secpOrder₁, secpCombined₁⟩
    rcases blsRest : numberLists blsOrder₁ blsCombined₁ (cidLists.map Prod.fst) with
      ⟨blsOthers, blsOrder₂, blsCombined₂⟩
    rcases secpRest : numberLists secpOrder₁ secpCombined₁ (cidLists.map Prod.snd) with
      ⟨secpOthers, secpOrder₂, secpCombined₂⟩
    simp only [List.map_cons, numberLists, blsStep, blsRest, Prod.mk.injEq] at blsRan
    simp only [List.map_cons, numberLists, secpStep, secpRest, Prod.mk.injEq] at secpRan
    obtain ⟨rfl, rfl, rfl⟩ := blsRan
    obtain ⟨rfl, rfl, rfl⟩ := secpRan
    rw [compactLoop, headerRead]
    simp only [bind, Except.bind, blsStep, secpStep]
    rw [compactLoop_eq ⟨blsOrder₁, secpOrder₁, blsCombined₁, secpCombined₁,
      state.blsMsgIncludes ++ [blsInclude], state.secpMsgIncludes ++ [secpInclude]⟩ restRead
      blsRest secpRest]
    simp

/-- The CIDs of one kind of all the blocks, each once, in order of first occurrence: what
`compact_messages` combines them into. -/
def firstCids (cidLists : List (List Cid)) : List Cid :=
  firstByKey id [] cidLists.flatten

/-- The first occurrences of CIDs whose messages are all stored have their messages read. -/
theorem firstCids_read {T : Type} {get : Cid → Except String (Option T)}
    {cidLists : List (List Cid)}
    (stored : ∀ cids ∈ cidLists, ∀ key ∈ cids, ∃ message, get key = .ok (some message)) :
    ∃ messages, messagesFromCids get (firstCids cidLists) = .ok messages := by
  apply messagesFromCids_exists_ok
  intro key member
  have inAll : key ∈ cidLists.flatten := (firstByKey_sublist [] _).subset member
  obtain ⟨cids, listed, inCids⟩ := List.mem_flatten.mp inAll
  exact stored cids listed key inCids

/-- The combined list holds each CID once. -/
theorem nodup_firstCids (cidLists : List (List Cid)) : (firstCids cidLists).Nodup := by
  simpa [firstCids] using (@nodup_keys_firstByKey _ _ _ id [] cidLists.flatten).1

/-- What `compact_messages` sends when every block's CID lists are read and their messages
stored: the messages of the first occurrences of each kind of CID, and for each block the
positions of its CIDs among those first occurrences. -/
theorem compactMessages_spec {db : MessageStore} {tipset : Tipset}
    {cidLists : List (List Cid × List Cid)}
    (read : tipset.headers.map (fun header => db.readMsgCids header.messages) = cidLists.map .ok)
    (blsStored : ∀ cids ∈ cidLists.map Prod.fst, ∀ key ∈ cids,
      ∃ message, db.getUnsigned key = .ok (some message))
    (secpStored : ∀ cids ∈ cidLists.map Prod.snd, ∀ key ∈ cids,
      ∃ message, db.getSigned key = .ok (some message)) :
    ∃ compacted, compactMessages db tipset = .ok compacted ∧
      messagesFromCids db.getUnsigned (firstCids (cidLists.map Prod.fst)) =
        .ok compacted.blsMsgs ∧
      messagesFromCids db.getSigned (firstCids (cidLists.map Prod.snd)) =
        .ok compacted.secpMsgs ∧
      List.Forall₂ (fun numbers cids =>
          numbers.map ((firstCids (cidLists.map Prod.fst))[·]?) = cids.map some)
        compacted.blsMsgIncludes (cidLists.map Prod.fst) ∧
      List.Forall₂ (fun numbers cids =>
          numbers.map ((firstCids (cidLists.map Prod.snd))[·]?) = cids.map some)
        compacted.secpMsgIncludes (cidLists.map Prod.snd) := by
  rcases blsRun : numberLists (fun _ => none) [] (cidLists.map Prod.fst) with
    ⟨blsIncludes, blsOrder, blsCombined⟩
  rcases secpRun : numberLists (fun _ => none) [] (cidLists.map Prod.snd) with
    ⟨secpIncludes, secpOrder, secpCombined⟩
  obtain ⟨-, blsGrown, blsPicks⟩ := numberLists_spec NumberedBy.empty blsRun
  obtain ⟨-, secpGrown, secpPicks⟩ := numberLists_spec NumberedBy.empty secpRun
  rw [List.nil_append, ← firstCids] at blsGrown secpGrown
  subst blsGrown secpGrown
  have looped := compactLoop_eq Compaction.empty read blsRun secpRun
  obtain ⟨blsMsgs, blsRead⟩ := firstCids_read blsStored
  obtain ⟨secpMsgs, secpRead⟩ := firstCids_read secpStored
  refine ⟨⟨blsMsgs, blsIncludes, secpMsgs, secpIncludes⟩, ?_, blsRead, secpRead, blsPicks,
    secpPicks⟩
  rw [compactMessages, looped]
  simp [Compaction.empty, blockMessagesFromCids, blsRead, secpRead, bind, Except.bind, pure,
    Except.pure]

/-- `compact_messages` of a tipset whose blocks' messages are all stored: the CID lists read
from the blocks' message roots, numbered as `compactMessages_spec` says. -/
theorem compactMessages_of_stored {db : MessageStore} {tipset : Tipset}
    (stored : ∀ header ∈ tipset.headers, ∃ blsMessages secpMessages,
      blockMessages db header = .ok (blsMessages, secpMessages)) :
    ∃ (cidLists : List (List Cid × List Cid)) (compacted : CompactedMessages),
      tipset.headers.map (fun header => db.readMsgCids header.messages) = cidLists.map .ok ∧
      compactMessages db tipset = .ok compacted ∧
      messagesFromCids db.getUnsigned (firstCids (cidLists.map Prod.fst)) =
        .ok compacted.blsMsgs ∧
      messagesFromCids db.getSigned (firstCids (cidLists.map Prod.snd)) =
        .ok compacted.secpMsgs ∧
      List.Forall₂ (fun numbers cids =>
          numbers.map ((firstCids (cidLists.map Prod.fst))[·]?) = cids.map some)
        compacted.blsMsgIncludes (cidLists.map Prod.fst) ∧
      List.Forall₂ (fun numbers cids =>
          numbers.map ((firstCids (cidLists.map Prod.snd))[·]?) = cids.map some)
        compacted.secpMsgIncludes (cidLists.map Prod.snd) := by
  -- the CID lists of the blocks, each read from a header
  obtain ⟨cidLists, readAll⟩ : ∃ cidLists,
      tipset.headers.mapM (fun header => db.readMsgCids header.messages) = .ok cidLists := by
    refine List.exists_mapM_eq_ok fun header member => ?_
    obtain ⟨_, _, messagesRead⟩ := stored header member
    obtain ⟨blsCids, secpCids, cidsRead, -, -⟩ := blockMessages_eq_ok.mp messagesRead
    exact ⟨_, cidsRead⟩
  have read := List.mapM_except_eq_ok_iff.mp readAll
  have readOf : ∀ cids ∈ cidLists, ∃ header ∈ tipset.headers,
      db.readMsgCids header.messages = .ok cids := by
    intro cids member
    have listed :
        Except.ok cids ∈ tipset.headers.map (fun header => db.readMsgCids header.messages) :=
      read ▸ List.mem_map_of_mem member
    exact List.mem_map.mp listed
  -- the messages of every CID of either kind are stored
  have storedOf : ∀ cids ∈ cidLists,
      (∀ key ∈ cids.1, ∃ message, db.getUnsigned key = .ok (some message)) ∧
      ∀ key ∈ cids.2, ∃ message, db.getSigned key = .ok (some message) := by
    intro cids member
    obtain ⟨header, headerMember, headerRead⟩ := readOf cids member
    obtain ⟨_, _, messagesRead⟩ := stored header headerMember
    obtain ⟨blsCids, secpCids, cidsRead, blsRead, secpRead⟩ := blockMessages_eq_ok.mp messagesRead
    rw [headerRead] at cidsRead
    cases cidsRead
    exact ⟨fun key listed => stored_of_messagesFromCids blsRead listed,
      fun key listed => stored_of_messagesFromCids secpRead listed⟩
  have blsStored : ∀ cids ∈ cidLists.map Prod.fst, ∀ key ∈ cids,
      ∃ message, db.getUnsigned key = .ok (some message) := by
    intro cids listed
    obtain ⟨pair, member, rfl⟩ := List.mem_map.mp listed
    exact (storedOf pair member).1
  have secpStored : ∀ cids ∈ cidLists.map Prod.snd, ∀ key ∈ cids,
      ∃ message, db.getSigned key = .ok (some message) := by
    intro cids listed
    obtain ⟨pair, member, rfl⟩ := List.mem_map.mp listed
    exact (storedOf pair member).2
  obtain ⟨compacted, compactedRan, blsAll, secpAll, blsPicks, secpPicks⟩ :=
    compactMessages_spec read blsStored secpStored
  exact ⟨cidLists, compacted, read, compactedRan, blsAll, secpAll, blsPicks, secpPicks⟩

/-! ## fts_from_bundle_parts -/

/-- `values_from_indexes`: the value at each index, failing at the first index out of range. -/
def valuesFromIndexes {T : Type} (indexes : List Nat) (values : List T) :
    Except String (List T) :=
  indexes.mapM fun idx =>
    match values[idx]? with
    | some value => .ok value
    | none => .error "Invalid message index"

/-- The closure of `fts_from_bundle_parts` for the header at position `i`: index the include
lists, which panics past their ends, check the number of messages, and pick the messages. -/
def bundleBlock (compacted : CompactedMessages) (header : BlockHeader) (i : Nat) :
    Except Failure Block := do
  let some blsInclude := compacted.blsMsgIncludes[i]?
    | throw (.panic
        s!"index out of bounds: the len is {compacted.blsMsgIncludes.length} but the index is {i}")
  let some secpInclude := compacted.secpMsgIncludes[i]?
    | throw (.panic
        s!"index out of bounds: the len is {compacted.secpMsgIncludes.length} but the index is {i}")
  let messageCount := blsInclude.length + secpInclude.length
  if messageCount > blockMessageLimit then
    throw (.error
      s!"Block {i} in bundle has too many messages ({messageCount} > {blockMessageLimit})")
  let blsMessages ← (valuesFromIndexes blsInclude compacted.blsMsgs).mapError .error
  let secpMessages ← (valuesFromIndexes secpInclude compacted.secpMsgs).mapError .error
  return ⟨header, blsMessages, secpMessages⟩

/-- The indexes are all in range exactly when the lookup succeeds, and then it returns the
values they pick. -/
theorem valuesFromIndexes_eq_ok {T : Type} {indexes : List Nat} {values picked : List T} :
    valuesFromIndexes indexes values = .ok picked ↔
      indexes.map (values[·]?) = picked.map some := by
  rw [valuesFromIndexes, List.mapM_except_eq_ok_iff]
  refine List.map_eq_map_congr fun idx value => ?_
  cases values[idx]? <;> simp

/-- An index out of range makes the lookup fail, and it fails with `Invalid message index`. -/
theorem valuesFromIndexes_eq_error {T : Type} {indexes : List Nat} {values : List T} {idx : Nat}
    (member : idx ∈ indexes) (outside : values.length ≤ idx) :
    valuesFromIndexes indexes values = .error "Invalid message index" := by
  rw [valuesFromIndexes]
  cases ran : indexes.mapM fun idx =>
      (match values[idx]? with
        | some value => .ok value
        | none => .error "Invalid message index" : Except String T) with
  | ok picked =>
    refine absurd ran (@List.mapM_ne_ok_of_error _ _ _ _ _ _ "Invalid message index" member ?_
      picked)
    simp [List.getElem?_eq_none outside]
  | error failure =>
    -- every failing index fails with the same text
    obtain ⟨other, -, failed⟩ := List.exists_of_mapM_eq_error ran
    cases found : values[other]? <;> simp [found] at failed
    rw [failed]

/-- What the closure does when it returns a block: both include lists exist at the position,
the count is within the limit, and both lists of indexes pick messages. -/
theorem bundleBlock_eq_ok {compacted : CompactedMessages} {header : BlockHeader} {i : Nat}
    {block : Block} :
    bundleBlock compacted header i = .ok block ↔
      ∃ blsInclude secpInclude, compacted.blsMsgIncludes[i]? = some blsInclude ∧
        compacted.secpMsgIncludes[i]? = some secpInclude ∧
        blsInclude.length + secpInclude.length ≤ blockMessageLimit ∧
        ∃ blsMessages secpMessages,
          valuesFromIndexes blsInclude compacted.blsMsgs = .ok blsMessages ∧
          valuesFromIndexes secpInclude compacted.secpMsgs = .ok secpMessages ∧
          block = ⟨header, blsMessages, secpMessages⟩ := by
  unfold bundleBlock
  cases blsFound : compacted.blsMsgIncludes[i]? with
  | none => simp [throw, throwThe, MonadExceptOf.throw]
  | some blsInclude =>
    cases secpFound : compacted.secpMsgIncludes[i]? with
    | none => simp [throw, throwThe, MonadExceptOf.throw]
    | some secpInclude =>
      by_cases tooMany : blsInclude.length + secpInclude.length > blockMessageLimit
      · simp [tooMany, throw, throwThe, MonadExceptOf.throw, bind, Except.bind]
      · simp only [tooMany, if_false]
        cases blsPicked : valuesFromIndexes blsInclude compacted.blsMsgs <;>
          cases secpPicked : valuesFromIndexes secpInclude compacted.secpMsgs <;>
          simp [blsPicked, secpPicked, Except.mapError, bind, Except.bind, pure, Except.pure,
            eq_comm, Nat.le_of_not_gt tooMany]

/-- Once both include lists reach the position, the closure never panics. -/
theorem bundleBlock_ne_panic {compacted : CompactedMessages} {header : BlockHeader} {i : Nat}
    (blsInRange : i < compacted.blsMsgIncludes.length)
    (secpInRange : i < compacted.secpMsgIncludes.length) (message : String) :
    bundleBlock compacted header i ≠ .error (.panic message) := by
  unfold bundleBlock
  rw [List.getElem?_eq_getElem blsInRange, List.getElem?_eq_getElem secpInRange]
  by_cases tooMany : compacted.blsMsgIncludes[i].length + compacted.secpMsgIncludes[i].length >
      blockMessageLimit
  · simp [tooMany, throw, throwThe, MonadExceptOf.throw, bind, Except.bind]
  · simp only [tooMany, if_false]
    cases valuesFromIndexes compacted.blsMsgIncludes[i] compacted.blsMsgs <;>
      cases valuesFromIndexes compacted.secpMsgIncludes[i] compacted.secpMsgs <;>
      simp [Except.mapError, bind, Except.bind, pure, Except.pure]

/-- The closure rebuilds a block from lists of first occurrences: when the include lists at its
position pick its CIDs out of the combined lists and the combined lists' messages were read, it
returns the block with the messages stored for its CIDs. -/
theorem bundleBlock_of_picks {db : MessageStore} {compacted : CompactedMessages}
    {header : BlockHeader} {i : Nat} {blsCombined secpCombined blsCids secpCids : List Cid}
    {blsInclude secpInclude : List Nat} {blsMessages : List UnsignedMessage}
    {secpMessages : List SignedMessage}
    (blsAll : messagesFromCids db.getUnsigned blsCombined = .ok compacted.blsMsgs)
    (secpAll : messagesFromCids db.getSigned secpCombined = .ok compacted.secpMsgs)
    (blsFound : compacted.blsMsgIncludes[i]? = some blsInclude)
    (secpFound : compacted.secpMsgIncludes[i]? = some secpInclude)
    (blsPicks : blsInclude.map (blsCombined[·]?) = blsCids.map some)
    (secpPicks : secpInclude.map (secpCombined[·]?) = secpCids.map some)
    (blsRead : messagesFromCids db.getUnsigned blsCids = .ok blsMessages)
    (secpRead : messagesFromCids db.getSigned secpCids = .ok secpMessages)
    (within : blsMessages.length + secpMessages.length ≤ blockMessageLimit) :
    bundleBlock compacted header i = .ok ⟨header, blsMessages, secpMessages⟩ := by
  have blsPicked : valuesFromIndexes blsInclude compacted.blsMsgs = .ok blsMessages :=
    valuesFromIndexes_eq_ok.mpr (List.map_getElem?_of_mapM blsPicks blsAll blsRead)
  have secpPicked : valuesFromIndexes secpInclude compacted.secpMsgs = .ok secpMessages :=
    valuesFromIndexes_eq_ok.mpr (List.map_getElem?_of_mapM secpPicks secpAll secpRead)
  -- an include list is as long as the messages it picks
  have blsLength : blsInclude.length = blsMessages.length := by
    simpa using congrArg List.length (valuesFromIndexes_eq_ok.mp blsPicked)
  have secpLength : secpInclude.length = secpMessages.length := by
    simpa using congrArg List.length (valuesFromIndexes_eq_ok.mp secpPicked)
  exact bundleBlock_eq_ok.mpr ⟨blsInclude, secpInclude, blsFound, secpFound, by omega,
    blsMessages, secpMessages, blsPicked, secpPicked, rfl⟩

/-- The block at a position of the tipset, rebuilt from what `compact_messages` sends: the
combined lists are the first occurrences of the blocks' CIDs, and the block's CIDs are the
`cids` its message root holds. -/
theorem bundleBlock_of_stored {db : MessageStore} {compacted : CompactedMessages}
    {cidLists : List (List Cid × List Cid)} {header : BlockHeader} {block : Block} {i : Nat}
    {cids : List Cid × List Cid}
    (blsAll : messagesFromCids db.getUnsigned (firstCids (cidLists.map Prod.fst)) =
      .ok compacted.blsMsgs)
    (secpAll : messagesFromCids db.getSigned (firstCids (cidLists.map Prod.snd)) =
      .ok compacted.secpMsgs)
    (blsPicks : List.Forall₂ (fun numbers cids =>
        numbers.map ((firstCids (cidLists.map Prod.fst))[·]?) = cids.map some)
      compacted.blsMsgIncludes (cidLists.map Prod.fst))
    (secpPicks : List.Forall₂ (fun numbers cids =>
        numbers.map ((firstCids (cidLists.map Prod.snd))[·]?) = cids.map some)
      compacted.secpMsgIncludes (cidLists.map Prod.snd))
    (listed : cidLists[i]? = some cids) (cidsRead : db.readMsgCids header.messages = .ok cids)
    (filled : block.header = header ∧
      blockMessages db header = .ok (block.blsMessages, block.secpMessages))
    (within : block.blsMessages.length + block.secpMessages.length ≤ blockMessageLimit) :
    bundleBlock compacted header i = .ok block := by
  obtain ⟨sameHeader, messagesRead⟩ := filled
  obtain ⟨blsCids, secpCids, cidsRead', blsRead, secpRead⟩ := blockMessages_eq_ok.mp messagesRead
  rw [cidsRead] at cidsRead'
  cases cidsRead'
  obtain ⟨blsInclude, blsFound, blsPicked⟩ :=
    blsPicks.exists_getElem?_left (by simp [listed] : (cidLists.map Prod.fst)[i]? = some blsCids)
  obtain ⟨secpInclude, secpFound, secpPicked⟩ :=
    secpPicks.exists_getElem?_left (by simp [listed] : (cidLists.map Prod.snd)[i]? = some secpCids)
  rw [bundleBlock_of_picks blsAll secpAll blsFound secpFound blsPicked secpPicked blsRead secpRead
    within, ← sameHeader]

/-- An include list at the position with an index past its messages keeps the closure from
returning a block. -/
theorem bundleBlock_ne_ok {compacted : CompactedMessages} {header : BlockHeader} {i : Nat}
    (outside : (∃ numbers, compacted.blsMsgIncludes[i]? = some numbers ∧
        ∃ idx ∈ numbers, compacted.blsMsgs.length ≤ idx) ∨
      (∃ numbers, compacted.secpMsgIncludes[i]? = some numbers ∧
        ∃ idx ∈ numbers, compacted.secpMsgs.length ≤ idx)) (block : Block) :
    bundleBlock compacted header i ≠ .ok block := by
  intro built
  obtain ⟨blsInclude, secpInclude, blsFound, secpFound, -, blsMessages, secpMessages, blsPicked,
    secpPicked, -⟩ := bundleBlock_eq_ok.mp built
  rcases outside with ⟨numbers, found, idx, member, beyond⟩ | ⟨numbers, found, idx, member, beyond⟩
  · rw [found, Option.some_inj] at blsFound
    subst blsFound
    rw [valuesFromIndexes_eq_error member beyond] at blsPicked
    cases blsPicked
  · rw [found, Option.some_inj] at secpFound
    subst secpFound
    rw [valuesFromIndexes_eq_error member beyond] at secpPicked
    cases secpPicked

section Bundle

variable (blake2b256 : List UInt8 → List UInt8)

/-- `fts_from_bundle_parts`: check the lengths of the include lists against the headers, build
each block, and make the full tipset. -/
def ftsFromBundleParts (headers : List BlockHeader) (messages : Option CompactedMessages) :
    Except Failure FullTipset := do
  let some compacted := messages
    | throw (.error "Tipset bundle did not contain message bundle")
  if headers.length ≠ compacted.blsMsgIncludes.length ∨
      headers.length ≠ compacted.secpMsgIncludes.length then
    throw (.error s!"Invalid formed Tipset bundle, lengths of includes does not match blocks. Header len: {headers.length}, bls_msg len: {compacted.blsMsgIncludes.length}, secp_msg len: {compacted.secpMsgIncludes.length}")
  let blocks ← headers.zipIdx.mapM fun (header, i) => bundleBlock compacted header i
  (FullTipset.new blake2b256 blocks).mapError fun e => .error e.toString

/-- With include lists as long as the headers, `fts_from_bundle_parts` builds each block with
the closure and makes the full tipset of them. -/
theorem ftsFromBundleParts_eq {headers : List BlockHeader} {compacted : CompactedMessages}
    (blsLength : headers.length = compacted.blsMsgIncludes.length)
    (secpLength : headers.length = compacted.secpMsgIncludes.length) :
    ftsFromBundleParts blake2b256 headers (some compacted) =
      ((headers.zipIdx.mapM fun (header, i) => bundleBlock compacted header i) >>= fun blocks =>
        (FullTipset.new blake2b256 blocks).mapError fun e => .error e.toString) := by
  simp [ftsFromBundleParts, ← blsLength, ← secpLength]

/-- After the length check, building the blocks fails, if at all, with an error and not a
panic. -/
theorem buildBlocks_eq_error {headers : List BlockHeader} {compacted : CompactedMessages}
    (blsLength : headers.length = compacted.blsMsgIncludes.length)
    (secpLength : headers.length = compacted.secpMsgIncludes.length) {failure : Failure}
    (failed : (headers.zipIdx.mapM fun (header, i) => bundleBlock compacted header i) =
      .error failure) :
    ∃ message, failure = .error message := by
  obtain ⟨⟨header, i⟩, member, blockFailed⟩ := List.exists_of_mapM_eq_error failed
  have inRange : i < headers.length :=
    (List.getElem?_eq_some_iff.mp (List.mem_zipIdx_iff_getElem?.mp member)).1
  cases failure with
  | error message => exact ⟨message, rfl⟩
  | panic message =>
    exact absurd blockFailed
      (bundleBlock_ne_panic (blsLength ▸ inRange) (secpLength ▸ inRange) message)

/-- `fts_from_bundle_parts` never panics, whatever a peer sends. -/
theorem ftsFromBundleParts_ne_panic (headers : List BlockHeader)
    (messages : Option CompactedMessages) (message : String) :
    ftsFromBundleParts blake2b256 headers messages ≠ .error (.panic message) := by
  cases messages with
  | none => simp [ftsFromBundleParts, throw, throwThe, MonadExceptOf.throw]
  | some compacted =>
    by_cases blsLength : headers.length = compacted.blsMsgIncludes.length
    · by_cases secpLength : headers.length = compacted.secpMsgIncludes.length
      · rw [ftsFromBundleParts_eq blake2b256 blsLength secpLength]
        cases built : headers.zipIdx.mapM (fun (header, i) => bundleBlock compacted header i) with
        | error failure =>
          obtain ⟨text, rfl⟩ := buildBlocks_eq_error blsLength secpLength built
          simp [bind, Except.bind]
        | ok blocks =>
          cases made : FullTipset.new blake2b256 blocks <;>
            simp [made, bind, Except.bind, Except.mapError]
      · simp [ftsFromBundleParts, secpLength, throw, throwThe, MonadExceptOf.throw]
    · simp [ftsFromBundleParts, blsLength, throw, throwThe, MonadExceptOf.throw]

/-- Include lists of another length than the headers, or an index past the messages in one of
them, make `fts_from_bundle_parts` return an error. -/
theorem ftsFromBundleParts_eq_error {headers : List BlockHeader} {compacted : CompactedMessages}
    (invalid : headers.length ≠ compacted.blsMsgIncludes.length ∨
      headers.length ≠ compacted.secpMsgIncludes.length ∨
      (∃ numbers ∈ compacted.blsMsgIncludes, ∃ idx ∈ numbers, compacted.blsMsgs.length ≤ idx) ∨
      (∃ numbers ∈ compacted.secpMsgIncludes, ∃ idx ∈ numbers, compacted.secpMsgs.length ≤ idx)) :
    ∃ message,
      ftsFromBundleParts blake2b256 headers (some compacted) = .error (.error message) := by
  by_cases blsLength : headers.length = compacted.blsMsgIncludes.length
  · by_cases secpLength : headers.length = compacted.secpMsgIncludes.length
    · -- the lengths match, so an include list at some position picks a message that is not there
      have blocked : ∃ i, ∃ inRange : i < headers.length,
          ∀ block, bundleBlock compacted headers[i] i ≠ .ok block := by
        rcases invalid with mismatch | mismatch | ⟨numbers, listed, outside⟩ |
            ⟨numbers, listed, outside⟩
        · exact absurd blsLength mismatch
        · exact absurd secpLength mismatch
        · obtain ⟨i, found⟩ := List.mem_iff_getElem?.mp listed
          have inRange : i < headers.length :=
            blsLength ▸ (List.getElem?_eq_some_iff.mp found).1
          exact ⟨i, inRange, bundleBlock_ne_ok (.inl ⟨numbers, found, outside⟩)⟩
        · obtain ⟨i, found⟩ := List.mem_iff_getElem?.mp listed
          have inRange : i < headers.length :=
            secpLength ▸ (List.getElem?_eq_some_iff.mp found).1
          exact ⟨i, inRange, bundleBlock_ne_ok (.inr ⟨numbers, found, outside⟩)⟩
      obtain ⟨i, inRange, notBuilt⟩ := blocked
      have member : (headers[i], i) ∈ headers.zipIdx :=
        List.mem_zipIdx_iff_getElem?.mpr (List.getElem?_eq_getElem inRange)
      rw [ftsFromBundleParts_eq blake2b256 blsLength secpLength]
      cases built : headers.zipIdx.mapM (fun (header, i) => bundleBlock compacted header i) with
      | error failure =>
        obtain ⟨message, rfl⟩ := buildBlocks_eq_error blsLength secpLength built
        exact ⟨message, rfl⟩
      | ok blocks =>
        obtain ⟨block, blockBuilt⟩ := List.exists_of_mapM_eq_ok built member
        exact absurd blockBuilt (notBuilt block)
    · exact ⟨_, by simp [ftsFromBundleParts, secpLength, throw, throwThe, MonadExceptOf.throw]; rfl⟩
  · exact ⟨_, by simp [ftsFromBundleParts, blsLength, throw, throwThe, MonadExceptOf.throw]; rfl⟩

/-- The round trip: when the messages of every block are stored and within the limit, the
client rebuilds, from what `compact_messages` sends, exactly the blocks `fill_tipset` reads from
the store, and hands them to `FullTipset::new`. -/
theorem ftsFromBundleParts_compactMessages {db : MessageStore} {tipset : Tipset}
    (stored : ∀ header ∈ tipset.headers, ∃ blsMessages secpMessages,
      blockMessages db header = .ok (blsMessages, secpMessages) ∧
      blsMessages.length + secpMessages.length ≤ blockMessageLimit) :
    ∃ compacted blocks, compactMessages db tipset = .ok compacted ∧
      fillBlocks db tipset = .ok blocks ∧
      ftsFromBundleParts blake2b256 tipset.headers (some compacted) =
        (FullTipset.new blake2b256 blocks).mapError fun e => .error e.toString := by
  have storedMessages : ∀ header ∈ tipset.headers, ∃ blsMessages secpMessages,
      blockMessages db header = .ok (blsMessages, secpMessages) := fun header member =>
    (stored header member).imp fun _ found => found.imp fun _ both => both.1
  obtain ⟨cidLists, compacted, read, compactedRan, blsAll, secpAll, blsPicks, secpPicks⟩ :=
    compactMessages_of_stored storedMessages
  -- the blocks `fill_tipset` reads
  obtain ⟨blocks, filled⟩ : ∃ blocks, fillBlocks db tipset = .ok blocks := by
    refine List.exists_mapM_eq_ok fun header member => ?_
    obtain ⟨blsMessages, secpMessages, messagesRead, -⟩ := stored header member
    exact ⟨⟨header, blsMessages, secpMessages⟩, by simp [messagesRead]⟩
  have related := fillBlocks_eq_ok.mp filled
  refine ⟨compacted, blocks, compactedRan, filled, ?_⟩
  have cidsLength : tipset.headers.length = cidLists.length := by
    simpa using congrArg List.length read
  have blsLength : tipset.headers.length = compacted.blsMsgIncludes.length := by
    rw [blsPicks.length_eq, List.length_map, cidsLength]
  have secpLength : tipset.headers.length = compacted.secpMsgIncludes.length := by
    rw [secpPicks.length_eq, List.length_map, cidsLength]
  -- the closure at each position returns the block `fill_tipset` reads there
  have built : (tipset.headers.zipIdx.mapM fun (header, i) => bundleBlock compacted header i) =
      .ok blocks := by
    apply List.mapM_eq_ok_of_forall₂
    refine List.forall₂_iff_get.mpr ⟨by simp [related.length_eq], fun i inZip inBlocks => ?_⟩
    have inHeaders : i < tipset.headers.length := by simpa using inZip
    have filledAt := related.get inHeaders inBlocks
    simp only [List.get_eq_getElem, List.getElem_zipIdx, Nat.zero_add] at filledAt ⊢
    obtain ⟨blsMessages, secpMessages, messagesRead, within⟩ :=
      stored tipset.headers[i] (List.getElem_mem inHeaders)
    rw [filledAt.2, Except.ok.injEq, Prod.mk.injEq] at messagesRead
    obtain ⟨rfl, rfl⟩ := messagesRead
    have readAt : db.readMsgCids tipset.headers[i].messages = .ok cidLists[i] := by
      have := congrArg (·[i]?) read
      simpa [List.getElem?_eq_getElem inHeaders, List.getElem?_eq_getElem (cidsLength ▸ inHeaders)]
        using this
    exact bundleBlock_of_stored blsAll secpAll blsPicks secpPicks
      (List.getElem?_eq_getElem (cidsLength ▸ inHeaders)) readAt filledAt within
  rw [ftsFromBundleParts_eq blake2b256 blsLength secpLength, built]
  rfl

end Bundle

/-! ## The round trip -/

/-- The blocks `fill_tipset` reads hold the tipset's headers, in its order. -/
theorem headers_of_fillBlocks {db : MessageStore} {tipset : Tipset} {blocks : List Block}
    (filled : fillBlocks db tipset = .ok blocks) : blocks.map Block.header = tipset.headers := by
  have sameHeaders : List.Forall₂ (fun header block => header = block.header) tipset.headers
      blocks := (fillBlocks_eq_ok.mp filled).imp fun _ _ filledAt => filledAt.1.symm
  exact (List.forall₂_eq_eq_eq ▸ List.forall₂_map_right_iff.mpr sameHeaders).symm

/-- `FullTipset::new` passes on the error of `verify_blocks`. -/
theorem FullTipset.new_of_verifyBlocks_error (blake2b256 : List UInt8 → List UInt8)
    {blocks : List Block} {e : Blocks.Error} (refused : verifyBlocks (blocks.map Block.header) = .error e) :
    FullTipset.new blake2b256 blocks = .error e := by
  unfold FullTipset.new
  split
  · rename_i failure failed
    rw [refused] at failed
    cases failed
    rfl
  · rename_i verified
    rw [refused] at verified
    cases verified

/-- For a tipset whose headers pass `verify_blocks` in the tipset's order and whose blocks'
messages are stored, at most `BLOCK_MESSAGE_LIMIT` to a block: `compact_messages` succeeds, and
`fts_from_bundle_parts` rebuilds from it the full tipset that `fill_tipset` reads from the store,
each block with its stored messages; the compacted messages are those of the CIDs of all the
blocks, each CID once, in order of first occurrence, and distinct when the store is content
addressed.  Whatever a peer sends, include lists of the wrong length or with an index past the
messages give an error, and nothing panics. -/
theorem compacted_messages_round_trip (blake2b256 : List UInt8 → List UInt8) (db : MessageStore)
    (tipset : Tipset) (verified : verifyBlocks tipset.headers = .ok ())
    (stored : ∀ header ∈ tipset.headers, ∃ blsMessages secpMessages,
      blockMessages db header = .ok (blsMessages, secpMessages) ∧
      blsMessages.length + secpMessages.length ≤ blockMessageLimit) :
    (∃ compacted fullTipset cidLists,
      compactMessages db tipset = .ok compacted ∧
      ftsFromBundleParts blake2b256 tipset.headers (some compacted) = .ok fullTipset ∧
      fillTipset blake2b256 db tipset = some (.ok fullTipset) ∧
      (∀ block ∈ fullTipset.blocks,
        blockMessages db block.header = .ok (block.blsMessages, block.secpMessages)) ∧
      (fullTipset.blocks.map Block.header).Perm tipset.headers ∧
      tipset.headers.mapM (fun header => db.readMsgCids header.messages) = .ok cidLists ∧
      messagesFromCids db.getUnsigned (firstCids (cidLists.map Prod.fst)) = .ok compacted.blsMsgs ∧
      messagesFromCids db.getSigned (firstCids (cidLists.map Prod.snd)) = .ok compacted.secpMsgs ∧
      (firstCids (cidLists.map Prod.fst)).Nodup ∧ (firstCids (cidLists.map Prod.snd)).Nodup ∧
      ((∀ key key' message, db.getUnsigned key = .ok (some message) →
          db.getUnsigned key' = .ok (some message) → key = key') → compacted.blsMsgs.Nodup) ∧
      ((∀ key key' message, db.getSigned key = .ok (some message) →
          db.getSigned key' = .ok (some message) → key = key') → compacted.secpMsgs.Nodup)) ∧
    (∀ (headers : List BlockHeader) (compacted : CompactedMessages),
      headers.length ≠ compacted.blsMsgIncludes.length ∨
        headers.length ≠ compacted.secpMsgIncludes.length ∨
        (∃ numbers ∈ compacted.blsMsgIncludes, ∃ idx ∈ numbers, compacted.blsMsgs.length ≤ idx) ∨
        (∃ numbers ∈ compacted.secpMsgIncludes, ∃ idx ∈ numbers,
          compacted.secpMsgs.length ≤ idx) →
      ∃ message, ftsFromBundleParts blake2b256 headers (some compacted) =
        .error (.error message)) ∧
    (∀ (headers : List BlockHeader) (messages : Option CompactedMessages) (message : String),
      ftsFromBundleParts blake2b256 headers messages ≠ .error (.panic message)) := by
  refine ⟨?_, fun headers compacted invalid => ftsFromBundleParts_eq_error blake2b256 invalid,
    ftsFromBundleParts_ne_panic blake2b256⟩
  obtain ⟨compacted, blocks, compactedRan, filled, rebuilt⟩ :=
    ftsFromBundleParts_compactMessages blake2b256 stored
  have related := fillBlocks_eq_ok.mp filled
  have headersOf := headers_of_fillBlocks filled
  obtain ⟨fullTipset, made, sorted⟩ :=
    @FullTipset.new_of_verifyBlocks blake2b256 blocks (headersOf ▸ verified)
  -- the compacted lists are the messages of the first occurrences
  obtain ⟨cidLists, compacted', read, compactedRan', blsAll, secpAll, -, -⟩ :=
    compactMessages_of_stored fun header member =>
      (stored header member).imp fun _ found => found.imp fun _ both => both.1
  rw [compactedRan] at compactedRan'
  cases compactedRan'
  refine ⟨compacted, fullTipset, cidLists, compactedRan, by rw [rebuilt, made]; rfl,
    by simp [fillTipset, filled, made], ?_, ?_, List.mapM_except_eq_ok_iff.mpr read, blsAll,
    secpAll, nodup_firstCids _, nodup_firstCids _,
    fun addressed => nodup_of_messagesFromCids addressed (nodup_firstCids _) blsAll,
    fun addressed => nodup_of_messagesFromCids addressed (nodup_firstCids _) secpAll⟩
  · intro block member
    obtain ⟨i, found⟩ := List.mem_iff_getElem?.mp (sorted.subset member)
    obtain ⟨header, -, sameHeader, messagesRead⟩ := related.exists_getElem?_left found
    rw [sameHeader]
    exact messagesRead
  · exact headersOf ▸ sorted.map Block.header

/-- A store whose every message root holds one BLS message, `exampleMessage`, under the CID
`[7]`. -/
def sharedMessageStore : MessageStore where
  readMsgCids _ := .ok ([⟨[7]⟩], [])
  getUnsigned key := .ok (if key = ⟨[7]⟩ then some exampleMessage else none)
  getSigned _ := .ok none

/-- Two blocks of distinct miners, in ticket order, that include the same message. -/
def sharedMessageTipset : Tipset :=
  ⟨[exampleHeader 1000 1, exampleHeader 1001 2], List.cons_ne_nil _ _⟩

/-- The message both blocks include is sent once, at index 0 of each block's list, and the
client rebuilds the tipset. -/
theorem compacted_messages_round_trip_shared_message :
    verifyBlocks sharedMessageTipset.headers = .ok () ∧
      compactMessages sharedMessageStore sharedMessageTipset =
        .ok ⟨[exampleMessage], [[0], [0]], [], [[], []]⟩ ∧
      ∃ fullTipset, ftsFromBundleParts id sharedMessageTipset.headers
        (some ⟨[exampleMessage], [[0], [0]], [], [[], []]⟩) = .ok fullTipset := by
  have verified : verifyBlocks sharedMessageTipset.headers = .ok () := rfl
  have compacted : compactMessages sharedMessageStore sharedMessageTipset =
      .ok ⟨[exampleMessage], [[0], [0]], [], [[], []]⟩ := rfl
  obtain ⟨⟨_, fullTipset, -, compactedRan, rebuilt, -⟩, -, -⟩ :=
    compacted_messages_round_trip id sharedMessageStore sharedMessageTipset verified
      fun _ _ => ⟨[exampleMessage], [], rfl, by decide⟩
  rw [compacted, Except.ok.injEq] at compactedRan
  subst compactedRan
  exact ⟨verified, compacted, fullTipset, rebuilt⟩

/-- A tipset whose headers fail `verify_blocks` in the tipset's own order, with its blocks'
messages stored: the server compacts them, the client refuses the compaction with that error,
and `fill_tipset` unwraps the same error, which panics where its comment says it cannot fail.
`Tipset::new` checks the headers before sorting them, against the first header only, so it
builds such tipsets. -/
theorem fill_tipset_unwraps_refused_tipset (blake2b256 : List UInt8 → List UInt8)
    (db : MessageStore) (tipset : Tipset) {e : Blocks.Error}
    (refused : verifyBlocks tipset.headers = .error e)
    (stored : ∀ header ∈ tipset.headers, ∃ blsMessages secpMessages,
      blockMessages db header = .ok (blsMessages, secpMessages) ∧
      blsMessages.length + secpMessages.length ≤ blockMessageLimit) :
    ∃ compacted, compactMessages db tipset = .ok compacted ∧
      ftsFromBundleParts blake2b256 tipset.headers (some compacted) = .error (.error e.toString) ∧
      fillTipset blake2b256 db tipset = some (.error e) := by
  obtain ⟨compacted, blocks, compactedRan, filled, rebuilt⟩ :=
    ftsFromBundleParts_compactMessages blake2b256 stored
  have made : FullTipset.new blake2b256 blocks = .error e :=
    FullTipset.new_of_verifyBlocks_error blake2b256 (headers_of_fillBlocks filled ▸ refused)
  refine ⟨compacted, compactedRan, ?_, ?_⟩
  · rw [rebuilt, made]
    rfl
  · simp [fillTipset, filled, made]

/-- Three headers of epoch 1: the block of `f01000`, whose ticket sorts last, then two blocks of
`f01001`. -/
def repeatedMinerHeaders : List BlockHeader :=
  [exampleHeader 1000 3, exampleHeader 1001 1, exampleHeader 1001 2]

/-- A store whose message roots hold no messages. -/
def emptyMessageStore : MessageStore :=
  ⟨fun _ => .ok ([], []), fun _ => .ok none, fun _ => .ok none⟩

/-- `Tipset::new` accepts the headers, since `f01001` is not the first header's miner, and sorts
the blocks of `f01001` first.  The client then refuses the tipset's own blocks, with their
messages all read, and `fill_tipset` unwraps the same error. -/
theorem compacted_messages_refused_after_sort :
    ∃ tipset, Tipset.new id repeatedMinerHeaders = .ok tipset ∧
      verifyBlocks tipset.headers = .error (.invalidTipset "miner_addresses are not distinct") ∧
      ∃ compacted, compactMessages emptyMessageStore tipset = .ok compacted ∧
        ftsFromBundleParts id tipset.headers (some compacted) =
          .error (.error "Invalid tipset: miner_addresses are not distinct") ∧
        fillTipset id emptyMessageStore tipset =
          some (.error (.invalidTipset "miner_addresses are not distinct")) := by
  -- the merge sort of the three keys, one comparison at a time
  have firstAfterSecond : ¬ BlockHeader.toSortKey id (exampleHeader 1000 3) ≤
      BlockHeader.toSortKey id (exampleHeader 1001 1) := by decide
  have secondBeforeThird : BlockHeader.toSortKey id (exampleHeader 1001 1) ≤
      BlockHeader.toSortKey id (exampleHeader 1001 2) := by decide
  have firstAfterThird : ¬ BlockHeader.toSortKey id (exampleHeader 1000 3) ≤
      BlockHeader.toSortKey id (exampleHeader 1001 2) := by decide
  have sorted : repeatedMinerHeaders.sortByCachedKey (BlockHeader.toSortKey id) =
      [exampleHeader 1001 1, exampleHeader 1001 2, exampleHeader 1000 3] := by
    simp only [repeatedMinerHeaders, List.sortByCachedKey]
    rw [List.mergeSort]
    simp
    rw [List.mergeSort]
    simp [firstAfterSecond, secondBeforeThird, firstAfterThird]
  let tipset : Tipset :=
    ⟨[exampleHeader 1001 1, exampleHeader 1001 2, exampleHeader 1000 3], List.cons_ne_nil _ _⟩
  have refused : verifyBlocks tipset.headers =
      .error (.invalidTipset "miner_addresses are not distinct") := rfl
  exact ⟨tipset, Tipset.new_eq_ok.mpr ⟨rfl, sorted.symm⟩, refused,
    fill_tipset_unwraps_refused_tipset id emptyMessageStore tipset refused
      fun _ _ => ⟨[], [], rfl, by decide⟩⟩

end Forest.ChainExchange
