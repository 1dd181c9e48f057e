import Forest.MessagePool.ChainRun
import Mathlib.Data.List.Induction

/-!
# Building the chains of one sender

After the checking loop, `create_message_chains` cuts the accepted run into chains: a message
that would lower the current chain's gas performance starts a new chain.  It then merges,
pass after pass and from the last chain down, each chain into the chain before it when it is
at least as good, drops the merged chains, and stops after a pass that merges nothing.  Last
it links the chains both ways and appends their keys.

The nodes are followed as a list of entries, each a key of `node_vec` with the node the slot
map holds under it (`Stored`).  A pass of the merging loop walks that list from the end, as a
zipper: the entries before the current one are untouched, and each merge moves the current
chain's messages into the one before it.  So the messages of the valid chains, in order, stay
those of the run, and a pass that merges shortens the list: the loop ends.
-/

namespace Forest.MessagePool

variable {A F : Type} (fl : FloatOps F)

/-! ## The slot map -/

namespace Chains

theorem lookup_lt_length {chains : Chains A F} {key : Nat} {node : MsgChainNode A F}
    (found : chains.lookup key = some node) : key < chains.map.length := by
  by_contra outside
  simp [lookup, List.getD_eq_getElem?_getD, List.getElem?_eq_none (Nat.le_of_not_lt outside)]
    at found

theorem lookup_set (chains : Chains A F) {key : Nat} (present : key < chains.map.length)
    (slot : Option (MsgChainNode A F)) (other : Nat) :
    ({ chains with map := chains.map.set key slot } : Chains A F).lookup other =
      if other = key then slot else chains.lookup other := by
  simp only [lookup, List.getD_eq_getElem?_getD, List.getElem?_set]
  by_cases same : other = key
  · simp [same, present]
  · simp [same, Ne.symm same]

theorem lookup_append (chains : Chains A F) (slots : List (Option (MsgChainNode A F)))
    {key : Nat} (below : key < chains.map.length) :
    ({ chains with map := chains.map ++ slots } : Chains A F).lookup key = chains.lookup key := by
  simp [lookup, List.getD_eq_getElem?_getD, List.getElem?_append_left below]

theorem getNode_apply {chains : Chains A F} {key : Nat} {node : MsgChainNode A F}
    (found : chains.lookup key = some node) : getNode key chains = .ok node chains := by
  simp [getNode, found]

theorem setNode_apply (key : Nat) (node : MsgChainNode A F) (chains : Chains A F) :
    setNode key node chains = .ok () { chains with map := chains.map.set key (some node) } := rfl

theorem pushWith_apply (node : MsgChainNode A F) (chains : Chains A F) :
    pushWith node chains = .ok chains.map.length { chains with map := chains.map ++ [some node] } :=
  rfl

end Chains

theorem liftFailure_ok {α : Type} (value : α) (chains : Chains A F) :
    (liftFailure (.ok value) : ChainsM A F α) chains = .ok value chains := rfl

/-- The slot map holds each entry's node under its key. -/
def Stored (chains : Chains A F) (entries : List (Nat × MsgChainNode A F)) : Prop :=
  ∀ entry ∈ entries, chains.lookup entry.1 = some entry.2

/-- A program over the chains changed only the slots of `keys`: the key vector, the size of
the slot map and every other slot are as they were. -/
structure Untouched (keys : List Nat) (chains chains' : Chains A F) : Prop where
  keyVec_eq : chains'.keyVec = chains.keyVec
  length_eq : chains'.map.length = chains.map.length
  lookup_eq : ∀ key ∉ keys, chains'.lookup key = chains.lookup key

namespace Untouched

variable {keys : List Nat} {first second third : Chains A F}

theorem refl (keys : List Nat) (chains : Chains A F) : Untouched keys chains chains :=
  ⟨rfl, rfl, fun _ _ => rfl⟩

theorem trans (earlier : Untouched keys first second) (later : Untouched keys second third) :
    Untouched keys first third :=
  ⟨later.keyVec_eq.trans earlier.keyVec_eq, later.length_eq.trans earlier.length_eq,
    fun key outside => (later.lookup_eq key outside).trans (earlier.lookup_eq key outside)⟩

theorem mono {wider : List Nat} (untouched : Untouched keys first second)
    (covered : ∀ key ∈ keys, key ∈ wider) : Untouched wider first second :=
  ⟨untouched.keyVec_eq, untouched.length_eq,
    fun key outside => untouched.lookup_eq key fun member => outside (covered key member)⟩

/-- Setting one slot of `keys` changes nothing else. -/
theorem set {key : Nat} (present : key < first.map.length) (member : key ∈ keys)
    (slot : Option (MsgChainNode A F)) :
    Untouched keys first { first with map := first.map.set key slot } := by
  refine ⟨rfl, List.length_set, fun other outside => ?_⟩
  rw [Chains.lookup_set first present, if_neg]
  rintro rfl
  exact outside member

end Untouched

/-- Two entries of a list with distinct keys have distinct keys. -/
theorem key_ne_of_mem {pre post : List (Nat × MsgChainNode A F)} {entry : Nat × MsgChainNode A F}
    (distinct : ((pre ++ entry :: post).map Prod.fst).Nodup) {other : Nat × MsgChainNode A F}
    (member : other ∈ pre ++ post) : other.1 ≠ entry.1 := by
  rw [List.map_append, List.map_cons, List.nodup_middle, List.nodup_cons, ← List.map_append]
    at distinct
  rintro same
  exact distinct.1 (List.mem_map.mpr ⟨other, member, same⟩)

/-- Replacing the node of one entry in its slot keeps every entry stored. -/
theorem Stored.set {chains : Chains A F} {pre post : List (Nat × MsgChainNode A F)}
    {entry : Nat × MsgChainNode A F} (stored : Stored chains (pre ++ entry :: post))
    (distinct : ((pre ++ entry :: post).map Prod.fst).Nodup) (node : MsgChainNode A F) :
    Stored { chains with map := chains.map.set entry.1 (some node) }
      (pre ++ (entry.1, node) :: post) := by
  have present := Chains.lookup_lt_length (stored entry (by simp))
  intro other member
  rw [Chains.lookup_set chains present]
  rcases List.mem_append.mp member with before | here
  · rw [if_neg (key_ne_of_mem distinct (List.mem_append_left _ before))]
    exact stored other (List.mem_append_left _ before)
  · rcases List.mem_cons.mp here with same | after
    · rw [same, if_pos rfl]
    · rw [if_neg (key_ne_of_mem distinct (List.mem_append_right _ after))]
      exact stored other (List.mem_append_right _ (List.mem_cons_of_mem _ after))

/-- `get_from(i, node_vec)` reads the node of the entry at position `i`. -/
theorem getFrom_apply {chains : Chains A F} {nodeVec : List Nat} {i : Nat}
    {pre post : List (Nat × MsgChainNode A F)} {entry : Nat × MsgChainNode A F}
    (keys : (pre ++ entry :: post).map Prod.fst = nodeVec) (position : pre.length = i)
    (stored : Stored chains (pre ++ entry :: post)) :
    getFrom i nodeVec chains = .ok entry.2 chains := by
  have keyAt : nodeVec[i]? = some entry.1 := by
    rw [← keys, ← position]
    simp
  simp only [getFrom, keyAt]
  exact Chains.getNode_apply (stored entry (by simp))

/-! ## Chain nodes before they are linked -/

theorem getGasPerf_of_ne_zero (gasReward : Int) {gasLimit : Int} (nonzero : gasLimit ≠ 0) :
    getGasPerf fl gasReward gasLimit =
      .ok (fl.ofRat ((gasReward * blockGasLimit : Int) / (gasLimit : ℚ))) := by
  simp [getGasPerf, nonzero]

/-- A chain node as chunking and merging leave it: its gas limit and gas reward are those of its
messages, its gas limit is positive, and it is linked to nothing. -/
structure Detached (baseFee : Int) (node : MsgChainNode A F) : Prop where
  gasLimit_eq : node.gasLimit = gasUsed node.msgs
  gasReward_eq : node.gasReward = totalReward baseFee node.msgs
  gasLimit_pos : 0 < node.gasLimit
  next_eq : node.next = none
  prev_eq : node.prev = none

theorem rewardAt_of_getElem? {rewards : List Int} {i : Nat} {reward : Int}
    (found : rewards[i]? = some reward) : rewardAt rewards i = .ok reward := by
  simp [rewardAt, found]

/-- `new_chain` makes a valid detached chain of one message. -/
theorem newChain_ok (baseFee : Int) {msg : SignedMessage A} (positive : 0 < msg.gasLimit) :
    ∃ node : MsgChainNode A F, newChain fl msg (getGasReward msg baseFee) = .ok node ∧
      node.msgs = [msg] ∧ node.valid = true ∧ Detached baseFee node := by
  refine ⟨{ (MsgChainNode.default fl : MsgChainNode A F) with
      msgs := [msg]
      gasReward := getGasReward msg baseFee
      gasLimit := msg.gasLimit
      gasPerf := fl.ofRat ((getGasReward msg baseFee * blockGasLimit : Int) / (msg.gasLimit : ℚ)) },
    ?_, rfl, rfl, ⟨by simp, by simp, positive, rfl, rfl⟩⟩
  rw [newChain, getGasPerf_of_ne_zero fl _ positive.ne']
  rfl

/-! ## Cutting the run into chains -/

/-- The chunking loop pushes detached chains into fresh slots, and the chains it pushes and the
one it ends with hold the current chain's messages and then those it was given, in order. -/
theorem chunkChains_spec (baseFee : Int) (rewards : List Int) :
    ∀ (pairs : List (SignedMessage A × Nat)) (cur : MsgChainNode A F) (nodeVec : List Nat)
      (chains : Chains A F),
      (∀ pair ∈ pairs, rewards[pair.2]? = some (getGasReward pair.1 baseFee)) →
      (∀ pair ∈ pairs, 0 < pair.1.gasLimit) →
      cur.valid = true → Detached baseFee cur →
      ∃ pushed last, chunkChains fl rewards pairs cur nodeVec chains =
          .ok (last, nodeVec ++ List.range' chains.map.length pushed.length)
            { chains with map := chains.map ++ pushed.map some } ∧
        pushed.flatMap (·.msgs) ++ last.msgs = cur.msgs ++ pairs.map Prod.fst ∧
        ∀ node ∈ last :: pushed, node.valid = true ∧ Detached baseFee node
  | [], cur, nodeVec, chains, _, _, curValid, curDetached => by
    refine ⟨[], cur, ?_, by simp, by simpa using ⟨curValid, curDetached⟩⟩
    cases chains
    simp [chunkChains, pure, EStateM.pure]
  | (msg, i) :: rest, cur, nodeVec, chains, rewardsAt, positive, curValid, curDetached => by
    have msgPositive : 0 < msg.gasLimit := positive (msg, i) (by simp)
    have restRewards := fun pair member => rewardsAt pair (List.mem_cons_of_mem _ member)
    have restPositive := fun pair member => positive pair (List.mem_cons_of_mem _ member)
    have reward : rewardAt rewards i = .ok (getGasReward msg baseFee) :=
      rewardAt_of_getElem? (rewardsAt (msg, i) (by simp))
    have joinedPositive : cur.gasLimit + msg.gasLimit ≠ 0 := by
      have := curDetached.gasLimit_pos
      omega
    rw [chunkChains, EStateM.bind_apply_of_ok (by rw [reward]; exact liftFailure_ok _ chains)]
    rw [EStateM.bind_apply_of_ok
      (by rw [getGasPerf_of_ne_zero fl _ joinedPositive]; exact liftFailure_ok _ chains)]
    split
    · -- the message lowers the performance: `cur` is pushed and a new chain starts
      obtain ⟨next, made, nextMsgs, nextValid, nextDetached⟩ := newChain_ok fl baseFee msgPositive
      obtain ⟨pushed, last, ran, msgs, good⟩ := chunkChains_spec baseFee rewards rest next
        (nodeVec ++ [chains.map.length]) { chains with map := chains.map ++ [some cur] }
        restRewards restPositive nextValid nextDetached
      refine ⟨cur :: pushed, last, ?_, ?_, ?_⟩
      · rw [EStateM.bind_apply_of_ok (Chains.pushWith_apply cur chains),
          EStateM.bind_apply_of_ok (by rw [made]; exact liftFailure_ok _ _), ran]
        simp [List.range'_succ]
      · simp only [List.flatMap_cons, List.append_assoc, msgs, nextMsgs, List.map_cons,
          List.singleton_append]
      · intro node member
        rcases List.mem_cons.mp member with isLast | inPushed
        · exact good node (by simp [isLast])
        · rcases List.mem_cons.mp inPushed with isCur | later
          · rw [isCur]
            exact ⟨curValid, curDetached⟩
          · exact good node (List.mem_cons_of_mem _ later)
    · -- the message joins the current chain
      have grownDetached : Detached baseFee ({ cur with
          msgs := cur.msgs ++ [msg]
          gasReward := cur.gasReward + getGasReward msg baseFee
          gasLimit := cur.gasLimit + msg.gasLimit
          gasPerf := fl.ofRat (((cur.gasReward + getGasReward msg baseFee) * blockGasLimit : Int) /
            ((cur.gasLimit + msg.gasLimit : Int) : ℚ)) } : MsgChainNode A F) :=
        ⟨by simp [curDetached.gasLimit_eq], by simp [curDetached.gasReward_eq],
          by have := curDetached.gasLimit_pos; dsimp only; omega,
          curDetached.next_eq, curDetached.prev_eq⟩
      -- the grown chain is valid as `cur` is; its detachment fixes which node it is
      obtain ⟨pushed, last, ran, msgs, good⟩ := chunkChains_spec baseFee rewards rest _ nodeVec
        chains restRewards restPositive (by exact curValid) grownDetached
      exact ⟨pushed, last, ran, by simp [msgs], good⟩

/-! ## The merging loop -/

/-- The messages of the valid chains among the entries, in order. -/
def validMsgs (entries : List (Nat × MsgChainNode A F)) : List (SignedMessage A) :=
  (entries.filter (·.2.valid)).flatMap (·.2.msgs)

/-- How many of the entries are invalid. -/
def invalidCount (entries : List (Nat × MsgChainNode A F)) : Nat :=
  (entries.filter (!·.2.valid)).length

@[simp] theorem validMsgs_append (first second : List (Nat × MsgChainNode A F)) :
    validMsgs (first ++ second) = validMsgs first ++ validMsgs second := by
  simp [validMsgs]

@[simp] theorem validMsgs_cons (entry : Nat × MsgChainNode A F)
    (rest : List (Nat × MsgChainNode A F)) :
    validMsgs (entry :: rest) = (if entry.2.valid then entry.2.msgs else []) ++ validMsgs rest := by
  cases valid : entry.2.valid <;> simp [validMsgs, valid]

@[simp] theorem invalidCount_cons (entry : Nat × MsgChainNode A F)
    (rest : List (Nat × MsgChainNode A F)) :
    invalidCount (entry :: rest) = (if entry.2.valid then 0 else 1) + invalidCount rest := by
  cases valid : entry.2.valid <;> simp [invalidCount, valid, Nat.add_comm]

@[simp] theorem invalidCount_append (first second : List (Nat × MsgChainNode A F)) :
    invalidCount (first ++ second) = invalidCount first + invalidCount second := by
  simp [invalidCount]

theorem validMsgs_of_valid {entries : List (Nat × MsgChainNode A F)}
    (allValid : ∀ entry ∈ entries, entry.2.valid = true) :
    validMsgs entries = entries.flatMap (·.2.msgs) := by
  rw [validMsgs, List.filter_eq_self.mpr allValid]

theorem invalidCount_eq_zero_iff {entries : List (Nat × MsgChainNode A F)} :
    invalidCount entries = 0 ↔ ∀ entry ∈ entries, entry.2.valid = true := by
  simp [invalidCount, List.filter_eq_nil_iff]

/-- The valid entries and the invalid ones make up the list. -/
theorem length_filter_valid_add_invalidCount (entries : List (Nat × MsgChainNode A F)) :
    (entries.filter (·.2.valid)).length + invalidCount entries = entries.length := by
  induction entries with
  | nil => rfl
  | cons entry rest inductionHypothesis =>
    cases valid : entry.2.valid <;>
      simp [invalidCount, valid] at inductionHypothesis ⊢ <;> omega

/-- One pass of the merging loop from the chain at position `pre.length` down.  The entries
before that chain are valid and detached, and the pass has not reached them; the chain itself
is valid.  The pass keeps the keys and the messages of the valid chains in order, makes one
entry invalid for each merge it counts, leaves the first entry valid and every valid entry
detached, and touches no other slot. -/
theorem mergePass_spec (baseFee : Int) (nodeVec : List Nat) :
    ∀ (pre : List (Nat × MsgChainNode A F)) (cur : Nat × MsgChainNode A F)
      (suf : List (Nat × MsgChainNode A F)) (merged : Nat) (chains : Chains A F),
      (pre ++ cur :: suf).map Prod.fst = nodeVec → nodeVec.Nodup →
      Stored chains (pre ++ cur :: suf) →
      (∀ entry ∈ pre, entry.2.valid = true ∧ Detached baseFee entry.2) →
      cur.2.valid = true → Detached baseFee cur.2 →
      (∀ entry ∈ suf, entry.2.valid = true → Detached baseFee entry.2) →
      ∃ entries merged' chains',
        mergePass fl nodeVec (List.range' 1 pre.length).reverse merged chains =
          .ok merged' chains' ∧
        entries.map Prod.fst = nodeVec ∧ Stored chains' entries ∧
        Untouched nodeVec chains chains' ∧
        validMsgs entries = validMsgs (pre ++ cur :: suf) ∧
        invalidCount entries + merged = invalidCount (pre ++ cur :: suf) + merged' ∧
        (∀ entry ∈ entries, entry.2.valid = true → Detached baseFee entry.2) ∧
        ∃ first rest, entries = first :: rest ∧ first.2.valid = true := by
  intro pre
  induction pre using List.reverseRecOn with
  | nil =>
    intro cur suf merged chains keys _ stored _ curValid curDetached sufDetached
    refine ⟨cur :: suf, merged, chains, rfl, keys, stored, .refl _ _, rfl, rfl, ?_,
      ⟨cur, suf, rfl, curValid⟩⟩
    intro entry member valid
    rcases List.mem_cons.mp member with isCur | later
    · rw [isCur]
      exact curDetached
    · exact sufDetached entry later valid
  | append_singleton pre before inductionHypothesis =>
    intro cur suf merged chains keys distinct stored preGood curValid curDetached sufDetached
    -- the pass compares the chain at `pre.length + 1` with the one before it
    have positions : (List.range' 1 (pre ++ [before]).length).reverse =
        (pre.length + 1) :: (List.range' 1 pre.length).reverse := by
      rw [List.length_append, List.length_singleton, List.range'_concat, List.reverse_append]
      simp [Nat.add_comm]
    have reassociated : pre ++ [before] ++ cur :: suf = pre ++ before :: cur :: suf := by simp
    rw [positions, reassociated]
    rw [reassociated] at keys stored
    have beforeGood := preGood before (by simp)
    have restGood : ∀ entry ∈ pre, entry.2.valid = true ∧ Detached baseFee entry.2 :=
      fun entry member => preGood entry (List.mem_append_left _ member)
    have curKeys : ((pre ++ [before]) ++ cur :: suf).map Prod.fst = nodeVec := by
      rw [List.append_assoc, List.singleton_append]
      exact keys
    have curStored : Stored chains ((pre ++ [before]) ++ cur :: suf) := by
      rw [List.append_assoc, List.singleton_append]
      exact stored
    have readCur := getFrom_apply curKeys
      (show (pre ++ [before]).length = pre.length + 1 by simp) curStored
    have readBefore := getFrom_apply keys (show pre.length = pre.length + 1 - 1 by omega) stored
    rw [mergePass, EStateM.bind_apply_of_ok readCur, EStateM.bind_apply_of_ok readBefore]
    split
    · -- `cur` is merged into `before` and becomes invalid
      have joinedPositive : before.2.gasLimit + cur.2.gasLimit ≠ 0 := by
        have := beforeGood.2.gasLimit_pos
        have := curDetached.gasLimit_pos
        omega
      have keyBefore : nodeVec.getD (pre.length + 1 - 1) 0 = before.1 := by
        rw [← keys]
        simp
      have keyCur : nodeVec.getD (pre.length + 1) 0 = cur.1 := by
        rw [← curKeys]
        simp
      rw [EStateM.bind_apply_of_ok
        (by rw [getGasPerf_of_ne_zero fl _ joinedPositive]; exact liftFailure_ok _ chains),
        keyBefore, keyCur, EStateM.bind_apply_of_ok (Chains.setNode_apply _ _ _),
        EStateM.bind_apply_of_ok (Chains.setNode_apply _ _ _)]
      let joined : MsgChainNode A F := { before.2 with
        msgs := before.2.msgs ++ cur.2.msgs
        gasReward := before.2.gasReward + cur.2.gasReward
        gasLimit := before.2.gasLimit + cur.2.gasLimit
        gasPerf := fl.ofRat (((before.2.gasReward + cur.2.gasReward) * blockGasLimit : Int) /
          ((before.2.gasLimit + cur.2.gasLimit : Int) : ℚ)) }
      have joinedDetached : Detached baseFee joined :=
        ⟨by simp [joined, beforeGood.2.gasLimit_eq, curDetached.gasLimit_eq],
          by simp [joined, beforeGood.2.gasReward_eq, curDetached.gasReward_eq],
          by have := beforeGood.2.gasLimit_pos; have := curDetached.gasLimit_pos; simp [joined]; omega,
          beforeGood.2.next_eq, beforeGood.2.prev_eq⟩
      -- both slots are written: `before` gets the joined chain, `cur` is invalidated
      have distinctHere : ((pre ++ before :: cur :: suf).map Prod.fst).Nodup := by
        rw [keys]
        exact distinct
      have joinedStored := stored.set distinctHere joined
      have joinedStored' : Stored { chains with map := chains.map.set before.1 (some joined) }
          ((pre ++ [(before.1, joined)]) ++ cur :: suf) := by
        rw [List.append_assoc, List.singleton_append]
        exact joinedStored
      have bothStored := joinedStored'.set
        (by rw [List.append_assoc, List.singleton_append]; simpa using distinctHere)
        { cur.2 with valid := false }
      rw [List.append_assoc, List.singleton_append] at bothStored
      have beforeMember : before.1 ∈ nodeVec := by
        rw [← keys]
        simp
      have curMember : cur.1 ∈ nodeVec := by
        rw [← keys]
        simp
      have written : Untouched nodeVec chains _ :=
        (Untouched.set (Chains.lookup_lt_length (stored before (by simp))) beforeMember
          (some joined)).trans
        (Untouched.set (Chains.lookup_lt_length (joinedStored' cur (by simp))) curMember
          (some { cur.2 with valid := false }))
      obtain ⟨entries, merged', chains', ran, entriesKeys, entriesStored, untouched, sameMsgs,
        counted, entriesDetached, headValid⟩ := inductionHypothesis (before.1, joined)
          ((cur.1, { cur.2 with valid := false }) :: suf) (merged + 1) _
          (by rw [← keys]; simp) distinct bothStored restGood (by exact beforeGood.1)
          joinedDetached (fun entry member valid => by
            rcases List.mem_cons.mp member with isCur | later
            · rw [isCur] at valid
              simp at valid
            · exact sufDetached entry later valid)
      refine ⟨entries, merged', chains', ran, entriesKeys, entriesStored, written.trans untouched,
        ?_, ?_, entriesDetached, headValid⟩
      · rw [sameMsgs]
        simp [joined, beforeGood.1, curValid]
      · simp [joined, beforeGood.1, curValid] at counted ⊢
        omega
    · -- `before` stays as it is, and the pass moves down to it
      obtain ⟨entries, merged', chains', ran, entriesKeys, entriesStored, untouched, sameMsgs,
        counted, entriesDetached, headValid⟩ := inductionHypothesis before (cur :: suf) merged
        chains keys distinct stored restGood beforeGood.1 beforeGood.2
        (fun entry member valid => by
          rcases List.mem_cons.mp member with isCur | later
          · rw [isCur]
            exact curDetached
          · exact sufDetached entry later valid)
      exact ⟨entries, merged', chains', by simpa using ran, entriesKeys, entriesStored, untouched,
        sameMsgs, counted, entriesDetached, headValid⟩

/-- `drop_invalid` removes the invalid entries' nodes from the slot map and keeps the keys of the
valid ones, in order. -/
theorem dropInvalid_spec :
    ∀ (entries : List (Nat × MsgChainNode A F)) (chains : Chains A F),
      (entries.map Prod.fst).Nodup → Stored chains entries →
      ∃ chains', Chains.dropInvalid (entries.map Prod.fst) chains =
          .ok ((entries.filter (·.2.valid)).map Prod.fst) chains' ∧
        Stored chains' (entries.filter (·.2.valid)) ∧ Untouched (entries.map Prod.fst) chains chains'
  | [], chains, _, _ => ⟨chains, rfl, fun _ member => (nomatch member), .refl _ _⟩
  | entry :: rest, chains, distinct, stored => by
    rw [List.map_cons, List.nodup_cons] at distinct
    obtain ⟨fresh, restDistinct⟩ := distinct
    have found := stored entry (by simp)
    have covered : ∀ key ∈ rest.map Prod.fst, key ∈ (entry :: rest).map Prod.fst :=
      fun key member => List.mem_cons_of_mem _ member
    rw [List.map_cons, Chains.dropInvalid, EStateM.bind_apply_of_ok (Chains.getNode_apply found)]
    by_cases valid : entry.2.valid = true
    · -- a valid node stays, and so does its slot
      obtain ⟨chains', ran, kept, untouched⟩ := dropInvalid_spec rest chains restDistinct
        fun other member => stored other (List.mem_cons_of_mem _ member)
      refine ⟨chains', ?_, ?_, untouched.mono covered⟩
      · rw [if_pos valid, EStateM.bind_apply_of_ok ran]
        simp [valid, pure, EStateM.pure]
      · rw [List.filter_cons, if_pos valid]
        intro other member
        rcases List.mem_cons.mp member with same | later
        · rw [same, untouched.lookup_eq entry.1 fresh]
          exact found
        · exact kept other later
    · -- an invalid node leaves the slot map
      have present := Chains.lookup_lt_length found
      have restStored : Stored { chains with map := chains.map.set entry.1 none } rest := by
        intro other member
        rw [Chains.lookup_set chains present, if_neg]
        · exact stored other (List.mem_cons_of_mem _ member)
        · rintro same
          exact fresh (same ▸ List.mem_map_of_mem member)
      obtain ⟨chains', ran, kept, untouched⟩ := dropInvalid_spec rest _ restDistinct restStored
      refine ⟨chains', ?_, ?_, ?_⟩
      · rw [if_neg valid, EStateM.modify_bind, List.filter_cons, if_neg valid]
        exact ran
      · rw [List.filter_cons, if_neg valid]
        exact kept
      · exact (Untouched.set present List.mem_cons_self none).trans (untouched.mono covered)

/-- The merging loop with more fuel than entries, from valid detached entries: it ends, with
valid detached entries whose keys are among the first, whose messages are those of the first
in order, and which leave every other slot alone. -/
theorem mergeLoop_spec (baseFee : Int) :
    ∀ (fuel : Nat) (entries : List (Nat × MsgChainNode A F)) (chains : Chains A F),
      entries ≠ [] → entries.length < fuel → (entries.map Prod.fst).Nodup →
      Stored chains entries → (∀ entry ∈ entries, entry.2.valid = true ∧ Detached baseFee entry.2) →
      ∃ merged chains', mergeLoop fl fuel (entries.map Prod.fst) chains =
          .ok (merged.map Prod.fst) chains' ∧
        merged ≠ [] ∧ (merged.map Prod.fst).Sublist (entries.map Prod.fst) ∧
        Stored chains' merged ∧ Untouched (entries.map Prod.fst) chains chains' ∧
        merged.flatMap (·.2.msgs) = entries.flatMap (·.2.msgs) ∧
        ∀ entry ∈ merged, entry.2.valid = true ∧ Detached baseFee entry.2
  | 0, _, _, _, short, _, _, _ => absurd short (Nat.not_lt_zero _)
  | fuel + 1, entries, chains, nonempty, short, distinct, stored, good => by
    -- the first pass starts at the last entry, with the others before it
    have split := List.dropLast_append_getLast nonempty
    have positions : ((List.range (entries.map Prod.fst).length).drop 1).reverse =
        (List.range' 1 entries.dropLast.length).reverse := by
      simp [List.range_eq_range']
    have allValid : ∀ entry ∈ entries, entry.2.valid = true := fun entry member =>
      (good entry member).1
    obtain ⟨passed, merged, chains₁, ran, passedKeys, passedStored, passedUntouched, sameMsgs,
      counted, passedDetached, first, rest, passedEq, firstValid⟩ :=
      mergePass_spec fl baseFee (entries.map Prod.fst) entries.dropLast
        (entries.getLast nonempty) [] 0 chains (by rw [split]) distinct (by rw [split]; exact stored)
        (fun entry member => good entry ((List.dropLast_sublist entries).subset member))
        (good _ (List.getLast_mem nonempty)).1 (good _ (List.getLast_mem nonempty)).2
        (fun _ member => nomatch member)
    rw [split, invalidCount_eq_zero_iff.mpr allValid] at counted
    rw [split, validMsgs_of_valid allValid] at sameMsgs
    have sameLength : passed.length = entries.length := by
      simpa using congrArg List.length passedKeys
    rw [mergeLoop, positions, EStateM.bind_apply_of_ok ran]
    by_cases noMerge : merged = 0
    · -- nothing merged: every entry is still valid, and the loop returns the keys
      have passedValid : ∀ entry ∈ passed, entry.2.valid = true :=
        invalidCount_eq_zero_iff.mp (by omega)
      rw [if_pos noMerge]
      refine ⟨passed, chains₁, by rw [passedKeys]; rfl, by simp [passedEq], by rw [passedKeys],
        passedStored, passedUntouched, by rw [← validMsgs_of_valid passedValid, sameMsgs],
        fun entry member => ⟨passedValid entry member, passedDetached entry member
          (passedValid entry member)⟩⟩
    · -- a merge: the invalid entries go, and the loop goes on with fewer entries
      rw [if_neg noMerge]
      have passedDistinct : (passed.map Prod.fst).Nodup := by
        rw [passedKeys]
        exact distinct
      obtain ⟨chains₂, dropped, keptStored, droppedUntouched⟩ :=
        dropInvalid_spec passed chains₁ passedDistinct passedStored
      rw [passedKeys] at droppedUntouched
      have keptKeys : ((passed.filter (·.2.valid)).map Prod.fst).Sublist (entries.map Prod.fst) := by
        rw [← passedKeys]
        exact List.filter_sublist.map Prod.fst
      have fewer := length_filter_valid_add_invalidCount passed
      obtain ⟨final, chains', ran', finalNonempty, finalKeys, finalStored, finalUntouched,
        finalMsgs, finalGood⟩ :=
        mergeLoop_spec baseFee fuel (passed.filter (·.2.valid)) chains₂
          (List.ne_nil_of_mem (List.mem_filter.mpr ⟨by simp [passedEq], firstValid⟩))
          (by omega) (passedDistinct.sublist (List.filter_sublist.map Prod.fst))
          keptStored (fun entry member => by
            obtain ⟨inPassed, valid⟩ := List.mem_filter.mp member
            exact ⟨valid, passedDetached entry inPassed valid⟩)
      refine ⟨final, chains', ?_, finalNonempty, finalKeys.trans keptKeys, finalStored,
        passedUntouched.trans (droppedUntouched.trans
          (finalUntouched.mono fun key member => keptKeys.subset member)), ?_, finalGood⟩
      · rw [← passedKeys, EStateM.bind_apply_of_ok dropped]
        exact ran'
      · rw [finalMsgs, ← sameMsgs]
        rfl

/-! ## Linking the chains -/

/-- A node without its links. -/
def MsgChainNode.detach (node : MsgChainNode A F) : MsgChainNode A F :=
  { node with next := none, prev := none }

@[simp] theorem MsgChainNode.detach_msgs (node : MsgChainNode A F) :
    node.detach.msgs = node.msgs := rfl

@[simp] theorem MsgChainNode.detach_valid (node : MsgChainNode A F) :
    node.detach.valid = node.valid := rfl

@[simp] theorem MsgChainNode.detach_gasLimit (node : MsgChainNode A F) :
    node.detach.gasLimit = node.gasLimit := rfl

@[simp] theorem MsgChainNode.detach_gasReward (node : MsgChainNode A F) :
    node.detach.gasReward = node.gasReward := rfl

/-- Entries linked in order: each node's `prev` is the key before it (`prev` for the first), and
its `next` the key after it (none for the last). -/
inductive LinkedFrom : Option Nat → List (Nat × MsgChainNode A F) → Prop
  | last {prev : Option Nat} {entry : Nat × MsgChainNode A F} :
      entry.2.prev = prev → entry.2.next = none → LinkedFrom prev [entry]
  | cons {prev : Option Nat} {entry following : Nat × MsgChainNode A F}
      {rest : List (Nat × MsgChainNode A F)} :
      entry.2.prev = prev → entry.2.next = some following.1 →
      LinkedFrom (some entry.1) (following :: rest) →
      LinkedFrom prev (entry :: following :: rest)

section Detached

variable {linked entries : List (Nat × MsgChainNode A F)}

/-- Entries that agree up to their links have the same keys. -/
theorem keys_eq_of_detach_eq
    (same : linked.map (fun entry => (entry.1, entry.2.detach)) =
      entries.map (fun entry => (entry.1, entry.2.detach))) :
    linked.map Prod.fst = entries.map Prod.fst := by
  have keys := congrArg (List.map Prod.fst) same
  simpa [List.map_map, Function.comp_def] using keys

/-- Entries that agree up to their links hold the same messages. -/
theorem flatMap_msgs_eq_of_detach_eq
    (same : linked.map (fun entry => (entry.1, entry.2.detach)) =
      entries.map (fun entry => (entry.1, entry.2.detach))) :
    linked.flatMap (·.2.msgs) = entries.flatMap (·.2.msgs) := by
  have msgs := congrArg (List.flatMap (·.2.msgs)) same
  simpa [List.flatMap_map] using msgs

/-- Each of entries that agree up to their links has a counterpart with the same key and the
same node but for its links. -/
theorem exists_of_detach_eq
    (same : linked.map (fun entry => (entry.1, entry.2.detach)) =
      entries.map (fun entry => (entry.1, entry.2.detach)))
    {entry : Nat × MsgChainNode A F} (member : entry ∈ linked) :
    ∃ other ∈ entries, entry.2.detach = other.2.detach := by
  have listed : (entry.1, entry.2.detach) ∈ entries.map (fun entry => (entry.1, entry.2.detach)) := by
    rw [← same]
    exact List.mem_map_of_mem member
  obtain ⟨other, otherMember, otherEq⟩ := List.mem_map.mp listed
  exact ⟨other, otherMember, (congrArg Prod.snd otherEq).symm⟩

end Detached

/-- The linking loops set each chain's `next` to the key after it and the following chain's
`prev` to its key, and change nothing else of the nodes. -/
theorem linkChains_spec :
    ∀ (first : Nat × MsgChainNode A F) (rest : List (Nat × MsgChainNode A F)) (chains : Chains A F),
      ((first :: rest).map Prod.fst).Nodup → Stored chains (first :: rest) →
      first.2.next = none → (∀ entry ∈ rest, entry.2.next = none ∧ entry.2.prev = none) →
      ∃ linked chains', linkChains ((first :: rest).map Prod.fst) chains = .ok () chains' ∧
        linked.map (fun entry => (entry.1, entry.2.detach)) =
          (first :: rest).map (fun entry => (entry.1, entry.2.detach)) ∧
        Stored chains' linked ∧ Untouched ((first :: rest).map Prod.fst) chains chains' ∧
        LinkedFrom first.2.prev linked
  | first, [], chains, _, stored, lastNext, _ =>
    ⟨[first], chains, rfl, rfl, stored, .refl _ _, .last rfl lastNext⟩
  | first, second :: rest, chains, distinct, stored, firstNext, restUnlinked => by
    have firstFresh : first.1 ∉ (second :: rest).map Prod.fst := (List.nodup_cons.mp distinct).1
    have restDistinct := (List.nodup_cons.mp distinct).2
    have secondOther : second.1 ≠ first.1 := fun same =>
      firstFresh (List.mem_map.mpr ⟨second, List.mem_cons_self, same⟩)
    have firstFound := stored first (by simp)
    have present := Chains.lookup_lt_length firstFound
    -- `first` now points to `second`, whose slot is unchanged so far
    let pointed : MsgChainNode A F := { first.2 with next := some second.1 }
    let chains₁ : Chains A F := { chains with map := chains.map.set first.1 (some pointed) }
    have secondFound : chains₁.lookup second.1 = some second.2 := by
      rw [Chains.lookup_set chains present, if_neg secondOther]
      exact stored second (by simp)
    have secondPresent := Chains.lookup_lt_length secondFound
    let backed : MsgChainNode A F := { second.2 with prev := some first.1 }
    let chains₂ : Chains A F := { chains₁ with map := chains₁.map.set second.1 (some backed) }
    have restStored : Stored chains₂ ((second.1, backed) :: rest) := by
      intro entry member
      rw [Chains.lookup_set chains₁ secondPresent]
      rcases List.mem_cons.mp member with isSecond | later
      · rw [isSecond, if_pos rfl]
      · have otherSecond : entry.1 ≠ second.1 := fun same =>
          (List.nodup_cons.mp restDistinct).1 (List.mem_map.mpr ⟨entry, later, same⟩)
        have otherFirst : entry.1 ≠ first.1 := fun same =>
          firstFresh (List.mem_map.mpr ⟨entry, List.mem_cons_of_mem _ later, same⟩)
        rw [if_neg otherSecond, Chains.lookup_set chains present, if_neg otherFirst]
        exact stored entry (List.mem_cons_of_mem _ (List.mem_cons_of_mem _ later))
    obtain ⟨linked, chains', ran, sameNodes, linkedStored, untouched, linkedFrom⟩ :=
      linkChains_spec (second.1, backed) rest chains₂ restDistinct restStored
        (restUnlinked second (by simp)).1
        (fun entry member => restUnlinked entry (List.mem_cons_of_mem _ member))
    -- the list the loop goes on with starts at `second`
    obtain ⟨following, later, rfl⟩ : ∃ following later, linked = following :: later := by
      cases linked with
      | nil => cases sameNodes
      | cons following later => exact ⟨following, later, rfl⟩
    have followingKey : following.1 = second.1 := by
      simp only [List.map_cons, List.cons.injEq, Prod.mk.injEq] at sameNodes
      exact sameNodes.1.1
    have written : Untouched ((first :: second :: rest).map Prod.fst) chains chains₂ :=
      (Untouched.set present List.mem_cons_self (some pointed)).trans
        (Untouched.set secondPresent (List.mem_cons_of_mem _ List.mem_cons_self) (some backed))
    refine ⟨(first.1, pointed) :: following :: later, chains', ?_, ?_, ?_, ?_, ?_⟩
    · rw [List.map_cons, List.map_cons, linkChains,
        EStateM.bind_apply_of_ok (Chains.getNode_apply firstFound),
        EStateM.bind_apply_of_ok (Chains.setNode_apply _ _ _),
        EStateM.bind_apply_of_ok (Chains.getNode_apply secondFound),
        EStateM.bind_apply_of_ok (Chains.setNode_apply _ _ _)]
      exact ran
    · simp only [List.map_cons, List.cons.injEq] at sameNodes ⊢
      exact ⟨rfl, sameNodes.1.trans (by rfl), sameNodes.2⟩
    · intro entry member
      rcases List.mem_cons.mp member with isFirst | later
      · rw [isFirst, untouched.lookup_eq first.1 firstFresh, Chains.lookup_set chains₁ secondPresent,
          if_neg (Ne.symm secondOther), Chains.lookup_set chains present, if_pos rfl]
      · exact linkedStored entry later
    · exact written.trans (untouched.mono fun key member => List.mem_cons_of_mem _ member)
    · exact .cons rfl (by rw [followingKey]) linkedFrom

/-! ## The chains of one sender -/

/-- Nodes numbered by consecutive slots from `start`. -/
def slotEntries (start : Nat) (nodes : List (MsgChainNode A F)) : List (Nat × MsgChainNode A F) :=
  (List.range' start nodes.length).zip nodes

@[simp] theorem slotEntries_keys (start : Nat) (nodes : List (MsgChainNode A F)) :
    (slotEntries start nodes).map Prod.fst = List.range' start nodes.length :=
  List.map_fst_zip (by simp)

@[simp] theorem slotEntries_nodes (start : Nat) (nodes : List (MsgChainNode A F)) :
    (slotEntries start nodes).map Prod.snd = nodes :=
  List.map_snd_zip (by simp)

/-- Nodes pushed one after another sit in the slots from the old end of the map on. -/
theorem stored_pushed :
    ∀ (nodes : List (MsgChainNode A F)) (chains : Chains A F),
      Stored { chains with map := chains.map ++ nodes.map some }
        (slotEntries chains.map.length nodes)
  | [], _ => fun _ member => nomatch member
  | node :: rest, chains => by
    have later := stored_pushed rest { chains with map := chains.map ++ [some node] }
    simp only [List.length_append, List.length_singleton, List.append_assoc,
      List.singleton_append] at later
    intro entry member
    simp only [slotEntries, List.length_cons, List.range'_succ, List.zip_cons_cons,
      List.mem_cons] at member
    rcases member with isFirst | inRest
    · rw [isFirst]
      simp [Chains.lookup, List.getD_eq_getElem?_getD]
    · exact later entry inRest

/-- The positions paired with the messages after the first are their positions in the run. -/
theorem getElem?_of_mem_zip_range' {α : Type} :
    ∀ (pre rest : List α), ∀ pair ∈ rest.zip (List.range' pre.length rest.length),
      (pre ++ rest)[pair.2]? = some pair.1
  | _, [] => fun _ member => nomatch member
  | pre, item :: rest => by
    intro pair member
    simp only [List.length_cons, List.range'_succ, List.zip_cons_cons, List.mem_cons] at member
    rcases member with isFirst | inRest
    · rw [isFirst]
      simp
    · have later := getElem?_of_mem_zip_range' (pre ++ [item]) rest pair
      simp only [List.length_append, List.length_singleton, List.append_assoc,
        List.singleton_append] at later
      exact later inRest

/-- What `create_message_chains` promises of the chains it appends for a run: their keys follow
the key vector, every slot there before is kept, the new nodes sit in fresh distinct slots,
hold the run in order, are each valid with the gas limit and reward of their own messages,
and are linked both ways in order. -/
structure ChainsAppended (baseFee : Int) (chains chains' : Chains A F)
    (run : List (SignedMessage A)) (entries : List (Nat × MsgChainNode A F)) : Prop where
  keyVec_eq : chains'.keyVec = chains.keyVec ++ entries.map Prod.fst
  earlier : ∀ key < chains.map.length, chains'.lookup key = chains.lookup key
  fresh : ∀ entry ∈ entries, chains.map.length ≤ entry.1
  distinct : (entries.map Prod.fst).Nodup
  stored : Stored chains' entries
  msgs_eq : entries.flatMap (·.2.msgs) = run
  sums : ∀ entry ∈ entries, entry.2.valid = true ∧ entry.2.gasLimit = gasUsed entry.2.msgs ∧
    entry.2.gasReward = totalReward baseFee entry.2.msgs
  linked : entries = [] ∨ LinkedFrom none entries

section Creation

variable (provider : Provider A)

theorem create_message_chains_builds_longest_run {actor : A} {mset : List (SignedMessage A)}
    {baseFee : Int} {chains : Chains A F} {state : ActorState}
    (found : provider.getActorAfter actor = .ok state)
    (keyedByNonce : (mset.map (·.sequence)).Nodup)
    (minGasPositive : ∀ size, 0 < provider.onChainMessageGas size) :
    ∃ run entries chains',
      createMessageChains fl provider actor mset baseFee chains = .ok () chains' ∧
      LongestRun provider.onChainMessageGas state.sequence state.balance mset run ∧
      ChainsAppended baseFee chains chains' run entries := by
  rw [createMessageChains,
    EStateM.bind_apply_of_ok (by simp [liftFailure, found, Except.mapError] :
      liftFailure _ chains = .ok state chains)]
  -- the pending messages in nonce order, with distinct and so increasing nonces
  have permuted := List.perm_insertionSort (fun a b : SignedMessage A => a.sequence ≤ b.sequence) mset
  have sorted := @List.pairwise_insertionSort _ (fun a b : SignedMessage A => a.sequence ≤ b.sequence)
    _ ⟨fun a b => le_total a.sequence b.sequence⟩ ⟨fun _ _ _ => le_trans⟩ mset
  have distinctNonces := (permuted.map (·.sequence)).nodup_iff.mpr keyedByNonce
  have increasing := (sorted.and (List.pairwise_map.mp distinctNonces)).imp
    fun ordered => lt_of_le_of_ne ordered.1 ordered.2
  obtain ⟨run, longest, ⟨skipEq, iEq, rewardsEq⟩, isPrefix⟩ :=
    scanMessages_longestRun provider baseFee permuted increasing state.sequence state.balance
  rw [skipEq, iEq, rewardsEq]
  cases run with
  | nil =>
    -- nothing accepted: the chains are left as they are
    rw [if_pos (by simp)]
    exact ⟨[], [], chains, rfl, longest, ⟨by simp, fun _ _ => rfl,
      fun _ member => (nomatch member), List.nodup_nil, fun _ member => (nomatch member), rfl,
      fun _ member => (nomatch member), Or.inl rfl⟩⟩
  | cons first rest =>
    -- the checks accepted `first :: rest`, which sits right after the skipped messages
    have taken : ((List.insertionSort (fun a b : SignedMessage A => a.sequence ≤ b.sequence)
        mset).drop (List.takeWhile (fun x => decide (x.sequence < state.sequence))
          (List.insertionSort (fun a b : SignedMessage A => a.sequence ≤ b.sequence) mset)).length).take
        ((List.takeWhile (fun x => decide (x.sequence < state.sequence))
          (List.insertionSort (fun a b : SignedMessage A => a.sequence ≤ b.sequence) mset)).length +
          (first :: rest).length -
          (List.takeWhile (fun x => decide (x.sequence < state.sequence))
            (List.insertionSort (fun a b : SignedMessage A => a.sequence ≤ b.sequence) mset)).length) =
        first :: rest := by
      obtain ⟨after, grown⟩ := isPrefix
      rw [Nat.add_sub_cancel_left, drop_length_takeWhile, ← grown, List.take_left]
    rw [if_neg (by simp), taken]
    dsimp only
    -- every accepted message pays its positive minimum gas
    have positive : ∀ msg ∈ first :: rest, 0 < msg.gasLimit := fun msg member =>
      lt_of_lt_of_le (minGasPositive msg.size) (longest.acceptable.minGas_le msg member)
    obtain ⟨cur, made, curMsgs, curValid, curDetached⟩ :=
      newChain_ok fl baseFee (positive first List.mem_cons_self)
    have rewardsAt : ∀ pair ∈ rest.zip (List.range' 1 rest.length),
        ((first :: rest).map (getGasReward · baseFee))[pair.2]? =
          some (getGasReward pair.1 baseFee) := by
      intro pair member
      have inRun := getElem?_of_mem_zip_range' [first] rest pair member
      rw [List.singleton_append] at inRun
      rw [List.getElem?_map, inRun]
      rfl
    obtain ⟨pushed, last, chunked, chunkedMsgs, chunkedGood⟩ :=
      chunkChains_spec fl baseFee ((first :: rest).map (getGasReward · baseFee))
        (rest.zip (List.range' 1 rest.length)) cur [] chains rewardsAt
        (fun pair member => positive pair.1
          (List.mem_cons_of_mem _ (List.of_mem_zip member).1)) curValid curDetached
    rw [EStateM.bind_apply_of_ok
        (by rw [rewardAt_of_getElem? (show ((first :: rest).map (getGasReward · baseFee))[0]? =
          some (getGasReward first baseFee) by simp)]; exact liftFailure_ok _ chains),
      EStateM.bind_apply_of_ok (by rw [made]; exact liftFailure_ok _ chains),
      EStateM.bind_apply_of_ok chunked]
    dsimp only
    rw [EStateM.bind_apply_of_ok (Chains.pushWith_apply _ _)]
    simp only [List.nil_append, List.length_append, List.length_map, List.length_range']
    -- the chains pushed, in their slots from the old end of the map on
    have keys₀ : (slotEntries chains.map.length (pushed ++ [last])).map Prod.fst =
        List.range' chains.map.length pushed.length ++ [chains.map.length + pushed.length] := by
      rw [slotEntries_keys, List.length_append, List.length_singleton, List.range'_concat]
      simp
    have stored₀ : Stored ⟨chains.map ++ pushed.map some ++ [some last], chains.keyVec⟩
        (slotEntries chains.map.length (pushed ++ [last])) := by
      have pushedAll := stored_pushed (pushed ++ [last]) chains
      simpa [List.append_assoc] using pushedAll
    have distinct₀ : ((slotEntries chains.map.length (pushed ++ [last])).map Prod.fst).Nodup := by
      rw [slotEntries_keys]
      exact List.nodup_range'
    have length₀ : (slotEntries chains.map.length (pushed ++ [last])).length = pushed.length + 1 := by
      have lengths := congrArg List.length keys₀
      rw [List.length_map, List.length_append, List.length_range', List.length_singleton] at lengths
      exact lengths
    have good₀ : ∀ entry ∈ slotEntries chains.map.length (pushed ++ [last]),
        entry.2.valid = true ∧ Detached baseFee entry.2 := by
      intro entry member
      have listed : entry.2 ∈ pushed ++ [last] := by
        rw [← slotEntries_nodes chains.map.length (pushed ++ [last])]
        exact List.mem_map_of_mem member
      apply chunkedGood
      rcases List.mem_append.mp listed with inPushed | isLast
      · exact List.mem_cons_of_mem _ inPushed
      · rw [List.mem_singleton.mp isLast]
        exact List.mem_cons_self
    have msgs₀ : (slotEntries chains.map.length (pushed ++ [last])).flatMap (·.2.msgs) =
        first :: rest := by
      have pairsMsgs : (rest.zip (List.range' 1 rest.length)).map Prod.fst = rest :=
        List.map_fst_zip (by simp)
      have viaNodes : (slotEntries chains.map.length (pushed ++ [last])).flatMap (·.2.msgs) =
          ((slotEntries chains.map.length (pushed ++ [last])).map Prod.snd).flatMap
            (fun node : MsgChainNode A F => node.msgs) := by
        rw [List.flatMap_map]
      rw [viaNodes, slotEntries_nodes, List.flatMap_append, List.flatMap_singleton, chunkedMsgs,
        curMsgs, pairsMsgs]
      rfl
    obtain ⟨merged, chains₃, mergeRan, mergedNonempty, mergedKeys, mergedStored, mergeUntouched,
      mergedMsgs, mergedGood⟩ :=
      mergeLoop_spec fl baseFee (pushed.length + 2) _ _
        (List.ne_nil_of_length_pos (by omega)) (by omega) distinct₀ stored₀ good₀
    obtain ⟨head, tail, rfl⟩ := List.exists_cons_of_ne_nil mergedNonempty
    have mergedDistinct := distinct₀.sublist mergedKeys
    obtain ⟨linked, chains₄, linkRan, sameNodes, linkedStored, linkUntouched, linkedFrom⟩ :=
      linkChains_spec head tail chains₃ mergedDistinct mergedStored
        (mergedGood head List.mem_cons_self).2.next_eq
        (fun entry member => ⟨(mergedGood entry (List.mem_cons_of_mem _ member)).2.next_eq,
          (mergedGood entry (List.mem_cons_of_mem _ member)).2.prev_eq⟩)
    have linkedKeys := keys_eq_of_detach_eq sameNodes
    -- every key the chains get is one of the fresh slots
    have freshKey : ∀ key ∈ linked.map Prod.fst, chains.map.length ≤ key := by
      intro key member
      rw [linkedKeys] at member
      have pushedKey := mergedKeys.subset member
      rw [keys₀, List.mem_append, List.mem_range'_1, List.mem_singleton] at pushedKey
      omega
    refine ⟨first :: rest, linked, { chains₄ with keyVec := chains₄.keyVec ++ (head :: tail).map Prod.fst },
      ?_, longest, ⟨?_, ?_, ?_, ?_, linkedStored, ?_, ?_, Or.inr ?_⟩⟩
    · rw [← keys₀, EStateM.bind_apply_of_ok mergeRan, EStateM.bind_apply_of_ok linkRan]
      rfl
    · rw [linkUntouched.keyVec_eq, mergeUntouched.keyVec_eq, linkedKeys]
    · intro key below
      have notLinked : key ∉ (head :: tail).map Prod.fst := fun member =>
        absurd (freshKey key (linkedKeys ▸ member)) (by omega)
      have notPushed : key ∉ (slotEntries chains.map.length (pushed ++ [last])).map Prod.fst :=
        fun member => notLinked (by
          rw [keys₀, List.mem_append, List.mem_range'_1, List.mem_singleton] at member
          omega)
      show chains₄.lookup key = chains.lookup key
      rw [linkUntouched.lookup_eq key notLinked, mergeUntouched.lookup_eq key notPushed]
      simp [Chains.lookup, List.getD_eq_getElem?_getD, List.getElem?_append_left below]
    · exact fun entry member => freshKey entry.1 (List.mem_map_of_mem member)
    · rw [linkedKeys]
      exact mergedDistinct
    · rw [flatMap_msgs_eq_of_detach_eq sameNodes, mergedMsgs, msgs₀]
    · intro entry member
      obtain ⟨other, otherMember, sameNode⟩ := exists_of_detach_eq sameNodes member
      obtain ⟨otherValid, otherDetached⟩ := mergedGood other otherMember
      have valid := congrArg MsgChainNode.valid sameNode
      have msgs := congrArg MsgChainNode.msgs sameNode
      have gasLimit := congrArg MsgChainNode.gasLimit sameNode
      have gasReward := congrArg MsgChainNode.gasReward sameNode
      simp only [MsgChainNode.detach_valid, MsgChainNode.detach_msgs,
        MsgChainNode.detach_gasLimit, MsgChainNode.detach_gasReward] at valid msgs gasLimit gasReward
      rw [valid, msgs, gasLimit, gasReward]
      exact ⟨otherValid, otherDetached.gasLimit_eq, otherDetached.gasReward_eq⟩
    · rw [← (mergedGood head List.mem_cons_self).2.prev_eq]
      exact linkedFrom

/-- Two pending messages of sender 0 at nonces 1 and 0 with the mainnet price list before the
calico upgrade, an actor at nonce 0 with a large balance, base fee 0, and no chains yet. -/
theorem create_message_chains_two_pending :
    ∃ run entries chains',
      createMessageChains FloatOps.rat
          ⟨fun _ => .ok ⟨0, 1000000000000⟩, .ok 0, onChainMessageTotal (storageGasMultiplier 265200 0)⟩
          0 [⟨0, 1, 0, 200000, 10, 1, 50⟩, ⟨0, 0, 0, 200000, 10, 1, 50⟩] 0 Chains.new =
        .ok () chains' ∧
      LongestRun (onChainMessageTotal (storageGasMultiplier 265200 0)) 0 1000000000000
        [⟨0, 1, 0, 200000, 10, 1, 50⟩, ⟨0, 0, 0, 200000, 10, 1, 50⟩] run ∧
      ChainsAppended 0 Chains.new chains' run entries :=
  create_message_chains_builds_longest_run FloatOps.rat
    ⟨fun _ => .ok ⟨0, 1000000000000⟩, .ok 0, onChainMessageTotal (storageGasMultiplier 265200 0)⟩
    rfl (by decide) (onChainMessageTotal_pos 265200 0)

end Creation

end Forest.MessagePool
