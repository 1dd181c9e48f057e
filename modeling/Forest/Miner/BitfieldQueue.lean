import Forest.Miner.Policy
import Forest.Lib.SortedMap
import Forest.Lib.I64
import Forest.Lib.Result
import Forest.Amt.Node
import Forest.Bitfield.Sets
import Mathlib.Data.Finset.Card
import Mathlib.Data.List.Dedup
import Mathlib.Data.List.Sort
import Mathlib.Logic.Relation

namespace Forest.Miner

/-!
# The bit field queue

`BitFieldQueue` of `miner/bitfield_queue.rs`: an AMT of bit fields whose index is a
quantized epoch cast with `epoch as usize`.  The AMT is the map it stands for, a
`SortedMap` of indices visited in increasing order, with the range check of `get`, `set`
and `delete` (an index above `MAX_INDEX` is `OutOfRange`) and the strict `batch_delete`.
A bit field is the set of its bits; `cut` goes through `BitField::cut` of `Forest.Bitfield`
(`cutBits`), which within `usize` is the cut of the sets (`cutBits_eq_cutSet`).

The casts are the two's complement ones of `I64`: a negative epoch is stored at an index
from `2 ^ 63` on, behind every non-negative one, and `pop_until` reads the index back with
`epoch as ChainEpoch`.  Its traversal stops at the first index past `until`, so it pops
exactly the entries up to `until` when the epochs are not negative, and may stop before a
negative one otherwise.
-/

/-! ## The AMT as a map -/

section AmtMap

variable {V : Type}

/-- The text of the AMT's `Error::OutOfRange`. -/
def outOfRangeText (index : Nat) : String :=
  s!"index {index} out of range for the amt"

/-- `Amt::get`: an index above `MAX_INDEX` is out of range. -/
def amtGet (amt : SortedMap Nat V) (index : Nat) : Except String (Option V) :=
  if index > AMT.maxIndex then .error (outOfRangeText index) else .ok (amt.get? index)

/-- `Amt::set`: an index above `MAX_INDEX` is out of range. -/
def amtSet (amt : SortedMap Nat V) (index : Nat) (value : V) : Except String (SortedMap Nat V) :=
  if index > AMT.maxIndex then .error (outOfRangeText index) else .ok (amt.set index value)

/-- `Amt::batch_delete`: `delete` at each index in increasing order, which checks the range;
with `strict`, an index without a value is an error.  The queue does not read the flag it
returns. -/
def amtBatchDelete (amt : SortedMap Nat V) (indices : List Nat) (strict : Bool) :
    Except String (SortedMap Nat V) :=
  go amt (indices.insertionSort (· ≤ ·))
where
  go (amt : SortedMap Nat V) : List Nat → Except String (SortedMap Nat V)
    | [] => .ok amt
    | index :: rest =>
      if index > AMT.maxIndex then .error (outOfRangeText index)
      else
        match amt.get? index with
        | none =>
          if strict then .error s!"no such index {index} in Amt for batch delete"
          else go amt rest
        | some _ => go (amt.delete index) rest

/-- Deleting distinct indices that all hold a value within the range keeps the other
entries. -/
theorem amtBatchDelete_go_of_present (strict : Bool) :
    ∀ (indices : List Nat) (amt : SortedMap Nat V), indices.Nodup →
      (∀ index ∈ indices, index ≤ AMT.maxIndex ∧ (amt.get? index).isSome) →
      amtBatchDelete.go strict amt indices = .ok (amt.filterKeys fun index => index ∉ indices) := by
  intro indices
  induction indices with
  | nil =>
    intro amt _ _
    simp only [amtBatchDelete.go, List.not_mem_nil, not_false_eq_true, decide_true]
    rw [SortedMap.filterKeys_of_forall fun _ _ => rfl]
  | cons index rest inductionHypothesis =>
    intro amt distinct present
    obtain ⟨notInRest, restDistinct⟩ := List.nodup_cons.mp distinct
    obtain ⟨inRange, holds⟩ := present index List.mem_cons_self
    obtain ⟨value, found⟩ := Option.isSome_iff_exists.mp holds
    -- the other indices still hold their values once `index` is gone
    have restPresent : ∀ other ∈ rest, other ≤ AMT.maxIndex ∧ ((amt.delete index).get? other).isSome := by
      intro other member
      have otherNe : other ≠ index := fun same => notInRest (same ▸ member)
      simpa [otherNe] using present other (List.mem_cons_of_mem index member)
    have notAbove : ¬ index > AMT.maxIndex := by omega
    simp only [amtBatchDelete.go, notAbove, if_false, found]
    rw [inductionHypothesis (amt.delete index) restDistinct restPresent]
    congr 1
    apply SortedMap.ext_get?
    intro other
    by_cases same : other = index
    · simp [same]
    · simp [same]

/-- `Amt::batch_delete` of distinct indices that all hold a value within the range. -/
theorem amtBatchDelete_of_present {amt : SortedMap Nat V} {indices : List Nat} (strict : Bool)
    (distinct : indices.Nodup)
    (present : ∀ index ∈ indices, index ≤ AMT.maxIndex ∧ (amt.get? index).isSome) :
    amtBatchDelete amt indices strict = .ok (amt.filterKeys fun index => index ∉ indices) := by
  have sorted : (indices.insertionSort (· ≤ ·)).Perm indices := List.perm_insertionSort _ _
  unfold amtBatchDelete
  rw [amtBatchDelete_go_of_present strict _ amt (sorted.nodup_iff.mpr distinct)
    fun index member => present index (sorted.mem_iff.mp member)]
  simp only [sorted.mem_iff]

end AmtMap

/-- `bitfield.cut(to_cut)`: `BitField::cut` of the bit fields of the sets. -/
def cutBits (bits toCut : Finset Nat) : Finset Nat :=
  ((Bitfield.BitField.fromIter bits).cut (Bitfield.BitField.fromIter toCut)).toFinset

/-- Within `usize`, the cut of the bit fields is the cut of the sets: the bits outside `toCut`,
each moved down by the bits of `toCut` below it. -/
theorem cutBits_eq_cutSet {bits toCut : Finset Nat} (bounded : ∀ bit ∈ bits, bit < Usize.max)
    (cutBounded : ∀ bit ∈ toCut, bit < Usize.max) :
    cutBits bits toCut = Bitfield.cutSet bits toCut :=
  Bitfield.toFinset_cut_fromIter bounded cutBounded

/-- The union of the bit fields of some entries. -/
def unionValues (entries : List (Nat × Finset Nat)) : Finset Nat :=
  entries.foldr (fun entry union => entry.2 ∪ union) ∅

/-- `BitFieldQueue`: the AMT of bit fields by the index of their epoch, and the
quantization of the epochs. -/
structure BitFieldQueue where
  amt : SortedMap Nat (Finset Nat)
  quant : QuantSpec

namespace BitFieldQueue

/-- A queue with no entries. -/
def empty (quant : QuantSpec) : BitFieldQueue :=
  ⟨SortedMap.empty, quant⟩

/-- `BitFieldQueue::add_to_queue`: the values join the entry at the index of the quantized
epoch. -/
def addToQueue (queue : BitFieldQueue) (rawEpoch : Int) (values : Finset Nat) :
    Except String BitFieldQueue :=
  if values = ∅ then .ok queue
  else
    let epoch := queue.quant.quantizeUp rawEpoch
    match amtGet queue.amt (I64.toUsize epoch) with
    | .error cause => .error s!"failed to lookup queue epoch {epoch}: {cause}"
    | .ok bitfield =>
      match amtSet queue.amt (I64.toUsize epoch) (bitfield.getD ∅ ∪ values) with
      | .error cause => .error s!"failed to set queue epoch {epoch}: {cause}"
      | .ok amt => .ok { queue with amt := amt }

/-- `BitFieldQueue::add_to_queue_values`: the values collected into a bit field. -/
def addToQueueValues (queue : BitFieldQueue) (epoch : Int) (values : List Nat) :
    Except String BitFieldQueue :=
  if values.isEmpty then .ok queue else queue.addToQueue epoch values.toFinset

/-- The closure of `BitFieldQueue::cut` over one entry: an entry the cut empties is kept as
it is and its index recorded for removal. -/
def cutVisit (toCut : Finset Nat) (epoch : Nat) (bitfield : Finset Nat)
    (epochsToRemove : List Nat) : Except String (Bool × Finset Nat × List Nat) :=
  let bf := cutBits bitfield toCut
  if bf = ∅ then .ok (true, bitfield, epochsToRemove ++ [epoch])
  else .ok (true, bf, epochsToRemove)

/-- `BitFieldQueue::cut`: cut every entry in place, then delete the emptied ones. -/
def cut (queue : BitFieldQueue) (toCut : Finset Nat) : Except String BitFieldQueue :=
  match queue.amt.forEachWhileMutMap (cutVisit toCut) [] with
  | .error cause => .error s!"failed to cut from bitfield queue: {cause}"
  | .ok (amt, epochsToRemove) =>
    match amtBatchDelete amt epochsToRemove true with
    | .error cause => .error s!"failed to remove empty epochs from bitfield queue: {cause}"
    | .ok amt => .ok { queue with amt := amt }

/-- `BitFieldQueue::add_many_to_queue_values`: the values are gathered by quantized epoch,
in the order the hash map is visited, and added epoch by epoch in increasing order.  Each
epoch is visited once, so `quantized_values.remove(&epoch)` is a lookup. -/
def addManyToQueueValues (queue : BitFieldQueue) (values : List (Int × List Nat)) :
    Except String BitFieldQueue :=
  let quantizedValues : Int → List Nat := fun epoch =>
    ((values.filter fun entry => queue.quant.quantizeUp entry.1 = epoch).map Prod.snd).flatten
  let updatedEpochs := ((values.map fun entry => queue.quant.quantizeUp entry.1).dedup).insertionSort
    (· ≤ ·)
  updatedEpochs.foldlM (fun queue epoch => queue.addToQueueValues epoch (quantizedValues epoch)) queue

/-- The closure of `BitFieldQueue::pop_until`: stop at the first index whose epoch is past
`untilEpoch` (`until`), otherwise take its index and its bits. -/
def popVisit (untilEpoch : Int) (epoch : Nat) (bitfield : Finset Nat)
    (popped : Finset Nat × List Nat) : Except String (Bool × Finset Nat × List Nat) :=
  if I64.ofUsize epoch > untilEpoch then .ok (false, popped)
  else .ok (true, popped.1 ∪ bitfield, popped.2 ++ [epoch])

/-- `BitFieldQueue::pop_until`: the bits popped and whether the queue changed, with the
queue left. -/
def popUntil (queue : BitFieldQueue) (untilEpoch : Int) :
    Except String ((Finset Nat × Bool) × BitFieldQueue) :=
  match SortedMap.forEachWhile (popVisit untilEpoch) queue.amt.entries (∅, []) with
  | .error cause => .error cause
  | .ok (poppedValues, poppedKeys) =>
    if poppedKeys.isEmpty then .ok ((∅, false), queue)
    else
      match amtBatchDelete queue.amt poppedKeys true with
      | .error cause => .error cause
      | .ok amt => .ok ((poppedValues, true), { queue with amt := amt })

/-! ## What each call does -/

/-- The entries `pop_until` visits before it stops: those up to the first one past
`untilEpoch`. -/
def poppedEntries (queue : BitFieldQueue) (untilEpoch : Int) : List (Nat × Finset Nat) :=
  queue.amt.entries.takeWhile fun entry => I64.ofUsize entry.1 ≤ untilEpoch

theorem addToQueue_of_empty (queue : BitFieldQueue) (rawEpoch : Int) :
    queue.addToQueue rawEpoch ∅ = .ok queue := by
  simp [addToQueue]

/-- Within the AMT's range, the values join the entry at the index of the quantized epoch. -/
theorem addToQueue_of_le {queue : BitFieldQueue} {rawEpoch : Int} {values : Finset Nat}
    (nonempty : values ≠ ∅) (inRange : I64.toUsize (queue.quant.quantizeUp rawEpoch) ≤ AMT.maxIndex) :
    queue.addToQueue rawEpoch values =
      .ok { queue with
        amt := queue.amt.set (I64.toUsize (queue.quant.quantizeUp rawEpoch))
          ((queue.amt.get? (I64.toUsize (queue.quant.quantizeUp rawEpoch))).getD ∅ ∪ values) } := by
  have notAbove : ¬ I64.toUsize (queue.quant.quantizeUp rawEpoch) > AMT.maxIndex := by omega
  simp [addToQueue, amtGet, amtSet, nonempty, notAbove]

/-- Past the AMT's range, the lookup of the entry fails. -/
theorem addToQueue_of_gt {queue : BitFieldQueue} {rawEpoch : Int} {values : Finset Nat}
    (nonempty : values ≠ ∅) (outside : AMT.maxIndex < I64.toUsize (queue.quant.quantizeUp rawEpoch)) :
    queue.addToQueue rawEpoch values =
      .error ("failed to lookup queue epoch " ++ toString (queue.quant.quantizeUp rawEpoch) ++ ": " ++
        outOfRangeText (I64.toUsize (queue.quant.quantizeUp rawEpoch))) := by
  simp only [addToQueue, amtGet, nonempty, if_false, outside, if_true]
  rfl

/-- The traversal of `pop_until` takes the entries up to the first one past `untilEpoch`. -/
theorem forEachWhile_popVisit (untilEpoch : Int) :
    ∀ (entries : List (Nat × Finset Nat)) (popped : Finset Nat × List Nat),
      SortedMap.forEachWhile (popVisit untilEpoch) entries popped =
        .ok (popped.1 ∪ unionValues (entries.takeWhile fun entry => I64.ofUsize entry.1 ≤ untilEpoch),
          popped.2 ++ (entries.takeWhile fun entry => I64.ofUsize entry.1 ≤ untilEpoch).map Prod.fst) := by
  intro entries
  induction entries with
  | nil => intro popped; simp [SortedMap.forEachWhile, unionValues]
  | cons entry rest inductionHypothesis =>
    intro popped
    obtain ⟨epoch, bitfield⟩ := entry
    by_cases past : I64.ofUsize epoch > untilEpoch
    · have notTaken : ¬ I64.ofUsize epoch ≤ untilEpoch := by omega
      simp [SortedMap.forEachWhile, popVisit, past, notTaken, unionValues]
    · have taken : I64.ofUsize epoch ≤ untilEpoch := by omega
      simp [SortedMap.forEachWhile, popVisit, past, taken, inductionHypothesis, unionValues,
        Finset.union_assoc]

/-- `pop_until` returns the bits of the entries it visits before it stops, and deletes those
entries. -/
theorem popUntil_eq (queue : BitFieldQueue) (untilEpoch : Int)
    (inRange : ∀ entry ∈ queue.amt.entries, entry.1 ≤ AMT.maxIndex) :
    queue.popUntil untilEpoch =
      .ok ((unionValues (queue.poppedEntries untilEpoch), !(queue.poppedEntries untilEpoch).isEmpty),
        { queue with amt := queue.amt.filterKeys fun index =>
            index ∉ (queue.poppedEntries untilEpoch).map Prod.fst }) := by
  have traversal := forEachWhile_popVisit untilEpoch queue.amt.entries (∅, [])
  rw [show queue.amt.entries.takeWhile _ = queue.poppedEntries untilEpoch from rfl] at traversal
  unfold popUntil
  rw [traversal]
  by_cases nonePopped : queue.poppedEntries untilEpoch = []
  · have unchanged : queue.amt.filterKeys (fun index =>
        index ∉ (queue.poppedEntries untilEpoch).map Prod.fst) = queue.amt :=
      SortedMap.filterKeys_of_forall fun _ _ => by simp [nonePopped]
    rw [unchanged]
    simp [nonePopped, unionValues]
  · -- the popped indices are distinct keys of the map, so the strict delete succeeds
    have prefixOf : queue.poppedEntries untilEpoch <+: queue.amt.entries := List.takeWhile_prefix _
    have distinct : ((queue.poppedEntries untilEpoch).map Prod.fst).Nodup :=
      (prefixOf.sublist.map Prod.fst).nodup queue.amt.keys_nodup
    have present : ∀ index ∈ (queue.poppedEntries untilEpoch).map Prod.fst,
        index ≤ AMT.maxIndex ∧ (queue.amt.get? index).isSome := by
      intro index member
      obtain ⟨⟨key, bits⟩, popped, rfl⟩ := List.mem_map.mp member
      have stored := prefixOf.subset popped
      exact ⟨inRange _ stored, by simp [(SortedMap.mem_entries_iff queue.amt).mp stored]⟩
    simp [nonePopped, amtBatchDelete_of_present true distinct present]

/-- The traversal of `cut` cuts every entry in place, keeping the bits of an entry the cut
empties, and records the emptied indices in order. -/
theorem forEachWhileMut_cutVisit (toCut : Finset Nat) :
    ∀ (entries : List (Nat × Finset Nat)) (epochsToRemove : List Nat),
      SortedMap.forEachWhileMut (cutVisit toCut) entries epochsToRemove =
        .ok (entries.map (fun entry =>
            (entry.1, if cutBits entry.2 toCut = ∅ then entry.2 else cutBits entry.2 toCut)),
          epochsToRemove ++ (entries.filter fun entry => cutBits entry.2 toCut = ∅).map Prod.fst) := by
  intro entries
  induction entries with
  | nil => intro epochsToRemove; simp [SortedMap.forEachWhileMut]
  | cons entry rest inductionHypothesis =>
    intro epochsToRemove
    obtain ⟨epoch, bitfield⟩ := entry
    by_cases emptied : cutBits bitfield toCut = ∅
    · simp [SortedMap.forEachWhileMut, cutVisit, emptied, inductionHypothesis]
    · simp [SortedMap.forEachWhileMut, cutVisit, emptied, inductionHypothesis]

/-- `cut` replaces the bits of every entry by their cut and drops the entries it empties. -/
theorem cut_eq (queue : BitFieldQueue) (toCut : Finset Nat)
    (inRange : ∀ entry ∈ queue.amt.entries, entry.1 ≤ AMT.maxIndex) :
    ∃ after, queue.cut toCut = .ok after ∧ after.quant = queue.quant ∧
      after.amt.entries = (queue.amt.entries.filter fun entry => cutBits entry.2 toCut ≠ ∅).map
        fun entry => (entry.1, cutBits entry.2 toCut) := by
  let change : Finset Nat → Finset Nat := fun bits =>
    if cutBits bits toCut = ∅ then bits else cutBits bits toCut
  let emptied := (queue.amt.entries.filter fun entry => cutBits entry.2 toCut = ∅).map Prod.fst
  obtain ⟨cutMap, traversed, cutEntries⟩ :=
    SortedMap.forEachWhileMutMap_of_ok (forEachWhileMut_cutVisit toCut queue.amt.entries [])
  -- the emptied indices are distinct keys, and the traversal kept their entries
  have distinct : emptied.Nodup :=
    (List.filter_sublist.map Prod.fst).nodup queue.amt.keys_nodup
  have present : ∀ index ∈ emptied, index ≤ AMT.maxIndex ∧ (cutMap.get? index).isSome := by
    intro index member
    obtain ⟨⟨key, bits⟩, chosen, rfl⟩ := List.mem_map.mp member
    have stored := (List.mem_filter.mp chosen).1
    have found := (SortedMap.mem_entries_iff queue.amt).mp stored
    have kept : cutMap.get? key = some (change bits) := by
      rw [SortedMap.get?, cutEntries, SortedMap.find?_map_values change]
      exact congrArg (Option.map change) found
    exact ⟨inRange _ stored, by simp [kept]⟩
  -- an index is emptied exactly when the cut of its own entry is empty
  have emptiedIff : ∀ entry ∈ queue.amt.entries, entry.1 ∈ emptied ↔ cutBits entry.2 toCut = ∅ := by
    intro entry stored
    have membership : entry.1 ∈ emptied ↔ decide (cutBits entry.2 toCut = ∅) = true :=
      queue.amt.mem_keys_filter_iff stored
    simpa using membership
  refine ⟨{ queue with amt := cutMap.filterKeys fun index => index ∉ emptied }, ?_, rfl, ?_⟩
  · simp [cut, traversed, amtBatchDelete_of_present true distinct present, emptied]
  · simp only [SortedMap.filterKeys, cutEntries, List.filter_map]
    have sameEntries : queue.amt.entries.filter
        ((fun entry => decide (entry.1 ∉ emptied)) ∘ fun entry => (entry.1, change entry.2)) =
        queue.amt.entries.filter fun entry => cutBits entry.2 toCut ≠ ∅ :=
      List.filter_congr fun entry stored => by simp [emptiedIff entry stored]
    rw [sameEntries]
    apply List.map_congr_left
    intro entry chosen
    have notEmpty : cutBits entry.2 toCut ≠ ∅ := by simpa using (List.mem_filter.mp chosen).2
    simp [notEmpty]

/-- What a call of `add_to_queue` that returns `Ok` did: nothing for no values, and otherwise
join them to the entry at an index within the AMT's range. -/
theorem addToQueue_cases {queue after : BitFieldQueue} {rawEpoch : Int} {values : Finset Nat}
    (ran : queue.addToQueue rawEpoch values = .ok after) :
    (values = ∅ ∧ after = queue) ∨
      (values ≠ ∅ ∧ I64.toUsize (queue.quant.quantizeUp rawEpoch) ≤ AMT.maxIndex ∧
        after = { queue with
          amt := queue.amt.set (I64.toUsize (queue.quant.quantizeUp rawEpoch))
            ((queue.amt.get? (I64.toUsize (queue.quant.quantizeUp rawEpoch))).getD ∅ ∪ values) }) := by
  by_cases noValues : values = ∅
  · subst noValues
    rw [addToQueue_of_empty, Except.ok.injEq] at ran
    exact .inl ⟨rfl, ran.symm⟩
  · by_cases inRange : I64.toUsize (queue.quant.quantizeUp rawEpoch) ≤ AMT.maxIndex
    · rw [addToQueue_of_le noValues inRange, Except.ok.injEq] at ran
      exact .inr ⟨noValues, inRange, ran.symm⟩
    · rw [addToQueue_of_gt noValues (by omega)] at ran
      cases ran

/-! ## The invariant of a queue -/

/-- What the queue keeps of an entry: its index is the cast of an epoch that quantization
leaves in place, within the AMT's range, and its bit field is not empty. -/
structure EntryWellformed (quant : QuantSpec) (entry : Nat × Finset Nat) : Prop where
  quantized : ∃ epoch, quant.quantizeUp epoch = epoch ∧ I64.toUsize epoch = entry.1
  inRange : entry.1 ≤ AMT.maxIndex
  nonempty : entry.2.Nonempty

/-- Every entry of the queue is well formed. -/
def Wellformed (queue : BitFieldQueue) : Prop :=
  ∀ entry ∈ queue.amt.entries, EntryWellformed queue.quant entry

theorem wellformed_empty (quant : QuantSpec) : (empty quant).Wellformed := by
  simp [Wellformed, empty, SortedMap.empty]

theorem Wellformed.inRange {queue : BitFieldQueue} (wellformed : queue.Wellformed) :
    ∀ entry ∈ queue.amt.entries, entry.1 ≤ AMT.maxIndex :=
  fun entry stored => (wellformed entry stored).inRange

/-- A queue whose entries are among those of a well-formed one is well formed. -/
theorem Wellformed.of_subset {queue after : BitFieldQueue} (wellformed : queue.Wellformed)
    (sameQuant : after.quant = queue.quant)
    (subset : ∀ entry ∈ after.amt.entries, entry ∈ queue.amt.entries) : after.Wellformed := by
  intro entry stored
  rw [sameQuant]
  exact wellformed entry (subset entry stored)

section Preservation

variable {queue after : BitFieldQueue}

theorem Wellformed.addToQueue (positive : 0 < queue.quant.unit) (wellformed : queue.Wellformed)
    {rawEpoch : Int} {values : Finset Nat} (ran : queue.addToQueue rawEpoch values = .ok after) :
    after.Wellformed ∧ after.quant = queue.quant := by
  rcases addToQueue_cases ran with ⟨_, rfl⟩ | ⟨nonempty, inRange, rfl⟩
  · exact ⟨wellformed, rfl⟩
  · refine ⟨?_, rfl⟩
    intro entry stored
    -- the new entry comes first, the others are kept from the old map
    rcases List.mem_cons.mp ((queue.amt.perm_set _ _).subset stored) with rfl | kept
    · refine ⟨⟨queue.quant.quantizeUp rawEpoch, QuantSpec.quantizeUp_quantizeUp positive rawEpoch, rfl⟩,
        inRange, ?_⟩
      exact (Finset.nonempty_iff_ne_empty.mpr nonempty).mono Finset.subset_union_right
    · exact wellformed entry (List.mem_of_mem_filter kept)

theorem Wellformed.addToQueueValues (positive : 0 < queue.quant.unit)
    (wellformed : queue.Wellformed) {epoch : Int} {values : List Nat}
    (ran : queue.addToQueueValues epoch values = .ok after) :
    after.Wellformed ∧ after.quant = queue.quant := by
  unfold BitFieldQueue.addToQueueValues at ran
  split at ran
  · cases ran
    exact ⟨wellformed, rfl⟩
  · exact wellformed.addToQueue positive ran

theorem Wellformed.addManyToQueueValues (positive : 0 < queue.quant.unit)
    (wellformed : queue.Wellformed) {values : List (Int × List Nat)}
    (ran : queue.addManyToQueueValues values = .ok after) :
    after.Wellformed ∧ after.quant = queue.quant := by
  -- every epoch is added with the quantization of the queue, which no addition changes
  refine Except.foldlM_invariant (fun current => current.Wellformed ∧ current.quant = queue.quant)
    ?_ ⟨wellformed, rfl⟩ ran
  rintro current epoch next ⟨currentWellformed, sameQuant⟩ step
  obtain ⟨nextWellformed, nextQuant⟩ :=
    currentWellformed.addToQueueValues (sameQuant ▸ positive) step
  exact ⟨nextWellformed, nextQuant.trans sameQuant⟩

theorem Wellformed.cut (wellformed : queue.Wellformed) {toCut : Finset Nat}
    (ran : queue.cut toCut = .ok after) : after.Wellformed ∧ after.quant = queue.quant := by
  obtain ⟨cutQueue, cutRan, sameQuant, cutEntries⟩ := cut_eq queue toCut wellformed.inRange
  rw [cutRan, Except.ok.injEq] at ran
  subst ran
  refine ⟨?_, sameQuant⟩
  intro entry stored
  rw [cutEntries] at stored
  obtain ⟨⟨index, bits⟩, chosen, rfl⟩ := List.mem_map.mp stored
  obtain ⟨kept, notEmpty⟩ := List.mem_filter.mp chosen
  have old := wellformed _ kept
  rw [sameQuant]
  exact ⟨old.quantized, old.inRange, Finset.nonempty_iff_ne_empty.mpr (by simpa using notEmpty)⟩

theorem Wellformed.popUntil (wellformed : queue.Wellformed) {untilEpoch : Int}
    {popped : Finset Nat × Bool} (ran : queue.popUntil untilEpoch = .ok (popped, after)) :
    after.Wellformed ∧ after.quant = queue.quant := by
  rw [popUntil_eq queue untilEpoch wellformed.inRange, Except.ok.injEq, Prod.mk.injEq] at ran
  obtain ⟨_, rfl⟩ := ran
  exact ⟨wellformed.of_subset rfl fun entry stored => (SortedMap.mem_filterKeys.mp stored).1, rfl⟩

end Preservation

/-- A call on the queue that returns `Ok`, and the queue it leaves. -/
inductive Step : BitFieldQueue → BitFieldQueue → Prop
  | addToQueue {queue after : BitFieldQueue} (rawEpoch : Int) (values : Finset Nat) :
    queue.addToQueue rawEpoch values = .ok after → Step queue after
  | addToQueueValues {queue after : BitFieldQueue} (epoch : Int) (values : List Nat) :
    queue.addToQueueValues epoch values = .ok after → Step queue after
  | addManyToQueueValues {queue after : BitFieldQueue} (values : List (Int × List Nat)) :
    queue.addManyToQueueValues values = .ok after → Step queue after
  | cut {queue after : BitFieldQueue} (toCut : Finset Nat) :
    queue.cut toCut = .ok after → Step queue after
  | popUntil {queue after : BitFieldQueue} (untilEpoch : Int) (popped : Finset Nat × Bool) :
    queue.popUntil untilEpoch = .ok (popped, after) → Step queue after

/-- The queues that calls returning `Ok` reach from an empty one. -/
def Reachable (quant : QuantSpec) (queue : BitFieldQueue) : Prop :=
  Relation.ReflTransGen Step (empty quant) queue

/-- Every call keeps the quantization and a well-formed queue well formed. -/
theorem Step.wellformed {queue after : BitFieldQueue} (positive : 0 < queue.quant.unit)
    (wellformed : queue.Wellformed) (step : Step queue after) :
    after.Wellformed ∧ after.quant = queue.quant := by
  cases step with
  | addToQueue _ _ ran => exact wellformed.addToQueue positive ran
  | addToQueueValues _ _ ran => exact wellformed.addToQueueValues positive ran
  | addManyToQueueValues _ ran => exact wellformed.addManyToQueueValues positive ran
  | cut _ ran => exact wellformed.cut ran
  | popUntil _ _ ran => exact wellformed.popUntil ran

/-- With a positive unit, every reachable queue is well formed: each index is the cast of
a fixed point of `quantize_up` and each bit field is not empty. -/
theorem Reachable.wellformed {quant : QuantSpec} {queue : BitFieldQueue} (positive : 0 < quant.unit)
    (reachable : Reachable quant queue) : queue.Wellformed ∧ queue.quant = quant := by
  induction reachable with
  | refl => exact ⟨wellformed_empty quant, rfl⟩
  | tail _ step inductionHypothesis =>
    obtain ⟨wellformed, sameQuant⟩ := inductionHypothesis
    obtain ⟨nextWellformed, nextQuant⟩ := step.wellformed (sameQuant ▸ positive) wellformed
    exact ⟨nextWellformed, nextQuant.trans sameQuant⟩

/-! ## The laws of the queue -/

/-- The bits the queue holds at an epoch. -/
def content (queue : BitFieldQueue) (epoch : Int) : Finset Nat :=
  (queue.amt.get? (I64.toUsize epoch)).getD ∅

/-- Of the `i64` epochs, only `-1` is cast past `MAX_INDEX`. -/
theorem toUsize_le_maxIndex_iff {epoch : Int} (inRange : I64.InRange epoch) :
    I64.toUsize epoch ≤ AMT.maxIndex ↔ epoch ≠ -1 := by
  have cast := I64.toUsize_cast epoch
  unfold I64.InRange at inRange
  unfold AMT.maxIndex
  omega

/-- Adding values at an `i64` epoch whose quantization is not `-1` succeeds. -/
theorem addToQueue_ok (queue : BitFieldQueue) {rawEpoch : Int} (values : Finset Nat)
    (quantizedInRange : I64.InRange (queue.quant.quantizeUp rawEpoch))
    (notMinusOne : queue.quant.quantizeUp rawEpoch ≠ -1) :
    ∃ after, queue.addToQueue rawEpoch values = .ok after := by
  by_cases noValues : values = ∅
  · exact ⟨queue, noValues ▸ addToQueue_of_empty queue rawEpoch⟩
  · exact ⟨_, addToQueue_of_le noValues ((toUsize_le_maxIndex_iff quantizedInRange).mpr notMinusOne)⟩

/-- After `add_to_queue` the queue holds at every `i64` epoch what it held before, with the
values joined at the quantized epoch. -/
theorem content_addToQueue {queue after : BitFieldQueue} {rawEpoch : Int} {values : Finset Nat}
    (quantizedInRange : I64.InRange (queue.quant.quantizeUp rawEpoch))
    (ran : queue.addToQueue rawEpoch values = .ok after) {epoch : Int}
    (epochInRange : I64.InRange epoch) :
    after.content epoch =
      if epoch = queue.quant.quantizeUp rawEpoch then queue.content epoch ∪ values
      else queue.content epoch := by
  rcases addToQueue_cases ran with ⟨rfl, rfl⟩ | ⟨_, _, rfl⟩
  · simp
  · by_cases same : epoch = queue.quant.quantizeUp rawEpoch
    · subst same
      simp [content]
    · -- distinct `i64` epochs have distinct indices
      have differ : I64.toUsize (queue.quant.quantizeUp rawEpoch) ≠ I64.toUsize epoch :=
        fun sameIndex => same (I64.toUsize_injective epochInRange quantizedInRange sameIndex.symm)
      simp [content, same, differ]

/-- When no entry is at a negative epoch, `pop_until` pops exactly the entries up to
`untilEpoch`: it returns the union of their bits, reports a change exactly when there was
such an entry, and leaves the entries past `untilEpoch`. -/
theorem popUntil_of_nonneg (queue : BitFieldQueue) (untilEpoch : Int)
    (inRange : ∀ entry ∈ queue.amt.entries, entry.1 ≤ AMT.maxIndex)
    (nonneg : ∀ entry ∈ queue.amt.entries, 0 ≤ I64.ofUsize entry.1) :
    queue.popUntil untilEpoch =
      .ok ((unionValues (queue.amt.entries.filter fun entry => I64.ofUsize entry.1 ≤ untilEpoch),
          queue.amt.entries.any fun entry => I64.ofUsize entry.1 ≤ untilEpoch),
        { queue with amt := queue.amt.filterKeys fun index => untilEpoch < I64.ofUsize index }) := by
  have belowHalf : ∀ entry ∈ queue.amt.entries, entry.1 < 2 ^ 63 := fun entry stored =>
    (I64.ofUsize_nonneg_iff (by have := inRange entry stored; unfold AMT.maxIndex at this; omega)).mp
      (nonneg entry stored)
  -- the epochs grow with the indices, so the traversal stops at the first epoch past the bound
  have ordered : queue.amt.entries.Pairwise fun earlier later =>
      decide (I64.ofUsize later.1 ≤ untilEpoch) = true →
        decide (I64.ofUsize earlier.1 ≤ untilEpoch) = true :=
    queue.amt.sorted.imp_of_mem fun _ laterStored below => by
      have monotone := I64.ofUsize_le_ofUsize (le_of_lt below) (belowHalf _ laterStored)
      simp only [decide_eq_true_eq]
      omega
  have popped : queue.poppedEntries untilEpoch =
      queue.amt.entries.filter fun entry => I64.ofUsize entry.1 ≤ untilEpoch :=
    SortedMap.takeWhile_eq_filter ordered
  have remaining : (queue.amt.filterKeys fun index =>
      index ∉ (queue.amt.entries.filter fun entry => I64.ofUsize entry.1 ≤ untilEpoch).map Prod.fst) =
      queue.amt.filterKeys fun index => untilEpoch < I64.ofUsize index := by
    apply SortedMap.ext_entries
    apply List.filter_congr
    intro entry stored
    have membership : entry.1 ∈ (queue.amt.entries.filter fun entry =>
        I64.ofUsize entry.1 ≤ untilEpoch).map Prod.fst ↔
        decide (I64.ofUsize entry.1 ≤ untilEpoch) = true := queue.amt.mem_keys_filter_iff stored
    simp only [membership, decide_eq_true_eq, not_le]
  have modified : (!(queue.amt.entries.filter fun entry => I64.ofUsize entry.1 ≤ untilEpoch).isEmpty) =
      queue.amt.entries.any fun entry => I64.ofUsize entry.1 ≤ untilEpoch := by
    rw [Bool.eq_iff_iff]
    simp [List.filter_eq_nil_iff]
  rw [popUntil_eq queue untilEpoch inRange, popped, remaining, modified]

/-- A queue that holds bits at a negative epoch up to `untilEpoch` and at a non-negative
epoch past it, built by two calls of `add_to_queue`: the negative epoch is stored at an index
above the other, `pop_until` meets the non-negative one first and stops there, so it pops
nothing and reports no change although an entry up to `untilEpoch` is in the queue. -/
theorem popUntil_skips_negative_epoch {quant : QuantSpec} {low high untilEpoch : Int}
    {lowValues highValues : Finset Nat} (lowNonempty : lowValues ≠ ∅)
    (highNonempty : highValues ≠ ∅)
    (lowNegative : -2 ^ 63 ≤ quant.quantizeUp low ∧ quant.quantizeUp low ≤ -2)
    (highNonneg : 0 ≤ quant.quantizeUp high ∧ quant.quantizeUp high < 2 ^ 63)
    (lowPopped : quant.quantizeUp low ≤ untilEpoch) (highKept : untilEpoch < quant.quantizeUp high) :
    ∃ added queue, (empty quant).addToQueue low lowValues = .ok added ∧
      added.addToQueue high highValues = .ok queue ∧
      queue.content (quant.quantizeUp low) = lowValues ∧
      (queue.amt.entries.any fun entry => I64.ofUsize entry.1 ≤ untilEpoch) = true ∧
      queue.popUntil untilEpoch = .ok ((∅, false), queue) := by
  have lowCast := I64.toUsize_cast (quant.quantizeUp low)
  have highCast := I64.toUsize_cast (quant.quantizeUp high)
  -- the negative epoch lands near the top of the index range, the other one below `2 ^ 63`
  have lowIndex : (I64.toUsize (quant.quantizeUp low) : Int) = quant.quantizeUp low + 2 ^ 64 := by
    omega
  have highIndex : (I64.toUsize (quant.quantizeUp high) : Int) = quant.quantizeUp high := by omega
  have lowInRange : I64.toUsize (quant.quantizeUp low) ≤ AMT.maxIndex := by
    unfold AMT.maxIndex
    omega
  have highInRange : I64.toUsize (quant.quantizeUp high) ≤ AMT.maxIndex := by
    unfold AMT.maxIndex
    omega
  have indicesOrdered : I64.toUsize (quant.quantizeUp high) < I64.toUsize (quant.quantizeUp low) := by
    omega
  have indicesDiffer : I64.toUsize (quant.quantizeUp low) ≠ I64.toUsize (quant.quantizeUp high) := by
    omega
  have lowEpoch : I64.ofUsize (I64.toUsize (quant.quantizeUp low)) = quant.quantizeUp low :=
    I64.ofUsize_toUsize (by unfold I64.InRange; omega)
  have highEpoch : I64.ofUsize (I64.toUsize (quant.quantizeUp high)) = quant.quantizeUp high :=
    I64.ofUsize_toUsize (by unfold I64.InRange; omega)
  let added : BitFieldQueue :=
    { empty quant with
      amt := (empty quant).amt.set (I64.toUsize (quant.quantizeUp low)) (∅ ∪ lowValues) }
  let queue : BitFieldQueue :=
    { added with
      amt := added.amt.set (I64.toUsize (quant.quantizeUp high)) (∅ ∪ highValues) }
  have addedRan : (empty quant).addToQueue low lowValues = .ok added := by
    rw [@addToQueue_of_le (empty quant) low lowValues lowNonempty lowInRange]
    rfl
  have queueRan : added.addToQueue high highValues = .ok queue := by
    rw [@addToQueue_of_le added high highValues highNonempty highInRange]
    simp [added, queue, empty, indicesDiffer]
  -- the entry at the non-negative epoch comes first
  have entries : queue.amt.entries =
      [(I64.toUsize (quant.quantizeUp high), ∅ ∪ highValues),
        (I64.toUsize (quant.quantizeUp low), ∅ ∪ lowValues)] := by
    simp [queue, added, empty, SortedMap.empty, SortedMap.set, SortedMap.insertSorted, indicesOrdered]
  have nonePopped : queue.poppedEntries untilEpoch = [] := by
    simp [poppedEntries, entries, highEpoch, highKept]
  refine ⟨added, queue, addedRan, queueRan, ?_, ?_, ?_⟩
  · simp [content, queue, added, empty, indicesDiffer.symm]
  · simp [entries, lowEpoch, lowPopped]
  · have inRange : ∀ entry ∈ queue.amt.entries, entry.1 ≤ AMT.maxIndex := by
      rw [entries]
      simp [lowInRange, highInRange]
    rw [popUntil_eq queue untilEpoch inRange, nonePopped]
    have unchanged : (queue.amt.filterKeys fun index => index ∉ ([] : List (Nat × Finset Nat)).map
        Prod.fst) = queue.amt := SortedMap.filterKeys_of_forall fun _ _ => by simp
    rw [unchanged]
    rfl

theorem popUntil_skips_negative_epoch_minus_two :
    ({0} : Finset Nat) ≠ ∅ ∧ ({1} : Finset Nat) ≠ ∅ ∧
      (-2 ^ 63 ≤ QuantSpec.noQuantization.quantizeUp (-2) ∧
        QuantSpec.noQuantization.quantizeUp (-2) ≤ -2) ∧
      (0 ≤ QuantSpec.noQuantization.quantizeUp 5 ∧ QuantSpec.noQuantization.quantizeUp 5 < 2 ^ 63) ∧
      QuantSpec.noQuantization.quantizeUp (-2) ≤ 0 ∧ 0 < QuantSpec.noQuantization.quantizeUp 5 ∧
      ∃ added queue, (empty QuantSpec.noQuantization).addToQueue (-2) {0} = .ok added ∧
        added.addToQueue 5 {1} = .ok queue ∧
        queue.content (QuantSpec.noQuantization.quantizeUp (-2)) = {0} ∧
        (queue.amt.entries.any fun entry => I64.ofUsize entry.1 ≤ 0) = true ∧
        queue.popUntil 0 = .ok ((∅, false), queue) :=
  have lowNonempty : ({0} : Finset Nat) ≠ ∅ := by simp
  have highNonempty : ({1} : Finset Nat) ≠ ∅ := by simp
  have lowNegative : -2 ^ 63 ≤ QuantSpec.noQuantization.quantizeUp (-2) ∧
      QuantSpec.noQuantization.quantizeUp (-2) ≤ -2 := by decide
  have highNonneg : 0 ≤ QuantSpec.noQuantization.quantizeUp 5 ∧
      QuantSpec.noQuantization.quantizeUp 5 < 2 ^ 63 := by decide
  have lowPopped : QuantSpec.noQuantization.quantizeUp (-2) ≤ 0 := by decide
  have highKept : 0 < QuantSpec.noQuantization.quantizeUp 5 := by decide
  ⟨lowNonempty, highNonempty, lowNegative, highNonneg, lowPopped, highKept,
    popUntil_skips_negative_epoch lowNonempty highNonempty lowNegative highNonneg lowPopped highKept⟩

end BitFieldQueue

end Forest.Miner
