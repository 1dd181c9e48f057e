import Forest.Miner.Policy
import Forest.Lib.SortedMap
import Mathlib.Data.Finset.Sort
import Mathlib.Data.List.Sort
import Mathlib.Data.List.Dedup

namespace Forest.Miner

/-!
# The expiration queue

`ExpirationQueue` of `miner/expiration_queue.rs`: an AMT from epochs to `ExpirationSet`s,
the sectors expiring at an epoch on time or early, with their pledge and power.  The AMT
is the map it stands for, a `SortedMap` visited in key order; its index is the epoch
itself.  A `BitField` of sector numbers is the set of its bits, a `Finset`, and so are the
hash sets the operations build; a hash map from sector numbers to infos keeps the last
info inserted for a number.

Every operation is translated with its loops: the groups of `find_sectors_by_expiration`
(first the declared epochs, then the rest of the queue in order), the in-place traversal
of `iter_while_mut` that deletes emptied entries afterwards, and the aggregates of
`pop_until`.  An operation that fails returns the error; the queue it was changing is
dropped with it, as the actor drops the state of a failed message.  The AMT operations the
queue uses do not fail on the epochs it passes, so only the queue's own errors remain.
-/

/-- `ENTRY_SECTORS_MAX`. -/
def entrySectorsMax : Nat := 10000

/-- `BitField::bounded_iter`: the bits in increasing order, if there are at most `max`. -/
def boundedIter (bits : Finset Nat) (max : Nat) : Except String (List Nat) :=
  if bits.card ≤ max then .ok (bits.sort (· ≤ ·)) else .error "Bits set exceeds max in retrieval"

/-- `ExpirationSet`: the sectors expiring on time and early at one epoch, the pledge of the
on-time ones, and their power, active and faulty. -/
structure ExpirationSet where
  onTimeSectors : Finset Nat
  earlySectors : Finset Nat
  onTimePledge : Int
  activePower : PowerPair
  faultyPower : PowerPair

namespace ExpirationSet

/-- `ExpirationSet::empty`. -/
def empty : ExpirationSet :=
  ⟨∅, ∅, 0, 0, 0⟩

/-- `ExpirationSet::add`. -/
def add (set : ExpirationSet) (onTimeSectors earlySectors : Finset Nat) (onTimePledge : Int)
    (activePower faultyPower : PowerPair) : ExpirationSet where
  onTimeSectors := set.onTimeSectors ∪ onTimeSectors
  earlySectors := set.earlySectors ∪ earlySectors
  onTimePledge := set.onTimePledge + onTimePledge
  activePower := set.activePower + activePower
  faultyPower := set.faultyPower + faultyPower

/-- `ExpirationSet::remove`: the sectors must be there, and neither the pledge nor the
quality-adjusted powers may become negative. -/
def remove (set : ExpirationSet) (onTimeSectors earlySectors : Finset Nat) (onTimePledge : Int)
    (activePower faultyPower : PowerPair) : Except String ExpirationSet :=
  if ¬ onTimeSectors ⊆ set.onTimeSectors then
    .error "removing on-time sectors not contained in the on-time sectors"
  else if ¬ earlySectors ⊆ set.earlySectors then
    .error "removing early sectors not contained in the early sectors"
  else
    let removed : ExpirationSet :=
      { onTimeSectors := set.onTimeSectors \ onTimeSectors
        earlySectors := set.earlySectors \ earlySectors
        onTimePledge := set.onTimePledge - onTimePledge
        activePower := set.activePower - activePower
        faultyPower := set.faultyPower - faultyPower }
    if removed.onTimePledge < 0 then .error "expiration set pledge underflow"
    else if removed.activePower.qa < 0 || removed.faultyPower.qa < 0 then
      .error "expiration set power underflow"
    else .ok removed

/-- `ExpirationSet::is_empty`: no sectors; power and pledge are not looked at. -/
def isEmpty (set : ExpirationSet) : Bool :=
  decide (set.onTimeSectors = ∅) && decide (set.earlySectors = ∅)

/-- `ExpirationSet::len`. -/
def len (set : ExpirationSet) : Nat :=
  set.onTimeSectors.card + set.earlySectors.card

/-- `ExpirationSet::validate_state`. -/
def validateState (set : ExpirationSet) : Except String Unit :=
  if set.onTimePledge < 0 then .error "ExpirationSet left with negative pledge"
  else if set.activePower.raw < 0 then .error "ExpirationSet left with negative raw active power"
  else if set.activePower.qa < 0 then .error "ExpirationSet left with negative qa active power"
  else if set.faultyPower.raw < 0 then .error "ExpirationSet left with negative raw faulty power"
  else if set.faultyPower.qa < 0 then .error "ExpirationSet left with negative qa faulty power"
  else .ok ()

end ExpirationSet

/-- `SectorEpochSet`: sectors of one epoch, with their summed power and pledge. -/
structure SectorEpochSet where
  epoch : Int
  sectors : List Nat
  power : PowerPair
  pledge : Int

/-- `SectorExpirationSet`: a group of sectors and the queue entry they were found in. -/
structure SectorExpirationSet where
  sectorEpochSet : SectorEpochSet
  expirationSet : ExpirationSet

/-- `group_new_sectors_by_declared_expiration`: the sectors grouped by their quantized
expiration, the groups in increasing epoch, each in the order of the input. -/
def groupNewSectorsByDeclaredExpiration (sectorSize : Nat) (sectors : List SectorOnChainInfo)
    (quant : QuantSpec) : List SectorEpochSet :=
  let expirations :=
    ((sectors.map fun sector => quant.quantizeUp sector.expiration).dedup).insertionSort (· ≤ ·)
  expirations.map fun expiration =>
    let epochSectors := sectors.filter fun sector => quant.quantizeUp sector.expiration = expiration
    { epoch := expiration
      sectors := epochSectors.map (·.sectorNumber)
      power := (epochSectors.map (powerForSector sectorSize)).sum
      pledge := (epochSectors.map (·.initialPledge)).sum }

/-- The hash map `sectors_by_number`: the last info inserted for each number. -/
def sectorsByNumber (sectors : List SectorOnChainInfo) (number : Nat) : Option SectorOnChainInfo :=
  sectors.reverse.find? fun sector => sector.sectorNumber == number

/-- The loop of `group_expiration_set` over the on-time sectors of an entry, in increasing
order: a sector still to be found joins the group and leaves `includeSet`. -/
def groupOnTime (sectorSize : Nat) (byNumber : Nat → Option SectorOnChainInfo) :
    List Nat → List Nat × PowerPair × Int × Finset Nat →
      Except String (List Nat × PowerPair × Int × Finset Nat)
  | [], group => .ok group
  | number :: rest, (numbers, power, pledge, includeSet) =>
    if number ∈ includeSet then
      match byNumber number with
      | none => .error "index should exist in sector set"
      | some sector =>
        groupOnTime sectorSize byNumber rest
          (numbers ++ [number], power + powerForSector sectorSize sector,
            pledge + sector.initialPledge, includeSet.erase number)
    else
      groupOnTime sectorSize byNumber rest (numbers, power, pledge, includeSet)

/-- `group_expiration_set`: the sectors of `includeSet` expiring on time in `set`, and what
remains of `includeSet`. -/
def groupExpirationSet (sectorSize : Nat) (byNumber : Nat → Option SectorOnChainInfo)
    (includeSet : Finset Nat) (set : ExpirationSet) (expiration : Int) :
    Except String (SectorExpirationSet × Finset Nat) := do
  let (numbers, power, pledge, includeSet) ←
    groupOnTime sectorSize byNumber (set.onTimeSectors.sort (· ≤ ·)) ([], 0, 0, includeSet)
  pure (⟨⟨expiration, numbers, power, pledge⟩, set⟩, includeSet)

/-- `check_no_early_sectors`: no sector still looked for expires early in `set`. -/
def checkNoEarlySectors (lookedFor : Finset Nat) (set : ExpirationSet) : Except String Unit :=
  match (set.earlySectors.sort (· ≤ ·)).find? fun number => decide (number ∈ lookedFor) with
  | some number => .error s!"Invalid attempt to group sector {number} with an early expiration"
  | none => .ok ()

/-- `Amt::batch_delete` with `strict`: the indices in increasing order, each of which must
be there. -/
def batchDelete (amt : SortedMap Int ExpirationSet) (keys : List Int) :
    Except String (SortedMap Int ExpirationSet) :=
  go amt (keys.insertionSort (· ≤ ·))
where
  go (amt : SortedMap Int ExpirationSet) : List Int → Except String (SortedMap Int ExpirationSet)
    | [] => .ok amt
    | key :: rest =>
      if (amt.get? key).isNone then .error s!"no such index {key} in Amt for batch delete"
      else go (amt.delete key) rest

/-- `ExpirationQueue`: the AMT of expiration sets by epoch, and the quantization of its
keys. -/
structure ExpirationQueue where
  amt : SortedMap Int ExpirationSet
  quant : QuantSpec

namespace ExpirationQueue

/-- `ExpirationQueue::may_get`: the entry at `key`, or an empty one. -/
def mayGet (queue : ExpirationQueue) (key : Int) : ExpirationSet :=
  (queue.amt.get? key).getD .empty

/-- `ExpirationQueue::must_update`. -/
def mustUpdate (queue : ExpirationQueue) (epoch : Int) (set : ExpirationSet) : ExpirationQueue :=
  { queue with amt := queue.amt.set epoch set }

/-- `ExpirationQueue::must_update_or_delete`: an emptied entry is deleted. -/
def mustUpdateOrDelete (queue : ExpirationQueue) (epoch : Int) (set : ExpirationSet) :
    ExpirationQueue :=
  if set.isEmpty then { queue with amt := queue.amt.delete epoch } else queue.mustUpdate epoch set

/-- `ExpirationQueue::add`: add to the entry at the quantized epoch. -/
def add (queue : ExpirationQueue) (rawEpoch : Int) (onTimeSectors earlySectors : Finset Nat)
    (activePower faultyPower : PowerPair) (pledge : Int) : ExpirationQueue :=
  let epoch := queue.quant.quantizeUp rawEpoch
  queue.mustUpdate epoch
    ((queue.mayGet epoch).add onTimeSectors earlySectors pledge activePower faultyPower)

/-- `ExpirationQueue::remove`: remove from the entry at the quantized epoch, which must be
there. -/
def remove (queue : ExpirationQueue) (rawEpoch : Int) (onTimeSectors earlySectors : Finset Nat)
    (activePower faultyPower : PowerPair) (pledge : Int) : Except String ExpirationQueue :=
  let epoch := queue.quant.quantizeUp rawEpoch
  match queue.amt.get? epoch with
  | none => .error s!"missing expected expiration set at epoch {epoch}"
  | some set =>
    match set.remove onTimeSectors earlySectors pledge activePower faultyPower with
    | .error message => .error s!"failed to remove expiration values for queue epoch {epoch}: {message}"
    | .ok set => .ok (queue.mustUpdateOrDelete epoch set)

/-- `ExpirationQueue::iter_while_mut`: visit the entries in order, changing them in place,
and delete the entries a visit emptied once the traversal is over. -/
def iterWhileMut {σ : Type} (queue : ExpirationQueue)
    (visit : Int → ExpirationSet → σ → Except String (Bool × ExpirationSet × σ)) (state : σ) :
    Except String (ExpirationQueue × σ) := do
  let recordEmptied : Int → ExpirationSet → σ × List Int →
      Except String (Bool × ExpirationSet × (σ × List Int)) :=
    fun epoch set (state, epochsEmptied) => do
      let (keepGoing, set, state) ← visit epoch set state
      pure (keepGoing, set,
        (state, if set.isEmpty then epochsEmptied ++ [epoch] else epochsEmptied))
  let (amt, state, epochsEmptied) ← queue.amt.forEachWhileMutMap recordEmptied (state, [])
  let amt ← batchDelete amt epochsEmptied
  pure ({ queue with amt := amt }, state)

/-- `ExpirationQueue::add_active_sectors`: each group of new sectors joins the on-time
sectors and active power of its quantized expiration. -/
def addActiveSectors (sectorSize : Nat) (queue : ExpirationQueue)
    (sectors : List SectorOnChainInfo) : (Finset Nat × PowerPair × Int) × ExpirationQueue :=
  let groups := groupNewSectorsByDeclaredExpiration sectorSize sectors queue.quant
  let added := groups.foldl (fun queue group =>
    queue.add group.epoch group.sectors.toFinset ∅ group.power 0 group.pledge) queue
  (((groups.map fun group => group.sectors.toFinset).foldr (· ∪ ·) ∅,
    (groups.map (·.power)).sum, (groups.map (·.pledge)).sum), added)

/-- The loop of `find_sectors_by_expiration` over the declared expirations. -/
def declaredGroups (sectorSize : Nat) (queue : ExpirationQueue)
    (byNumber : Nat → Option SectorOnChainInfo) :
    List Int → List SectorExpirationSet × Finset Nat →
      Except String (List SectorExpirationSet × Finset Nat)
  | [], found => .ok found
  | expiration :: rest, (groups, allRemaining) => do
    let (group, allRemaining) ←
      groupExpirationSet sectorSize byNumber allRemaining (queue.mayGet expiration) expiration
    let groups := if group.sectorEpochSet.sectors.isEmpty then groups else groups ++ [group]
    declaredGroups sectorSize queue byNumber rest (groups, allRemaining)

/-- The traversal of `find_sectors_by_expiration` over the other entries, in order, until
every sector is found. -/
def otherGroups (sectorSize : Nat) (byNumber : Nat → Option SectorOnChainInfo)
    (declaredExpirations : List Int) (epoch : Int) (set : ExpirationSet)
    (found : List SectorExpirationSet × Finset Nat) :
    Except String (Bool × (List SectorExpirationSet × Finset Nat)) :=
  let (groups, allRemaining) := found
  if epoch ∈ declaredExpirations then .ok (true, (groups, allRemaining))
  else do
    checkNoEarlySectors allRemaining set
    let (group, allRemaining) ← groupExpirationSet sectorSize byNumber allRemaining set epoch
    let groups := if group.sectorEpochSet.sectors.isEmpty then groups else groups ++ [group]
    pure (decide (allRemaining ≠ ∅), (groups, allRemaining))

/-- `ExpirationQueue::find_sectors_by_expiration`: the sectors grouped by the entry where
they expire on time, first looked for at their declared expiration and then through the
rest of the queue; the groups in increasing epoch. -/
def findSectorsByExpiration (sectorSize : Nat) (queue : ExpirationQueue)
    (sectors : List SectorOnChainInfo) : Except String (List SectorExpirationSet) := do
  let declaredExpirations :=
    ((sectors.map fun sector => queue.quant.quantizeUp sector.expiration).dedup).insertionSort (· ≤ ·)
  let byNumber := sectorsByNumber sectors
  let allRemaining := (sectors.map (·.sectorNumber)).toFinset
  let (groups, allRemaining) ←
    declaredGroups sectorSize queue byNumber declaredExpirations ([], allRemaining)
  let (groups, allRemaining) ←
    if allRemaining ≠ ∅ then
      SortedMap.forEachWhile (otherGroups sectorSize byNumber declaredExpirations)
        queue.amt.entries (groups, allRemaining)
    else pure (groups, allRemaining)
  if allRemaining ≠ ∅ then .error "some sectors not found in expiration queue"
  else pure (groups.insertionSort fun first second =>
    first.sectorEpochSet.epoch ≤ second.sectorEpochSet.epoch)

/-- The loop of `remove_active_sectors` over the groups found. -/
def removeGroups (queue : ExpirationQueue) :
    List SectorExpirationSet → Finset Nat × PowerPair × Int →
      Except String ((Finset Nat × PowerPair × Int) × ExpirationQueue)
  | [], removed => .ok (removed, queue)
  | group :: rest, (numbers, power, pledge) => do
    let epochSet := group.sectorEpochSet
    let queue ← queue.remove epochSet.epoch epochSet.sectors.toFinset ∅ epochSet.power 0 epochSet.pledge
    removeGroups queue rest
      (numbers ∪ epochSet.sectors.toFinset, power + epochSet.power, pledge + epochSet.pledge)

/-- `ExpirationQueue::remove_active_sectors`: take the sectors out of the entries where they
expire on time, with their pledge and as active power. -/
def removeActiveSectors (sectorSize : Nat) (queue : ExpirationQueue)
    (sectors : List SectorOnChainInfo) :
    Except String ((Finset Nat × PowerPair × Int) × ExpirationQueue) := do
  let groups ← queue.findSectorsByExpiration sectorSize sectors
  queue.removeGroups groups (∅, 0, 0)

/-- `ExpirationQueue::reschedule_expirations`: move active sectors to a new expiration. -/
def rescheduleExpirations (sectorSize : Nat) (queue : ExpirationQueue) (newExpiration : Int)
    (sectors : List SectorOnChainInfo) : Except String ExpirationQueue := do
  if sectors.isEmpty then return queue
  let ((numbers, power, pledge), queue) ← queue.removeActiveSectors sectorSize sectors
  pure (queue.add newExpiration numbers ∅ power 0 pledge)

/-- The loop of `reschedule_as_faults` over the groups found: a group expiring by the fault
expiration stays and turns faulty, a later one leaves its entry with its pledge. -/
def rescheduleGroupsAsFaults (newExpiration : Int) :
    List SectorExpirationSet → List Nat × PowerPair × PowerPair × ExpirationQueue →
      Except String (List Nat × PowerPair × PowerPair × ExpirationQueue)
  | [], state => .ok state
  | group :: rest, (sectorsTotal, expiringPower, rescheduledPower, queue) => do
    let epochSet := group.sectorEpochSet
    let set := group.expirationSet
    let (set, sectorsTotal, expiringPower, rescheduledPower) :=
      if epochSet.epoch ≤ queue.quant.quantizeUp newExpiration then
        ({ set with
            activePower := set.activePower - epochSet.power
            faultyPower := set.faultyPower + epochSet.power },
          sectorsTotal, expiringPower + epochSet.power, rescheduledPower)
      else
        ({ set with
            onTimeSectors := set.onTimeSectors \ epochSet.sectors.toFinset
            onTimePledge := set.onTimePledge - epochSet.pledge
            activePower := set.activePower - epochSet.power },
          sectorsTotal ++ epochSet.sectors, expiringPower, rescheduledPower + epochSet.power)
    let queue := queue.mustUpdateOrDelete epochSet.epoch set
    set.validateState
    rescheduleGroupsAsFaults newExpiration rest (sectorsTotal, expiringPower, rescheduledPower, queue)

/-- `ExpirationQueue::reschedule_as_faults`: the sectors become faulty, and those expiring
after the fault expiration are moved there as early. -/
def rescheduleAsFaults (sectorSize : Nat) (queue : ExpirationQueue) (newExpiration : Int)
    (sectors : List SectorOnChainInfo) : Except String (PowerPair × ExpirationQueue) := do
  let groups ← queue.findSectorsByExpiration sectorSize sectors
  let (sectorsTotal, expiringPower, rescheduledPower, queue) ←
    rescheduleGroupsAsFaults newExpiration groups ([], 0, 0, queue)
  let queue :=
    if sectorsTotal.isEmpty then queue
    else queue.add newExpiration ∅ sectorsTotal.toFinset 0 rescheduledPower 0
  pure (rescheduledPower + expiringPower, queue)

/-- The callback of `reschedule_all_as_faults`: an entry by the fault expiration turns all
faulty, a later one is to be moved; the state is the epochs, sectors and power to move and
the changed entries. -/
def rescheduleAllVisit (faultExpiration : Int) (quant : QuantSpec) (epoch : Int)
    (set : ExpirationSet)
    (state : List Int × Finset Nat × PowerPair × List (Int × ExpirationSet)) :
    Except String (List Int × Finset Nat × PowerPair × List (Int × ExpirationSet)) := do
  let (rescheduledEpochs, rescheduledSectors, rescheduledPower, mutated) := state
  let state ←
    if epoch ≤ quant.quantizeUp faultExpiration then
      pure (rescheduledEpochs, rescheduledSectors, rescheduledPower,
        mutated ++ [(epoch, { set with
          faultyPower := set.faultyPower + set.activePower
          activePower := 0 })])
    else if set.earlySectors ≠ ∅ then
      .error "attempted to re-schedule early expirations to an earlier epoch"
    else
      pure (rescheduledEpochs ++ [epoch], rescheduledSectors ∪ set.onTimeSectors ∪ set.earlySectors,
        rescheduledPower + set.activePower + set.faultyPower, mutated)
  set.validateState
  pure state

/-- `ExpirationQueue::reschedule_all_as_faults`. -/
def rescheduleAllAsFaults (queue : ExpirationQueue) (faultExpiration : Int) :
    Except String ExpirationQueue := do
  let (rescheduledEpochs, rescheduledSectors, rescheduledPower, mutated) ←
    SortedMap.forEach (rescheduleAllVisit faultExpiration queue.quant) queue.amt.entries
      ([], ∅, 0, [])
  let queue := mutated.foldl (fun queue entry => queue.mustUpdate entry.1 entry.2) queue
  if rescheduledEpochs.isEmpty then return queue
  let queue := queue.add faultExpiration ∅ rescheduledSectors 0 rescheduledPower 0
  let amt ← batchDelete queue.amt rescheduledEpochs
  pure { queue with amt := amt }

/-- The state of the traversal of `reschedule_recovered`. -/
structure RecoveryState where
  remaining : Finset Nat
  sectorsRescheduled : List SectorOnChainInfo
  recoveredPower : PowerPair

/-- The loop of `reschedule_recovered` over the recovering sectors, for one entry whose
on-time and early sectors were `onTime` and `early` before the loop: an on-time sector
turns active where it is, an early one leaves to be rescheduled. -/
def recoverSectors (sectorSize : Nat) (onTime early : Finset Nat) :
    List SectorOnChainInfo → ExpirationSet × RecoveryState → ExpirationSet × RecoveryState
  | [], visited => visited
  | sector :: rest, (set, state) =>
    let power := powerForSector sectorSize sector
    let (found, set, sectorsRescheduled) :=
      if sector.sectorNumber ∈ onTime then
        (true, { set with
          faultyPower := set.faultyPower - power
          activePower := set.activePower + power }, state.sectorsRescheduled)
      else if sector.sectorNumber ∈ early then
        (true, { set with
          earlySectors := set.earlySectors.erase sector.sectorNumber
          faultyPower := set.faultyPower - power }, state.sectorsRescheduled ++ [sector])
      else (false, set, state.sectorsRescheduled)
    let state : RecoveryState :=
      if found then
        { remaining := state.remaining.erase sector.sectorNumber
          sectorsRescheduled := sectorsRescheduled
          recoveredPower := state.recoveredPower + power }
      else { state with sectorsRescheduled := sectorsRescheduled }
    recoverSectors sectorSize onTime early rest (set, state)

/-- The callback of `reschedule_recovered` for one entry. -/
def recoverVisit (sectorSize : Nat) (sectors : List SectorOnChainInfo) (_epoch : Int)
    (set : ExpirationSet) (state : RecoveryState) :
    Except String (Bool × ExpirationSet × RecoveryState) := do
  let _ ← boundedIter set.onTimeSectors entrySectorsMax
  let _ ← boundedIter set.earlySectors entrySectorsMax
  let (set, state) := recoverSectors sectorSize set.onTimeSectors set.earlySectors sectors (set, state)
  set.validateState
  pure (decide (state.remaining ≠ ∅), set, state)

/-- `ExpirationQueue::reschedule_recovered`: recovering sectors turn active, and those
expiring early are moved back to their declared expiration. -/
def rescheduleRecovered (sectorSize : Nat) (queue : ExpirationQueue)
    (sectors : List SectorOnChainInfo) : Except String (PowerPair × ExpirationQueue) := do
  let (queue, state) ← queue.iterWhileMut (recoverVisit sectorSize sectors)
    ⟨(sectors.map (·.sectorNumber)).toFinset, [], 0⟩
  if state.remaining ≠ ∅ then .error "sectors not found in expiration queue"
  else
    let (_, queue) := queue.addActiveSectors sectorSize state.sectorsRescheduled
    pure (state.recoveredPower, queue)

/-- `ExpirationQueue::replace_sectors`: remove some active sectors and add others; the
numbers removed and added, and the change of power and pledge. -/
def replaceSectors (sectorSize : Nat) (queue : ExpirationQueue)
    (oldSectors newSectors : List SectorOnChainInfo) :
    Except String ((Finset Nat × Finset Nat × PowerPair × Int) × ExpirationQueue) := do
  let ((oldNumbers, oldPower, oldPledge), queue) ← queue.removeActiveSectors sectorSize oldSectors
  let ((newNumbers, newPower, newPledge), queue) := queue.addActiveSectors sectorSize newSectors
  pure ((oldNumbers, newNumbers, newPower - oldPower, newPledge - oldPledge), queue)

/-- The loop of `remove_sectors` over the faulty sectors, for one entry whose on-time and
early sectors were `onTime` and `early` before the loop. -/
def removeFaultySectors (sectorSize : Nat) (faults recovering onTime early : Finset Nat) :
    List SectorOnChainInfo → ExpirationSet × ExpirationSet × PowerPair × Finset Nat →
      ExpirationSet × ExpirationSet × PowerPair × Finset Nat
  | [], visited => visited
  | sector :: rest, (set, removed, recoveringPower, remaining) =>
    let number := sector.sectorNumber
    let (found, set, removed) :=
      if number ∈ onTime then
        (true,
          { set with
            onTimeSectors := set.onTimeSectors.erase number
            onTimePledge := set.onTimePledge - sector.initialPledge },
          { removed with
            onTimeSectors := insert number removed.onTimeSectors
            onTimePledge := removed.onTimePledge + sector.initialPledge })
      else if number ∈ early then
        (true, { set with earlySectors := set.earlySectors.erase number },
          { removed with earlySectors := insert number removed.earlySectors })
      else (false, set, removed)
    let power := powerForSector sectorSize sector
    let (set, removed, recoveringPower, remaining) :=
      if found then
        let (set, removed) :=
          if number ∈ faults then
            ({ set with faultyPower := set.faultyPower - power },
              { removed with faultyPower := removed.faultyPower + power })
          else
            ({ set with activePower := set.activePower - power },
              { removed with activePower := removed.activePower + power })
        (set, removed, if number ∈ recovering then recoveringPower + power else recoveringPower,
          remaining.erase number)
      else (set, removed, recoveringPower, remaining)
    removeFaultySectors sectorSize faults recovering onTime early rest
      (set, removed, recoveringPower, remaining)

/-- The callback of `remove_sectors` for one entry. -/
def removeVisit (sectorSize : Nat) (faults recovering : Finset Nat)
    (faultySectors : List SectorOnChainInfo) (_epoch : Int) (set : ExpirationSet)
    (state : ExpirationSet × PowerPair × Finset Nat) :
    Except String (Bool × ExpirationSet × (ExpirationSet × PowerPair × Finset Nat)) := do
  let (removed, recoveringPower, remaining) := state
  let _ ← boundedIter set.onTimeSectors entrySectorsMax
  let _ ← boundedIter set.earlySectors entrySectorsMax
  let (set, removed, recoveringPower, remaining) :=
    removeFaultySectors sectorSize faults recovering set.onTimeSectors set.earlySectors faultySectors
      (set, removed, recoveringPower, remaining)
  set.validateState
  pure (decide (remaining ≠ ∅), set, (removed, recoveringPower, remaining))

/-- `ExpirationQueue::remove_sectors`: the non-faulty sectors are removed where they expire
on time, then the faulty ones are looked for through the queue.  The aggregate removed and
the power of the removed sectors that were recovering. -/
def removeSectors (sectorSize : Nat) (queue : ExpirationQueue) (sectors : List SectorOnChainInfo)
    (faults recovering : Finset Nat) :
    Except String ((ExpirationSet × PowerPair) × ExpirationQueue) := do
  let remaining := (sectors.map (·.sectorNumber)).toFinset
  let _ ← (boundedIter faults entrySectorsMax).mapError
    fun message => s!"failed to expand faults: {message}"
  let _ ← (boundedIter recovering entrySectorsMax).mapError
    fun message => s!"failed to expand recoveries: {message}"
  let nonFaultySectors := sectors.filter fun sector => sector.sectorNumber ∉ faults
  let faultySectors := sectors.filter fun sector => sector.sectorNumber ∈ faults
  let remaining := remaining \ (nonFaultySectors.map (·.sectorNumber)).toFinset
  let ((removedNumbers, removedPower, removedPledge), queue) ←
    queue.removeActiveSectors sectorSize nonFaultySectors
  let removed : ExpirationSet :=
    { ExpirationSet.empty with
      onTimeSectors := removedNumbers
      activePower := removedPower
      onTimePledge := removedPledge }
  let (queue, (removed, recoveringPower, remaining)) ←
    queue.iterWhileMut (removeVisit sectorSize faults recovering faultySectors)
      (removed, 0, remaining)
  if remaining ≠ ∅ then .error "sectors not found in expiration queue"
  else pure ((removed, recoveringPower), queue)

/-- The callback of `pop_until`: entries up to `untilEpoch` are added to the aggregate and
their epochs kept for deletion; the first later entry stops the traversal. -/
def popVisit (untilEpoch : Int) (epoch : Int) (set : ExpirationSet) (state : ExpirationSet × List Int) :
    Except String (Bool × (ExpirationSet × List Int)) :=
  let (popped, poppedKeys) := state
  if epoch > untilEpoch then .ok (false, (popped, poppedKeys))
  else
    .ok (true, (popped.add set.onTimeSectors set.earlySectors set.onTimePledge set.activePower
      set.faultyPower, poppedKeys ++ [epoch]))

/-- `ExpirationQueue::pop_until`: remove the entries up to and including `untilEpoch` (`until`), and
return their aggregate. -/
def popUntil (queue : ExpirationQueue) (untilEpoch : Int) :
    Except String (ExpirationSet × ExpirationQueue) := do
  let (popped, poppedKeys) ← SortedMap.forEachWhile (popVisit untilEpoch) queue.amt.entries (.empty, [])
  let amt ← batchDelete queue.amt poppedKeys
  pure (popped, { queue with amt := amt })

end ExpirationQueue

end Forest.Miner
