import Forest.Miner.ActiveSectors

namespace Forest.Miner

/-!
# Rescheduling and replacing sectors

`reschedule_expirations` moves active sectors to a new expiration; `reschedule_as_faults`
turns sectors faulty, moving those that would expire after the fault expiration there as
early sectors; `reschedule_all_as_faults` does the same for every sector of the queue;
`replace_sectors` removes some active sectors and adds others.

Each keeps the queue well kept.  A reschedule leaves the set of sectors in the queue as it
was, since it only moves sectors between entries or between active and faulty power, and
the power it returns is the power of exactly the sectors it turned faulty.
-/

open ExpirationQueue

variable {table : Nat → SectorOnChainInfo} {sectorSize : Nat}

/-- The sectors of the groups found are in the queue. -/
theorem groupedSectors_subset_scheduled {queue : ExpirationQueue}
    {groups : List SectorExpirationSet} (groupsOk : ∀ group ∈ groups, GroupOk table sectorSize queue group) :
    groupedSectors groups ⊆ scheduled queue := by
  intro number member
  obtain ⟨_, groupMember, inGroup⟩ := mem_unionOf.mp member
  obtain ⟨group, member, rfl⟩ := List.mem_map.mp groupMember
  have groupOk := groupsOk group member
  exact mem_scheduled.mpr ⟨_, _, groupOk.found, Finset.subset_union_left (groupOk.inside inGroup)⟩

theorem GroupOk.transfer {queue other : ExpirationQueue} {group : SectorExpirationSet}
    (groupOk : GroupOk table sectorSize queue group)
    (same : other.amt.get? group.sectorEpochSet.epoch = queue.amt.get? group.sectorEpochSet.epoch) :
    GroupOk table sectorSize other group :=
  { groupOk with found := same.trans groupOk.found }

theorem mayGet_add (queue : ExpirationQueue) (rawEpoch : Int) (onTime early : Finset Nat)
    (active faulty : PowerPair) (pledge : Int) :
    (queue.add rawEpoch onTime early active faulty pledge).mayGet (queue.quant.quantizeUp rawEpoch) =
      (queue.mayGet (queue.quant.quantizeUp rawEpoch)).add onTime early pledge active faulty := by
  simp [ExpirationQueue.add, ExpirationQueue.mayGet]

/-! ## Rescheduling active sectors -/

/-- `reschedule_expirations`: the sectors leave their entries and join the entry of the new
expiration as on-time sectors; the queue has the same sectors as before. -/
theorem rescheduleExpirations_spec {queue rescheduled : ExpirationQueue} {newExpiration : Int}
    {sectors : List SectorOnChainInfo} (inv : Inv table sectorSize queue)
    (positive : 0 < queue.quant.unit) (consistent : Consistent table sectors)
    (run : queue.rescheduleExpirations sectorSize newExpiration sectors = .ok rescheduled) :
    Inv table sectorSize rescheduled ∧ rescheduled.quant = queue.quant ∧
      scheduled rescheduled = scheduled queue ∧
      numbersOf sectors ⊆ (rescheduled.mayGet (queue.quant.quantizeUp newExpiration)).onTimeSectors := by
  unfold ExpirationQueue.rescheduleExpirations at run
  split at run
  · next noSectors =>
    simp only [pure, Except.pure, Except.ok.injEq] at run
    subst run
    have none : numbersOf sectors = ∅ := by simp [numbersOf, List.isEmpty_iff.mp noSectors]
    exact ⟨inv, rfl, rfl, by simp [none]⟩
  · next someSectors =>
    obtain ⟨⟨⟨numbers, power, pledge⟩, removedQueue⟩, removeRun, added⟩ :=
      Except.bind_eq_ok.mp run
    simp only [pure, Except.pure, Except.ok.injEq] at added
    subst added
    obtain ⟨invRemoved, quantRemoved, rfl, inside, scheduledRemoved, powerEq, pledgeEq⟩ :=
      removeActiveSectors_spec inv consistent removeRun
    have nonempty : (numbersOf sectors ∪ ∅).Nonempty := by
      obtain ⟨sector, member⟩ := List.exists_mem_of_ne_nil sectors (fun none => someSectors (by simp [none]))
      exact ⟨sector.sectorNumber, by simp [numbersOf, List.mem_map_of_mem member]⟩
    obtain ⟨invAdded, scheduledAdded⟩ : Inv table sectorSize
          (removedQueue.add newExpiration (numbersOf sectors) ∅ power 0 pledge) ∧
        scheduled (removedQueue.add newExpiration (numbersOf sectors) ∅ power 0 pledge) =
          scheduled removedQueue ∪ (numbersOf sectors ∪ ∅) :=
      invRemoved.add (quantRemoved ▸ positive) (Finset.disjoint_empty_right _) nonempty
      (by rw [Finset.union_empty, scheduledRemoved]; exact Finset.disjoint_sdiff)
      (by rw [add_zero, Finset.union_empty, powerEq]) pledgeEq
    refine ⟨invAdded, quantRemoved, ?_, ?_⟩
    · rw [scheduledAdded, scheduledRemoved, Finset.union_empty, Finset.sdiff_union_of_subset inside]
    · rw [← quantRemoved, mayGet_add]
      exact Finset.subset_union_right

/-- `replace_sectors`: the old sectors leave the queue and the new ones join it, and the
change of power and pledge is that of exactly those sectors. -/
theorem replaceSectors_spec {queue replaced : ExpirationQueue}
    {oldSectors newSectors : List SectorOnChainInfo} {oldNumbers newNumbers : Finset Nat}
    {powerDelta : PowerPair} {pledgeDelta : Int}
    (inv : Inv table sectorSize queue) (positive : 0 < queue.quant.unit)
    (oldConsistent : Consistent table oldSectors) (newConsistent : Consistent table newSectors)
    (newDistinct : (newSectors.map (·.sectorNumber)).Nodup)
    (newFresh : Disjoint (numbersOf newSectors) (scheduled queue \ numbersOf oldSectors))
    (run : queue.replaceSectors sectorSize oldSectors newSectors =
      .ok ((oldNumbers, newNumbers, powerDelta, pledgeDelta), replaced)) :
    Inv table sectorSize replaced ∧ replaced.quant = queue.quant ∧
      numbersOf oldSectors ⊆ scheduled queue ∧
      scheduled replaced = (scheduled queue \ numbersOf oldSectors) ∪ numbersOf newSectors ∧
      oldNumbers = numbersOf oldSectors ∧ newNumbers = numbersOf newSectors ∧
      powerDelta = powerOf table sectorSize (numbersOf newSectors) -
        powerOf table sectorSize (numbersOf oldSectors) ∧
      pledgeDelta = pledgeOf table (numbersOf newSectors) - pledgeOf table (numbersOf oldSectors) := by
  obtain ⟨⟨⟨removedNumbers, removedPower, removedPledge⟩, removedQueue⟩, removeRun, added⟩ :=
    Except.bind_eq_ok.mp run
  obtain ⟨invRemoved, quantRemoved, rfl, inside, scheduledRemoved, powerEq, pledgeEq⟩ :=
    removeActiveSectors_spec inv oldConsistent removeRun
  have addSpec := addActiveSectors_spec invRemoved (quantRemoved ▸ positive) newConsistent
    newDistinct (scheduledRemoved ▸ newFresh)
  dsimp only at added
  generalize removedQueue.addActiveSectors sectorSize newSectors = addition at addSpec added
  obtain ⟨⟨addedNumbers, addedPower, addedPledge⟩, addedQueue⟩ := addition
  obtain ⟨invAdded, quantAdded, scheduledAdded, returned⟩ := addSpec
  simp only [Prod.mk.injEq] at returned
  obtain ⟨rfl, rfl, rfl⟩ := returned
  simp only [pure, Except.pure, Except.ok.injEq, Prod.mk.injEq] at added
  obtain ⟨⟨rfl, rfl, rfl, rfl⟩, rfl⟩ := added
  exact ⟨invAdded, quantAdded.trans quantRemoved, inside, by rw [scheduledAdded, scheduledRemoved],
    rfl, rfl, by rw [powerEq], by rw [pledgeEq]⟩

/-! ## Rescheduling sectors as faults -/

/-- The loop of `reschedule_as_faults`: each group found stays in its entry as faulty
power or leaves it, and what leaves is gathered to be rescheduled. -/
theorem rescheduleGroupsAsFaults_spec (newExpiration : Int) :
    ∀ (groups : List SectorExpirationSet) {queue result : ExpirationQueue}
      {total totalAfter : List Nat} {expiring expiringAfter rescheduled rescheduledAfter : PowerPair},
      Inv table sectorSize queue → (∀ group ∈ groups, GroupOk table sectorSize queue group) →
      (groups.map fun group => group.sectorEpochSet.epoch).Nodup →
      (groups.map fun group => group.sectorEpochSet.sectors.toFinset).Pairwise Disjoint →
      rescheduleGroupsAsFaults newExpiration groups (total, expiring, rescheduled, queue) =
        .ok (totalAfter, expiringAfter, rescheduledAfter, result) →
      ∃ moved ⊆ scheduled queue,
        Inv table sectorSize result ∧ result.quant = queue.quant ∧
        scheduled result = scheduled queue \ moved ∧
        totalAfter.toFinset = total.toFinset ∪ moved ∧
        rescheduledAfter = rescheduled + powerOf table sectorSize moved ∧
        expiringAfter + rescheduledAfter =
          expiring + rescheduled + powerOf table sectorSize (groupedSectors groups) := by
  intro groups
  induction groups with
  | nil =>
    intro queue result total totalAfter expiring expiringAfter rescheduled rescheduledAfter
      inv _ _ _ run
    simp only [rescheduleGroupsAsFaults, Except.ok.injEq, Prod.mk.injEq] at run
    obtain ⟨rfl, rfl, rfl, rfl⟩ := run
    refine ⟨∅, Finset.empty_subset _, inv, rfl, by simp, by simp, by simp [powerOf], ?_⟩
    simp [groupedSectors, unionOf, powerOf]
  | cons group rest inductionHypothesis =>
    intro queue result total totalAfter expiring expiringAfter rescheduled rescheduledAfter
      inv groupsOk distinct apart run
    have groupOk := groupsOk group List.mem_cons_self
    obtain ⟨groupFresh, restDistinct⟩ := List.nodup_cons.mp distinct
    obtain ⟨groupApart, restApart⟩ := List.pairwise_cons.mp apart
    simp only [rescheduleGroupsAsFaults] at run
    -- the later groups sit at other epochs, which this step does not touch
    have restOk : ∀ (changed : ExpirationSet), ∀ other ∈ rest,
        GroupOk table sectorSize (queue.mustUpdateOrDelete group.sectorEpochSet.epoch changed) other := by
      intro changed other member
      refine (groupsOk other (List.mem_cons_of_mem _ member)).transfer ?_
      exact get?_mustUpdateOrDelete_of_ne
        (fun same => groupFresh (List.mem_map.mpr ⟨other, member, same.symm⟩)) changed
    have takenApart : Disjoint group.sectorEpochSet.sectors.toFinset (groupedSectors rest) :=
      disjoint_unionOf.mpr fun other member => groupApart other member
    have takenInSet : group.sectorEpochSet.sectors.toFinset ⊆ sectorsOf group.expirationSet := groupOk.inside.trans Finset.subset_union_left
    have setScheduled : sectorsOf group.expirationSet ⊆ scheduled queue := fun number member =>
      mem_scheduled.mpr ⟨group.sectorEpochSet.epoch, group.expirationSet, groupOk.found, member⟩
    by_cases stays : group.sectorEpochSet.epoch ≤ queue.quant.quantizeUp newExpiration
    · -- the group expires by the fault expiration: its power turns faulty where it is
      simp only [stays, if_true] at run
      obtain ⟨_, _, continued⟩ := Except.bind_eq_ok.mp run
      have balanced := (inv.entryOk groupOk.found).balanced
      have faultedBalanced : Balanced table sectorSize { group.expirationSet with
          activePower := group.expirationSet.activePower - group.sectorEpochSet.power
          faultyPower := group.expirationSet.faultyPower + group.sectorEpochSet.power } :=
        balanced.movePower (by abel)
      obtain ⟨invStep, scheduledStep⟩ :=
        inv.mustUpdateOrDelete groupOk.found (by exact Finset.Subset.refl _) faultedBalanced
      simp only [sectorsOf, Finset.sdiff_self, Finset.sdiff_empty] at scheduledStep
      obtain ⟨moved, movedInside, invAfter, quantAfter, scheduledAfter, totalEq, rescheduledEq, sumEq⟩ :=
        inductionHypothesis invStep (restOk _) restDistinct restApart continued
      refine ⟨moved, scheduledStep ▸ movedInside, invAfter,
        quantAfter.trans (quant_mustUpdateOrDelete _ _), ?_, totalEq, rescheduledEq, ?_⟩
      · rw [scheduledAfter, scheduledStep]
      · rw [sumEq, groupedSectors_cons, powerOf_union takenApart, ← groupOk.balanced.power]
        abel
    · -- the group expires later: it leaves its entry with its pledge and active power
      simp only [stays, if_false] at run
      obtain ⟨_, _, continued⟩ := Except.bind_eq_ok.mp run
      have balanced := (inv.entryOk groupOk.found).balanced
      obtain ⟨removedBalanced, sectorsLeft⟩ :=
        balanced.removeOnTime groupOk.inside groupOk.balanced.power groupOk.balanced.pledge
      obtain ⟨invStep, scheduledStep⟩ := inv.mustUpdateOrDelete groupOk.found
        (sectorsLeft ▸ Finset.sdiff_subset) removedBalanced
      rw [sectorsLeft, Finset.sdiff_sdiff_eq_self takenInSet] at scheduledStep
      obtain ⟨moved, movedInside, invAfter, quantAfter, scheduledAfter, totalEq, rescheduledEq, sumEq⟩ :=
        inductionHypothesis invStep (restOk _) restDistinct restApart continued
      have movedApart : Disjoint group.sectorEpochSet.sectors.toFinset moved :=
        Finset.disjoint_of_subset_right (scheduledStep ▸ movedInside) Finset.disjoint_sdiff
      refine ⟨group.sectorEpochSet.sectors.toFinset ∪ moved, Finset.union_subset (takenInSet.trans setScheduled)
          (movedInside.trans (scheduledStep ▸ Finset.sdiff_subset)),
        invAfter, quantAfter.trans (quant_mustUpdateOrDelete _ _), ?_, ?_, ?_, ?_⟩
      · rw [scheduledAfter, scheduledStep, sdiff_sdiff_left, Finset.sup_eq_union]
      · rw [totalEq, List.toFinset_append, Finset.union_assoc]
      · rw [rescheduledEq, powerOf_union movedApart, ← groupOk.balanced.power, add_assoc]
      · rw [sumEq, groupedSectors_cons, powerOf_union takenApart, ← groupOk.balanced.power]
        abel

/-- `reschedule_as_faults`: the sectors named turn faulty, those expiring after the fault
expiration moving there as early sectors; the queue has the same sectors, and the power
returned is that of exactly the sectors named. -/
theorem rescheduleAsFaults_spec {queue rescheduled : ExpirationQueue} {newExpiration : Int}
    {sectors : List SectorOnChainInfo} {power : PowerPair} (inv : Inv table sectorSize queue)
    (positive : 0 < queue.quant.unit) (consistent : Consistent table sectors)
    (run : queue.rescheduleAsFaults sectorSize newExpiration sectors = .ok (power, rescheduled)) :
    Inv table sectorSize rescheduled ∧ rescheduled.quant = queue.quant ∧
      numbersOf sectors ⊆ scheduled queue ∧ scheduled rescheduled = scheduled queue ∧
      power = powerOf table sectorSize (numbersOf sectors) := by
  obtain ⟨groups, findRun, continued⟩ := Except.bind_eq_ok.mp run
  obtain ⟨groupsOk, distinct, apart, covered⟩ := findSectorsByExpiration_spec consistent findRun
  obtain ⟨⟨total, expiring, rescheduledPower, faulted⟩, loopRun, finished⟩ :=
    Except.bind_eq_ok.mp continued
  obtain ⟨moved, movedInside, invFaulted, quantFaulted, scheduledFaulted, totalEq, rescheduledEq,
    sumEq⟩ := rescheduleGroupsAsFaults_spec newExpiration groups inv groupsOk distinct apart loopRun
  rw [List.toFinset_nil, Finset.empty_union] at totalEq
  rw [zero_add] at rescheduledEq
  rw [zero_add, zero_add, covered] at sumEq
  simp only [pure, Except.pure, Except.ok.injEq, Prod.mk.injEq] at finished
  obtain ⟨rfl, rfl⟩ := finished
  have inside : numbersOf sectors ⊆ scheduled queue :=
    covered ▸ groupedSectors_subset_scheduled groupsOk
  by_cases noneMoved : total.isEmpty
  · have none : moved = ∅ := by rw [← totalEq, List.isEmpty_iff.mp noneMoved, List.toFinset_nil]
    simp only [noneMoved, if_true]
    refine ⟨invFaulted, quantFaulted, inside, ?_, by rw [add_comm, sumEq]⟩
    rw [scheduledFaulted, none, Finset.sdiff_empty]
  · -- the sectors that left their entries join the fault expiration as early sectors
    simp only [noneMoved, Bool.false_eq_true, if_false]
    rw [totalEq]
    have nonempty : (∅ ∪ moved).Nonempty := by
      obtain ⟨number, member⟩ := List.exists_mem_of_ne_nil total (fun none => noneMoved (by simp [none]))
      exact ⟨number, by simp [← totalEq, member]⟩
    obtain ⟨invAdded, scheduledAdded⟩ : Inv table sectorSize
          (faulted.add newExpiration ∅ moved 0 rescheduledPower 0) ∧
        scheduled (faulted.add newExpiration ∅ moved 0 rescheduledPower 0) =
          scheduled faulted ∪ (∅ ∪ moved) :=
      invFaulted.add (quantFaulted ▸ positive) (Finset.disjoint_empty_left _) nonempty
        (by rw [Finset.empty_union, scheduledFaulted]; exact Finset.disjoint_sdiff)
        (by rw [zero_add, Finset.empty_union, rescheduledEq]) (by simp [pledgeOf])
    refine ⟨invAdded, quantFaulted, inside, ?_, by rw [add_comm, sumEq]⟩
    rw [scheduledAdded, scheduledFaulted, Finset.empty_union, Finset.sdiff_union_of_subset movedInside]

end Forest.Miner
