import Forest.Miner.QueueInvariant
import Forest.Lib.Result

namespace Forest.Miner

/-!
# Finding, removing and adding active sectors

`find_sectors_by_expiration` groups the sectors it is given by the entry where they
expire on time, looking first at their declared expirations and then through the rest of
the queue.  Its spec needs no invariant of the queue, only that the infos are those of the
table: every group is some of the on-time sectors of the entry at its epoch, carrying
that entry, with their power and pledge; no two groups share an epoch or a sector; and
together the groups are exactly the sectors looked for.

`remove_active_sectors` takes the groups out again, and `add_active_sectors` puts new
sectors in by their declared expiration.  Both keep the queue well kept, move exactly the
sectors named, and return the power and pledge of exactly those.
-/

open ExpirationQueue

/-- The numbers of a list of sector infos. -/
def numbersOf (sectors : List SectorOnChainInfo) : Finset Nat :=
  (sectors.map (·.sectorNumber)).toFinset

/-- The sectors of a list of groups. -/
def groupedSectors (groups : List SectorExpirationSet) : Finset Nat :=
  unionOf (groups.map fun group => group.sectorEpochSet.sectors.toFinset)

section Groups

variable (table : Nat → SectorOnChainInfo) (sectorSize : Nat)

/-- A group carries the power and pledge of its sectors. -/
structure GroupBalanced (group : SectorEpochSet) : Prop where
  power : group.power = powerOf table sectorSize group.sectors.toFinset
  pledge : group.pledge = pledgeOf table group.sectors.toFinset

/-- A group found in `queue`: some on-time sectors of the entry at its epoch, which the
group carries, with their power and pledge. -/
structure GroupOk (queue : ExpirationQueue) (group : SectorExpirationSet) : Prop where
  found : queue.amt.get? group.sectorEpochSet.epoch = some group.expirationSet
  inside : group.sectorEpochSet.sectors.toFinset ⊆ group.expirationSet.onTimeSectors
  nonempty : group.sectorEpochSet.sectors ≠ []
  distinct : group.sectorEpochSet.sectors.Nodup
  balanced : GroupBalanced table sectorSize group.sectorEpochSet

/-- What the search has found after looking at the epochs `visited`: groups found in
`queue` at distinct epochs among those, apart from one another and from the sectors still
looked for, with which they make up `lookedFor`. -/
structure Found (queue : ExpirationQueue) (lookedFor : Finset Nat) (visited : List Int)
    (state : List SectorExpirationSet × Finset Nat) : Prop where
  groupsOk : ∀ group ∈ state.1, GroupOk table sectorSize queue group
  epochsVisited : ∀ group ∈ state.1, group.sectorEpochSet.epoch ∈ visited
  epochsDistinct : (state.1.map fun group => group.sectorEpochSet.epoch).Nodup
  groupsApart : (state.1.map fun group => group.sectorEpochSet.sectors.toFinset).Pairwise Disjoint
  covers : groupedSectors state.1 ∪ state.2 = lookedFor
  apart : Disjoint (groupedSectors state.1) state.2

end Groups

variable {table : Nat → SectorOnChainInfo} {sectorSize : Nat}

/-! ## Grouping the on-time sectors of one entry -/

/-- The hash map built from infos of the table finds the table's info. -/
theorem sectorsByNumber_lookup {sectors : List SectorOnChainInfo}
    (consistent : Consistent table sectors) :
    ∀ number sector, sectorsByNumber sectors number = some sector → table number = sector := by
  intro number sector lookedUp
  unfold sectorsByNumber at lookedUp
  have member : sector ∈ sectors := List.mem_reverse.mp (List.mem_of_find?_eq_some lookedUp)
  have sameNumber : sector.sectorNumber = number := by simpa using List.find?_some lookedUp
  rw [← sameNumber]
  exact consistent sector member

section Grouping

variable {byNumber : Nat → Option SectorOnChainInfo}
  (lookup : ∀ number sector, byNumber number = some sector → table number = sector)
include lookup

/-- The loop of `group_expiration_set` over distinct numbers takes, in order, those still
looked for, with their power and pledge by the table. -/
theorem groupOnTime_spec :
    ∀ {numbers : List Nat}, numbers.Nodup →
      ∀ {grouped : List Nat} {power : PowerPair} {pledge : Int} {includeSet : Finset Nat}
        {result : List Nat × PowerPair × Int × Finset Nat},
      groupOnTime sectorSize byNumber numbers (grouped, power, pledge, includeSet) = .ok result →
      result = (grouped ++ numbers.filter (· ∈ includeSet),
        power + ((numbers.filter (· ∈ includeSet)).map
          fun number => powerForSector sectorSize (table number)).sum,
        pledge + ((numbers.filter (· ∈ includeSet)).map
          fun number => (table number).initialPledge).sum,
        includeSet \ numbers.toFinset) := by
  intro numbers
  induction numbers with
  | nil =>
    intro _ grouped power pledge includeSet result run
    simp only [groupOnTime, Except.ok.injEq] at run
    simp [← run]
  | cons number rest inductionHypothesis =>
    intro distinct grouped power pledge includeSet result run
    obtain ⟨fresh, restDistinct⟩ := List.nodup_cons.mp distinct
    simp only [groupOnTime] at run
    split at run
    · next included =>
      split at run
      · cases run
      · next sector lookedUp =>
        -- the numbers after this one are looked for in the set without it, which is the
        -- same test since they are distinct from it
        have sameTest : rest.filter (· ∈ includeSet.erase number) = rest.filter (· ∈ includeSet) :=
          List.filter_congr fun other member => by
            have different : other ≠ number := fun same => fresh (same ▸ member)
            simp [Finset.mem_erase, different]
        rw [inductionHypothesis restDistinct run, sameTest, ← lookup number sector lookedUp]
        have left : includeSet.erase number \ rest.toFinset = includeSet \ (number :: rest).toFinset := by
          ext other
          simp only [Finset.mem_sdiff, Finset.mem_erase, List.mem_toFinset, List.mem_cons]
          tauto
        simp [included, left, add_assoc]
    · next excluded =>
      have left : includeSet \ rest.toFinset = includeSet \ (number :: rest).toFinset := by
        ext other
        simp only [Finset.mem_sdiff, List.mem_toFinset, List.mem_cons]
        constructor
        · rintro ⟨member, notInRest⟩
          exact ⟨member, fun gone => gone.elim (fun same => excluded (same ▸ member)) notInRest⟩
        · rintro ⟨member, notInList⟩
          exact ⟨member, fun inRest => notInList (Or.inr inRest)⟩
      rw [inductionHypothesis restDistinct run, left]
      simp [excluded]

/-- `group_expiration_set`: the group is the on-time sectors of `set` still looked for,
with their power and pledge, and they are looked for no more. -/
theorem groupExpirationSet_spec {includeSet remaining : Finset Nat} {set : ExpirationSet}
    {expiration : Int} {group : SectorExpirationSet}
    (run : groupExpirationSet sectorSize byNumber includeSet set expiration = .ok (group, remaining)) :
    group.sectorEpochSet.epoch = expiration ∧ group.expirationSet = set ∧
      group.sectorEpochSet.sectors.toFinset = set.onTimeSectors ∩ includeSet ∧
      group.sectorEpochSet.sectors.Nodup ∧ GroupBalanced table sectorSize group.sectorEpochSet ∧
      remaining = includeSet \ set.onTimeSectors := by
  obtain ⟨result, loop, returned⟩ := Except.bind_eq_ok.mp run
  have resultEq := groupOnTime_spec lookup (Finset.sort_nodup _ _) loop
  subst resultEq
  simp only [pure, Except.pure, Except.ok.injEq, Prod.mk.injEq] at returned
  obtain ⟨rfl, rfl⟩ := returned
  set taken := (set.onTimeSectors.sort (· ≤ ·)).filter (· ∈ includeSet)
  have takenDistinct : taken.Nodup := (Finset.sort_nodup _ _).filter _
  have takenSet : taken.toFinset = set.onTimeSectors ∩ includeSet := by
    ext number
    simp [taken]
  refine ⟨rfl, rfl, by simpa using takenSet, by simpa using takenDistinct, ⟨?_, ?_⟩, ?_⟩
  · simp only [zero_add, List.nil_append, powerOf]
    exact (List.sum_toFinset _ takenDistinct).symm
  · simp only [zero_add, List.nil_append, pledgeOf]
    exact (List.sum_toFinset _ takenDistinct).symm
  · simp

end Grouping

/-! ## The search -/

section Search

variable {queue : ExpirationQueue} {lookedFor : Finset Nat}

theorem found_start (visited : List Int) :
    Found table sectorSize queue lookedFor visited ([], lookedFor) :=
  ⟨by simp, by simp, List.nodup_nil, List.Pairwise.nil, by simp [groupedSectors, unionOf],
    by simp [groupedSectors, unionOf]⟩

theorem Found.mono {visited more : List Int} {state : List SectorExpirationSet × Finset Nat}
    (found : Found table sectorSize queue lookedFor visited state) (inside : visited ⊆ more) :
    Found table sectorSize queue lookedFor more state :=
  { found with epochsVisited := fun group member => inside (found.epochsVisited group member) }

/-- The entry at an epoch where some on-time sector is, is stored. -/
theorem get?_of_onTime {epoch : Int} {number : Nat}
    (member : number ∈ (queue.mayGet epoch).onTimeSectors) :
    queue.amt.get? epoch = some (queue.mayGet epoch) := by
  unfold ExpirationQueue.mayGet at member ⊢
  cases found : queue.amt.get? epoch with
  | none => simp [found, ExpirationSet.empty] at member
  | some set => rfl

/-- One step of the search: grouping the entry at a new epoch keeps what has been found. -/
theorem Found.step {byNumber : Nat → Option SectorOnChainInfo}
    (lookup : ∀ number sector, byNumber number = some sector → table number = sector)
    {visited : List Int} {groups : List SectorExpirationSet} {remaining left : Finset Nat}
    {epoch : Int} {set : ExpirationSet} {group : SectorExpirationSet}
    (found : Found table sectorSize queue lookedFor visited (groups, remaining))
    (fresh : epoch ∉ visited) (atEpoch : queue.mayGet epoch = set)
    (run : groupExpirationSet sectorSize byNumber remaining set epoch = .ok (group, left)) :
    Found table sectorSize queue lookedFor (visited ++ [epoch])
      (if group.sectorEpochSet.sectors.isEmpty then groups else groups ++ [group], left) := by
  obtain ⟨epochEq, setEq, sectorsEq, distinct, balanced, leftEq⟩ :=
    groupExpirationSet_spec lookup run
  have grown : visited ⊆ visited ++ [epoch] := List.subset_append_left _ _
  -- the sectors still looked for are split between the group and what is left
  have parts : set.onTimeSectors ∩ remaining ∪ left = remaining := by
    rw [leftEq]
    ext number
    simp only [Finset.mem_union, Finset.mem_inter, Finset.mem_sdiff]
    tauto
  have partsApart : Disjoint (set.onTimeSectors ∩ remaining) left := by
    rw [leftEq]
    exact Finset.disjoint_of_subset_left Finset.inter_subset_left Finset.disjoint_sdiff
  split
  · next noSectors =>
    have none : set.onTimeSectors ∩ remaining = ∅ := by
      rw [← sectorsEq, List.isEmpty_iff.mp noSectors]
      rfl
    have sameLeft : left = remaining := by rw [← parts, none, Finset.empty_union]
    subst sameLeft
    exact found.mono grown
  · next someSectors =>
    have nonempty : group.sectorEpochSet.sectors ≠ [] := fun none => someSectors (by simp [none])
    obtain ⟨number, numberMember⟩ := List.exists_mem_of_ne_nil _ nonempty
    have inSet : number ∈ set.onTimeSectors ∩ remaining := by
      rw [← sectorsEq]
      exact List.mem_toFinset.mpr numberMember
    have stored : queue.amt.get? epoch = some set := by
      rw [← atEpoch]
      exact get?_of_onTime (atEpoch ▸ (Finset.mem_inter.mp inSet).1)
    have groupOk : GroupOk table sectorSize queue group := by
      refine ⟨by rw [epochEq, setEq]; exact stored, ?_, nonempty, distinct, balanced⟩
      rw [sectorsEq, setEq]
      exact Finset.inter_subset_left
    have groupApart : Disjoint (groupedSectors groups) group.sectorEpochSet.sectors.toFinset := by
      rw [sectorsEq]
      exact Finset.disjoint_of_subset_right Finset.inter_subset_right found.apart
    have grouped : groupedSectors (groups ++ [group]) =
        groupedSectors groups ∪ (set.onTimeSectors ∩ remaining) := by
      have single : unionOf [group.sectorEpochSet.sectors.toFinset] = set.onTimeSectors ∩ remaining := by
        simp [unionOf, sectorsEq]
      simp only [groupedSectors, List.map_append, List.map_cons, List.map_nil, unionOf_append, single]
    refine ⟨?_, ?_, ?_, ?_, ?_, ?_⟩
    · intro other member
      rcases List.mem_append.mp member with old | new
      · exact found.groupsOk other old
      · rw [List.mem_singleton.mp new]
        exact groupOk
    · intro other member
      rcases List.mem_append.mp member with old | new
      · exact grown (found.epochsVisited other old)
      · rw [List.mem_singleton.mp new, epochEq]
        exact List.mem_append_right _ (List.mem_singleton_self _)
    · rw [List.map_append, List.nodup_append]
      refine ⟨found.epochsDistinct, List.nodup_singleton _, ?_⟩
      intro earlier earlierMember later laterMember same
      obtain ⟨other, otherMember, rfl⟩ := List.mem_map.mp earlierMember
      have laterEq : later = epoch := by simpa [epochEq] using laterMember
      rw [laterEq] at same
      exact fresh (same ▸ found.epochsVisited other otherMember)
    · rw [List.map_append, List.pairwise_append]
      refine ⟨found.groupsApart, List.pairwise_singleton _ _, ?_⟩
      intro earlier earlierMember later laterMember
      rw [List.mem_singleton.mp laterMember]
      obtain ⟨other, otherMember, rfl⟩ := List.mem_map.mp earlierMember
      exact Finset.disjoint_of_subset_left
        (fun number member => mem_unionOf.mpr ⟨_, List.mem_map_of_mem otherMember, member⟩) groupApart
    · rw [grouped, Finset.union_assoc, parts]
      exact found.covers
    · rw [grouped]
      refine Finset.disjoint_union_left.mpr ⟨?_, partsApart⟩
      exact Finset.disjoint_of_subset_right (parts ▸ Finset.subset_union_right) found.apart

/-- The loop over the declared expirations, which are distinct and new, keeps what has been
found. -/
theorem declaredGroups_spec {byNumber : Nat → Option SectorOnChainInfo}
    (lookup : ∀ number sector, byNumber number = some sector → table number = sector) :
    ∀ (expirations visited : List Int) (state result : List SectorExpirationSet × Finset Nat),
      (visited ++ expirations).Nodup → Found table sectorSize queue lookedFor visited state →
      declaredGroups sectorSize queue byNumber expirations state = .ok result →
      Found table sectorSize queue lookedFor (visited ++ expirations) result := by
  intro expirations
  induction expirations with
  | nil =>
    intro visited state result _ found run
    simp only [declaredGroups, Except.ok.injEq] at run
    rw [← run, List.append_nil]
    exact found
  | cons expiration rest inductionHypothesis =>
    intro visited state result distinct found run
    obtain ⟨groups, remaining⟩ := state
    simp only [declaredGroups] at run
    obtain ⟨⟨group, left⟩, grouping, continued⟩ := Except.bind_eq_ok.mp run
    have fresh : expiration ∉ visited := by
      intro member
      exact (List.nodup_append.mp distinct).2.2 expiration member expiration
        List.mem_cons_self rfl
    have stepped := found.step lookup fresh rfl grouping
    have sameOrder : visited ++ expiration :: rest = visited ++ [expiration] ++ rest := by simp
    rw [sameOrder] at distinct ⊢
    exact inductionHypothesis _ _ _ distinct stepped continued

/-- The traversal of the other entries keeps what has been found; the epochs visited are
the declared ones and those of the entries passed. -/
theorem otherGroups_step {byNumber : Nat → Option SectorOnChainInfo}
    (lookup : ∀ number sector, byNumber number = some sector → table number = sector)
    {declared : List Int} {seen : List (Int × ExpirationSet)} {epoch : Int} {set : ExpirationSet}
    {state result : List SectorExpirationSet × Finset Nat} {keepGoing : Bool}
    (isPrefix : seen ++ [(epoch, set)] <+: queue.amt.entries)
    (found : Found table sectorSize queue lookedFor (declared ++ seen.map Prod.fst) state)
    (run : otherGroups sectorSize byNumber declared epoch set state = .ok (keepGoing, result)) :
    Found table sectorSize queue lookedFor (declared ++ (seen ++ [(epoch, set)]).map Prod.fst)
      result := by
  have visitedEq : declared ++ (seen ++ [(epoch, set)]).map Prod.fst =
      declared ++ seen.map Prod.fst ++ [epoch] := by simp
  rw [visitedEq]
  obtain ⟨groups, remaining⟩ := state
  simp only [otherGroups] at run
  split at run
  · next isDeclared =>
    simp only [Except.ok.injEq, Prod.mk.injEq] at run
    rw [← run.2]
    exact found.mono (List.subset_append_left _ _)
  · next notDeclared =>
    obtain ⟨_, _, grouping⟩ := Except.bind_eq_ok.mp run
    obtain ⟨⟨group, left⟩, groupRun, returned⟩ := Except.bind_eq_ok.mp grouping
    simp only [pure, Except.pure, Except.ok.injEq, Prod.mk.injEq] at returned
    rw [← returned.2]
    have member : (epoch, set) ∈ queue.amt.entries :=
      isPrefix.subset (List.mem_append_right _ (List.mem_singleton_self _))
    have atEpoch : queue.mayGet epoch = set := by
      simp [ExpirationQueue.mayGet, queue.amt.mem_entries_iff.mp member]
    -- the keys of the entries are distinct, so the traversal has not passed this one
    have keysDistinct : ((seen ++ [(epoch, set)]).map Prod.fst).Nodup :=
      (queue.amt.keys_nodup).sublist (isPrefix.sublist.map _)
    have notSeen : epoch ∉ seen.map Prod.fst := by
      rw [List.map_append, List.nodup_append] at keysDistinct
      exact fun seenMember => keysDistinct.2.2 epoch seenMember epoch (List.mem_singleton_self _) rfl
    have fresh : epoch ∉ declared ++ seen.map Prod.fst := by
      rw [List.mem_append]
      rintro (inDeclared | inSeen)
      · exact notDeclared inDeclared
      · exact notSeen inSeen
    exact found.step lookup fresh atEpoch groupRun

end Search

/-- When nothing is left to look for, the groups found, in whatever order, are the sectors
looked for. -/
theorem Found.finish {queue : ExpirationQueue} {lookedFor : Finset Nat} {visited : List Int}
    {found sorted : List SectorExpirationSet}
    (search : Found table sectorSize queue lookedFor visited (found, ∅)) (perm : sorted.Perm found) :
    (∀ group ∈ sorted, GroupOk table sectorSize queue group) ∧
      (sorted.map fun group => group.sectorEpochSet.epoch).Nodup ∧
      (sorted.map fun group => group.sectorEpochSet.sectors.toFinset).Pairwise Disjoint ∧
      groupedSectors sorted = lookedFor := by
  refine ⟨fun group member => search.groupsOk group (perm.subset member), ?_, ?_, ?_⟩
  · exact (perm.map _).nodup_iff.mpr search.epochsDistinct
  · exact ((perm.map _).pairwise_iff (fun apart => Disjoint.symm apart)).mpr search.groupsApart
  · rw [← search.covers, Finset.union_empty]
    exact unionOf_perm (perm.map _)

/-- `find_sectors_by_expiration`: the groups are found in the queue at distinct epochs,
share no sector, and are exactly the sectors looked for. -/
theorem findSectorsByExpiration_spec {queue : ExpirationQueue} {sectors : List SectorOnChainInfo}
    {groups : List SectorExpirationSet} (consistent : Consistent table sectors)
    (run : queue.findSectorsByExpiration sectorSize sectors = .ok groups) :
    (∀ group ∈ groups, GroupOk table sectorSize queue group) ∧
      (groups.map fun group => group.sectorEpochSet.epoch).Nodup ∧
      (groups.map fun group => group.sectorEpochSet.sectors.toFinset).Pairwise Disjoint ∧
      groupedSectors groups = numbersOf sectors := by
  have lookup := sectorsByNumber_lookup consistent
  set declared :=
    ((sectors.map fun sector => queue.quant.quantizeUp sector.expiration).dedup).insertionSort (· ≤ ·)
  have declaredDistinct : ([] ++ declared).Nodup :=
    (List.perm_insertionSort _ _).nodup_iff.mpr (List.nodup_dedup _)
  unfold findSectorsByExpiration at run
  obtain ⟨⟨declaredFound, declaredLeft⟩, declaredRun, continued⟩ := Except.bind_eq_ok.mp run
  have foundDeclared : Found table sectorSize queue (numbersOf sectors) ([] ++ declared)
      (declaredFound, declaredLeft) :=
    declaredGroups_spec lookup declared [] _ _ declaredDistinct (found_start []) declaredRun
  -- the search ends when nothing is left to look for
  have finish : ∀ {visited : List Int} {found : List SectorExpirationSet} {left : Finset Nat},
      Found table sectorSize queue (numbersOf sectors) visited (found, left) →
      (if left ≠ ∅ then Except.error "some sectors not found in expiration queue"
        else pure (found.insertionSort fun first second =>
          first.sectorEpochSet.epoch ≤ second.sectorEpochSet.epoch)) = Except.ok groups →
      (∀ group ∈ groups, GroupOk table sectorSize queue group) ∧
        (groups.map fun group => group.sectorEpochSet.epoch).Nodup ∧
        (groups.map fun group => group.sectorEpochSet.sectors.toFinset).Pairwise Disjoint ∧
        groupedSectors groups = numbersOf sectors := by
    intro visited found left search finished
    split at finished
    · cases finished
    · next noneLeft =>
      simp only [pure, Except.pure, Except.ok.injEq] at finished
      rw [not_not.mp noneLeft] at search
      exact search.finish (finished ▸ List.perm_insertionSort _ _)
  dsimp only at continued
  split at continued
  · -- some sectors were not at their declared expiration: the other entries are searched
    obtain ⟨⟨othersFound, othersLeft⟩, othersRun, finished⟩ := Except.bind_eq_ok.mp continued
    obtain ⟨seen, _, _, foundSeen⟩ := SortedMap.forEachWhile_invariant queue.amt.entries
      (fun seen state => Found table sectorSize queue (numbersOf sectors)
        (declared ++ seen.map Prod.fst) state)
      (fun _ _ _ _ _ _ isPrefix found visit => otherGroups_step lookup isPrefix found visit)
      (by simpa using foundDeclared) othersRun
    exact finish foundSeen finished
  · exact finish foundDeclared continued

/-! ## Removing the groups found -/

section Removing

variable {queue : ExpirationQueue}

theorem quant_remove {rawEpoch : Int} {onTime early : Finset Nat} {active faulty : PowerPair}
    {pledge : Int} {removed : ExpirationQueue}
    (removeEq : queue.remove rawEpoch onTime early active faulty pledge = .ok removed) :
    removed.quant = queue.quant := by
  unfold ExpirationQueue.remove at removeEq
  dsimp only at removeEq
  split at removeEq
  · cases removeEq
  · split at removeEq
    · cases removeEq
    · cases removeEq
      unfold ExpirationQueue.mustUpdateOrDelete
      split <;> rfl

theorem groupedSectors_cons (group : SectorExpirationSet) (rest : List SectorExpirationSet) :
    groupedSectors (group :: rest) = group.sectorEpochSet.sectors.toFinset ∪ groupedSectors rest :=
  rfl

/-- The loop of `remove_active_sectors`: each group leaves the entry at its epoch, and the
aggregates grow by exactly the sectors removed. -/
theorem removeGroups_spec :
    ∀ (groups : List SectorExpirationSet) {queue removedQueue : ExpirationQueue}
      {numbers removedNumbers : Finset Nat} {power removedPower : PowerPair}
      {pledge removedPledge : Int},
      Inv table sectorSize queue →
      (∀ group ∈ groups, GroupBalanced table sectorSize group.sectorEpochSet) →
      queue.removeGroups groups (numbers, power, pledge) =
        .ok ((removedNumbers, removedPower, removedPledge), removedQueue) →
      Inv table sectorSize removedQueue ∧ removedQueue.quant = queue.quant ∧
        groupedSectors groups ⊆ scheduled queue ∧
        scheduled removedQueue = scheduled queue \ groupedSectors groups ∧
        removedNumbers = numbers ∪ groupedSectors groups ∧
        removedPower = power + powerOf table sectorSize (groupedSectors groups) ∧
        removedPledge = pledge + pledgeOf table (groupedSectors groups) := by
  intro groups
  induction groups with
  | nil =>
    intro queue removedQueue numbers removedNumbers power removedPower pledge removedPledge
      inv _ run
    simp only [removeGroups, Except.ok.injEq, Prod.mk.injEq] at run
    obtain ⟨⟨rfl, rfl, rfl⟩, rfl⟩ := run
    simp [inv, groupedSectors, unionOf, powerOf, pledgeOf]
  | cons group rest inductionHypothesis =>
    intro queue removedQueue numbers removedNumbers power removedPower pledge removedPledge
      inv balanced run
    obtain ⟨afterGroup, removeEq, continued⟩ := Except.bind_eq_ok.mp run
    have groupBalanced := balanced group List.mem_cons_self
    set taken := group.sectorEpochSet.sectors.toFinset
    obtain ⟨invAfter, scheduledAfter, inside⟩ := inv.remove removeEq
      (by rw [groupBalanced.power, add_zero, Finset.union_empty]) groupBalanced.pledge
    rw [Finset.union_empty] at scheduledAfter inside
    obtain ⟨invRemoved, quantRemoved, restInside, scheduledRemoved, numbersEq, powerEq, pledgeEq⟩ :=
      inductionHypothesis invAfter (fun other member => balanced other (List.mem_cons_of_mem _ member))
        continued
    -- the later groups were still in the queue once this one had left, so they are apart from it
    have apart : Disjoint taken (groupedSectors rest) :=
      Finset.disjoint_of_subset_right (scheduledAfter ▸ restInside) Finset.disjoint_sdiff
    refine ⟨invRemoved, quantRemoved.trans (quant_remove removeEq), ?_, ?_, ?_, ?_, ?_⟩
    · rw [groupedSectors_cons]
      exact Finset.union_subset inside (restInside.trans (scheduledAfter ▸ Finset.sdiff_subset))
    · rw [scheduledRemoved, scheduledAfter, groupedSectors_cons, sdiff_sdiff_left, Finset.sup_eq_union]
    · rw [numbersEq, groupedSectors_cons, Finset.union_assoc]
    · rw [powerEq, groupedSectors_cons, powerOf_union apart, groupBalanced.power, add_assoc]
    · rw [pledgeEq, groupedSectors_cons, pledgeOf_union apart, groupBalanced.pledge, add_assoc]

/-- `remove_active_sectors`: exactly the sectors named leave the queue, which stays well
kept, and their power and pledge are returned. -/
theorem removeActiveSectors_spec {sectors : List SectorOnChainInfo} {removedQueue : ExpirationQueue}
    {numbers : Finset Nat} {power : PowerPair} {pledge : Int}
    (inv : Inv table sectorSize queue) (consistent : Consistent table sectors)
    (run : queue.removeActiveSectors sectorSize sectors =
      .ok ((numbers, power, pledge), removedQueue)) :
    Inv table sectorSize removedQueue ∧ removedQueue.quant = queue.quant ∧
      numbers = numbersOf sectors ∧ numbers ⊆ scheduled queue ∧
      scheduled removedQueue = scheduled queue \ numbers ∧
      power = powerOf table sectorSize numbers ∧ pledge = pledgeOf table numbers := by
  obtain ⟨groups, findRun, removeRun⟩ := Except.bind_eq_ok.mp run
  obtain ⟨groupsOk, _, _, covered⟩ := findSectorsByExpiration_spec consistent findRun
  obtain ⟨invRemoved, quantRemoved, inside, scheduledRemoved, numbersEq, powerEq, pledgeEq⟩ :=
    removeGroups_spec groups inv (fun group member => (groupsOk group member).balanced) removeRun
  rw [Finset.empty_union] at numbersEq
  rw [zero_add] at powerEq pledgeEq
  subst numbersEq
  exact ⟨invRemoved, quantRemoved, covered, inside, scheduledRemoved, powerEq, pledgeEq⟩

end Removing

/-! ## Adding new sectors -/

section Adding

/-- The groups of `group_new_sectors_by_declared_expiration`, from distinct sectors of the
table: each is balanced and holds some sector, no two share a sector, and together they are
the sectors given. -/
theorem groupNewSectorsByDeclaredExpiration_spec {sectors : List SectorOnChainInfo}
    (quant : QuantSpec) (consistent : Consistent table sectors)
    (distinct : (sectors.map (·.sectorNumber)).Nodup) :
    (∀ group ∈ groupNewSectorsByDeclaredExpiration sectorSize sectors quant,
        GroupBalanced table sectorSize group ∧ group.sectors ≠ []) ∧
      ((groupNewSectorsByDeclaredExpiration sectorSize sectors quant).map
        fun group => group.sectors.toFinset).Pairwise Disjoint ∧
      unionOf ((groupNewSectorsByDeclaredExpiration sectorSize sectors quant).map
        fun group => group.sectors.toFinset) = numbersOf sectors := by
  unfold groupNewSectorsByDeclaredExpiration
  dsimp only
  set expirations :=
    ((sectors.map fun sector => quant.quantizeUp sector.expiration).dedup).insertionSort (· ≤ ·)
  have memExpirations : ∀ {expiration}, expiration ∈ expirations ↔
      ∃ sector ∈ sectors, quant.quantizeUp sector.expiration = expiration := by
    intro expiration
    simp [expirations, List.mem_insertionSort, List.mem_dedup]
  have expirationsDistinct : expirations.Nodup :=
    (List.perm_insertionSort _ _).nodup_iff.mpr (List.nodup_dedup _)
  -- the sectors expiring at one epoch, as the group for it takes them
  have memGroup : ∀ {expiration number},
      number ∈ ((sectors.filter fun sector => quant.quantizeUp sector.expiration = expiration).map
        (·.sectorNumber)).toFinset ↔
      ∃ sector ∈ sectors, quant.quantizeUp sector.expiration = expiration ∧
        sector.sectorNumber = number := by
    intro expiration number
    simp [List.mem_filter, and_assoc]
  refine ⟨?_, ?_, ?_⟩
  · intro group member
    obtain ⟨expiration, expirationMember, rfl⟩ := List.mem_map.mp member
    set epochSectors := sectors.filter fun sector => quant.quantizeUp sector.expiration = expiration
    have epochConsistent : Consistent table epochSectors :=
      consistent_of_sublist consistent List.filter_sublist
    have epochDistinct : (epochSectors.map (·.sectorNumber)).Nodup :=
      distinct.sublist (List.filter_sublist.map _)
    refine ⟨⟨sum_power_eq_powerOf epochConsistent epochDistinct,
      sum_pledge_eq_pledgeOf epochConsistent epochDistinct⟩, ?_⟩
    obtain ⟨sector, sectorMember, expiresThen⟩ := memExpirations.mp expirationMember
    have inEpoch : sector ∈ epochSectors := List.mem_filter.mpr ⟨sectorMember, by simpa using expiresThen⟩
    exact List.ne_nil_of_mem (List.mem_map_of_mem inEpoch)
  · rw [List.map_map, List.pairwise_map]
    refine (show expirations.Pairwise (· ≠ ·) from expirationsDistinct).imp ?_
    intro first second different
    rw [Finset.disjoint_left]
    intro number inFirst inSecond
    obtain ⟨sector, sectorMember, firstExpiration, sameNumber⟩ := memGroup.mp inFirst
    obtain ⟨other, otherMember, secondExpiration, otherNumber⟩ := memGroup.mp inSecond
    -- the numbers are distinct, so both groups hold the same sector
    have same : sector = other :=
      List.inj_on_of_nodup_map distinct sectorMember otherMember (sameNumber.trans otherNumber.symm)
    exact different (firstExpiration.symm.trans (same ▸ secondExpiration))
  · ext number
    rw [mem_unionOf, numbersOf, List.mem_toFinset, List.map_map]
    constructor
    · rintro ⟨_, groupMember, inGroup⟩
      obtain ⟨expiration, _, rfl⟩ := List.mem_map.mp groupMember
      obtain ⟨sector, sectorMember, _, sameNumber⟩ := memGroup.mp inGroup
      exact List.mem_map.mpr ⟨sector, sectorMember, sameNumber⟩
    · intro numberMember
      obtain ⟨sector, sectorMember, sameNumber⟩ := List.mem_map.mp numberMember
      exact ⟨_, List.mem_map_of_mem (memExpirations.mpr ⟨sector, sectorMember, rfl⟩),
        memGroup.mpr ⟨sector, sectorMember, rfl, sameNumber⟩⟩

/-- The loop of `add_active_sectors`: each new group joins the entry at its epoch. -/
theorem foldl_add_spec :
    ∀ (groups : List SectorEpochSet) {queue : ExpirationQueue},
      Inv table sectorSize queue → 0 < queue.quant.unit →
      (∀ group ∈ groups, GroupBalanced table sectorSize group ∧ group.sectors ≠ []) →
      (groups.map fun group => group.sectors.toFinset).Pairwise Disjoint →
      Disjoint (unionOf (groups.map fun group => group.sectors.toFinset)) (scheduled queue) →
      Inv table sectorSize (groups.foldl (fun queue group =>
          queue.add group.epoch group.sectors.toFinset ∅ group.power 0 group.pledge) queue) ∧
        (groups.foldl (fun queue group =>
          queue.add group.epoch group.sectors.toFinset ∅ group.power 0 group.pledge) queue).quant =
          queue.quant ∧
        scheduled (groups.foldl (fun queue group =>
          queue.add group.epoch group.sectors.toFinset ∅ group.power 0 group.pledge) queue) =
          scheduled queue ∪ unionOf (groups.map fun group => group.sectors.toFinset) := by
  intro groups
  induction groups with
  | nil =>
    intro queue inv _ _ _ _
    simp [inv, unionOf]
  | cons group rest inductionHypothesis =>
    intro queue inv positive groupsOk apart new
    obtain ⟨balanced, nonempty⟩ := groupsOk group List.mem_cons_self
    obtain ⟨groupApart, restApart⟩ := List.pairwise_cons.mp apart
    have unfolded : unionOf ((group :: rest).map fun group => group.sectors.toFinset) =
        group.sectors.toFinset ∪ unionOf (rest.map fun group => group.sectors.toFinset) := rfl
    rw [unfolded, Finset.disjoint_union_left] at new
    obtain ⟨added, scheduledAdded⟩ : Inv table sectorSize
          (queue.add group.epoch group.sectors.toFinset ∅ group.power 0 group.pledge) ∧
        scheduled (queue.add group.epoch group.sectors.toFinset ∅ group.power 0 group.pledge) =
          scheduled queue ∪ (group.sectors.toFinset ∪ ∅) :=
      inv.add positive (Finset.disjoint_empty_right _)
      (by simpa [List.toFinset_nonempty_iff] using nonempty)
      (by rw [Finset.union_empty]; exact new.1)
      (by rw [add_zero, Finset.union_empty]; exact balanced.power)
      balanced.pledge
    rw [Finset.union_empty] at scheduledAdded
    have restNew : Disjoint (unionOf (rest.map fun group => group.sectors.toFinset))
        (scheduled (queue.add group.epoch group.sectors.toFinset ∅ group.power 0 group.pledge)) := by
      rw [scheduledAdded, Finset.disjoint_union_right]
      exact ⟨new.2, (disjoint_unionOf.mpr fun set member => groupApart set member).symm⟩
    obtain ⟨invAdded, quantAdded, scheduledRest⟩ := inductionHypothesis added positive
      (fun other member => groupsOk other (List.mem_cons_of_mem _ member)) restApart restNew
    refine ⟨invAdded, quantAdded, ?_⟩
    rw [List.foldl_cons, scheduledRest, scheduledAdded, unfolded, Finset.union_assoc]

/-- `add_active_sectors`: distinct sectors of the table that are not yet in a well-kept
queue join it at their declared expiration, and the numbers, power and pledge of exactly
those sectors are returned. -/
theorem addActiveSectors_spec {queue : ExpirationQueue} {sectors : List SectorOnChainInfo}
    (inv : Inv table sectorSize queue) (positive : 0 < queue.quant.unit)
    (consistent : Consistent table sectors) (distinct : (sectors.map (·.sectorNumber)).Nodup)
    (new : Disjoint (numbersOf sectors) (scheduled queue)) :
    Inv table sectorSize (queue.addActiveSectors sectorSize sectors).2 ∧
      (queue.addActiveSectors sectorSize sectors).2.quant = queue.quant ∧
      scheduled (queue.addActiveSectors sectorSize sectors).2 = scheduled queue ∪ numbersOf sectors ∧
      (queue.addActiveSectors sectorSize sectors).1 = (numbersOf sectors,
        powerOf table sectorSize (numbersOf sectors), pledgeOf table (numbersOf sectors)) := by
  obtain ⟨groupsOk, apart, covered⟩ :=
    @groupNewSectorsByDeclaredExpiration_spec table sectorSize sectors queue.quant consistent distinct
  obtain ⟨invAdded, quantAdded, scheduledAdded⟩ :=
    foldl_add_spec _ inv positive groupsOk apart (covered ▸ new)
  rw [covered] at scheduledAdded
  refine ⟨invAdded, quantAdded, scheduledAdded, ?_⟩
  set groups := groupNewSectorsByDeclaredExpiration sectorSize sectors queue.quant
  have powers : (groups.map (·.power)) =
      (groups.map fun group => group.sectors.toFinset).map (powerOf table sectorSize) := by
    rw [List.map_map]
    exact List.map_congr_left fun group member => (groupsOk group member).1.power
  have pledges : (groups.map (·.pledge)) =
      (groups.map fun group => group.sectors.toFinset).map (pledgeOf table) := by
    rw [List.map_map]
    exact List.map_congr_left fun group member => (groupsOk group member).1.pledge
  show (unionOf (groups.map fun group => group.sectors.toFinset), (groups.map (·.power)).sum,
      (groups.map (·.pledge)).sum) = _
  rw [powers, pledges, ← powerOf_unionOf apart, ← pledgeOf_unionOf apart, covered]

end Adding

end Forest.Miner
