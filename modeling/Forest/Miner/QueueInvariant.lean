import Forest.Miner.ExpirationQueue
import Mathlib.Algebra.BigOperators.Group.Finset.Basic
import Mathlib.Tactic.Abel

namespace Forest.Miner

/-!
# What a well-kept expiration queue satisfies

Against a fixed table of sector infos, an entry of the queue is *balanced* when its
on-time and early sectors are apart, its active and faulty power add up to the power of
its sectors, and its on-time pledge is the pledge of its on-time sectors.  A queue is
well kept (`Inv`) when every entry sits at a quantized epoch, holds some sector and is
balanced, and no sector is in two entries.  `scheduled` is the set of sectors in the queue.

This module proves what the primitive updates do to these facts: `add`, `remove`, an
update that keeps or shrinks one entry, deleting entries, and `batch_delete`.  The
operations of the queue are built from them.
-/

open ExpirationQueue

section Aggregates

variable (table : Nat → SectorOnChainInfo) (sectorSize : Nat)

/-- The sectors of an entry, on time or early. -/
def sectorsOf (set : ExpirationSet) : Finset Nat :=
  set.onTimeSectors ∪ set.earlySectors

/-- The power of a set of sectors, by the table. -/
def powerOf (numbers : Finset Nat) : PowerPair :=
  ∑ number ∈ numbers, powerForSector sectorSize (table number)

/-- The pledge of a set of sectors, by the table. -/
def pledgeOf (numbers : Finset Nat) : Int :=
  ∑ number ∈ numbers, (table number).initialPledge

/-- The infos passed to an operation are those of the table. -/
def Consistent (sectors : List SectorOnChainInfo) : Prop :=
  ∀ sector ∈ sectors, table sector.sectorNumber = sector

/-- An entry whose sectors are apart and whose power and pledge are those of its sectors. -/
structure Balanced (set : ExpirationSet) : Prop where
  apart : Disjoint set.onTimeSectors set.earlySectors
  power : set.activePower + set.faultyPower = powerOf table sectorSize (sectorsOf set)
  pledge : set.onTimePledge = pledgeOf table set.onTimeSectors

/-- An entry of a well-kept queue. -/
structure EntryOk (quant : QuantSpec) (epoch : Int) (set : ExpirationSet) : Prop where
  quantized : quant.quantizeUp epoch = epoch
  nonempty : (sectorsOf set).Nonempty
  balanced : Balanced table sectorSize set

/-- A well-kept queue: well-kept entries, no sector in two of them. -/
structure Inv (queue : ExpirationQueue) : Prop where
  entries : ∀ entry ∈ queue.amt.entries, EntryOk table sectorSize queue.quant entry.1 entry.2
  disjoint : queue.amt.entries.Pairwise fun earlier later =>
    Disjoint (sectorsOf earlier.2) (sectorsOf later.2)

end Aggregates

/-- The union of a list of sets of sectors. -/
def unionOf (sets : List (Finset Nat)) : Finset Nat :=
  sets.foldr (· ∪ ·) ∅

/-- The sectors in a list of entries. -/
def sectorsIn (entries : List (Int × ExpirationSet)) : Finset Nat :=
  unionOf (entries.map fun entry => sectorsOf entry.2)

/-- The sectors in the queue. -/
def scheduled (queue : ExpirationQueue) : Finset Nat :=
  sectorsIn queue.amt.entries

/-- The queue without its entry at `key`. -/
def ExpirationQueue.withoutEntry (queue : ExpirationQueue) (key : Int) : ExpirationQueue :=
  { queue with amt := queue.amt.delete key }

variable {table : Nat → SectorOnChainInfo} {sectorSize : Nat}

/-! ## Sets of sectors -/

@[simp]
theorem sectorsOf_empty : sectorsOf ExpirationSet.empty = ∅ := rfl

theorem powerOf_union {first second : Finset Nat} (apart : Disjoint first second) :
    powerOf table sectorSize (first ∪ second) =
      powerOf table sectorSize first + powerOf table sectorSize second :=
  Finset.sum_union apart

theorem pledgeOf_union {first second : Finset Nat} (apart : Disjoint first second) :
    pledgeOf table (first ∪ second) = pledgeOf table first + pledgeOf table second :=
  Finset.sum_union apart

theorem powerOf_sdiff {whole part : Finset Nat} (inside : part ⊆ whole) :
    powerOf table sectorSize (whole \ part) =
      powerOf table sectorSize whole - powerOf table sectorSize part :=
  Finset.sum_sdiff_eq_sub inside

theorem pledgeOf_sdiff {whole part : Finset Nat} (inside : part ⊆ whole) :
    pledgeOf table (whole \ part) = pledgeOf table whole - pledgeOf table part :=
  Finset.sum_sdiff_eq_sub inside

theorem consistent_of_sublist {sectors fewer : List SectorOnChainInfo}
    (consistent : Consistent table sectors) (sublist : fewer.Sublist sectors) :
    Consistent table fewer :=
  fun sector member => consistent sector (sublist.subset member)

/-- Summing the power of distinct sectors of the table along a list is the power of
their numbers. -/
theorem sum_power_eq_powerOf {sectors : List SectorOnChainInfo}
    (consistent : Consistent table sectors) (distinct : (sectors.map (·.sectorNumber)).Nodup) :
    (sectors.map (powerForSector sectorSize)).sum =
      powerOf table sectorSize (sectors.map (·.sectorNumber)).toFinset := by
  induction sectors with
  | nil => rfl
  | cons sector rest inductionHypothesis =>
    have restConsistent := consistent_of_sublist consistent (List.sublist_cons_self sector rest)
    obtain ⟨fresh, restDistinct⟩ := List.nodup_cons.mp distinct
    have notInRest : sector.sectorNumber ∉ (rest.map (·.sectorNumber)).toFinset := by
      simpa using fresh
    rw [List.map_cons, List.sum_cons, inductionHypothesis restConsistent restDistinct,
      List.map_cons, List.toFinset_cons]
    simp only [powerOf]
    rw [Finset.sum_insert notInRest, consistent sector List.mem_cons_self]

/-- The same for pledge. -/
theorem sum_pledge_eq_pledgeOf {sectors : List SectorOnChainInfo}
    (consistent : Consistent table sectors) (distinct : (sectors.map (·.sectorNumber)).Nodup) :
    (sectors.map (·.initialPledge)).sum = pledgeOf table (sectors.map (·.sectorNumber)).toFinset := by
  induction sectors with
  | nil => rfl
  | cons sector rest inductionHypothesis =>
    have restConsistent := consistent_of_sublist consistent (List.sublist_cons_self sector rest)
    obtain ⟨fresh, restDistinct⟩ := List.nodup_cons.mp distinct
    have notInRest : sector.sectorNumber ∉ (rest.map (·.sectorNumber)).toFinset := by
      simpa using fresh
    rw [List.map_cons, List.sum_cons, inductionHypothesis restConsistent restDistinct,
      List.map_cons, List.toFinset_cons]
    simp only [pledgeOf]
    rw [Finset.sum_insert notInRest, consistent sector List.mem_cons_self]

theorem sectorsOf_add (set : ExpirationSet) (onTime early : Finset Nat) (pledge : Int)
    (active faulty : PowerPair) :
    sectorsOf (set.add onTime early pledge active faulty) = sectorsOf set ∪ (onTime ∪ early) := by
  simp only [sectorsOf, ExpirationSet.add]
  ext number
  simp only [Finset.mem_union]
  tauto

theorem isEmpty_iff (set : ExpirationSet) : set.isEmpty = true ↔ sectorsOf set = ∅ := by
  simp [ExpirationSet.isEmpty, sectorsOf, Finset.union_eq_empty]

/-! ## Balanced entries -/

theorem balanced_empty : Balanced table sectorSize ExpirationSet.empty :=
  ⟨Finset.disjoint_empty_left _, rfl, rfl⟩

/-- Adding sectors that are new to an entry, with their power and pledge, keeps it
balanced. -/
theorem Balanced.add {set : ExpirationSet} (balanced : Balanced table sectorSize set)
    {onTime early : Finset Nat} (apart : Disjoint onTime early)
    (new : Disjoint (onTime ∪ early) (sectorsOf set)) {pledge : Int} {active faulty : PowerPair}
    (powerAdded : active + faulty = powerOf table sectorSize (onTime ∪ early))
    (pledgeAdded : pledge = pledgeOf table onTime) :
    Balanced table sectorSize (set.add onTime early pledge active faulty) := by
  have onTimeNew : Disjoint onTime set.onTimeSectors :=
    (new.mono_left Finset.subset_union_left).mono_right Finset.subset_union_left
  have earlyNewOnTime : Disjoint early set.onTimeSectors :=
    (new.mono_left Finset.subset_union_right).mono_right Finset.subset_union_left
  have onTimeNewEarly : Disjoint onTime set.earlySectors :=
    (new.mono_left Finset.subset_union_left).mono_right Finset.subset_union_right
  have sectorsAdded := sectorsOf_add set onTime early pledge active faulty
  refine ⟨?_, ?_, ?_⟩
  · simp only [ExpirationSet.add, Finset.disjoint_union_left, Finset.disjoint_union_right]
    exact ⟨⟨balanced.apart, onTimeNewEarly⟩, ⟨earlyNewOnTime.symm, apart⟩⟩
  · rw [sectorsAdded, powerOf_union new.symm, ← balanced.power, ← powerAdded]
    simp only [ExpirationSet.add]
    abel
  · simp only [ExpirationSet.add]
    rw [pledgeOf_union onTimeNew.symm, ← balanced.pledge, ← pledgeAdded]

/-- `ExpirationSet::remove` of sectors with their power and pledge leaves a balanced
entry without them. -/
theorem Balanced.remove {set removed : ExpirationSet} (balanced : Balanced table sectorSize set)
    {onTime early : Finset Nat} {pledge : Int} {active faulty : PowerPair}
    (removeEq : set.remove onTime early pledge active faulty = .ok removed)
    (powerRemoved : active + faulty = powerOf table sectorSize (onTime ∪ early))
    (pledgeRemoved : pledge = pledgeOf table onTime) :
    Balanced table sectorSize removed ∧ sectorsOf removed = sectorsOf set \ (onTime ∪ early) ∧
      onTime ∪ early ⊆ sectorsOf set := by
  unfold ExpirationSet.remove at removeEq
  split at removeEq
  · cases removeEq
  · next onTimeInside =>
    split at removeEq
    · cases removeEq
    · next earlyInside =>
      have onTimeInside : onTime ⊆ set.onTimeSectors := not_not.mp onTimeInside
      have earlyInside : early ⊆ set.earlySectors := not_not.mp earlyInside
      have removedEq : removed =
          { onTimeSectors := set.onTimeSectors \ onTime
            earlySectors := set.earlySectors \ early
            onTimePledge := set.onTimePledge - pledge
            activePower := set.activePower - active
            faultyPower := set.faultyPower - faulty } := by
        dsimp only at removeEq
        split at removeEq
        · cases removeEq
        · split at removeEq
          · cases removeEq
          · exact (Except.ok.inj removeEq).symm
      have inside : onTime ∪ early ⊆ sectorsOf set :=
        Finset.union_subset_union onTimeInside earlyInside
      have sectorsLeft : sectorsOf removed = sectorsOf set \ (onTime ∪ early) := by
        rw [removedEq]
        simp only [sectorsOf]
        ext number
        simp only [Finset.mem_union, Finset.mem_sdiff]
        have apartAt := Finset.disjoint_left.mp balanced.apart
        constructor
        · rintro (⟨onTimeMember, notRemoved⟩ | ⟨earlyMember, notRemoved⟩)
          · exact ⟨Or.inl onTimeMember, fun gone => gone.elim notRemoved
              fun isEarly => apartAt onTimeMember (earlyInside isEarly)⟩
          · exact ⟨Or.inr earlyMember, fun gone => gone.elim
              (fun isOnTime => apartAt (onTimeInside isOnTime) earlyMember) notRemoved⟩
        · rintro ⟨onTimeMember | earlyMember, notRemoved⟩
          · exact Or.inl ⟨onTimeMember, fun isOnTime => notRemoved (Or.inl isOnTime)⟩
          · exact Or.inr ⟨earlyMember, fun isEarly => notRemoved (Or.inr isEarly)⟩
      refine ⟨⟨?_, ?_, ?_⟩, sectorsLeft, inside⟩
      · rw [removedEq]
        exact Finset.disjoint_of_subset_left Finset.sdiff_subset
          (Finset.disjoint_of_subset_right Finset.sdiff_subset balanced.apart)
      · rw [sectorsLeft, powerOf_sdiff inside, ← balanced.power, ← powerRemoved, removedEq]
        dsimp only
        abel
      · rw [removedEq]
        simp only
        rw [pledgeOf_sdiff onTimeInside, ← balanced.pledge, ← pledgeRemoved]

/-- Moving power between active and faulty keeps an entry balanced. -/
theorem Balanced.movePower {set : ExpirationSet} (balanced : Balanced table sectorSize set)
    {active faulty : PowerPair} (same : active + faulty = set.activePower + set.faultyPower) :
    Balanced table sectorSize { set with activePower := active, faultyPower := faulty } :=
  ⟨balanced.apart, same.trans balanced.power, balanced.pledge⟩

/-- Taking some on-time sectors out of an entry, with their pledge and as active power,
keeps it balanced. -/
theorem Balanced.removeOnTime {set : ExpirationSet} (balanced : Balanced table sectorSize set)
    {part : Finset Nat} (inside : part ⊆ set.onTimeSectors) {power : PowerPair} {pledge : Int}
    (powerEq : power = powerOf table sectorSize part) (pledgeEq : pledge = pledgeOf table part) :
    Balanced table sectorSize { set with
        onTimeSectors := set.onTimeSectors \ part
        onTimePledge := set.onTimePledge - pledge
        activePower := set.activePower - power } ∧
      sectorsOf { set with
        onTimeSectors := set.onTimeSectors \ part
        onTimePledge := set.onTimePledge - pledge
        activePower := set.activePower - power } = sectorsOf set \ part := by
  have notEarly : Disjoint part set.earlySectors := Finset.disjoint_of_subset_left inside balanced.apart
  have sectorsLeft : sectorsOf { set with
      onTimeSectors := set.onTimeSectors \ part
      onTimePledge := set.onTimePledge - pledge
      activePower := set.activePower - power } = sectorsOf set \ part := by
    simp only [sectorsOf]
    rw [Finset.union_sdiff_distrib, Finset.sdiff_eq_self_of_disjoint notEarly.symm]
  refine ⟨⟨?_, ?_, ?_⟩, sectorsLeft⟩
  · exact Finset.disjoint_of_subset_left Finset.sdiff_subset balanced.apart
  · have insideAll : part ⊆ sectorsOf set := inside.trans Finset.subset_union_left
    rw [sectorsLeft, powerOf_sdiff insideAll, ← balanced.power, powerEq]
    dsimp only
    abel
  · dsimp only
    rw [pledgeOf_sdiff inside, ← balanced.pledge, pledgeEq]

/-! ## Sectors of lists of entries -/

theorem mem_unionOf {sets : List (Finset Nat)} {number : Nat} :
    number ∈ unionOf sets ↔ ∃ set ∈ sets, number ∈ set := by
  induction sets with
  | nil => simp [unionOf]
  | cons first rest inductionHypothesis =>
    have unfolded : unionOf (first :: rest) = first ∪ unionOf rest := rfl
    rw [unfolded, Finset.mem_union, inductionHypothesis]
    simp only [List.mem_cons, exists_eq_or_imp]

theorem unionOf_append (first second : List (Finset Nat)) :
    unionOf (first ++ second) = unionOf first ∪ unionOf second := by
  ext number
  simp only [mem_unionOf, Finset.mem_union, List.mem_append]
  constructor
  · rintro ⟨set, inFirst | inSecond, member⟩
    · exact Or.inl ⟨set, inFirst, member⟩
    · exact Or.inr ⟨set, inSecond, member⟩
  · rintro (⟨set, inFirst, member⟩ | ⟨set, inSecond, member⟩)
    · exact ⟨set, Or.inl inFirst, member⟩
    · exact ⟨set, Or.inr inSecond, member⟩

theorem unionOf_perm {sets others : List (Finset Nat)} (perm : sets.Perm others) :
    unionOf sets = unionOf others := by
  ext number
  simp only [mem_unionOf, perm.mem_iff]

theorem disjoint_unionOf {part : Finset Nat} {sets : List (Finset Nat)} :
    Disjoint part (unionOf sets) ↔ ∀ set ∈ sets, Disjoint part set := by
  induction sets with
  | nil => simp [unionOf]
  | cons first rest inductionHypothesis =>
    have unfolded : unionOf (first :: rest) = first ∪ unionOf rest := rfl
    rw [unfolded, Finset.disjoint_union_right, inductionHypothesis, List.forall_mem_cons]

/-- The power of a union of sets apart from one another is the sum of their powers. -/
theorem powerOf_unionOf {sets : List (Finset Nat)} (apart : sets.Pairwise Disjoint) :
    powerOf table sectorSize (unionOf sets) = (sets.map (powerOf table sectorSize)).sum := by
  induction sets with
  | nil => rfl
  | cons first rest inductionHypothesis =>
    obtain ⟨firstApart, restApart⟩ := List.pairwise_cons.mp apart
    have unfolded : unionOf (first :: rest) = first ∪ unionOf rest := rfl
    rw [unfolded, powerOf_union (disjoint_unionOf.mpr firstApart), inductionHypothesis restApart,
      List.map_cons, List.sum_cons]

/-- The same for pledge. -/
theorem pledgeOf_unionOf {sets : List (Finset Nat)} (apart : sets.Pairwise Disjoint) :
    pledgeOf table (unionOf sets) = (sets.map (pledgeOf table)).sum := by
  induction sets with
  | nil => rfl
  | cons first rest inductionHypothesis =>
    obtain ⟨firstApart, restApart⟩ := List.pairwise_cons.mp apart
    have unfolded : unionOf (first :: rest) = first ∪ unionOf rest := rfl
    rw [unfolded, pledgeOf_union (disjoint_unionOf.mpr firstApart), inductionHypothesis restApart,
      List.map_cons, List.sum_cons]

theorem mem_sectorsIn {entries : List (Int × ExpirationSet)} {number : Nat} :
    number ∈ sectorsIn entries ↔ ∃ entry ∈ entries, number ∈ sectorsOf entry.2 := by
  simp only [sectorsIn, mem_unionOf, List.mem_map, exists_exists_and_eq_and]

theorem sectorsIn_perm {entries others : List (Int × ExpirationSet)} (perm : entries.Perm others) :
    sectorsIn entries = sectorsIn others :=
  unionOf_perm (perm.map _)

theorem sectorsIn_append (first second : List (Int × ExpirationSet)) :
    sectorsIn (first ++ second) = sectorsIn first ∪ sectorsIn second := by
  simp only [sectorsIn, List.map_append, unionOf_append]

/-! ## One entry of the queue -/

section Queue

variable {queue : ExpirationQueue}

theorem Inv.entryOk (inv : Inv table sectorSize queue) {key : Int} {set : ExpirationSet}
    (found : queue.amt.get? key = some set) : EntryOk table sectorSize queue.quant key set :=
  inv.entries (key, set) (queue.amt.mem_entries_iff.mpr found)

/-- Entries at different keys share no sector. -/
theorem Inv.apart (inv : Inv table sectorSize queue) {first second : Int × ExpirationSet}
    (firstMember : first ∈ queue.amt.entries) (secondMember : second ∈ queue.amt.entries)
    (differentKeys : first.1 ≠ second.1) : Disjoint (sectorsOf first.2) (sectorsOf second.2) := by
  have symmetric : Std.Symm fun (earlier later : Int × ExpirationSet) =>
      Disjoint (sectorsOf earlier.2) (sectorsOf later.2) :=
    ⟨fun _ _ apart => apart.symm⟩
  exact inv.disjoint.forall firstMember secondMember
    fun same => differentKeys (congrArg Prod.fst same)

/-- What `may_get` returns from a well-kept queue is balanced. -/
theorem Inv.mayGet_balanced (inv : Inv table sectorSize queue) (key : Int) :
    Balanced table sectorSize (queue.mayGet key) := by
  unfold ExpirationQueue.mayGet
  cases found : queue.amt.get? key with
  | none => exact balanced_empty
  | some set => exact (inv.entryOk found).balanced

theorem Inv.withoutEntry (inv : Inv table sectorSize queue) (key : Int) :
    Inv table sectorSize (queue.withoutEntry key) :=
  ⟨fun entry member => inv.entries entry (List.mem_filter.mp member).1, inv.disjoint.filter _⟩

theorem mem_withoutEntry {key : Int} {entry : Int × ExpirationSet} :
    entry ∈ (queue.withoutEntry key).amt.entries ↔ entry ∈ queue.amt.entries ∧ entry.1 ≠ key := by
  simp [ExpirationQueue.withoutEntry, SortedMap.delete]

/-- The sectors of the queue are those at `key` and those elsewhere. -/
theorem scheduled_eq_mayGet (key : Int) :
    scheduled queue = sectorsOf (queue.mayGet key) ∪ scheduled (queue.withoutEntry key) := by
  ext number
  simp only [scheduled, Finset.mem_union, mem_sectorsIn, mem_withoutEntry]
  constructor
  · rintro ⟨entry, member, inEntry⟩
    by_cases atKey : entry.1 = key
    · left
      have found : queue.amt.get? key = some entry.2 :=
        queue.amt.mem_entries_iff.mp (atKey ▸ member)
      simpa [ExpirationQueue.mayGet, found] using inEntry
    · exact Or.inr ⟨entry, ⟨member, atKey⟩, inEntry⟩
  · rintro (atKey | ⟨entry, ⟨member, _⟩, inEntry⟩)
    · unfold ExpirationQueue.mayGet at atKey
      cases found : queue.amt.get? key with
      | none => simp [found] at atKey
      | some set =>
        rw [found] at atKey
        exact ⟨(key, set), queue.amt.mem_entries_iff.mpr found, atKey⟩
    · exact ⟨entry, member, inEntry⟩

theorem scheduled_withoutEntry_subset (key : Int) :
    scheduled (queue.withoutEntry key) ⊆ scheduled queue :=
  calc scheduled (queue.withoutEntry key)
      ⊆ sectorsOf (queue.mayGet key) ∪ scheduled (queue.withoutEntry key) := Finset.subset_union_right
    _ = scheduled queue := (scheduled_eq_mayGet key).symm

/-- The entry at `key` shares no sector with the others. -/
theorem Inv.mayGet_apart (inv : Inv table sectorSize queue) (key : Int) :
    Disjoint (sectorsOf (queue.mayGet key)) (scheduled (queue.withoutEntry key)) := by
  unfold ExpirationQueue.mayGet
  cases found : queue.amt.get? key with
  | none => exact Finset.disjoint_empty_left _
  | some set =>
    rw [Finset.disjoint_left]
    intro number atKey elsewhere
    obtain ⟨entry, filtered, inEntry⟩ := mem_sectorsIn.mp elsewhere
    obtain ⟨member, otherKey⟩ := mem_withoutEntry.mp filtered
    have apart := inv.apart (queue.amt.mem_entries_iff.mpr found) member (Ne.symm otherKey)
    exact Finset.disjoint_left.mp apart atKey inEntry

theorem scheduled_mustUpdate (key : Int) (set : ExpirationSet) :
    scheduled (queue.mustUpdate key set) = sectorsOf set ∪ scheduled (queue.withoutEntry key) := by
  show sectorsIn (queue.amt.set key set).entries = _
  rw [sectorsIn_perm (queue.amt.perm_set key set)]
  rfl

/-- Writing a well-kept entry that shares no sector with the other entries keeps the
queue well kept. -/
theorem Inv.mustUpdate (inv : Inv table sectorSize queue) {key : Int} {set : ExpirationSet}
    (entryOk : EntryOk table sectorSize queue.quant key set)
    (apart : Disjoint (sectorsOf set) (scheduled (queue.withoutEntry key))) :
    Inv table sectorSize (queue.mustUpdate key set) := by
  have perm := queue.amt.perm_set key set
  refine ⟨fun entry member => ?_, ?_⟩
  · rcases SortedMap.mem_insertSorted member with rfl | old
    · exact entryOk
    · exact inv.entries entry old
  · apply (List.Perm.pairwise_iff (fun apart => Disjoint.symm apart) perm).mpr
    refine List.Pairwise.cons (fun other member => ?_) (inv.disjoint.filter _)
    exact Finset.disjoint_of_subset_right
      (fun number inOther => mem_sectorsIn.mpr ⟨other, member, inOther⟩) apart

/-- `add`: new sectors join the entry at the quantized epoch. -/
theorem Inv.add (inv : Inv table sectorSize queue) (positive : 0 < queue.quant.unit)
    {rawEpoch : Int} {onTime early : Finset Nat} {active faulty : PowerPair} {pledge : Int}
    (apart : Disjoint onTime early) (nonempty : (onTime ∪ early).Nonempty)
    (new : Disjoint (onTime ∪ early) (scheduled queue))
    (powerAdded : active + faulty = powerOf table sectorSize (onTime ∪ early))
    (pledgeAdded : pledge = pledgeOf table onTime) :
    Inv table sectorSize (queue.add rawEpoch onTime early active faulty pledge) ∧
      scheduled (queue.add rawEpoch onTime early active faulty pledge) =
        scheduled queue ∪ (onTime ∪ early) := by
  set epoch := queue.quant.quantizeUp rawEpoch
  have split : scheduled queue = sectorsOf (queue.mayGet epoch) ∪ scheduled (queue.withoutEntry epoch) :=
    scheduled_eq_mayGet epoch
  have newHere : Disjoint (onTime ∪ early) (sectorsOf (queue.mayGet epoch)) :=
    Finset.disjoint_of_subset_right (split ▸ Finset.subset_union_left) new
  have newElsewhere : Disjoint (onTime ∪ early) (scheduled (queue.withoutEntry epoch)) :=
    Finset.disjoint_of_subset_right (scheduled_withoutEntry_subset epoch) new
  have balanced := (inv.mayGet_balanced epoch).add apart newHere powerAdded pledgeAdded
  have sectorsAdded := sectorsOf_add (queue.mayGet epoch) onTime early pledge active faulty
  have entryOk : EntryOk table sectorSize queue.quant epoch
      ((queue.mayGet epoch).add onTime early pledge active faulty) := by
    refine ⟨QuantSpec.quantizeUp_quantizeUp positive rawEpoch, ?_, balanced⟩
    rw [sectorsAdded]
    exact nonempty.mono Finset.subset_union_right
  refine ⟨inv.mustUpdate entryOk ?_, ?_⟩
  · rw [sectorsAdded]
    exact Finset.disjoint_union_left.mpr ⟨inv.mayGet_apart epoch, newElsewhere⟩
  · rw [ExpirationQueue.add, scheduled_mustUpdate, sectorsAdded, split]
    ext number
    simp only [Finset.mem_union]
    tauto

/-- Replacing the entry at `key` by a balanced one with some of its sectors, or deleting it
when none is left, keeps the queue well kept and drops the sectors left out. -/
theorem Inv.mustUpdateOrDelete (inv : Inv table sectorSize queue) {key : Int}
    {set smaller : ExpirationSet} (found : queue.amt.get? key = some set)
    (shrinks : sectorsOf smaller ⊆ sectorsOf set) (balanced : Balanced table sectorSize smaller) :
    Inv table sectorSize (queue.mustUpdateOrDelete key smaller) ∧
      scheduled (queue.mustUpdateOrDelete key smaller) =
        scheduled queue \ (sectorsOf set \ sectorsOf smaller) := by
  have atKey : queue.mayGet key = set := by simp [ExpirationQueue.mayGet, found]
  have split : scheduled queue = sectorsOf (queue.mayGet key) ∪ scheduled (queue.withoutEntry key) :=
    scheduled_eq_mayGet key
  have apart := inv.mayGet_apart key
  rw [atKey] at split apart
  unfold ExpirationQueue.mustUpdateOrDelete
  split
  · next emptied =>
    have none : sectorsOf smaller = ∅ := (isEmpty_iff smaller).mp emptied
    refine ⟨inv.withoutEntry key, ?_⟩
    rw [none, Finset.sdiff_empty, split, Finset.union_sdiff_cancel_left apart]
    rfl
  · next notEmptied =>
    have nonempty : (sectorsOf smaller).Nonempty := by
      rw [Finset.nonempty_iff_ne_empty]
      exact fun none => notEmptied ((isEmpty_iff smaller).mpr none)
    have entryOk : EntryOk table sectorSize queue.quant key smaller :=
      ⟨(inv.entryOk found).quantized, nonempty, balanced⟩
    refine ⟨inv.mustUpdate entryOk (Finset.disjoint_of_subset_left shrinks apart), ?_⟩
    rw [scheduled_mustUpdate, split]
    ext number
    have inside : number ∈ sectorsOf smaller → number ∈ sectorsOf set := fun member => shrinks member
    have apartAt : number ∈ sectorsOf set → number ∉ scheduled (queue.withoutEntry key) :=
      fun member => Finset.disjoint_left.mp apart member
    simp only [Finset.mem_union, Finset.mem_sdiff]
    tauto

/-- `remove`: sectors leave the entry at the quantized epoch, with their power and
pledge. -/
theorem Inv.remove (inv : Inv table sectorSize queue) {rawEpoch : Int}
    {onTime early : Finset Nat} {active faulty : PowerPair} {pledge : Int}
    {removed : ExpirationQueue}
    (removeEq : queue.remove rawEpoch onTime early active faulty pledge = .ok removed)
    (powerRemoved : active + faulty = powerOf table sectorSize (onTime ∪ early))
    (pledgeRemoved : pledge = pledgeOf table onTime) :
    Inv table sectorSize removed ∧ scheduled removed = scheduled queue \ (onTime ∪ early) ∧
      onTime ∪ early ⊆ scheduled queue := by
  unfold ExpirationQueue.remove at removeEq
  dsimp only at removeEq
  split at removeEq
  · cases removeEq
  · next set found =>
    split at removeEq
    · cases removeEq
    · next smaller setRemoveEq =>
      cases removeEq
      obtain ⟨balanced, sectorsLeft, inside⟩ :=
        (inv.entryOk found).balanced.remove setRemoveEq powerRemoved pledgeRemoved
      obtain ⟨keeps, scheduledLeft⟩ :=
        inv.mustUpdateOrDelete found (sectorsLeft ▸ Finset.sdiff_subset) balanced
      have atKey : sectorsOf set ⊆ scheduled queue := by
        rw [scheduled_eq_mayGet (queue.quant.quantizeUp rawEpoch)]
        simp only [ExpirationQueue.mayGet, found, Option.getD_some]
        exact Finset.subset_union_left
      refine ⟨keeps, ?_, inside.trans atKey⟩
      rw [scheduledLeft, sectorsLeft, Finset.sdiff_sdiff_eq_self inside]

@[simp]
theorem get?_mustUpdate (key other : Int) (set : ExpirationSet) :
    (queue.mustUpdate key set).amt.get? other = if key = other then some set else queue.amt.get? other := by
  simp [ExpirationQueue.mustUpdate]

@[simp]
theorem quant_mustUpdate (key : Int) (set : ExpirationSet) :
    (queue.mustUpdate key set).quant = queue.quant := rfl

@[simp]
theorem quant_mustUpdateOrDelete (key : Int) (set : ExpirationSet) :
    (queue.mustUpdateOrDelete key set).quant = queue.quant := by
  unfold ExpirationQueue.mustUpdateOrDelete
  split <;> rfl

@[simp]
theorem quant_add (rawEpoch : Int) (onTime early : Finset Nat) (active faulty : PowerPair)
    (pledge : Int) : (queue.add rawEpoch onTime early active faulty pledge).quant = queue.quant := rfl

theorem get?_mustUpdateOrDelete_of_ne {key other : Int} (different : key ≠ other) (set : ExpirationSet) :
    (queue.mustUpdateOrDelete key set).amt.get? other = queue.amt.get? other := by
  unfold ExpirationQueue.mustUpdateOrDelete
  split
  · simp [Ne.symm different]
  · simp [different]

/-- A sector is in the queue when it is in the entry stored at some key. -/
theorem mem_scheduled {number : Nat} :
    number ∈ scheduled queue ↔ ∃ key set, queue.amt.get? key = some set ∧ number ∈ sectorsOf set := by
  simp only [scheduled, mem_sectorsIn]
  constructor
  · rintro ⟨⟨key, set⟩, member, inSet⟩
    exact ⟨key, set, queue.amt.mem_entries_iff.mp member, inSet⟩
  · rintro ⟨key, set, found, inSet⟩
    exact ⟨(key, set), queue.amt.mem_entries_iff.mpr found, inSet⟩

/-- Writing at a stored key an entry with the same sectors, balanced, keeps the queue well
kept and its sectors. -/
theorem Inv.mustUpdate_same (inv : Inv table sectorSize queue) {key : Int}
    {set changed : ExpirationSet} (found : queue.amt.get? key = some set)
    (same : sectorsOf changed = sectorsOf set) (balanced : Balanced table sectorSize changed) :
    Inv table sectorSize (queue.mustUpdate key changed) ∧
      scheduled (queue.mustUpdate key changed) = scheduled queue := by
  have atKey : queue.mayGet key = set := by simp [ExpirationQueue.mayGet, found]
  have entryOk := inv.entryOk found
  have apart := inv.mayGet_apart key
  rw [atKey, ← same] at apart
  have split : scheduled queue = sectorsOf (queue.mayGet key) ∪ scheduled (queue.withoutEntry key) :=
    scheduled_eq_mayGet key
  refine ⟨inv.mustUpdate ⟨entryOk.quantized, same ▸ entryOk.nonempty, balanced⟩ apart, ?_⟩
  rw [scheduled_mustUpdate, split, atKey, same]

/-! ## Deleting entries -/

/-- The queue with only the entries whose keys pass `keep`. -/
def ExpirationQueue.keepEntries (queue : ExpirationQueue) (keep : Int → Bool) : ExpirationQueue :=
  { queue with amt := queue.amt.filterKeys keep }

theorem Inv.keepEntries (inv : Inv table sectorSize queue) (keep : Int → Bool) :
    Inv table sectorSize (queue.keepEntries keep) :=
  ⟨fun entry member => inv.entries entry (SortedMap.mem_filterKeys.mp member).1, inv.disjoint.filter _⟩

theorem mem_scheduled_keepEntries {keep : Int → Bool} {number : Nat} :
    number ∈ scheduled (queue.keepEntries keep) ↔
      ∃ key set, queue.amt.get? key = some set ∧ keep key = true ∧ number ∈ sectorsOf set := by
  rw [mem_scheduled]
  simp only [ExpirationQueue.keepEntries, SortedMap.get?_filterKeys]
  constructor
  · rintro ⟨key, set, found, inSet⟩
    split at found
    · next kept => exact ⟨key, set, found, kept, inSet⟩
    · cases found
  · rintro ⟨key, set, found, kept, inSet⟩
    exact ⟨key, set, by simp [kept, found], inSet⟩

/-- Keeping some entries commutes with adding at a kept epoch. -/
theorem keepEntries_add {keep : Int → Bool} {rawEpoch : Int}
    (kept : keep (queue.quant.quantizeUp rawEpoch) = true) (onTime early : Finset Nat)
    (active faulty : PowerPair) (pledge : Int) :
    (queue.add rawEpoch onTime early active faulty pledge).keepEntries keep =
      (queue.keepEntries keep).add rawEpoch onTime early active faulty pledge := by
  have sameEntry : (queue.keepEntries keep).mayGet (queue.quant.quantizeUp rawEpoch) =
      queue.mayGet (queue.quant.quantizeUp rawEpoch) := by
    simp [ExpirationQueue.mayGet, ExpirationQueue.keepEntries, kept]
  simp only [ExpirationQueue.add, ExpirationQueue.mustUpdate, ExpirationQueue.keepEntries] at sameEntry ⊢
  rw [sameEntry, SortedMap.set_filterKeys _ kept]

/-- `Amt::batch_delete`: when every key is there, the entries at the keys are dropped. -/
theorem batchDelete_go_spec :
    ∀ (keys : List Int) {amt result : SortedMap Int ExpirationSet},
      batchDelete.go amt keys = .ok result →
      result = amt.filterKeys (fun key => key ∉ keys) ∧ ∀ key ∈ keys, (amt.get? key).isSome := by
  intro keys
  induction keys with
  | nil =>
    intro amt result run
    simp only [batchDelete.go, Except.ok.injEq] at run
    subst run
    refine ⟨SortedMap.ext_entries ?_, by simp⟩
    simp [SortedMap.filterKeys]
  | cons key rest inductionHypothesis =>
    intro amt result run
    simp only [batchDelete.go] at run
    split at run
    · cases run
    · next present =>
      obtain ⟨resultEq, restPresent⟩ := inductionHypothesis run
      refine ⟨?_, ?_⟩
      · rw [resultEq]
        apply SortedMap.ext_entries
        simp only [SortedMap.filterKeys, SortedMap.delete, List.filter_filter]
        apply List.filter_congr
        intro entry _
        simp [Bool.and_comm]
      · intro other member
        rcases List.mem_cons.mp member with sameKey | inRest
        · rw [sameKey]
          cases found : amt.get? key with
          | none => simp [found] at present
          | some _ => rfl
        · have presentThen := restPresent other inRest
          simp only [SortedMap.get?_delete] at presentThen
          split at presentThen
          · cases presentThen
          · exact presentThen

theorem batchDelete_spec {amt result : SortedMap Int ExpirationSet} {keys : List Int}
    (run : batchDelete amt keys = .ok result) :
    result = amt.filterKeys (fun key => key ∉ keys) ∧ ∀ key ∈ keys, (amt.get? key).isSome := by
  obtain ⟨resultEq, present⟩ := batchDelete_go_spec _ run
  refine ⟨by simpa [List.mem_insertionSort] using resultEq, fun key member => ?_⟩
  exact present key ((List.mem_insertionSort _).mpr member)

end Queue

end Forest.Miner
