import Mathlib
import Forest.Lib.Loop

/-!
# Maps as lists sorted by key

A finite map kept as the list of its entries with strictly increasing keys: a sparse
array seen as the values it holds, in the order a traversal visits them.  `set` replaces
or inserts in key order, `delete` drops a key, and the three traversals visit the entries
in order with a state: `forEach` all of them, `forEachWhile` until a visit says stop, and
`forEachWhileMut` with a visit that may also change each value.

A property of the entries that does not depend on their order is kept by `set` through
`perm_set`, which lists the entries after a `set` as the new entry followed by the others.
A property of a traversal is proved by `forEach_invariant`, `forEachWhile_invariant` or
`forEachWhileMut_invariant` from what one visit does.
-/

/-- A finite map whose entries are listed with strictly increasing keys. -/
structure SortedMap (κ ν : Type) [LinearOrder κ] where
  entries : List (κ × ν)
  sorted : entries.Pairwise fun earlier later => earlier.1 < later.1

namespace SortedMap

variable {κ ν σ ε : Type} [LinearOrder κ]

/-- The map with no entries. -/
def empty : SortedMap κ ν :=
  ⟨[], List.Pairwise.nil⟩

/-- The value at `key` in a list of entries, scanning from the front. -/
def find? (key : κ) : List (κ × ν) → Option ν
  | [] => none
  | entry :: rest => if entry.1 = key then some entry.2 else find? key rest

/-- Insert an entry in key order, replacing the entry with the same key. -/
def insertSorted (key : κ) (value : ν) : List (κ × ν) → List (κ × ν)
  | [] => [(key, value)]
  | entry :: rest =>
    if key < entry.1 then (key, value) :: entry :: rest
    else if key = entry.1 then (key, value) :: rest
    else entry :: insertSorted key value rest

theorem mem_insertSorted {key : κ} {value : ν} {entry : κ × ν} {entries : List (κ × ν)}
    (member : entry ∈ insertSorted key value entries) : entry = (key, value) ∨ entry ∈ entries := by
  induction entries with
  | nil => simpa [insertSorted] using member
  | cons first rest inductionHypothesis =>
    unfold insertSorted at member
    split at member
    · simpa using member
    · split at member
      · simp only [List.mem_cons] at member
        rcases member with isNew | inRest
        · exact Or.inl isNew
        · exact Or.inr (List.mem_cons_of_mem _ inRest)
      · simp only [List.mem_cons] at member
        rcases member with isFirst | inRest
        · exact Or.inr (isFirst ▸ List.mem_cons_self)
        · rcases inductionHypothesis inRest with isNew | inOld
          · exact Or.inl isNew
          · exact Or.inr (List.mem_cons_of_mem _ inOld)

theorem insertSorted_sorted {key : κ} {value : ν} {entries : List (κ × ν)}
    (sorted : entries.Pairwise fun earlier later => earlier.1 < later.1) :
    (insertSorted key value entries).Pairwise fun earlier later => earlier.1 < later.1 := by
  induction entries with
  | nil => simp [insertSorted]
  | cons first rest inductionHypothesis =>
    obtain ⟨firstBelow, restSorted⟩ := List.pairwise_cons.mp sorted
    unfold insertSorted
    split
    · next keyBelow =>
      refine List.Pairwise.cons (fun later member => ?_) sorted
      rcases List.mem_cons.mp member with rfl | inRest
      · exact keyBelow
      · exact lt_trans keyBelow (firstBelow later inRest)
    · split
      · next _ sameKey =>
        refine List.Pairwise.cons (fun later member => ?_) restSorted
        rw [sameKey]
        exact firstBelow later member
      · next notBelow notSame =>
        refine List.Pairwise.cons (fun later member => ?_) (inductionHypothesis restSorted)
        rcases mem_insertSorted member with rfl | inRest
        · exact lt_of_le_of_ne (not_lt.mp notBelow) (Ne.symm notSame)
        · exact firstBelow later inRest

/-- The value at `key`. -/
def get? (map : SortedMap κ ν) (key : κ) : Option ν :=
  find? key map.entries

/-- Store `value` at `key`. -/
def set (map : SortedMap κ ν) (key : κ) (value : ν) : SortedMap κ ν :=
  ⟨insertSorted key value map.entries, insertSorted_sorted map.sorted⟩

/-- Drop the entry at `key`, if there is one. -/
def delete (map : SortedMap κ ν) (key : κ) : SortedMap κ ν :=
  ⟨map.entries.filter fun entry => entry.1 ≠ key, map.sorted.filter _⟩

/-! ## Lookups -/

theorem find?_insertSorted (key other : κ) (value : ν) (entries : List (κ × ν)) :
    find? other (insertSorted key value entries) = if key = other then some value else find? other entries := by
  induction entries with
  | nil => simp [insertSorted, find?]
  | cons first rest inductionHypothesis =>
    unfold insertSorted
    split
    · simp [find?]
    · split
      · next _ sameKey =>
        by_cases isOther : key = other
        · simp [find?, isOther]
        · have firstNotOther : first.1 ≠ other := sameKey ▸ isOther
          simp [find?, isOther, firstNotOther]
      · next _ notSame =>
        by_cases firstIsOther : first.1 = other
        · have keyNotOther : key ≠ other := fun same => notSame (same.trans firstIsOther.symm)
          simp [find?, firstIsOther, keyNotOther]
        · simp only [find?, firstIsOther, if_false, inductionHypothesis]

theorem find?_filter (key other : κ) (entries : List (κ × ν)) :
    find? other (entries.filter fun entry => entry.1 ≠ key) =
      if other = key then none else find? other entries := by
  induction entries with
  | nil => simp [find?]
  | cons first rest inductionHypothesis =>
    by_cases dropped : first.1 = key
    · have skipped : (first :: rest).filter (fun entry => entry.1 ≠ key) =
          rest.filter fun entry => entry.1 ≠ key := by
        simp [dropped]
      rw [skipped, inductionHypothesis]
      by_cases isKey : other = key
      · simp [isKey]
      · have notOther : first.1 ≠ other := fun same => isKey (same ▸ dropped)
        simp [isKey, find?, notOther]
    · have kept : (first :: rest).filter (fun entry => entry.1 ≠ key) =
          first :: rest.filter fun entry => entry.1 ≠ key := by
        simp [dropped]
      rw [kept]
      by_cases isFirst : first.1 = other
      · subst isFirst
        simp [find?, dropped]
      · simp only [find?, isFirst, if_false, inductionHypothesis]

@[simp]
theorem get?_empty (key : κ) : (empty : SortedMap κ ν).get? key = none := rfl

@[simp]
theorem get?_set (map : SortedMap κ ν) (key other : κ) (value : ν) :
    (map.set key value).get? other = if key = other then some value else map.get? other :=
  find?_insertSorted key other value map.entries

@[simp]
theorem get?_delete (map : SortedMap κ ν) (key other : κ) :
    (map.delete key).get? other = if other = key then none else map.get? other :=
  find?_filter key other map.entries

/-- In a list with strictly increasing keys, an entry is listed exactly when scanning
for its key finds its value. -/
theorem mem_iff_find? {entries : List (κ × ν)}
    (sorted : entries.Pairwise fun earlier later => earlier.1 < later.1) {key : κ} {value : ν} :
    (key, value) ∈ entries ↔ find? key entries = some value := by
  induction entries with
  | nil => simp [find?]
  | cons first rest inductionHypothesis =>
    obtain ⟨firstBelow, restSorted⟩ := List.pairwise_cons.mp sorted
    by_cases isFirst : first.1 = key
    · have notLater : (key, value) ∉ rest := fun inRest =>
        lt_irrefl key (isFirst ▸ firstBelow (key, value) inRest)
      obtain ⟨firstKey, firstValue⟩ := first
      simp only at isFirst
      subst isFirst
      simp [find?, notLater, eq_comm]
    · have notFirst : (key, value) ≠ first := fun same => isFirst (same ▸ rfl)
      simp [find?, isFirst, notFirst, inductionHypothesis restSorted]

theorem mem_entries_iff (map : SortedMap κ ν) {key : κ} {value : ν} :
    (key, value) ∈ map.entries ↔ map.get? key = some value :=
  mem_iff_find? map.sorted

/-! ## Entries up to order -/

/-- After `insertSorted` the entries are the new one and the old ones with other keys. -/
theorem perm_insertSorted {entries : List (κ × ν)}
    (sorted : entries.Pairwise fun earlier later => earlier.1 < later.1) (key : κ) (value : ν) :
    (insertSorted key value entries).Perm
      ((key, value) :: entries.filter fun entry => entry.1 ≠ key) := by
  induction entries with
  | nil => simp [insertSorted]
  | cons first rest inductionHypothesis =>
    obtain ⟨firstBelow, restSorted⟩ := List.pairwise_cons.mp sorted
    unfold insertSorted
    split
    · next keyBelow =>
      have noneDropped : (first :: rest).filter (fun entry => entry.1 ≠ key) = first :: rest := by
        apply List.filter_eq_self.mpr
        intro entry member
        rcases List.mem_cons.mp member with rfl | inRest
        · simpa using ne_of_gt keyBelow
        · simpa using ne_of_gt (lt_trans keyBelow (firstBelow entry inRest))
      rw [noneDropped]
    · split
      · next _ sameKey =>
        have restKept : rest.filter (fun entry => entry.1 ≠ key) = rest := by
          apply List.filter_eq_self.mpr
          intro entry member
          simpa [sameKey] using ne_of_gt (firstBelow entry member)
        have firstDropped : (first :: rest).filter (fun entry => entry.1 ≠ key) = rest := by
          rw [List.filter_cons_of_neg (by simp [sameKey]), restKept]
        rw [firstDropped]
      · next _ notSame =>
        have firstKept : (first :: rest).filter (fun entry => entry.1 ≠ key) =
            first :: rest.filter fun entry => entry.1 ≠ key := by
          simp [Ne.symm notSame]
        rw [firstKept]
        exact ((inductionHypothesis restSorted).cons first).trans (List.Perm.swap _ _ _)

/-- The keys of a sorted map are distinct. -/
theorem keys_nodup (map : SortedMap κ ν) : (map.entries.map Prod.fst).Nodup :=
  List.pairwise_map.mpr (map.sorted.imp fun earlier => ne_of_lt earlier)

theorem perm_set (map : SortedMap κ ν) (key : κ) (value : ν) :
    (map.set key value).entries.Perm ((key, value) :: (map.delete key).entries) :=
  perm_insertSorted map.sorted key value

/-! ## Keeping some keys -/

/-- Keep the entries whose keys pass `keep`. -/
def filterKeys (map : SortedMap κ ν) (keep : κ → Bool) : SortedMap κ ν :=
  ⟨map.entries.filter fun entry => keep entry.1, map.sorted.filter _⟩

/-- Two maps with the same entries are the same map. -/
theorem ext_entries {first second : SortedMap κ ν} (same : first.entries = second.entries) :
    first = second := by
  cases first
  cases second
  cases same
  rfl

/-- A sorted map is determined by its lookups. -/
theorem ext_get? {first second : SortedMap κ ν} (same : ∀ key, first.get? key = second.get? key) :
    first = second := by
  have sameMembers : ∀ entry, entry ∈ first.entries ↔ entry ∈ second.entries := by
    rintro ⟨key, value⟩
    rw [mem_entries_iff, mem_entries_iff, same]
  have nodup : ∀ map : SortedMap κ ν, map.entries.Nodup := fun map =>
    map.sorted.imp fun earlier same => by rw [same] at earlier; exact lt_irrefl _ earlier
  have perm := (List.perm_ext_iff_of_nodup (nodup first) (nodup second)).mpr sameMembers
  apply ext_entries
  refine perm.eq_of_pairwise (fun a b _ _ below above => absurd (lt_trans below above)
    (lt_irrefl _)) first.sorted second.sorted

/-- Storing twice at one key is storing the second value. -/
theorem set_set (map : SortedMap κ ν) (key : κ) (first second : ν) :
    (map.set key first).set key second = map.set key second :=
  ext_get? fun other => by
    simp only [get?_set]
    split <;> rfl

/-- Deleting an absent key leaves the map as it is. -/
theorem delete_of_get?_eq_none {map : SortedMap κ ν} {key : κ} (absent : map.get? key = none) :
    map.delete key = map :=
  ext_get? fun other => by
    rw [get?_delete]
    split
    · rename_i same
      rw [same, absent]
    · rfl

/-- A present key lists its entry in front of the others, up to order. -/
theorem perm_delete_of_get? {map : SortedMap κ ν} {key : κ} {value : ν}
    (present : map.get? key = some value) :
    map.entries.Perm ((key, value) :: (map.delete key).entries) := by
  have unchanged : map.set key value = map := ext_get? fun other => by
    rw [get?_set]
    split
    · rename_i same
      rw [← same, present]
    · rfl
  have perm := perm_set map key value
  rwa [unchanged] at perm

/-- Replacing the value at a present key changes a sum over the entries by the difference of
the two values. -/
theorem sum_set_add (map : SortedMap κ ν) {key : κ} {old : ν} (present : map.get? key = some old)
    (value : ν) (measure : κ × ν → Nat) :
    ((map.set key value).entries.map measure).sum + measure (key, old) =
      (map.entries.map measure).sum + measure (key, value) := by
  have before := ((perm_delete_of_get? present).map measure).sum_nat
  have after := ((perm_set map key value).map measure).sum_nat
  simp only [List.map_cons, List.sum_cons] at before after
  omega

section Sums

variable {M : Type} [AddCommMonoid M]

/-- A sum over the entries splits into a present key's entry and the others. -/
theorem sum_eq_add_delete {map : SortedMap κ ν} {key : κ} {value : ν}
    (present : map.get? key = some value) (measure : κ × ν → M) :
    (map.entries.map measure).sum =
      measure (key, value) + ((map.delete key).entries.map measure).sum := by
  rw [((perm_delete_of_get? present).map measure).sum_eq, List.map_cons, List.sum_cons]

/-- After a `set`, a sum over the entries is the new entry's plus the other keys'. -/
theorem sum_set (map : SortedMap κ ν) (key : κ) (value : ν) (measure : κ × ν → M) :
    ((map.set key value).entries.map measure).sum =
      measure (key, value) + ((map.delete key).entries.map measure).sum := by
  rw [((perm_set map key value).map measure).sum_eq, List.map_cons, List.sum_cons]

end Sums

theorem find?_filterKeys (key : κ) (keep : κ → Bool) (entries : List (κ × ν)) :
    find? key (entries.filter fun entry => keep entry.1) =
      if keep key then find? key entries else none := by
  induction entries with
  | nil => simp [find?]
  | cons first rest inductionHypothesis =>
    by_cases kept : keep first.1
    · simp only [List.filter_cons, kept, if_true, find?]
      by_cases isFirst : first.1 = key
      · have keyKept : keep key = true := isFirst ▸ kept
        simp [isFirst, keyKept]
      · simp only [isFirst, if_false, inductionHypothesis]
    · simp only [List.filter_cons, kept, Bool.false_eq_true, if_false, inductionHypothesis, find?]
      by_cases isFirst : first.1 = key
      · have keyDropped : keep key = false := by
          rw [← isFirst]
          simpa using kept
        simp [keyDropped]
      · simp [isFirst]

@[simp]
theorem get?_filterKeys (map : SortedMap κ ν) (keep : κ → Bool) (key : κ) :
    (map.filterKeys keep).get? key = if keep key then map.get? key else none :=
  find?_filterKeys key keep map.entries

theorem mem_filterKeys {map : SortedMap κ ν} {keep : κ → Bool} {entry : κ × ν} :
    entry ∈ (map.filterKeys keep).entries ↔ entry ∈ map.entries ∧ keep entry.1 = true :=
  List.mem_filter

/-- Inserting below every key puts the entry in front. -/
theorem insertSorted_of_lt {key : κ} {value : ν} {entries : List (κ × ν)}
    (below : ∀ entry ∈ entries, key < entry.1) :
    insertSorted key value entries = (key, value) :: entries := by
  cases entries with
  | nil => rfl
  | cons first rest => simp [insertSorted, below first List.mem_cons_self]

/-- Inserting above every key puts the entry at the end. -/
theorem insertSorted_of_gt {key : κ} {value : ν} :
    ∀ {entries : List (κ × ν)}, (∀ entry ∈ entries, entry.1 < key) →
      insertSorted key value entries = entries ++ [(key, value)] := by
  intro entries
  induction entries with
  | nil => intro _; rfl
  | cons first rest inductionHypothesis =>
    intro above
    have firstBelow := above first List.mem_cons_self
    have notBelow : ¬ key < first.1 := not_lt.mpr (le_of_lt firstBelow)
    have notSame : key ≠ first.1 := ne_of_gt firstBelow
    simp only [insertSorted, notBelow, notSame, if_false, List.cons_append]
    rw [inductionHypothesis fun entry member => above entry (List.mem_cons_of_mem first member)]

/-- Setting the key of the first entry replaces its value in place. -/
theorem entries_set_of_first {map : SortedMap κ ν} {key : κ} {old : ν} {rest : List (κ × ν)}
    (first : map.entries = (key, old) :: rest) (value : ν) :
    (map.set key value).entries = (key, value) :: rest := by
  simp [set, first, insertSorted]

/-- Setting a key above every key appends the entry. -/
theorem entries_set_of_gt (map : SortedMap κ ν) {key : κ} (value : ν)
    (above : ∀ entry ∈ map.entries, entry.1 < key) :
    (map.set key value).entries = map.entries ++ [(key, value)] :=
  insertSorted_of_gt above

/-- Keeping some keys, the new one among them, commutes with inserting. -/
theorem filter_insertSorted {key : κ} {value : ν} {keep : κ → Bool} (kept : keep key = true) :
    ∀ {entries : List (κ × ν)}, (entries.Pairwise fun earlier later => earlier.1 < later.1) →
      (insertSorted key value entries).filter (fun entry => keep entry.1) =
        insertSorted key value (entries.filter fun entry => keep entry.1) := by
  intro entries
  induction entries with
  | nil => simp [insertSorted, kept]
  | cons first rest inductionHypothesis =>
    intro sorted
    obtain ⟨firstBelow, restSorted⟩ := List.pairwise_cons.mp sorted
    by_cases keyBelow : key < first.1
    · have inserted : insertSorted key value (first :: rest) = (key, value) :: first :: rest := by
        simp [insertSorted, keyBelow]
      rw [inserted]
      by_cases firstKept : keep first.1
      · simp [kept, firstKept, insertSorted, keyBelow]
      · -- the first entry is dropped, and the new key is below all the others
        have below : ∀ entry ∈ rest.filter (fun entry => keep entry.1), key < entry.1 :=
          fun entry member => lt_trans keyBelow (firstBelow entry (List.mem_filter.mp member).1)
        simp only [List.filter_cons, kept, firstKept, if_true, Bool.false_eq_true, if_false]
        rw [insertSorted_of_lt below]
    · by_cases sameKey : key = first.1
      · have firstKept : keep first.1 = true := sameKey ▸ kept
        simp [firstKept, insertSorted, sameKey]
      · have inserted : insertSorted key value (first :: rest) = first :: insertSorted key value rest := by
          simp [insertSorted, keyBelow, sameKey]
        rw [inserted]
        by_cases firstKept : keep first.1
        · simp only [List.filter_cons, firstKept, if_true, inductionHypothesis restSorted]
          simp [insertSorted, keyBelow, sameKey]
        · simp only [List.filter_cons, firstKept, Bool.false_eq_true, if_false,
            inductionHypothesis restSorted]

theorem set_filterKeys (map : SortedMap κ ν) {keep : κ → Bool} {key : κ} (kept : keep key = true)
    (value : ν) : (map.set key value).filterKeys keep = (map.filterKeys keep).set key value :=
  ext_entries (filter_insertSorted kept map.sorted)

/-- Keeping every key that is there leaves the map as it is. -/
theorem filterKeys_of_forall {map : SortedMap κ ν} {keep : κ → Bool}
    (allKept : ∀ entry ∈ map.entries, keep entry.1 = true) : map.filterKeys keep = map :=
  ext_entries (List.filter_eq_self.mpr allKept)

/-- Two entries of a map with one key are the same entry. -/
theorem eq_of_mem_of_key_eq (map : SortedMap κ ν) {first second : κ × ν}
    (firstMember : first ∈ map.entries) (secondMember : second ∈ map.entries)
    (sameKey : first.1 = second.1) : first = second := by
  obtain ⟨key, value⟩ := first
  obtain ⟨otherKey, otherValue⟩ := second
  simp only at sameKey
  subst sameKey
  have found := (mem_entries_iff map).mp firstMember
  rw [(mem_entries_iff map).mp secondMember, Option.some.injEq] at found
  rw [found]

/-- The key of an entry is among the keys of the entries that pass a test exactly when the
entry itself passes. -/
theorem mem_keys_filter_iff (map : SortedMap κ ν) {test : κ × ν → Bool} {entry : κ × ν}
    (stored : entry ∈ map.entries) :
    entry.1 ∈ (map.entries.filter test).map Prod.fst ↔ test entry = true := by
  constructor
  · intro member
    obtain ⟨other, chosen, sameKey⟩ := List.mem_map.mp member
    obtain ⟨otherStored, otherPasses⟩ := List.mem_filter.mp chosen
    rwa [← map.eq_of_mem_of_key_eq otherStored stored sameKey]
  · intro passes
    exact List.mem_map_of_mem (List.mem_filter.mpr ⟨stored, passes⟩)

/-- Changing the values and not the keys changes each lookup the same way. -/
theorem find?_map_values (change : ν → ν) (key : κ) (entries : List (κ × ν)) :
    find? key (entries.map fun entry => (entry.1, change entry.2)) = (find? key entries).map change := by
  induction entries with
  | nil => rfl
  | cons first rest inductionHypothesis =>
    by_cases isFirst : first.1 = key
    · simp [find?, isFirst]
    · simp [find?, isFirst, inductionHypothesis]

/-- Scanning a list none of whose keys is `key` finds nothing. -/
theorem find?_eq_none_of_forall_ne {key : κ} :
    ∀ {entries : List (κ × ν)}, (∀ entry ∈ entries, entry.1 ≠ key) → find? key entries = none
  | [], _ => rfl
  | first :: rest, others => by
    rw [find?, if_neg (others first List.mem_cons_self)]
    exact find?_eq_none_of_forall_ne fun entry member => others entry (List.mem_cons_of_mem _ member)

/-- Keeping the entries that pass a test keeps a lookup exactly when its entry passes. -/
theorem find?_filter_entries (test : κ × ν → Bool) (key : κ) {entries : List (κ × ν)}
    (sorted : entries.Pairwise fun earlier later => earlier.1 < later.1) :
    find? key (entries.filter test) = (find? key entries).filter fun value => test (key, value) := by
  induction entries with
  | nil => rfl
  | cons first rest inductionHypothesis =>
    obtain ⟨firstBelow, restSorted⟩ := List.pairwise_cons.mp sorted
    by_cases isKey : first.1 = key
    · -- the later keys are all above `key`, so only the first entry can be found
      have restNone : find? key rest = none := find?_eq_none_of_forall_ne fun entry member same => by
        have above := firstBelow entry member
        rw [same, isKey] at above
        exact lt_irrefl key above
      have isFirst : (key, first.2) = first := by rw [← isKey]
      by_cases passes : test first = true
      · simp [passes, find?, isKey, Option.filter, isFirst]
      · simp [passes, find?, isKey, Option.filter, isFirst, inductionHypothesis restSorted, restNone]
    · by_cases passes : test first = true <;>
        simp [passes, find?, isKey, inductionHypothesis restSorted]

/-- Where the entries that pass a test come before those that fail it, the entries up to the
first failure are the entries that pass: a traversal of a sorted map that stops at the first
key past a bound visits every key up to the bound. -/
theorem takeWhile_eq_filter {α : Type} {test : α → Bool} :
    ∀ {items : List α}, items.Pairwise (fun earlier later => test later = true → test earlier = true) →
      items.takeWhile test = items.filter test := by
  intro items
  induction items with
  | nil => intro _; rfl
  | cons first rest inductionHypothesis =>
    intro ordered
    obtain ⟨firstBefore, restOrdered⟩ := List.pairwise_cons.mp ordered
    by_cases passes : test first = true
    · simp [passes, inductionHypothesis restOrdered]
    · -- nothing after a failing entry passes
      have noneLater : rest.filter test = [] :=
        List.filter_eq_nil_iff.mpr fun later member laterPasses =>
          passes (firstBefore later member laterPasses)
      simp [passes, noneLater]

end SortedMap

/-! ## Traversals -/

namespace SortedMap

section Traversals

variable {κ ν σ ε : Type}

/-- Visit every entry in key order with a state. -/
def forEach (visit : κ → ν → σ → Except ε σ) : List (κ × ν) → σ → Except ε σ
  | [], state => .ok state
  | (key, value) :: rest, state =>
    match visit key value state with
    | .error failure => .error failure
    | .ok state => forEach visit rest state

/-- Visit the entries in key order with a state until a visit says stop; the visit that
says stop is the last. -/
def forEachWhile (visit : κ → ν → σ → Except ε (Bool × σ)) : List (κ × ν) → σ → Except ε σ
  | [], state => .ok state
  | (key, value) :: rest, state =>
    match visit key value state with
    | .error failure => .error failure
    | .ok (keepGoing, state) => if keepGoing then forEachWhile visit rest state else .ok state

/-- Visit the entries in key order with a state until a visit says stop, each visit also
giving the new value of its entry. -/
def forEachWhileMut (visit : κ → ν → σ → Except ε (Bool × ν × σ)) :
    List (κ × ν) → σ → Except ε (List (κ × ν) × σ)
  | [], state => .ok ([], state)
  | (key, value) :: rest, state =>
    match visit key value state with
    | .error failure => .error failure
    | .ok (keepGoing, value, state) =>
      if keepGoing then
        match forEachWhileMut visit rest state with
        | .error failure => .error failure
        | .ok (rest, state) => .ok ((key, value) :: rest, state)
      else
        .ok ((key, value) :: rest, state)

/-- What holds of the entries seen and the state before a visit, and is kept by every
visit of the next entry, holds of all the entries and the final state. -/
theorem forEach_invariant {visit : κ → ν → σ → Except ε σ} (entries : List (κ × ν))
    (Holds : List (κ × ν) → σ → Prop)
    (step : ∀ seen state key value state', seen ++ [(key, value)] <+: entries → Holds seen state →
      visit key value state = .ok state' → Holds (seen ++ [(key, value)]) state')
    {state state' : σ} (start : Holds [] state) (run : forEach visit entries state = .ok state') :
    Holds entries state' := by
  -- the traversal of what is left, after the entries `seen`
  have general : ∀ (rest seen : List (κ × ν)) (state : σ), seen ++ rest = entries →
      Holds seen state → forEach visit rest state = .ok state' → Holds entries state' := by
    intro rest
    induction rest with
    | nil =>
      intro seen state whole holds run
      simp only [forEach, Except.ok.injEq] at run
      rw [← whole, List.append_nil, ← run]
      exact holds
    | cons entry rest inductionHypothesis =>
      intro seen state whole holds run
      obtain ⟨key, value⟩ := entry
      simp only [forEach] at run
      split at run
      · cases run
      · next afterVisit visitEq =>
        have isPrefix : seen ++ [(key, value)] <+: entries := ⟨rest, by rw [← whole]; simp⟩
        exact inductionHypothesis (seen ++ [(key, value)]) afterVisit (by rw [← whole]; simp)
          (step seen state key value afterVisit isPrefix holds visitEq) run
  exact general entries [] state rfl start run

/-- A visit that succeeds from every state where a property holds, and keeps it, makes the
whole traversal succeed with the property holding of all the entries. -/
theorem forEach_of_invariant {visit : κ → ν → σ → Except ε σ} (entries : List (κ × ν))
    (Holds : List (κ × ν) → σ → Prop)
    (step : ∀ seen state key value, seen ++ [(key, value)] <+: entries → Holds seen state →
      ∃ state', visit key value state = .ok state' ∧ Holds (seen ++ [(key, value)]) state')
    {state : σ} (start : Holds [] state) :
    ∃ state', forEach visit entries state = .ok state' ∧ Holds entries state' := by
  -- the traversal of what is left, after the entries `seen`
  have general : ∀ (rest seen : List (κ × ν)) (state : σ), seen ++ rest = entries →
      Holds seen state → ∃ state', forEach visit rest state = .ok state' ∧ Holds entries state' := by
    intro rest
    induction rest with
    | nil =>
      intro seen state whole holds
      rw [List.append_nil] at whole
      exact ⟨state, rfl, whole ▸ holds⟩
    | cons entry rest inductionHypothesis =>
      intro seen state whole holds
      obtain ⟨key, value⟩ := entry
      have isPrefix : seen ++ [(key, value)] <+: entries := ⟨rest, by rw [← whole]; simp⟩
      obtain ⟨afterVisit, visitEq, visited⟩ := step seen state key value isPrefix holds
      obtain ⟨final, run, finalHolds⟩ :=
        inductionHypothesis (seen ++ [(key, value)]) afterVisit (by rw [← whole]; simp) visited
      exact ⟨final, by simp only [forEach, visitEq, run], finalHolds⟩
  exact general entries [] state rfl start

/-- What holds of the entries seen and the state before a visit, and is kept by every
visit of the next entry, holds of the entries visited, a prefix of all of them, and the
final state. -/
theorem forEachWhile_invariant {visit : κ → ν → σ → Except ε (Bool × σ)} (entries : List (κ × ν))
    (Holds : List (κ × ν) → σ → Prop)
    (step : ∀ seen state key value keepGoing state', seen ++ [(key, value)] <+: entries →
      Holds seen state → visit key value state = .ok (keepGoing, state') →
      Holds (seen ++ [(key, value)]) state')
    {state state' : σ} (start : Holds [] state) (run : forEachWhile visit entries state = .ok state') :
    ∃ visited rest, entries = visited ++ rest ∧ Holds visited state' := by
  have general : ∀ (rest seen : List (κ × ν)) (state : σ), seen ++ rest = entries →
      Holds seen state → forEachWhile visit rest state = .ok state' →
      ∃ visited more, rest = visited ++ more ∧ Holds (seen ++ visited) state' := by
    intro rest
    induction rest with
    | nil =>
      intro seen state _ holds run
      simp only [forEachWhile, Except.ok.injEq] at run
      exact ⟨[], [], rfl, by simpa [← run] using holds⟩
    | cons entry rest inductionHypothesis =>
      intro seen state whole holds run
      obtain ⟨key, value⟩ := entry
      simp only [forEachWhile] at run
      split at run
      · cases run
      · next keepGoing afterVisit visitEq =>
        have isPrefix : seen ++ [(key, value)] <+: entries := ⟨rest, by rw [← whole]; simp⟩
        have visited := step seen state key value keepGoing afterVisit isPrefix holds visitEq
        split at run
        · obtain ⟨later, remaining, restShape, laterHolds⟩ :=
            inductionHypothesis _ afterVisit (by rw [← whole]; simp) visited run
          exact ⟨(key, value) :: later, remaining, by rw [restShape]; rfl, by simpa using laterHolds⟩
        · simp only [Except.ok.injEq] at run
          exact ⟨[(key, value)], rest, rfl, run ▸ visited⟩
  obtain ⟨visited, rest, shape, holds⟩ := general entries [] state rfl start run
  exact ⟨visited, rest, shape, by simpa using holds⟩

/-- What holds of the entries seen, their new values and the state before a visit, and is
kept by every visit of the next entry, holds at the end: the entries visited, a prefix of
all of them, have been replaced by their new values and the rest are as they were. -/
theorem forEachWhileMut_invariant {visit : κ → ν → σ → Except ε (Bool × ν × σ)}
    (entries : List (κ × ν)) (Holds : List (κ × ν) → List (κ × ν) → σ → Prop)
    (step : ∀ seen seen' state key value keepGoing value' state',
      seen ++ [(key, value)] <+: entries → Holds seen seen' state →
      visit key value state = .ok (keepGoing, value', state') →
      Holds (seen ++ [(key, value)]) (seen' ++ [(key, value')]) state')
    {entries' : List (κ × ν)} {state state' : σ} (start : Holds [] [] state)
    (run : forEachWhileMut visit entries state = .ok (entries', state')) :
    ∃ visited visited' rest, entries = visited ++ rest ∧ entries' = visited' ++ rest ∧
      Holds visited visited' state' := by
  have general : ∀ (rest seen seen' rest' : List (κ × ν)) (state : σ), seen ++ rest = entries →
      Holds seen seen' state → forEachWhileMut visit rest state = .ok (rest', state') →
      ∃ visited visited' more, rest = visited ++ more ∧ rest' = visited' ++ more ∧
        Holds (seen ++ visited) (seen' ++ visited') state' := by
    intro rest
    induction rest with
    | nil =>
      intro seen seen' rest' state _ holds run
      simp only [forEachWhileMut, Except.ok.injEq, Prod.mk.injEq] at run
      obtain ⟨rfl, rfl⟩ := run
      exact ⟨[], [], [], rfl, rfl, by simpa using holds⟩
    | cons entry rest inductionHypothesis =>
      intro seen seen' rest' state whole holds run
      obtain ⟨key, value⟩ := entry
      simp only [forEachWhileMut] at run
      split at run
      · cases run
      · next keepGoing newValue afterVisit visitEq =>
        have isPrefix : seen ++ [(key, value)] <+: entries := ⟨rest, by rw [← whole]; simp⟩
        have visited :=
          step seen seen' state key value keepGoing newValue afterVisit isPrefix holds visitEq
        split at run
        · split at run
          · cases run
          · next laterEntries finalState restRun =>
            simp only [Except.ok.injEq, Prod.mk.injEq] at run
            obtain ⟨rfl, rfl⟩ := run
            obtain ⟨later, later', remaining, restShape, restShape', laterHolds⟩ :=
              inductionHypothesis _ _ _ afterVisit (by rw [← whole]; simp) visited restRun
            refine ⟨(key, value) :: later, (key, newValue) :: later', remaining, ?_, ?_, ?_⟩
            · rw [restShape]; rfl
            · rw [restShape']; rfl
            · simpa using laterHolds
        · simp only [Except.ok.injEq, Prod.mk.injEq] at run
          obtain ⟨rfl, rfl⟩ := run
          exact ⟨[(key, value)], [(key, newValue)], rest, rfl, rfl, visited⟩
  obtain ⟨visited, visited', rest, shape, shape', holds⟩ :=
    general entries [] [] entries' state rfl start run
  exact ⟨visited, visited', rest, shape, shape', by simpa using holds⟩

/-- A traversal that changes values keeps every key in its place. -/
theorem keys_forEachWhileMut {visit : κ → ν → σ → Except ε (Bool × ν × σ)} :
    ∀ {entries entries' : List (κ × ν)} {state state' : σ},
      forEachWhileMut visit entries state = .ok (entries', state') →
      entries'.map Prod.fst = entries.map Prod.fst := by
  intro entries entries' state state' run
  obtain ⟨visited, visited', rest, rfl, rfl, sameKeys⟩ :=
    forEachWhileMut_invariant entries (fun seen seen' _ => seen'.map Prod.fst = seen.map Prod.fst)
      (fun seen seen' _ key _ _ _ _ _ sameKeys _ => by simp [sameKeys]) rfl run
  simp [sameKeys]

/-- `forEachWhile` is the loop of `Loop.forWhile` over the entries. -/
theorem forEachWhile_eq_forWhile (visit : κ → ν → σ → Except ε (Bool × σ)) :
    ∀ (entries : List (κ × ν)) (state : σ),
      forEachWhile visit entries state = Loop.forWhile (fun entry => visit entry.1 entry.2) entries state := by
  intro entries
  induction entries with
  | nil => intro state; rfl
  | cons entry rest inductionHypothesis =>
    intro state
    obtain ⟨key, value⟩ := entry
    simp only [forEachWhile, Loop.forWhile]
    cases visit key value state with
    | error failure => rfl
    | ok outcome =>
      obtain ⟨keepGoing, afterVisit⟩ := outcome
      cases keepGoing with
      | false => rfl
      | true => exact inductionHypothesis afterVisit

end Traversals

variable {κ ν σ ε : Type} [LinearOrder κ]

/-- `forEachWhileMut` on a map: the map with the new values, and the final state. -/
def forEachWhileMutMap (map : SortedMap κ ν) (visit : κ → ν → σ → Except ε (Bool × ν × σ))
    (state : σ) : Except ε (SortedMap κ ν × σ) :=
  match run : forEachWhileMut visit map.entries state with
  | .error failure => .error failure
  | .ok (entries, state') =>
    have sameKeys := keys_forEachWhileMut run
    .ok (⟨entries, by
      have sortedKeys := List.pairwise_map.mpr map.sorted
      rw [← sameKeys] at sortedKeys
      exact List.pairwise_map.mp sortedKeys⟩, state')

/-- `forEachWhileMutMap` returns the entries the traversal returns, as a map. -/
theorem forEachWhileMutMap_of_ok {map : SortedMap κ ν} {visit : κ → ν → σ → Except ε (Bool × ν × σ)}
    {state state' : σ} {entries : List (κ × ν)}
    (run : forEachWhileMut visit map.entries state = .ok (entries, state')) :
    ∃ map', map.forEachWhileMutMap visit state = .ok (map', state') ∧ map'.entries = entries := by
  unfold forEachWhileMutMap
  split
  · next failure failed =>
    rw [failed] at run
    cases run
  · next entries'' state'' ranOk =>
    rw [ranOk, Except.ok.injEq, Prod.mk.injEq] at run
    obtain ⟨rfl, rfl⟩ := run
    exact ⟨_, rfl, rfl⟩

end SortedMap
