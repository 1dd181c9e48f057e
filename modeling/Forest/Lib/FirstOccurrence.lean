import Mathlib.Data.List.Basic

/-!
# The first element of each key

A loop that keeps a set of the keys it has seen and skips every element whose key is already in
it keeps the first element of each key, in order.  `firstByKey key seen items` is that scan,
started with the keys `seen` already taken.  Its keys are distinct and none of them was seen
before (`nodup_keys_firstByKey`), it keeps elements of the list in their order
(`firstByKey_sublist`), and every key of the list is either among those seen or the key of a
kept element (`key_mem_firstByKey`).
-/

namespace FirstOccurrence

variable {α β : Type} [DecidableEq β] (key : α → β)

/-- The elements whose key is neither in `seen` nor the key of an earlier element. -/
def firstByKey : List β → List α → List α
  | _, [] => []
  | seen, item :: rest =>
    if key item ∈ seen then firstByKey seen rest
    else item :: firstByKey (key item :: seen) rest

variable {key}

@[simp]
theorem firstByKey_nil (seen : List β) : firstByKey key seen [] = [] := rfl

theorem firstByKey_cons (seen : List β) (item : α) (rest : List α) :
    firstByKey key seen (item :: rest) =
      if key item ∈ seen then firstByKey key seen rest
      else item :: firstByKey key (key item :: seen) rest := rfl

theorem firstByKey_sublist (seen : List β) (items : List α) :
    (firstByKey key seen items).Sublist items := by
  induction items generalizing seen with
  | nil => exact List.Sublist.refl []
  | cons item rest inductionHypothesis =>
    rw [firstByKey_cons]
    split
    · exact (inductionHypothesis seen).cons item
    · exact (inductionHypothesis (key item :: seen)).cons_cons item

/-- A kept key was not seen before, and the kept keys are distinct. -/
theorem nodup_keys_firstByKey (seen : List β) (items : List α) :
    ((firstByKey key seen items).map key).Nodup ∧
      ∀ kept ∈ firstByKey key seen items, key kept ∉ seen := by
  induction items generalizing seen with
  | nil => simp
  | cons item rest inductionHypothesis =>
    rw [firstByKey_cons]
    split
    · exact inductionHypothesis seen
    · rename_i unseen
      obtain ⟨distinct, fresh⟩ := inductionHypothesis (key item :: seen)
      refine ⟨?_, ?_⟩
      · rw [List.map_cons, List.nodup_cons]
        refine ⟨?_, distinct⟩
        intro repeated
        obtain ⟨later, member, sameKey⟩ := List.mem_map.mp repeated
        exact fresh later member (sameKey ▸ List.mem_cons_self)
      · intro kept member
        rcases List.mem_cons.mp member with rfl | later
        · exact unseen
        · exact fun wasSeen => fresh kept later (List.mem_cons_of_mem _ wasSeen)

/-- Every key of the list was seen before or is the key of a kept element. -/
theorem key_mem_firstByKey (seen : List β) (items : List α) :
    ∀ item ∈ items, key item ∈ seen ∨ key item ∈ (firstByKey key seen items).map key := by
  induction items generalizing seen with
  | nil => simp
  | cons first rest inductionHypothesis =>
    intro item member
    rw [firstByKey_cons]
    split
    · rename_i wasSeen
      rcases List.mem_cons.mp member with rfl | later
      · exact Or.inl wasSeen
      · exact inductionHypothesis seen item later
    · rcases List.mem_cons.mp member with rfl | later
      · exact Or.inr List.mem_cons_self
      · rcases inductionHypothesis (key first :: seen) item later with wasSeen | kept
        · rcases List.mem_cons.mp wasSeen with sameKey | before
          · exact Or.inr (List.mem_map.mpr ⟨first, List.mem_cons_self, sameKey.symm⟩)
          · exact Or.inl before
        · exact Or.inr (List.mem_cons_of_mem _ kept)

/-- Scanning two lists in turn is scanning the second with the keys kept from the first. -/
theorem firstByKey_append (seen : List β) (front back : List α) :
    firstByKey key seen (front ++ back) =
      firstByKey key seen front ++
        firstByKey key ((firstByKey key seen front).reverse.map key ++ seen) back := by
  induction front generalizing seen with
  | nil => simp
  | cons item rest inductionHypothesis =>
    rw [List.cons_append, firstByKey_cons, firstByKey_cons]
    split
    · exact inductionHypothesis seen
    · rw [inductionHypothesis (key item :: seen), List.cons_append, List.reverse_cons,
        List.map_append, List.append_assoc]
      rfl

/-- The scan reads the seen keys only through membership. -/
theorem firstByKey_congr {seen seen' : List β} (same : ∀ b, b ∈ seen ↔ b ∈ seen')
    (items : List α) : firstByKey key seen items = firstByKey key seen' items := by
  induction items generalizing seen seen' with
  | nil => rfl
  | cons item rest inductionHypothesis =>
    have grown : ∀ b, b ∈ key item :: seen ↔ b ∈ key item :: seen' := by
      intro b
      rw [List.mem_cons, List.mem_cons, same b]
    simp only [firstByKey_cons, same (key item), inductionHypothesis same, inductionHypothesis grown]

/-! ## Numbering by first occurrence

A loop that gives each item the position of its first occurrence keeps a map from items to
numbers and the list of the items numbered so far: an item the map holds gets its number, a new
item gets the length of the list and is appended to it.  `NumberedBy order combined` says the
map and the list agree; it holds of the empty pair and every step keeps it.  Over a run the
list grows by the first occurrences of the new items (`numberItems_spec`), and each number
given out picks its item back out of the list, also after later items are appended. -/

section Numbering

variable {order : β → Option Nat} {combined : List β}

/-- The map and the list agree: the list has no repeats, and the map gives an item a number
exactly when the list holds the item at that position. -/
structure NumberedBy (order : β → Option Nat) (combined : List β) : Prop where
  nodup : combined.Nodup
  position : ∀ item number, order item = some number ↔ combined[number]? = some item

omit [DecidableEq β] in
theorem NumberedBy.empty : NumberedBy (fun _ : β => none) [] :=
  ⟨List.nodup_nil, by simp⟩

omit [DecidableEq β] in
/-- The map holds exactly the items of the list. -/
theorem NumberedBy.order_eq_none_iff (numbered : NumberedBy order combined) {item : β} :
    order item = none ↔ item ∉ combined := by
  rw [List.mem_iff_getElem?]
  simp only [← numbered.position, not_exists]
  cases order item <;> simp

/-- Appending a new item under the next number keeps the map and the list in agreement. -/
theorem NumberedBy.push (numbered : NumberedBy order combined) {item : β}
    (fresh : item ∉ combined) :
    NumberedBy (Function.update order item (some combined.length)) (combined ++ [item]) := by
  have single : [item].Nodup := List.nodup_cons.mpr ⟨List.not_mem_nil, List.nodup_nil⟩
  refine ⟨List.nodup_append.mpr ⟨numbered.nodup, single, ?_⟩, ?_⟩
  · intro other member appended appendedMember same
    rw [List.mem_singleton.mp appendedMember] at same
    exact fresh (same ▸ member)
  · intro other number
    rw [List.getElem?_append]
    by_cases same : other = item
    · subst same
      have notBefore : ∀ n, combined[n]? ≠ some other :=
        fun n found => fresh (List.mem_of_getElem? found)
      rw [Function.update_self, Option.some_inj]
      split
      · exact ⟨fun numbered => by omega, fun found => absurd found (notBefore number)⟩
      · rw [List.getElem?_singleton]
        constructor
        · intro same
          simp [same]
        · intro found
          simp only [Option.ite_none_right_eq_some, and_true] at found
          omega
    · rw [Function.update_of_ne same, numbered.position]
      split
      · rfl
      · rw [List.getElem?_singleton]
        constructor
        · intro found
          rename_i beyond
          exact absurd (List.getElem?_eq_none (Nat.le_of_not_lt beyond)) (by simp [found])
        · intro found
          simp only [Option.ite_none_right_eq_some, Option.some.injEq] at found
          exact absurd found.2.symm same

/-- One step of the loop: the item's number, with the map and the list after it. -/
def numberItem (order : β → Option Nat) (combined : List β) (item : β) :
    Nat × (β → Option Nat) × List β :=
  match order item with
  | some number => (number, order, combined)
  | none => (combined.length, Function.update order item (some combined.length), combined ++ [item])

/-- The loop over a list of items: the number of each, with the map and the list after them. -/
def numberItems (order : β → Option Nat) (combined : List β) :
    List β → List Nat × (β → Option Nat) × List β
  | [] => ([], order, combined)
  | item :: rest =>
    let (number, order, combined) := numberItem order combined item
    let (numbers, order, combined) := numberItems order combined rest
    (number :: numbers, order, combined)

/-- The loop over several lists in turn, with one map and one list: the numbers of each list. -/
def numberLists (order : β → Option Nat) (combined : List β) :
    List (List β) → List (List Nat) × (β → Option Nat) × List β
  | [] => ([], order, combined)
  | items :: rest =>
    let (numbers, order, combined) := numberItems order combined items
    let (others, order, combined) := numberLists order combined rest
    (numbers :: others, order, combined)

omit [DecidableEq β] in
/-- Numbers that pick items out of a list pick the same items out of any longer list. -/
theorem map_getElem?_append {numbers : List Nat} {items : List β}
    (picks : numbers.map (combined[·]?) = items.map some) (extra : List β) :
    numbers.map ((combined ++ extra)[·]?) = items.map some := by
  rw [← picks]
  apply List.map_congr_left
  intro number member
  have listed : combined[number]? ∈ items.map some := picks ▸ List.mem_map_of_mem member
  obtain ⟨item, -, found⟩ := List.mem_map.mp listed
  have inRange : number < combined.length := (List.getElem?_eq_some_iff.mp found.symm).1
  exact List.getElem?_append_left inRange

/-- One step keeps the agreement, appends the item if it is new, and its number picks it. -/
theorem numberItem_spec (numbered : NumberedBy order combined) {item : β} {number : Nat}
    {order' : β → Option Nat} {combined' : List β}
    (ran : numberItem order combined item = (number, order', combined')) :
    NumberedBy order' combined' ∧ combined' = combined ++ firstByKey id combined [item] ∧
      combined'[number]? = some item := by
  unfold numberItem at ran
  split at ran
  · rename_i known
    cases ran
    have listed : item ∈ combined := List.mem_of_getElem? ((numbered.position _ _).mp known)
    exact ⟨numbered, by simp [firstByKey_cons, listed], (numbered.position _ _).mp known⟩
  · rename_i unknown
    cases ran
    have fresh : item ∉ combined := numbered.order_eq_none_iff.mp unknown
    exact ⟨numbered.push fresh, by simp [firstByKey_cons, fresh], by simp⟩

/-- A run keeps the agreement, appends the first occurrences of the new items, and each number
it returns picks its item. -/
theorem numberItems_spec {items : List β} {numbers : List Nat} {order' : β → Option Nat}
    {combined' : List β} (numbered : NumberedBy order combined)
    (ran : numberItems order combined items = (numbers, order', combined')) :
    NumberedBy order' combined' ∧ combined' = combined ++ firstByKey id combined items ∧
      numbers.map (combined'[·]?) = items.map some := by
  induction items generalizing order combined numbers with
  | nil =>
    simp only [numberItems, Prod.mk.injEq] at ran
    obtain ⟨rfl, rfl, rfl⟩ := ran
    simp [numbered]
  | cons item rest inductionHypothesis =>
    rcases stepped : numberItem order combined item with ⟨number, order₁, combined₁⟩
    rcases restRan : numberItems order₁ combined₁ rest with ⟨others, order₂, combined₂⟩
    simp only [numberItems, stepped, restRan, Prod.mk.injEq] at ran
    obtain ⟨rfl, rfl, rfl⟩ := ran
    obtain ⟨numbered₁, grown₁, picked⟩ := numberItem_spec numbered stepped
    obtain ⟨numbered₂, grown₂, picks⟩ := inductionHypothesis numbered₁ restRan
    -- the list after the step holds the same items as the seen list of the scan
    have sameSeen : ∀ b, b ∈ combined₁ ↔
        b ∈ (if item ∈ combined then combined else item :: combined) := by
      intro b
      rw [grown₁]
      split <;> simp [firstByKey_cons, *, or_comm]
    refine ⟨numbered₂, ?_, ?_⟩
    · rw [grown₂, firstByKey_congr sameSeen, grown₁, List.append_assoc]
      congr 1
      by_cases listed : item ∈ combined <;> simp [firstByKey_cons, listed]
    · rw [List.map_cons, List.map_cons, picks]
      obtain ⟨extra, rfl⟩ : ∃ extra, combined₂ = combined₁ ++ extra := ⟨_, grown₂⟩
      rw [List.getElem?_append_left (List.getElem?_eq_some_iff.mp picked).1, picked]

/-- Several lists in turn: the agreement is kept, the list grows by the first occurrences of all
their items, and the numbers of each list pick its items out of the final list. -/
theorem numberLists_spec {lists : List (List β)} {numberLists' : List (List Nat)}
    {order' : β → Option Nat} {combined' : List β} (numbered : NumberedBy order combined)
    (ran : numberLists order combined lists = (numberLists', order', combined')) :
    NumberedBy order' combined' ∧ combined' = combined ++ firstByKey id combined lists.flatten ∧
      List.Forall₂ (fun numbers items => numbers.map (combined'[·]?) = items.map some)
        numberLists' lists := by
  induction lists generalizing order combined numberLists' with
  | nil =>
    simp only [numberLists, Prod.mk.injEq] at ran
    obtain ⟨rfl, rfl, rfl⟩ := ran
    simp [numbered]
  | cons items rest inductionHypothesis =>
    rcases listRan : numberItems order combined items with ⟨numbers, order₁, combined₁⟩
    rcases restRan : numberLists order₁ combined₁ rest with ⟨others, order₂, combined₂⟩
    simp only [numberLists, listRan, restRan, Prod.mk.injEq] at ran
    obtain ⟨rfl, rfl, rfl⟩ := ran
    obtain ⟨numbered₁, grown₁, picks⟩ := numberItems_spec numbered listRan
    obtain ⟨numbered₂, grown₂, picksRest⟩ := inductionHypothesis numbered₁ restRan
    -- the list after the first list holds what the scan has seen after it
    have sameSeen : ∀ b, b ∈ combined₁ ↔
        b ∈ (firstByKey id combined items).reverse.map id ++ combined := by
      intro b
      rw [grown₁]
      simp [or_comm]
    refine ⟨numbered₂, ?_, ?_⟩
    · rw [grown₂, firstByKey_congr sameSeen, grown₁, List.flatten_cons, firstByKey_append,
        List.append_assoc]
    · refine List.Forall₂.cons ?_ picksRest
      obtain ⟨extra, rfl⟩ : ∃ extra, combined₂ = combined₁ ++ extra := ⟨_, grown₂⟩
      exact map_getElem?_append picks extra

end Numbering

end FirstOccurrence
