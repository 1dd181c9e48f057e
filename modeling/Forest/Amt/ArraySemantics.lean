import Forest.Amt.Amt
import Forest.Lib.SparseArray

namespace Forest.AMT

/-!
# The AMT as a sparse array

An AMT stands for a sparse array over the indices `0 ..= MAX_INDEX`: read through
`Amt::get`, a root is the function `j ↦ get(j)`.  This module proves that `Amt::set` and
`Amt::delete` change that function at their own index only, so that a run of calls that
all return `Ok` from `Amt::new` leaves a root whose reads and count are those of the
`SparseArray` the same calls build.

The argument rests on a shape invariant, `Shaped`: leaves at height zero, link nodes
above, and every node a link leads to (a dirty node, a cached node, or the block the store
holds under the CID) shaped one level down.  `get` only looks at the slot its index
selects, so each proof follows one path: at a link node `i / nodes_for_height` picks the
slot and `i % nodes_for_height` the index below, and two indices that share a slot differ
below it.  The growth and collapse loops of the root move the root node one level down or
up; they keep every read because `nodes_for_height` grows with the height for bit widths up
to 64, and because a read below a shaped node needs no more fuel than its height.

A call that fails is not covered: it may leave the root changed.
-/

variable {V C : Type}

/-! ## Index arithmetic -/

theorem wrappingSub_succ_one {height : Nat} (inWord : height + 1 < 2 ^ 64) :
    Usize.wrappingSub (height + 1) 1 = height := by
  rw [Usize.wrappingSub_of_le inWord (by omega), Nat.add_sub_cancel]

theorem nodesForHeight_pos (bitWidth height : Nat) : 0 < nodesForHeight bitWidth height := by
  unfold nodesForHeight
  dsimp only
  split
  · norm_num [Usize.max]
  · exact Nat.two_pow_pos _

/-- Below the wrap of `bit_width * height`, a node one level higher covers at least as
many indices. -/
theorem nodesForHeight_le_succ {bitWidth height : Nat}
    (narrow : bitWidth * (height + 1) < 2 ^ 64) :
    nodesForHeight bitWidth height ≤ nodesForHeight bitWidth (height + 1) := by
  have lower : bitWidth * height ≤ bitWidth * (height + 1) :=
    Nat.mul_le_mul_left _ (Nat.le_succ _)
  have exactLow : Usize.wrappingMul bitWidth height = bitWidth * height :=
    Usize.wrappingMul_of_lt (by omega)
  have exactHigh : Usize.wrappingMul bitWidth (height + 1) = bitWidth * (height + 1) :=
    Usize.wrappingMul_of_lt narrow
  unfold nodesForHeight
  simp only [exactLow, exactHigh]
  split_ifs with saturatedLow saturatedHigh
  · exact le_refl _
  · omega
  · have belowWord : 2 ^ (bitWidth * height) ≤ 2 ^ 63 :=
      Nat.pow_le_pow_right (by decide) (by omega)
    norm_num [Usize.max] at belowWord ⊢
    omega
  · exact Nat.pow_le_pow_right (by decide) lower

/-- For bit widths up to 64 and heights within the recursion bound, `bit_width * height`
does not wrap. -/
theorem narrow_of_le {bitWidth height : Nat} (narrow : bitWidth ≤ 64)
    (low : height ≤ recursionBound) : bitWidth * (height + 1) < 2 ^ 64 := by
  have bounded : bitWidth * (height + 1) ≤ 64 * (recursionBound + 1) :=
    Nat.mul_le_mul narrow (by omega)
  unfold recursionBound maxHeight at bounded
  omega

/-- Two indices that share a slot are equal exactly when they agree below it. -/
theorem mod_eq_iff_of_div_eq {i j n : Nat} (sameSlot : j / n = i / n) :
    j % n = i % n ↔ j = i := by
  constructor
  · intro sameRest
    rw [← Nat.div_add_mod j n, ← Nat.div_add_mod i n, sameSlot, sameRest]
  · intro same
    rw [same]

/-! ## Slots -/

theorem getD_none_of_all_isNone {α : Type} {slots : List (Option α)}
    (empty : slots.all Option.isNone = true) (k : Nat) : slots.getD k none = none := by
  rw [List.getD_eq_getElem?_getD]
  cases found : slots[k]? with
  | none => rfl
  | some slot =>
    have isNone := List.all_eq_true.mp empty slot (List.mem_of_getElem? found)
    simpa [Option.isNone_iff_eq_none] using isNone

theorem mem_of_getD_eq_some {α : Type} {slots : List (Option α)} {k : Nat} {x : α}
    (found : slots.getD k none = some x) : some x ∈ slots := by
  rw [List.getD_eq_getElem?_getD] at found
  cases slot : slots[k]? with
  | none => simp [slot] at found
  | some y =>
    rw [slot, Option.getD_some] at found
    exact found ▸ List.mem_of_getElem? slot

theorem getD_of_getElem? {α : Type} {slots : List (Option α)} {k : Nat} {slot : Option α}
    (found : slots[k]? = some slot) : slots.getD k none = slot := by
  rw [List.getD_eq_getElem?_getD, found, Option.getD_some]

/-- Writing a slot in range and reading a slot back. -/
theorem getD_set_of_getElem? {α : Type} {slots : List (Option α)} {k : Nat} {slot : Option α}
    (found : slots[k]? = some slot) (x : Option α) (j : Nat) :
    (slots.set k x).getD j none = if j = k then x else slots.getD j none := by
  have inRange : k < slots.length := (List.getElem?_eq_some_iff.mp found).1
  rw [List.getD_eq_getElem?_getD, List.getD_eq_getElem?_getD, List.getElem?_set]
  by_cases same : k = j
  · subst same
    simp [inRange]
  · simp [same, Ne.symm same]

/-- Emptying a slot reads back as empty, in range or not. -/
theorem getD_set_none {α : Type} (slots : List (Option α)) (k j : Nat) :
    (slots.set k none).getD j none = if j = k then none else slots.getD j none := by
  rw [List.getD_eq_getElem?_getD, List.getD_eq_getElem?_getD, List.getElem?_set]
  by_cases same : k = j
  · subst same
    by_cases inRange : k < slots.length
    · simp [inRange]
    · simp [inRange]
  · simp [same, Ne.symm same]

@[simp]
theorem isEmpty_initSizedVec_leaf (bitWidth : Nat) :
    (Node.leaf (initSizedVec bitWidth) : Node V C).isEmpty = true := by
  simp [Node.isEmpty, initSizedVec]

@[simp]
theorem isEmpty_initSizedVec_link (bitWidth : Nat) :
    (Node.link (initSizedVec bitWidth) : Node V C).isEmpty = true := by
  simp [Node.isEmpty, initSizedVec]

/-! ## The shape invariant -/

section Shape

variable (store : Store V C) (bitWidth : Nat)

/-- The node a link leads to: a dirty link's own node, or for a CID link its cache or the
stored block (`cache.get_or_try_init`). -/
def Link.load : Link V C → Except (Failure C) (Node V C)
  | .dirty node => .ok node
  | .cid key cache => loadLink store bitWidth key cache

/-- The node `Node::set` descends into from a slot at the given height: the node behind
the link, or for an empty slot a fresh leaf just above the leaves and a fresh link node
higher up. -/
def slotChild (height : Nat) : Option (Link V C) → Except (Failure C) (Node V C)
  | some link => link.load store bitWidth
  | none =>
    .ok (if height = 1 then .leaf (initSizedVec bitWidth) else .link (initSizedVec bitWidth))

/-- The shape `Node::get`, `Node::set` and `Node::delete` expect below a node of a given
height: leaves at height zero, link nodes above, heights that fit a `usize`, and every node
a link leads to shaped one level down. -/
inductive Shaped : Nat → Node V C → Prop
  | leaf (vals : List (Option V)) : Shaped 0 (.leaf vals)
  | link {height : Nat} (links : List (Option (Link V C))) (inWord : height + 1 < 2 ^ 64)
      (children : ∀ link, some link ∈ links → ∀ child, link.load store bitWidth = .ok child →
        Shaped height child) :
      Shaped (height + 1) (.link links)

end Shape

section Read

variable {store : Store V C} {bitWidth : Nat}

theorem Shaped.inWord {height : Nat} {node : Node V C}
    (shaped : Shaped store bitWidth height node) : height < 2 ^ 64 := by
  cases shaped with
  | leaf vals => exact Nat.two_pow_pos 64
  | link links inWord children => exact inWord

/-- The node behind any slot of a shaped link node is shaped one level down, a fresh one
included. -/
theorem Shaped.slotChild {height : Nat} {links : List (Option (Link V C))}
    (shaped : Shaped store bitWidth (height + 1) (.link links)) {slot : Option (Link V C)}
    (member : slot = none ∨ slot ∈ links) {child : Node V C}
    (loaded : slotChild store bitWidth (height + 1) slot = .ok child) :
    Shaped store bitWidth height child := by
  cases shaped with
  | link _ inWord children =>
    cases slot with
    | some entry =>
      have inLinks : some entry ∈ links := member.resolve_left (by simp)
      exact children entry inLinks child loaded
    | none =>
      simp only [AMT.slotChild, Except.ok.injEq] at loaded
      subst loaded
      cases height with
      | zero => exact .leaf _
      | succ height =>
        refine .link _ (by omega) fun entry member => ?_
        simp [initSizedVec] at member

@[simp]
theorem Node.get_leaf {fuel height i : Nat} {vals : List (Option V)} :
    Node.get store (fuel + 1) (.leaf vals) height bitWidth i = .ok (vals.getD i none) :=
  rfl

/-- One step of `Node::get` at a link node: the slot of the index, then the node behind it. -/
theorem Node.get_link {fuel height i : Nat} {links : List (Option (Link V C))} :
    Node.get store (fuel + 1) (.link links) height bitWidth i =
      match links.getD (i / nodesForHeight bitWidth height) none with
      | none => .ok none
      | some entry => (entry.load store bitWidth).bind fun child =>
          Node.get store fuel child (Usize.wrappingSub height 1) bitWidth
            (i % nodesForHeight bitWidth height) := by
  simp only [Node.get]
  cases links.getD (i / nodesForHeight bitWidth height) none with
  | none => rfl
  | some entry =>
    cases entry with
    | dirty child => rfl
    | cid key cache =>
      simp only [Link.load]
      cases loadLink store bitWidth key cache <;> rfl

/-- Every read below a node without values finds nothing. -/
theorem Node.get_of_isEmpty {fuel height i : Nat} {node : Node V C}
    (empty : node.isEmpty = true) :
    Node.get store (fuel + 1) node height bitWidth i = .ok none := by
  cases node with
  | leaf vals =>
    rw [Node.get_leaf, getD_none_of_all_isNone empty]
  | link links =>
    rw [Node.get_link, getD_none_of_all_isNone empty]

/-- A read through a slot, a fresh one included, is the read below the node behind it. -/
theorem Node.get_link_of_slotChild {fuel height i : Nat} {links : List (Option (Link V C))}
    (slot : Option (Link V C)) {child : Node V C} (fuelPos : 0 < fuel)
    (found : links.getD (i / nodesForHeight bitWidth height) none = slot)
    (loaded : slotChild store bitWidth height slot = .ok child) :
    Node.get store (fuel + 1) (.link links) height bitWidth i =
      Node.get store fuel child (Usize.wrappingSub height 1) bitWidth
        (i % nodesForHeight bitWidth height) := by
  obtain ⟨fuel, rfl⟩ : ∃ below, fuel = below + 1 := ⟨fuel - 1, by omega⟩
  rw [Node.get_link, found]
  cases slot with
  | none =>
    simp only [AMT.slotChild, Except.ok.injEq] at loaded
    subst loaded
    dsimp only
    split <;> rw [Node.get_of_isEmpty (by simp)]
  | some entry =>
    simp only [AMT.slotChild] at loaded
    dsimp only
    rw [loaded]
    rfl

/-- Reads through a slot that did not change are the same. -/
theorem Node.get_link_congr {fuel height i : Nat} {links links' : List (Option (Link V C))}
    (same : links'.getD (i / nodesForHeight bitWidth height) none =
      links.getD (i / nodesForHeight bitWidth height) none) :
    Node.get store (fuel + 1) (.link links') height bitWidth i =
      Node.get store (fuel + 1) (.link links) height bitWidth i := by
  rw [Node.get_link, Node.get_link, same]

/-- Below a shaped node, a read needs no more fuel than one more than the height: any
fuel above the height gives the same answer. -/
theorem Shaped.get_fuel {height : Nat} {node : Node V C}
    (shaped : Shaped store bitWidth height node) (i : Nat) {fuel : Nat} (enough : height < fuel) :
    Node.get store fuel node height bitWidth i = Node.get store (height + 1) node height bitWidth i := by
  induction shaped generalizing i fuel with
  | leaf vals =>
    obtain ⟨fuel, rfl⟩ : ∃ below, fuel = below + 1 := ⟨fuel - 1, by omega⟩
    rfl
  | link links inWord children inductionHypothesis =>
    rename_i height
    obtain ⟨fuel, rfl⟩ : ∃ below, fuel = below + 1 := ⟨fuel - 1, by omega⟩
    rw [Node.get_link, Node.get_link, wrappingSub_succ_one inWord]
    split
    · rfl
    · rename_i entry found
      cases loaded : entry.load store bitWidth with
      | error e => rfl
      | ok child =>
        exact inductionHypothesis entry (mem_of_getD_eq_some found) child loaded _ (by omega)

end Read

/-! ## `Node::set` -/

section Set

variable {store : Store V C} {bitWidth : Nat}

/-- What a call of `Node::set` that returns `Ok` did: at height zero it replaced an
existing slot of a leaf; above, it descended into the node behind the slot of the index
and left a dirty link to the changed node in that slot. -/
theorem Node.set_ok_cases {fuel height i : Nat} {val : V} {node node' : Node V C}
    {prev : Option V}
    (ran : Node.set store (fuel + 1) height bitWidth i val node = .ok prev node') :
    (height = 0 ∧ ∃ vals, node = .leaf vals ∧ vals[i]? = some prev ∧
      node' = .leaf (vals.set i (some val))) ∨
    (height ≠ 0 ∧ ∃ links slot child child', node = .link links ∧
      links[i / nodesForHeight bitWidth height]? = some slot ∧
      slotChild store bitWidth height slot = .ok child ∧
      Node.set store fuel (Usize.wrappingSub height 1) bitWidth
        (i % nodesForHeight bitWidth height) val child = .ok prev child' ∧
      node' = .link (links.set (i / nodesForHeight bitWidth height) (some (.dirty child')))) := by
  by_cases flat : height = 0
  · left
    refine ⟨flat, ?_⟩
    simp only [Node.set, if_pos flat] at ran
    cases node with
    | leaf vals =>
      simp only [Node.setLeaf] at ran
      split at ran
      · rename_i old found
        cases ran
        exact ⟨vals, rfl, found, rfl⟩
      · cases ran
    | link links => cases ran
  · right
    refine ⟨flat, ?_⟩
    simp only [Node.set, if_neg flat] at ran
    cases node with
    | leaf vals => cases ran
    | link links =>
      cases found : links[i / nodesForHeight bitWidth height]? with
      | none => simp [found] at ran
      | some slot =>
        -- every kind of slot descends into `slotChild`, and only `Ok` answers reach here
        cases slot with
        | none =>
          simp only [found] at ran
          split at ran
          · rename_i prev' child' descended
            cases ran
            exact ⟨links, none, _, child', rfl, found, rfl, descended, rfl⟩
          · cases ran
        | some entry =>
          cases entry with
          | dirty child =>
            simp only [found] at ran
            split at ran
            · rename_i prev' child' descended
              cases ran
              exact ⟨links, _, child, child', rfl, found, rfl, descended, rfl⟩
            · cases ran
          | cid key cache =>
            simp only [found] at ran
            split at ran
            · rename_i child loaded
              split at ran
              · rename_i prev' child' descended
                cases ran
                exact ⟨links, _, child, child', rfl, found, loaded, descended, rfl⟩
              · cases ran
            · cases ran

/-- What a call of `Node::set` that returns `Ok` guarantees below a shaped node: the
recursion reached a leaf within its fuel, the node stays shaped, the old value returned is
the one `Node::get` reads, and the index now reads the new value while every other index
reads as before. -/
structure Node.SetsAt (store : Store V C) (bitWidth fuel height i : Nat) (val : V)
    (prev : Option V) (node node' : Node V C) : Prop where
  deep : height < fuel
  shaped : Shaped store bitWidth height node'
  before : Node.get store fuel node height bitWidth i = .ok prev
  after : ∀ j, Node.get store fuel node' height bitWidth j =
    if j = i then .ok (some val) else Node.get store fuel node height bitWidth j

/-- `Node::set` below a shaped node, by induction on the fuel of the descent: at a leaf the
slot is replaced; at a link node the slot of the index leads to a shaped child (a fresh one
for an empty slot), the child is changed at `i % nodes_for_height`, and the other slots
are left alone. -/
theorem Shaped.set {fuel height i : Nat} {val : V} {node node' : Node V C} {prev : Option V}
    (shaped : Shaped store bitWidth height node)
    (ran : Node.set store fuel height bitWidth i val node = .ok prev node') :
    Node.SetsAt store bitWidth fuel height i val prev node node' := by
  induction fuel generalizing height i node node' prev with
  | zero => simp [Node.set, throw, throwThe, MonadExceptOf.throw, EStateM.throw] at ran
  | succ fuel inductionHypothesis =>
    rcases Node.set_ok_cases ran with
      ⟨flat, vals, rfl, found, rfl⟩ | ⟨flat, links, slot, child, child', rfl, found, loaded,
        descended, rfl⟩
    · subst flat
      refine ⟨by omega, .leaf _, ?_, fun j => ?_⟩
      · rw [Node.get_leaf, getD_of_getElem? found]
      · rw [Node.get_leaf, Node.get_leaf, getD_set_of_getElem? found]
        by_cases same : j = i <;> simp [same]
    · cases shaped with
      | link _ inWord children =>
        rename_i below
        have childShaped : Shaped store bitWidth below child :=
          (Shaped.link links inWord children).slotChild (Or.inr (List.mem_of_getElem? found)) loaded
        rw [wrappingSub_succ_one inWord] at descended
        have step := inductionHypothesis childShaped descended
        have fuelPos : 0 < fuel := by
          have := step.deep
          omega
        -- reads in the slot of the index, before and after, go to the child and its update
        have readOld : ∀ j, j / nodesForHeight bitWidth (below + 1) =
            i / nodesForHeight bitWidth (below + 1) →
            Node.get store (fuel + 1) (.link links) (below + 1) bitWidth j =
              Node.get store fuel child below bitWidth (j % nodesForHeight bitWidth (below + 1)) := by
          intro j sameSlot
          rw [Node.get_link_of_slotChild _ fuelPos (by rw [sameSlot]; exact getD_of_getElem? found)
            loaded, wrappingSub_succ_one inWord]
        have readNew : ∀ j, j / nodesForHeight bitWidth (below + 1) =
            i / nodesForHeight bitWidth (below + 1) →
            Node.get store (fuel + 1)
                (.link (links.set (i / nodesForHeight bitWidth (below + 1)) (some (.dirty child'))))
                (below + 1) bitWidth j =
              Node.get store fuel child' below bitWidth (j % nodesForHeight bitWidth (below + 1)) := by
          intro j sameSlot
          rw [Node.get_link_of_slotChild (some (.dirty child')) fuelPos
            (by rw [sameSlot, getD_set_of_getElem? found, if_pos rfl]) rfl,
            wrappingSub_succ_one inWord]
        refine ⟨Nat.succ_lt_succ step.deep, ?_, ?_, fun j => ?_⟩
        · refine .link _ inWord fun entry member target loadedEntry => ?_
          rcases List.mem_or_eq_of_mem_set member with old | new
          · exact children entry old target loadedEntry
          · cases new
            simp only [Link.load, Except.ok.injEq] at loadedEntry
            exact loadedEntry ▸ step.shaped
        · rw [readOld i rfl]
          exact step.before
        · by_cases sameSlot : j / nodesForHeight bitWidth (below + 1) =
              i / nodesForHeight bitWidth (below + 1)
          · rw [readNew j sameSlot, step.after, readOld j sameSlot]
            simp only [mod_eq_iff_of_div_eq sameSlot]
          · have other : j ≠ i := fun same => sameSlot (same ▸ rfl)
            rw [if_neg other, Node.get_link_congr]
            rw [getD_set_of_getElem? found, if_neg sameSlot]

end Set

/-! ## `Node::delete` -/

section Delete

variable {store : Store V C} {bitWidth : Nat}

/-- What a call of `Node::delete` that returns `Ok` did: at a leaf it emptied the slot of
the index (nothing when the leaf is shorter); at a link node with an empty slot it did
nothing; otherwise it descended into the node behind the slot and left in the slot either
nothing, for a child left without values, or a link to the changed child. -/
theorem Node.delete_ok_cases {fuel height i : Nat} {node node' : Node V C}
    {deleted : Option V}
    (ran : Node.delete store (fuel + 1) height bitWidth i node = .ok deleted node') :
    (∃ vals, node = .leaf vals ∧ deleted = vals.getD i none ∧
      node' = .leaf (vals.set i none)) ∨
    (∃ links, node = .link links ∧ links[i / nodesForHeight bitWidth height]? = some none ∧
      deleted = none ∧ node' = node) ∨
    (∃ links entry child child' slot', node = .link links ∧
      links[i / nodesForHeight bitWidth height]? = some (some entry) ∧
      entry.load store bitWidth = .ok child ∧
      Node.delete store fuel (Usize.wrappingSub height 1) bitWidth
        (i % nodesForHeight bitWidth height) child = .ok deleted child' ∧
      node' = .link (links.set (i / nodesForHeight bitWidth height) slot') ∧
      ((slot' = none ∧ child'.isEmpty = true) ∨
        ∃ entry', slot' = some entry' ∧ entry'.load store bitWidth = .ok child')) := by
  simp only [Node.delete] at ran
  cases node with
  | leaf vals =>
    left
    cases found : vals[i]? with
    | none =>
      simp only [found] at ran
      cases ran
      have beyond : vals.length ≤ i := List.getElem?_eq_none_iff.mp found
      refine ⟨vals, rfl, ?_, by rw [List.set_eq_of_length_le beyond]⟩
      rw [List.getD_eq_getElem?_getD, found, Option.getD_none]
    | some prev =>
      simp only [found] at ran
      cases ran
      exact ⟨vals, rfl, (getD_of_getElem? found).symm, rfl⟩
  | link links =>
    right
    cases found : links[i / nodesForHeight bitWidth height]? with
    | none => simp [found] at ran
    | some slot =>
      cases slot with
      | none =>
        simp only [found] at ran
        cases ran
        exact .inl ⟨links, rfl, found, rfl, rfl⟩
      | some entry =>
        right
        cases entry with
        | dirty child =>
          simp only [found] at ran
          split at ran
          · cases ran
          · rename_i child' descended
            cases ran
            exact ⟨links, _, child, child', _, rfl, found, rfl, descended, rfl, .inr ⟨_, rfl, rfl⟩⟩
          · rename_i removed child' descended
            split at ran
            · rename_i kept
              cases ran
              exact ⟨links, _, child, child', _, rfl, found, rfl, descended, rfl,
                .inr ⟨_, rfl, rfl⟩⟩
            · rename_i emptied
              cases ran
              exact ⟨links, _, child, child', _, rfl, found, rfl, descended, rfl,
                .inl ⟨rfl, by simpa using emptied⟩⟩
        | cid key cache =>
          simp only [found] at ran
          split at ran
          · cases ran
          · rename_i child loaded
            split at ran
            · cases ran
            · rename_i child' descended
              cases ran
              exact ⟨links, _, child, child', _, rfl, found, loaded, descended, rfl,
                .inr ⟨_, rfl, rfl⟩⟩
            · rename_i removed child' descended
              split at ran
              · rename_i emptied
                cases ran
                exact ⟨links, _, child, child', _, rfl, found, loaded, descended, rfl,
                  .inl ⟨rfl, emptied⟩⟩
              · rename_i kept
                cases ran
                exact ⟨links, _, child, child', _, rfl, found, loaded, descended, rfl,
                  .inr ⟨_, rfl, rfl⟩⟩

/-- What a call of `Node::delete` that returns `Ok` guarantees below a shaped node: the
node stays shaped, the value returned is the one `Node::get` reads, and the index now reads
nothing while every other index reads as before. -/
structure Node.DeletesAt (store : Store V C) (bitWidth fuel height i : Nat)
    (deleted : Option V) (node node' : Node V C) : Prop where
  shaped : Shaped store bitWidth height node'
  before : Node.get store fuel node height bitWidth i = .ok deleted
  after : ∀ j, Node.get store fuel node' height bitWidth j =
    if j = i then .ok none else Node.get store fuel node height bitWidth j

/-- `Node::delete` below a shaped node with fuel above its height, by induction on the
fuel: an emptied child is unlinked, and since it reads nothing anywhere, neither does the
empty slot that replaces it. -/
theorem Shaped.delete {fuel height i : Nat} {node node' : Node V C} {deleted : Option V}
    (shaped : Shaped store bitWidth height node) (enough : height < fuel)
    (ran : Node.delete store fuel height bitWidth i node = .ok deleted node') :
    Node.DeletesAt store bitWidth fuel height i deleted node node' := by
  induction fuel generalizing height i node node' deleted with
  | zero => omega
  | succ fuel inductionHypothesis =>
    rcases Node.delete_ok_cases ran with
      ⟨vals, rfl, rfl, rfl⟩ | ⟨links, rfl, found, rfl, rfl⟩ |
      ⟨links, entry, child, child', slot', rfl, found, loaded, descended, rfl, newSlot⟩
    · refine ⟨?_, by rw [Node.get_leaf], fun j => ?_⟩
      · cases shaped
        exact .leaf _
      · rw [Node.get_leaf, Node.get_leaf, getD_set_none]
        by_cases same : j = i <;> simp [same]
    · have empty : Node.get store (fuel + 1) (.link links) height bitWidth i = .ok none := by
        rw [Node.get_link, getD_of_getElem? found]
      refine ⟨shaped, empty, fun j => ?_⟩
      by_cases same : j = i
      · rw [if_pos same, same, empty]
      · rw [if_neg same]
    · cases shaped with
      | link _ inWord children =>
        rename_i below
        have childShaped : Shaped store bitWidth below child :=
          children entry (List.mem_of_getElem? found) child loaded
        rw [wrappingSub_succ_one inWord] at descended
        have step := inductionHypothesis childShaped (by omega) descended
        have fuelPos : 0 < fuel := by omega
        have readOld : ∀ j, j / nodesForHeight bitWidth (below + 1) =
            i / nodesForHeight bitWidth (below + 1) →
            Node.get store (fuel + 1) (.link links) (below + 1) bitWidth j =
              Node.get store fuel child below bitWidth (j % nodesForHeight bitWidth (below + 1)) := by
          intro j sameSlot
          rw [Node.get_link_of_slotChild (some entry) fuelPos
            (by rw [sameSlot]; exact getD_of_getElem? found) loaded, wrappingSub_succ_one inWord]
        -- a read elsewhere in the slot is the child's read, unchanged by the deletion
        have readOther : ∀ j, j / nodesForHeight bitWidth (below + 1) =
            i / nodesForHeight bitWidth (below + 1) → j ≠ i →
            Node.get store (fuel + 1) (.link links) (below + 1) bitWidth j =
              Node.get store fuel child' below bitWidth (j % nodesForHeight bitWidth (below + 1)) := by
          intro j sameSlot other
          have otherBelow : j % nodesForHeight bitWidth (below + 1) ≠
              i % nodesForHeight bitWidth (below + 1) :=
            fun sameRest => other ((mod_eq_iff_of_div_eq sameSlot).mp sameRest)
          rw [readOld j sameSlot, step.after, if_neg otherBelow]
        refine ⟨?_, ?_, fun j => ?_⟩
        · refine .link _ inWord fun entry' member target loadedEntry => ?_
          rcases List.mem_or_eq_of_mem_set member with old | new
          · exact children entry' old target loadedEntry
          · rcases newSlot with ⟨rfl, -⟩ | ⟨entry'', rfl, loadedNew⟩
            · cases new
            · cases new
              rw [loadedNew, Except.ok.injEq] at loadedEntry
              exact loadedEntry ▸ step.shaped
        · rw [readOld i rfl]
          exact step.before
        · by_cases sameSlot : j / nodesForHeight bitWidth (below + 1) =
              i / nodesForHeight bitWidth (below + 1)
          · rcases newSlot with ⟨rfl, emptied⟩ | ⟨entry', rfl, loadedNew⟩
            · have unlinked : Node.get store (fuel + 1) (.link (links.set
                  (i / nodesForHeight bitWidth (below + 1)) none)) (below + 1) bitWidth j =
                  .ok none := by
                rw [Node.get_link, sameSlot, getD_set_of_getElem? found, if_pos rfl]
              rw [unlinked]
              by_cases same : j = i
              · rw [if_pos same]
              · obtain ⟨fuel, rfl⟩ : ∃ lower, fuel = lower + 1 := ⟨fuel - 1, by omega⟩
                rw [if_neg same, readOther j sameSlot same, Node.get_of_isEmpty emptied]
            · rw [Node.get_link_of_slotChild (some entry') fuelPos
                (by rw [sameSlot, getD_set_of_getElem? found, if_pos rfl]) loadedNew,
                wrappingSub_succ_one inWord, step.after, readOld j sameSlot]
              simp only [mod_eq_iff_of_div_eq sameSlot]
          · have other : j ≠ i := fun same => sameSlot (same ▸ rfl)
            rw [if_neg other, Node.get_link_congr]
            rw [getD_set_of_getElem? found, if_neg sameSlot]

end Delete

/-! ## The root -/

section Root

variable {store : Store V C}

/-- The invariant of a root: a bit width up to 64, a height within the recursion bound that
the model gives every descent, and a shaped root node.  `Amt::load` refuses heights above
`MAX_HEIGHT`, which is below that bound. -/
structure Root.Shaped (store : Store V C) (root : Root V C) : Prop where
  narrow : root.bitWidth ≤ 64
  low : root.height < recursionBound
  node : AMT.Shaped store root.bitWidth root.height root.node

/-- Two roots that read alike at every index, with the same bit width and count. -/
structure Root.SameReads (store : Store V C) (root root' : Root V C) : Prop where
  bitWidth_eq : root'.bitWidth = root.bitWidth
  count_eq : root'.count = root.count
  get_eq : ∀ j, Amt.get store j root' = Amt.get store j root

theorem Root.SameReads.refl (root : Root V C) : Root.SameReads store root root :=
  ⟨rfl, rfl, fun _ => rfl⟩

theorem Root.SameReads.trans {root middle root' : Root V C}
    (first : Root.SameReads store root middle) (second : Root.SameReads store middle root') :
    Root.SameReads store root root' :=
  ⟨second.bitWidth_eq.trans first.bitWidth_eq, second.count_eq.trans first.count_eq,
    fun j => (second.get_eq j).trans (first.get_eq j)⟩

/-- `Amt::get` on an index in range: nothing past the root, else the read below the root. -/
theorem Amt.get_of_le {root : Root V C} {j : Nat} (inRange : j ≤ maxIndex) :
    Amt.get store j root = if Amt.beyondRoot root j then .ok none
      else Node.get store recursionBound root.node root.height root.bitWidth j := by
  rw [Amt.get, if_neg (Nat.not_lt.mpr inRange)]

theorem Amt.get_of_gt {root : Root V C} {j : Nat} (past : maxIndex < j) :
    Amt.get store j root = .error (.error (.outOfRange j)) := by
  rw [Amt.get, if_pos past]

/-- A root node without values reads nothing at any index in range. -/
theorem Amt.get_of_isEmpty {root : Root V C} (empty : root.node.isEmpty = true) {j : Nat}
    (inRange : j ≤ maxIndex) : Amt.get store j root = .ok none := by
  rw [Amt.get_of_le inRange]
  split
  · rfl
  · exact Node.get_of_isEmpty empty

/-- The reach of a root depends on its bit width and height only. -/
theorem beyondRoot_with (root : Root V C) (node : Node V C) (count j : Nat) :
    Amt.beyondRoot { root with node := node, count := count } j = Amt.beyondRoot root j :=
  rfl

theorem beyondRoot_iff {root : Root V C} {j : Nat} (inWord : root.height + 1 < 2 ^ 64) :
    Amt.beyondRoot root j = true ↔ nodesForHeight root.bitWidth (root.height + 1) ≤ j := by
  simp [Amt.beyondRoot, Usize.wrappingAdd_of_lt inWord]

theorem initSizedVec_getElem?_zero {α : Type} (bitWidth : Nat) :
    (initSizedVec bitWidth : List (Option α))[0]? = some none := by
  have wide : 0 < Usize.oneShl bitWidth := Nat.two_pow_pos _
  simp [initSizedVec, wide]

theorem all_isNone_initSizedVec {α : Type} (bitWidth : Nat) :
    (initSizedVec bitWidth : List (Option α)).all Option.isNone = true := by
  simp [initSizedVec]

/-- The fuel of every descent from a root. -/
theorem recursionBound_eq : recursionBound = 65 + 1 :=
  rfl

/-- One round of the growth loop on a shaped root keeps every read: an index below the
old root lies in the first slot, where the old root node now is, and an index past it lies
in a slot that is empty or past the new root too. -/
theorem Root.grow_spec {root : Root V C} (narrow : root.bitWidth ≤ 64)
    (shaped : AMT.Shaped store root.bitWidth root.height root.node)
    (low : root.height + 1 < recursionBound) :
    root.grow.height = root.height + 1 ∧
      AMT.Shaped store root.bitWidth (root.height + 1) root.grow.node ∧
      Root.SameReads store root root.grow := by
  rw [recursionBound_eq] at low
  have inWord : root.height + 1 < 2 ^ 64 := by omega
  have heightEq : root.grow.height = root.height + 1 := by
    unfold Root.grow
    split <;> exact Usize.wrappingAdd_of_lt inWord
  have monotone : nodesForHeight root.bitWidth (root.height + 1) ≤
      nodesForHeight root.bitWidth (root.height + 1 + 1) :=
    nodesForHeight_le_succ (narrow_of_le narrow (by rw [recursionBound_eq]; omega))
  have beyondGrown : ∀ j, Amt.beyondRoot root.grow j = true ↔
      nodesForHeight root.bitWidth (root.height + 1 + 1) ≤ j := by
    intro j
    rw [beyondRoot_iff (by rw [heightEq]; omega), heightEq, Root.grow_bitWidth]
  refine ⟨heightEq, ?_, ⟨Root.grow_bitWidth root, by unfold Root.grow; split <;> rfl, ?_⟩⟩
  · unfold Root.grow
    split
    · refine .link _ inWord fun entry member child loaded => ?_
      rcases List.mem_or_eq_of_mem_set member with fresh | moved
      · simp [initSizedVec] at fresh
      · cases moved
        simp only [Link.load, Except.ok.injEq] at loaded
        exact loaded ▸ shaped
    · refine .link _ inWord fun entry member child loaded => ?_
      simp [initSizedVec] at member
  · intro j
    by_cases past : maxIndex < j
    · rw [Amt.get_of_gt past, Amt.get_of_gt past]
    rw [Amt.get_of_le (Nat.le_of_not_lt past), Amt.get_of_le (Nat.le_of_not_lt past),
      Root.grow_bitWidth, heightEq, recursionBound_eq]
    by_cases below : j < nodesForHeight root.bitWidth (root.height + 1)
    · -- the index lies below the old root, which now fills the first slot
      have notBeyond : Amt.beyondRoot root j = false := by
        rw [Bool.eq_false_iff, ne_eq, beyondRoot_iff inWord]
        omega
      have notBeyondGrown : Amt.beyondRoot root.grow j = false := by
        rw [Bool.eq_false_iff, ne_eq, beyondGrown]
        omega
      rw [notBeyond, notBeyondGrown, if_neg Bool.false_ne_true, if_neg Bool.false_ne_true]
      unfold Root.grow
      split
      · rw [Node.get_link_of_slotChild (some (.dirty root.node)) (by omega)
            (by rw [Nat.div_eq_of_lt below, getD_set_of_getElem? (initSizedVec_getElem?_zero _),
              if_pos rfl]) rfl,
          wrappingSub_succ_one inWord, Nat.mod_eq_of_lt below,
          shaped.get_fuel j (show root.height < 65 by omega),
          shaped.get_fuel j (show root.height < 65 + 1 by omega)]
      · rename_i emptyNode
        simp only [Bool.not_eq_true', Bool.not_eq_false] at emptyNode
        rw [Node.get_of_isEmpty (isEmpty_initSizedVec_link _), Node.get_of_isEmpty emptyNode]
    · -- the index lies past the old root: an empty slot, or past the new root as well
      have isBeyond : Amt.beyondRoot root j = true := by
        rw [beyondRoot_iff inWord]
        omega
      rw [isBeyond, if_pos rfl]
      split
      · rfl
      · have later : 0 < j / nodesForHeight root.bitWidth (root.height + 1) :=
          Nat.div_pos (Nat.le_of_not_lt below) (nodesForHeight_pos _ _)
        unfold Root.grow
        split
        · rw [Node.get_link, getD_set_of_getElem? (initSizedVec_getElem?_zero _),
            if_neg (Nat.pos_iff_ne_zero.mp later),
            getD_none_of_all_isNone (all_isNone_initSizedVec _)]
        · rw [Node.get_of_isEmpty (isEmpty_initSizedVec_link _)]

@[simp]
theorem Root.grow_height (root : Root V C) : root.grow.height = Usize.wrappingAdd root.height 1 := by
  unfold Root.grow
  split <;> rfl

@[simp]
theorem Root.grow_count (root : Root V C) : root.grow.count = root.count := by
  unfold Root.grow
  split <;> rfl

theorem Root.bitWidth_iterate_grow (root : Root V C) (rounds : Nat) :
    (Root.grow^[rounds] root).bitWidth = root.bitWidth := by
  induction rounds with
  | zero => rfl
  | succ rounds inductionHypothesis =>
    rw [Function.iterate_succ_apply', Root.grow_bitWidth, inductionHypothesis]

theorem Root.height_iterate_grow {root : Root V C} {rounds : Nat}
    (noWrap : root.height + rounds < 2 ^ 64) :
    (Root.grow^[rounds] root).height = root.height + rounds := by
  induction rounds with
  | zero => rfl
  | succ rounds inductionHypothesis =>
    rw [Function.iterate_succ_apply', Root.grow_height, inductionHypothesis (by omega),
      Usize.wrappingAdd_of_lt (by omega), Nat.add_assoc]

/-- The growth loop ends at an iterate of `grow` within its fuel, with the index inside
the root. -/
theorem growLoop_iterate {i fuel : Nat} {root grown : Root V C}
    (grew : Amt.growLoop i fuel root = .ok grown) :
    ∃ rounds ≤ fuel, grown = Root.grow^[rounds] root ∧ Amt.beyondRoot grown i = false := by
  induction fuel generalizing root with
  | zero =>
    rw [Amt.growLoop] at grew
    split at grew
    · cases grew
    · rename_i inside
      cases grew
      exact ⟨0, le_refl 0, rfl, by simpa using inside⟩
  | succ fuel inductionHypothesis =>
    rw [Amt.growLoop] at grew
    split at grew
    · obtain ⟨rounds, within, rfl, inside⟩ := inductionHypothesis grew
      exact ⟨rounds + 1, by omega, (Function.iterate_succ_apply _ _ _).symm, inside⟩
    · rename_i inside
      cases grew
      exact ⟨0, Nat.zero_le _, rfl, by simpa using inside⟩

/-- Rounds of the growth loop that stay within the recursion bound keep the root shaped and
every read the same. -/
theorem Root.iterate_grow_spec {root : Root V C} (narrow : root.bitWidth ≤ 64)
    (shaped : AMT.Shaped store root.bitWidth root.height root.node) (rounds : Nat)
    (low : root.height + rounds < recursionBound) :
    (Root.grow^[rounds] root).height = root.height + rounds ∧
      AMT.Shaped store root.bitWidth (root.height + rounds) (Root.grow^[rounds] root).node ∧
      Root.SameReads store root (Root.grow^[rounds] root) := by
  induction rounds with
  | zero => exact ⟨rfl, shaped, Root.SameReads.refl root⟩
  | succ rounds inductionHypothesis =>
    obtain ⟨heightEq, grownShaped, same⟩ := inductionHypothesis (by omega)
    have widthEq := Root.bitWidth_iterate_grow root rounds
    rw [← widthEq, ← heightEq] at grownShaped
    obtain ⟨nextHeight, nextShaped, nextSame⟩ :=
      Root.grow_spec (by rw [widthEq]; exact narrow) grownShaped (by rw [heightEq]; omega)
    rw [Function.iterate_succ_apply', nextHeight, heightEq, ← Nat.add_assoc]
    rw [widthEq, heightEq] at nextShaped
    exact ⟨rfl, nextShaped, same.trans nextSame⟩

/-- A call of `Node::set` that returns `Ok` reached a leaf within its fuel. -/
theorem Node.height_lt_of_set {bitWidth fuel height i : Nat} {val : V} {node node' : Node V C}
    {prev : Option V} (inWord : height < 2 ^ 64)
    (ran : Node.set store fuel height bitWidth i val node = .ok prev node') : height < fuel := by
  induction fuel generalizing height i node node' prev with
  | zero => simp [Node.set, throw, throwThe, MonadExceptOf.throw, EStateM.throw] at ran
  | succ fuel inductionHypothesis =>
    rcases Node.set_ok_cases ran with ⟨flat, -⟩ |
      ⟨flat, links, slot, child, child', nodeEq, found, loaded, descended, nodeEq'⟩
    · omega
    · rw [Usize.wrappingSub_of_le inWord (by omega)] at descended
      have deep := inductionHypothesis (by omega) descended
      omega

/-- `Amt::set` on a shaped root: the root stays shaped, the old value is the one `get`
read, the count grows exactly when the index was free, and the index reads the new value
while every other index reads as before. -/
theorem Root.Shaped.set {root root' : Root V C} {i : Nat} {val : V} (shaped : root.Shaped store)
    (ran : Amt.set store i val root = .ok () root') :
    root'.Shaped store ∧ root'.bitWidth = root.bitWidth ∧
      ∃ prev, Amt.get store i root = .ok prev ∧
        root'.count = (if prev.isNone then Usize.wrappingAdd root.count 1 else root.count) ∧
        ∀ j, Amt.get store j root' = if j = i then .ok (some val) else Amt.get store j root := by
  unfold Amt.set at ran
  by_cases past : maxIndex < i
  · rw [if_pos past] at ran
    cases ran
  rw [if_neg past] at ran
  cases grew : Amt.growLoop i recursionBound root with
  | error e =>
    simp only [grew] at ran
    cases ran
  | ok grown =>
    simp only [grew] at ran
    cases setRan : Node.set store recursionBound grown.height grown.bitWidth i val grown.node with
    | error e node' =>
      simp only [setRan] at ran
      cases ran
    | ok prev node' =>
      simp only [setRan] at ran
      cases ran
      obtain ⟨rounds, within, grownEq, inside⟩ := growLoop_iterate grew
      have low := shaped.low
      rw [recursionBound_eq] at low within
      have heightEq : grown.height = root.height + rounds := by
        rw [grownEq]
        exact Root.height_iterate_grow (by omega)
      have deep := Node.height_lt_of_set (by rw [heightEq]; omega) setRan
      obtain ⟨-, grownShaped, same⟩ :=
        Root.iterate_grow_spec shaped.narrow shaped.node rounds (by rw [← heightEq]; exact deep)
      rw [← grownEq] at grownShaped same
      rw [← heightEq, ← same.bitWidth_eq] at grownShaped
      have spec := grownShaped.set setRan
      -- the grown root reads every index as the root did
      have readGrown : ∀ j, j ≤ maxIndex → Amt.beyondRoot grown j = false →
          Amt.get store j root =
            Node.get store recursionBound grown.node grown.height grown.bitWidth j := by
        intro j inRange notBeyond
        rw [← same.get_eq j, Amt.get_of_le inRange, notBeyond, if_neg Bool.false_ne_true]
      refine ⟨⟨by rw [same.bitWidth_eq]; exact shaped.narrow, deep, spec.shaped⟩,
        same.bitWidth_eq, prev,
        by rw [readGrown i (Nat.le_of_not_lt past) inside]; exact spec.before,
        by rw [same.count_eq], fun j => ?_⟩
      by_cases pastJ : maxIndex < j
      · have other : j ≠ i := by omega
        rw [if_neg other, Amt.get_of_gt pastJ, Amt.get_of_gt pastJ]
      rw [Amt.get_of_le (Nat.le_of_not_lt pastJ), beyondRoot_with]
      cases beyond : Amt.beyondRoot grown j with
      | true =>
        have other : j ≠ i := fun same => by rw [same, inside] at beyond; cases beyond
        rw [if_pos rfl, if_neg other, ← same.get_eq j, Amt.get_of_le (Nat.le_of_not_lt pastJ),
          beyond, if_pos rfl]
      | false =>
        rw [if_neg Bool.false_ne_true]
        dsimp only
        rw [spec.after j, readGrown j (Nat.le_of_not_lt pastJ) beyond]

/-- A shaped link node sits above height zero, and the nodes its links lead to are shaped
one level down. -/
theorem Shaped.of_link {bitWidth height : Nat} {links : List (Option (Link V C))}
    (shaped : AMT.Shaped store bitWidth height (.link links)) :
    ∃ below, height = below + 1 ∧ below + 1 < 2 ^ 64 ∧
      ∀ entry, some entry ∈ links → ∀ child, entry.load store bitWidth = .ok child →
        AMT.Shaped store bitWidth below child := by
  cases shaped with
  | link _ inWord children => exact ⟨_, rfl, inWord, children⟩

/-- The slots of a collapsible link node past the first are empty. -/
theorem getD_of_canCollapse {links : List (Option (Link V C))}
    (collapsible : (Node.link links).canCollapse = true) {k : Nat} (later : 0 < k) :
    links.getD k none = none := by
  simp only [Node.canCollapse, Bool.and_eq_true] at collapsible
  obtain ⟨lower, rfl⟩ : ∃ lower, k = lower + 1 := ⟨k - 1, by omega⟩
  have rest := getD_none_of_all_isNone collapsible.2 lower
  rwa [List.getD_eq_getElem?_getD, List.getElem?_drop, Nat.add_comm,
    ← List.getD_eq_getElem?_getD] at rest

/-- What a call of the collapse loop that returns `Ok` did: it stopped where the root could
not collapse, or moved the node behind the only link up and went on. -/
theorem collapseLoop_ok_cases {fuel : Nat} {root root' : Root V C}
    (ran : Amt.collapseLoop store fuel root = .ok () root') :
    ((root.node.canCollapse && decide (root.height > 0)) = false ∧ root' = root) ∨
    ∃ lower links entry child, fuel = lower + 1 ∧ root.node.canCollapse = true ∧
      0 < root.height ∧ root.node = .link links ∧ links.head? = some (some entry) ∧
      entry.load store root.bitWidth = .ok child ∧
      Amt.collapseLoop store lower { root with node := child, height := root.height - 1 } =
        .ok () root' := by
  unfold Amt.collapseLoop at ran
  split at ran
  · rename_i collapsible
    simp only [Bool.and_eq_true, decide_eq_true_eq] at collapsible
    right
    cases fuel with
    | zero => cases ran
    | succ lower =>
      dsimp only at ran
      split at ran
      · rename_i links linked
        split at ran
        · rename_i child first
          exact ⟨lower, links, _, child, rfl, collapsible.1, collapsible.2, linked, first, rfl, ran⟩
        · rename_i key cache first
          split at ran
          · rename_i child loaded
            exact ⟨lower, links, _, child, rfl, collapsible.1, collapsible.2, linked, first,
              loaded, ran⟩
          · cases ran
        · cases ran
      · cases ran
  · rename_i stuck
    cases ran
    exact .inl ⟨by simpa using stuck, rfl⟩

/-- One round of the collapse loop on a shaped root keeps every read: the indices below the
node moved up are those of the first slot, and the other slots were empty. -/
theorem Root.collapse_spec {root : Root V C} {links : List (Option (Link V C))}
    {entry : Link V C} {child : Node V C} (shaped : root.Shaped store)
    (linked : root.node = .link links) (collapsible : root.node.canCollapse = true)
    (first : links.head? = some (some entry))
    (loaded : entry.load store root.bitWidth = .ok child) :
    Root.Shaped store { root with node := child, height := root.height - 1 } ∧
      Root.SameReads store root { root with node := child, height := root.height - 1 } := by
  have nodeShaped := shaped.node
  rw [linked] at nodeShaped collapsible
  obtain ⟨below, heightEq, inWord, children⟩ := Shaped.of_link nodeShaped
  have childShaped : AMT.Shaped store root.bitWidth below child :=
    children entry (List.mem_of_getElem? (List.head?_eq_getElem? ▸ first)) child loaded
  have low := shaped.low
  rw [recursionBound_eq] at low
  have heightBelow : root.height - 1 = below := by omega
  have monotone : nodesForHeight root.bitWidth (below + 1) ≤
      nodesForHeight root.bitWidth (below + 1 + 1) :=
    nodesForHeight_le_succ (narrow_of_le shaped.narrow (by rw [recursionBound_eq]; omega))
  refine ⟨⟨shaped.narrow, by rw [recursionBound_eq]; dsimp only; omega, by
    dsimp only
    rw [heightBelow]
    exact childShaped⟩, ⟨rfl, rfl, fun j => ?_⟩⟩
  by_cases past : maxIndex < j
  · rw [Amt.get_of_gt past, Amt.get_of_gt past]
  rw [Amt.get_of_le (Nat.le_of_not_lt past), Amt.get_of_le (Nat.le_of_not_lt past)]
  have beyondNew : ∀ j, Amt.beyondRoot { root with node := child, height := root.height - 1 } j =
      true ↔ nodesForHeight root.bitWidth (below + 1) ≤ j := by
    intro j
    rw [beyondRoot_iff (by dsimp only; omega)]
    dsimp only
    rw [heightBelow]
  have beyondOld : ∀ j, Amt.beyondRoot root j = true ↔
      nodesForHeight root.bitWidth (below + 1 + 1) ≤ j := by
    intro j
    rw [beyondRoot_iff (by omega), heightEq]
  by_cases near : j < nodesForHeight root.bitWidth (below + 1)
  · -- the index lies below the node moved up, in the first slot of the old root node
    have notBeyondNew : Amt.beyondRoot { root with node := child, height := root.height - 1 } j =
        false := by
      rw [Bool.eq_false_iff, ne_eq, beyondNew]
      omega
    have notBeyondOld : Amt.beyondRoot root j = false := by
      rw [Bool.eq_false_iff, ne_eq, beyondOld]
      omega
    rw [notBeyondNew, notBeyondOld, if_neg Bool.false_ne_true, if_neg Bool.false_ne_true]
    dsimp only
    rw [heightBelow, linked, heightEq, recursionBound_eq,
      Node.get_link_of_slotChild (some entry) (by omega)
        (by rw [Nat.div_eq_of_lt near, List.getD_eq_getElem?_getD, ← List.head?_eq_getElem?,
          first, Option.getD_some]) loaded,
      wrappingSub_succ_one inWord, Nat.mod_eq_of_lt near,
      childShaped.get_fuel j (show below < 65 by omega),
      childShaped.get_fuel j (show below < 65 + 1 by omega)]
  · -- the index lies past the node moved up: an empty slot of the old root node, or past it
    have isBeyondNew : Amt.beyondRoot { root with node := child, height := root.height - 1 } j =
        true := by
      rw [beyondNew]
      omega
    rw [isBeyondNew, if_pos rfl]
    split
    · rfl
    · have later : 0 < j / nodesForHeight root.bitWidth (below + 1) :=
        Nat.div_pos (Nat.le_of_not_lt near) (nodesForHeight_pos _ _)
      rw [linked, heightEq, recursionBound_eq, Node.get_link, getD_of_canCollapse collapsible later]

/-- The collapse loop on a shaped root keeps it shaped and keeps every read. -/
theorem Root.collapseLoop_spec {fuel : Nat} {root root' : Root V C} (shaped : root.Shaped store)
    (ran : Amt.collapseLoop store fuel root = .ok () root') :
    root'.Shaped store ∧ Root.SameReads store root root' := by
  induction fuel generalizing root with
  | zero =>
    rcases collapseLoop_ok_cases ran with ⟨-, rfl⟩ | ⟨lower, -, -, -, tooFew, -⟩
    · exact ⟨shaped, Root.SameReads.refl _⟩
    · cases tooFew
  | succ fuel inductionHypothesis =>
    rcases collapseLoop_ok_cases ran with
      ⟨-, rfl⟩ | ⟨lower, links, entry, child, fuelEq, collapsible, -, linked, first, loaded, rest⟩
    · exact ⟨shaped, Root.SameReads.refl _⟩
    · cases fuelEq
      obtain ⟨movedShaped, movedSame⟩ :=
        Root.collapse_spec shaped linked collapsible first loaded
      obtain ⟨finalShaped, finalSame⟩ := inductionHypothesis movedShaped rest
      exact ⟨finalShaped, movedSame.trans finalSame⟩

/-- `Amt::delete` on a shaped root: the root stays shaped, the value returned is the one
`get` read, the count drops exactly when a value was removed, and the index reads nothing
while every other index reads as before. -/
theorem Root.Shaped.delete {root root' : Root V C} {i : Nat} {deleted : Option V}
    (shaped : root.Shaped store) (ran : Amt.delete store i root = .ok deleted root') :
    root'.Shaped store ∧ root'.bitWidth = root.bitWidth ∧ Amt.get store i root = .ok deleted ∧
      root'.count = (if deleted.isSome then Usize.wrappingSub root.count 1 else root.count) ∧
      ∀ j, Amt.get store j root' = if j = i then .ok none else Amt.get store j root := by
  unfold Amt.delete at ran
  by_cases past : maxIndex < i
  · rw [if_pos past] at ran
    cases ran
  rw [if_neg past] at ran
  have inRange : i ≤ maxIndex := Nat.le_of_not_lt past
  by_cases beyond : Amt.beyondRoot root i = true
  · rw [if_pos beyond] at ran
    cases ran
    have empty : Amt.get store i root = .ok none := by
      rw [Amt.get_of_le inRange, if_pos beyond]
    refine ⟨shaped, rfl, empty, rfl, fun j => ?_⟩
    by_cases same : j = i
    · rw [if_pos same, same, empty]
    · rw [if_neg same]
  rw [if_neg beyond] at ran
  cases delRan : Node.delete store recursionBound root.height root.bitWidth i root.node with
  | error e node' =>
    simp only [delRan] at ran
    cases ran
  | ok removed node' =>
    have spec := shaped.node.delete shaped.low delRan
    have before : Amt.get store i root = .ok removed := by
      rw [Amt.get_of_le inRange, if_neg beyond]
      exact spec.before
    -- the root with the new node reads every index but `i` as the root did
    have reads : ∀ count j, Amt.get store j { root with node := node', count := count } =
        if j = i then .ok none else Amt.get store j root := by
      intro count j
      by_cases pastJ : maxIndex < j
      · have other : j ≠ i := by omega
        rw [if_neg other, Amt.get_of_gt pastJ, Amt.get_of_gt pastJ]
      rw [Amt.get_of_le (Nat.le_of_not_lt pastJ), beyondRoot_with, Amt.get_of_le (Nat.le_of_not_lt pastJ)]
      cases beyondJ : Amt.beyondRoot root j with
      | true =>
        have other : j ≠ i := fun same => beyond (same ▸ beyondJ)
        rw [if_pos rfl, if_neg other, if_pos rfl]
      | false =>
        rw [if_neg Bool.false_ne_true, if_neg Bool.false_ne_true]
        exact spec.after j
    have countedShaped : ∀ count,
        Root.Shaped store { root with node := node', count := count } :=
      fun count => ⟨shaped.narrow, shaped.low, spec.shaped⟩
    cases removed with
    | none =>
      simp only [delRan] at ran
      cases ran
      exact ⟨countedShaped root.count, rfl, before, by rw [Option.isSome_none, if_neg Bool.false_ne_true],
        reads root.count⟩
    | some value =>
      simp only [delRan] at ran
      split at ran
      · rename_i emptied
        cases ran
        refine ⟨⟨shaped.narrow, by rw [recursionBound_eq]; dsimp only; omega, .leaf _⟩, rfl,
          before, by rw [Option.isSome_some, if_pos rfl], fun j => ?_⟩
        by_cases pastJ : maxIndex < j
        · have other : j ≠ i := by omega
          rw [if_neg other, Amt.get_of_gt pastJ, Amt.get_of_gt pastJ]
        -- the emptied node read nothing at any index, and neither did the root but at `i`
        have nothing : Amt.get store j
            ({ root with node := node', count := Usize.wrappingSub root.count 1 } : Root V C) =
            .ok none :=
          Amt.get_of_isEmpty emptied (Nat.le_of_not_lt pastJ)
        rw [reads] at nothing
        rw [Amt.get_of_isEmpty (isEmpty_initSizedVec_leaf _) (Nat.le_of_not_lt pastJ), nothing]
      · rename_i kept
        split at ran
        · rename_i collapsed collapsedRan
          cases ran
          obtain ⟨finalShaped, finalSame⟩ :=
            Root.collapseLoop_spec (countedShaped (Usize.wrappingSub root.count 1)) collapsedRan
          exact ⟨finalShaped, finalSame.bitWidth_eq, before,
            by rw [finalSame.count_eq, Option.isSome_some, if_pos rfl],
            fun j => (finalSame.get_eq j).trans (reads _ j)⟩
        · cases ran

end Root

/-! ## The sparse array the AMT implements -/

section Refinement

variable {store : Store V C}

/-- A root stands for a sparse array over `0 ..= MAX_INDEX`: it is shaped, `Amt::get` reads
the array at every index in range, and its count is the array's number of entries. -/
structure Represents (store : Store V C) (root : Root V C) (array : SparseArray V maxIndex) :
    Prop where
  shaped : root.Shaped store
  reads : ∀ j ≤ maxIndex, Amt.get store j root = .ok (array.get j)
  counted : root.count = array.count

theorem maxIndex_succ_lt : maxIndex + 1 < 2 ^ 64 := by
  unfold maxIndex
  omega

/-- `Amt::new_with_bit_width` stands for the empty array. -/
theorem Represents.new {bitWidth : Nat} (narrow : bitWidth ≤ 64) :
    Represents store (Root.new bitWidth) SparseArray.empty where
  shaped := ⟨narrow, by rw [recursionBound_eq]; exact Nat.succ_pos _, .leaf _⟩
  reads j inRange := by
    rw [Amt.get_of_isEmpty (isEmpty_initSizedVec_leaf _) inRange, SparseArray.get_empty]
  counted := by rw [SparseArray.count_empty]; rfl

/-- `Amt::set` that returns `Ok` stores the value in the array it stands for; the count
cannot wrap, since an array with a free index has fewer than `usize::MAX` entries. -/
theorem Represents.set {root root' : Root V C} {array : SparseArray V maxIndex} {i : Nat}
    {val : V} (rep : Represents store root array)
    (ran : Amt.set store i val root = .ok () root') :
    Represents store root' (array.set i val) := by
  obtain ⟨shaped', -, prev, before, countEq, after⟩ := rep.shaped.set ran
  have inRange : i ≤ maxIndex := by
    by_contra past
    rw [Amt.get_of_gt (Nat.lt_of_not_le past)] at before
    cases before
  have prevEq : prev = array.get i := by
    rw [rep.reads i inRange, Except.ok.injEq] at before
    exact before.symm
  refine ⟨shaped', fun j inRangeJ => ?_, ?_⟩
  · rw [after j, SparseArray.get_set inRange]
    by_cases same : j = i
    · rw [if_pos same, if_pos same]
    · rw [if_neg same, if_neg same, rep.reads j inRangeJ]
  · rw [countEq, SparseArray.count_set inRange, prevEq, rep.counted]
    cases present : array.get i with
    | none =>
      have room := SparseArray.count_lt_of_absent inRange present
      have noWrap := maxIndex_succ_lt
      rw [Option.isNone_none, if_pos rfl, Option.isSome_none, if_neg Bool.false_ne_true,
        Usize.wrappingAdd_of_lt (by omega)]
    | some value =>
      rw [Option.isNone_some, if_neg Bool.false_ne_true, Option.isSome_some, if_pos rfl]

/-- `Amt::delete` that returns `Ok` returns the value the array held at the index and
removes it from the array. -/
theorem Represents.delete {root root' : Root V C} {array : SparseArray V maxIndex} {i : Nat}
    {deleted : Option V} (rep : Represents store root array)
    (ran : Amt.delete store i root = .ok deleted root') :
    deleted = array.get i ∧ Represents store root' (array.erase i) := by
  obtain ⟨shaped', -, before, countEq, after⟩ := rep.shaped.delete ran
  have inRange : i ≤ maxIndex := by
    by_contra past
    rw [Amt.get_of_gt (Nat.lt_of_not_le past)] at before
    cases before
  have deletedEq : deleted = array.get i := by
    rw [rep.reads i inRange, Except.ok.injEq] at before
    exact before.symm
  refine ⟨deletedEq, shaped', fun j inRangeJ => ?_, ?_⟩
  · rw [after j, SparseArray.get_erase]
    by_cases same : j = i
    · rw [if_pos same, if_pos same]
    · rw [if_neg same, if_neg same, rep.reads j inRangeJ]
  · rw [countEq, SparseArray.count_erase, deletedEq, rep.counted]
    cases present : array.get i with
    | none => rw [Option.isSome_none, if_neg Bool.false_ne_true, if_neg Bool.false_ne_true]
    | some value =>
      have full := array.count_le
      have nonEmpty := SparseArray.count_pos_of_present (show (array.get i).isSome by rw [present]; rfl)
      have noWrap := maxIndex_succ_lt
      rw [Option.isSome_some, if_pos rfl, if_pos rfl, Usize.wrappingSub_of_le (by omega) (by omega)]

/-- A call on an AMT. -/
inductive Op (V : Type) where
  | set (i : Nat) (val : V)
  | delete (i : Nat)

/-- What a call does to the sparse array. -/
def Op.apply : Op V → SparseArray V maxIndex → SparseArray V maxIndex
  | .set i val, array => array.set i val
  | .delete i, array => array.erase i

/-- The sparse array that a sequence of calls builds from the empty one. -/
def Op.replay (ops : List (Op V)) : SparseArray V maxIndex :=
  ops.foldl (fun array op => op.apply array) SparseArray.empty

/-- A run of calls on an AMT, each of which returned `Ok`. -/
inductive Run (store : Store V C) : Root V C → List (Op V) → Root V C → Prop
  | nil (root : Root V C) : Run store root [] root
  | set {root middle final : Root V C} {i : Nat} {val : V} {ops : List (Op V)}
      (ran : Amt.set store i val root = .ok () middle) (rest : Run store middle ops final) :
      Run store root (.set i val :: ops) final
  | delete {root middle final : Root V C} {i : Nat} {deleted : Option V} {ops : List (Op V)}
      (ran : Amt.delete store i root = .ok deleted middle) (rest : Run store middle ops final) :
      Run store root (.delete i :: ops) final

/-- Every call of a run keeps the refinement, so the run ends at a root that stands for the
array the same calls build. -/
theorem Represents.run {root final : Root V C} {array : SparseArray V maxIndex}
    {ops : List (Op V)} (rep : Represents store root array) (run : Run store root ops final) :
    Represents store final (ops.foldl (fun array op => op.apply array) array) := by
  induction run generalizing array with
  | nil root => exact rep
  | set ran rest inductionHypothesis =>
    exact inductionHypothesis (rep.set ran)
  | delete ran rest inductionHypothesis =>
    exact inductionHypothesis (rep.delete ran).2

/-- From `Amt::new_with_bit_width` with a bit width up to 64, a run of `set` and `delete`
calls that all return `Ok` ends at a shaped root whose `get` reads, at every index in
range, what the sparse array built by the same calls holds, and whose count is that array's
number of entries. -/
theorem amt_runs_implement_sparse_array {bitWidth : Nat} {ops : List (Op V)}
    {final : Root V C} (narrow : bitWidth ≤ 64) (run : Run store (Root.new bitWidth) ops final) :
    Represents store final (Op.replay ops) :=
  (Represents.new narrow).run run

/-- Three calls from a bit width of three, with no store: `set(2, 7)` fills the root leaf,
`set(10, 8)` grows the root to a link node over two leaves, and `delete(2)` empties and
unlinks the first leaf. -/
theorem amt_runs_implement_sparse_array_grow_and_shrink :
    ∃ final : Root Nat Nat,
      Run (fun _ => none) (Root.new 3) [.set 2 7, .set 10 8, .delete 2] final ∧
        Represents (fun _ => none) final (Op.replay [.set 2 7, .set 10 8, .delete 2]) :=
  have run : Run (fun _ => none) (Root.new 3) [.set 2 7, .set 10 8, .delete 2] _ :=
    .set rfl (.set rfl (.delete rfl (.nil _)))
  ⟨_, run, amt_runs_implement_sparse_array (by decide) run⟩

/-- After any run from `Amt::new_with_bit_width` with a bit width up to 64, `Amt::delete`
that returns `Ok` returns exactly the value that the array built by the run holds at the
index, `None` when it holds none. -/
theorem amt_delete_returns_stored_value {bitWidth i : Nat} {ops : List (Op V)}
    {root root' : Root V C} {deleted : Option V} (narrow : bitWidth ≤ 64)
    (run : Run store (Root.new bitWidth) ops root)
    (ran : Amt.delete store i root = .ok deleted root') :
    deleted = (Op.replay ops).get i :=
  (((Represents.new narrow).run run).delete ran).1

/-- After `set(10, 8)` on an empty AMT of bit width three, `delete(10)` returns `Some(8)`. -/
theorem amt_delete_returns_stored_value_after_set :
    ∃ root root' : Root Nat Nat,
      Run (fun _ => none) (Root.new 3) [.set 10 8] root ∧
        Amt.delete (fun _ => none) 10 root = .ok (some 8) root' ∧
        some 8 = (Op.replay [.set 10 8]).get 10 :=
  have run : Run (fun _ => none) (Root.new 3) [.set 10 8] _ := .set rfl (.nil _)
  have ran : Amt.delete (fun _ => none) 10 _ = .ok (some 8) _ := rfl
  ⟨_, _, run, ran, amt_delete_returns_stored_value (by decide) run ran⟩

end Refinement

/-! ## `Amt::batch_set` -/

section BatchSet

variable {store : Store V C}

/-- The calls `Amt::batch_set` makes from index `i`: one `set` per value, at consecutive
indices. -/
def batchSetOps (i : Nat) (vals : List V) : List (Op V) :=
  (vals.zipIdx i).map fun (val, j) => .set j val

@[simp]
theorem batchSetOps_nil (i : Nat) : batchSetOps i ([] : List V) = [] :=
  rfl

@[simp]
theorem batchSetOps_cons (i : Nat) (val : V) (rest : List V) :
    batchSetOps i (val :: rest) = .set i val :: batchSetOps (i + 1) rest :=
  rfl

/-- A call of the `batch_set` loop that returns `Ok` is a run of its `set` calls, all of
them at indices in range. -/
theorem batchSetLoop_run {i : Nat} {vals : List V} {root root' : Root V C}
    (ran : Amt.batchSetLoop store i vals root = .ok () root') :
    Run store root (batchSetOps i vals) root' ∧ (vals = [] ∨ i + vals.length ≤ maxIndex + 1) := by
  induction vals generalizing i root with
  | nil =>
    cases ran
    exact ⟨.nil _, .inl rfl⟩
  | cons val rest inductionHypothesis =>
    obtain ⟨⟨⟩, middle, stored, restRan⟩ := EStateM.bind_eq_ok.mp ran
    obtain ⟨restRun, restFits⟩ := inductionHypothesis restRan
    have inRange : i ≤ maxIndex := by
      by_contra past
      rw [Amt.set, if_pos (Nat.lt_of_not_le past)] at stored
      cases stored
    refine ⟨.set stored restRun, .inr ?_⟩
    rcases restFits with rfl | fits
    · simp only [List.length_singleton]
      omega
    · simp only [List.length_cons]
      omega

/-- Replaying the calls of `batch_set` from index `i` stores the values at `i, i + 1, …`
and leaves the other indices in range alone. -/
theorem get_foldl_batchSetOps (i : Nat) (vals : List V) (array : SparseArray V maxIndex)
    {j : Nat} (inRange : j ≤ maxIndex) :
    ((batchSetOps i vals).foldl (fun array op => op.apply array) array).get j =
      if i ≤ j ∧ j < i + vals.length then vals[j - i]? else array.get j := by
  induction vals generalizing i array with
  | nil =>
    have outside : ¬ (i ≤ j ∧ j < i + ([] : List V).length) := by simp
    rw [batchSetOps_nil, List.foldl_nil, if_neg outside]
  | cons val rest inductionHypothesis =>
    rw [batchSetOps_cons, List.foldl_cons, inductionHypothesis]
    simp only [Op.apply, SparseArray.get_set_of_le inRange, List.length_cons]
    by_cases first : j = i
    · subst first
      simp
    · by_cases later : i + 1 ≤ j ∧ j < i + 1 + rest.length
      · have shifted : j - i = (j - (i + 1)) + 1 := by omega
        rw [if_pos later, if_pos (by omega), shifted, List.getElem?_cons_succ]
      · rw [if_neg later, if_neg first, if_neg (by omega)]

/-- `Amt::batch_set` on a new AMT with a bit width up to 64 that returns `Ok` stands for the
list of values: `get(j)` is the `j`-th value, or `None` past the end, and the count is the
length of the list. -/
theorem amt_batch_set_stores_list {bitWidth : Nat} {vals : List V} {root' : Root V C}
    (narrow : bitWidth ≤ 64) (ran : Amt.batchSet store vals (Root.new bitWidth) = .ok () root') :
    (∀ j ≤ maxIndex, Amt.get store j root' = .ok vals[j]?) ∧ root'.count = vals.length := by
  obtain ⟨run, fits⟩ := batchSetLoop_run ran
  have rep := amt_runs_implement_sparse_array narrow run
  have read : ∀ j ≤ maxIndex, (Op.replay (batchSetOps 0 vals)).get j = vals[j]? := by
    intro j inRange
    rw [Op.replay, get_foldl_batchSetOps 0 vals _ inRange, Nat.zero_add, Nat.sub_zero]
    by_cases within : j < vals.length
    · rw [if_pos ⟨Nat.zero_le j, within⟩]
    · rw [if_neg (fun both => within both.2), SparseArray.get_empty,
        List.getElem?_eq_none (Nat.le_of_not_lt within)]
  refine ⟨fun j inRange => by rw [rep.reads j inRange, read j inRange], ?_⟩
  rw [rep.counted]
  apply SparseArray.count_eq_of_get
  intro j
  by_cases inRange : j ≤ maxIndex
  · rw [read j inRange, isSome_getElem?]
  · rw [(Op.replay (batchSetOps 0 vals)).none_of_gt j (Nat.lt_of_not_le inRange)]
    rcases fits with rfl | fits
    · simp
    · simp only [Option.isSome_none, Bool.false_eq_true, false_iff]
      omega

/-- `batch_set([7, 8, 9])` on an empty AMT of bit width one grows the root twice. -/
theorem amt_batch_set_stores_list_three :
    ∃ root' : Root Nat Nat,
      Amt.batchSet (fun _ => none) [7, 8, 9] (Root.new 1) = .ok () root' ∧
        (∀ j ≤ maxIndex, Amt.get (fun _ => none) j root' = .ok [7, 8, 9][j]?) ∧
        root'.count = [7, 8, 9].length :=
  have ran : Amt.batchSet (fun _ => none) [7, 8, 9] (Root.new 1 : Root Nat Nat) = .ok () _ := rfl
  ⟨_, ran, amt_batch_set_stores_list (by decide) ran⟩

end BatchSet

/-! ## Calls that cannot fail

An AMT that was never flushed holds dirty links only, and every node has the `1 << bit_width`
slots of `init_sized_vec`.  For bit widths from 1 to 63 the slot an index selects then always
exists, the growth loop stops below height 64, and `set` and `delete` at any index up to
`MAX_INDEX` return `Ok` without touching the store.
-/

section Dense

variable {store : Store V C} {bitWidth : Nat}

/-- The nodes that calls from `Amt::new` build: every node has the slots of
`init_sized_vec`, every link is dirty, and the heights fit a `usize`. -/
inductive Dense (bitWidth : Nat) : Nat → Node V C → Prop
  | leaf (vals : List (Option V)) (wide : vals.length = Usize.oneShl bitWidth) :
      Dense bitWidth 0 (.leaf vals)
  | link {height : Nat} (links : List (Option (Link V C)))
      (wide : links.length = Usize.oneShl bitWidth) (inWord : height + 1 < 2 ^ 64)
      (dirtyOnly : ∀ key cache, some (.cid key cache) ∉ links)
      (children : ∀ child, some (.dirty child) ∈ links → Dense bitWidth height child) :
      Dense bitWidth (height + 1) (.link links)

/-- A dense node is shaped whatever the store holds: its links lead to their own nodes. -/
theorem Dense.shaped {bitWidth height : Nat} {node : Node V C}
    (dense : Dense bitWidth height node) : AMT.Shaped store bitWidth height node := by
  induction dense with
  | leaf vals wide => exact .leaf vals
  | link links wide inWord dirtyOnly children inductionHypothesis =>
    refine .link links inWord fun entry member child loaded => ?_
    cases entry with
    | cid key cache => exact absurd member (dirtyOnly key cache)
    | dirty target =>
      simp only [Link.load, Except.ok.injEq] at loaded
      exact loaded ▸ inductionHypothesis _ member

theorem length_initSizedVec {α : Type} (bitWidth : Nat) :
    (initSizedVec bitWidth : List (Option α)).length = Usize.oneShl bitWidth :=
  List.length_replicate

/-- An empty link node of `init_sized_vec` slots is dense. -/
theorem Dense.link_initSizedVec {bitWidth height : Nat} (inWord : height + 1 < 2 ^ 64) :
    Dense bitWidth (height + 1) (.link (initSizedVec bitWidth) : Node V C) := by
  refine .link _ (length_initSizedVec _) inWord (fun key cache member => ?_)
    fun child member => ?_
  · simp [initSizedVec] at member
  · simp [initSizedVec] at member

/-- The fresh node `Node::set` puts in an empty slot at height `height + 1` is dense. -/
theorem dense_slotChild_none {bitWidth height : Nat} {child : Node V C}
    (inWord : height + 1 < 2 ^ 64)
    (loaded : slotChild store bitWidth (height + 1) none = .ok child) :
    Dense bitWidth height child := by
  simp only [slotChild, Except.ok.injEq] at loaded
  subst loaded
  cases height with
  | zero => exact .leaf _ (length_initSizedVec _)
  | succ height => exact Dense.link_initSizedVec (by omega)

/-- Replacing a slot of a dense link node by nothing or a dirty link to a dense node keeps
it dense. -/
theorem Dense.set_slot {bitWidth height k : Nat} {links : List (Option (Link V C))}
    (dense : Dense bitWidth (height + 1) (.link links)) {slot : Option (Link V C)}
    (fresh : slot = none ∨ ∃ child, slot = some (.dirty child) ∧ Dense bitWidth height child) :
    Dense bitWidth (height + 1) (.link (links.set k slot)) := by
  cases dense with
  | link _ wide inWord dirtyOnly children =>
    refine .link _ (by rw [List.length_set, wide]) inWord (fun key cache member => ?_)
      fun child member => ?_
    · rcases List.mem_or_eq_of_mem_set member with old | new
      · exact dirtyOnly key cache old
      · rcases fresh with rfl | ⟨child, rfl, -⟩ <;> cases new
    · rcases List.mem_or_eq_of_mem_set member with old | new
      · exact children child old
      · rcases fresh with rfl | ⟨target, rfl, denseTarget⟩
        · cases new
        · cases new
          exact denseTarget

/-- With bit widths from 1 to 63 and heights within the recursion bound, the slot of an
index below a node's reach exists: `i / nodes_for_height(h) < 1 << bit_width` whenever
`i < nodes_for_height(h + 1)`, also where `nodes_for_height` saturates. -/
theorem div_nodesForHeight_lt {bitWidth height i : Nat} (narrow : bitWidth < 64)
    (low : height ≤ recursionBound) (below : i < nodesForHeight bitWidth (height + 1)) :
    i / nodesForHeight bitWidth height < Usize.oneShl bitWidth := by
  have noWrap : bitWidth * (height + 1) < 2 ^ 64 := narrow_of_le (by omega) low
  have exactHigh : Usize.wrappingMul bitWidth (height + 1) = bitWidth * (height + 1) :=
    Usize.wrappingMul_of_lt noWrap
  have exactLow : Usize.wrappingMul bitWidth height = bitWidth * height :=
    Usize.wrappingMul_of_lt (lt_of_le_of_lt (Nat.mul_le_mul_left _ (Nat.le_succ _)) noWrap)
  have width : Usize.oneShl bitWidth = 2 ^ bitWidth := by
    rw [Usize.oneShl, Nat.mod_eq_of_lt narrow]
  rw [width]
  unfold nodesForHeight at below ⊢
  simp only [exactHigh, exactLow] at below ⊢
  by_cases saturatedLow : bitWidth * height ≥ 64
  · -- both levels saturate: every index in range lies in the first slot
    have saturatedHigh : bitWidth * (height + 1) ≥ 64 := by
      rw [Nat.mul_succ]
      omega
    rw [if_pos saturatedHigh] at below
    rw [if_pos saturatedLow, Nat.div_eq_of_lt below]
    exact Nat.two_pow_pos _
  · rw [if_neg saturatedLow, Nat.div_lt_iff_lt_mul (Nat.two_pow_pos _), ← Nat.pow_add]
    by_cases saturatedHigh : bitWidth * (height + 1) ≥ 64
    · -- the level above saturates at `usize::MAX`, below `2 ^ 64`
      rw [if_pos saturatedHigh] at below
      have wide : 64 ≤ bitWidth + bitWidth * height := by
        rw [Nat.mul_succ] at saturatedHigh
        omega
      calc i < Usize.max := below
        _ < 2 ^ 64 := by norm_num [Usize.max]
        _ ≤ 2 ^ (bitWidth + bitWidth * height) := Nat.pow_le_pow_right (by decide) wide
    · -- both levels are exact powers of two, one `bit_width` apart
      rwa [if_neg saturatedHigh, Nat.mul_succ, Nat.add_comm] at below

theorem oneShl_of_lt {bitWidth : Nat} (narrow : bitWidth < 64) :
    Usize.oneShl bitWidth = 2 ^ bitWidth := by
  rw [Usize.oneShl, Nat.mod_eq_of_lt narrow]

theorem nodesForHeight_one {bitWidth : Nat} (narrow : bitWidth < 64) :
    nodesForHeight bitWidth 1 = 2 ^ bitWidth := by
  have exact : Usize.wrappingMul bitWidth 1 = bitWidth := by
    rw [Usize.wrappingMul_of_lt (by omega), Nat.mul_one]
  unfold nodesForHeight
  simp only [exact]
  rw [if_neg (by omega)]

/-- `Node::set` at a leaf slot that exists. -/
theorem Node.set_leaf_ok {fuel i : Nat} {val : V} {vals : List (Option V)} {prev : Option V}
    (found : vals[i]? = some prev) :
    Node.set store (fuel + 1) 0 bitWidth i val (.leaf vals) =
      .ok prev (.leaf (vals.set i (some val))) := by
  simp [Node.set, Node.setLeaf, found]

/-- `Node::set` at a link node through a slot that is empty or dirty, once the node below
returned. -/
theorem Node.set_link_ok {fuel height i : Nat} {val : V} {links : List (Option (Link V C))}
    {slot : Option (Link V C)} {child child' : Node V C} {prev : Option V}
    (inWord : height + 1 < 2 ^ 64)
    (found : links[i / nodesForHeight bitWidth (height + 1)]? = some slot)
    (notCid : ∀ key cache, slot ≠ some (.cid key cache))
    (loaded : slotChild store bitWidth (height + 1) slot = .ok child)
    (descended : Node.set store fuel height bitWidth
      (i % nodesForHeight bitWidth (height + 1)) val child = .ok prev child') :
    Node.set store (fuel + 1) (height + 1) bitWidth i val (.link links) =
      .ok prev (.link (links.set (i / nodesForHeight bitWidth (height + 1))
        (some (.dirty child')))) := by
  simp only [Node.set, Nat.add_one_ne_zero, if_false, found, wrappingSub_succ_one inWord]
  cases slot with
  | none =>
    simp only [slotChild, Except.ok.injEq] at loaded
    subst loaded
    simp only [descended]
  | some entry =>
    cases entry with
    | cid key cache => exact absurd rfl (notCid key cache)
    | dirty target =>
      simp only [slotChild, Link.load, Except.ok.injEq] at loaded
      subst loaded
      simp only [descended]

/-- Below a dense node, `Node::set` at an index within the node's reach returns `Ok` once
the fuel passes the height, and leaves the node dense. -/
theorem Dense.set_ok {fuel height i : Nat} {val : V} {node : Node V C}
    (dense : Dense bitWidth height node) (narrow : bitWidth < 64) (low : height ≤ recursionBound)
    (below : i < nodesForHeight bitWidth (height + 1)) (deep : height < fuel) :
    ∃ prev node', Node.set store fuel height bitWidth i val node = .ok prev node' ∧
      Dense bitWidth height node' := by
  induction fuel generalizing height i node with
  | zero => omega
  | succ fuel inductionHypothesis =>
    cases dense with
    | leaf vals wide =>
      have inLeaf : i < vals.length := by
        rw [wide, oneShl_of_lt narrow]
        rwa [Nat.zero_add, nodesForHeight_one narrow] at below
      exact ⟨vals[i], _, Node.set_leaf_ok (List.getElem?_eq_getElem inLeaf),
        .leaf _ (by rw [List.length_set, wide])⟩
    | link links wide inWord dirtyOnly children =>
      rename_i below'
      have inNode : i / nodesForHeight bitWidth (below' + 1) < links.length := by
        rw [wide]
        exact div_nodesForHeight_lt narrow low below
      have found := List.getElem?_eq_getElem inNode
      -- the slot is empty or dirty; either way the node below is dense
      obtain ⟨child, notCid, loaded, denseChild⟩ : ∃ child,
          (∀ key cache, links[i / nodesForHeight bitWidth (below' + 1)] ≠ some (.cid key cache)) ∧
          slotChild store bitWidth (below' + 1) links[i / nodesForHeight bitWidth (below' + 1)] =
            .ok child ∧ Dense bitWidth below' child := by
        cases slotEq : links[i / nodesForHeight bitWidth (below' + 1)] with
        | none =>
          exact ⟨_, fun _ _ => by simp, rfl, @dense_slotChild_none _ _ store _ _ _ inWord rfl⟩
        | some entry =>
          have member : some entry ∈ links := slotEq ▸ List.getElem_mem inNode
          cases entry with
          | cid key cache => exact absurd member (dirtyOnly key cache)
          | dirty child => exact ⟨child, fun _ _ => by simp, rfl, children child member⟩
      obtain ⟨prev, child', descended, denseChild'⟩ :=
        inductionHypothesis denseChild (by omega) (Nat.mod_lt _ (nodesForHeight_pos _ _))
          (by omega)
      exact ⟨prev, _, Node.set_link_ok inWord found notCid loaded descended,
        (Dense.link links wide inWord dirtyOnly children).set_slot (.inr ⟨child', rfl, denseChild'⟩)⟩

/-- `Node::delete` at a leaf slot that exists. -/
theorem Node.delete_leaf_ok {fuel height i : Nat} {vals : List (Option V)} {prev : Option V}
    (found : vals[i]? = some prev) :
    Node.delete store (fuel + 1) height bitWidth i (.leaf vals) =
      .ok prev (.leaf (vals.set i none)) := by
  simp only [Node.delete, found]

/-- `Node::delete` through an empty slot of a link node finds nothing. -/
theorem Node.delete_link_none {fuel height i : Nat} {links : List (Option (Link V C))}
    (found : links[i / nodesForHeight bitWidth height]? = some none) :
    Node.delete store (fuel + 1) height bitWidth i (.link links) = .ok none (.link links) := by
  simp only [Node.delete, found]

/-- `Node::delete` through a dirty link, once the node below returned: the slot is kept
dirty or, when the node below lost its last value, cleared. -/
theorem Node.delete_link_dirty_ok {fuel height i : Nat} {links : List (Option (Link V C))}
    {child child' : Node V C} {deleted : Option V} (inWord : height + 1 < 2 ^ 64)
    (found : links[i / nodesForHeight bitWidth (height + 1)]? = some (some (.dirty child)))
    (descended : Node.delete store fuel height bitWidth
      (i % nodesForHeight bitWidth (height + 1)) child = .ok deleted child') :
    ∃ slot, Node.delete store (fuel + 1) (height + 1) bitWidth i (.link links) =
        .ok deleted (.link (links.set (i / nodesForHeight bitWidth (height + 1)) slot)) ∧
      (slot = none ∨ slot = some (.dirty child')) := by
  simp only [Node.delete, found, wrappingSub_succ_one inWord, descended]
  cases deleted with
  | none => exact ⟨_, rfl, .inr rfl⟩
  | some deleted =>
    by_cases emptied : child'.isEmpty
    · exact ⟨none, by simp [emptied], .inl rfl⟩
    · exact ⟨_, by simp [emptied], .inr rfl⟩

/-- Below a dense node, `Node::delete` at an index within the node's reach returns `Ok`
once the fuel passes the height, and leaves the node dense. -/
theorem Dense.delete_ok {fuel height i : Nat} {node : Node V C}
    (dense : Dense bitWidth height node) (narrow : bitWidth < 64) (low : height ≤ recursionBound)
    (below : i < nodesForHeight bitWidth (height + 1)) (deep : height < fuel) :
    ∃ deleted node', Node.delete store fuel height bitWidth i node = .ok deleted node' ∧
      Dense bitWidth height node' := by
  induction fuel generalizing height i node with
  | zero => omega
  | succ fuel inductionHypothesis =>
    cases dense with
    | leaf vals wide =>
      have inLeaf : i < vals.length := by
        rw [wide, oneShl_of_lt narrow]
        rwa [Nat.zero_add, nodesForHeight_one narrow] at below
      exact ⟨vals[i], _, Node.delete_leaf_ok (List.getElem?_eq_getElem inLeaf),
        .leaf _ (by rw [List.length_set, wide])⟩
    | link links wide inWord dirtyOnly children =>
      rename_i below'
      have dense := Dense.link links wide inWord dirtyOnly children
      have inNode : i / nodesForHeight bitWidth (below' + 1) < links.length := by
        rw [wide]
        exact div_nodesForHeight_lt narrow low below
      have found := List.getElem?_eq_getElem inNode
      -- an empty slot ends the walk; a dirty one is descended into
      cases slotEq : links[i / nodesForHeight bitWidth (below' + 1)] with
      | none =>
        rw [slotEq] at found
        exact ⟨none, _, Node.delete_link_none found, dense⟩
      | some entry =>
        have member : some entry ∈ links := slotEq ▸ List.getElem_mem inNode
        rw [slotEq] at found
        cases entry with
        | cid key cache => exact absurd member (dirtyOnly key cache)
        | dirty child =>
          obtain ⟨deleted, child', descended, denseChild'⟩ :=
            inductionHypothesis (children child member) (by omega)
              (Nat.mod_lt _ (nodesForHeight_pos _ _)) (by omega)
          obtain ⟨slot, ran, cleared | kept⟩ := Node.delete_link_dirty_ok inWord found descended
          · exact ⟨deleted, _, ran, dense.set_slot (.inl cleared)⟩
          · exact ⟨deleted, _, ran, dense.set_slot (.inr ⟨child', kept, denseChild'⟩)⟩


/-- A collapsible dense node is a link node whose first slot holds a dirty link to a dense
node one level down. -/
theorem Dense.first_of_canCollapse {height : Nat} {node : Node V C}
    (dense : Dense bitWidth height node) (collapsible : node.canCollapse = true) :
    ∃ below links child, height = below + 1 ∧ node = .link links ∧
      links.head? = some (some (.dirty child)) ∧ Dense bitWidth below child := by
  cases dense with
  | leaf vals wide => simp [Node.canCollapse] at collapsible
  | link links wide inWord dirtyOnly children =>
    simp only [Node.canCollapse, Bool.and_eq_true] at collapsible
    cases headEq : links.head? with
    | none => simp [headEq] at collapsible
    | some slot =>
      cases slot with
      | none => simp [headEq] at collapsible
      | some entry =>
        have member : some entry ∈ links := List.mem_of_mem_head? headEq
        cases entry with
        | cid key cache => exact absurd member (dirtyOnly key cache)
        | dirty child => exact ⟨_, links, child, rfl, rfl, headEq, children child member⟩

end Dense

section DenseRoot

variable (store : Store V C)

/-- A root whose nodes are all dense, with a bit width from 1 to 63 and a height below 64:
`Amt::new_with_bit_width` builds one, and `set` and `delete` keep it. -/
structure Root.Dense (root : Root V C) : Prop where
  pos : 0 < root.bitWidth
  narrow : root.bitWidth < 64
  low : root.height < 64
  node : AMT.Dense root.bitWidth root.height root.node

theorem Root.Dense.new {bitWidth : Nat} (pos : 0 < bitWidth) (narrow : bitWidth < 64) :
    (Root.new bitWidth : Root V C).Dense :=
  ⟨pos, narrow, show 0 < 64 by decide, .leaf _ (length_initSizedVec _)⟩

theorem Root.Dense.shaped {root : Root V C} (dense : root.Dense) : root.Shaped store :=
  ⟨dense.narrow.le, by rw [recursionBound_eq]; have := dense.low; omega, dense.node.shaped⟩

/-- A dense root of height 63 reaches every index in range: with a bit width of at least
one, `nodes_for_height` saturates at `usize::MAX`, past `MAX_INDEX`. -/
theorem Root.Dense.not_beyond {root : Root V C} {i : Nat} (dense : root.Dense)
    (high : 63 ≤ root.height) (inRange : i ≤ maxIndex) : Amt.beyondRoot root i = false := by
  have low := dense.low
  have noWrap : root.bitWidth * (root.height + 1) < 2 ^ 64 :=
    calc root.bitWidth * (root.height + 1) ≤ 64 * 64 :=
          Nat.mul_le_mul dense.narrow.le (by omega)
      _ < 2 ^ 64 := by norm_num
  have saturated : 64 ≤ root.bitWidth * (root.height + 1) :=
    calc 64 ≤ 1 * (root.height + 1) := by omega
      _ ≤ root.bitWidth * (root.height + 1) := Nat.mul_le_mul_right _ dense.pos
  have reach : nodesForHeight root.bitWidth (root.height + 1) = Usize.max := by
    unfold nodesForHeight
    simp only [Usize.wrappingMul_of_lt noWrap]
    rw [if_pos saturated]
  rw [Bool.eq_false_iff, ne_eq, beyondRoot_iff (by omega), reach]
  unfold Usize.max
  unfold maxIndex at inRange
  omega

/-- One round of the growth loop below height 63 keeps a root dense. -/
theorem Root.Dense.grow {root : Root V C} (dense : root.Dense) (short : root.height < 63) :
    root.grow.Dense ∧ root.grow.height = root.height + 1 := by
  have inWord : root.height + 1 < 2 ^ 64 := by omega
  have heightEq : root.grow.height = root.height + 1 := by
    rw [Root.grow_height, Usize.wrappingAdd_of_lt inWord]
  refine ⟨⟨by rw [Root.grow_bitWidth]; exact dense.pos,
    by rw [Root.grow_bitWidth]; exact dense.narrow, by omega, ?_⟩, heightEq⟩
  rw [Root.grow_bitWidth, heightEq]
  unfold Root.grow
  split
  · -- the old root node moves into the first slot of a new link node
    exact (Dense.link_initSizedVec inWord).set_slot (.inr ⟨_, rfl, dense.node⟩)
  · exact Dense.link_initSizedVec inWord

/-- From a dense root, the growth loop of `Amt::set` returns a dense root that reaches the
index, once its fuel covers the rounds up to height 63. -/
theorem Root.Dense.growLoop_ok {i fuel : Nat} {root : Root V C} (dense : root.Dense)
    (inRange : i ≤ maxIndex) (enough : 63 ≤ root.height + fuel) :
    ∃ grown, Amt.growLoop i fuel root = .ok grown ∧ grown.Dense ∧
      Amt.beyondRoot grown i = false := by
  induction fuel generalizing root with
  | zero =>
    have inside := dense.not_beyond (by omega) inRange
    exact ⟨root, by rw [Amt.growLoop, if_neg (by simp [inside])], dense, inside⟩
  | succ fuel inductionHypothesis =>
    by_cases beyond : Amt.beyondRoot root i = true
    · -- only a root below height 63 can lie short of the index
      have short : root.height < 63 := by
        by_contra high
        rw [dense.not_beyond (by omega) inRange] at beyond
        cases beyond
      obtain ⟨denseGrown, heightEq⟩ := dense.grow short
      obtain ⟨grown, grew, denseFinal, inside⟩ :=
        inductionHypothesis denseGrown (by rw [heightEq]; omega)
      exact ⟨grown, by rw [Amt.growLoop, if_pos beyond]; exact grew, denseFinal, inside⟩
    · exact ⟨root, by rw [Amt.growLoop, if_neg beyond], dense, by simpa using beyond⟩

/-- `Amt::set` at an index in range returns `Ok` on a dense root and keeps it dense. -/
theorem Root.Dense.set_ok {root : Root V C} {i : Nat} (dense : root.Dense)
    (inRange : i ≤ maxIndex) (val : V) :
    ∃ root', Amt.set store i val root = .ok () root' ∧ root'.Dense := by
  obtain ⟨grown, grew, denseGrown, inside⟩ :=
    dense.growLoop_ok inRange (show 63 ≤ root.height + recursionBound by rw [recursionBound_eq]; omega)
  have low := denseGrown.low
  have below : i < nodesForHeight grown.bitWidth (grown.height + 1) := by
    have reach : Amt.beyondRoot grown i = true ↔
        nodesForHeight grown.bitWidth (grown.height + 1) ≤ i :=
      beyondRoot_iff (by omega)
    rw [inside] at reach
    exact Nat.lt_of_not_le fun past => Bool.false_ne_true (reach.mpr past)
  have stored : ∃ prev node', Node.set store recursionBound grown.height grown.bitWidth i val
      grown.node = .ok prev node' ∧ AMT.Dense grown.bitWidth grown.height node' :=
    denseGrown.node.set_ok denseGrown.narrow (by rw [recursionBound_eq]; omega) below
      (by rw [recursionBound_eq]; omega)
  obtain ⟨prev, node', ran, denseNode'⟩ := stored
  refine ⟨{ grown with
    node := node'
    count := if prev.isNone then Usize.wrappingAdd grown.count 1 else grown.count },
    ?_, ⟨denseGrown.pos, denseGrown.narrow, low, denseNode'⟩⟩
  unfold Amt.set
  rw [if_neg (Nat.not_lt.mpr inRange)]
  simp only [grew, ran]

/-- The collapse loop moves a dirty first link up without loading anything. -/
theorem collapseLoop_dirty {fuel : Nat} {root : Root V C} {links : List (Option (Link V C))}
    {child : Node V C} (collapsible : (root.node.canCollapse && decide (root.height > 0)) = true)
    (linked : root.node = .link links) (first : links.head? = some (some (.dirty child))) :
    Amt.collapseLoop store (fuel + 1) root =
      Amt.collapseLoop store fuel { root with node := child, height := root.height - 1 } := by
  conv_lhs => unfold Amt.collapseLoop
  simp only [collapsible, ↓reduceIte]
  simp only [linked, first]

theorem collapseLoop_stop {fuel : Nat} {root : Root V C}
    (stuck : (root.node.canCollapse && decide (root.height > 0)) = false) :
    Amt.collapseLoop store fuel root = .ok () root := by
  unfold Amt.collapseLoop
  simp only [stuck, Bool.false_eq_true, ↓reduceIte]

/-- Moving the node behind the first link of a dense root up one level keeps the root
dense. -/
theorem Root.Dense.moveUp {root : Root V C} {below : Nat} {child : Node V C}
    (dense : root.Dense) (heightEq : root.height = below + 1)
    (denseChild : AMT.Dense root.bitWidth below child) :
    Root.Dense { root with node := child, height := root.height - 1 } :=
  ⟨dense.pos, dense.narrow, show root.height - 1 < 64 by have := dense.low; omega,
    by dsimp only; rw [heightEq, Nat.add_sub_cancel]; exact denseChild⟩

/-- On a dense root the collapse loop of `Amt::delete` returns `Ok` once its fuel passes
the height, and leaves the root dense. -/
theorem Root.Dense.collapseLoop_ok {fuel : Nat} {root : Root V C} (dense : root.Dense)
    (deep : root.height < fuel) :
    ∃ root', Amt.collapseLoop store fuel root = .ok () root' ∧ root'.Dense := by
  induction fuel generalizing root with
  | zero => omega
  | succ fuel inductionHypothesis =>
    by_cases collapsible : (root.node.canCollapse && decide (root.height > 0)) = true
    · have canCollapse : root.node.canCollapse = true := by
        simp only [Bool.and_eq_true] at collapsible
        exact collapsible.1
      obtain ⟨below, links, child, heightEq, linked, first, denseChild⟩ :=
        dense.node.first_of_canCollapse canCollapse
      obtain ⟨root', ran, dense'⟩ :=
        inductionHypothesis (dense.moveUp heightEq denseChild) (show root.height - 1 < fuel by omega)
      exact ⟨root', by rw [collapseLoop_dirty store collapsible linked first]; exact ran, dense'⟩
    · exact ⟨root, collapseLoop_stop store (by simpa using collapsible), dense⟩

/-- `Amt::delete` at an index in range returns `Ok` on a dense root and keeps it dense. -/
theorem Root.Dense.delete_ok {root : Root V C} {i : Nat} (dense : root.Dense)
    (inRange : i ≤ maxIndex) :
    ∃ deleted root', Amt.delete store i root = .ok deleted root' ∧ root'.Dense := by
  have low := dense.low
  unfold Amt.delete
  rw [if_neg (Nat.not_lt.mpr inRange)]
  by_cases beyond : Amt.beyondRoot root i = true
  · exact ⟨none, root, by rw [if_pos beyond], dense⟩
  rw [if_neg beyond]
  have below : i < nodesForHeight root.bitWidth (root.height + 1) := by
    rw [beyondRoot_iff (by omega)] at beyond
    omega
  have removed : ∃ deleted node', Node.delete store recursionBound root.height root.bitWidth i
      root.node = .ok deleted node' ∧ AMT.Dense root.bitWidth root.height node' :=
    dense.node.delete_ok dense.narrow (by rw [recursionBound_eq]; omega) below
      (by rw [recursionBound_eq]; omega)
  obtain ⟨deleted, node', ran, denseNode'⟩ := removed
  have counted : ∀ count, Root.Dense { root with node := node', count := count } :=
    fun _ => ⟨dense.pos, dense.narrow, low, denseNode'⟩
  cases deleted with
  | none => exact ⟨none, _, by simp only [ran], counted root.count⟩
  | some value =>
    by_cases emptied : node'.isEmpty = true
    · -- an emptied root is reset to a leaf
      refine ⟨some value, { root with
        node := .leaf (initSizedVec root.bitWidth)
        height := 0
        count := Usize.wrappingSub root.count 1 }, by simp only [ran, emptied, if_true], ?_⟩
      exact ⟨dense.pos, dense.narrow, show 0 < 64 by decide, .leaf _ (length_initSizedVec _)⟩
    · have kept : node'.isEmpty = false := by simpa using emptied
      obtain ⟨root', collapsed, dense'⟩ :=
        (counted (Usize.wrappingSub root.count 1)).collapseLoop_ok store
          (show root.height < recursionBound by rw [recursionBound_eq]; omega)
      exact ⟨some value, root', by simp only [ran, kept, Bool.false_eq_true, ↓reduceIte, collapsed],
        dense'⟩

/-- The index a call acts on. -/
def Op.index : Op V → Nat
  | .set i _ => i
  | .delete i => i

/-- From a dense root, every sequence of calls at indices in range runs through. -/
theorem Root.Dense.run_ok {root : Root V C} (dense : root.Dense) (ops : List (Op V))
    (inRange : ∀ op ∈ ops, op.index ≤ maxIndex) :
    ∃ final, Run store root ops final ∧ final.Dense := by
  induction ops generalizing root with
  | nil => exact ⟨root, .nil root, dense⟩
  | cons op rest inductionHypothesis =>
    have restInRange : ∀ op ∈ rest, op.index ≤ maxIndex :=
      fun op member => inRange op (List.mem_cons_of_mem _ member)
    have opInRange := inRange op List.mem_cons_self
    cases op with
    | set i val =>
      obtain ⟨middle, ran, denseMiddle⟩ := dense.set_ok store opInRange val
      obtain ⟨final, run, denseFinal⟩ := inductionHypothesis denseMiddle restInRange
      exact ⟨final, .set ran run, denseFinal⟩
    | delete i =>
      obtain ⟨deleted, middle, ran, denseMiddle⟩ := dense.delete_ok store opInRange
      obtain ⟨final, run, denseFinal⟩ := inductionHypothesis denseMiddle restInRange
      exact ⟨final, .delete ran run, denseFinal⟩

/-- From `Amt::new_with_bit_width` with a bit width from 1 to 63, every sequence of `set`
and `delete` calls at indices up to `MAX_INDEX` runs through with each call returning `Ok`,
whatever the store holds, and ends at a root that stands for the sparse array the same calls
build. -/
theorem amt_in_range_calls_succeed {bitWidth : Nat} (pos : 0 < bitWidth) (narrow : bitWidth < 64)
    (ops : List (Op V)) (inRange : ∀ op ∈ ops, op.index ≤ maxIndex) :
    ∃ final, Run store (Root.new bitWidth) ops final ∧ Represents store final (Op.replay ops) := by
  obtain ⟨final, run, -⟩ := (Root.Dense.new pos narrow).run_ok store ops inRange
  exact ⟨final, run, (Represents.new narrow.le).run run⟩

theorem amt_in_range_calls_succeed_at_max_index :
    ∃ final, Run (fun _ => none : Store Nat Nat) (Root.new 3) [.set maxIndex 7, .delete 0] final ∧
      Represents (fun _ => none) final (Op.replay [.set maxIndex 7, .delete 0]) :=
  amt_in_range_calls_succeed (fun _ => none) (by decide) (by decide) _
    (by simp [Op.index])

end DenseRoot

end Forest.AMT
