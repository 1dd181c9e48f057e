import Mathlib
import Forest.Hamt.Hamt

namespace Forest.HAMT

/-!
# The overflow split of `modify_value`

A key that lands in a full bucket makes `modify_value` split it: the bucket is moved out
with `mem::take`, the new key goes into a fresh sub-node, and the old pairs are re-inserted
into that sub-node one by one.  An error in the re-insertion loop returns with the bucket
already emptied, its slot still occupied.

Four keys that share every digest bit make the loop fail at every bit width: each level's
bucket fills again and splits one level further down, until `HashBits::next` runs out of
bits and fails with `MaxDepth`.  The step lemmas say what one level does with a bucket of
room, a full bucket whose sub-insert fails and one whose re-insertion fails;
`reinsertAll_of_colliding` chains them by induction on the fuel, and
`set_loses_colliding_keys` runs the four `set`s from an empty HAMT.
-/

variable {K V C : Type}

namespace Node

/-- A node with one occupied slot. -/
def single (idx : Nat) (child : Pointer K V C) : Node K V C :=
  .mk (Bitfield.zero.setBit idx) [child]

theorem testBit_single {idx : Nat} (slot : idx < 256) (child : Pointer K V C) :
    (single idx child).bitfield.testBit idx = true :=
  Bitfield.testBit_setBit_self slot

theorem indexForBitPos_single (idx : Nat) (child : Pointer K V C) :
    (single idx child).indexForBitPos idx = 0 :=
  Bitfield.countOnes_of_bits_zero (Bitfield.bits_setBitsLe_and_setBit idx)

@[simp] theorem getChild_single (idx : Nat) (child : Pointer K V C) :
    (single idx child).getChild 0 = .ok child := rfl

@[simp] theorem setChild_single (idx : Nat) (child other : Pointer K V C) :
    (single idx child).setChild 0 other = single idx other := rfl

theorem insertChild_default (idx : Nat) (key : K) (value : V) :
    (Node.insertChild idx key value : NodeM K V C Unit) Node.default =
      .ok () (single idx (.values [⟨key, value⟩])) := by
  have first : (Node.default : Node K V C).indexForBitPos idx = 0 :=
    Bitfield.countOnes_of_bits_zero (Bitfield.bits_and_zero _)
  simp [insertChild, first, single]

end Node

section Split

variable [LinearOrder K] [DecidableEq V]

/-- The loop of the split that moves the pairs of the full bucket below the new node, each
from the digest bits the bucket's level has used. -/
def reinsertAll (env : Env K V C) (store : Store K V C) (fuel : Nat) (consumed : UInt32)
    (bitWidth depth : Nat)    (overwrite : Bool) (vals : List (KeyValuePair K V)) : NodeM K V C Unit :=
  vals.forM fun p => do
    let _ ← modifyValue env store fuel (HashBits.newAtIndex (env.hash p.key) consumed)
      bitWidth depth p.key p.value overwrite


/-- Where a bucket with room takes a new pair: before the first pair with a greater key. -/
def bucketInsert (vals : List (KeyValuePair K V)) (pair : KeyValuePair K V) :
    List (KeyValuePair K V) :=
  vals.insertIdx ((vals.findIdx? (fun c => decide (c.key > pair.key))).getD vals.length) pair

omit [DecidableEq V] in
theorem perm_bucketInsert (vals : List (KeyValuePair K V)) (pair : KeyValuePair K V) :
    (bucketInsert vals pair).Perm (pair :: vals) := by
  apply List.perm_insertIdx
  cases found : vals.findIdx? (fun c => decide (c.key > pair.key)) with
  | none => simp
  | some position =>
    obtain ⟨below, -⟩ := List.findIdx?_eq_some_iff_getElem.mp found
    simpa using below.le

omit [DecidableEq V] in
theorem findIdx?_key_eq_none {vals : List (KeyValuePair K V)} {key : K}
    (absent : key ∉ vals.map (·.key)) : vals.findIdx? (·.key = key) = none := by
  rw [List.findIdx?_eq_none_iff]
  intro pair member
  have : pair.key ≠ key := fun same => absent (List.mem_map.mpr ⟨pair, member, same⟩)
  simpa using this

omit [DecidableEq V] in
theorem find?_key_of_mem {vals : List (KeyValuePair K V)} {pair : KeyValuePair K V}
    (member : pair ∈ vals) (unique : (vals.map (·.key)).Nodup) :
    vals.find? (·.key = pair.key) = some pair := by
  cases found : vals.find? (·.key = pair.key) with
  | none =>
    have := List.find?_eq_none.mp found pair member
    simp at this
  | some other =>
    have sameKey : other.key = pair.key := by simpa using List.find?_some found
    have otherMember : other ∈ vals := List.mem_of_find?_eq_some found
    rw [List.inj_on_of_nodup_map unique otherMember member sameKey]

variable {env : Env K V C} {store : Store K V C}
variable {fuel bitWidth depth idx : Nat} {hashedKey after : HashBits} {key : K} {value : V}
  {overwrite : Bool}

/-- A level whose digest bits have run out fails with the error of `next`, the node as it was. -/
theorem modifyValue_of_next_error {node : Node K V C} {failure : Failure C}
    (failed : hashedKey.next (C := C) bitWidth = .error failure) :
    modifyValue env store (fuel + 1) hashedKey bitWidth depth key value overwrite node =
      .error failure node := by
  simp [modifyValue, failed]

theorem modifyValue_default (indexed : hashedKey.next (C := C) bitWidth = .ok (idx, after)) :
    modifyValue env store (fuel + 1) hashedKey bitWidth depth key value overwrite Node.default =
      .ok (none, true) (Node.single idx (.values [⟨key, value⟩])) := by
  simp only [modifyValue, indexed, EStateM.liftExcept_ok, EStateM.pure_bind, EStateM.get_bind,
    Node.bitfield_default, Bitfield.testBit_zero, Bool.not_false, if_true]
  exact EStateM.map_apply_of_ok (Node.insertChild_default idx key value)

theorem modifyValue_single_room (indexed : hashedKey.next (C := C) bitWidth = .ok (idx, after))
    (slot : idx < 256) {vals : List (KeyValuePair K V)}
    (absent : vals.findIdx? (·.key = key) = none) (room : vals.length < maxArrayWidth) :
    modifyValue env store (fuel + 1) hashedKey bitWidth depth key value overwrite
        (Node.single idx (.values vals)) =
      .ok (none, true) (Node.single idx (.values (bucketInsert vals ⟨key, value⟩))) := by
  have notFull : ¬ maxArrayWidth ≤ vals.length := by omega
  simp [modifyValue, indexed, Node.testBit_single slot, Node.indexForBitPos_single, absent, notFull,
    bucketInsert]
  exact EStateM.map_apply_of_ok (EStateM.set_apply _ _)

theorem modifyValue_single_full_of_sub_error
    (indexed : hashedKey.next (C := C) bitWidth = .ok (idx, after)) (slot : idx < 256)
    {vals : List (KeyValuePair K V)} (absent : vals.findIdx? (·.key = key) = none)
    (full : maxArrayWidth ≤ vals.length) {failure : Failure C} {sub : Node K V C}
    (failed : modifyValue env store fuel after bitWidth (depth + 1) key value overwrite
      Node.default = .error failure sub) :
    modifyValue env store (fuel + 1) hashedKey bitWidth depth key value overwrite
        (Node.single idx (.values vals)) = .error failure (Node.single idx (.values vals)) := by
  simp [modifyValue, indexed, Node.testBit_single slot, Node.indexForBitPos_single, absent, full,
    failed]

theorem modifyValue_single_full_of_reinsert_error
    (indexed : hashedKey.next (C := C) bitWidth = .ok (idx, after)) (slot : idx < 256)
    {vals : List (KeyValuePair K V)} (absent : vals.findIdx? (·.key = key) = none)
    (full : maxArrayWidth ≤ vals.length) {modified : Option V × Bool} {sub sub' : Node K V C}
    {failure : Failure C}
    (inserted : modifyValue env store fuel after bitWidth (depth + 1) key value overwrite
      Node.default = .ok modified sub)
    (failed : reinsertAll env store fuel after.consumed bitWidth (depth + 1) overwrite vals sub =
      .error failure sub') :
    modifyValue env store (fuel + 1) hashedKey bitWidth depth key value overwrite
        (Node.single idx (.values vals)) = .error failure (Node.single idx (.values [])) := by
  simp only [reinsertAll, bind_pure_comp, List.forM_eq_forM] at failed
  simp [modifyValue, indexed, Node.testBit_single slot, Node.indexForBitPos_single, absent, full,
    inserted, failed]

theorem reinsertAll_cons_of_ok {consumed : UInt32} {pair : KeyValuePair K V}
    {rest : List (KeyValuePair K V)} {node node' : Node K V C} {result : Option V × Bool}
    (ran : modifyValue env store fuel (HashBits.newAtIndex (env.hash pair.key) consumed) bitWidth
      depth pair.key pair.value overwrite node = .ok result node') :
    reinsertAll env store fuel consumed bitWidth depth overwrite (pair :: rest) node =
      reinsertAll env store fuel consumed bitWidth depth overwrite rest node' := by
  simp only [reinsertAll]
  exact EStateM.bind_apply_of_ok (EStateM.bind_apply_of_ok ran)

theorem reinsertAll_cons_of_error {consumed : UInt32} {pair : KeyValuePair K V}
    {rest : List (KeyValuePair K V)} {node node' : Node K V C} {failure : Failure C}
    (failed : modifyValue env store fuel (HashBits.newAtIndex (env.hash pair.key) consumed)
      bitWidth depth pair.key pair.value overwrite node = .error failure node') :
    reinsertAll env store fuel consumed bitWidth depth overwrite (pair :: rest) node =
      .error failure node' := by
  simp only [reinsertAll]
  exact EStateM.bind_apply_of_error (EStateM.bind_apply_of_error failed)

/-- Three pairs whose keys share one digest with a fourth never fit back under the sub-node
that holds the fourth: the first two fill its bucket, the third makes it split one level
further down, and so on until the digest runs out and `next` fails with `MaxDepth`.

The induction is on the fuel, which stays above the digest bits left at the bucket's level. -/
theorem reinsertAll_of_colliding (positive : 0 < bitWidth) {hash : HashedKey} :
    ∀ (fuel : Nat) (consumed : UInt32) (depth idx : Nat) (fresh : KeyValuePair K V)
      (olds : List (KeyValuePair K V)),
      256 - consumed.toNat < fuel →
      (HashBits.newAtIndex hash consumed).next (C := C) bitWidth =
        .ok (idx, HashBits.newAtIndex hash (consumed + UInt32.ofNat bitWidth)) →
      olds.length = maxArrayWidth → ((fresh :: olds).map (·.key)).Nodup →
      (∀ pair ∈ fresh :: olds, env.hash pair.key = hash) →
      ∃ sub, reinsertAll env store fuel consumed bitWidth depth overwrite olds
        (Node.single idx (.values [fresh])) = .error (.error .maxDepth) sub := by
  intro fuel
  induction fuel with
  | zero =>
    intro consumed _ _ _ _ enough
    omega
  | succ fuel inductionHypothesis =>
    intro consumed depth idx fresh olds enough indexed three distinct collide
    obtain ⟨below, narrow, within, -⟩ := HashBits.next_eq_ok positive indexed
    replace within : consumed.toNat + bitWidth ≤ 256 := within
    have advanced : (consumed + UInt32.ofNat bitWidth).toNat = consumed.toNat + bitWidth :=
      HashBits.toNat_consumed_add (by omega)
    have slot : idx < 256 :=
      lt_of_lt_of_le below (Nat.pow_le_pow_right (by decide) narrow : 2 ^ bitWidth ≤ 2 ^ 8)
    obtain ⟨first, second, third, rfl⟩ := List.length_eq_three.mp three
    have indexedAt : ∀ pair ∈ fresh :: [first, second, third],
        (HashBits.newAtIndex (env.hash pair.key) consumed).next (C := C) bitWidth =
          .ok (idx, HashBits.newAtIndex hash (consumed + UInt32.ofNat bitWidth)) := by
      intro pair member
      rw [collide pair member]
      exact indexed
    have keys := distinct
    simp only [List.map_cons, List.map_nil, List.nodup_cons, List.mem_cons, List.not_mem_nil,
      or_false, not_or] at keys
    obtain ⟨⟨freshFirst, freshSecond, freshThird⟩, ⟨firstSecond, firstThird⟩, secondThird, -⟩ := keys
    -- the first two pairs go into the bucket, which then holds three
    have firstRan : modifyValue env store (fuel + 1)
        (HashBits.newAtIndex (env.hash first.key) consumed) bitWidth depth first.key first.value
        overwrite (Node.single idx (.values [fresh])) =
          .ok (none, true) (Node.single idx (.values (bucketInsert [fresh] first))) :=
      modifyValue_single_room (indexedAt first (by simp)) slot
        (findIdx?_key_eq_none (by simpa using Ne.symm freshFirst)) (by simp [maxArrayWidth])
    have firstBucket := perm_bucketInsert [fresh] first
    have secondRan : modifyValue env store (fuel + 1)
        (HashBits.newAtIndex (env.hash second.key) consumed) bitWidth depth second.key second.value
        overwrite (Node.single idx (.values (bucketInsert [fresh] first))) =
          .ok (none, true)
            (Node.single idx (.values (bucketInsert (bucketInsert [fresh] first) second))) := by
      refine modifyValue_single_room (indexedAt second (by simp)) slot
        (findIdx?_key_eq_none ?_) ?_
      · rw [(firstBucket.map _).mem_iff]
        simpa using ⟨Ne.symm firstSecond, Ne.symm freshSecond⟩
      · simp [firstBucket.length_eq, maxArrayWidth]
    -- the third finds the bucket full and splits it
    have settled : (bucketInsert (bucketInsert [fresh] first) second).Perm [second, first, fresh] :=
      (perm_bucketInsert _ second).trans (.cons second firstBucket)
    have thirdAbsent :
        (bucketInsert (bucketInsert [fresh] first) second).findIdx? (·.key = third.key) = none := by
      apply findIdx?_key_eq_none
      rw [(settled.map _).mem_iff]
      simpa using ⟨Ne.symm secondThird, Ne.symm firstThird, Ne.symm freshThird⟩
    have full : maxArrayWidth ≤ (bucketInsert (bucketInsert [fresh] first) second).length := by
      simp [settled.length_eq, maxArrayWidth]
    have reordered :
        (third :: bucketInsert (bucketInsert [fresh] first) second).Perm
          (fresh :: [first, second, third]) :=
      (settled.cons third).trans (List.reverse_perm [fresh, first, second, third])
    obtain ⟨fuel, rfl⟩ : ∃ rest, fuel = rest + 1 := ⟨fuel - 1, by omega⟩
    have thirdFails : ∃ node, modifyValue env store (fuel + 1 + 1)
        (HashBits.newAtIndex (env.hash third.key) consumed) bitWidth depth third.key third.value
        overwrite (Node.single idx (.values (bucketInsert (bucketInsert [fresh] first) second))) =
          .error (.error .maxDepth) node := by
      by_cases deeper : consumed.toNat + bitWidth + bitWidth ≤ 256
      · -- the sub-node takes the third, and the two others overflow it in turn
        obtain ⟨idx', -, indexed'⟩ : ∃ value, value < 2 ^ bitWidth ∧
            (HashBits.newAtIndex hash (consumed + UInt32.ofNat bitWidth)).next (C := C) bitWidth =
              .ok (value, HashBits.newAtIndex hash
                (consumed + UInt32.ofNat bitWidth + UInt32.ofNat bitWidth)) :=
          HashBits.next_spec positive narrow (show (consumed + UInt32.ofNat bitWidth).toNat + bitWidth ≤ 256
            by omega)
        have inserted : modifyValue env store (fuel + 1)
            (HashBits.newAtIndex hash (consumed + UInt32.ofNat bitWidth)) bitWidth (depth + 1)
            third.key third.value overwrite Node.default =
              .ok (none, true) (Node.single idx' (.values [third])) :=
          modifyValue_default indexed'
        obtain ⟨sub, loopFails⟩ := inductionHypothesis (consumed + UInt32.ofNat bitWidth) (depth + 1)
          idx' third (bucketInsert (bucketInsert [fresh] first) second) (by omega) indexed'
          (by simp [settled.length_eq, maxArrayWidth]) ((reordered.map _).nodup_iff.mpr distinct)
          (fun pair member => collide pair (reordered.subset member))
        exact ⟨_, modifyValue_single_full_of_reinsert_error (indexedAt third (by simp)) slot
          thirdAbsent full inserted loopFails⟩
      · -- the digest has no bits left for the sub-node
        have exhausted : modifyValue env store (fuel + 1)
            (HashBits.newAtIndex hash (consumed + UInt32.ofNat bitWidth)) bitWidth (depth + 1)
            third.key third.value overwrite Node.default = .error (.error .maxDepth) Node.default :=
          modifyValue_of_next_error (HashBits.next_of_exhausted narrow
            (show 256 < (consumed + UInt32.ofNat bitWidth).toNat + bitWidth by omega)
            (show (consumed + UInt32.ofNat bitWidth).toNat + bitWidth < 2 ^ 32 by omega))
        exact ⟨_, modifyValue_single_full_of_sub_error (indexedAt third (by simp)) slot
          thirdAbsent full exhausted⟩
    obtain ⟨node, thirdRan⟩ := thirdFails
    refine ⟨node, ?_⟩
    rw [reinsertAll_cons_of_ok firstRan, reinsertAll_cons_of_ok secondRan,
      reinsertAll_cons_of_error thirdRan]

omit [DecidableEq V] in
theorem getValue_single (indexed : hashedKey.next (C := C) bitWidth = .ok (idx, after))
    (slot : idx < 256) (vals : List (KeyValuePair K V)) :
    getValue store (fuel + 1) hashedKey bitWidth depth key (Node.single idx (.values vals)) =
      .ok (vals.find? (·.key = key)) := by
  simp [getValue, indexed, Node.testBit_single slot, Node.indexForBitPos_single]
  rfl

end Split

namespace Hamt

section Set

variable [LinearOrder K] [DecidableEq V] {env : Env K V C} {store : Store K V C}
  {hamt : Hamt K V C} {key : K} {value : V}

theorem set_of_setNode_ok {old : Option V} {modified : Bool} {root : Node K V C}
    (ran : setNode env store hamt.bitWidth key value true hamt.root = .ok (old, modified) root) :
    set env store key value hamt = .ok old { hamt with root := root } := by
  simp [set, onRoot, ran]

theorem set_of_setNode_error {failure : Failure C} {root : Node K V C}
    (failed : setNode env store hamt.bitWidth key value true hamt.root = .error failure root) :
    set env store key value hamt = .error failure { hamt with root := root } := by
  simp [set, onRoot, failed]

omit [DecidableEq V] in
theorem get_of_bucket_root {idx : Nat} {vals : List (KeyValuePair K V)} {after : HashBits}
    (rooted : hamt.root = Node.single idx (.values vals))
    (indexed : (HashBits.new (env.hash key)).next (C := C) hamt.bitWidth = .ok (idx, after))
    (slot : idx < 256) :
    get env store key hamt = .ok ((vals.find? (·.key = key)).map KeyValuePair.value) := by
  have read : getValue store (256 + 1) (HashBits.new (env.hash key)) hamt.bitWidth 0 key
      (Node.single idx (.values vals)) = .ok (vals.find? (·.key = key)) :=
    getValue_single indexed slot vals
  simp only [get, rooted, recursionBound]
  rw [read]
  rfl

omit [DecidableEq V] in
theorem get_of_bucket_mem {idx : Nat} {vals : List (KeyValuePair K V)} {after : HashBits}
    {pair : KeyValuePair K V} (rooted : hamt.root = Node.single idx (.values vals))
    (indexed : (HashBits.new (env.hash pair.key)).next (C := C) hamt.bitWidth = .ok (idx, after))
    (slot : idx < 256) (member : pair ∈ vals) (unique : (vals.map (·.key)).Nodup) :
    get env store pair.key hamt = .ok (some pair.value) := by
  rw [get_of_bucket_root rooted indexed slot, find?_key_of_mem member unique]
  rfl

/-- A `set` whose key shares every digest bit with the three pairs of a full bucket at the
root fails with `MaxDepth` and leaves the bucket empty. -/
theorem setNode_of_full_colliding {bitWidth idx : Nat} (positive : 0 < bitWidth)
    {hash : HashedKey} {key : K} {value : V} {bucket : List (KeyValuePair K V)}
    (indexed : (HashBits.new hash).next (C := C) bitWidth =
      .ok (idx, HashBits.newAtIndex hash (0 + UInt32.ofNat bitWidth)))
    (three : bucket.length = maxArrayWidth) (distinct : ((⟨key, value⟩ :: bucket).map (·.key)).Nodup)
    (collide : ∀ pair ∈ ⟨key, value⟩ :: bucket, env.hash pair.key = hash) :
    setNode env store bitWidth key value true (Node.single idx (.values bucket)) =
      .error (.error .maxDepth) (Node.single idx (.values [])) := by
  obtain ⟨below, narrow, within, -⟩ := HashBits.next_eq_ok positive indexed
  replace within : bitWidth ≤ 256 := by simpa [HashBits.new, HashBits.newAtIndex] using within
  have slot : idx < 256 :=
    lt_of_lt_of_le below (Nat.pow_le_pow_right (by decide) narrow : 2 ^ bitWidth ≤ 2 ^ 8)
  have rooted : (HashBits.new (env.hash key)).next (C := C) bitWidth =
      .ok (idx, HashBits.newAtIndex hash (0 + UInt32.ofNat bitWidth)) := by
    rw [collide ⟨key, value⟩ (by simp)]
    exact indexed
  have advanced : ((0 : UInt32) + UInt32.ofNat bitWidth).toNat = bitWidth := by
    rw [HashBits.toNat_consumed_add (by simp; omega), UInt32.toNat_zero, Nat.zero_add]
  -- the sub-node takes the new pair one level down
  obtain ⟨idx', -, indexed'⟩ : ∃ value, value < 2 ^ bitWidth ∧
      (HashBits.newAtIndex hash (0 + UInt32.ofNat bitWidth)).next (C := C) bitWidth =
        .ok (value, HashBits.newAtIndex hash (0 + UInt32.ofNat bitWidth + UInt32.ofNat bitWidth)) :=
    HashBits.next_spec positive narrow
      (show ((0 : UInt32) + UInt32.ofNat bitWidth).toNat + bitWidth ≤ 256 by omega)
  have inserted : modifyValue env store (255 + 1)
      (HashBits.newAtIndex hash (0 + UInt32.ofNat bitWidth)) bitWidth (0 + 1) key value true
      Node.default = .ok (none, true) (Node.single idx' (.values [⟨key, value⟩])) :=
    modifyValue_default indexed'
  obtain ⟨sub, loopFails⟩ : ∃ sub, reinsertAll env store (255 + 1) (0 + UInt32.ofNat bitWidth)
      bitWidth (0 + 1) true bucket (Node.single idx' (.values [⟨key, value⟩])) =
        .error (.error .maxDepth) sub :=
    reinsertAll_of_colliding positive (255 + 1) (0 + UInt32.ofNat bitWidth) (0 + 1) idx' ⟨key, value⟩
      bucket (by omega) indexed' three distinct collide
  exact modifyValue_single_full_of_reinsert_error rooted slot
    (findIdx?_key_eq_none (List.nodup_cons.mp distinct).1) three.ge inserted loopFails

/-- Four keys that share every digest bit: three `set`s from an empty HAMT fill one bucket,
the fourth `set` fails with `MaxDepth`, and the HAMT it leaves has lost the three keys it
held, since the split had already emptied their bucket. -/
theorem set_loses_colliding_keys {bitWidth : Nat} (positive : 0 < bitWidth)
    (narrow : bitWidth ≤ 8) {k1 k2 k3 k4 : K} {v1 v2 v3 v4 : V} (distinct : [k1, k2, k3, k4].Nodup)
    (collide : ∀ k ∈ [k2, k3, k4], env.hash k = env.hash k1) :
    ∃ first second third lost,
      set env store k1 v1 (newWithBitWidth bitWidth) = .ok none first ∧
      set env store k2 v2 first = .ok none second ∧
      set env store k3 v3 second = .ok none third ∧
      get env store k1 third = .ok (some v1) ∧ get env store k2 third = .ok (some v2) ∧
      get env store k3 third = .ok (some v3) ∧
      set env store k4 v4 third = .error (.error .maxDepth) lost ∧
      get env store k1 lost = .ok none ∧ get env store k2 lost = .ok none ∧
      get env store k3 lost = .ok none := by
  -- at the root every key reads the slot of the shared digest
  obtain ⟨idx, below, indexed⟩ : ∃ value, value < 2 ^ bitWidth ∧
      (HashBits.new (env.hash k1)).next (C := C) bitWidth =
        .ok (value, HashBits.newAtIndex (env.hash k1) (0 + UInt32.ofNat bitWidth)) :=
    HashBits.next_spec positive narrow (by simp [HashBits.new, HashBits.newAtIndex]; omega)
  have slot : idx < 256 :=
    lt_of_lt_of_le below (Nat.pow_le_pow_right (by decide) narrow : 2 ^ bitWidth ≤ 2 ^ 8)
  have rooted : ∀ k ∈ [k1, k2, k3, k4], (HashBits.new (env.hash k)).next (C := C) bitWidth =
      .ok (idx, HashBits.newAtIndex (env.hash k1) (0 + UInt32.ofNat bitWidth)) := by
    intro k member
    rcases List.mem_cons.mp member with rfl | later
    · exact indexed
    · rw [collide k later]
      exact indexed
  have keys := distinct
  simp only [List.nodup_cons, List.mem_cons, List.not_mem_nil, or_false, not_or] at keys
  obtain ⟨⟨k1k2, k1k3, k1k4⟩, ⟨k2k3, k2k4⟩, k3k4, -⟩ := keys
  -- the three sets fill the root's bucket
  have ran1 : setNode env store bitWidth k1 v1 true Node.default =
      .ok (none, true) (Node.single idx (.values [⟨k1, v1⟩])) :=
    modifyValue_default (rooted k1 (by simp))
  have ran2 : setNode env store bitWidth k2 v2 true (Node.single idx (.values [⟨k1, v1⟩])) =
      .ok (none, true) (Node.single idx (.values (bucketInsert [⟨k1, v1⟩] ⟨k2, v2⟩))) :=
    modifyValue_single_room (rooted k2 (by simp)) slot
      (findIdx?_key_eq_none (by simpa using Ne.symm k1k2)) (by simp [maxArrayWidth])
  have order2 := perm_bucketInsert [⟨k1, v1⟩] ⟨k2, v2⟩
  have ran3 : setNode env store bitWidth k3 v3 true
      (Node.single idx (.values (bucketInsert [⟨k1, v1⟩] ⟨k2, v2⟩))) =
        .ok (none, true) (Node.single idx
          (.values (bucketInsert (bucketInsert [⟨k1, v1⟩] ⟨k2, v2⟩) ⟨k3, v3⟩))) := by
    refine modifyValue_single_room (rooted k3 (by simp)) slot (findIdx?_key_eq_none ?_) ?_
    · rw [(order2.map _).mem_iff]
      simpa using ⟨Ne.symm k2k3, Ne.symm k1k3⟩
    · simp [order2.length_eq, maxArrayWidth]
  have order3 : (bucketInsert (bucketInsert [⟨k1, v1⟩] ⟨k2, v2⟩) ⟨k3, v3⟩).Perm
      [⟨k3, v3⟩, ⟨k2, v2⟩, ⟨k1, v1⟩] :=
    (perm_bucketInsert _ _).trans (.cons _ order2)
  have unique : ((bucketInsert (bucketInsert [⟨k1, v1⟩] ⟨k2, v2⟩) ⟨k3, v3⟩).map (·.key)).Nodup := by
    rw [(order3.map _).nodup_iff]
    simpa using ⟨⟨Ne.symm k2k3, Ne.symm k1k3⟩, Ne.symm k1k2⟩
  -- the fourth set splits the bucket, and the re-insertion runs out of digest bits
  have order4 : (⟨k4, v4⟩ :: bucketInsert (bucketInsert [⟨k1, v1⟩] ⟨k2, v2⟩) ⟨k3, v3⟩).Perm
      [⟨k4, v4⟩, ⟨k3, v3⟩, ⟨k2, v2⟩, ⟨k1, v1⟩] := order3.cons _
  have failed4 : setNode env store bitWidth k4 v4 true (Node.single idx
      (.values (bucketInsert (bucketInsert [⟨k1, v1⟩] ⟨k2, v2⟩) ⟨k3, v3⟩))) =
        .error (.error .maxDepth) (Node.single idx (.values [])) := by
    refine setNode_of_full_colliding positive indexed (by simp [order3.length_eq, maxArrayWidth])
      ?_ ?_
    · rw [(order4.map _).nodup_iff]
      simpa using ⟨⟨Ne.symm k3k4, Ne.symm k2k4, Ne.symm k1k4⟩, ⟨Ne.symm k2k3, Ne.symm k1k3⟩,
        Ne.symm k1k2⟩
    · intro pair member
      have listed := order4.subset member
      simp only [List.mem_cons, List.not_mem_nil, or_false] at listed
      rcases listed with rfl | rfl | rfl | rfl
      · exact collide k4 (by simp)
      · exact collide k3 (by simp)
      · exact collide k2 (by simp)
      · rfl
  -- reading the keys back before and after the failed set
  have held : ∀ pair ∈ [(⟨k3, v3⟩ : KeyValuePair K V), ⟨k2, v2⟩, ⟨k1, v1⟩],
      get env store pair.key (Hamt.mk (Node.single idx
        (.values (bucketInsert (bucketInsert [⟨k1, v1⟩] ⟨k2, v2⟩) ⟨k3, v3⟩))) bitWidth) =
        .ok (some pair.value) := by
    intro pair member
    have listed : pair.key ∈ [k1, k2, k3, k4] := by
      simp only [List.mem_cons, List.not_mem_nil, or_false] at member
      rcases member with rfl | rfl | rfl <;> simp
    exact get_of_bucket_mem rfl (rooted pair.key listed) slot (order3.mem_iff.mpr member) unique
  have gone : ∀ k ∈ [k1, k2, k3],
      get env store k (Hamt.mk (Node.single idx (.values [])) bitWidth) = .ok none := by
    intro k member
    have listed : k ∈ [k1, k2, k3, k4] := by
      simp only [List.mem_cons, List.not_mem_nil, or_false] at member
      rcases member with rfl | rfl | rfl <;> simp
    rw [get_of_bucket_root rfl (rooted k listed) slot]
    rfl
  refine ⟨_, _, _, _, set_of_setNode_ok ran1, set_of_setNode_ok ran2, set_of_setNode_ok ran3,
    held ⟨k1, v1⟩ (by simp), held ⟨k2, v2⟩ (by simp), held ⟨k3, v3⟩ (by simp),
    set_of_setNode_error failed4, gone k1 (by simp), gone k2 (by simp), gone k3 (by simp)⟩

/-- A key of 33 bytes whose first 32 are zero: under `Identity` every such key has the
all-zero digest. -/
def zeroDigestKey (last : UInt8) : List UInt8 :=
  List.replicate 32 0 ++ [last]

theorem set_loses_colliding_keys_zero_digest :
    [zeroDigestKey 1, zeroDigestKey 2, zeroDigestKey 3, zeroDigestKey 4].Nodup ∧
    (∀ k ∈ [zeroDigestKey 2, zeroDigestKey 3, zeroDigestKey 4],
      identityEnv.hash k = identityEnv.hash (zeroDigestKey 1)) ∧
    ∃ first second third lost,
      set identityEnv (fun _ => none) (zeroDigestKey 1) 1 (newWithBitWidth 8) = .ok none first ∧
      set identityEnv (fun _ => none) (zeroDigestKey 2) 2 first = .ok none second ∧
      set identityEnv (fun _ => none) (zeroDigestKey 3) 3 second = .ok none third ∧
      get identityEnv (fun _ => none) (zeroDigestKey 1) third = .ok (some 1) ∧
      get identityEnv (fun _ => none) (zeroDigestKey 2) third = .ok (some 2) ∧
      get identityEnv (fun _ => none) (zeroDigestKey 3) third = .ok (some 3) ∧
      set identityEnv (fun _ => none) (zeroDigestKey 4) 4 third = .error (.error .maxDepth) lost ∧
      get identityEnv (fun _ => none) (zeroDigestKey 1) lost = .ok none ∧
      get identityEnv (fun _ => none) (zeroDigestKey 2) lost = .ok none ∧
      get identityEnv (fun _ => none) (zeroDigestKey 3) lost = .ok none :=
  have distinct : [zeroDigestKey 1, zeroDigestKey 2, zeroDigestKey 3, zeroDigestKey 4].Nodup := by
    decide
  have collide : ∀ k ∈ [zeroDigestKey 2, zeroDigestKey 3, zeroDigestKey 4],
      identityEnv.hash k = identityEnv.hash (zeroDigestKey 1) := by
    decide
  ⟨distinct, collide, set_loses_colliding_keys (by decide) (by decide) distinct collide⟩

end Set

end Hamt

end Forest.HAMT
