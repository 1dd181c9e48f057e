import Mathlib
import Forest.Hamt.Node
import Forest.Hamt.HashAlgorithm
import Forest.Lib.ByteOrder
import Forest.Lib.Result

namespace Forest.HAMT

/-!
# The `Hamt` handle

`hamt.rs` wraps a root node, the bit width and a reference to the block store.  The
mutating methods run a node program on the root, so that, as in the source, a root
changed before an `Err` keeps its change.  `flush` stores the dirty sub-nodes and then
the root, and returns the root's CID together with the grown store.
-/

/-- `Hamt`: the root node and the bit width (the store is passed to each call). -/
structure Hamt (K V C : Type) where
  root : Node K V C
  bitWidth : Nat

/-- A program over a whole HAMT. -/
abbrev HamtM (K V C α : Type) := EStateM (Failure C) (Hamt K V C) α

variable {K V C : Type}

namespace Hamt

/-- `Hamt::new_with_bit_width`. -/
def newWithBitWidth (bitWidth : Nat) : Hamt K V C where
  root := Node.default
  bitWidth := bitWidth

/-- `Hamt::new`. -/
def new : Hamt K V C :=
  newWithBitWidth defaultBitWidth

/-- `Hamt::load_with_bit_width`: the root stored under `cid`. -/
def loadWithBitWidth (store : Store K V C) (cid : C) (bitWidth : Nat) :
    Except (Failure C) (Hamt K V C) :=
  match store cid with
  | some ser => .ok { root := ser.toNode, bitWidth := bitWidth }
  | none => .error (.error (.cidNotFound cid))

/-- `Hamt::load`. -/
def load (store : Store K V C) (cid : C) : Except (Failure C) (Hamt K V C) :=
  loadWithBitWidth store cid defaultBitWidth

/-- Run a node program on the root, keeping the root it leaves behind also on failure. -/
def onRoot {α : Type} (program : NodeM K V C α) : HamtM K V C α := fun hamt =>
  match program hamt.root with
  | .ok value root => .ok value { hamt with root := root }
  | .error e root => .error e { hamt with root := root }

/-- `Hamt::is_empty`. -/
def isEmpty (hamt : Hamt K V C) : Bool :=
  hamt.root.isEmpty

section Operations

variable [LinearOrder K] [DecidableEq V] (env : Env K V C) (store : Store K V C)

/-- `Node::set`: `modify_value` from the root with the key's full hash. -/
def setNode (bitWidth : Nat) (key : K) (value : V) (overwrite : Bool) :
    NodeM K V C (Option V × Bool) :=
  modifyValue env store recursionBound (HashBits.new (env.hash key)) bitWidth 0 key value
    overwrite

/-- `Hamt::set`: insert or overwrite, returning the old value. -/
def set (key : K) (value : V) : HamtM K V C (Option V) := fun hamt =>
  match onRoot (setNode env store hamt.bitWidth key value true) hamt with
  | .ok (old, _) hamt' => .ok old hamt'
  | .error e hamt' => .error e hamt'

/-- `Hamt::set_if_absent`: insert only a new key, returning whether it was inserted. -/
def setIfAbsent (key : K) (value : V) : HamtM K V C Bool := fun hamt =>
  match onRoot (setNode env store hamt.bitWidth key value false) hamt with
  | .ok (_, inserted) hamt' => .ok inserted hamt'
  | .error e hamt' => .error e hamt'

/-- `Hamt::get`. -/
def get (key : K) (hamt : Hamt K V C) : Except (Failure C) (Option V) :=
  (getValue store recursionBound (HashBits.new (env.hash key)) hamt.bitWidth 0 key
    hamt.root).map (Option.map KeyValuePair.value)

/-- `Hamt::delete`: remove a key, returning the removed pair. -/
def delete (key : K) : HamtM K V C (Option (K × V)) := fun hamt =>
  onRoot (rmValue store recursionBound (HashBits.new (env.hash key)) hamt.bitWidth 0 key)
    hamt

/-- `Hamt::for_each`: the pairs in the order the callback sees them. -/
def forEach (hamt : Hamt K V C) : Except (Failure C) (List (K × V)) :=
  (Forest.HAMT.forEach store recursionBound hamt.root).map
    (List.map fun kv => (kv.key, kv.value))

end Operations

/-- `Hamt::flush`: store the dirty nodes, then the root, and return the root's CID. -/
def flush [DecidableEq C] (env : Env K V C) (store : Store K V C) (hamt : Hamt K V C) :
    C × Hamt K V C × Store K V C :=
  let (root, rootSer, store₁) := hamt.root.flush env store
  let (cid, store₂) := Store.put env store₁ rootSer
  (cid, { hamt with root := root }, store₂)

/-- `BytesKey` keys hashed with `Identity`, with CIDs numbering nodes by their bitfield. -/
def identityEnv : Env (List UInt8) Nat Nat where
  hash := identityHash
  cidOf ser := ser.bitfield.bits.toNat

/--
Four keys sharing their first byte fill one root bucket and split it into a sub-shard at
bit width 8; after a flush the root points at that sub-shard through a link.  Deleting a
fifth key with the same first byte then finds its slot in the sub-shard empty, and the
link branch of `rm_value` cleans the untouched link.
-/
def deleteAbsentUnderLink : EStateM.Result (Failure Nat) (Hamt (List UInt8) Nat Nat)
    (Option (List UInt8 × Nat)) :=
  let store : Store (List UInt8) Nat Nat := fun _ => none
  let filled : HamtM (List UInt8) Nat Nat (Option Nat) := do
    let _ ← set identityEnv store [0, 1] 1
    let _ ← set identityEnv store [0, 2] 2
    let _ ← set identityEnv store [0, 3] 3
    set identityEnv store [0, 4] 4
  match filled (newWithBitWidth 8) with
  | .ok _ hamt =>
    let (_, flushed, store') := flush identityEnv store hamt
    delete identityEnv store' [0, 5] flushed
  | .error e hamt => .error e hamt

/-- Deleting an absent key whose path reaches a link panics in `Pointer::clean` instead of
returning `Ok(None)`. -/
theorem deleteAbsentUnderLink_panics :
    deleteAbsentUnderLink.failure? = some (.panic "clean is only called on dirty pointer") := by
  decide +kernel

end Hamt

end Forest.HAMT
