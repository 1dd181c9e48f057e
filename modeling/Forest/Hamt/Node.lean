import Forest.Hamt.HashBits
import Forest.Hamt.Bitfield
import Mathlib.Data.List.Sort
import Mathlib.Order.Defs.LinearOrder

namespace Forest.HAMT

/-!
# HAMT nodes and pointers

This module embeds `node.rs` and `pointer.rs`.  A node holds its occupancy bitfield
and, in slot order, one pointer per set bit.  A pointer is a sorted bucket of at most
`MAX_ARRAY_WIDTH` pairs, a `Link` to a stored node together with its lazily filled
cache, or a `Dirty` node modified since the last flush.

The `&mut self` methods are programs in `EStateM` over the node: as in Rust, a change
made before an `Err` is returned stays in place.  The recursion into a child either
goes into a sub-term or through the store, so it is bounded by `fuel`; see
`recursionBound`.

What the code takes from outside is a parameter `Env`: the key hash (`HashAlgorithm`)
and the content address of a serialised node (`store.put(node, Blake2b256)`).  Keys
carry a linear order: the buckets are kept sorted with `PartialOrd`, and every key type
used with the HAMT in this repository is totally ordered.
-/

/-- `MAX_ARRAY_WIDTH`: a bucket holds at most this many pairs. -/
def maxArrayWidth : Nat := 3

/-- `DEFAULT_BIT_WIDTH`. -/
def defaultBitWidth : Nat := 8

/--
The recursion bound handed to every descent.

Each level consumes `bit_width` bits of the 256-bit digest and `HashBits::next` fails
once they are exhausted, so for a bit width of at least one the source recurses at most
257 levels deep; only at bit width zero does it recurse without end.
-/
def recursionBound : Nat := 257

/-- `KeyValuePair(K, V)`. -/
structure KeyValuePair (K V : Type) where
  key : K
  value : V
  deriving DecidableEq, Repr

mutual

/-- `Pointer`: a bucket of pairs, a link to a stored node with its cache, or a node
modified since the last flush. -/
inductive Pointer (K V C : Type) where
  | values (vals : List (KeyValuePair K V))
  | link (cid : C) (cache : Option (Node K V C))
  | dirty (node : Node K V C)

/-- `Node`: the bitfield of occupied slots and their pointers in slot order. -/
inductive Node (K V C : Type) where
  | mk (bitfield : Bitfield) (pointers : List (Pointer K V C))

end

/-- `PointerSer`/`PointerDe`: a pointer as it is stored, its bucket or its link. -/
inductive PointerSer (K V C : Type) where
  | vals (kvs : List (KeyValuePair K V))
  | link (cid : C)
  deriving DecidableEq, Repr

/-- A node as it is stored: the tuple `(bitfield, pointers)`. -/
structure NodeSer (K V C : Type) where
  bitfield : Bitfield
  pointers : List (PointerSer K V C)
  deriving DecidableEq, Repr

/-- The block store as `MemoryDB` keeps it: serialised nodes by content address. -/
abbrev Store (K V C : Type) := C → Option (NodeSer K V C)

/-- What the HAMT code takes from outside the repository. -/
structure Env (K V C : Type) where
  /-- `H::hash`: the digest of a key. -/
  hash : K → HashedKey
  /-- The CID that `store.put(node, Blake2b256)` assigns to a serialised node. -/
  cidOf : NodeSer K V C → C

/-- A program over one node: `&mut self` together with `Result<_, Error>`. -/
abbrev NodeM (K V C α : Type) := EStateM (Failure C) (Node K V C) α

variable {K V C : Type}

namespace Store

/-- `store.put(node, Blake2b256)`: record the serialised node under its CID. -/
def put [DecidableEq C] (env : Env K V C) (store : Store K V C) (ser : NodeSer K V C) :
    C × Store K V C :=
  let cid := env.cidOf ser
  (cid, fun c => if c = cid then some ser else store c)

end Store

/-- `Pointer::from(PointerDe)`: a stored link comes back with an empty cache. -/
def PointerSer.toPointer : PointerSer K V C → Pointer K V C
  | .vals kvs => .values kvs
  | .link cid => .link cid none

/-- `Node::deserialize`. -/
def NodeSer.toNode (ser : NodeSer K V C) : Node K V C :=
  .mk ser.bitfield (ser.pointers.map PointerSer.toPointer)

/-- The node behind a link: its cache, or else the store (`CidNotFound` when absent). -/
def loadLink (store : Store K V C) (cid : C) : Option (Node K V C) →
    Except (Failure C) (Node K V C)
  | some node => .ok node
  | none =>
    match store cid with
    | some ser => .ok ser.toNode
    | none => .error (.error (.cidNotFound cid))

namespace Node

/-- The occupancy bitfield of a node. -/
def bitfield : Node K V C → Bitfield
  | .mk bitfield _ => bitfield

/-- The pointers of a node, in slot order. -/
def pointers : Node K V C → List (Pointer K V C)
  | .mk _ pointers => pointers

@[simp] theorem bitfield_mk (bitfield : Bitfield) (pointers : List (Pointer K V C)) :
    (Node.mk bitfield pointers).bitfield = bitfield := rfl

@[simp] theorem pointers_mk (bitfield : Bitfield) (pointers : List (Pointer K V C)) :
    (Node.mk bitfield pointers).pointers = pointers := rfl

/-- `Node::default`: no slot occupied. -/
def default : Node K V C :=
  .mk Bitfield.zero []

@[simp] theorem bitfield_default : (default : Node K V C).bitfield = Bitfield.zero := rfl

@[simp] theorem pointers_default : (default : Node K V C).pointers = [] := rfl

/-- `Node::is_empty`. -/
def isEmpty (node : Node K V C) : Bool :=
  node.pointers.isEmpty

/--
`index_for_bit_pos`: the position of slot `bp` among the pointers, the number of
occupied slots below it.  The source first asserts that the mask has `bp` bits set,
which holds for every slot index below 256.
-/
def indexForBitPos (node : Node K V C) (bp : Nat) : Nat :=
  ((Bitfield.zero.setBitsLe bp).and node.bitfield).countOnes

/-- `get_child`/`get_child_mut`: indexing `self.pointers[i]`, which panics past the end. -/
def getChild (node : Node K V C) (i : Nat) : Except (Failure C) (Pointer K V C) :=
  match node.pointers[i]? with
  | some child => .ok child
  | none => .error (.panic "index out of bounds")

/-- Assign through `get_child_mut(i)`. -/
def setChild (node : Node K V C) (i : Nat) (child : Pointer K V C) : Node K V C :=
  .mk node.bitfield (node.pointers.set i child)

/-- `insert_child`: occupy slot `idx` with a one-pair bucket (`Vec::insert` panics when the
position is past the end). -/
def insertChild (idx : Nat) (key : K) (value : V) : NodeM K V C Unit := do
  let node ← get
  let i := node.indexForBitPos idx
  if i ≤ node.pointers.length then
    set (Node.mk (node.bitfield.setBit idx)
      (node.pointers.insertIdx i (.values [⟨key, value⟩])))
  else
    throw (.panic "insertion index out of bounds")

/-- `rm_child`: free slot `idx` and remove its pointer at position `i`. -/
def rmChild (node : Node K V C) (i idx : Nat) : Node K V C :=
  .mk (node.bitfield.clearBit idx) (node.pointers.eraseIdx i)

end Node

/-- The pairs of a list of pointers when every one of them is a bucket. -/
def bucketValues : List (Pointer K V C) → Option (List (KeyValuePair K V))
  | [] => some []
  | .values vals :: rest => (bucketValues rest).map (vals ++ ·)
  | _ :: _ => none

/--
`Pointer::clean`, called on a modified child after a delete.  A sub-shard left with a
single bucket, or with two or three buckets holding at most `MAX_ARRAY_WIDTH` pairs
together, collapses into one bucket sorted by key.  The source sorts with
`sort_unstable_by`; the keys of a bucket are distinct, so every sort gives the
order of insertion sort.
On every path that returns `Err` the pointer is unchanged.
-/
def Pointer.clean [LinearOrder K] : Pointer K V C → Except (Failure C) (Pointer K V C)
  | .dirty node =>
    match node.pointers with
    | [] => .error (.error .zeroPointers)
    | [.values vals] => .ok (.values vals)
    | [_] => .ok (.dirty node)
    | pointers =>
      if pointers.length ≤ maxArrayWidth then
        match bucketValues pointers with
        | some childVals =>
          if childVals.length > maxArrayWidth then
            .ok (.dirty node)
          else
            .ok (.values (childVals.insertionSort fun a b => a.key ≤ b.key))
        | none => .ok (.dirty node)
      else
        .ok (.dirty node)
  | _ => .error (.panic "clean is only called on dirty pointer")

section Operations

variable [LinearOrder K] [DecidableEq V] (env : Env K V C) (store : Store K V C)

/--
`Node::modify_value`: insert or overwrite `key` below this node.

The result is the old value (when overwritten) and whether the node was modified.  A
full bucket is split into a fresh sub-shard: the new pair goes in first, then the old
pairs, re-hashed from the bits consumed so far; the old bucket is emptied before they
are re-inserted.
-/
def modifyValue : Nat → HashBits → Nat → Nat → K → V → Bool → NodeM K V C (Option V × Bool)
  | 0, _, _, _, _, _, _ => throw .stackOverflow
  | fuel + 1, hashedKey, bitWidth, depth, key, value, overwrite => do
    let (idx, hashedKey) ← liftExcept (hashedKey.next (C := C) bitWidth)
    let node ← get
    if !node.bitfield.testBit idx then
      Node.insertChild idx key value
      return (none, true)
    let cindex := node.indexForBitPos idx
    let child ← liftExcept (node.getChild cindex)
    match child with
    | .link cid cache =>
      let childNode ← liftExcept (loadLink store cid cache)
      match modifyValue fuel hashedKey bitWidth (depth + 1) key value overwrite childNode with
      | .ok (old, modified) childNode' =>
        if modified then
          set (node.setChild cindex (.dirty childNode'))
        else
          set (node.setChild cindex (.link cid (some childNode')))
        return (old, modified)
      | .error e childNode' =>
        set (node.setChild cindex (.link cid (some childNode')))
        throw e
    | .dirty n =>
      match modifyValue fuel hashedKey bitWidth (depth + 1) key value overwrite n with
      | .ok result n' =>
        set (node.setChild cindex (.dirty n'))
        return result
      | .error e n' =>
        set (node.setChild cindex (.dirty n'))
        throw e
    | .values vals =>
      match vals.findIdx? (·.key = key) with
      | some i =>
        if overwrite then
          match vals[i]? with
          | some kv =>
            set (node.setChild cindex (.values (vals.set i ⟨kv.key, value⟩)))
            return (some kv.value, decide (kv.value ≠ value))
          | none => throw (.panic "index out of bounds")
        else
          return (none, false)
      | none =>
        if vals.length ≥ maxArrayWidth then
          let consumed := hashedKey.consumed
          match modifyValue fuel hashedKey bitWidth (depth + 1) key value overwrite
              Node.default with
          | .error e _ => throw e
          | .ok modified sub =>
            set (node.setChild cindex (.values []))
            let reinsert : NodeM K V C Unit := vals.forM fun p => do
              let _ ← modifyValue fuel (HashBits.newAtIndex (env.hash p.key) consumed)
                bitWidth (depth + 1) p.key p.value overwrite
            match reinsert sub with
            | .error e _ => throw e
            | .ok () sub' =>
              set (node.setChild cindex (.dirty sub'))
              return modified
        else
          let pos := (vals.findIdx? (fun c => decide (c.key > key))).getD vals.length
          set (node.setChild cindex (.values (vals.insertIdx pos ⟨key, value⟩)))
          return (none, true)

/--
`Node::rm_value`: remove `key` below this node, returning the removed pair.

After descending into a link or a dirty child the child pointer is cleaned, also when
nothing was removed; a bucket that loses its last pair frees its slot.
-/
def rmValue : Nat → HashBits → Nat → Nat → K → NodeM K V C (Option (K × V))
  | 0, _, _, _, _ => throw .stackOverflow
  | fuel + 1, hashedKey, bitWidth, depth, key => do
    let (idx, hashedKey) ← liftExcept (hashedKey.next (C := C) bitWidth)
    let node ← get
    if !node.bitfield.testBit idx then
      return none
    let cindex := node.indexForBitPos idx
    let child ← liftExcept (node.getChild cindex)
    match child with
    | .link cid cache =>
      let childNode ← liftExcept (loadLink store cid cache)
      match rmValue fuel hashedKey bitWidth (depth + 1) key childNode with
      | .error e childNode' =>
        set (node.setChild cindex (.link cid (some childNode')))
        throw e
      | .ok deleted childNode' =>
        let child' : Pointer K V C :=
          if deleted.isSome then .dirty childNode' else .link cid (some childNode')
        match child'.clean with
        | .ok cleaned =>
          set (node.setChild cindex cleaned)
          return deleted
        | .error e =>
          set (node.setChild cindex child')
          throw e
    | .dirty n =>
      match rmValue fuel hashedKey bitWidth (depth + 1) key n with
      | .error e n' =>
        set (node.setChild cindex (.dirty n'))
        throw e
      | .ok deleted n' =>
        match (Pointer.dirty n').clean with
        | .ok cleaned =>
          set (node.setChild cindex cleaned)
          return deleted
        | .error e =>
          set (node.setChild cindex (.dirty n'))
          throw e
    | .values vals =>
      match vals.findIdx? (·.key = key) with
      | none => return none
      | some i =>
        match vals[i]? with
        | none => throw (.panic "index out of bounds")
        | some kv =>
          if vals.length = 1 then
            set (node.rmChild cindex idx)
          else
            set (node.setChild cindex (.values (vals.eraseIdx i)))
          return some (kv.key, kv.value)

/-- `Node::get_value`: the pair stored for `key` below this node.  Filling a link's cache
on the way is not recorded: it changes no result. -/
def getValue : Nat → HashBits → Nat → Nat → K → Node K V C →
    Except (Failure C) (Option (KeyValuePair K V))
  | 0, _, _, _, _, _ => .error .stackOverflow
  | fuel + 1, hashedKey, bitWidth, depth, key, node => do
    let (idx, hashedKey) ← hashedKey.next bitWidth
    if !node.bitfield.testBit idx then
      return none
    let child ← node.getChild (node.indexForBitPos idx)
    match child with
    | .link cid cache =>
      let childNode ← loadLink store cid cache
      getValue fuel hashedKey bitWidth (depth + 1) key childNode
    | .dirty n => getValue fuel hashedKey bitWidth (depth + 1) key n
    | .values vals => return vals.find? (·.key = key)

/-- `Node::for_each`: the pairs below this node in visiting order (the callback's calls). -/
def forEach : Nat → Node K V C → Except (Failure C) (List (KeyValuePair K V))
  | 0, _ => .error .stackOverflow
  | fuel + 1, node => do
    let visits ← node.pointers.mapM fun
      | .link cid cache => do
        let childNode ← loadLink store cid cache
        forEach fuel childNode
      | .dirty n => forEach fuel n
      | .values vals => pure vals
    return visits.flatten

end Operations

section Flush

variable [DecidableEq C] (env : Env K V C)

mutual

/--
`Node::flush`: store every dirty child, bottom-up, and replace it by a link whose cache
keeps the flushed node.  Alongside the new node it returns the node's serialised form,
which `store.put` hashes; after the children are flushed no dirty pointer is left, so
serialisation cannot fail.
-/
def Node.flush : Node K V C → Store K V C → Node K V C × NodeSer K V C × Store K V C
  | .mk bitfield pointers, store =>
    let (pointers', sers, store') := flushPointers pointers store
    (.mk bitfield pointers', ⟨bitfield, sers⟩, store')

/-- The loop of `Node::flush` over the pointers of one node. -/
def flushPointers : List (Pointer K V C) → Store K V C →
    List (Pointer K V C) × List (PointerSer K V C) × Store K V C
  | [], store => ([], [], store)
  | pointer :: rest, store =>
    let (pointer', ser, store') :=
      match pointer with
      | .values vals => (Pointer.values vals, PointerSer.vals vals, store)
      | .link cid cache => (Pointer.link cid cache, PointerSer.link cid, store)
      | .dirty node =>
        let (node', nodeSer, store₁) := node.flush store
        let (cid, store₂) := Store.put env store₁ nodeSer
        (Pointer.link cid (some node'), PointerSer.link cid, store₂)
    let (rest', sers, store'') := flushPointers rest store'
    (pointer' :: rest', ser :: sers, store'')

end

end Flush

end Forest.HAMT
