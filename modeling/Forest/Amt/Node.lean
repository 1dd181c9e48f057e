import Forest.Lib.Usize
import Mathlib.Data.Nat.Bitwise

namespace Forest.AMT

/-!
# AMT nodes

`node.rs` of the AMT crate: a node at height zero is a leaf holding up to `2^bit_width`
values, and a node above it holds as many links, each to a node one level down.  A link
is either a CID with a lazily filled cache or a `Dirty` node changed since the last
flush.  A node is stored collapsed: a bitmap of the occupied slots and the list of the
occupants, links or values.

Index arithmetic is on `usize` in a release build: `nodes_for_height` saturates at
`usize::MAX`, `height - 1` and `bit_width * height` wrap, and `1 << bit_width` takes the
shift modulo 64.  The `&mut self` methods are `EStateM` programs over the node, so a
change made before an `Err` stays.  A descent through the links is bounded by `fuel`.
-/

/-- `DEFAULT_BIT_WIDTH`. -/
def defaultBitWidth : Nat := 3

/-- `MAX_HEIGHT`. -/
def maxHeight : Nat := 64

/-- `MAX_INDEX`: `u64::MAX - 1`. -/
def maxIndex : Nat := 2 ^ 64 - 2

/-- The fuel handed to every descent and every loop over the height: a root has height at
most `MAX_HEIGHT`, and a node at height `h` recurses at most `h` times. -/
def recursionBound : Nat := maxHeight + 2

/-- `nodes_for_height`: `2^(bit_width * height)`, saturated at `usize::MAX`. -/
def nodesForHeight (bitWidth height : Nat) : Nat :=
  let heightLogTwo := Usize.wrappingMul bitWidth height
  if heightLogTwo ≥ 64 then Usize.max else 2 ^ heightLogTwo

/-- `init_sized_vec`: `1 << bit_width` empty slots. -/
def initSizedVec {α : Type} (bitWidth : Nat) : List (Option α) :=
  List.replicate (Usize.oneShl bitWidth) none

/-- `bmap_bytes`: the length of a stored bitmap. -/
def bmapBytes (bitWidth : Nat) : Nat :=
  if bitWidth ≤ 3 then 1 else Usize.oneShl (bitWidth - 3)

/-- The AMT `Error` enum, restricted to the variants the trie code raises.  `CidNotFound`
carries the missing link rather than its rendering.  `Dynamic` is split by what it
wraps: an AMT error raised while decoding a root, or a block that does not decode. -/
inductive Error (C : Type) where
  | outOfRange (index : Nat)
  | maxHeight (height max : Nat)
  | cached
  | linksAndValues
  | cidNotFound (cid : C)
  | dynamic (cause : Error C)
  | dynamicDecode
  | other (message : String)
  deriving DecidableEq, Repr

/-- How a modelled call ends when it does not return `Ok`: an `Err`, a panic, or a loop
or recursion that the source never leaves. -/
inductive Failure (C : Type) where
  | error (e : Error C)
  | panic (message : String)
  | diverges
  deriving DecidableEq, Repr

/-- The panic of an out-of-bounds `links[idx]`. -/
def indexOutOfBounds (len index : Nat) : String :=
  s!"index out of bounds: the len is {len} but the index is {index}"

mutual

/-- `Link`: a stored node by CID with its cache, or a node modified since the last flush. -/
inductive Link (V C : Type) where
  | cid (cid : C) (cache : Option (Node V C))
  | dirty (node : Node V C)

/-- `Node`: a shard of links above height zero, or a leaf of values. -/
inductive Node (V C : Type) where
  | link (links : List (Option (Link V C)))
  | leaf (vals : List (Option V))

end

/-- `CollapsedNode`: a node as stored, its bitmap bytes with its links or its values. -/
structure CollapsedNode (V C : Type) where
  bmap : List UInt8
  links : List C
  values : List V
  deriving DecidableEq, Repr

/-- A stored block: an inner node, or a `Root` (bit width, height, count and node). -/
inductive Block (V C : Type) where
  | node (node : CollapsedNode V C)
  | root (bitWidth height count : Nat) (node : CollapsedNode V C)
  deriving DecidableEq, Repr

/-- The block store as `MemoryDB` keeps it. -/
abbrev Store (V C : Type) := C → Option (Block V C)

/-- The CID that `store.put(_, Blake2b256)` assigns to a block. -/
abbrev CidOf (V C : Type) := Block V C → C

/-- A program over one node. -/
abbrev NodeM (V C α : Type) := EStateM (Failure C) (Node V C) α

variable {V C : Type}

/-- Whether slot `i` is marked in a stored bitmap: `bmap[i / 8] & (1 << (i % 8)) != 0`. -/
def bmapTest (bmap : List UInt8) (i : Nat) : Bool :=
  (bmap.getD (i / 8) 0).toNat.testBit (i % 8)

/-- The loop of `CollapsedNode::expand` over `count` slots from slot `i`: a marked slot
takes the next occupant, failing with `missing` when none is left; the occupants left
over are returned. -/
def fillSlots {α : Type} (bmap : List UInt8) (missing : String) :
    Nat → Nat → List α → Except String (List (Option α) × List α)
  | 0, _, items => .ok ([], items)
  | count + 1, i, items =>
    if bmapTest bmap i then
      match items with
      | [] => .error missing
      | item :: rest =>
        match fillSlots bmap missing count (i + 1) rest with
        | .ok (slots, left) => .ok (some item :: slots, left)
        | .error e => .error e
    else
      match fillSlots bmap missing count (i + 1) items with
      | .ok (slots, left) => .ok (none :: slots, left)
      | .error e => .error e

/-- `CollapsedNode::expand`: rebuild a node of `1 << bit_width` slots. -/
def CollapsedNode.expand (collapsed : CollapsedNode V C) (bitWidth : Nat) :
    Except (Error C) (Node V C) :=
  let width := Usize.oneShl bitWidth
  if !collapsed.links.isEmpty && !collapsed.values.isEmpty then
    .error .linksAndValues
  else if bmapBytes bitWidth ≠ collapsed.bmap.length then
    let expected := bmapBytes bitWidth
    let found := collapsed.bmap.length
    .error (.other
      s!"expected bitfield of length {expected}, found bitfield with length {found}")
  else if !collapsed.links.isEmpty then
    match fillSlots collapsed.bmap "Bitmap contained more set bits than links provided" width 0
        (collapsed.links.map fun cid => Link.cid cid none) with
    | .error e => .error (.other e)
    | .ok (links, []) => .ok (.link links)
    | .ok (_, _ :: _) => .error (.other "Bitmap contained less set bits than links provided")
  else
    match fillSlots collapsed.bmap "Bitmap contained more set bits than values provided" width
        0 collapsed.values with
    | .error e => .error (.other e)
    | .ok (vals, []) => .ok (.leaf vals)
    | .ok (_, _ :: _) => .error (.other "Bitmap contained less set bits than values provided")

/-- The bitmap that `Serialize for Node` writes: `((len - 1) / 8) + 1` zero bytes, then
`bmap[i / 8] |= 1 << (i % 8)` for every occupied slot `i`. -/
def bmapOf {α : Type} (slots : List (Option α)) : List UInt8 :=
  slots.zipIdx.foldl
    (fun bmap (slot, i) =>
      if slot.isSome then bmap.modify (i / 8) (· ||| (1 : UInt8) <<< (i % 8).toUInt8) else bmap)
    (List.replicate ((slots.length - 1) / 8 + 1) 0)

/-- The CIDs of a link node in slot order, or `Cached` when a link is still dirty. -/
def collapseLinks : List (Option (Link V C)) → Except (Error C) (List C)
  | [] => .ok []
  | none :: rest => collapseLinks rest
  | some (.cid cid _) :: rest =>
    match collapseLinks rest with
    | .ok cids => .ok (cid :: cids)
    | .error e => .error e
  | some (.dirty _) :: _ => .error .cached

/-- `Serialize for Node`: the collapsed form of a node. -/
def Node.collapse : Node V C → Except (Error C) (CollapsedNode V C)
  | .leaf vals => .ok ⟨bmapOf vals, [], vals.filterMap id⟩
  | .link links =>
    match collapseLinks links with
    | .ok cids => .ok ⟨bmapOf links, cids, []⟩
    | .error e => .error e

/-- The node behind a link to `cid`: the cache, or else the store, expanded at the bit
width (`cache.get_or_try_init`). -/
def loadLink (store : Store V C) (bitWidth : Nat) (cid : C) :
    Option (Node V C) → Except (Failure C) (Node V C)
  | some node => .ok node
  | none =>
    match store cid with
    | some (.node collapsed) =>
      match collapsed.expand bitWidth with
      | .ok node => .ok node
      | .error e => .error (.error e)
    | some (.root ..) => .error (.error .dynamicDecode)
    | none => .error (.error (.cidNotFound cid))

namespace Node

/-- `Node::empty`: a leaf without slots, used only as a placeholder. -/
def empty : Node V C :=
  .leaf []

/-- `Node::is_empty`. -/
def isEmpty : Node V C → Bool
  | .link links => links.all Option.isNone
  | .leaf vals => vals.all Option.isNone

/-- `Node::can_collapse`: a link node whose only link is in its first slot. -/
def canCollapse : Node V C → Bool
  | .link links => (links.head?.bind id).isSome && (links.drop 1).all Option.isNone
  | .leaf _ => false

end Node

section Operations

variable (store : Store V C)

/-- `Node::get`: the value at index `i` below a node of the given height. -/
def Node.get : Nat → Node V C → Nat → Nat → Nat → Except (Failure C) (Option V)
  | 0, _, _, _, _ => .error .diverges
  | fuel + 1, node, height, bitWidth, i =>
    let nfh := nodesForHeight bitWidth height
    match node with
    | .leaf vals => .ok (vals.getD i none)
    | .link links =>
      match links.getD (i / nfh) none with
      | some (.cid cid cache) =>
        match loadLink store bitWidth cid cache with
        | .ok child => Node.get fuel child (Usize.wrappingSub height 1) bitWidth (i % nfh)
        | .error e => .error e
      | some (.dirty child) =>
        Node.get fuel child (Usize.wrappingSub height 1) bitWidth (i % nfh)
      | none => .ok none

/-- `Node::set_leaf`: replace slot `i` of a leaf, returning the old value. -/
def Node.setLeaf (i : Nat) (val : V) : NodeM V C (Option V) := fun node =>
  match node with
  | .leaf vals =>
    match vals[i]? with
    | some prev => .ok prev (.leaf (vals.set i (some val)))
    | none => .error (.panic "called `Option::unwrap()` on a `None` value") node
  | .link _ => .error (.panic "set_leaf should never be called on a shard of links") node

/--
`Node::set`: store `val` at index `i` below a node of the given height, returning the
old value.  A CID link on the way is loaded (its cache taken) and becomes dirty; an
empty slot gets a fresh leaf or link node.
-/
def Node.set : Nat → Nat → Nat → Nat → V → NodeM V C (Option V)
  | 0, _, _, _, _ => throw .diverges
  | fuel + 1, height, bitWidth, i, val => fun node =>
    if height = 0 then
      Node.setLeaf i val node
    else
      let nfh := nodesForHeight bitWidth height
      let idx := i / nfh
      match node with
      | .leaf _ =>
        .error (.panic "internal error: entered unreachable code: should not be handled") node
      | .link links =>
        let descend (child : Node V C) : EStateM.Result (Failure C) (Node V C) (Option V) :=
          match Node.set fuel (Usize.wrappingSub height 1) bitWidth (i % nfh) val child with
          | .ok prev child' => .ok prev (.link (links.set idx (some (.dirty child'))))
          | .error e child' => .error e (.link (links.set idx (some (.dirty child'))))
        match links[idx]? with
        | none => .error (.panic (indexOutOfBounds links.length idx)) node
        | some (some (.dirty child)) => descend child
        | some (some (.cid cid cache)) =>
          match loadLink store bitWidth cid cache with
          | .ok child => descend child
          | .error e => .error e (.link (links.set idx (some (.cid cid none))))
        | some none =>
          descend (if height = 1 then .leaf (initSizedVec bitWidth)
            else .link (initSizedVec bitWidth))

/--
`Node::delete`: remove the value at index `i` below a node of the given height.  A
child left empty is unlinked; a CID link that lost a value becomes dirty.
-/
def Node.delete : Nat → Nat → Nat → Nat → NodeM V C (Option V)
  | 0, _, _, _ => throw .diverges
  | fuel + 1, height, bitWidth, i => fun node =>
    let nfh := nodesForHeight bitWidth height
    let subI := i / nfh
    let below := Usize.wrappingSub height 1
    match node with
    | .leaf vals =>
      match vals[i]? with
      | some prev => .ok prev (.leaf (vals.set i none))
      | none => .ok none node
    | .link links =>
      match links[subI]? with
      | none => .error (.panic (indexOutOfBounds links.length subI)) node
      | some none => .ok none node
      | some (some (.dirty child)) =>
        match Node.delete fuel below bitWidth (i % nfh) child with
        | .error e child' => .error e (.link (links.set subI (some (.dirty child'))))
        | .ok none child' => .ok none (.link (links.set subI (some (.dirty child'))))
        | .ok (some deleted) child' =>
          if !child'.isEmpty then
            .ok (some deleted) (.link (links.set subI (some (.dirty child'))))
          else
            .ok (some deleted) (.link (links.set subI none))
      | some (some (.cid cid cache)) =>
        match loadLink store bitWidth cid cache with
        | .error e => .error e node
        | .ok child =>
          match Node.delete fuel below bitWidth (i % nfh) child with
          | .error e child' => .error e (.link (links.set subI (some (.cid cid (some child')))))
          | .ok none child' => .ok none (.link (links.set subI (some (.cid cid (some child')))))
          | .ok (some deleted) child' =>
            if child'.isEmpty then
              .ok (some deleted) (.link (links.set subI none))
            else
              .ok (some deleted) (.link (links.set subI (some (.dirty child'))))

/-- `Node::for_each_while`: the `(index, value)` pairs handed to `f`, in order, up to and
including the first on which `f` answers `false`, and whether the walk went to the end. -/
def Node.forEachWhile (f : Nat → V → Bool) :
    Nat → Node V C → Nat → Nat → Nat → Except (Failure C) (List (Nat × V) × Bool)
  | 0, _, _, _, _ => .error .diverges
  | fuel + 1, node, height, bitWidth, offset =>
    match node with
    | .leaf vals =>
      let rec visitVals : Nat → List (Option V) → List (Nat × V) × Bool
        | _, [] => ([], true)
        | i, none :: rest => visitVals (i + 1) rest
        | i, some v :: rest =>
          let index := Usize.wrappingAdd offset i
          if f index v then
            let (visited, finished) := visitVals (i + 1) rest
            ((index, v) :: visited, finished)
          else
            ([(index, v)], false)
      .ok (visitVals 0 vals)
    | .link links =>
      links.zipIdx.foldl
        (fun walked (slot, i) =>
          match walked, slot with
          | .ok (visited, true), some entry =>
            let offs :=
              Usize.wrappingAdd offset (Usize.wrappingMul i (nodesForHeight bitWidth height))
            let child : Except (Failure C) (Node V C) :=
              match entry with
              | .dirty child => .ok child
              | .cid cid cache => loadLink store bitWidth cid cache
            match child with
            | .error e => .error e
            | .ok child =>
              match Node.forEachWhile f fuel child (Usize.wrappingSub height 1) bitWidth offs with
              | .ok (more, finished) => .ok (visited ++ more, finished)
              | .error e => .error e
          | _, _ => walked)
        (.ok ([], true))

end Operations

section Flush

variable [DecidableEq C] (cidOf : CidOf V C)

/-- `store.put(block, Blake2b256)`. -/
def Store.put (store : Store V C) (block : Block V C) : C × Store V C :=
  let cid := cidOf block
  (cid, fun c => if c = cid then some block else store c)

mutual

/-- `Node::flush`: store every dirty child bottom-up and replace it by a CID link whose
cache keeps the flushed node. -/
def Node.flush : Node V C → Store V C → Except (Failure C) (Node V C × Store V C)
  | .leaf vals, store => .ok (.leaf vals, store)
  | .link links, store =>
    match flushLinks links store with
    | .ok (links', store') => .ok (.link links', store')
    | .error e => .error e

/-- The loop of `Node::flush` over the slots of a link node. -/
def flushLinks : List (Option (Link V C)) → Store V C →
    Except (Failure C) (List (Option (Link V C)) × Store V C)
  | [], store => .ok ([], store)
  | none :: rest, store =>
    match flushLinks rest store with
    | .ok (rest', store') => .ok (none :: rest', store')
    | .error e => .error e
  | some (.cid cid cache) :: rest, store =>
    match flushLinks rest store with
    | .ok (rest', store') => .ok (some (.cid cid cache) :: rest', store')
    | .error e => .error e
  | some (.dirty child) :: rest, store =>
    match child.flush store with
    | .error e => .error e
    | .ok (child', store₁) =>
      match child'.collapse with
      | .error e => .error (.error e)
      | .ok collapsed =>
        let (cid, store₂) := Store.put cidOf store₁ (.node collapsed)
        match flushLinks rest store₂ with
        | .ok (rest', store₃) => .ok (some (.cid cid (some child')) :: rest', store₃)
        | .error e => .error e

end

end Flush

end Forest.AMT
