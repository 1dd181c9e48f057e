import Mathlib

namespace Forest.VM

/-!
# State snapshots

`StateSnapshots` of `state_tree/src/lib.rs` is a stack of cache layers above the actor
HAMT.  Each layer maps an ID address to `Some(actor)` for a write or `None` for a
deletion.  A lookup walks the layers from the top and stops at the first layer that
mentions the address.

The `resolve_cache` of a layer only serves non-ID addresses, which resolve through the
init actor; the model covers ID addresses, so it leaves that cache out.  A layer's
`HashMap` is an `AList`: inserting replaces, and keys stay distinct.
-/

/-- `StateSnapLayer`: the cached actors of one snapshot layer, `none` marking a deletion. -/
structure StateSnapLayer (A S : Type) where
  actors : AList (fun _ : A => Option S)

variable {A S : Type} [DecidableEq A]

namespace StateSnapLayer

/-- `StateSnapLayer::default`. -/
def empty : StateSnapLayer A S :=
  ⟨∅⟩

/-- `actors.borrow_mut().insert(addr, state)`. -/
def insert (layer : StateSnapLayer A S) (addr : A) (state : Option S) : StateSnapLayer A S :=
  ⟨layer.actors.insert addr state⟩

end StateSnapLayer

/-- `StateSnapshots`: the layers from the bottom (index 0) to the top. -/
structure StateSnapshots (A S : Type) where
  layers : List (StateSnapLayer A S)

namespace StateSnapshots

/-- `StateSnapshots::new`: one empty layer. -/
def new : StateSnapshots A S :=
  ⟨[StateSnapLayer.empty]⟩

/-- `StateSnapshots::add_layer`. -/
def addLayer (snaps : StateSnapshots A S) : StateSnapshots A S :=
  ⟨snaps.layers ++ [StateSnapLayer.empty]⟩

/-- `StateSnapshots::drop_layer`: pop the top layer (`Err` on an empty stack). -/
def dropLayer (snaps : StateSnapshots A S) : Except String (StateSnapshots A S) :=
  let index := (snaps.layers.length + 2 ^ 64 - 1) % 2 ^ 64
  if snaps.layers.isEmpty then
    .error s!"drop layer failed to index snapshot layer at index {index}"
  else
    .ok ⟨snaps.layers.dropLast⟩

/--
`StateSnapshots::merge_last_layer`: move the top layer's entries into the layer below,
then drop the top.  The index `layers.len() - 2` is a `usize`: with fewer than two layers
it wraps (release build), the lookup fails and the call returns `Err`.
-/
def mergeLastLayer (snaps : StateSnapshots A S) : Except String (StateSnapshots A S) :=
  match snaps.layers.reverse with
  | top :: below :: rest =>
    let merged : StateSnapLayer A S := ⟨top.actors ∪ below.actors⟩
    .ok ⟨(merged :: rest).reverse⟩
  | _ =>
    let index := (snaps.layers.length + 2 ^ 64 - 2) % 2 ^ 64
    .error s!"merging layers failed to index snapshot layer at index: {index}"

/-- `StateSnapshots::get_actor`: the entry of the topmost layer that mentions `addr`;
a deletion and an address no layer mentions both give `None`. -/
def getActor (snaps : StateSnapshots A S) (addr : A) : Option S :=
  (snaps.layers.reverse.findSome? fun layer => layer.actors.lookup addr).bind id

/-- Write `state` for `addr` into the top layer; on an empty stack `layers.last()` fails
with the caller's message and the wrapped index `layers.len() - 1`. -/
def writeTop (snaps : StateSnapshots A S) (failure : String) (addr : A) (state : Option S) :
    Except String (StateSnapshots A S) :=
  match snaps.layers.reverse with
  | top :: rest => .ok ⟨((top.insert addr state) :: rest).reverse⟩
  | [] =>
    let index := 2 ^ 64 - 1
    .error s!"{failure} failed to index snapshot layer at index: {index}"

/-- `StateSnapshots::set_actor`. -/
def setActor (snaps : StateSnapshots A S) (addr : A) (actor : S) :
    Except String (StateSnapshots A S) :=
  snaps.writeTop "set actor" addr (some actor)

/-- `StateSnapshots::delete_actor`: record a deletion in the top layer. -/
def deleteActor (snaps : StateSnapshots A S) (addr : A) : Except String (StateSnapshots A S) :=
  snaps.writeTop "delete actor" addr none

end StateSnapshots

end Forest.VM
