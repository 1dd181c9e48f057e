import Forest.StateTree.Snapshots

namespace Forest.VM

/-!
# The state tree

`StateTree` keeps the actors in a HAMT (`actor_interface::Map`, which dispatches to the
actor crates) and caches reads and writes in `StateSnapshots`.  Writes and deletions go
to the top snapshot layer only; `flush`, allowed with a single layer, applies the
bottom layer to the HAMT.  `get_actor` reads through the layers and falls back to the
HAMT, caching what it finds in the top layer.

The HAMT is a parameter `MapOps`: the model is about the caching code, whatever map sits
below it.  Addresses are ID addresses, for which `lookup_id` is the identity.
-/

/-- The calls `StateTree` makes on its actor map `M`, keyed by ID address; `R` is the
root CID that `flush` returns. -/
structure MapOps (A S M E R : Type) where
  /-- `Map::get(&addr.to_bytes())`. -/
  get : M → A → Except E (Option S)
  /-- `Map::set(addr.to_bytes().into(), state)`. -/
  set : A → S → EStateM E M Unit
  /-- `Map::delete(&addr.to_bytes())`. -/
  delete : A → EStateM E M Unit
  /-- `Map::flush`: the root CID. -/
  flush : EStateM E M R

/-- The `Box<dyn Error>` of the state tree: an error of the map or a message. -/
inductive Error (E : Type) where
  | map (e : E)
  | message (text : String)
  deriving DecidableEq, Repr

/-- `StateTree`: the actor map and the snapshot layers above it. -/
structure StateTree (A S M : Type) where
  hamt : M
  snaps : StateSnapshots A S

/-- A program over a state tree. -/
abbrev StateTreeM (A S M E α : Type) := EStateM (Error E) (StateTree A S M) α

variable {A S M E R : Type} [DecidableEq A]

namespace StateTree

/-- Lift a snapshot update that reports failure as a `String`. -/
def updateSnaps (update : StateSnapshots A S → Except String (StateSnapshots A S)) :
    StateTreeM A S M E Unit := fun tree =>
  match update tree.snaps with
  | .ok snaps => .ok () { tree with snaps := snaps }
  | .error text => .error (.message text) tree

/-- `StateTree::new` on an empty map. -/
def new (hamt : M) : StateTree A S M where
  hamt := hamt
  snaps := StateSnapshots.new

variable (ops : MapOps A S M E R)

/-- `StateTree::get_actor`: the cached state, or else the map's, which is then cached in
the top layer. -/
def getActor (addr : A) : StateTreeM A S M E (Option S) := fun tree =>
  match tree.snaps.getActor addr with
  | some actorState => .ok (some actorState) tree
  | none =>
    match ops.get tree.hamt addr with
    | .error e => .error (.map e) tree
    | .ok none => .ok none tree
    | .ok (some act) =>
      match updateSnaps (E := E) (M := M) (·.setActor addr act) tree with
      | .ok () tree' => .ok (some act) tree'
      | .error e tree' => .error e tree'

/-- `StateTree::set_actor`. -/
def setActor (addr : A) (actor : S) : StateTreeM A S M E Unit :=
  updateSnaps (·.setActor addr actor)

/-- `StateTree::delete_actor`: a deletion recorded in the top layer. -/
def deleteActor (addr : A) : StateTreeM A S M E Unit :=
  updateSnaps (·.deleteActor addr)

/-- `StateTree::mutate_actor`: read, apply `mutate`, write back; `render` is the
`Display` of an address used in the error. -/
def mutateActor (render : A → String) (addr : A) (mutate : S → Except String S) :
    StateTreeM A S M E Unit := do
  match ← getActor ops addr with
  | none =>
    let shown := render addr
    throw (.message s!"Actor for address: {shown} does not exist")
  | some act =>
    match mutate act with
    | .error text => throw (.message text)
    | .ok act' => setActor addr act'

/-- `StateTree::snapshot`. -/
def snapshot : StateTreeM A S M E Unit := fun tree =>
  .ok () { tree with snaps := tree.snaps.addLayer }

/-- `StateTree::clear_snapshot`: merge the top layer into the one below. -/
def clearSnapshot : StateTreeM A S M E Unit :=
  updateSnaps StateSnapshots.mergeLastLayer

/-- `StateTree::revert_to_snapshot`: drop the top layer and push an empty one. -/
def revertToSnapshot : StateTreeM A S M E Unit :=
  updateSnaps fun snaps => (snaps.dropLayer).map StateSnapshots.addLayer

/-- Apply the bottom layer's entries to the map, in the layer's iteration order. -/
def applyLayer : List (Sigma fun _ : A => Option S) → EStateM E M Unit
  | [] => pure ()
  | ⟨addr, none⟩ :: rest => do
    ops.delete addr
    applyLayer rest
  | ⟨addr, some state⟩ :: rest => do
    ops.set addr state
    applyLayer rest

/-- `StateTree::flush`: refused with snapshots on the stack; otherwise the bottom layer is
written to the map and the map flushed.  The layer itself is kept as a cache. -/
def flush : StateTreeM A S M E R := fun tree =>
  match tree.snaps.layers with
  | [bottom] =>
    match (do applyLayer ops bottom.actors.entries; ops.flush) tree.hamt with
    | .ok root hamt => .ok root { tree with hamt := hamt }
    | .error e hamt => .error (.map e) { tree with hamt := hamt }
  | layers =>
    let count := layers.length
    .error (.message s!"tried to flush state tree with snapshots on the stack: {count}") tree

end StateTree

end Forest.VM
