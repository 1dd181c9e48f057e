import Forest.StateTree.StateTree
import Forest.Lib.Result

namespace Forest.VM

/-!
# Reading through the snapshot layers

A write to the top layer decides every later lookup of its address: `getActor` of the
snapshots returns the written entry.  For a deletion that entry is `None`, which
`StateSnapshots::get_actor` cannot tell apart from an address no layer mentions; so
`StateTree::get_actor` goes on to the map, and returns (and re-caches) an actor that
was deleted after the last flush.
-/

variable {A S M E R : Type} [DecidableEq A]

namespace StateSnapshots

/-- A successful top-layer write is the entry every later lookup of its address meets. -/
theorem getActor_writeTop
    {snaps snaps' : StateSnapshots A S}
    {failure : String}
    {addr : A}
    {state : Option S}
    (written : snaps.writeTop failure addr state = .ok snaps') :
    snaps'.getActor addr = state := by
  unfold writeTop at written
  cases layersShape : snaps.layers.reverse with
  | nil =>
      simp [layersShape] at written
  | cons top rest =>
      simp only [layersShape, Except.ok.injEq] at written
      subst snaps'
      simp [getActor, StateSnapLayer.insert, AList.lookup_insert]

/-- A top-layer write succeeds whenever there is a layer. -/
theorem writeTop_ok
    {snaps : StateSnapshots A S}
    (nonempty : snaps.layers ≠ [])
    (failure : String)
    (addr : A)
    (state : Option S) :
    ∃ snaps', snaps.writeTop failure addr state = .ok snaps' := by
  unfold writeTop
  cases layersShape : snaps.layers.reverse with
  | nil =>
      exact (nonempty (List.reverse_eq_nil_iff.mp layersShape)).elim
  | cons top rest =>
      exact ⟨_, rfl⟩

/-- A top-layer write leaves the stack non-empty. -/
theorem layers_ne_nil_of_writeTop
    {snaps snaps' : StateSnapshots A S}
    {failure : String}
    {addr : A}
    {state : Option S}
    (written : snaps.writeTop failure addr state = .ok snaps') :
    snaps'.layers ≠ [] := by
  unfold writeTop at written
  cases layersShape : snaps.layers.reverse with
  | nil =>
      simp [layersShape] at written
  | cons top rest =>
      simp only [layersShape, Except.ok.injEq] at written
      subst snaps'
      simp

end StateSnapshots

namespace StateTree

variable (ops : MapOps A S M E R)

/-- After `set_actor`, `get_actor` returns the actor just written. -/
theorem getActor_setActor
    {tree tree' : StateTree A S M}
    {addr : A}
    {actor : S}
    (written : setActor (E := E) addr actor tree = .ok () tree') :
    getActor ops addr tree' = .ok (some actor) tree' := by
  unfold setActor updateSnaps at written
  cases snapsShape : tree.snaps.setActor addr actor with
  | error text =>
      simp [snapsShape] at written
  | ok snaps =>
      simp only [snapsShape, EStateM.Result.ok.injEq, true_and] at written
      subst tree'
      have cached : snaps.getActor addr = some actor :=
        StateSnapshots.getActor_writeTop snapsShape
      simp [getActor, cached]

/--
After `delete_actor`, `get_actor` does not return `None`: it returns whatever the map
still holds for the address, and caches an actor found there in the top layer.
-/
theorem getActor_deleteActor
    {tree tree' : StateTree A S M}
    {addr : A}
    {act : S}
    (deleted : deleteActor (E := E) addr tree = .ok () tree')
    (inMap : ops.get tree'.hamt addr = .ok (some act)) :
    ∃ tree'', getActor ops addr tree' = .ok (some act) tree'' := by
  unfold deleteActor updateSnaps at deleted
  cases snapsShape : tree.snaps.deleteActor addr with
  | error text =>
      simp [snapsShape] at deleted
  | ok snaps =>
      simp only [snapsShape, EStateM.Result.ok.injEq, true_and] at deleted
      subst tree'
      have tombstone : snaps.getActor addr = none :=
        StateSnapshots.getActor_writeTop snapsShape
      have nonempty : snaps.layers ≠ [] :=
        StateSnapshots.layers_ne_nil_of_writeTop snapsShape
      obtain ⟨recached, recachedShape⟩ :=
        StateSnapshots.writeTop_ok nonempty "set actor" addr (some act)
      refine ⟨{ tree with snaps := recached }, ?_⟩
      simp only at inMap
      simp [getActor, tombstone, inMap, updateSnaps, StateSnapshots.setActor, recachedShape]

/-- An in-memory actor map: `get`, `set` and `delete` on an association list, and a
`flush` whose root is the list of entries. -/
def listMapOps : MapOps Nat Nat (AList fun _ : Nat => Nat) Unit
    (List (Sigma fun _ : Nat => Nat)) where
  get actors addr := .ok (actors.lookup addr)
  set addr state := modify (·.insert addr state)
  delete addr := modify (·.erase addr)
  flush := fun actors => .ok actors.entries actors

/-- The `delete_actor` test of `state_tree_tests.rs`, with a flush between the write and the
deletion: write actor `3`, flush, delete it, read it back. -/
def deleteAfterFlush : EStateM.Result (Error Unit) (StateTree Nat Nat (AList fun _ : Nat => Nat))
    (Option Nat) :=
  let run : StateTreeM Nat Nat (AList fun _ : Nat => Nat) Unit (Option Nat) := do
    setActor 3 7
    let _ ← flush listMapOps
    deleteActor 3
    getActor listMapOps 3
  run (StateTree.new ∅)

/-- The deleted actor comes back: `get_actor` returns it instead of `None`. -/
theorem deleteAfterFlush_returnsDeletedActor :
    deleteAfterFlush.value? = some (some 7) := by
  decide +kernel

end StateTree

end Forest.VM
