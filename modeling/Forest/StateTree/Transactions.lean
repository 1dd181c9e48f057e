import Forest.StateTree.StateTree
import Forest.Lib.Result

/-!
# Snapshots as transactions

The VM runs a message between `StateTree::snapshot` and either `clear_snapshot`, which keeps
the message's writes, or `revert_to_snapshot`, which drops them.  Between the two,
`get_actor`, `set_actor`, `delete_actor` and `mutate_actor` write the top snapshot layer only,
whether they succeed or fail.  So `revert_to_snapshot` restores exactly the tree the
snapshot made.  `clear_snapshot` merges the top layer into the one below without changing
what any address reads, and leaves as many layers as there were before the snapshot.
-/

namespace Forest.VM

variable {A S M E R : Type} [DecidableEq A]

namespace StateSnapshots

theorem getActor_def (snaps : StateSnapshots A S) (addr : A) :
    snaps.getActor addr =
      (snaps.layers.reverse.findSome? fun layer => layer.actors.lookup addr).bind id :=
  rfl

/-- A layer pushed on top holds nothing, so every address reads as before. -/
@[simp]
theorem getActor_addLayer (snaps : StateSnapshots A S) (addr : A) :
    snaps.addLayer.getActor addr = snaps.getActor addr := by
  simp [getActor, addLayer, StateSnapLayer.empty, List.findSome?_cons]

theorem writeTop_append (below : List (StateSnapLayer A S)) (top : StateSnapLayer A S)
    (failure : String) (addr : A) (state : Option S) :
    writeTop ⟨below ++ [top]⟩ failure addr state = .ok ⟨below ++ [top.insert addr state]⟩ := by
  simp [writeTop]

omit [DecidableEq A] in
theorem dropLayer_append (below : List (StateSnapLayer A S)) (top : StateSnapLayer A S) :
    dropLayer ⟨below ++ [top]⟩ = .ok ⟨below⟩ := by
  simp [dropLayer]

/-- Merging the top layer into the one below keeps every read: the merged layer answers with
the top layer where the top layer mentions the address, and with the layer below elsewhere. -/
theorem getActor_mergeLastLayer {snaps snaps' : StateSnapshots A S}
    (merged : snaps.mergeLastLayer = .ok snaps') (addr : A) :
    snaps'.getActor addr = snaps.getActor addr := by
  unfold mergeLastLayer at merged
  split at merged
  · rename_i top below rest layersEq
    cases merged
    rw [getActor_def, getActor_def, layersEq, List.reverse_reverse, List.findSome?_cons,
      List.findSome?_cons, List.findSome?_cons]
    dsimp only
    by_cases mentioned : addr ∈ top.actors
    · rw [AList.lookup_union_left mentioned]
      cases found : top.actors.lookup addr with
      | none => exact absurd found (by simpa [AList.lookup_eq_none] using mentioned)
      | some state => rfl
    · rw [AList.lookup_union_right mentioned, AList.lookup_eq_none.mpr mentioned]
  · cases merged

/-- With two layers or more, the merge succeeds and leaves one layer less. -/
theorem mergeLastLayer_append {below : List (StateSnapLayer A S)} (nonempty : below ≠ [])
    (top : StateSnapLayer A S) :
    ∃ snaps', mergeLastLayer ⟨below ++ [top]⟩ = .ok snaps' ∧
      snaps'.layers.length = below.length := by
  obtain ⟨last, lower, reversed⟩ : ∃ last lower, below.reverse = last :: lower := by
    cases reversed : below.reverse with
    | nil => exact absurd (List.reverse_eq_nil_iff.mp reversed) nonempty
    | cons last lower => exact ⟨last, lower, rfl⟩
  have lengthEq : below.length = lower.length + 1 := by
    rw [← List.length_reverse, reversed, List.length_cons]
  refine ⟨⟨(⟨top.actors ∪ last.actors⟩ :: lower).reverse⟩, by simp [mergeLastLayer, reversed], ?_⟩
  simp [lengthEq]

end StateSnapshots

namespace StateTree

/-- The state a call of the state tree ends in, whether it returned `Ok` or `Err`. -/
def finalState {α : Type} : EStateM.Result (Error E) (StateTree A S M) α → StateTree A S M
  | .ok _ tree => tree
  | .error _ tree => tree

/-- A tree that differs from `base` by one layer on top: what the calls between a snapshot
and its end may change. -/
def Above (base tree : StateTree A S M) : Prop :=
  tree.hamt = base.hamt ∧ ∃ top, tree.snaps.layers = base.snaps.layers ++ [top]

omit [DecidableEq A] in
theorem Above.snapshot (base : StateTree A S M) :
    Above base { base with snaps := base.snaps.addLayer } :=
  ⟨rfl, StateSnapLayer.empty, rfl⟩

variable (ops : MapOps A S M E R)

/-- A call the VM makes on the state tree while a message runs. -/
inductive Call (A S : Type) where
  | get (addr : A)
  | set (addr : A) (actor : S)
  | delete (addr : A)
  | mutate (render : A → String) (addr : A) (change : S → Except String S)

/-- One call, its answer dropped. -/
def Call.run : Call A S → StateTreeM A S M E Unit
  | .get addr => do
    let _ ← getActor ops addr
    pure ()
  | .set addr actor => setActor addr actor
  | .delete addr => deleteActor addr
  | .mutate render addr change => mutateActor ops render addr change

/-- The calls in turn, up to the first that fails. -/
def runCalls : List (Call A S) → StateTreeM A S M E Unit
  | [] => pure ()
  | call :: rest => do
    Call.run ops call
    runCalls rest

section Frame

variable {ops}

/-- A write of the top layer keeps the tree one layer above `base`, and fails only on an
empty stack. -/
theorem Above.updateSnaps_writeTop {base tree : StateTree A S M} (above : Above base tree)
    (failure : String) (addr : A) (state : Option S) :
    ∃ tree', updateSnaps (E := E) (M := M) (·.writeTop failure addr state) tree = .ok () tree' ∧
      Above base tree' := by
  obtain ⟨hamtEq, top, layersEq⟩ := above
  have written : tree.snaps.writeTop failure addr state =
      .ok ⟨base.snaps.layers ++ [top.insert addr state]⟩ := by
    rw [show tree.snaps = ⟨base.snaps.layers ++ [top]⟩ from by rw [← layersEq]]
    exact StateSnapshots.writeTop_append _ _ _ _ _
  exact ⟨{ tree with snaps := ⟨base.snaps.layers ++ [top.insert addr state]⟩ },
    by simp only [updateSnaps, written], hamtEq, _, rfl⟩

theorem Above.getActor {base tree : StateTree A S M} (above : Above base tree) (addr : A) :
    Above base (finalState (getActor ops addr tree)) := by
  unfold StateTree.getActor
  cases cached : tree.snaps.getActor addr with
  | some state => exact above
  | none =>
    cases stored : ops.get tree.hamt addr with
    | error e => exact above
    | ok found =>
      cases found with
      | none => exact above
      | some act =>
        -- the actor found in the map is cached in the top layer
        obtain ⟨tree', written, above'⟩ :=
          above.updateSnaps_writeTop (E := E) "set actor" addr (some act)
        simp only [StateSnapshots.setActor, written]
        exact above'

theorem Above.setActor {base tree : StateTree A S M} (above : Above base tree) (addr : A)
    (actor : S) : Above base (finalState (setActor (E := E) addr actor tree)) := by
  obtain ⟨tree', written, above'⟩ := above.updateSnaps_writeTop (E := E) "set actor" addr (some actor)
  simp only [StateTree.setActor, StateSnapshots.setActor, written]
  exact above'

theorem Above.deleteActor {base tree : StateTree A S M} (above : Above base tree) (addr : A) :
    Above base (finalState (deleteActor (E := E) addr tree)) := by
  obtain ⟨tree', written, above'⟩ := above.updateSnaps_writeTop (E := E) "delete actor" addr none
  simp only [StateTree.deleteActor, StateSnapshots.deleteActor, written]
  exact above'

omit [DecidableEq A] in
/-- A property of the state a program ends in, known of the state its first part ends in
and of the state the rest ends in after every success of the first part, holds of the whole
program. -/
theorem finalState_bind {α β : Type} {first : StateTreeM A S M E α}
    {rest : α → StateTreeM A S M E β} {tree : StateTree A S M} {P : StateTree A S M → Prop}
    (afterFirst : P (finalState (first tree)))
    (afterRest : ∀ a tree', first tree = .ok a tree' → P (finalState (rest a tree'))) :
    P (finalState ((first >>= rest) tree)) := by
  cases ran : first tree with
  | ok a tree' =>
    rw [EStateM.bind_apply_of_ok ran]
    exact afterRest a tree' ran
  | error e tree' =>
    rw [EStateM.bind_apply_of_error ran]
    rw [ran] at afterFirst
    exact afterFirst

theorem Above.mutateActor {base tree : StateTree A S M} (above : Above base tree)
    (render : A → String) (addr : A) (change : S → Except String S) :
    Above base (finalState (mutateActor ops render addr change tree)) := by
  have afterGet : Above base (finalState (StateTree.getActor ops addr tree)) :=
      above.getActor addr
  refine finalState_bind afterGet fun found tree' got => ?_
  rw [got] at afterGet
  -- a missing actor or a refused change ends the call where `get_actor` left the tree
  cases found with
  | none => exact afterGet
  | some act =>
    dsimp only
    cases changed : change act with
    | error text => exact afterGet
    | ok act' => exact afterGet.setActor addr act'

/-- One call keeps the tree one layer above `base`, whether it succeeds or fails. -/
theorem Above.run {base tree : StateTree A S M} (above : Above base tree) (call : Call A S) :
    Above base (finalState (Call.run ops call tree)) := by
  cases call with
  | get addr =>
    have afterGet : Above base (finalState (StateTree.getActor ops addr tree)) :=
      above.getActor addr
    refine finalState_bind afterGet fun _ tree' got => ?_
    rw [got] at afterGet
    exact afterGet
  | set addr actor => exact above.setActor addr actor
  | delete addr => exact above.deleteActor addr
  | mutate render addr change => exact above.mutateActor render addr change

/-- A sequence of calls keeps the tree one layer above `base`, up to its first failure. -/
theorem Above.runCalls {base tree : StateTree A S M} (above : Above base tree)
    (calls : List (Call A S)) : Above base (finalState (runCalls ops calls tree)) := by
  induction calls generalizing tree with
  | nil => exact above
  | cons call rest inductionHypothesis =>
    have afterCall : Above base (finalState (Call.run ops call tree)) := above.run call
    refine finalState_bind afterCall fun _ tree' ran => ?_
    rw [ran] at afterCall
    exact inductionHypothesis afterCall

omit [DecidableEq A] in
/-- Reverting a tree one layer above `base` restores the tree the snapshot made from `base`. -/
theorem Above.revertToSnapshot {base tree : StateTree A S M} (above : Above base tree) :
    revertToSnapshot (E := E) tree = .ok () { base with snaps := base.snaps.addLayer } := by
  obtain ⟨hamtEq, top, layersEq⟩ := above
  have dropped : tree.snaps.dropLayer = .ok ⟨base.snaps.layers⟩ := by
    rw [show tree.snaps = ⟨base.snaps.layers ++ [top]⟩ from by rw [← layersEq]]
    exact StateSnapshots.dropLayer_append _ _
  simp only [StateTree.revertToSnapshot, updateSnaps, dropped, Except.map]
  rw [← hamtEq]

end Frame

/-- `revert_to_snapshot` after any calls since `snapshot` restores the tree the snapshot
made, whether the calls succeeded or one of them failed: the map was never written, and
every write went to the layer the revert drops.  That tree reads as the tree before the
snapshot at every address. -/
theorem revert_to_snapshot_drops_calls (tree : StateTree A S M) (calls : List (Call A S)) :
    ∃ snapped, snapshot (E := E) tree = .ok () snapped ∧
      revertToSnapshot (E := E) (finalState (runCalls ops calls snapped)) = .ok () snapped ∧
      snapped.hamt = tree.hamt ∧ ∀ addr, snapped.snaps.getActor addr = tree.snaps.getActor addr :=
  ⟨_, rfl, ((Above.snapshot tree).runCalls calls).revertToSnapshot, rfl,
    fun addr => StateSnapshots.getActor_addLayer tree.snaps addr⟩

/-- `clear_snapshot` after any calls since `snapshot` succeeds on a tree with a layer, keeps
what every address reads after the calls, leaves the map alone and goes back to the number
of layers before the snapshot. -/
theorem clear_snapshot_keeps_calls (tree : StateTree A S M) (nonempty : tree.snaps.layers ≠ [])
    (calls : List (Call A S)) :
    ∃ snapped merged, snapshot (E := E) tree = .ok () snapped ∧
      clearSnapshot (E := E) (finalState (runCalls ops calls snapped)) = .ok () merged ∧
      merged.hamt = tree.hamt ∧ merged.snaps.layers.length = tree.snaps.layers.length ∧
      ∀ addr, merged.snaps.getActor addr =
        (finalState (runCalls ops calls snapped)).snaps.getActor addr := by
  obtain ⟨hamtEq, top, layersEq⟩ : Above tree
      (finalState (runCalls ops calls { tree with snaps := tree.snaps.addLayer })) :=
    (Above.snapshot tree).runCalls calls
  obtain ⟨snaps', mergedEq, lengthEq⟩ := StateSnapshots.mergeLastLayer_append nonempty top
  -- the calls left one layer on the stack of the tree, which the merge folds back
  have merged : (finalState (runCalls ops calls
      { tree with snaps := tree.snaps.addLayer })).snaps.mergeLastLayer = .ok snaps' := by
    rw [show (finalState (runCalls ops calls { tree with snaps := tree.snaps.addLayer })).snaps =
      ⟨tree.snaps.layers ++ [top]⟩ from by rw [← layersEq]]
    exact mergedEq
  refine ⟨_, { finalState (runCalls ops calls { tree with snaps := tree.snaps.addLayer }) with
    snaps := snaps' }, rfl, ?_, hamtEq, lengthEq,
    fun addr => StateSnapshots.getActor_mergeLastLayer merged addr⟩
  simp only [clearSnapshot, updateSnaps]
  rw [merged]

theorem clear_snapshot_keeps_calls_after_set :
    (StateTree.new () : StateTree Nat Nat Unit).snaps.layers ≠ [] ∧
    ∃ snapped merged, snapshot (E := Unit) (StateTree.new () : StateTree Nat Nat Unit) =
        .ok () snapped ∧
      clearSnapshot (E := Unit) (finalState (runCalls
        (⟨fun _ _ => .ok none, fun _ _ => pure (), fun _ => pure (), pure ()⟩ :
          MapOps Nat Nat Unit Unit Unit) [.set 1 5] snapped)) = .ok () merged ∧
      merged.hamt = () ∧ merged.snaps.layers.length = 1 ∧
      ∀ addr, merged.snaps.getActor addr = (finalState (runCalls
        (⟨fun _ _ => .ok none, fun _ _ => pure (), fun _ => pure (), pure ()⟩ :
          MapOps Nat Nat Unit Unit Unit) [.set 1 5] snapped)).snaps.getActor addr :=
  ⟨List.cons_ne_nil _ _, clear_snapshot_keeps_calls _ (StateTree.new ()) (List.cons_ne_nil _ _) _⟩

end StateTree

end Forest.VM
