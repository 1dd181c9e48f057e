import Forest.Amt.Node
import Forest.Lib.Result
import Mathlib.Data.List.Sort

namespace Forest.AMT

/-!
# The AMT facade

`Amt` of `amt.rs` over the `Root` of `root.rs`: the bit width, the height of the root
node, the number of values, and the root node.  `set` first grows the root until the
index fits below `nodes_for_height(bit_width, height + 1)`, then descends; `delete`
descends, resets an emptied root to a leaf, and otherwise moves the first link up while
it is the only one.

The block store is a parameter; `flush` returns it with the new blocks.  The growth and
collapse loops carry their own fuel, counted in rounds of the loop.
-/

/-- `Root`: the bit width, height and count of an AMT with its root node. -/
structure Root (V C : Type) where
  bitWidth : Nat
  height : Nat
  count : Nat
  node : Node V C

/-- A program over the root of an AMT. -/
abbrev AmtM (V C α : Type) := EStateM (Failure C) (Root V C) α

variable {V C : Type}

namespace Root

/-- `Root::new`: an empty leaf at height zero. -/
def new (bitWidth : Nat) : Root V C where
  bitWidth := bitWidth
  height := 0
  count := 0
  node := .leaf (initSizedVec bitWidth)

/-- One round of the growth loop of `Amt::set`: a non-empty root moves down into the
first slot of a new link node, an empty one is replaced by an empty link node. -/
def grow (root : Root V C) : Root V C :=
  if !root.node.isEmpty then
    { root with
      node := .link ((initSizedVec root.bitWidth).set 0 (some (.dirty root.node)))
      height := Usize.wrappingAdd root.height 1 }
  else
    { root with
      node := .link (initSizedVec root.bitWidth)
      height := Usize.wrappingAdd root.height 1 }

@[simp]
theorem grow_bitWidth (root : Root V C) : root.grow.bitWidth = root.bitWidth := by
  unfold grow
  split <;> rfl

end Root

namespace Amt

/-- Whether index `i` lies past the reach of the root: `i >= nodes_for_height(bit_width,
height + 1)`. -/
def beyondRoot (root : Root V C) (i : Nat) : Bool :=
  i ≥ nodesForHeight root.bitWidth (Usize.wrappingAdd root.height 1)

/-- The `while` loop of `Amt::set`: grow the root while `i` lies beyond it.  Each round
spends one unit of `fuel`; a loop that would go on past it is reported as `diverges`. -/
def growLoop (i : Nat) : Nat → Root V C → Except (Failure C) (Root V C)
  | fuel, root =>
    if beyondRoot root i then
      match fuel with
      | 0 => .error .diverges
      | fuel + 1 => growLoop i fuel root.grow
    else
      .ok root

section Operations

variable (store : Store V C)

/-- `Amt::get`. -/
def get (i : Nat) (root : Root V C) : Except (Failure C) (Option V) :=
  if i > maxIndex then
    .error (.error (.outOfRange i))
  else if beyondRoot root i then
    .ok none
  else
    root.node.get store recursionBound root.height root.bitWidth i

/-- `Amt::set`: grow the root, store the value, and count it if the index was free. -/
def set (i : Nat) (val : V) : AmtM V C Unit := fun root =>
  if i > maxIndex then
    .error (.error (.outOfRange i)) root
  else
    match growLoop i recursionBound root with
    | .error e => .error e root
    | .ok grown =>
      match Node.set store recursionBound grown.height grown.bitWidth i val grown.node with
      | .ok prev node =>
        .ok () { grown with
          node := node
          count := if prev.isNone then Usize.wrappingAdd grown.count 1 else grown.count }
      | .error e node => .error e { grown with node := node }

/-- The `while` loop of `Amt::delete` that moves the only link of the root up, one level
per round. -/
def collapseLoop : Nat → AmtM V C Unit
  | fuel, root =>
    if root.node.canCollapse && root.height > 0 then
      match fuel with
      | 0 => .error .diverges root
      | fuel + 1 =>
        match root.node with
        | .link links =>
          match links.head? with
          | some (some (.dirty node)) =>
            collapseLoop fuel { root with node := node, height := root.height - 1 }
          | some (some (.cid cid cache)) =>
            match loadLink store root.bitWidth cid cache with
            | .ok node => collapseLoop fuel { root with node := node, height := root.height - 1 }
            | .error e => .error e { root with node := .link (links.set 0 (some (.cid cid none))) }
          | _ =>
            .error (.panic ("internal error: entered unreachable code: " ++
              "First index checked to be Some in `can_collapse`")) root
        | .leaf _ =>
          .error (.panic
            "internal error: entered unreachable code: Non zero height cannot be a leaf node") root
    else
      .ok () root

/-- `Amt::delete`: remove the value at `i`, then shrink the root. -/
def delete (i : Nat) : AmtM V C (Option V) := fun root =>
  if i > maxIndex then
    .error (.error (.outOfRange i)) root
  else if beyondRoot root i then
    .ok none root
  else
    match Node.delete store recursionBound root.height root.bitWidth i root.node with
    | .error e node => .error e { root with node := node }
    | .ok none node => .ok none { root with node := node }
    | .ok (some deleted) node =>
      let counted := { root with node := node, count := Usize.wrappingSub root.count 1 }
      if node.isEmpty then
        .ok (some deleted) { counted with node := .leaf (initSizedVec root.bitWidth), height := 0 }
      else
        match collapseLoop store recursionBound counted with
        | .ok () collapsed => .ok (some deleted) collapsed
        | .error e collapsed => .error e collapsed

/-- The loop of `Amt::batch_delete` over the sorted indices.  As in the source, `found`
is `true` when the index was absent. -/
def batchDeleteLoop (strict : Bool) : List Nat → Bool → AmtM V C Bool
  | [], modified => pure modified
  | i :: rest, modified => do
    let found := (← delete store i).isNone
    if strict && found then
      throw (.error (.other s!"no such index {i} in Amt for batch delete"))
    batchDeleteLoop strict rest (modified || found)

/-- `Amt::batch_delete`: delete the indices in increasing order. -/
def batchDelete (indices : List Nat) (strict : Bool) : AmtM V C Bool :=
  batchDeleteLoop store strict (indices.insertionSort (· ≤ ·)) false

/-- The loop of `Amt::batch_set`: the values go to consecutive indices from `i`, and the
first call that fails ends the loop. -/
def batchSetLoop : Nat → List V → AmtM V C Unit
  | _, [] => pure ()
  | i, val :: rest => do
    set store i val
    batchSetLoop (i + 1) rest

/-- `Amt::batch_set`: set the values at the indices `0, 1, 2, …` of their enumeration. -/
def batchSet (vals : List V) : AmtM V C Unit :=
  batchSetLoop store 0 vals

/-- `Amt::for_each_while`: the calls made to `f`, in order. -/
def forEachWhile (f : Nat → V → Bool) (root : Root V C) : Except (Failure C) (List (Nat × V)) :=
  match root.node.forEachWhile store f recursionBound root.height root.bitWidth 0 with
  | .ok (visited, _) => .ok visited
  | .error e => .error e

/-- `Amt::for_each`: every `(index, value)` pair, in the order visited. -/
def forEach (root : Root V C) : Except (Failure C) (List (Nat × V)) :=
  forEachWhile store (fun _ _ => true) root

/-- `Amt::load`: decode a stored root and check its height. -/
def load (cid : C) : Except (Failure C) (Root V C) :=
  match store cid with
  | some (.root bitWidth height count collapsed) =>
    match collapsed.expand bitWidth with
    | .error e => .error (.error (.dynamic e))
    | .ok node =>
      if height > maxHeight then
        .error (.error (.maxHeight height maxHeight))
      else
        .ok ⟨bitWidth, height, count, node⟩
  | some (.node _) => .error (.error .dynamicDecode)
  | none => .error (.error (.cidNotFound cid))

end Operations

/-- `Amt::flush`: flush the root node, then store the root; the CID of the root, the
flushed root and the store are returned. -/
def flush [DecidableEq C] (cidOf : CidOf V C) (store : Store V C) (root : Root V C) :
    Except (Failure C) (C × Root V C × Store V C) :=
  match root.node.flush cidOf store with
  | .error e => .error e
  | .ok (node, store₁) =>
    match node.collapse with
    | .error e => .error (.error e)
    | .ok collapsed =>
      let (cid, store₂) :=
        Store.put cidOf store₁ (.root root.bitWidth root.height root.count collapsed)
      .ok (cid, { root with node := node }, store₂)

/-! ## What `batch_delete` reports -/

section BatchDelete

variable {store : Store V C}

/-- A run of `delete` over indices in turn, from `root` to `final`, with what each call
returned. -/
inductive DeleteRun (store : Store V C) : Root V C → List Nat → List (Option V) → Root V C → Prop
  | nil (root : Root V C) : DeleteRun store root [] [] root
  | cons {root middle final : Root V C} {i : Nat} {rest : List Nat} {result : Option V}
      {results : List (Option V)} (deleted : delete store i root = .ok result middle)
      (restRun : DeleteRun store middle rest results final) :
      DeleteRun store root (i :: rest) (result :: results) final

/-- One round of the non-strict loop: the index is deleted and the flag records whether it
was absent. -/
theorem batchDeleteLoop_cons {i : Nat} {rest : List Nat} {modified : Bool} {root middle : Root V C}
    {result : Option V} (deleted : delete store i root = .ok result middle) :
    batchDeleteLoop store false (i :: rest) modified root =
      batchDeleteLoop store false rest (modified || result.isNone) middle := by
  simp only [batchDeleteLoop]
  rw [EStateM.bind_apply_of_ok deleted]
  simp

/-- The non-strict loop ends where the deletions end, with the flag set when some deletion
found nothing. -/
theorem batchDeleteLoop_of_deleteRun {indices : List Nat} {results : List (Option V)}
    {root final : Root V C} (run : DeleteRun store root indices results final) (modified : Bool) :
    batchDeleteLoop store false indices modified root =
      .ok (modified || results.any Option.isNone) final := by
  induction run generalizing modified with
  | nil root => simp [batchDeleteLoop]
  | cons deleted restRun inductionHypothesis =>
    rw [batchDeleteLoop_cons deleted, inductionHypothesis, List.any_cons, Bool.or_assoc]

/-- `batch_delete(indices, false)` deletes the indices in increasing order and returns whether
one of them was absent, not whether one was present: the flag is `delete(i).is_none()`. -/
theorem batchDelete_reports_absent_index {indices : List Nat} {results : List (Option V)}
    {root final : Root V C}
    (run : DeleteRun store root (indices.insertionSort (· ≤ ·)) results final) :
    batchDelete store indices false root = .ok (results.any Option.isNone) final := by
  rw [batchDelete, batchDeleteLoop_of_deleteRun run, Bool.false_or]

/-- The failing input: an AMT of bit width 3 holding `7` at index `0`, and
`batch_delete([0], false)`, which deletes the value and returns `false`. -/
theorem batchDelete_reports_absent_index_zero :
    batchDelete (fun _ => none) [0] false
        (⟨3, 0, 1, .leaf ((initSizedVec 3).set 0 (some 7))⟩ : Root Nat Nat) =
      .ok false ⟨3, 0, 0, .leaf (initSizedVec 3)⟩ :=
  @batchDelete_reports_absent_index Nat Nat (fun _ => none) [0] [some 7]
    ⟨3, 0, 1, .leaf ((initSizedVec 3).set 0 (some 7))⟩ ⟨3, 0, 0, .leaf (initSizedVec 3)⟩
    (.cons rfl (.nil _))

end BatchDelete

/-- With bit width zero every node covers a single index. -/
theorem nodesForHeight_zero (height : Nat) : nodesForHeight 0 height = 1 := by
  simp [nodesForHeight, Usize.wrappingMul]

/-- At bit width zero every positive index lies beyond the root, however far it grew. -/
theorem beyondRoot_of_bitWidth_zero {root : Root V C} (zeroWidth : root.bitWidth = 0)
    {i : Nat} (positive : 0 < i) : beyondRoot root i = true := by
  simp only [beyondRoot, zeroWidth, nodesForHeight_zero, decide_eq_true_eq]
  omega

/-- At bit width zero the growth loop never leaves a positive index: every round grows
the root, keeps the bit width, and leaves the index beyond it. -/
theorem growLoop_of_bitWidth_zero {root : Root V C} (zeroWidth : root.bitWidth = 0)
    {i : Nat} (positive : 0 < i) (fuel : Nat) :
    growLoop i fuel root = .error .diverges := by
  induction fuel generalizing root with
  | zero =>
    rw [growLoop, if_pos (beyondRoot_of_bitWidth_zero zeroWidth positive)]
  | succ fuel inductionHypothesis =>
    have grownWidth : root.grow.bitWidth = 0 := by
      rw [Root.grow_bitWidth, zeroWidth]
    rw [growLoop, if_pos (beyondRoot_of_bitWidth_zero zeroWidth positive)]
    exact inductionHypothesis grownWidth

/--
`Amt::set` never returns for a positive index on a root of bit width zero, such as the
root of `Amt::new_with_bit_width(store, 0)`: `nodes_for_height(0, _)` is always one, so
the growth loop runs for every amount of fuel, and so does `set`.
-/
theorem set_diverges_of_bitWidth_zero (store : Store V C) (root : Root V C)
    (zeroWidth : root.bitWidth = 0)
    (i : Nat) (positive : 0 < i) (inRange : i ≤ maxIndex) (val : V) :
    (∀ fuel, growLoop i fuel root = .error .diverges) ∧
      set store i val root = .error .diverges root := by
  have loops : ∀ fuel, growLoop i fuel root = .error .diverges :=
    fun fuel => growLoop_of_bitWidth_zero zeroWidth positive fuel
  refine ⟨loops, ?_⟩
  have notAbove : ¬ i > maxIndex := by omega
  rw [set, if_neg notAbove, loops recursionBound]

/-- The failing input: `Amt::new_with_bit_width(store, 0)` followed by `set(1, v)`. -/
theorem set_one_diverges_at_bitWidth_zero :
    (Root.new 0 : Root Nat Nat).bitWidth = 0 ∧ 0 < 1 ∧ 1 ≤ maxIndex ∧
      set (fun _ => none) 1 7 (Root.new 0 : Root Nat Nat) = .error .diverges (Root.new 0) :=
  ⟨rfl, by decide, by decide,
    (set_diverges_of_bitWidth_zero (fun _ => none) (Root.new 0) rfl 1 (by decide) (by decide)
      7).2⟩

end Amt

end Forest.AMT
