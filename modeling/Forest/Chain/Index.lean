import Forest.Chain.ChainStore
import Forest.Lib.Result

/-!
# The chain index

`ChainIndex::get_tipset_by_height` finds the tipset of an ancestry at a height with a skip list:
it rounds the start down to a multiple of `SKIP_LENGTH`, then follows cached lookback entries,
each of which names a tipset, the height of its parent and a skip target about `SKIP_LENGTH`
epochs lower, and finishes with `walk_back`, which loads one parent at a time.  `walk_back` alone
returns the lowest tipset of the ancestry whose epoch is at least the height (`walkBack_eq`).

`fill_cache` computes an entry for a tipset.  Its skip target is the walk from the parent down
to `round_height(epoch) - SKIP_LENGTH`, which for a tipset of epoch between 1 and
`SKIP_LENGTH - 1` is negative: that walk passes the genesis and loads its parents, and fails.
A tipset of such an epoch is reached by the skip list when null rounds leave more than
`SKIP_LENGTH` epochs above it: the entry of the tipset above has it as its skip target.  There
`get_tipset_by_height` fails where `walk_back` finds the tipset.

The loops run with fuel; running out of it stands for a loop that does not end.  The height
`to` of the source is `toEpoch` here, `to` being a keyword.
-/

namespace Forest.Chain

open Forest.Blocks

/-- `SKIP_LENGTH`: the number of epochs between the tipsets of the skip list. -/
def skipLength : Int := 20

/-- `LookbackEntry`: a tipset, the epoch of its parent, and its skip target with the target's
epoch. -/
structure LookbackEntry where
  tipset : Tipset
  parentHeight : Int
  targetHeight : Int
  target : TipsetKeys

/-- The state of a `ChainIndex` its methods change: the skip cache.  The eviction of the
`LruCache` is not modelled. -/
structure ChainIndex where
  skipCache : TipsetKeys → Option LookbackEntry

namespace ChainIndex

/-- How a lookup ends without a tipset: an error of the chain store, or the fuel of a loop
running out, which stands for a loop that does not end. -/
inductive Failure where
  | error (e : Error)
  | outOfFuel

/-- A method of the index: it may change the skip cache, and it may fail. -/
abbrev IndexM := EStateM Failure ChainIndex

section Methods

-- `load_tipset`: `tipset_from_keys` over the tipset cache and the block store
variable (loadTipset : TipsetKeys → Except Error Tipset)

/-- The loop of `walk_back`: load the parent until its epoch is at most `toEpoch`. -/
def walkBackLoop (toEpoch : Int) : Nat → Tipset → Except Failure Tipset
  | 0, _ => .error .outOfFuel
  | fuel + 1, ts => do
    let pts ← (loadTipset ts.parents).mapError .error
    if toEpoch > pts.epoch then return ts
    if toEpoch = pts.epoch then return pts
    walkBackLoop toEpoch fuel pts

/-- `walk_back`: the lowest tipset from `fromTipset` down whose epoch is at least `toEpoch`. -/
def walkBack (fuel : Nat) (fromTipset : Tipset) (toEpoch : Int) : Except Failure Tipset :=
  if toEpoch > fromTipset.epoch then
    .error (.error (.other "Looking for tipset with height greater than start point"))
  else if toEpoch = fromTipset.epoch then .ok fromTipset
  else walkBackLoop loadTipset toEpoch fuel fromTipset

/-- `round_height`: the epoch rounded towards zero to a multiple of `SKIP_LENGTH`. -/
def roundHeight (height : Int) : Int :=
  height.tdiv skipLength * skipLength

/-- `round_down`: the walk down to the rounded epoch. -/
def roundDown (fuel : Nat) (ts : Tipset) : Except Failure Tipset :=
  walkBack loadTipset fuel ts (roundHeight ts.epoch)

/-- `fill_cache`: the entry of the tipset of `tsk`, stored in the skip cache unless the tipset
is a genesis. -/
def fillCache (fuel : Nat) (tsk : TipsetKeys) : IndexM LookbackEntry := do
  let tipset ← liftExcept ((loadTipset tsk).mapError Failure.error)
  if tipset.epoch = 0 then
    return ⟨tipset, 0, 0, ⟨[]⟩⟩
  let parent ← liftExcept ((loadTipset tipset.parents).mapError Failure.error)
  let rHeight := roundHeight tipset.epoch - skipLength
  let parentEpoch := parent.epoch
  let skipTarget ← if parent.epoch < rHeight then pure parent
    else liftExcept (walkBack loadTipset fuel parent rHeight)
  let lbe : LookbackEntry := ⟨tipset, parentEpoch, skipTarget.epoch, skipTarget.key⟩
  modify fun index => ⟨Function.update index.skipCache tsk (some lbe)⟩
  return lbe

/-- The loop of `get_tipset_by_height` over the skip list, from the entry of `cur`. -/
def getTipsetByHeightLoop (fuel : Nat) (toEpoch : Int) : Nat → TipsetKeys → IndexM Tipset
  | 0, _ => throw .outOfFuel
  | steps + 1, cur => do
    let lbe ← match (← get).skipCache cur with
      | some cached => pure cached
      | none => fillCache loadTipset fuel cur
    if lbe.tipset.epoch = toEpoch ∨ lbe.parentHeight < toEpoch then
      return lbe.tipset
    else if toEpoch > lbe.targetHeight then
      liftExcept (walkBack loadTipset fuel lbe.tipset toEpoch)
    else
      getTipsetByHeightLoop fuel toEpoch steps lbe.target

/-- `get_tipset_by_height`: near the start a plain walk, otherwise the skip list from the
rounded start. -/
def getTipsetByHeight (fuel : Nat) (fromTipset : Tipset) (toEpoch : Int) : IndexM Tipset :=
  if fromTipset.epoch - toEpoch ≤ skipLength then
    liftExcept (walkBack loadTipset fuel fromTipset toEpoch)
  else do
    let rounded ← liftExcept (roundDown loadTipset fuel fromTipset)
    getTipsetByHeightLoop loadTipset fuel toEpoch fuel rounded.key

end Methods

end ChainIndex

/-! ## The ancestry and the tipset at a height -/

/-- `Ancestry loadTipset ts below`: `ts` and the tipsets `below` it down to a genesis, as the
store links them.  Each tipset's key loads it; its parents key loads the next tipset, of a
smaller epoch; the last is a genesis of epoch 0 whose parents key loads nothing. -/
inductive Ancestry (loadTipset : TipsetKeys → Except Error Tipset) : Tipset → List Tipset → Prop
  | genesis {ts : Tipset} (keyed : loadTipset ts.key = .ok ts) (epochZero : ts.epoch = 0)
      (noParent : ∃ e, loadTipset ts.parents = .error e) : Ancestry loadTipset ts []
  | cons {ts parent : Tipset} {rest : List Tipset} (keyed : loadTipset ts.key = .ok ts)
      (linked : loadTipset ts.parents = .ok parent) (lower : parent.epoch < ts.epoch)
      (above : Ancestry loadTipset parent rest) : Ancestry loadTipset ts (parent :: rest)

/-- The walk down from `ts` while the parent's epoch is at least `toEpoch`: the tipset it stops
at, and the tipsets below that. -/
def walkDown (toEpoch : Int) : Tipset → List Tipset → Tipset × List Tipset
  | ts, [] => (ts, [])
  | ts, parent :: rest =>
    if parent.epoch < toEpoch then (ts, parent :: rest) else walkDown toEpoch parent rest

/-- The lowest tipset from `ts` down whose epoch is at least `toEpoch`. -/
def lowestAtLeast (toEpoch : Int) (ts : Tipset) (below : List Tipset) : Tipset :=
  (walkDown toEpoch ts below).1

/-- What the lowest tipset at or above a height is, said of the tipsets themselves. -/
structure IsLowestAtLeast (toEpoch : Int) (ancestry : List Tipset) (lowest : Tipset) : Prop where
  mem : lowest ∈ ancestry
  atLeast : toEpoch ≤ lowest.epoch
  le : ∀ ts ∈ ancestry, toEpoch ≤ ts.epoch → lowest.epoch ≤ ts.epoch

/-- The walk down stops on a tipset of the list, and what it returns below it is what the list
has below it. -/
theorem walkDown_suffix (toEpoch : Int) (ts : Tipset) (below : List Tipset) :
    (walkDown toEpoch ts below).1 :: (walkDown toEpoch ts below).2 <:+ ts :: below := by
  induction below generalizing ts with
  | nil => exact List.suffix_refl _
  | cons parent rest inductionHypothesis =>
    unfold walkDown
    split
    · exact List.suffix_refl _
    · exact (inductionHypothesis parent).trans (List.suffix_cons _ _)

theorem walkDown_length_le (toEpoch : Int) (ts : Tipset) (below : List Tipset) :
    (walkDown toEpoch ts below).2.length ≤ below.length := by
  have shorter := (walkDown_suffix toEpoch ts below).length_le
  simp only [List.length_cons] at shorter
  omega

section Ancestry

variable {loadTipset : TipsetKeys → Except Error Tipset}

theorem Ancestry.keyed {ts : Tipset} {below : List Tipset}
    (ancestry : Ancestry loadTipset ts below) : loadTipset ts.key = .ok ts := by
  cases ancestry with
  | genesis keyed => exact keyed
  | cons keyed => exact keyed

/-- The first tipset below is the one the parents key loads, lower, with its own ancestry. -/
theorem Ancestry.parent {ts parent : Tipset} {rest : List Tipset}
    (ancestry : Ancestry loadTipset ts (parent :: rest)) :
    loadTipset ts.parents = .ok parent ∧ parent.epoch < ts.epoch ∧ Ancestry loadTipset parent rest := by
  cases ancestry with
  | cons _ linked lower above => exact ⟨linked, lower, above⟩

/-- Every tipset below is lower than the tipset above it. -/
theorem Ancestry.lt_of_mem {ts : Tipset} {below : List Tipset}
    (ancestry : Ancestry loadTipset ts below) : ∀ t ∈ below, t.epoch < ts.epoch := by
  induction ancestry with
  | genesis => simp
  | cons _ _ lower _ inductionHypothesis =>
    intro t member
    rcases List.mem_cons.mp member with rfl | deeper
    · exact lower
    · exact (inductionHypothesis t deeper).trans lower

theorem Ancestry.epoch_nonneg {ts : Tipset} {below : List Tipset}
    (ancestry : Ancestry loadTipset ts below) : 0 ≤ ts.epoch := by
  induction ancestry with
  | genesis _ epochZero => omega
  | cons _ _ lower _ inductionHypothesis => omega

/-- Only a genesis has no tipset below it. -/
theorem Ancestry.epoch_eq_zero_iff {ts : Tipset} {below : List Tipset}
    (ancestry : Ancestry loadTipset ts below) : ts.epoch = 0 ↔ below = [] := by
  cases ancestry with
  | genesis _ epochZero => simp [epochZero]
  | cons _ _ lower above =>
    have parentNonneg := above.epoch_nonneg
    simp only [reduceCtorEq, iff_false]
    omega

/-- The walk down stops on a tipset of the ancestry, with that tipset's own ancestry. -/
theorem Ancestry.ofWalkDown {ts : Tipset} {below : List Tipset}
    (ancestry : Ancestry loadTipset ts below) (toEpoch : Int) :
    Ancestry loadTipset (walkDown toEpoch ts below).1 (walkDown toEpoch ts below).2 := by
  induction ancestry with
  | genesis keyed epochZero noParent => exact .genesis keyed epochZero noParent
  | cons keyed linked lower above inductionHypothesis =>
    unfold walkDown
    split
    · exact .cons keyed linked lower above
    · exact inductionHypothesis

/-- The walk down never climbs, and never passes below `toEpoch` from a tipset at or above it. -/
theorem Ancestry.walkDown_epoch {ts : Tipset} {below : List Tipset}
    (ancestry : Ancestry loadTipset ts below) (toEpoch : Int) :
    (walkDown toEpoch ts below).1.epoch ≤ ts.epoch ∧
      (toEpoch ≤ ts.epoch → toEpoch ≤ (walkDown toEpoch ts below).1.epoch) := by
  induction ancestry with
  | genesis => simp [walkDown]
  | @cons ts parent rest _ _ lower _ inductionHypothesis =>
    unfold walkDown
    split
    · simp
    · rename_i notBelow
      obtain ⟨descends, stays⟩ := inductionHypothesis
      exact ⟨descends.trans lower.le, fun _ => stays (by omega)⟩

/-- Walking down to a height and then on to a lower one is walking to the lower one, as long as
the first walk stopped at or above it. -/
theorem Ancestry.walkDown_walkDown {ts : Tipset} {below : List Tipset}
    (ancestry : Ancestry loadTipset ts below) {toEpoch height : Int}
    (above : toEpoch ≤ (walkDown height ts below).1.epoch) :
    walkDown toEpoch (walkDown height ts below).1 (walkDown height ts below).2 =
      walkDown toEpoch ts below := by
  induction ancestry with
  | genesis => rfl
  | @cons ts parent rest _ _ lower parentAncestry inductionHypothesis =>
    by_cases stop : parent.epoch < height
    · have first : walkDown height ts (parent :: rest) = (ts, parent :: rest) := by
        simp [walkDown, stop]
      rw [first]
    · have first : walkDown height ts (parent :: rest) = walkDown height parent rest := by
        simp [walkDown, stop]
      rw [first] at above ⊢
      -- the parent is above the first stop, so the walk to `toEpoch` passes it too
      have reached := (parentAncestry.walkDown_epoch height).1
      have parentAbove : ¬ parent.epoch < toEpoch := by omega
      rw [inductionHypothesis above]
      simp [walkDown, parentAbove]

/-- The walk down finds the lowest tipset at or above the height. -/
theorem Ancestry.isLowestAtLeast {ts : Tipset} {below : List Tipset}
    (ancestry : Ancestry loadTipset ts below) {toEpoch : Int} (reached : toEpoch ≤ ts.epoch) :
    IsLowestAtLeast toEpoch (ts :: below) (lowestAtLeast toEpoch ts below) := by
  unfold lowestAtLeast
  induction ancestry with
  | genesis =>
    refine ⟨List.mem_singleton_self _, reached, fun t member _ => ?_⟩
    rw [List.mem_singleton.mp member]
    exact le_refl _
  | @cons ts parent rest _ _ lower parentAncestry inductionHypothesis =>
    unfold walkDown
    split
    · rename_i belowHeight
      refine ⟨List.mem_cons_self, reached, fun t member atLeast => ?_⟩
      rcases List.mem_cons.mp member with rfl | deeper
      · exact le_refl _
      · -- everything below the parent is lower still
        rcases List.mem_cons.mp deeper with rfl | deeper
        · omega
        · have := parentAncestry.lt_of_mem t deeper
          omega
    · rename_i notBelow
      obtain ⟨mem, atLeast, le⟩ := inductionHypothesis (by omega)
      refine ⟨List.mem_cons_of_mem _ mem, atLeast, fun t member tAtLeast => ?_⟩
      rcases List.mem_cons.mp member with rfl | deeper
      · exact (parentAncestry.walkDown_epoch toEpoch).1.trans lower.le
      · exact le t deeper tAtLeast

end Ancestry

/-- A walk down from a tipset at or below the height stays on it. -/
theorem walkDown_of_le {loadTipset : TipsetKeys → Except Error Tipset} {ts : Tipset}
    {below : List Tipset} (ancestry : Ancestry loadTipset ts below) {toEpoch : Int}
    (atMost : ts.epoch ≤ toEpoch) : walkDown toEpoch ts below = (ts, below) := by
  cases ancestry with
  | genesis => rfl
  | @cons _ parent _ _ _ lower _ => simp [walkDown, show parent.epoch < toEpoch by omega]

/-! ## walk_back -/

section Walk

variable {loadTipset : TipsetKeys → Except Error Tipset}

open ChainIndex

/-- The loop of `walk_back` from a tipset above a height that is not negative returns the lowest
tipset at or above the height, unless its fuel, at most the number of tipsets below, runs out. -/
theorem walkBackLoop_cases {ts : Tipset} {below : List Tipset}
    (ancestry : Ancestry loadTipset ts below) {toEpoch : Int} (nonneg : 0 ≤ toEpoch)
    (lower : toEpoch < ts.epoch) (fuel : Nat) :
    walkBackLoop loadTipset toEpoch fuel ts = .ok (lowestAtLeast toEpoch ts below) ∨
      (walkBackLoop loadTipset toEpoch fuel ts = .error .outOfFuel ∧ fuel ≤ below.length) := by
  induction ancestry generalizing fuel with
  | genesis _ epochZero => omega
  | @cons ts parent rest _ linked parentLower parentAncestry inductionHypothesis =>
    cases fuel with
    | zero => exact .inr ⟨rfl, Nat.zero_le _⟩
    | succ fuel =>
      simp only [walkBackLoop, linked, Except.mapError, bind, Except.bind, pure, Except.pure]
      by_cases passed : toEpoch > parent.epoch
      · simp [passed, lowestAtLeast, walkDown]
      · by_cases reached : toEpoch = parent.epoch
        · -- the parent is at the height, and nothing below it is
          simp [reached, lowestAtLeast, walkDown, walkDown_of_le parentAncestry le_rfl]
        · simp only [passed, reached, if_false]
          have continues : ¬ parent.epoch < toEpoch := by omega
          rcases inductionHypothesis (by omega) fuel with found | ranOut
          · exact .inl (by rw [found, lowestAtLeast, lowestAtLeast, walkDown, if_neg continues])
          · exact .inr ⟨ranOut.1, by simp only [List.length_cons]; omega⟩

/-- `walk_back` to a height between 0 and the start returns the lowest tipset at or above the
height, unless its fuel, at most the number of tipsets below, runs out. -/
theorem walkBack_cases {ts : Tipset} {below : List Tipset} (ancestry : Ancestry loadTipset ts below)
    {toEpoch : Int} (nonneg : 0 ≤ toEpoch) (atMost : toEpoch ≤ ts.epoch) (fuel : Nat) :
    walkBack loadTipset fuel ts toEpoch = .ok (lowestAtLeast toEpoch ts below) ∨
      (walkBack loadTipset fuel ts toEpoch = .error .outOfFuel ∧ fuel ≤ below.length) := by
  unfold walkBack
  rw [if_neg (by omega)]
  split
  · left
    rw [lowestAtLeast, walkDown_of_le ancestry (by omega)]
  · exact walkBackLoop_cases ancestry nonneg (by omega) fuel

/-- With more fuel than tipsets below the start, `walk_back` to a height between 0 and the start
returns the lowest tipset at or above the height. -/
theorem walkBack_eq {ts : Tipset} {below : List Tipset} (ancestry : Ancestry loadTipset ts below)
    {toEpoch : Int} (nonneg : 0 ≤ toEpoch) (atMost : toEpoch ≤ ts.epoch) {fuel : Nat}
    (enough : below.length < fuel) :
    walkBack loadTipset fuel ts toEpoch = .ok (lowestAtLeast toEpoch ts below) := by
  rcases walkBack_cases ancestry nonneg atMost fuel with found | ranOut
  · exact found
  · omega

/-- Whatever its fuel, `walk_back` between 0 and the start returns nothing but the lowest tipset
at or above the height. -/
theorem walkBack_eq_ok {ts : Tipset} {below : List Tipset} (ancestry : Ancestry loadTipset ts below)
    {toEpoch : Int} (nonneg : 0 ≤ toEpoch) (atMost : toEpoch ≤ ts.epoch) {fuel : Nat}
    {found : Tipset} (walked : walkBack loadTipset fuel ts toEpoch = .ok found) :
    found = lowestAtLeast toEpoch ts below := by
  rcases walkBack_cases ancestry nonneg atMost fuel with same | ranOut
  · rw [same] at walked
    cases walked
    rfl
  · rw [ranOut.1] at walked
    cases walked

/-- A walk to a negative height passes the genesis: it never returns a tipset, and with more fuel
than tipsets below it fails with the error of loading the genesis's parents. -/
theorem walkBackLoop_below_genesis {ts : Tipset} {below : List Tipset}
    (ancestry : Ancestry loadTipset ts below) {toEpoch : Int} (negative : toEpoch < 0)
    (fuel : Nat) :
    (∀ found, walkBackLoop loadTipset toEpoch fuel ts ≠ .ok found) ∧
      (below.length < fuel → ∃ e, walkBackLoop loadTipset toEpoch fuel ts = .error (.error e)) := by
  induction ancestry generalizing fuel with
  | genesis _ _ noParent =>
    obtain ⟨e, failed⟩ := noParent
    cases fuel with
    | zero => simp [walkBackLoop]
    | succ fuel =>
      simp [walkBackLoop, failed, Except.mapError, bind, Except.bind]
  | @cons ts parent rest _ linked _ parentAncestry inductionHypothesis =>
    cases fuel with
    | zero => simp [walkBackLoop]
    | succ fuel =>
      have parentNonneg := parentAncestry.epoch_nonneg
      have notPassed : ¬ toEpoch > parent.epoch := by omega
      have notReached : ¬ toEpoch = parent.epoch := by omega
      simp only [walkBackLoop, linked, Except.mapError, bind, Except.bind, pure, Except.pure,
        notPassed, notReached, if_false]
      obtain ⟨never, fails⟩ := inductionHypothesis fuel
      exact ⟨never, fun enough => fails (by simp only [List.length_cons] at enough; omega)⟩

end Walk

/-! ## fill_cache -/

section Round

open ChainIndex

theorem skipLength_eq : skipLength = 20 := rfl

theorem roundHeight_of_nonneg {height : Int} (nonneg : 0 ≤ height) :
    roundHeight height = height / skipLength * skipLength := by
  rw [roundHeight, Int.tdiv_eq_ediv_of_nonneg nonneg]

/-- An epoch that is not negative rounds down to less than `SKIP_LENGTH` below it. -/
theorem roundHeight_bounds {height : Int} (nonneg : 0 ≤ height) :
    0 ≤ roundHeight height ∧ roundHeight height ≤ height ∧ height < roundHeight height + skipLength := by
  rw [roundHeight_of_nonneg nonneg, skipLength_eq]
  omega

theorem skipLength_le_roundHeight {height : Int} (atLeast : skipLength ≤ height) :
    skipLength ≤ roundHeight height := by
  rw [roundHeight_of_nonneg (by rw [skipLength_eq] at atLeast; omega), skipLength_eq]
  rw [skipLength_eq] at atLeast
  omega

end Round

/-- The entry `fill_cache` computes for a tipset of an ancestry: a genesis is its own sentinel;
any other tipset skips to the lowest tipset below it at or above its rounded epoch less
`SKIP_LENGTH`. -/
def entryOf (ts : Tipset) : List Tipset → LookbackEntry
  | [] => ⟨ts, 0, 0, ⟨[]⟩⟩
  | parent :: rest =>
    let target := lowestAtLeast (ChainIndex.roundHeight ts.epoch - skipLength) parent rest
    ⟨ts, parent.epoch, target.epoch, target.key⟩

section FillCache

variable {loadTipset : TipsetKeys → Except Error Tipset}

open ChainIndex

/-- `fill_cache` on a genesis returns the sentinel entry and caches nothing. -/
theorem fillCache_genesis {tsk : TipsetKeys} {ts : Tipset} (loaded : loadTipset tsk = .ok ts)
    (epochZero : ts.epoch = 0) (fuel : Nat) (index : ChainIndex) :
    fillCache loadTipset fuel tsk index = .ok (entryOf ts []) index := by
  simp [fillCache, loaded, Except.mapError, epochZero, entryOf]

/-- `fill_cache` on a tipset of epoch at least `SKIP_LENGTH` caches and returns its entry,
unless the walk to the skip target runs out of fuel. -/
theorem fillCache_cases {tsk : TipsetKeys} {ts : Tipset} {below : List Tipset}
    (loaded : loadTipset tsk = .ok ts) (ancestry : Ancestry loadTipset ts below)
    (notShort : skipLength ≤ ts.epoch) (fuel : Nat) (index : ChainIndex) :
    fillCache loadTipset fuel tsk index =
        .ok (entryOf ts below) ⟨Function.update index.skipCache tsk (some (entryOf ts below))⟩ ∨
      (fillCache loadTipset fuel tsk index = .error .outOfFuel index ∧ fuel < below.length) := by
  cases ancestry with
  | genesis _ epochZero => rw [skipLength_eq] at notShort; omega
  | @cons _ parent rest _ linked lower parentAncestry =>
    have nonzero : ts.epoch ≠ 0 := by rw [skipLength_eq] at notShort; omega
    have rounded := skipLength_le_roundHeight notShort
    simp only [fillCache, loaded, linked, Except.mapError, EStateM.liftExcept_ok, EStateM.pure_bind,
      nonzero, if_false]
    by_cases skip : parent.epoch < roundHeight ts.epoch - skipLength
    · -- the parent is already below the rounded height: it is the skip target
      left
      simp [skip, EStateM.map_apply_of_ok (EStateM.modify_apply _ _), entryOf, lowestAtLeast,
        walkDown_of_le parentAncestry skip.le]
    · rcases walkBack_cases parentAncestry (show 0 ≤ roundHeight ts.epoch - skipLength by omega)
        (by omega) fuel with found | ranOut
      · left
        simp [skip, found, EStateM.map_apply_of_ok (EStateM.modify_apply _ _), entryOf]
      · right
        simp only [skip, if_false, ranOut.1]
        exact ⟨rfl, by simp only [List.length_cons]; omega⟩

/-- `fill_cache` on a tipset of epoch between 1 and `SKIP_LENGTH - 1` never returns an entry: the
walk to its skip target passes the genesis, and with enough fuel fails there. -/
theorem fillCache_short {tsk : TipsetKeys} {ts : Tipset} {below : List Tipset}
    (loaded : loadTipset tsk = .ok ts) (ancestry : Ancestry loadTipset ts below)
    (positive : 0 < ts.epoch) (short : ts.epoch < skipLength) (fuel : Nat) (index : ChainIndex) :
    (∀ entry index', fillCache loadTipset fuel tsk index ≠ .ok entry index') ∧
      (below.length ≤ fuel → ∃ e, fillCache loadTipset fuel tsk index = .error (.error e) index) := by
  cases ancestry with
  | genesis _ epochZero => omega
  | @cons _ parent rest _ linked lower parentAncestry =>
    have nonzero : ts.epoch ≠ 0 := by omega
    have parentNonneg := parentAncestry.epoch_nonneg
    have negative : roundHeight ts.epoch - skipLength < 0 := by
      have := (roundHeight_bounds positive.le).2.1
      omega
    have noSkip : ¬ parent.epoch < roundHeight ts.epoch - skipLength := by omega
    obtain ⟨never, fails⟩ := walkBackLoop_below_genesis parentAncestry negative fuel
    have walk : walkBack loadTipset fuel parent (roundHeight ts.epoch - skipLength) =
        walkBackLoop loadTipset (roundHeight ts.epoch - skipLength) fuel parent := by
      simp only [walkBack, show ¬ roundHeight ts.epoch - skipLength > parent.epoch by omega,
        show ¬ roundHeight ts.epoch - skipLength = parent.epoch by omega, if_false]
    simp only [fillCache, loaded, linked, Except.mapError, EStateM.liftExcept_ok, EStateM.pure_bind,
      nonzero, noSkip, if_false, walk]
    constructor
    · intro entry index' ran
      cases walked : walkBackLoop loadTipset (roundHeight ts.epoch - skipLength) fuel parent with
      | ok target => exact never target walked
      | error failure => simp [walked] at ran
    · intro enough
      obtain ⟨e, failed⟩ := fails (by simp only [List.length_cons] at enough; omega)
      exact ⟨e, by simp [failed]⟩

/-- Whatever its fuel, `fill_cache` returns nothing but the entry of its tipset, and caches it
unless the tipset is a genesis. -/
theorem fillCache_eq_ok {tsk : TipsetKeys} {ts : Tipset} {below : List Tipset}
    (loaded : loadTipset tsk = .ok ts) (ancestry : Ancestry loadTipset ts below) {fuel : Nat}
    {index index' : ChainIndex} {entry : LookbackEntry}
    (ran : fillCache loadTipset fuel tsk index = .ok entry index') :
    entry = entryOf ts below ∧
      (index' = index ∨ index' = ⟨Function.update index.skipCache tsk (some entry)⟩) := by
  have nonneg := ancestry.epoch_nonneg
  by_cases epochZero : ts.epoch = 0
  · rw [fillCache_genesis loaded epochZero, EStateM.Result.ok.injEq] at ran
    rw [← ran.1, ancestry.epoch_eq_zero_iff.mp epochZero]
    exact ⟨rfl, .inl ran.2.symm⟩
  · by_cases short : ts.epoch < skipLength
    · exact absurd ran ((fillCache_short loaded ancestry (by omega) short fuel index).1 _ _)
    · rcases fillCache_cases loaded ancestry (by omega) fuel index with cached | ranOut
      · rw [cached, EStateM.Result.ok.injEq] at ran
        rw [← ran.1]
        exact ⟨rfl, .inr ran.2.symm⟩
      · rw [ranOut.1] at ran
        cases ran

/-- `fill_cache` on a tipset whose epoch is 0 or at least `SKIP_LENGTH` returns its entry, in a
cache that holds it unless the tipset is a genesis, unless the walk to the skip target runs out of
fuel. -/
theorem fillCache_eq_or_outOfFuel {tsk : TipsetKeys} {ts : Tipset} {below : List Tipset}
    (loaded : loadTipset tsk = .ok ts) (ancestry : Ancestry loadTipset ts below)
    (notShort : ts.epoch = 0 ∨ skipLength ≤ ts.epoch) (fuel : Nat) (index : ChainIndex) :
    (∃ index', fillCache loadTipset fuel tsk index = .ok (entryOf ts below) index' ∧
      (index' = index ∨ index' = ⟨Function.update index.skipCache tsk (some (entryOf ts below))⟩)) ∨
    (fillCache loadTipset fuel tsk index = .error .outOfFuel index ∧ fuel < below.length) := by
  rcases notShort with epochZero | atLeast
  · rw [ancestry.epoch_eq_zero_iff.mp epochZero]
    exact .inl ⟨index, fillCache_genesis loaded epochZero fuel index, .inl rfl⟩
  · rcases fillCache_cases loaded ancestry atLeast fuel index with cached | ranOut
    · exact .inl ⟨_, cached, .inr rfl⟩
    · exact .inr ranOut

end FillCache

/-! ## The skip cache -/

/-- The skip cache holds only entries `fill_cache` returned for their own keys, from the same
store. -/
def FilledFrom (loadTipset : TipsetKeys → Except Error Tipset) (index : ChainIndex) : Prop :=
  ∀ tsk entry, index.skipCache tsk = some entry →
    ∃ fuel before after, ChainIndex.fillCache loadTipset fuel tsk before = .ok entry after

section SkipCache

variable {loadTipset : TipsetKeys → Except Error Tipset}

open ChainIndex

theorem FilledFrom.empty : FilledFrom loadTipset ⟨fun _ => none⟩ := by
  intro _ _ cached
  cases cached

/-- `fill_cache` keeps the cache filled from the store: what it adds, it returned. -/
theorem FilledFrom.fillCache {index index' : ChainIndex} (filled : FilledFrom loadTipset index)
    {fuel : Nat} {tsk : TipsetKeys} {entry : LookbackEntry}
    (ran : fillCache loadTipset fuel tsk index = .ok entry index')
    (stored : index' = index ∨ index' = ⟨Function.update index.skipCache tsk (some entry)⟩) :
    FilledFrom loadTipset index' := by
  rcases stored with rfl | rfl
  · exact filled
  · intro key cachedEntry cached
    by_cases same : key = tsk
    · subst same
      simp only [Function.update_self, Option.some.injEq] at cached
      exact ⟨fuel, index, _, cached ▸ ran⟩
    · simp only [Function.update_of_ne same] at cached
      exact filled key cachedEntry cached

/-- An entry of a cache filled from the store is the entry of its tipset, and no tipset of epoch
between 1 and `SKIP_LENGTH - 1` has one. -/
theorem FilledFrom.entry {index : ChainIndex} (filled : FilledFrom loadTipset index)
    {tsk : TipsetKeys} {ts : Tipset} {below : List Tipset} (loaded : loadTipset tsk = .ok ts)
    (ancestry : Ancestry loadTipset ts below) {entry : LookbackEntry}
    (cached : index.skipCache tsk = some entry) :
    entry = entryOf ts below ∧ (ts.epoch = 0 ∨ skipLength ≤ ts.epoch) := by
  obtain ⟨fuel, before, after, ran⟩ := filled tsk entry cached
  refine ⟨(fillCache_eq_ok loaded ancestry ran).1, ?_⟩
  by_contra short
  have positive : 0 < ts.epoch := by have := ancestry.epoch_nonneg; omega
  exact (fillCache_short loaded ancestry positive (by omega) fuel before).1 _ _ ran

end SkipCache

/-! ## get_tipset_by_height -/

section Lookup

variable {loadTipset : TipsetKeys → Except Error Tipset}

open ChainIndex

/-- One iteration of the lookup loop at a tipset whose epoch is 0 or at least `SKIP_LENGTH`:
whether the entry is cached or filled, the loop goes on with the entry of the tipset, in a cache
still filled from the store, unless filling it runs out of fuel. -/
theorem getTipsetByHeightLoop_succ {cur : Tipset} {below : List Tipset}
    (ancestry : Ancestry loadTipset cur below) (notShort : cur.epoch = 0 ∨ skipLength ≤ cur.epoch)
    {index : ChainIndex} (filled : FilledFrom loadTipset index) (fuel : Nat) (toEpoch : Int)
    (steps : Nat) :
    (∃ index', FilledFrom loadTipset index' ∧
      getTipsetByHeightLoop loadTipset fuel toEpoch (steps + 1) cur.key index =
        (if (entryOf cur below).tipset.epoch = toEpoch ∨ (entryOf cur below).parentHeight < toEpoch
          then pure (entryOf cur below).tipset
          else if toEpoch > (entryOf cur below).targetHeight then
            liftExcept (walkBack loadTipset fuel (entryOf cur below).tipset toEpoch)
          else getTipsetByHeightLoop loadTipset fuel toEpoch steps (entryOf cur below).target :
            IndexM Tipset) index') ∨
    (getTipsetByHeightLoop loadTipset fuel toEpoch (steps + 1) cur.key index =
      .error .outOfFuel index ∧ fuel < below.length) := by
  cases cached : index.skipCache cur.key with
  | some entry =>
    -- a hit: the cache holds the entry `fill_cache` would compute
    obtain ⟨rfl, -⟩ := filled.entry ancestry.keyed ancestry cached
    exact .inl ⟨index, filled, by simp only [getTipsetByHeightLoop, EStateM.get_bind, cached,
      EStateM.pure_bind]⟩
  | none =>
    rcases fillCache_eq_or_outOfFuel ancestry.keyed ancestry notShort fuel index with
      ⟨index', ran, stored⟩ | ranOut
    · refine .inl ⟨index', filled.fillCache ran stored, ?_⟩
      simp only [getTipsetByHeightLoop, EStateM.get_bind, cached]
      rw [EStateM.bind_apply_of_ok ran]
    · refine .inr ⟨?_, ranOut.2⟩
      simp only [getTipsetByHeightLoop, EStateM.get_bind, cached]
      rw [EStateM.bind_apply_of_error ranOut.1]

/-- The lookup loop from a tipset of an ancestry with no epoch between 1 and `SKIP_LENGTH - 1`,
at or above a height that is not negative, with more fuel and steps than tipsets below it,
returns the lowest tipset at or above the height. -/
theorem getTipsetByHeightLoop_eq {cur : Tipset} {below : List Tipset}
    (ancestry : Ancestry loadTipset cur below)
    (notShort : ∀ ts ∈ cur :: below, ts.epoch = 0 ∨ skipLength ≤ ts.epoch) {toEpoch : Int}
    (nonneg : 0 ≤ toEpoch) (atMost : toEpoch ≤ cur.epoch) {fuel steps : Nat}
    (enough : below.length < fuel) (enoughSteps : below.length < steps) {index : ChainIndex}
    (filled : FilledFrom loadTipset index) :
    ∃ index', getTipsetByHeightLoop loadTipset fuel toEpoch steps cur.key index =
      .ok (lowestAtLeast toEpoch cur below) index' ∧ FilledFrom loadTipset index' := by
  -- induction on the steps; each iteration moves to a skip target lower in the ancestry
  induction steps generalizing cur below index with
  | zero => omega
  | succ steps inductionHypothesis =>
    rcases getTipsetByHeightLoop_succ ancestry (notShort cur List.mem_cons_self) filled fuel
      toEpoch steps with ⟨index', filled', unfolded⟩ | ranOut
    · rw [unfolded]
      cases ancestry with
      | genesis _ epochZero =>
        have atGenesis : toEpoch = cur.epoch := by omega
        exact ⟨index', by simp [entryOf, atGenesis, lowestAtLeast, walkDown], filled'⟩
      | @cons _ parent rest keyed linked lower parentAncestry =>
        have whole : Ancestry loadTipset cur (parent :: rest) :=
          .cons keyed linked lower parentAncestry
        -- the entry names the tipset, its parent's epoch and the skip target of `fill_cache`
        have entry : entryOf cur (parent :: rest) = ⟨cur, parent.epoch,
            (lowestAtLeast (roundHeight cur.epoch - skipLength) parent rest).epoch,
            (lowestAtLeast (roundHeight cur.epoch - skipLength) parent rest).key⟩ := rfl
        rw [entry]
        by_cases stops : cur.epoch = toEpoch ∨ parent.epoch < toEpoch
        · -- the parent is below the height: the tipset itself is the lowest at or above it
          have parentBelow : parent.epoch < toEpoch := by omega
          rw [if_pos stops]
          exact ⟨index', by simp [lowestAtLeast, walkDown, parentBelow], filled'⟩
        · have parentAbove : ¬ parent.epoch < toEpoch := by omega
          have passes : walkDown toEpoch cur (parent :: rest) = walkDown toEpoch parent rest := by
            simp [walkDown, parentAbove]
          rw [if_neg stops]
          by_cases walks : toEpoch > (lowestAtLeast (roundHeight cur.epoch - skipLength)
              parent rest).epoch
          · -- the skip target is below the height: walk back from the tipset
            rw [if_pos walks, walkBack_eq whole nonneg atMost enough, EStateM.liftExcept_ok]
            exact ⟨index', rfl, filled'⟩
          · -- jump to the skip target, at or above the height, and go on from there
            have onTarget := parentAncestry.ofWalkDown (roundHeight cur.epoch - skipLength)
            have suffix := walkDown_suffix (roundHeight cur.epoch - skipLength) parent rest
            have shorter := walkDown_length_le (roundHeight cur.epoch - skipLength) parent rest
            have aboveHeight : toEpoch ≤
                (walkDown (roundHeight cur.epoch - skipLength) parent rest).1.epoch := by
              unfold lowestAtLeast at walks
              omega
            simp only [List.length_cons] at enough enoughSteps
            obtain ⟨index'', ran, filled''⟩ := inductionHypothesis onTarget
              (fun ts member => notShort ts (List.mem_cons_of_mem _ (suffix.subset member)))
              aboveHeight (by omega) (by omega) filled'
            rw [if_neg walks]
            refine ⟨index'', ?_, filled''⟩
            rw [lowestAtLeast, ran, lowestAtLeast, lowestAtLeast, passes,
              parentAncestry.walkDown_walkDown aboveHeight]
    · omega

/-- `get_tipset_by_height` on an ancestry with no epoch between 1 and `SKIP_LENGTH - 1`, from a
cache filled from the store and with more fuel than tipsets below the start, returns what
`walk_back` returns: the lowest tipset at or above the height, in a cache still filled from the
store. -/
theorem getTipsetByHeight_eq {fromTipset : Tipset} {below : List Tipset}
    (ancestry : Ancestry loadTipset fromTipset below)
    (notShort : ∀ ts ∈ fromTipset :: below, ts.epoch = 0 ∨ skipLength ≤ ts.epoch) {toEpoch : Int}
    (nonneg : 0 ≤ toEpoch) (atMost : toEpoch ≤ fromTipset.epoch) {index : ChainIndex}
    (filled : FilledFrom loadTipset index) {fuel : Nat} (enough : below.length < fuel) :
    ∃ index', getTipsetByHeight loadTipset fuel fromTipset toEpoch index =
      .ok (lowestAtLeast toEpoch fromTipset below) index' ∧ FilledFrom loadTipset index' := by
  unfold getTipsetByHeight
  split
  · -- near the start: the plain walk
    exact ⟨index, by rw [walkBack_eq ancestry nonneg atMost enough]; rfl, filled⟩
  · rename_i far
    obtain ⟨roundedNonneg, roundedLe, roundedNear⟩ := roundHeight_bounds ancestry.epoch_nonneg
    have rounded := walkBack_eq ancestry roundedNonneg roundedLe enough
    have onRounded := ancestry.ofWalkDown (roundHeight fromTipset.epoch)
    have reached := (ancestry.walkDown_epoch (roundHeight fromTipset.epoch)).2 roundedLe
    have suffix := walkDown_suffix (roundHeight fromTipset.epoch) fromTipset below
    have shorter := walkDown_length_le (roundHeight fromTipset.epoch) fromTipset below
    have aboveHeight : toEpoch ≤ (walkDown (roundHeight fromTipset.epoch) fromTipset below).1.epoch :=
      by omega
    obtain ⟨index', ran, filled'⟩ := getTipsetByHeightLoop_eq onRounded
      (fun ts member => notShort ts (suffix.subset member)) nonneg aboveHeight
      (shorter.trans_lt enough) (shorter.trans_lt enough) filled
    refine ⟨index', ?_, filled'⟩
    rw [roundDown, rounded]
    simp only [EStateM.liftExcept_ok, EStateM.pure_bind]
    rw [lowestAtLeast, ran, lowestAtLeast, ancestry.walkDown_walkDown aboveHeight, lowestAtLeast]

end Lookup

/-! ## A skip target of epoch below `SKIP_LENGTH` -/

section NullRounds

variable {loadTipset : TipsetKeys → Except Error Tipset}

open ChainIndex

/-- The lookup loop at a tipset of epoch between 1 and `SKIP_LENGTH - 1` never returns: no cache
filled from the store holds its entry, and `fill_cache` fails on it; with fuel for the tipsets
below, the failure is the store's error. -/
theorem getTipsetByHeightLoop_short {ts : Tipset} {below : List Tipset}
    (ancestry : Ancestry loadTipset ts below) (positive : 0 < ts.epoch)
    (short : ts.epoch < skipLength) {index : ChainIndex} (filled : FilledFrom loadTipset index)
    (fuel : Nat) (toEpoch : Int) (steps : Nat) :
    ∃ failure index', getTipsetByHeightLoop loadTipset fuel toEpoch steps ts.key index =
        .error failure index' ∧
      (below.length ≤ fuel → 0 < steps → ∃ e, failure = .error e) := by
  cases steps with
  | zero => exact ⟨.outOfFuel, index, rfl, by omega⟩
  | succ steps =>
    have uncached : index.skipCache ts.key = none := by
      cases cached : index.skipCache ts.key with
      | none => rfl
      | some entry =>
        have notShort := (filled.entry ancestry.keyed ancestry cached).2
        omega
    obtain ⟨never, fails⟩ := fillCache_short ancestry.keyed ancestry positive short fuel index
    cases ran : fillCache loadTipset fuel ts.key index with
    | ok entry index' => exact absurd ran (never entry index')
    | error failure index' =>
      refine ⟨failure, index', ?_, fun enough _ => ?_⟩
      · simp only [getTipsetByHeightLoop, EStateM.get_bind, uncached]
        rw [EStateM.bind_apply_of_error ran]
      · obtain ⟨e, failed⟩ := fails enough
        rw [failed, EStateM.Result.error.injEq] at ran
        exact ⟨e, ran.1.symm⟩

/-- From a tipset whose parent, of epoch between 1 and `SKIP_LENGTH - 1`, lies more than
`SKIP_LENGTH` epochs below the tipset's rounded epoch, `get_tipset_by_height` to a height at or
below the parent never returns, whatever its fuel: the entry of the tipset skips to the parent.
With fuel for the ancestry the failure is the store's error. -/
theorem getTipsetByHeight_after_null_rounds {high low : Tipset} {rest : List Tipset}
    (ancestry : Ancestry loadTipset high (low :: rest)) (positive : 0 < low.epoch)
    (short : low.epoch < skipLength) (skipped : low.epoch < roundHeight high.epoch - skipLength)
    {toEpoch : Int} (atMost : toEpoch ≤ low.epoch) {index : ChainIndex}
    (filled : FilledFrom loadTipset index) (fuel : Nat) :
    ∃ failure index', getTipsetByHeight loadTipset fuel high toEpoch index = .error failure index' ∧
      (rest.length + 1 < fuel → ∃ e, failure = .error e) := by
  obtain ⟨-, -, lowAncestry⟩ := ancestry.parent
  obtain ⟨roundedNonneg, roundedLe, -⟩ := roundHeight_bounds ancestry.epoch_nonneg
  have far : ¬ high.epoch - toEpoch ≤ skipLength := by omega
  have notShort : skipLength ≤ high.epoch := by omega
  unfold getTipsetByHeight
  rw [if_neg far]
  rcases walkBack_cases ancestry roundedNonneg roundedLe fuel with rounded | ranOut
  · -- `round_down` stays on the tipset, whose parent is below the rounded epoch
    have stays : lowestAtLeast (roundHeight high.epoch) high (low :: rest) = high := by
      simp [lowestAtLeast, walkDown, show low.epoch < roundHeight high.epoch by omega]
    rw [stays] at rounded
    simp only [roundDown, rounded, EStateM.liftExcept_ok, EStateM.pure_bind]
    cases fuel with
    | zero => exact ⟨.outOfFuel, index, rfl, by omega⟩
    | succ fuel =>
      rcases getTipsetByHeightLoop_succ ancestry (.inr notShort) filled (fuel + 1) toEpoch fuel
        with ⟨index', filled', unfolded⟩ | ranOut
      · -- the entry of the tipset skips to the parent, which is at or above the height
        have entry : entryOf high (low :: rest) = ⟨high, low.epoch, low.epoch, low.key⟩ := by
          simp [entryOf, lowestAtLeast, walkDown_of_le lowAncestry skipped.le]
        have stops : ¬ (high.epoch = toEpoch ∨ low.epoch < toEpoch) := by omega
        have walks : ¬ toEpoch > low.epoch := by omega
        rw [unfolded, entry, if_neg stops, if_neg walks]
        obtain ⟨failure, index'', failed, store⟩ :=
          getTipsetByHeightLoop_short lowAncestry positive short filled' (fuel + 1) toEpoch fuel
        exact ⟨failure, index'', failed, fun enough => store (by omega) (by omega)⟩
      · simp only [List.length_cons] at ranOut
        exact ⟨.outOfFuel, index, ranOut.1, by omega⟩
  · simp only [List.length_cons] at ranOut
    simp only [roundDown, ranOut.1, EStateM.liftExcept_error, EStateM.throw_bind]
    exact ⟨.outOfFuel, index, rfl, by omega⟩

/-- `get_tipset_by_height` and `walk_back` disagree after null rounds: where the parent of a
tipset has an epoch between 1 and `SKIP_LENGTH - 1` and lies more than `SKIP_LENGTH` epochs below
the tipset's rounded epoch, `walk_back` to a height at or below the parent returns the lowest
tipset at or above it, while `get_tipset_by_height` never returns, and with the same fuel fails
with the store's error, from any cache filled from the store. -/
theorem get_tipset_by_height_fails_after_null_rounds {high low : Tipset} {rest : List Tipset}
    (ancestry : Ancestry loadTipset high (low :: rest)) (positive : 0 < low.epoch)
    (short : low.epoch < skipLength) (skipped : low.epoch < roundHeight high.epoch - skipLength)
    {toEpoch : Int} (nonneg : 0 ≤ toEpoch) (atMost : toEpoch ≤ low.epoch) {index : ChainIndex}
    (filled : FilledFrom loadTipset index) {fuel : Nat} (enough : rest.length + 1 < fuel) :
    walkBack loadTipset fuel high toEpoch = .ok (lowestAtLeast toEpoch high (low :: rest)) ∧
      (∀ fuel' found index', getTipsetByHeight loadTipset fuel' high toEpoch index ≠
        .ok found index') ∧
      ∃ e index', getTipsetByHeight loadTipset fuel high toEpoch index = .error (.error e) index' := by
  have lower := ancestry.parent.2.1
  refine ⟨walkBack_eq ancestry nonneg (by omega) (by simpa using enough), ?_, ?_⟩
  · intro fuel' found index'
    obtain ⟨failure, index'', failed, -⟩ :=
      getTipsetByHeight_after_null_rounds ancestry positive short skipped atMost filled fuel'
    rw [failed]
    exact nofun
  · obtain ⟨failure, index', failed, store⟩ :=
      getTipsetByHeight_after_null_rounds ancestry positive short skipped atMost filled fuel
    obtain ⟨e, rfl⟩ := store enough
    exact ⟨e, index', failed⟩

/-- A header of the example chain, by its epoch, its parents key and its CID byte. -/
def chainHeader (epoch : Int) (parents : TipsetKeys) (cidByte : UInt8) : BlockHeader where
  parents := parents
  weight := 0
  epoch := epoch
  stateRoot := ⟨[0]⟩
  messages := ⟨[0]⟩
  minerAddress := .id 1000
  ticket := some ⟨[cidByte]⟩
  electionProof := some ⟨1⟩
  parentBaseFee := 100000000
  cid := ⟨[cidByte]⟩

/-- The genesis of the example chain. -/
def exampleGenesis : Tipset := ⟨[chainHeader 0 ⟨[]⟩ 0], List.cons_ne_nil _ _⟩

/-- A tipset at epoch 15, on the genesis. -/
def tipsetAtFifteen : Tipset := ⟨[chainHeader 15 exampleGenesis.key 1], List.cons_ne_nil _ _⟩

/-- A tipset at epoch 45, on the tipset at epoch 15: the epochs from 16 to 44 are null rounds. -/
def tipsetAtFortyFive : Tipset := ⟨[chainHeader 45 tipsetAtFifteen.key 2], List.cons_ne_nil _ _⟩

/-- The store of the example chain.  Every other key, the genesis's empty parents key among
them, loads no headers. -/
def nullRoundsStore (tsk : TipsetKeys) : Except Error Tipset :=
  if tsk = exampleGenesis.key then .ok exampleGenesis
  else if tsk = tipsetAtFifteen.key then .ok tipsetAtFifteen
  else if tsk = tipsetAtFortyFive.key then .ok tipsetAtFortyFive
  else .error (.blockchain .noBlocks)

theorem nullRoundsStore_ancestry :
    Ancestry nullRoundsStore tipsetAtFortyFive [tipsetAtFifteen, exampleGenesis] :=
  .cons rfl rfl (by decide) (.cons rfl rfl (by decide) (.genesis rfl rfl ⟨_, rfl⟩))

/-- From the empty cache, `walk_back` from epoch 45 to 10 returns the tipset at 15, while
`get_tipset_by_height` fails with the store's error. -/
theorem get_tipset_by_height_fails_from_forty_five_to_ten :
    walkBack nullRoundsStore 3 tipsetAtFortyFive 10 = .ok tipsetAtFifteen ∧
      ∃ e index', getTipsetByHeight nullRoundsStore 3 tipsetAtFortyFive 10 ⟨fun _ => none⟩ =
        .error (.error e) index' := by
  obtain ⟨walked, -, failed⟩ := get_tipset_by_height_fails_after_null_rounds nullRoundsStore_ancestry
    (by decide) (by decide) (by decide) (show (0 : Int) ≤ 10 by decide)
    (show 10 ≤ tipsetAtFifteen.epoch by decide) FilledFrom.empty
    (show [exampleGenesis].length + 1 < 3 by decide)
  exact ⟨walked, failed⟩

end NullRounds

end Forest.Chain
