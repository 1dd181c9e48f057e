import Mathlib
import Forest.Lib.Grid

namespace Forest.Miner

/-!
# Power, pledge and quantization of sectors

The numbers the miner actor keeps about sectors: `PowerPair` of `partition_state.rs`,
the raw and quality-adjusted power, added and subtracted componentwise; `QuantSpec` of
`deadlines/quantize.rs`, which rounds epochs up and down to a grid; and the power of one sector,
`power_for_sector` of `miner/mod.rs` over `qa_power_for_sector` of `policy.rs`.

Only the fields of `SectorOnChainInfo` that these and the expiration queue read are kept.
Big integers are `Int`; a `SectorSize` is its number of bytes.

`quantizeUp_quantizeUp` is the fact the expiration queue rests on: a quantized epoch is
its own quantization, so the keys the queue writes are found again where it looks.
`quantizeUp_eq_ceilTo` and `quantizeDown_eq_floorTo` connect the truncating arithmetic of
the source to the rounding of `Grid`, for every positive unit and every sign of epoch and
offset.
-/

/-- `PowerPair`: raw byte power and quality-adjusted power. -/
structure PowerPair where
  raw : Int
  qa : Int
  deriving DecidableEq, Repr

namespace PowerPair

@[ext]
theorem ext {first second : PowerPair} (sameRaw : first.raw = second.raw)
    (sameQa : first.qa = second.qa) : first = second := by
  cases first
  cases second
  simp_all

/-- `PowerPair::zero`. -/
instance : Zero PowerPair := ⟨⟨0, 0⟩⟩

/-- `Add for &PowerPair`. -/
instance : Add PowerPair := ⟨fun first second => ⟨first.raw + second.raw, first.qa + second.qa⟩⟩

/-- `Neg for PowerPair`. -/
instance : Neg PowerPair := ⟨fun power => ⟨-power.raw, -power.qa⟩⟩

/-- `Sub for &PowerPair`. -/
instance : Sub PowerPair := ⟨fun first second => ⟨first.raw - second.raw, first.qa - second.qa⟩⟩

@[simp] theorem raw_zero : (0 : PowerPair).raw = 0 := rfl
@[simp] theorem qa_zero : (0 : PowerPair).qa = 0 := rfl
@[simp] theorem raw_add (first second : PowerPair) : (first + second).raw = first.raw + second.raw := rfl
@[simp] theorem qa_add (first second : PowerPair) : (first + second).qa = first.qa + second.qa := rfl
@[simp] theorem raw_neg (power : PowerPair) : (-power).raw = -power.raw := rfl
@[simp] theorem qa_neg (power : PowerPair) : (-power).qa = -power.qa := rfl
@[simp] theorem raw_sub (first second : PowerPair) : (first - second).raw = first.raw - second.raw := rfl
@[simp] theorem qa_sub (first second : PowerPair) : (first - second).qa = first.qa - second.qa := rfl

/-- Powers form a commutative group under the componentwise operations, so that sums of
power over sets of sectors are `Finset.sum`. -/
instance : AddCommGroup PowerPair where
  add_assoc first second third := by ext <;> simp [Int.add_assoc]
  zero_add power := by ext <;> simp
  add_zero power := by ext <;> simp
  add_comm first second := by ext <;> simp [Int.add_comm]
  neg_add_cancel power := by ext <;> simp
  sub_eq_add_neg first second := by ext <;> simp [Int.sub_eq_add_neg]
  nsmul := nsmulRec
  zsmul := zsmulRec

/-- `PowerPair::is_zero`. -/
def isZero (power : PowerPair) : Bool :=
  power.raw = 0 && power.qa = 0

end PowerPair

/-- `QuantSpec`: epochs are rounded up to `offset % unit` plus a multiple of `unit`. -/
structure QuantSpec where
  unit : Int
  offset : Int
  deriving DecidableEq, Repr

namespace QuantSpec

/-- `NO_QUANTIZATION`. -/
def noQuantization : QuantSpec := ⟨1, 0⟩

/-- `QuantSpec::quantize_up`.  Rust's `%` and `/` truncate towards zero. -/
def quantizeUp (quant : QuantSpec) (epoch : Int) : Int :=
  let offset := quant.offset.tmod quant.unit
  let remainder := (epoch - offset).tmod quant.unit
  let quotient := (epoch - offset).tdiv quant.unit
  if remainder = 0 || epoch - offset < 0 then quant.unit * quotient + offset
  else quant.unit * (quotient + 1) + offset

/-- A point of the grid is its own quantization. -/
theorem quantizeUp_grid {quant : QuantSpec} (positive : 0 < quant.unit) (multiple : Int) :
    quant.quantizeUp (quant.unit * multiple + quant.offset.tmod quant.unit) =
      quant.unit * multiple + quant.offset.tmod quant.unit := by
  have nonzero : quant.unit ≠ 0 := Int.ne_of_gt positive
  have onGrid : (quant.unit * multiple + quant.offset.tmod quant.unit -
      quant.offset.tmod quant.unit) = quant.unit * multiple := by omega
  simp only [quantizeUp, onGrid, Int.mul_tmod_right, Int.mul_tdiv_cancel_left _ nonzero]
  simp

/-- Quantizing twice is quantizing once: the keys of a queue are fixed points. -/
theorem quantizeUp_quantizeUp {quant : QuantSpec} (positive : 0 < quant.unit) (epoch : Int) :
    quant.quantizeUp (quant.quantizeUp epoch) = quant.quantizeUp epoch := by
  unfold quantizeUp
  dsimp only
  split
  · exact quantizeUp_grid positive _
  · exact quantizeUp_grid positive _

/-- `QuantSpec::quantize_down`: an epoch that is its own quantization stays, any other goes
one unit below its quantization. -/
def quantizeDown (quant : QuantSpec) (epoch : Int) : Int :=
  let next := quant.quantizeUp epoch
  if epoch = next then next else next - quant.unit

/-- What `quantize_up` computes: a point of the grid through `offset` at or above the epoch
and less than one unit above it. -/
theorem quantizeUp_spec {quant : QuantSpec} (positive : 0 < quant.unit) (epoch : Int) :
    epoch ≤ quant.quantizeUp epoch ∧ quant.quantizeUp epoch - epoch < quant.unit ∧
      quant.quantizeUp epoch ≡ quant.offset [ZMOD quant.unit] := by
  -- the division identities of Rust's `%` and `/`, for the offset and the shifted epoch
  have offsetIdentity := Int.tmod_def quant.offset quant.unit
  have shiftedIdentity := Int.tmod_def (epoch - quant.offset.tmod quant.unit) quant.unit
  obtain ⟨nonnegative, nonpositive, aboveMinus, belowUnit⟩ :=
    Grid.tmod_bounds positive (epoch - quant.offset.tmod quant.unit)
  have offsetOnGrid : quant.offset.tmod quant.unit ≡ quant.offset [ZMOD quant.unit] :=
    Int.modEq_iff_dvd.mpr ⟨quant.offset.tdiv quant.unit, by omega⟩
  have nextMultiple : quant.unit * ((epoch - quant.offset.tmod quant.unit).tdiv quant.unit + 1) =
      quant.unit * (epoch - quant.offset.tmod quant.unit).tdiv quant.unit + quant.unit := by
    rw [Int.mul_add, Int.mul_one]
  unfold quantizeUp
  dsimp only
  split
  · next kept =>
    -- on the grid, or below the offset where the truncated quotient already rounds up and
    -- the remainder is not positive
    simp only [Bool.or_eq_true, decide_eq_true_eq] at kept
    refine ⟨?_, ?_, Int.modulus_mul_add_modEq_iff.mpr offsetOnGrid⟩
    · rcases kept with onGrid | below
      · omega
      · have := nonpositive below
        omega
    · omega
  · next raised =>
    simp only [Bool.or_eq_true, decide_eq_true_eq, not_or] at raised
    have positiveRemainder := nonnegative (by omega)
    refine ⟨by omega, by omega, Int.modulus_mul_add_modEq_iff.mpr offsetOnGrid⟩

/-- `quantize_up` is the rounding up to the grid through `offset`. -/
theorem quantizeUp_eq_ceilTo {quant : QuantSpec} (positive : 0 < quant.unit) (epoch : Int) :
    quant.quantizeUp epoch = Grid.ceilTo quant.unit quant.offset epoch := by
  obtain ⟨above, near, congruent⟩ := quantizeUp_spec positive epoch
  exact (Grid.ceilTo_eq_of positive above near congruent).symm

/-- `quantize_down` is the rounding down to the grid through `offset`. -/
theorem quantizeDown_eq_floorTo {quant : QuantSpec} (positive : 0 < quant.unit) (epoch : Int) :
    quant.quantizeDown epoch = Grid.floorTo quant.unit quant.offset epoch := by
  rw [quantizeDown, quantizeUp_eq_ceilTo positive, Grid.floorTo_eq_ceilTo positive]

/-- The laws of quantization for every positive unit, and every epoch and offset of either
sign: `quantize_up` gives the least epoch on the grid through `offset` at or above the
epoch, less than one unit above it, and is idempotent and monotone; `quantize_down` gives
the greatest epoch on the grid at or below the epoch. -/
theorem quantization_laws {quant : QuantSpec} (positive : 0 < quant.unit) :
    (∀ epoch, epoch ≤ quant.quantizeUp epoch ∧
      quant.quantizeUp epoch ≡ quant.offset [ZMOD quant.unit] ∧
      quant.quantizeUp epoch - epoch < quant.unit ∧
      ∀ other, epoch ≤ other → other ≡ quant.offset [ZMOD quant.unit] →
        quant.quantizeUp epoch ≤ other) ∧
    (∀ epoch, quant.quantizeUp (quant.quantizeUp epoch) = quant.quantizeUp epoch) ∧
    Monotone quant.quantizeUp ∧
    (∀ epoch, quant.quantizeDown epoch ≤ epoch ∧
      quant.quantizeDown epoch ≡ quant.offset [ZMOD quant.unit] ∧
      ∀ other, other ≤ epoch → other ≡ quant.offset [ZMOD quant.unit] →
        other ≤ quant.quantizeDown epoch) := by
  -- both roundings are those of the grid, whose laws give every part
  have up : quant.quantizeUp = Grid.ceilTo quant.unit quant.offset :=
    funext (quantizeUp_eq_ceilTo positive)
  have down : quant.quantizeDown = Grid.floorTo quant.unit quant.offset :=
    funext (quantizeDown_eq_floorTo positive)
  rw [up, down]
  refine ⟨fun epoch => ⟨Grid.le_ceilTo positive _ epoch, Grid.ceilTo_modEq _ epoch,
      Grid.ceilTo_sub_lt positive _ epoch, fun _ above congruent =>
        Grid.ceilTo_le positive above congruent⟩,
    Grid.ceilTo_ceilTo positive _, Grid.ceilTo_mono positive _,
    fun epoch => ⟨Grid.floorTo_le positive _ epoch, Grid.floorTo_modEq _ epoch,
      fun _ below congruent => Grid.le_floorTo positive below congruent⟩⟩

theorem quantization_laws_negative_offset :
    0 < (QuantSpec.mk 5 (-3)).unit ∧
    ((∀ epoch, epoch ≤ (QuantSpec.mk 5 (-3)).quantizeUp epoch ∧
      (QuantSpec.mk 5 (-3)).quantizeUp epoch ≡ -3 [ZMOD 5] ∧
      (QuantSpec.mk 5 (-3)).quantizeUp epoch - epoch < 5 ∧
      ∀ other, epoch ≤ other → other ≡ -3 [ZMOD 5] →
        (QuantSpec.mk 5 (-3)).quantizeUp epoch ≤ other) ∧
    (∀ epoch, (QuantSpec.mk 5 (-3)).quantizeUp ((QuantSpec.mk 5 (-3)).quantizeUp epoch) =
      (QuantSpec.mk 5 (-3)).quantizeUp epoch) ∧
    Monotone (QuantSpec.mk 5 (-3)).quantizeUp ∧
    (∀ epoch, (QuantSpec.mk 5 (-3)).quantizeDown epoch ≤ epoch ∧
      (QuantSpec.mk 5 (-3)).quantizeDown epoch ≡ -3 [ZMOD 5] ∧
      ∀ other, other ≤ epoch → other ≡ -3 [ZMOD 5] →
        other ≤ (QuantSpec.mk 5 (-3)).quantizeDown epoch)) :=
  ⟨by decide, quantization_laws (by decide)⟩

example : (QuantSpec.mk 5 (-3)).quantizeUp (-9) = -8 ∧
    (QuantSpec.mk 5 (-3)).quantizeDown (-9) = -13 := by decide

end QuantSpec

/-- The fields of `SectorOnChainInfo` that power, pledge and expiration read. -/
structure SectorOnChainInfo where
  sectorNumber : Nat
  activation : Int
  expiration : Int
  dealWeight : Int
  verifiedDealWeight : Int
  initialPledge : Int
  deriving DecidableEq, Repr

/-- `SECTOR_QUALITY_PRECISION`. -/
def sectorQualityPrecision : Nat := 20

/-- `QUALITY_BASE_MULTIPLIER`. -/
def qualityBaseMultiplier : Int := 10

/-- `DEAL_WEIGHT_MULTIPLIER`. -/
def dealWeightMultiplier : Int := 10

/-- `VERIFIED_DEAL_WEIGHT_MULTIPLIER`. -/
def verifiedDealWeightMultiplier : Int := 100

/-- `quality_for_weight`: the weighted average of the multipliers, scaled up by
`2 ^ SECTOR_QUALITY_PRECISION`; `div_floor` rounds down. -/
def qualityForWeight (size : Nat) (duration dealWeight verifiedWeight : Int) : Int :=
  let sectorSpaceTime := (size : Int) * duration
  let totalDealSpaceTime := dealWeight + verifiedWeight
  let weightedBaseSpaceTime := (sectorSpaceTime - totalDealSpaceTime) * qualityBaseMultiplier
  let weightedDealSpaceTime := dealWeight * dealWeightMultiplier
  let weightedVerifiedSpaceTime := verifiedWeight * verifiedDealWeightMultiplier
  let weightedSumSpaceTime := weightedBaseSpaceTime + weightedDealSpaceTime + weightedVerifiedSpaceTime
  let scaledUpWeightedSumSpaceTime := weightedSumSpaceTime * 2 ^ sectorQualityPrecision
  (scaledUpWeightedSumSpaceTime.fdiv sectorSpaceTime).fdiv qualityBaseMultiplier

/-- `qa_power_for_weight`; the shift right of a big integer rounds down. -/
def qaPowerForWeight (size : Nat) (duration dealWeight verifiedWeight : Int) : Int :=
  ((size : Int) * qualityForWeight size duration dealWeight verifiedWeight).fdiv
    (2 ^ sectorQualityPrecision)

/-- `qa_power_for_sector`. -/
def qaPowerForSector (size : Nat) (sector : SectorOnChainInfo) : Int :=
  qaPowerForWeight size (sector.expiration - sector.activation) sector.dealWeight
    sector.verifiedDealWeight

/-- `power_for_sector`. -/
def powerForSector (sectorSize : Nat) (sector : SectorOnChainInfo) : PowerPair :=
  ⟨sectorSize, qaPowerForSector sectorSize sector⟩

/-- `power_for_sectors`: the sector size times the count, and the summed quality-adjusted
power. -/
def powerForSectors (sectorSize : Nat) (sectors : List SectorOnChainInfo) : PowerPair :=
  ⟨sectorSize * sectors.length, (sectors.map (qaPowerForSector sectorSize)).sum⟩

/-- `power_for_sectors` is the sum of `power_for_sector`. -/
theorem powerForSectors_eq_sum (sectorSize : Nat) (sectors : List SectorOnChainInfo) :
    powerForSectors sectorSize sectors = (sectors.map (powerForSector sectorSize)).sum := by
  induction sectors with
  | nil => rfl
  | cons sector rest inductionHypothesis =>
    rw [List.map_cons, List.sum_cons, ← inductionHypothesis]
    ext
    · simp [powerForSectors, powerForSector, Int.mul_add, Int.add_comm]
    · simp [powerForSectors, powerForSector]

end Forest.Miner
