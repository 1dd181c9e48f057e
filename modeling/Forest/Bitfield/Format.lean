import Forest.Bitfield.Iter
import Forest.Lib.BitPacking
import Forest.Lib.Leb128

namespace Forest.Bitfield

/-!
# The RLE+ format

What `to_bytes` writes, stated as chunks of a bit stream (`BitPacking`), with no writer
or reader in sight.  An encoding is the version `00`, one bit saying whether the first
run is a run of ones, and then one block per run, the runs alternating between zeros and
ones.  A block is `1` for a run of one bit, `01` and four bits for a run shorter than
16, and `00` followed by the LEB128 varint of the length otherwise.

The runs of a valid list of ranges are the gaps and lengths in turn, all positive; they
stand for the ranges again (`rangesOfRuns_runs`).
-/

open BitPacking

/-- The size of `unsigned_varint::encode::usize_buffer()`: ten bytes, enough for every
`usize`. -/
def usizeVarintBytes : Nat := 10

/-- The bits `BitWriter::write_len` writes for a run of `len` bits, lowest first. -/
def blockChunks (len : Nat) : List Chunk :=
  if len = 1 then [(1, 1)]
  else if len < 16 then [(2, 2), (len, 4)]
  else (0, 2) :: ofBytes (Leb128.encodeWithin usizeVarintBytes len)

/-- The runs after the first range: the gap up to each range, then its length. -/
def gapsAndLens (index : Nat) : List Range → List Nat
  | [] => []
  | range :: rest => (range.start - index) :: range.len :: gapsAndLens range.stop rest

/-- The runs `to_bytes` writes after the header: the leading zeros if there are any, the
first range, and then the gaps and ranges in turn. -/
def runs : List Range → List Nat
  | [] => []
  | first :: rest =>
    (if first.start = 0 then [] else [first.start]) ++ first.len :: gapsAndLens first.stop rest

/-- The header and the blocks of the encoding of a list of ranges; nothing for no ranges. -/
def encodingChunks : List Range → List Chunk
  | [] => []
  | first :: rest =>
    (0, 2) :: (if first.start = 0 then 1 else 0, 1) :: (runs (first :: rest)).flatMap blockChunks

/-- The ranges a list of runs stands for, from `index` on, the first run being a run of
ones when `ones` holds. -/
def rangesOfRuns (ones : Bool) (index : Nat) : List Nat → List Range
  | [] => []
  | len :: rest =>
    (if ones then [⟨index, index + len⟩] else []) ++ rangesOfRuns (!ones) (index + len) rest

/-! ## Blocks -/

theorem fits_blockChunks (len : Nat) : Fits (blockChunks len) := by
  unfold blockChunks
  split
  · simp
  · split
    · simp only [fits_cons, fits_nil, and_true]
      omega
    · simpa using fits_ofBytes _

/-! ## Runs -/

theorem gapsAndLens_pos {index : Nat} {ranges : List Range} (valid : Valid ranges)
    (before : ∀ first ∈ ranges.head?, index < first.start) :
    ∀ run ∈ gapsAndLens index ranges, 0 < run := by
  induction ranges generalizing index with
  | nil => simp [gapsAndLens]
  | cons range rest inductionHypothesis =>
    obtain ⟨nonempty, beforeNext, validRest⟩ := valid_cons.mp valid
    have gapPositive : index < range.start := before range rfl
    intro run member
    simp only [gapsAndLens, List.mem_cons] at member
    rcases member with rfl | rfl | member
    · omega
    · simp only [Range.len]
      omega
    · exact inductionHypothesis validRest beforeNext run member

/-- Every run of a valid list is positive: a gap between two ranges is at least one bit,
and so is every range. -/
theorem runs_pos {ranges : List Range} (valid : Valid ranges) : ∀ run ∈ runs ranges, 0 < run := by
  cases ranges with
  | nil => simp [runs]
  | cons first rest =>
    obtain ⟨nonempty, beforeNext, validRest⟩ := valid_cons.mp valid
    intro run member
    simp only [runs, List.mem_append, List.mem_cons] at member
    rcases member with leading | rfl | member
    · split at leading
      · simp at leading
      · simp only [List.mem_singleton] at leading
        omega
    · simp only [Range.len]
      omega
    · exact gapsAndLens_pos validRest beforeNext run member

/-- The runs from `index` add up to no more than where the last range ends. -/
theorem gapsAndLens_sum_le {index limit : Nat} {ranges : List Range} (valid : Valid ranges)
    (before : ∀ first ∈ ranges.head?, index ≤ first.start) (indexBelow : index ≤ limit)
    (bounded : ∀ range ∈ ranges, range.stop ≤ limit) :
    index + (gapsAndLens index ranges).sum ≤ limit := by
  induction ranges generalizing index with
  | nil => simpa [gapsAndLens] using indexBelow
  | cons range rest inductionHypothesis =>
    obtain ⟨nonempty, beforeNext, validRest⟩ := valid_cons.mp valid
    have startAfter : index ≤ range.start := before range rfl
    have restSum := inductionHypothesis validRest (fun next member => le_of_lt (beforeNext next member))
      (bounded range (by simp)) (fun later member => bounded later (by simp [member]))
    simp only [gapsAndLens, List.sum_cons, Range.len]
    omega

/-- All the runs of a valid list add up to no more than where its last range ends. -/
theorem runs_sum_le {limit : Nat} {ranges : List Range} (valid : Valid ranges)
    (bounded : ∀ range ∈ ranges, range.stop ≤ limit) : (runs ranges).sum ≤ limit := by
  cases ranges with
  | nil => simp [runs]
  | cons first rest =>
    obtain ⟨nonempty, beforeNext, validRest⟩ := valid_cons.mp valid
    have restSum := gapsAndLens_sum_le validRest (fun next member => le_of_lt (beforeNext next member))
      (bounded first (by simp)) (fun later member => bounded later (by simp [member]))
    simp only [runs, List.sum_append, List.sum_cons, Range.len]
    split <;> simp <;> omega

theorem rangesOfRuns_gapsAndLens {index : Nat} {ranges : List Range} (valid : Valid ranges)
    (before : ∀ first ∈ ranges.head?, index < first.start) :
    rangesOfRuns false index (gapsAndLens index ranges) = ranges := by
  induction ranges generalizing index with
  | nil => rfl
  | cons range rest inductionHypothesis =>
    obtain ⟨nonempty, beforeNext, validRest⟩ := valid_cons.mp valid
    have gapPositive : index < range.start := before range rfl
    have reachStart : index + (range.start - index) = range.start := by omega
    have reachStop : range.start + range.len = range.stop := by
      simp only [Range.len]
      omega
    simp only [gapsAndLens, rangesOfRuns, reachStart, reachStop, Bool.not_false, Bool.not_true,
      Bool.false_eq_true, if_false, if_true, List.nil_append, List.singleton_append]
    rw [inductionHypothesis validRest beforeNext]

/-- The runs of a valid list stand for the list, starting from bit zero with a run of ones
exactly when the first range starts at zero. -/
theorem rangesOfRuns_runs {ranges : List Range} (valid : Valid ranges) :
    rangesOfRuns (ranges.head?.any fun first => first.start = 0) 0 (runs ranges) = ranges := by
  cases ranges with
  | nil => rfl
  | cons first rest =>
    obtain ⟨nonempty, beforeNext, validRest⟩ := valid_cons.mp valid
    have reachStop : first.start + first.len = first.stop := by
      simp only [Range.len]
      omega
    by_cases startsAtZero : first.start = 0
    · have zeroLen : 0 + first.len = first.stop := by omega
      have shape : first = ⟨0, first.stop⟩ := by
        cases first
        simp_all
      simp only [runs, startsAtZero, if_true, List.nil_append, List.head?_cons, Option.any_some,
        decide_true, rangesOfRuns, zeroLen, Bool.not_true, List.singleton_append]
      rw [rangesOfRuns_gapsAndLens validRest beforeNext, ← shape]
    · simp only [runs, startsAtZero, if_false, List.singleton_append, List.head?_cons,
        Option.any_some, decide_false, rangesOfRuns, Nat.zero_add, reachStop, Bool.not_false,
        Bool.not_true, Bool.false_eq_true, if_true, List.nil_append]
      rw [rangesOfRuns_gapsAndLens validRest beforeNext]

end Forest.Bitfield
