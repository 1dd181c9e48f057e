import Mathlib.Data.List.DropRight
import Mathlib.Algebra.Order.BigOperators.Group.List
import Mathlib.Tactic.Ring

/-!
# Bit streams packed least significant bit first

A bit stream written least significant bit first is a natural number: a chunk `value` of
`bits` bits, followed by the rest of the stream, is `value + 2 ^ bits * rest`.  Bytes in
order are the little-endian number they spell, and a reader that runs past the end
sees zeros, which is the number's leading zeros.

Writers are described by the chunks they append (`pack`), readers by the remainder
they leave (`/ 2 ^ bits`).  The lemmas below say that reading a chunk back off the
front of a packed stream returns the chunk and leaves the rest.
-/

namespace BitPacking

/-- A chunk of a stream: a value and the number of bits it occupies. -/
abbrev Chunk := Nat × Nat

/-- The number of bits a list of chunks occupies. -/
def width (chunks : List Chunk) : Nat :=
  (chunks.map Prod.snd).sum

/-- The stream of a list of chunks, the first chunk in the lowest bits. -/
def pack : List Chunk → Nat
  | [] => 0
  | (value, bits) :: rest => value + 2 ^ bits * pack rest

/-- Every chunk's value fits in its width. -/
def Fits (chunks : List Chunk) : Prop :=
  ∀ chunk ∈ chunks, chunk.1 < 2 ^ chunk.2

/-- Bytes as chunks of eight bits. -/
def ofBytes (bytes : List UInt8) : List Chunk :=
  bytes.map fun byte => (byte.toNat, 8)

/-- The little-endian number of a byte string. -/
def littleEndian (bytes : List UInt8) : Nat :=
  pack (ofBytes bytes)

@[simp]
theorem width_nil : width [] = 0 := rfl

@[simp]
theorem width_cons (chunk : Chunk) (rest : List Chunk) :
    width (chunk :: rest) = chunk.2 + width rest := rfl

@[simp]
theorem width_append (first second : List Chunk) :
    width (first ++ second) = width first + width second := by
  show ((first ++ second).map Prod.snd).sum = (first.map Prod.snd).sum + (second.map Prod.snd).sum
  rw [List.map_append, List.sum_append]

@[simp]
theorem pack_nil : pack [] = 0 := rfl

@[simp]
theorem pack_cons (value bits : Nat) (rest : List Chunk) :
    pack ((value, bits) :: rest) = value + 2 ^ bits * pack rest := rfl

theorem pack_append (first second : List Chunk) :
    pack (first ++ second) = pack first + 2 ^ width first * pack second := by
  induction first with
  | nil => simp
  | cons chunk rest inductionHypothesis =>
    obtain ⟨value, bits⟩ := chunk
    simp only [List.cons_append, pack_cons, inductionHypothesis, width_cons, Nat.pow_add]
    ring

@[simp]
theorem fits_nil : Fits [] :=
  fun _ member => absurd member List.not_mem_nil

@[simp]
theorem fits_cons (chunk : Chunk) (rest : List Chunk) :
    Fits (chunk :: rest) ↔ chunk.1 < 2 ^ chunk.2 ∧ Fits rest :=
  List.forall_mem_cons

@[simp]
theorem fits_append (first second : List Chunk) :
    Fits (first ++ second) ↔ Fits first ∧ Fits second :=
  List.forall_mem_append

/-- A chunk stored in the low bits can be put together with what lies above it. -/
theorem add_two_pow_mul_lt {value bits rest above : Nat} (fits : value < 2 ^ bits)
    (restBelow : rest < 2 ^ above) : value + 2 ^ bits * rest < 2 ^ (bits + above) := by
  have step : value + 2 ^ bits * rest < 2 ^ bits * (rest + 1) := by
    rw [Nat.mul_add, Nat.mul_one]
    omega
  calc value + 2 ^ bits * rest
      < 2 ^ bits * (rest + 1) := step
    _ ≤ 2 ^ bits * 2 ^ above := Nat.mul_le_mul_left _ restBelow
    _ = 2 ^ (bits + above) := (Nat.pow_add 2 bits above).symm

theorem pack_lt {chunks : List Chunk} (fits : Fits chunks) : pack chunks < 2 ^ width chunks := by
  induction chunks with
  | nil => simp
  | cons chunk rest inductionHypothesis =>
    obtain ⟨value, bits⟩ := chunk
    rw [fits_cons] at fits
    simpa using add_two_pow_mul_lt fits.1 (inductionHypothesis fits.2)

/-- Reading `bits` bits off the front of a stream returns the chunk stored there. -/
@[simp]
theorem add_two_pow_mul_mod {value bits : Nat} (fits : value < 2 ^ bits) (rest : Nat) :
    (value + 2 ^ bits * rest) % 2 ^ bits = value := by
  rw [Nat.add_mul_mod_self_left, Nat.mod_eq_of_lt fits]

/-- Dropping `bits` bits off the front of a stream leaves the rest. -/
@[simp]
theorem add_two_pow_mul_div {value bits : Nat} (fits : value < 2 ^ bits) (rest : Nat) :
    (value + 2 ^ bits * rest) / 2 ^ bits = rest := by
  rw [Nat.add_mul_div_left _ _ (Nat.two_pow_pos bits), Nat.div_eq_of_lt fits, Nat.zero_add]

/-! ## Bytes -/

@[simp]
theorem width_ofBytes (bytes : List UInt8) : width (ofBytes bytes) = 8 * bytes.length := by
  induction bytes with
  | nil => rfl
  | cons byte rest inductionHypothesis =>
    simp only [ofBytes, List.map_cons, width_cons] at inductionHypothesis ⊢
    rw [inductionHypothesis, List.length_cons]
    ring

theorem fits_ofBytes (bytes : List UInt8) : Fits (ofBytes bytes) := by
  intro chunk member
  obtain ⟨byte, _, rfl⟩ := List.mem_map.mp member
  exact byte.toNat_lt

@[simp]
theorem littleEndian_nil : littleEndian [] = 0 := rfl

@[simp]
theorem littleEndian_cons (byte : UInt8) (rest : List UInt8) :
    littleEndian (byte :: rest) = byte.toNat + 256 * littleEndian rest := rfl

theorem ofBytes_append (first second : List UInt8) :
    ofBytes (first ++ second) = ofBytes first ++ ofBytes second :=
  List.map_append

theorem littleEndian_append (first second : List UInt8) :
    littleEndian (first ++ second) =
      littleEndian first + 2 ^ (8 * first.length) * littleEndian second := by
  rw [littleEndian, ofBytes_append, pack_append, width_ofBytes]
  rfl

theorem littleEndian_lt (bytes : List UInt8) : littleEndian bytes < 2 ^ (8 * bytes.length) := by
  have packed := pack_lt (fits_ofBytes bytes)
  rwa [width_ofBytes] at packed

/-- Zero bytes at the end of a little-endian string do not change its value. -/
theorem littleEndian_rdropWhile_zero (bytes : List UInt8) :
    littleEndian (bytes.rdropWhile (· == 0)) = littleEndian bytes := by
  induction bytes using List.reverseRecOn with
  | nil => rfl
  | append_singleton init last inductionHypothesis =>
    by_cases zero : last = 0
    · subst zero
      rw [List.rdropWhile_concat_pos _ _ _ (by simp), inductionHypothesis,
        littleEndian_append]
      simp
    · rw [List.rdropWhile_concat_neg _ _ _ (by simpa using zero)]

/-! ## Bitwise operations on packed values -/

/-- Or-ing a value above the low `bits` bits is adding it. -/
theorem or_two_pow_mul {low bits : Nat} (fits : low < 2 ^ bits) (high : Nat) :
    low ||| 2 ^ bits * high = low + 2 ^ bits * high := by
  rw [Nat.or_comm, ← Nat.two_pow_add_eq_or_of_lt fits, Nat.add_comm]

/-- Or-ing two values stored above the same low bits. -/
theorem add_two_pow_mul_or {low bits : Nat} (fits : low < 2 ^ bits) (high other : Nat) :
    (low + 2 ^ bits * high) ||| 2 ^ bits * other = low + 2 ^ bits * (high ||| other) := by
  rw [Nat.add_comm low, Nat.add_comm low]
  apply Nat.eq_of_testBit_eq
  intro index
  rw [Nat.testBit_or, Nat.testBit_two_pow_mul_add _ fits, Nat.testBit_two_pow_mul_add _ fits,
    Nat.testBit_two_pow_mul, Nat.testBit_or]
  by_cases below : index < bits
  · simp [below]
  · simp [below, Nat.le_of_not_lt below]

/-- The low `small` bits of a value are a part of its low `large` bits. -/
theorem mod_two_pow_or_mod_two_pow {small large : Nat} (le : small ≤ large) (value : Nat) :
    value % 2 ^ small ||| value % 2 ^ large = value % 2 ^ large := by
  apply Nat.eq_of_testBit_eq
  intro index
  simp only [Nat.testBit_or, Nat.testBit_mod_two_pow]
  by_cases below : index < small
  · have belowLarge : index < large := by omega
    simp [below, belowLarge]
  · simp [below]

/-- Shifting a value past the low `bits` bits of a `width`-bit word keeps its low
`width - bits` bits. -/
theorem mul_two_pow_mod {bits width : Nat} (le : bits ≤ width) (value : Nat) :
    (value * 2 ^ bits) % 2 ^ width = 2 ^ bits * (value % 2 ^ (width - bits)) := by
  have split : 2 ^ width = 2 ^ bits * 2 ^ (width - bits) := by
    rw [← Nat.pow_add, Nat.add_sub_cancel' le]
  rw [split, Nat.mul_comm value, Nat.mul_mod_mul_left]

end BitPacking
