import Forest.Lib.Digits

/-!
# Base32 without padding

The base32 encoding of RFC 4648 over a 32-symbol alphabet, with no padding, as the
`data-encoding` crate encodes and decodes it.  A byte string of `n` bytes is a number of `8 * n`
bits; it is written as the fewest symbols that hold those bits, five bits a symbol, with zero
bits after them to fill the last symbol.  So `encode` is the base-32 digits of the byte string's
number shifted left by the fill.

`decode` checks, in the crate's order, that the length leaves fewer than five bits past the last
whole byte (`Length`), that every symbol is in the alphabet (`Symbol`, at the first one that is
not), and that the fill bits are zero (`Trailing`, at the last symbol).

`decode_encode` is the round trip; `length_of_decode` and `value_of_decode` say what a decoded
text was: one of `5 * n / 8` bytes, every symbol in the alphabet.
-/

namespace Base32

/-- An alphabet: the symbol of each five-bit value, and the value of each byte that is a symbol
(`data-encoding`'s table of 256 entries). -/
structure Alphabet where
  symbol : Fin 32 → UInt8
  value : UInt8 → Option (Fin 32)
  value_symbol : ∀ digit, value (symbol digit) = some digit

/-- `DecodeKind`: which check a text failed. -/
inductive DecodeKind where
  | symbol
  | trailing
  | length
  deriving DecidableEq, Repr

/-- `DecodeError`: the position of the failure in the text and its kind. -/
structure DecodeError where
  position : Nat
  kind : DecodeKind
  deriving DecidableEq, Repr

/-- The number of symbols that hold `length` bytes: `⌈8 * length / 5⌉`. -/
def encodeLen (length : Nat) : Nat :=
  (8 * length + 4) / 5

/-- `encode`: the base-32 digits of the bytes' number, followed by zero fill bits. -/
def encode (alphabet : Alphabet) (input : List UInt8) : List UInt8 :=
  let count := encodeLen input.length
  let number := Digits.ofFixed 256 (input.map UInt8.toNat) * 2 ^ (5 * count - 8 * input.length)
  (Digits.toFixed 32 count number).map fun digit => alphabet.symbol (Fin.ofNat 32 digit)

/-- `decode`: the length check, then the symbols, then the fill bits; the bytes are the
`5 * length / 8` base-256 digits of the number the symbols spell, without the fill. -/
def decode (alphabet : Alphabet) (input : List UInt8) : Except DecodeError (List UInt8) :=
  -- the bits past the last whole byte
  let trail := 5 * input.length % 8
  if 5 ≤ trail then .error ⟨input.length - 1, .length⟩
  else
    match input.mapM alphabet.value with
    | none => .error ⟨input.findIdx fun symbol => (alphabet.value symbol).isNone, .symbol⟩
    | some digits =>
      let number := Digits.ofFixed 32 (digits.map Fin.val)
      if number % 2 ^ trail = 0 then
        .ok ((Digits.toFixed 256 (5 * input.length / 8) (number / 2 ^ trail)).map UInt8.ofNat)
      else .error ⟨input.length - 1, .trailing⟩

section Alphabet

variable (alphabet : Alphabet)

theorem mapM_value_map_symbol (digits : List (Fin 32)) :
    (digits.map alphabet.symbol).mapM alphabet.value = some digits := by
  induction digits with
  | nil => rfl
  | cons digit rest inductionHypothesis =>
    simp [List.mapM_cons, alphabet.value_symbol, inductionHypothesis]

/-- A text the alphabet reads has a value for every symbol. -/
theorem value_of_mapM {input : List UInt8} :
    ∀ {digits : List (Fin 32)}, input.mapM alphabet.value = some digits →
      ∀ symbol ∈ input, ∃ digit, alphabet.value symbol = some digit := by
  induction input with
  | nil => simp
  | cons first rest inductionHypothesis =>
    intro digits read symbol member
    cases firstValue : alphabet.value first with
    | none => simp [List.mapM_cons, firstValue] at read
    | some digit =>
      cases restValues : rest.mapM alphabet.value with
      | none => simp [List.mapM_cons, firstValue, restValues] at read
      | some values =>
        rcases List.mem_cons.mp member with rfl | later
        · exact ⟨digit, firstValue⟩
        · exact inductionHypothesis restValues symbol later

end Alphabet

/-! ## Lengths -/

/-- The fill after `length` bytes is under five bits, and the symbols hold exactly the bytes and
the fill. -/
theorem encodeLen_spec (length : Nat) :
    8 * length ≤ 5 * encodeLen length ∧ 5 * encodeLen length < 8 * length + 5 := by
  unfold encodeLen
  omega

@[simp]
theorem length_encode (alphabet : Alphabet) (input : List UInt8) :
    (encode alphabet input).length = encodeLen input.length := by
  simp [encode]

theorem mem_encode {alphabet : Alphabet} {input : List UInt8} {symbol : UInt8}
    (member : symbol ∈ encode alphabet input) : ∃ digit, symbol = alphabet.symbol digit := by
  simp only [encode, List.mem_map] at member
  obtain ⟨digit, _, rfl⟩ := member
  exact ⟨_, rfl⟩

/-! ## The round trip -/

theorem byte_values_lt (input : List UInt8) : ∀ value ∈ input.map UInt8.toNat, value < 256 := by
  simp only [List.mem_map]
  rintro _ ⟨byte, -, rfl⟩
  exact byte.toNat_lt

theorem two_pow_eight_mul (count : Nat) : 256 ^ count = 2 ^ (8 * count) := by
  rw [Nat.pow_mul]

theorem two_pow_five_mul (count : Nat) : 32 ^ count = 2 ^ (5 * count) := by
  rw [Nat.pow_mul]

/-- The number `encode` writes fits in its symbols. -/
theorem shifted_lt (input : List UInt8) :
    Digits.ofFixed 256 (input.map UInt8.toNat) * 2 ^ (5 * encodeLen input.length - 8 * input.length)
      < 32 ^ encodeLen input.length := by
  have bytes : Digits.ofFixed 256 (input.map UInt8.toNat) < 2 ^ (8 * input.length) := by
    have fits := Digits.ofFixed_lt (by decide) (byte_values_lt input)
    rwa [List.length_map, two_pow_eight_mul] at fits
  have fill := (encodeLen_spec input.length).1
  calc Digits.ofFixed 256 (input.map UInt8.toNat) *
        2 ^ (5 * encodeLen input.length - 8 * input.length)
      < 2 ^ (8 * input.length) * 2 ^ (5 * encodeLen input.length - 8 * input.length) :=
        Nat.mul_lt_mul_of_pos_right bytes (Nat.two_pow_pos _)
    _ = 32 ^ encodeLen input.length := by
        rw [← Nat.pow_add, two_pow_five_mul, Nat.add_sub_cancel' fill]

theorem decode_encode (alphabet : Alphabet) (input : List UInt8) :
    decode alphabet (encode alphabet input) = .ok input := by
  set count := encodeLen input.length with countIs
  set bytes := Digits.ofFixed 256 (input.map UInt8.toNat) with bytesIs
  set fill := 5 * count - 8 * input.length with fillIs
  have bounds := encodeLen_spec input.length
  rw [← countIs] at bounds
  have trail : 5 * count % 8 = fill := by omega
  have whole : 5 * count / 8 = input.length := by omega
  -- the digits `encode` writes, as values of the alphabet
  set digits := Digits.toFixed 32 count (bytes * 2 ^ fill) with digitsIs
  have small : ∀ digit ∈ digits, digit < 32 := fun _ member =>
    Digits.lt_of_mem_toFixed (by decide) member
  have values : (digits.map (Fin.ofNat 32)).map Fin.val = digits := by
    rw [List.map_map]
    calc digits.map (Fin.val ∘ Fin.ofNat 32)
        = digits.map id := List.map_congr_left fun digit member => by
          simp [Nat.mod_eq_of_lt (small digit member)]
      _ = digits := List.map_id digits
  have read : Digits.ofFixed 32 digits = bytes * 2 ^ fill := by
    rw [digitsIs, Digits.ofFixed_toFixed, Nat.mod_eq_of_lt (shifted_lt input)]
  have encoded : encode alphabet input = (digits.map (Fin.ofNat 32)).map alphabet.symbol := by
    rw [List.map_map]
    rfl
  have backToBytes : Digits.toFixed 256 input.length bytes = input.map UInt8.toNat := by
    have digitsBack := Digits.toFixed_ofFixed (byte_values_lt input)
    rwa [List.length_map] at digitsBack
  have lengthEncoded : (encode alphabet input).length = count := length_encode alphabet input
  rw [decode, lengthEncoded, trail, if_neg (by omega), encoded, mapM_value_map_symbol]
  dsimp only
  rw [values, read, Nat.mul_mod_left, if_pos rfl, whole,
    Nat.mul_div_cancel _ (Nat.two_pow_pos fill), backToBytes, List.map_map]
  simp [Function.comp_def]

/-! ## What a decoded text was -/

/-- What `decode` checked of a text it accepts, and the bytes it returned. -/
theorem decode_eq_ok {alphabet : Alphabet} {input output : List UInt8}
    (decoded : decode alphabet input = .ok output) :
    5 * input.length % 8 < 5 ∧ ∃ digits, input.mapM alphabet.value = some digits ∧
      output = (Digits.toFixed 256 (5 * input.length / 8)
        (Digits.ofFixed 32 (digits.map Fin.val) / 2 ^ (5 * input.length % 8))).map UInt8.ofNat := by
  by_cases long : 5 ≤ 5 * input.length % 8
  · simp [decode, long] at decoded
  · cases read : input.mapM alphabet.value with
    | none => simp [decode, long, read] at decoded
    | some digits =>
      by_cases zeroFill : Digits.ofFixed 32 (digits.map Fin.val) % 2 ^ (5 * input.length % 8) = 0
      · simp only [decode, if_neg long, read, if_pos zeroFill, Except.ok.injEq] at decoded
        exact ⟨by omega, digits, rfl, decoded.symm⟩
      · simp [decode, long, read, zeroFill] at decoded

theorem length_of_decode {alphabet : Alphabet} {input output : List UInt8}
    (decoded : decode alphabet input = .ok output) : output.length = 5 * input.length / 8 := by
  obtain ⟨-, digits, -, rfl⟩ := decode_eq_ok decoded
  simp

theorem value_of_decode {alphabet : Alphabet} {input output : List UInt8}
    (decoded : decode alphabet input = .ok output) :
    ∀ symbol ∈ input, ∃ digit, alphabet.value symbol = some digit := by
  obtain ⟨-, digits, read, -⟩ := decode_eq_ok decoded
  exact value_of_mapM alphabet read

end Base32
