import Forest.Lib.Digits
import Mathlib.Data.Nat.Log

/-!
# Rust strings as UTF-8 bytes

A `&str` is its UTF-8 bytes, and the string functions a parser calls are modelled on the byte
list.  `get(start..stop)` and `get(start..)` return the slice when its ends fall on character
boundaries and `None` otherwise.  `to_string` of an unsigned integer writes its decimal digits
with no leading zero, and `parse` reads them back with the checks of `from_str_radix`: an optional
`+`, then only digits, and no overflow of the type.

An ASCII byte is a character of its own, so a string that starts with ASCII bytes is sliced
between them (`get_zero_one`, `get_one_two`, `getFrom_two`); a decimal numeral is ASCII and
parses back to its number (`parseUnsigned_displayUnsigned`).
-/

namespace Str

/-- `str::is_char_boundary`: the start, the end, or a byte that does not continue a UTF-8
sequence (`(b as i8) >= -0x40`). -/
def isCharBoundary (s : List UInt8) (index : Nat) : Bool :=
  index == 0 ||
    match s[index]? with
    | none => index == s.length
    | some byte => byte.toNat < 0x80 || 0xC0 ≤ byte.toNat

/-- `str::get(start..stop)`. -/
def get (s : List UInt8) (start stop : Nat) : Option (List UInt8) :=
  if start ≤ stop ∧ isCharBoundary s start ∧ isCharBoundary s stop then
    some ((s.drop start).take (stop - start))
  else none

/-- `str::get(start..)`. -/
def getFrom (s : List UInt8) (start : Nat) : Option (List UInt8) :=
  if isCharBoundary s start then some (s.drop start) else none

/-- The ASCII byte of a decimal digit. -/
def digitByte (digit : Nat) : UInt8 :=
  UInt8.ofNat (0x30 + digit)

/-- `char::to_digit(10)` of a byte. -/
def digitValue (byte : UInt8) : Option Nat :=
  if 0x30 ≤ byte.toNat ∧ byte.toNat ≤ 0x39 then some (byte.toNat - 0x30) else none

/-- `Display` of an unsigned integer: its decimal digits, the first one not zero unless the
number is zero. -/
def displayUnsigned (n : Nat) : List UInt8 :=
  (Digits.toFixed 10 (Nat.log 10 n + 1) n).map digitByte

/-- The digit loop of `from_str_radix` for an unsigned type whose values are below `bound`. -/
def parseDigits (bound : Nat) : Nat → List UInt8 → Option Nat
  | result, [] => some result
  | result, byte :: rest =>
    match digitValue byte with
    | none => none
    | some digit =>
      -- `checked_mul(radix)`, then `checked_add(digit)`
      if result * 10 < bound then
        if Digits.step 10 result digit < bound then
          parseDigits bound (Digits.step 10 result digit) rest
        else none
      else none

/-- `str::parse` of an unsigned integer type whose values are below `bound`:
`from_str_radix(src, 10)`.  A lone sign is an invalid digit and a leading `+` is skipped; for an
unsigned type a leading `-` is read as a digit, and fails as one. -/
def parseUnsigned (bound : Nat) (src : List UInt8) : Option Nat :=
  match src with
  | [] => none
  | first :: rest =>
    if (first = 0x2B ∨ first = 0x2D) ∧ rest = [] then none
    else if first = 0x2B then parseDigits bound 0 rest
    else parseDigits bound 0 src

/-! ## Slicing at ASCII bytes -/

@[simp]
theorem isCharBoundary_zero (s : List UInt8) : isCharBoundary s 0 = true := rfl

theorem isCharBoundary_of_ascii {s : List UInt8} {index : Nat} {byte : UInt8}
    (at_ : s[index]? = some byte) (ascii : byte.toNat < 0x80) : isCharBoundary s index = true := by
  simp [isCharBoundary, at_, ascii]

theorem get_zero_one {first second : UInt8} {rest : List UInt8} (ascii : second.toNat < 0x80) :
    get (first :: second :: rest) 0 1 = some [first] := by
  have boundary : isCharBoundary (first :: second :: rest) 1 = true :=
    isCharBoundary_of_ascii rfl ascii
  simp [get, boundary]

theorem get_one_two {first second third : UInt8} {rest : List UInt8}
    (secondAscii : second.toNat < 0x80) (thirdAscii : third.toNat < 0x80) :
    get (first :: second :: third :: rest) 1 2 = some [second] := by
  have atOne : isCharBoundary (first :: second :: third :: rest) 1 = true :=
    isCharBoundary_of_ascii rfl secondAscii
  have atTwo : isCharBoundary (first :: second :: third :: rest) 2 = true :=
    isCharBoundary_of_ascii rfl thirdAscii
  simp [get, atOne, atTwo]

theorem getFrom_two {first second third : UInt8} {rest : List UInt8}
    (ascii : third.toNat < 0x80) :
    getFrom (first :: second :: third :: rest) 2 = some (third :: rest) := by
  have boundary : isCharBoundary (first :: second :: third :: rest) 2 = true :=
    isCharBoundary_of_ascii rfl ascii
  simp [getFrom, boundary]

/-- A slice `get` returns is the bytes between its ends, and the end is within the string. -/
theorem get_eq_some {s slice : List UInt8} {start stop : Nat}
    (sliced : get s start stop = some slice) :
    slice = (s.drop start).take (stop - start) ∧ stop ≤ s.length := by
  unfold get at sliced
  split at sliced
  · rename_i bounds
    obtain ⟨-, -, atStop⟩ := bounds
    refine ⟨(Option.some.inj sliced).symm, ?_⟩
    unfold isCharBoundary at atStop
    by_cases zero : stop = 0
    · omega
    · cases found : s[stop]? with
      | none => simp_all
      | some byte => exact (List.getElem?_eq_some_iff.mp found).1.le
  · cases sliced

theorem getFrom_eq_some {s rest : List UInt8} {start : Nat} (sliced : getFrom s start = some rest) :
    rest = s.drop start := by
  unfold getFrom at sliced
  split at sliced
  · exact (Option.some.inj sliced).symm
  · cases sliced

/-! ## Decimal numerals -/

theorem digitByte_lt {digit : Nat} (small : digit < 10) : (digitByte digit).toNat = 0x30 + digit := by
  simp [digitByte, Nat.mod_eq_of_lt (show 0x30 + digit < 256 by omega)]

theorem digitValue_digitByte {digit : Nat} (small : digit < 10) :
    digitValue (digitByte digit) = some digit := by
  simp [digitValue, digitByte_lt small]
  omega

@[simp]
theorem length_displayUnsigned (n : Nat) : (displayUnsigned n).length = Nat.log 10 n + 1 := by
  simp [displayUnsigned]

/-- Every byte of a numeral is the byte of a digit. -/
theorem digitByte_of_mem_displayUnsigned {n : Nat} {byte : UInt8}
    (member : byte ∈ displayUnsigned n) : ∃ digit < 10, byte = digitByte digit := by
  simp only [displayUnsigned, List.mem_map] at member
  obtain ⟨digit, member, rfl⟩ := member
  exact ⟨digit, Digits.lt_of_mem_toFixed (by decide) member, rfl⟩

theorem ascii_of_mem_displayUnsigned {n : Nat} {byte : UInt8} (member : byte ∈ displayUnsigned n) :
    byte.toNat < 0x80 := by
  obtain ⟨digit, small, rfl⟩ := digitByte_of_mem_displayUnsigned member
  rw [digitByte_lt small]
  omega

/-- The digit loop reads digit bytes as the fold of their digits, when no step leaves the type. -/
theorem parseDigits_map_digitByte {bound : Nat} {digits : List Nat}
    (small : ∀ digit ∈ digits, digit < 10) (start : Nat)
    (fits : digits.foldl (Digits.step 10) start < bound) :
    parseDigits bound start (digits.map digitByte) = some (digits.foldl (Digits.step 10) start) := by
  induction digits generalizing start with
  | nil => rfl
  | cons digit rest inductionHypothesis =>
    have below : digit < 10 := small digit (by simp)
    have later : ∀ digit ∈ rest, digit < 10 := fun later member => small later (by simp [member])
    rw [List.foldl_cons] at fits ⊢
    -- each value read so far is at most the whole
    have stepFits : Digits.step 10 start digit < bound :=
      Nat.lt_of_le_of_lt (Digits.le_foldl 10 (by decide) rest _) fits
    have shiftFits : start * 10 < bound := by
      unfold Digits.step at stepFits
      omega
    rw [List.map_cons, parseDigits, digitValue_digitByte below]
    dsimp only
    rw [if_pos shiftFits, if_pos stepFits, inductionHypothesis later _ fits]

theorem parseUnsigned_displayUnsigned {bound n : Nat} (fits : n < bound) :
    parseUnsigned bound (displayUnsigned n) = some n := by
  have small : ∀ digit ∈ Digits.toFixed 10 (Nat.log 10 n + 1) n, digit < 10 :=
    fun _ member => Digits.lt_of_mem_toFixed (by decide) member
  have value : Digits.ofFixed 10 (Digits.toFixed 10 (Nat.log 10 n + 1) n) = n := by
    rw [Digits.ofFixed_toFixed, Nat.mod_eq_of_lt (Nat.lt_pow_succ_log_self (by decide) n)]
  have read := parseDigits_map_digitByte small 0 (by rw [← Digits.ofFixed_eq_foldl, value]; exact fits)
  rw [← Digits.ofFixed_eq_foldl, value] at read
  -- the first byte is a digit, neither sign
  obtain ⟨first, rest, shape⟩ : ∃ first rest, displayUnsigned n = first :: rest :=
    List.exists_cons_of_ne_nil (by simp [← List.length_pos_iff])
  obtain ⟨digit, below, firstIs⟩ :=
    digitByte_of_mem_displayUnsigned (shape ▸ List.mem_cons_self : first ∈ displayUnsigned n)
  have notPlus : first ≠ 0x2B := by
    intro plus
    have := digitByte_lt below
    rw [← firstIs, plus] at this
    simp at this
    omega
  have notMinus : first ≠ 0x2D := by
    intro minus
    have := digitByte_lt below
    rw [← firstIs, minus] at this
    simp at this
    omega
  rw [shape, parseUnsigned, if_neg (by tauto), if_neg notPlus, ← shape]
  exact read

end Str
