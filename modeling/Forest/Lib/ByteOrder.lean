import Mathlib

/-!
# The order of bytes

`UInt8` carries `≤` and `<` from core but no `LinearOrder`.  This module supplies one
built on those relations, so that byte strings get the lexicographic linear order of
`Mathlib.Data.List.Lex` and stay decidable.
-/

instance instLinearOrderUInt8 : LinearOrder UInt8 where
  le_refl a := by simp
  le_trans a b c := by
    simp only [UInt8.le_iff_toNat_le]
    omega
  le_antisymm a b := by
    simp only [UInt8.le_iff_toNat_le]
    intro below above
    exact UInt8.toNat_inj.mp (by omega)
  le_total a b := by
    simp only [UInt8.le_iff_toNat_le]
    omega
  lt_iff_le_not_ge a b := by
    simp only [UInt8.le_iff_toNat_le, UInt8.lt_iff_toNat_lt]
    omega
  toDecidableLE := inferInstance

/-!
## Big-endian numbers

A number in a fixed count of bytes, most significant first, and the number a byte string
spells.  `write len n` keeps `n` modulo `256 ^ len`, and `read` gives it back (`read_write`).
-/

namespace BigEndian

/-- The `len` low bytes of `n`, most significant first. -/
def write : Nat → Nat → List UInt8
  | 0, _ => []
  | len + 1, n => write len (n / 256) ++ [UInt8.ofNat (n % 256)]

/-- The number the bytes spell, most significant first. -/
def read (bytes : List UInt8) : Nat :=
  bytes.foldl (fun acc byte => acc * 256 + byte.toNat) 0

@[simp]
theorem write_zero (n : Nat) : write 0 n = [] := rfl

theorem write_succ (len n : Nat) :
    write (len + 1) n = write len (n / 256) ++ [UInt8.ofNat (n % 256)] := rfl

theorem read_eq_foldl (bytes : List UInt8) :
    read bytes = bytes.foldl (fun acc byte => acc * 256 + byte.toNat) 0 := rfl

@[simp]
theorem length_write (len n : Nat) : (write len n).length = len := by
  induction len generalizing n with
  | zero => rfl
  | succ len inductionHypothesis => simp [write_succ, inductionHypothesis]

@[simp]
theorem read_nil : read [] = 0 := rfl

theorem foldl_read (acc : Nat) (bytes : List UInt8) :
    bytes.foldl (fun acc byte => acc * 256 + byte.toNat) acc =
      acc * 256 ^ bytes.length + read bytes := by
  induction bytes generalizing acc with
  | nil => simp
  | cons byte rest inductionHypothesis =>
    simp only [List.foldl_cons, read_eq_foldl, List.length_cons]
    rw [inductionHypothesis, inductionHypothesis (0 * 256 + byte.toNat), Nat.pow_succ]
    ring

theorem read_append (front back : List UInt8) :
    read (front ++ back) = read front * 256 ^ back.length + read back := by
  rw [read_eq_foldl, List.foldl_append, foldl_read]
  rfl

@[simp]
theorem read_singleton (byte : UInt8) : read [byte] = byte.toNat := by
  simp [read_eq_foldl]

/-- Bytes are the zero bytes `dropWhile` takes off them, then what it leaves. -/
theorem replicate_append_dropWhile_zero (bytes : List UInt8) :
    List.replicate (bytes.length - (bytes.dropWhile (· == 0)).length) 0 ++
      bytes.dropWhile (· == 0) = bytes := by
  induction bytes with
  | nil => rfl
  | cons byte rest inductionHypothesis =>
    by_cases zero : byte = 0
    · subst zero
      have shorter : (rest.dropWhile (· == 0)).length ≤ rest.length :=
        (List.dropWhile_sublist _).length_le
      rw [List.dropWhile_cons_of_pos (by simp), List.length_cons,
        show rest.length + 1 - (rest.dropWhile (· == 0)).length =
          (rest.length - (rest.dropWhile (· == 0)).length) + 1 by omega,
        List.replicate_succ, List.cons_append, inductionHypothesis]
    · rw [List.dropWhile_cons_of_neg (by simpa using zero), Nat.sub_self, List.replicate_zero,
        List.nil_append]

theorem read_write (len n : Nat) : read (write len n) = n % 256 ^ len := by
  induction len generalizing n with
  | zero => simp [Nat.mod_one]
  | succ len inductionHypothesis =>
    rw [write_succ, read_append, inductionHypothesis, read_singleton, List.length_singleton,
      Nat.pow_one, Nat.pow_succ', Nat.mod_mul]
    simp only [UInt8.toNat_ofNat', Nat.mod_mod]
    ring

end BigEndian
