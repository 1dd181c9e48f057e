import Mathlib
import Forest.Lib.SortedMap
import Forest.Lib.Result

/-!
# The balance table

`BalanceTable` keeps token amounts in a HAMT keyed by address bytes; the model keeps the
HAMT's contents as a sorted map from keys to amounts (the order of a HAMT traversal plays no
part here: `total` only sums).  An absent key has balance zero.

The table means a map from keys to balances.  `add` deletes an entry whose balance drops from
non-zero to zero, but writes a zero entry when the balance was zero and stays zero, so `add(a, 0)` and `must_subtract(a, 0)` on an
empty address leave a zero entry behind.  `subtract_with_minimum` subtracts `min(req, prev -
floor)`: `BigInt::checked_sub` never fails, so below the floor the returned amount is negative.
-/

namespace Forest.Actor

open Forest

variable {κ : Type} [LinearOrder κ]

/-- Balance table which handles getting and updating token balances specifically. -/
structure BalanceTable (κ : Type) [LinearOrder κ] where
  map : SortedMap κ Int

namespace BalanceTable

/-- Initializes a new empty balance table. -/
def new : BalanceTable κ := ⟨SortedMap.empty⟩

/-- Gets token amount for given address in balance table. -/
def get (table : BalanceTable κ) (key : κ) : Int :=
  (table.map.get? key).getD 0

/-- Adds token amount to previously initialized account. -/
def add (table : BalanceTable κ) (key : κ) (value : Int) : Except String (BalanceTable κ) :=
  let prev := table.get key
  let sum := prev + value
  if sum < 0 then .error s!"New balance in table cannot be negative: {sum}"
  else if sum = 0 ∧ prev ≠ 0 then .ok ⟨table.map.delete key⟩
  else .ok ⟨table.map.set key sum⟩

/-- Subtracts up to the specified amount from a balance, without reducing the balance below
some minimum.  Returns the table and the amount subtracted. -/
def subtractWithMinimum (table : BalanceTable κ) (key : κ) (req floor : Int) :
    Except String (BalanceTable κ × Int) := do
  let prev := table.get key
  -- `BigInt::checked_sub` always returns `Some`
  let available := prev - floor
  let sub := min available req
  if 0 < sub then
    let table ← table.add key (-sub)
    pure (table, sub)
  else pure (table, sub)

/-- Subtracts value from a balance, and errors if full amount was not substracted. -/
def mustSubtract (table : BalanceTable κ) (key : κ) (req : Int) :
    Except String (BalanceTable κ) :=
  let prev := table.get key
  if req > prev then .error "couldn't subtract the requested amount"
  else table.add key (-req)

/-- Returns total balance held by this balance table. -/
def total (table : BalanceTable κ) : Int :=
  (table.map.entries.map Prod.snd).sum

/-! ## Lookups after each operation -/

@[simp] theorem get_new (key : κ) : (new : BalanceTable κ).get key = 0 := rfl

/-- Everything a successful `add` can do: delete the entry when a non-zero balance reaches
zero, and otherwise store the new balance. -/
theorem add_cases {table table' : BalanceTable κ} {key : κ} {value : Int}
    (added : table.add key value = .ok table') :
    0 ≤ table.get key + value ∧
      ((table.get key + value = 0 ∧ table.get key ≠ 0 ∧ table'.map = table.map.delete key) ∨
        (¬ (table.get key + value = 0 ∧ table.get key ≠ 0) ∧
          table'.map = table.map.set key (table.get key + value))) := by
  simp only [add] at added
  split_ifs at added with negative dropped
  · cases added
    exact ⟨by omega, .inl ⟨dropped.1, dropped.2, rfl⟩⟩
  · cases added
    exact ⟨by omega, .inr ⟨dropped, rfl⟩⟩

/-- After `add` the balance of `key` has moved by the value and no other balance has moved. -/
theorem get_add {table table' : BalanceTable κ} {key : κ} {value : Int}
    (added : table.add key value = .ok table') (other : κ) :
    table'.get other = if other = key then table.get key + value else table.get other := by
  obtain ⟨-, ⟨zero, -, deleted⟩ | ⟨-, stored⟩⟩ := add_cases added
  · by_cases same : other = key
    · rw [if_pos same]
      simp only [get, deleted, same, SortedMap.get?_delete, if_true, Option.getD_none]
      simp only [get] at zero
      omega
    · simp [get, deleted, same]
  · by_cases same : other = key
    · simp [get, stored, same]
    · simp [get, stored, same, Ne.symm same]

/-! ## The total -/

/-- The total is the sum of the stored amounts, so `add` moves it by the added value. -/
theorem total_add {table table' : BalanceTable κ} {key : κ} {value : Int}
    (added : table.add key value = .ok table') : table'.total = table.total + value := by
  -- the entries without `key`, summed once
  have split : ∀ map : SortedMap κ Int,
      (map.entries.map Prod.snd).sum = (map.get? key).getD 0 +
        ((map.delete key).entries.map Prod.snd).sum := by
    intro map
    cases found : map.get? key with
    | none => simp [SortedMap.delete_of_get?_eq_none found]
    | some amount => simp [((SortedMap.perm_delete_of_get? found).map Prod.snd).sum_eq]
  simp only [total]
  obtain ⟨-, ⟨zero, -, deleted⟩ | ⟨-, stored⟩⟩ := add_cases added
  · have deleteTwice : (table.map.delete key).delete key = table.map.delete key :=
      SortedMap.delete_of_get?_eq_none (by simp)
    rw [deleted, split table.map, split (table.map.delete key), deleteTwice]
    simp only [get] at zero
    simp only [SortedMap.get?_delete, if_true, Option.getD_none]
    omega
  · rw [stored, ((SortedMap.perm_set table.map key _).map Prod.snd).sum_eq, split table.map]
    simp only [get, List.map_cons, List.sum_cons]
    omega

/-- A successful `must_subtract` took the request from the balance and from the total. -/
theorem mustSubtract_cases {table table' : BalanceTable κ} {key : κ} {req : Int}
    (subtracted : table.mustSubtract key req = .ok table') :
    req ≤ table.get key ∧ table.add key (-req) = .ok table' := by
  simp only [mustSubtract] at subtracted
  split at subtracted
  · cases subtracted
  · rename_i covered
    exact ⟨by omega, subtracted⟩

/-- A successful `subtract_with_minimum` returned `min(prev - floor, req)` and took it from the
balance and the total when it is positive. -/
theorem subtractWithMinimum_cases {table table' : BalanceTable κ} {key : κ} {req floor sub : Int}
    (subtracted : table.subtractWithMinimum key req floor = .ok (table', sub)) :
    sub = min (table.get key - floor) req ∧
      (0 < sub → table.add key (-sub) = .ok table') ∧ (¬ 0 < sub → table' = table) := by
  unfold subtractWithMinimum at subtracted
  simp only [bind, Except.bind, pure, Except.pure] at subtracted
  split at subtracted
  · rename_i positive
    cases added : table.add key (-min (table.get key - floor) req) with
    | error text => simp [added] at subtracted
    | ok result =>
      simp only [added, Except.ok.injEq, Prod.mk.injEq] at subtracted
      obtain ⟨rfl, rfl⟩ := subtracted
      exact ⟨rfl, fun _ => added, fun notPositive => absurd positive notPositive⟩
  · rename_i notPositive
    simp only [Except.ok.injEq, Prod.mk.injEq] at subtracted
    obtain ⟨rfl, rfl⟩ := subtracted
    exact ⟨rfl, fun positive => absurd positive notPositive, fun _ => rfl⟩

/-- On an address with no balance, `add(a, 0)` and `must_subtract(a, 0)` store an explicit
zero: the table keeps every balance zero but holds an entry, so its contents (and root) differ
from the empty table's.  Below the floor, `subtract_with_minimum` returns a negative amount
instead of zero. -/
theorem add_zero_writes_zero_entry (key : κ) {req floor : Int} (nonnegReq : 0 ≤ req)
    (positiveFloor : 0 < floor) :
    (∃ table, (new : BalanceTable κ).add key 0 = .ok table ∧
        (∀ other, table.get other = (new : BalanceTable κ).get other) ∧
        table.map.entries = [(key, 0)]) ∧
      (∃ table, (new : BalanceTable κ).mustSubtract key 0 = .ok table ∧
        table.map.entries = [(key, 0)]) ∧
      (new : BalanceTable κ).subtractWithMinimum key req floor = .ok (new, -floor) := by
  have stored : (new : BalanceTable κ).add key 0 =
      .ok ⟨(SortedMap.empty : SortedMap κ Int).set key 0⟩ := by
    simp [add, new, get]
  have entries : ((SortedMap.empty : SortedMap κ Int).set key 0).entries = [(key, 0)] := rfl
  refine ⟨⟨_, stored, fun other => ?_, entries⟩,
    ⟨⟨(SortedMap.empty : SortedMap κ Int).set key 0⟩, ?_, entries⟩, ?_⟩
  · rw [get_add stored]
    split <;> rfl
  · have notAbove : ¬ (0 : Int) > (new : BalanceTable κ).get key := by simp
    simp only [mustSubtract, if_neg notAbove, Int.neg_zero, stored]
  · -- the amount available is `0 - floor`, below every request that is not negative
    have available : min ((new : BalanceTable κ).get key - floor) req = -floor := by
      rw [get_new, Int.zero_sub]
      exact min_eq_left (by omega)
    simp only [subtractWithMinimum, available]
    rw [if_neg (by omega)]
    rfl

theorem add_zero_writes_zero_entry_at_zero :
    (0 : Int) ≤ 0 ∧ (0 : Int) < 1 ∧
      ((∃ table, (new : BalanceTable Nat).add 0 0 = .ok table ∧
          (∀ other, table.get other = (new : BalanceTable Nat).get other) ∧
          table.map.entries = [(0, 0)]) ∧
        (∃ table, (new : BalanceTable Nat).mustSubtract 0 0 = .ok table ∧
          table.map.entries = [(0, 0)]) ∧
        (new : BalanceTable Nat).subtractWithMinimum 0 0 1 = .ok (new, -1)) :=
  ⟨le_refl 0, Int.one_pos, add_zero_writes_zero_entry 0 (le_refl 0) Int.one_pos⟩

end BalanceTable

end Forest.Actor
