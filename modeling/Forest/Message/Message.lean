import Forest.Blocks.Header

/-!
# Messages

`UnsignedMessage` and `SignedMessage` with the fields that block validation, message
selection for a tipset and the VM read, and `valid_for_block_inclusion`, the syntactic check
a message of a block must pass.  `from` and `to` are keywords of Lean: the sender is
`sender` and the receiver `recipient`.
A network version is kept as its number (`NetworkVersion::V7` is `7`).
-/

namespace Forest.Message

open Forest.Blocks

/-- `BLOCK_GAS_LIMIT`. -/
def blockGasLimit : Int := 10000000000

/-- `FILECOIN_PRECISION`. -/
def filecoinPrecision : Int := 1000000000000000000

/-- `TOTAL_FILECOIN`: `TOTAL_FILECOIN_BASE * FILECOIN_PRECISION`. -/
def totalFilecoin : Int := 2000000000 * filecoinPrecision

/-- `ZERO_ADDRESS`, the BLS address of the compressed point at infinity. -/
def zeroAddress : Address := .bls (0xc0 :: List.replicate 47 0)

/-- An unsigned message; `size` is the length of its CBOR encoding. -/
structure UnsignedMessage where
  version : Int
  sender : Address
  recipient : Address
  sequence : Nat
  value : Int
  methodNum : Nat
  gasLimit : Int
  gasFeeCap : Int
  gasPremium : Int
  size : Nat
  deriving DecidableEq, Repr

/-- A signature, by its type and bytes. -/
structure Signature where
  sigType : Nat
  bytes : List UInt8
  deriving DecidableEq, Repr

/-- A message with its sender's signature. -/
structure SignedMessage where
  message : UnsignedMessage
  signature : Signature
  deriving DecidableEq, Repr

/-- A message as a block carries it: a BLS message unsigned, a secp message with its signature. -/
inductive ChainMessage where
  | unsigned (msg : UnsignedMessage)
  | signed (msg : SignedMessage)
  deriving DecidableEq, Repr

/-- `ChainMessage::message`: the unsigned message inside. -/
def ChainMessage.message : ChainMessage → UnsignedMessage
  | .unsigned msg => msg
  | .signed msg => msg.message

/-- `Message::required_funds`: the most the message can spend, its gas at the fee cap and its
value. -/
def UnsignedMessage.requiredFunds (msg : UnsignedMessage) : Int :=
  msg.gasFeeCap * msg.gasLimit + msg.value

/-- Semantic validation and validates the message has enough gas. -/
def UnsignedMessage.validForBlockInclusion (msg : UnsignedMessage) (minGas : Int)
    (version : Nat) : Except String Unit :=
  if msg.version ≠ 0 then
    .error s!"Message version: {msg.version} not  supported"
  else if msg.recipient = zeroAddress ∧ 7 ≤ version then
    .error "invalid 'to' address"
  else if msg.value < 0 then
    .error "message value cannot be negative"
  else if msg.value > totalFilecoin then
    .error "message value cannot be greater than total FIL supply"
  else if msg.gasFeeCap < 0 then
    .error "gas_fee_cap cannot be negative"
  else if msg.gasPremium < 0 then
    .error "gas_premium cannot be negative"
  else if msg.gasPremium > msg.gasFeeCap then
    .error "gas_fee_cap less than gas_premium"
  else if msg.gasLimit > blockGasLimit then
    .error "gas_limit cannot be greater than block gas limit"
  else if msg.gasLimit < minGas then
    .error s!"gas_limit {msg.gasLimit} cannot be less than cost {minGas} of storing a message on chain"
  else
    .ok ()

/-- A check that passes: its condition is false and the rest passes. -/
theorem ok_of_ite_error {condition : Prop} [Decidable condition] {message : String}
    {rest : Except String Unit} (passed : (if condition then .error message else rest) = .ok ()) :
    ¬ condition ∧ rest = .ok () := by
  by_cases holds : condition
  · rw [if_pos holds] at passed
    cases passed
  · rw [if_neg holds] at passed
    exact ⟨holds, passed⟩

/-- The bounds a message that passes the check carries: the ones the gas settlement of the
VM relies on. -/
theorem UnsignedMessage.bounds_of_validForBlockInclusion {msg : UnsignedMessage} {minGas : Int}
    {version : Nat} (valid : msg.validForBlockInclusion minGas version = .ok ()) :
    0 ≤ msg.value ∧ msg.value ≤ totalFilecoin ∧ 0 ≤ msg.gasPremium ∧
      msg.gasPremium ≤ msg.gasFeeCap ∧ minGas ≤ msg.gasLimit ∧ msg.gasLimit ≤ blockGasLimit := by
  unfold validForBlockInclusion at valid
  -- each check that passes leaves its condition false and the later checks to pass
  obtain ⟨-, valid⟩ := ok_of_ite_error valid
  obtain ⟨-, valid⟩ := ok_of_ite_error valid
  obtain ⟨valueNonneg, valid⟩ := ok_of_ite_error valid
  obtain ⟨valueBounded, valid⟩ := ok_of_ite_error valid
  obtain ⟨-, valid⟩ := ok_of_ite_error valid
  obtain ⟨premiumNonneg, valid⟩ := ok_of_ite_error valid
  obtain ⟨premiumBounded, valid⟩ := ok_of_ite_error valid
  obtain ⟨gasBounded, valid⟩ := ok_of_ite_error valid
  obtain ⟨gasEnough, -⟩ := ok_of_ite_error valid
  omega

end Forest.Message
