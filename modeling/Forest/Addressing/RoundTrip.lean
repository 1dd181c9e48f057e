import Forest.Addressing.Address

/-!
# The address codecs' round trips, and the panic of `from_str`

`encode` writes a network prefix, a protocol digit and a payload text; `from_str` reads the two
characters back and hands the rest to its ID or key branch (`fromStr_header`).  Each branch reads
back what `encode` wrote (`fromStrId_displayUnsigned`, `fromStrKey_checksummed`), so every address
survives the string round trip (`fromStr_encode`).  The byte form round trips in both directions
through `Payload::new` (`fromBytes_toBytes`, `toBytes_of_fromBytes`).

The key branch splits the checksum off before it checks any length, and a base32 payload of fewer
than four bytes makes `payload.len() - CHECKSUM_HASH_LEN` underflow and `split_off` panic
(`fromStrKey_run_eq_none_iff`).  Every other path of `from_str` returns, so it panics on exactly
the strings whose header names a key protocol and whose payload decodes to fewer than four bytes
(`fromStr_eq_none_iff`).
-/

namespace Forest.Addressing

section Codec

variable (leb128 : Leb128Unsigned) (blake2b : Blake2bVariable) (addressEncoder : AddressEncoder)

/-! ## The header -/

/-- A string that starts with a network prefix, a protocol digit and an ASCII byte passes the
checks of the header and goes to the branch of its protocol. -/
theorem fromStr_header {network : Network} {protocol : Protocol} {first : UInt8}
    {rest : List UInt8} (ascii : first.toNat < 0x80) (short : rest.length + 3 ≤ maxAddressLen) :
    (fromStr leb128 blake2b addressEncoder (network.toPrefix ++ protocol.toString ++ first :: rest)).run =
      (if protocol = .id then fromStrId network (first :: rest)
        else fromStrKey leb128 blake2b addressEncoder network protocol (first :: rest)).run := by
  obtain ⟨leading, prefixIs, -⟩ := toPrefix_eq network
  have digitAscii := digitByte_toByte_ascii protocol
  have header : network.toPrefix ++ protocol.toString ++ first :: rest =
      leading :: Str.digitByte protocol.toByte.toNat :: first :: rest := by
    rw [prefixIs, Protocol.toString_eq]
    rfl
  have lengthOk :
      ¬((leading :: Str.digitByte protocol.toByte.toNat :: first :: rest).length > maxAddressLen ∨
        (leading :: Str.digitByte protocol.toByte.toNat :: first :: rest).length < 3) := by
    simp only [List.length_cons]
    omega
  have networkRead : networkOfPrefix [leading] = some network := by
    rw [← prefixIs, networkOfPrefix_toPrefix]
  have protocolRead : protocolOfDigit [Str.digitByte protocol.toByte.toNat] = some protocol := by
    rw [← Protocol.toString_eq, protocolOfDigit_toString]
  rw [header]
  simp only [fromStr, if_neg lengthOk, Str.get_zero_one digitAscii,
    Str.get_one_two digitAscii ascii, Str.getFrom_two ascii, networkRead, protocolRead]

/-- A string `from_str` does not reject for its header is a prefix, a digit and a payload text
of at least one byte, and the result is its protocol's branch. -/
theorem fromStr_run_of_header {text : List UInt8} {outcome : Option (Except Error Address)}
    (ran : (fromStr leb128 blake2b addressEncoder text).run = outcome)
    (notHeaderError : ∀ error, outcome ≠ some (.error error)) :
    ∃ network protocol raw, raw ≠ [] ∧ text = network.toPrefix ++ protocol.toString ++ raw ∧
      (if protocol = .id then fromStrId network raw
        else fromStrKey leb128 blake2b addressEncoder network protocol raw).run = outcome := by
  by_cases lengthBad : text.length > maxAddressLen ∨ text.length < 3
  · simp [fromStr, lengthBad] at ran
    exact absurd ran.symm (notHeaderError _)
  cases leadingIs : Str.get text 0 1 with
  | none =>
    simp [fromStr, lengthBad, leadingIs] at ran
    exact absurd ran.symm (notHeaderError _)
  | some leading =>
  cases networkIs : networkOfPrefix leading with
  | none =>
    simp [fromStr, lengthBad, leadingIs, networkIs] at ran
    exact absurd ran.symm (notHeaderError _)
  | some network =>
  cases digitIs : Str.get text 1 2 with
  | none =>
    simp [fromStr, lengthBad, leadingIs, networkIs, digitIs] at ran
    exact absurd ran.symm (notHeaderError _)
  | some digit =>
  cases protocolIs : protocolOfDigit digit with
  | none =>
    simp [fromStr, lengthBad, leadingIs, networkIs, digitIs, protocolIs] at ran
    exact absurd ran.symm (notHeaderError _)
  | some protocol =>
  cases rawIs : Str.getFrom text 2 with
  | none =>
    simp [fromStr, lengthBad, leadingIs, networkIs, digitIs, protocolIs, rawIs] at ran
    exact absurd ran.symm (notHeaderError _)
  | some raw =>
  simp only [fromStr, if_neg lengthBad, leadingIs, networkIs, digitIs, protocolIs, rawIs] at ran
  -- the three slices put back together are the string
  obtain ⟨leadingSlice, -⟩ := Str.get_eq_some leadingIs
  obtain ⟨digitSlice, -⟩ := Str.get_eq_some digitIs
  have rawSlice := Str.getFrom_eq_some rawIs
  have whole : text = leading ++ digit ++ raw := by
    rw [leadingSlice, digitSlice, rawSlice, List.drop_zero, ← List.take_add, List.take_append_drop]
  refine ⟨network, protocol, raw, ?_, ?_, ran⟩
  · rw [rawSlice, ← List.length_pos_iff, List.length_drop]
    omega
  · rw [whole, toPrefix_of_networkOfPrefix networkIs, toString_of_protocolOfDigit protocolIs]

/-! ## The ID branch -/

/-- The ID branch reads a `u64`'s decimal numeral back. -/
theorem fromStrId_displayUnsigned (network : Network) (id : UInt64) :
    (fromStrId network (Str.displayUnsigned id.toNat)).run = some (.ok ⟨network, .id id⟩) := by
  -- `u64::MAX` has twenty digits
  have digits : (Str.displayUnsigned id.toNat).length ≤ 20 := by
    rw [Str.length_displayUnsigned]
    by_cases zero : id.toNat = 0
    · simp [zero]
    · have below : id.toNat < 10 ^ 20 := Nat.lt_of_lt_of_le id.toNat_lt (by decide)
      have := Nat.log_lt_of_lt_pow zero below
      omega
  have parsed := Str.parseUnsigned_displayUnsigned id.toNat_lt
  simp only [fromStrId, if_neg (Nat.not_lt.mpr digits), parsed, UInt64.ofNat_toNat]
  rfl

/-- The ID branch never panics. -/
theorem fromStrId_run_ne_none (network : Network) (raw : List UInt8) :
    (fromStrId network raw).run ≠ none := by
  unfold fromStrId
  by_cases long : raw.length > 20
  · simp [long]
  · cases parsed : Str.parseUnsigned (2 ^ 64) raw <;> simp [long]

/-! ## The key branch -/

/-- The key branch reads back a hash or key followed by the checksum of its byte form. -/
theorem fromStrKey_checksummed (network : Network) {payload : Payload}
    (notId : payload.protocol ≠ .id) :
    (fromStrKey leb128 blake2b addressEncoder network payload.protocol
        (addressEncoder.encode (payload.toRawBytes leb128 ++ checksum blake2b (payload.toBytes leb128)))).run =
      some (.ok ⟨network, payload⟩) := by
  set raw := payload.toRawBytes leb128 with rawIs
  set cksm := checksum blake2b (payload.toBytes leb128) with cksmIs
  have cksmLength : cksm.length = checksumHashLen :=
    blake2b.length_hash _ _ (by decide) (by decide)
  -- the lengths `from_str` checks are those of the payload's protocol
  have lengthOk : ¬((payload.protocol = .secp256k1 ∨ payload.protocol = .actor) ∧
        raw.length ≠ payloadHashLen) ∧ ¬(payload.protocol = .bls ∧ raw.length ≠ blsPubLen) := by
    cases payload with
    | id actorId => exact absurd rfl notId
    | secp256k1 hash => simp [raw, Payload.toRawBytes, Payload.protocol]
    | actor hash => simp [raw, Payload.toRawBytes, Payload.protocol]
    | bls key => simp [raw, Payload.toRawBytes, Payload.protocol]
  have notShort : ¬(raw ++ cksm).length < checksumHashLen := by
    rw [List.length_append, cksmLength]
    omega
  have splitCksm : (raw ++ cksm).drop ((raw ++ cksm).length - checksumHashLen) = cksm := by
    rw [List.length_append, cksmLength, Nat.add_sub_cancel, List.drop_left]
  have splitRaw : (raw ++ cksm).take ((raw ++ cksm).length - checksumHashLen) = raw := by
    rw [List.length_append, cksmLength, Nat.add_sub_cancel, List.take_left]
  have valid : validateChecksum blake2b (payload.protocol.toByte :: raw) cksm = true := by
    simp [validateChecksum, cksmIs, Payload.toBytes, rawIs]
  simp only [fromStrKey, addressEncoder.decode_encode, pure_bind, notShort, if_false, splitCksm,
    splitRaw, lengthOk.1, lengthOk.2, valid, Bool.not_true, Bool.false_eq_true]
  exact congrArg some (Address.new_toRawBytes leb128 network payload)

/-- The key branch panics exactly when the base32 decodes to fewer bytes than the checksum. -/
theorem fromStrKey_run_eq_none_iff (network : Network) (protocol : Protocol) (raw : List UInt8) :
    (fromStrKey leb128 blake2b addressEncoder network protocol raw).run = none ↔
      ∃ payload, addressEncoder.decode raw = .ok payload ∧ payload.length < checksumHashLen := by
  cases decoded : addressEncoder.decode raw with
  | error error => simp [fromStrKey, decoded]
  | ok payload =>
    by_cases short : payload.length < checksumHashLen
    · simp [fromStrKey, decoded, short, ExceptT.lift, ExceptT.run_bind]
    · -- past the split every path throws or returns
      simp only [fromStrKey, decoded, pure_bind, short, ↓reduceIte, iff_false, Except.ok.injEq,
        exists_eq_left']
      split_ifs <;> simp

/-! ## The string round trip -/

/-- `encode` of a hash or key: the prefix, the digit, and the base32 of the payload and the
checksum of the byte form. -/
theorem encode_of_ne_id (network : Network) {payload : Payload} (notId : payload.protocol ≠ .id) :
    encode leb128 blake2b addressEncoder ⟨network, payload⟩ = some (network.toPrefix ++ payload.protocol.toString ++
      addressEncoder.encode (payload.toRawBytes leb128 ++ checksum blake2b (payload.toBytes leb128))) := by
  cases payload with
  | id actorId => exact absurd rfl notId
  | secp256k1 hash => rfl
  | actor hash => rfl
  | bls key => rfl

/-- A hash or key and its checksum fit in `MAX_ADDRESS_LEN` once written: a BLS key's 52 bytes
take the 84 symbols the limit leaves. -/
theorem length_encode_le {payload : Payload} (notId : payload.protocol ≠ .id) :
    (addressEncoder.encode (payload.toRawBytes leb128 ++ checksum blake2b (payload.toBytes leb128))).length
      + 2 ≤ maxAddressLen := by
  have cksmLength : (checksum blake2b (payload.toBytes leb128)).length = checksumHashLen :=
    blake2b.length_hash _ _ (by decide) (by decide)
  have rawLength : (payload.toRawBytes leb128).length ≤ blsPubLen := by
    cases payload with
    | id actorId => exact absurd rfl notId
    | secp256k1 hash =>
      rw [Payload.toRawBytes, List.Vector.toList_length]
      decide
    | actor hash =>
      rw [Payload.toRawBytes, List.Vector.toList_length]
      decide
    | bls key => simp [Payload.toRawBytes]
  rw [addressEncoder.length_encode, List.length_append, cksmLength]
  simp only [Base32.encodeLen, checksumHashLen, maxAddressLen, blsPubLen] at rawLength ⊢
  omega

/-- Every address is written as a string that `from_str` reads back as the address. -/
theorem fromStr_encode (addr : Address) :
    ∃ text, encode leb128 blake2b addressEncoder addr = some text ∧ (fromStr leb128 blake2b addressEncoder text).run = some (.ok addr) := by
  obtain ⟨network, payload⟩ := addr
  by_cases isId : payload.protocol = .id
  · -- an ID is written in decimal
    obtain ⟨actorId, rfl⟩ : ∃ actorId, payload = .id actorId := by
      cases payload with
      | id actorId => exact ⟨actorId, rfl⟩
      | _ => cases isId
    refine ⟨network.toPrefix ++ Protocol.id.toString ++ Str.displayUnsigned actorId.toNat, ?_, ?_⟩
    · simp [encode, Address.protocol, Payload.protocol, Address.payloadBytes, Payload.toRawBytes,
        fromLebBytes_toLebBytes]
    · obtain ⟨first, rest, shape⟩ : ∃ first rest, Str.displayUnsigned actorId.toNat = first :: rest :=
        List.exists_cons_of_ne_nil (by simp [← List.length_pos_iff])
      have ascii : first.toNat < 0x80 :=
        Str.ascii_of_mem_displayUnsigned (shape ▸ List.mem_cons_self)
      have digits := (fromStrId_displayUnsigned network actorId)
      have short : rest.length + 3 ≤ maxAddressLen := by
        have bound : (Str.displayUnsigned actorId.toNat).length ≤ 20 := by
          rw [Str.length_displayUnsigned]
          by_cases zero : actorId.toNat = 0
          · simp [zero]
          · have below : actorId.toNat < 10 ^ 20 := Nat.lt_of_lt_of_le actorId.toNat_lt (by decide)
            have := Nat.log_lt_of_lt_pow zero below
            omega
        rw [shape, List.length_cons] at bound
        simp only [maxAddressLen]
        omega
      rw [shape, fromStr_header leb128 blake2b addressEncoder ascii short, if_pos rfl, ← shape, digits]
  · -- a hash or key is written in base32 with its checksum
    refine ⟨_, encode_of_ne_id leb128 blake2b addressEncoder network isId, ?_⟩
    have fits := length_encode_le leb128 blake2b addressEncoder isId
    obtain ⟨first, rest, shape⟩ := List.exists_cons_of_ne_nil (l := addressEncoder.encode
      (payload.toRawBytes leb128 ++ checksum blake2b (payload.toBytes leb128))) (by
        rw [← List.length_pos_iff, addressEncoder.length_encode, List.length_append]
        have := payload.toRawBytes_ne_nil leb128
        simp only [Base32.encodeLen]
        have : 0 < (payload.toRawBytes leb128).length := List.length_pos_iff.mpr this
        omega)
    have ascii : first.toNat < 0x80 := by
      obtain ⟨digit, rfl⟩ := addressEncoder.symbol_of_encode (shape ▸ List.mem_cons_self)
      exact addressSymbols_symbol_ascii digit
    have short : rest.length + 3 ≤ maxAddressLen := by
      rw [shape, List.length_cons] at fits
      omega
    rw [shape, fromStr_header leb128 blake2b addressEncoder ascii short, if_neg isId, ← shape,
      fromStrKey_checksummed leb128 blake2b addressEncoder network isId]

/-! ## The byte round trip -/

/-- `from_bytes` reads the byte form back, with the default network. -/
theorem fromBytes_toBytes (networkDefault : Network) (addr : Address) :
    Address.fromBytes leb128 networkDefault (addr.toBytes leb128) = .ok ⟨networkDefault, addr.payload⟩ := by
  obtain ⟨first, rest, shape⟩ := List.exists_cons_of_ne_nil (addr.payload.toRawBytes_ne_nil leb128)
  have built := Address.new_toRawBytes leb128 networkDefault addr.payload
  rw [shape] at built
  rw [Address.toBytes, Payload.toBytes, shape]
  simp only [Address.fromBytes, Protocol.fromByte_toByte, built]

/-- What `from_bytes` accepts is the byte form of the address it returns. -/
theorem toBytes_of_fromBytes {networkDefault : Network} {bz : List UInt8} {addr : Address}
    (read : Address.fromBytes leb128 networkDefault bz = .ok addr) :
    (addr.toBytes leb128) = bz ∧ addr.network = networkDefault := by
  match bz, read with
  | [], read => simp [Address.fromBytes] at read
  | [_], read => simp [Address.fromBytes] at read
  | byte :: second :: rest, read =>
    cases protocolIs : Protocol.fromByte byte with
    | none => simp [Address.fromBytes, protocolIs] at read
    | some protocol =>
      simp only [Address.fromBytes, protocolIs] at read
      obtain ⟨payload, built, rfl⟩ := Address.new_eq_ok leb128 read
      obtain ⟨protocolOf, rawOf⟩ := Payload.new_eq_ok leb128 built
      refine ⟨?_, rfl⟩
      rw [Address.toBytes, Payload.toBytes, protocolOf, rawOf,
        Protocol.toByte_of_fromByte protocolIs]

/-! ## The panic -/

/-- `from_str` panics on exactly the strings whose header names a key protocol and whose base32
payload decodes to fewer bytes than the checksum. -/
theorem fromStr_eq_none_iff (text : List UInt8) :
    (fromStr leb128 blake2b addressEncoder text).run = none ↔
      ∃ (network : Network) (protocol : Protocol) (raw payload : List UInt8),
        protocol ≠ .id ∧ raw ≠ [] ∧
        text = network.toPrefix ++ protocol.toString ++ raw ∧
        addressEncoder.decode raw = .ok payload ∧ payload.length < checksumHashLen := by
  constructor
  · intro panicked
    obtain ⟨network, protocol, raw, nonempty, shape, branch⟩ :=
      fromStr_run_of_header leb128 blake2b addressEncoder panicked (fun _ => by simp)
    by_cases isId : protocol = .id
    · rw [if_pos isId] at branch
      exact absurd branch (fromStrId_run_ne_none network raw)
    · rw [if_neg isId, fromStrKey_run_eq_none_iff] at branch
      obtain ⟨payload, decoded, short⟩ := branch
      exact ⟨network, protocol, raw, payload, isId, nonempty, shape, decoded, short⟩
  · rintro ⟨network, protocol, raw, payload, notId, nonempty, rfl, decoded, short⟩
    obtain ⟨first, rest, rfl⟩ := List.exists_cons_of_ne_nil nonempty
    have ascii : first.toNat < 0x80 := by
      obtain ⟨digit, value⟩ := addressEncoder.value_of_decode decoded first List.mem_cons_self
      exact ascii_of_addressSymbols_value value
    -- fewer than four bytes come from at most six symbols
    have fits : rest.length + 3 ≤ maxAddressLen := by
      have decodedLength := addressEncoder.length_decode decoded
      rw [List.length_cons] at decodedLength
      simp only [checksumHashLen, maxAddressLen] at short ⊢
      omega
    rw [fromStr_header leb128 blake2b addressEncoder ascii fits, if_neg notId, fromStrKey_run_eq_none_iff]
    exact ⟨payload, decoded, short⟩

/-! ## The codecs -/

/-- The address codecs.  Every address is written as a string that `from_str` reads back as
the address; `from_bytes` reads the byte form back with the default network and the same
payload, and what it accepts is the byte form of what it returns.  `from_str` panics on exactly
the strings whose header names a key protocol and whose base32 payload decodes to fewer bytes
than the checksum. -/
theorem address_codecs_laws :
    (∀ addr : Address, ∃ text, encode leb128 blake2b addressEncoder addr = some text ∧
      (fromStr leb128 blake2b addressEncoder text).run = some (.ok addr)) ∧
    (∀ (networkDefault : Network) (addr : Address),
      Address.fromBytes leb128 networkDefault (addr.toBytes leb128) = .ok ⟨networkDefault, addr.payload⟩) ∧
    (∀ (networkDefault : Network) (bz : List UInt8) (addr : Address),
      Address.fromBytes leb128 networkDefault bz = .ok addr → (addr.toBytes leb128) = bz) ∧
    (∀ text : List UInt8, (fromStr leb128 blake2b addressEncoder text).run = none ↔
      ∃ (network : Network) (protocol : Protocol) (raw payload : List UInt8),
        protocol ≠ .id ∧ raw ≠ [] ∧ text = network.toPrefix ++ protocol.toString ++ raw ∧
        addressEncoder.decode raw = .ok payload ∧ payload.length < checksumHashLen) :=
  ⟨fromStr_encode leb128 blake2b addressEncoder, fromBytes_toBytes leb128,
    fun _ _ _ read => (toBytes_of_fromBytes leb128 read).1,
    fromStr_eq_none_iff leb128 blake2b addressEncoder⟩

/-- `f1aa` panics: its header names secp256k1, and `aa` decodes to the one byte 0 in the base32
of RFC 4648. -/
theorem fromStr_panics_on_f1aa :
    (fromStr leb128 blake2b AddressEncoder.standard [0x66, 0x31, 0x61, 0x61]).run = none := by
  have decoded : AddressEncoder.standard.decode [0x61, 0x61] = .ok [0] := by decide
  have header : [0x66, 0x31, 0x61, 0x61] =
      Network.mainnet.toPrefix ++ Protocol.secp256k1.toString ++ [0x61, 0x61] := by
    rw [Protocol.toString_eq]
    rfl
  exact (fromStr_eq_none_iff leb128 blake2b _ _).mpr
    ⟨.mainnet, .secp256k1, [0x61, 0x61], [0], by decide, by decide, header, decoded, by decide⟩

end Codec

end Forest.Addressing
