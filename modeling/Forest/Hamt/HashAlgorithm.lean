import Forest.Hamt.HashBits

namespace Forest.HAMT

/-!
# Hash algorithms

`hash_algorithm.rs` offers `Sha256`, which hashes with the external `sha2` crate and is a
parameter of the model, and the `Identity` algorithm of the `identity` feature, which the
crate's tests use.  `Identity` writes the key's bytes into a zeroed 32-byte buffer, so a
`BytesKey` hashes to its first 32 bytes padded with zeros.
-/

/-- `Identity::hash` of a `BytesKey`: `state.write(&self.0)` into `IdentityHasher`. -/
def identityHash (bytes : List UInt8) : HashedKey :=
  Vector.ofFn fun i => bytes.getD i.val 0

end Forest.HAMT
