import Forest.Lib.ByteOrder
import Mathlib.Order.WithBot
import Mathlib.Data.Prod.Lex

/-!
# Block headers

The parts of `BlockHeader` that tipset construction, the tipset tracker, chain weight and
chain sync read, with the identifiers they are built from.  A header's CID is the hash of
its CBOR encoding; the model keeps it as the field the header's cache holds, and a `Cid`
as its byte encoding (`Cid::to_bytes`).

Headers are ordered in a tipset by `to_sort_key`: the BLAKE2b-256 digest of the ticket's
VRF proof, ties broken by the CID bytes, and a header without a ticket before every other.
The digest is a parameter of the functions that sort.
-/

namespace Forest.Blocks

/-- A content identifier, by its byte encoding. -/
structure Cid where
  toBytes : List UInt8
  deriving DecidableEq, Repr

/-- An address by its protocol: an actor ID, or the payload of a key or actor address. -/
inductive Address where
  | id (actorId : Nat)
  | secp256k1 (payload : List UInt8)
  | actor (payload : List UInt8)
  | bls (payload : List UInt8)
  deriving DecidableEq, Repr

/-- The key of a tipset: the CIDs of its headers. -/
structure TipsetKeys where
  cids : List Cid
  deriving DecidableEq, Repr

/-- A ticket, by its VRF proof bytes. -/
structure Ticket where
  vrfproof : List UInt8
  deriving DecidableEq, Repr

/-- An election proof, by the number of wins it claims. -/
structure ElectionProof where
  winCount : Int
  deriving DecidableEq, Repr

/-- The fields of a block header that the chain code reads. -/
structure BlockHeader where
  parents : TipsetKeys
  weight : Int
  epoch : Int
  stateRoot : Cid
  messages : Cid
  minerAddress : Address
  ticket : Option Ticket
  electionProof : Option ElectionProof
  parentBaseFee : Int
  cid : Cid
  deriving DecidableEq, Repr

/-- The type of `to_sort_key`: an optional pair of digest and CID bytes, compared as Rust
compares `Option<([u8; 32], Vec<u8>)>`: `None` first, then lexicographically. -/
def SortKey : Type := WithBot (Lex (List UInt8 × List UInt8))

instance : LinearOrder SortKey := inferInstanceAs (LinearOrder (WithBot (Lex _)))

section SortKey

variable (blake2b256 : List UInt8 → List UInt8)

/-- Key used for sorting headers and blocks. -/
def BlockHeader.toSortKey (header : BlockHeader) : SortKey :=
  match header.ticket with
  | none => (⊥ : WithBot _)
  | some ticket => ((toLex (blake2b256 ticket.vrfproof, header.cid.toBytes) : Lex _) : WithBot _)

/-- Two ticketed headers with one sort key have one CID: the CID breaks every tie. -/
theorem BlockHeader.cid_eq_of_toSortKey_eq {header other : BlockHeader} {ticket ticket' : Ticket}
    (ticketed : header.ticket = some ticket) (ticketed' : other.ticket = some ticket')
    (same : header.toSortKey blake2b256 = other.toSortKey blake2b256) : header.cid = other.cid := by
  simp only [BlockHeader.toSortKey, ticketed, ticketed'] at same
  have pairs := toLex_inj.mp (WithBot.coe_injective same)
  exact congrArg Cid.mk (Prod.ext_iff.mp pairs).2

end SortKey

end Forest.Blocks
