import Forest.Message.Message
import Forest.Lib.SortBy
import Forest.Lib.Result

/-!
# Tipsets

`Tipset::new` and `FullTipset::new` check their headers with `verify_blocks` and sort them
by `to_sort_key` with the stable `sort_by_cached_key`.  `verify_blocks` compares every
header with the first one only.  The tipset rules ask more: one parent set, state root and
epoch, and a different miner for every block.  The first three are equalities, so agreeing
with the first header is enough for them; distinct miners are not, and a miner that appears
twice after the first header is accepted.
-/

namespace Forest.Blocks

open Forest.Message

/-- Blockchain blocks error. -/
inductive Error where
  | invalidTipset (message : String)
  | noBlocks
  | invalidSignature (message : String)
  | validation (message : String)
  deriving DecidableEq, Repr

/-- The `Display` of `Error`. -/
def Error.toString : Error → String
  | .invalidTipset message => s!"Invalid tipset: {message}"
  | .noBlocks => "No blocks for tipset"
  | .invalidSignature message => s!"Invalid signature: {message}"
  | .validation message => s!"Error validating data: {message}"

/-- A block: its header with the BLS and secp messages it includes. -/
structure Block where
  header : BlockHeader
  blsMessages : List UnsignedMessage
  secpMessages : List SignedMessage
  deriving DecidableEq, Repr

/-- The CID of a block is the CID of its header. -/
def Block.cid (block : Block) : Cid := block.header.cid

/-- `BLOCK_MESSAGE_LIMIT`: the most messages a block may include. -/
def blockMessageLimit : Nat := 10000

/-! ## verify_blocks -/

/-- The check `verify_blocks` makes with one predicate. -/
def verify (predicate : Bool) (message : String) : Except Error Unit :=
  if predicate then .ok () else .error (.invalidTipset message)

/-- The checks of one header against the first header. -/
def verifyHeader (firstHeader header : BlockHeader) : Except Error Unit := do
  verify (header.parents == firstHeader.parents) "parent cids are not equal"
  verify (header.stateRoot == firstHeader.stateRoot) "state_roots are not equal"
  verify (header.epoch == firstHeader.epoch) "epochs are not equal"
  verify (header.minerAddress != firstHeader.minerAddress) "miner_addresses are not distinct"

/-- `verify_blocks`: a header must exist, and every later header must agree with the first. -/
def verifyBlocks (headers : List BlockHeader) : Except Error Unit :=
  match headers with
  | [] => .error .noBlocks
  | firstHeader :: rest => rest.forM (verifyHeader firstHeader)

/-- What `verify_blocks` asks of a header and the first header. -/
structure Compatible (firstHeader header : BlockHeader) : Prop where
  parents : header.parents = firstHeader.parents
  stateRoot : header.stateRoot = firstHeader.stateRoot
  epoch : header.epoch = firstHeader.epoch
  minerAddress : header.minerAddress ≠ firstHeader.minerAddress

@[simp] theorem verify_eq_ok {predicate : Bool} {message : String} {value : Unit} :
    verify predicate message = .ok value ↔ predicate = true := by
  cases predicate <;> simp [verify]

theorem verifyHeader_eq_ok {firstHeader header : BlockHeader} :
    verifyHeader firstHeader header = .ok () ↔ Compatible firstHeader header := by
  simp only [verifyHeader, Except.bind_eq_ok, verify_eq_ok, beq_iff_eq, bne_iff_ne, ne_eq,
    exists_const]
  exact ⟨fun ⟨parents, stateRoot, epoch, miner⟩ => ⟨parents, stateRoot, epoch, miner⟩,
    fun ⟨parents, stateRoot, epoch, miner⟩ => ⟨parents, stateRoot, epoch, miner⟩⟩

/-- `verify_blocks` succeeds exactly on a non-empty list whose later headers are compatible
with the first. -/
theorem verifyBlocks_eq_ok {headers : List BlockHeader} :
    verifyBlocks headers = .ok () ↔
      ∃ firstHeader rest, headers = firstHeader :: rest ∧
        ∀ header ∈ rest, Compatible firstHeader header := by
  cases headers with
  | nil => simp [verifyBlocks]
  | cons firstHeader rest =>
    simp only [verifyBlocks, Except.forM_eq_ok, verifyHeader_eq_ok, List.cons.injEq]
    exact ⟨fun compatible => ⟨firstHeader, rest, ⟨rfl, rfl⟩, compatible⟩,
      fun ⟨_, _, ⟨same, sameRest⟩, compatible⟩ => same ▸ sameRest ▸ compatible⟩

theorem ne_nil_of_verifyBlocks {headers : List BlockHeader}
    (verified : verifyBlocks headers = .ok ()) : headers ≠ [] := by
  obtain ⟨firstHeader, rest, rfl, -⟩ := verifyBlocks_eq_ok.mp verified
  exact List.cons_ne_nil _ _

/-! ## Tipset::new and FullTipset::new -/

/-- A tipset: its headers in ticket order.  `Tipset::new` never builds one without headers,
which `min_ticket_block` relies on. -/
structure Tipset where
  headers : List BlockHeader
  nonempty : headers ≠ []

/-- A tipset with the messages of its blocks. -/
structure FullTipset where
  blocks : List Block
  nonempty : blocks ≠ []

section Construction

variable (blake2b256 : List UInt8 → List UInt8)

theorem sortByCachedKey_ne_nil {α κ : Type} [LinearOrder κ] {key : α → κ} {items : List α}
    (nonempty : items ≠ []) : items.sortByCachedKey key ≠ [] := by
  rw [← List.length_pos_iff, List.length_sortByCachedKey]
  exact List.length_pos_iff.mpr nonempty

/-- `Tipset::new`: verify the headers, then sort them by ticket, ties broken by CID. -/
def Tipset.new (headers : List BlockHeader) : Except Error Tipset :=
  match verified : verifyBlocks headers with
  | .error e => .error e
  | .ok () =>
    .ok ⟨headers.sortByCachedKey (BlockHeader.toSortKey blake2b256),
      sortByCachedKey_ne_nil (ne_nil_of_verifyBlocks verified)⟩

/-- `FullTipset::new`: verify the headers of the blocks, then sort the blocks by their
headers' sort keys. -/
def FullTipset.new (blocks : List Block) : Except Error FullTipset :=
  match verified : verifyBlocks (blocks.map Block.header) with
  | .error e => .error e
  | .ok () =>
    .ok ⟨blocks.sortByCachedKey (fun block => block.header.toSortKey blake2b256),
      sortByCachedKey_ne_nil fun empty =>
        ne_nil_of_verifyBlocks verified (by rw [empty, List.map_nil])⟩

end Construction

/-- `impl From<FullTipset> for Tipset`: the headers of the blocks, in their order. -/
def Tipset.ofFullTipset (fullTipset : FullTipset) : Tipset :=
  ⟨fullTipset.blocks.map Block.header, by simpa using fullTipset.nonempty⟩

/-- The block with the smallest ticket: the first header. -/
def Tipset.minTicketBlock (tipset : Tipset) : BlockHeader :=
  tipset.headers.head tipset.nonempty

/-- The tipset's key: the CIDs of its headers, in order. -/
def Tipset.key (tipset : Tipset) : TipsetKeys := ⟨tipset.headers.map BlockHeader.cid⟩

/-- The epoch of the tipset, read from the first header. -/
def Tipset.epoch (tipset : Tipset) : Int := tipset.minTicketBlock.epoch

/-- The key of the parents, read from the first header. -/
def Tipset.parents (tipset : Tipset) : TipsetKeys := tipset.minTicketBlock.parents

/-- The parent state root, read from the first header. -/
def Tipset.parentState (tipset : Tipset) : Cid := tipset.minTicketBlock.stateRoot

/-- The parent weight, read from the first header. -/
def Tipset.weight (tipset : Tipset) : Int := tipset.minTicketBlock.weight

/-- The tipset rules: a non-empty list of headers that agree on parents, state root and epoch,
from pairwise different miners. -/
structure TipsetRules (headers : List BlockHeader) : Prop where
  nonempty : headers ≠ []
  agree : headers.Pairwise fun header other =>
    header.parents = other.parents ∧ header.stateRoot = other.stateRoot ∧
      header.epoch = other.epoch
  distinctMiners : (headers.map BlockHeader.minerAddress).Nodup

/-- A ticketed header of epoch 1 on the empty parent key, mined by the ID address `miner`. -/
def exampleHeader (miner : Nat) (cidByte : UInt8) : BlockHeader where
  parents := ⟨[]⟩
  weight := 0
  epoch := 1
  stateRoot := ⟨[0]⟩
  messages := ⟨[0]⟩
  minerAddress := .id miner
  ticket := some ⟨[cidByte]⟩
  electionProof := some ⟨1⟩
  parentBaseFee := 100000000
  cid := ⟨[cidByte]⟩

section Properties

variable {blake2b256 : List UInt8 → List UInt8}

theorem Tipset.ext_headers {tipset other : Tipset} (same : tipset.headers = other.headers) :
    tipset = other := by
  cases tipset
  cases other
  cases same
  rfl

/-- What a successful `Tipset::new` says: the headers passed `verify_blocks` and the tipset
holds them sorted by key. -/
theorem Tipset.new_eq_ok {headers : List BlockHeader} {tipset : Tipset} :
    Tipset.new blake2b256 headers = .ok tipset ↔
      verifyBlocks headers = .ok () ∧
        tipset.headers = headers.sortByCachedKey (BlockHeader.toSortKey blake2b256) := by
  unfold Tipset.new
  split
  · rename_i failure failed
    simp [failed]
  · rename_i verified
    constructor
    · rintro ⟨⟩
      exact ⟨verified, rfl⟩
    · rintro ⟨-, sorted⟩
      exact congrArg Except.ok (Tipset.ext_headers sorted.symm)

theorem Tipset.new_eq_error_of_verifyBlocks {headers : List BlockHeader} {failure : Error}
    (failed : verifyBlocks headers = .error failure) :
    Tipset.new blake2b256 headers = .error failure := by
  unfold Tipset.new
  split
  · rename_i failure' failed'
    rw [failed] at failed'
    exact congrArg Except.error (Except.error.inj failed').symm
  · rename_i verified
    rw [failed] at verified
    cases verified

/-- `FullTipset::new` of blocks whose headers pass `verify_blocks` holds the blocks, sorted. -/
theorem FullTipset.new_of_verifyBlocks {blocks : List Block}
    (verified : verifyBlocks (blocks.map Block.header) = .ok ()) :
    ∃ fullTipset, FullTipset.new blake2b256 blocks = .ok fullTipset ∧
      fullTipset.blocks.Perm blocks := by
  unfold FullTipset.new
  split
  · rename_i failure failed
    rw [verified] at failed
    cases failed
  · exact ⟨_, rfl, List.sortByCachedKey_perm blocks⟩

/-- Headers that keep the tipset rules pass `verify_blocks` in every order. -/
theorem verifyBlocks_of_rules {headers : List BlockHeader} (rules : TipsetRules headers) :
    verifyBlocks headers = .ok () := by
  obtain ⟨firstHeader, rest, rfl⟩ := List.exists_cons_of_ne_nil rules.nonempty
  refine verifyBlocks_eq_ok.mpr ⟨firstHeader, rest, rfl, fun header inRest => ?_⟩
  obtain ⟨parents, stateRoot, epoch⟩ := List.rel_of_pairwise_cons rules.agree inRest
  have otherMiner : firstHeader.minerAddress ≠ header.minerAddress := by
    have distinct := rules.distinctMiners
    rw [List.map_cons, List.nodup_cons] at distinct
    exact fun same => distinct.1 (same ▸ List.mem_map_of_mem inRest)
  exact ⟨parents.symm, stateRoot.symm, epoch.symm, fun same => otherMiner same.symm⟩

theorem TipsetRules.perm {headers other : List BlockHeader} (rules : TipsetRules headers)
    (perm : other.Perm headers) : TipsetRules other where
  nonempty := fun empty => rules.nonempty (List.Perm.nil_eq (empty ▸ perm)).symm
  agree := by
    refine (perm.pairwise_iff fun {header other} same => ?_).mpr rules.agree
    exact ⟨same.1.symm, same.2.1.symm, same.2.2.symm⟩
  distinctMiners := (perm.map BlockHeader.minerAddress).nodup_iff.mpr rules.distinctMiners

/-- Headers that keep the tipset rules, carry tickets and have distinct CIDs build the same
tipset in every order. -/
theorem Tipset.new_perm_of_rules {headers other : List BlockHeader}
    (rules : TipsetRules headers)
    (ticketed : ∀ header ∈ headers, header.ticket.isSome)
    (distinctCids : (headers.map BlockHeader.cid).Nodup) (perm : other.Perm headers) :
    Tipset.new blake2b256 other = Tipset.new blake2b256 headers := by
  have sameSort : other.sortByCachedKey (BlockHeader.toSortKey blake2b256) =
      headers.sortByCachedKey (BlockHeader.toSortKey blake2b256) := by
    refine List.sortByCachedKey_eq_of_perm (fun header inHeaders other' inOther same => ?_) perm
    obtain ⟨ticket, ticketEq⟩ := Option.isSome_iff_exists.mp (ticketed header inHeaders)
    obtain ⟨ticket', ticketEq'⟩ := Option.isSome_iff_exists.mp (ticketed other' inOther)
    exact List.inj_on_of_nodup_map distinctCids inHeaders inOther
      (BlockHeader.cid_eq_of_toSortKey_eq blake2b256 ticketEq ticketEq' same)
  obtain ⟨tipset, built⟩ : ∃ tipset, Tipset.new blake2b256 headers = .ok tipset :=
    ⟨⟨headers.sortByCachedKey (BlockHeader.toSortKey blake2b256),
      sortByCachedKey_ne_nil rules.nonempty⟩,
      Tipset.new_eq_ok.mpr ⟨verifyBlocks_of_rules rules, rfl⟩⟩
  rw [built]
  refine Tipset.new_eq_ok.mpr ⟨verifyBlocks_of_rules (rules.perm perm), ?_⟩
  rw [(Tipset.new_eq_ok.mp built).2, sameSort]

theorem Tipset.new_perm_of_rules_two_miners :
    TipsetRules [exampleHeader 1000 1, exampleHeader 1001 2] ∧
      Tipset.new id [exampleHeader 1001 2, exampleHeader 1000 1] =
        Tipset.new id [exampleHeader 1000 1, exampleHeader 1001 2] :=
  have rules : TipsetRules [exampleHeader 1000 1, exampleHeader 1001 2] :=
    ⟨List.cons_ne_nil _ _, by decide, by decide⟩
  ⟨rules, Tipset.new_perm_of_rules rules (by decide) (by decide) (List.Perm.swap _ _ _)⟩

theorem Compatible.swap {first second : BlockHeader} (compatible : Compatible first second) :
    Compatible second first :=
  ⟨compatible.parents.symm, compatible.stateRoot.symm, compatible.epoch.symm,
    fun same => compatible.minerAddress same.symm⟩

/-- A header that agrees with the first one but has its miner fails the last check. -/
theorem verifyHeader_of_same_miner {firstHeader header : BlockHeader}
    (parents : header.parents = firstHeader.parents)
    (stateRoot : header.stateRoot = firstHeader.stateRoot)
    (epoch : header.epoch = firstHeader.epoch)
    (sameMiner : header.minerAddress = firstHeader.minerAddress) :
    verifyHeader firstHeader header = .error (.invalidTipset "miner_addresses are not distinct") := by
  simp [verifyHeader, verify, parents, stateRoot, epoch, sameMiner]

/-- `verify_blocks` compares with the first header only: a second header that is compatible
with the first passes twice, so `Tipset::new` builds a tipset with that miner twice and a key
that repeats a CID, while the same headers in another order are refused. -/
theorem Tipset.new_accepts_repeated_miner (first second : BlockHeader)
    (compatible : Compatible first second) :
    (∃ tipset, Tipset.new blake2b256 [first, second, second] = .ok tipset ∧
        tipset.headers.Perm [first, second, second] ∧ ¬ tipset.key.cids.Nodup) ∧
      Tipset.new blake2b256 [second, first, second] =
        .error (.invalidTipset "miner_addresses are not distinct") := by
  constructor
  · have accepted : verifyBlocks [first, second, second] = .ok () := by
      refine verifyBlocks_eq_ok.mpr ⟨first, [second, second], rfl, fun header inRest => ?_⟩
      rw [List.mem_pair, or_self] at inRest
      exact inRest ▸ compatible
    refine ⟨⟨_, sortByCachedKey_ne_nil (List.cons_ne_nil first [second, second])⟩,
      Tipset.new_eq_ok.mpr ⟨accepted, rfl⟩, List.sortByCachedKey_perm _, fun distinct => ?_⟩
    -- the key is a permutation of the three CIDs, two of which are the same
    have keyPerm : ((List.sortByCachedKey (BlockHeader.toSortKey blake2b256)
        [first, second, second]).map BlockHeader.cid).Perm ([first, second, second].map BlockHeader.cid) :=
      (List.sortByCachedKey_perm _).map _
    have threeCids := keyPerm.nodup_iff.mp distinct
    simp at threeCids
  · apply Tipset.new_eq_error_of_verifyBlocks
    have firstPasses : verifyHeader second first = .ok () :=
      verifyHeader_eq_ok.mpr compatible.swap
    have secondFails : verifyHeader second second =
        .error (.invalidTipset "miner_addresses are not distinct") :=
      verifyHeader_of_same_miner rfl rfl rfl rfl
    simp only [verifyBlocks, List.forM, firstPasses, secondFails]
    rfl

theorem Tipset.new_accepts_repeated_miner_f01001 :
    Compatible (exampleHeader 1000 1) (exampleHeader 1001 2) ∧
      ((∃ tipset, Tipset.new id
          [exampleHeader 1000 1, exampleHeader 1001 2, exampleHeader 1001 2] = .ok tipset ∧
          tipset.headers.Perm
            [exampleHeader 1000 1, exampleHeader 1001 2, exampleHeader 1001 2] ∧
          ¬ tipset.key.cids.Nodup) ∧
        Tipset.new id [exampleHeader 1001 2, exampleHeader 1000 1, exampleHeader 1001 2] =
          .error (.invalidTipset "miner_addresses are not distinct")) :=
  have compatible : Compatible (exampleHeader 1000 1) (exampleHeader 1001 2) :=
    ⟨rfl, rfl, rfl, by decide⟩
  ⟨compatible, @Tipset.new_accepts_repeated_miner id _ _ compatible⟩

end Properties

end Forest.Blocks
