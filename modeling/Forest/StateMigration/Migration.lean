import Forest.StateTree.StateTree
import Forest.Blocks.Header
import Forest.Lib.MapM
import Mathlib.Data.Finset.Card
import Mathlib.Data.List.Sigma

/-!
# The nv12 state migration

`StateMigration::migrate_state_tree` streams the actors of the input state tree to a dispatcher
thread, which looks up each actor's migrator by its code CID and spawns one job per actor on a
rayon scope; the calling thread writes the job outputs into the output state tree in the order
the jobs finish, then flushes it.  The only check of the migration table is its size, against
`ACTORS_COUNT`: an actor whose code has no migrator reaches an `unwrap` in the dispatcher, and a
failing job reaches a `panic!` in its worker.  A rayon scope re-raises a job's panic in its
caller once the other jobs are done, so both end the call in a panic, not in an `Err`.

The interleavings of the three threads show in one place only: the order in which outputs reach
the collecting loop.  The model takes that order as a parameter, `arrivalOrder`, which the
theorems let be any permutation of the outputs.  The output tree's bottom layer then holds the
same entries in another order; the flushed root is the same when the HAMT below is history
independent, which is the form in which the scheduling argument rests on the HAMT.
-/

namespace Forest.StateMigration

open Forest.Blocks Forest.VM

/-- `ACTORS_COUNT`: the number of builtin actor codes a migration has to cover. -/
def actorsCount : Nat := 11

/-- `ActorState`: an actor's code, state head, nonce and balance. -/
structure ActorState where
  code : Cid
  state : Cid
  sequence : Nat
  balance : Int
  deriving DecidableEq, Repr

/-- The v3 miner state, by the fields the migration copies. -/
structure MinerStateV3 where
  info : Cid
  preCommitDeposits : Int
  lockedFunds : Int
  vestingFunds : Cid
  feeDebt : Int
  initialPledge : Int
  preCommittedSectors : Cid
  preCommittedSectorsExpiry : Cid
  allocatedSectors : Cid
  sectors : Cid
  provingPeriodStart : Int
  currentDeadline : Nat
  deadlines : Cid
  earlyTerminations : List Nat
  deriving DecidableEq, Repr

/-- The v4 miner state: the v3 fields and whether the deadline cron is active. -/
structure MinerStateV4 where
  info : Cid
  preCommitDeposits : Int
  lockedFunds : Int
  vestingFunds : Cid
  feeDebt : Int
  initialPledge : Int
  preCommittedSectors : Cid
  preCommittedSectorsExpiry : Cid
  allocatedSectors : Cid
  sectors : Cid
  provingPeriodStart : Int
  currentDeadline : Nat
  deadlines : Cid
  earlyTerminations : List Nat
  deadlineCronActive : Bool
  deriving DecidableEq, Repr

/-- The `out_state` of the miner migrator: every v3 field copied, and the deadline cron marked
active. -/
def MinerStateV3.upgrade (inState : MinerStateV3) : MinerStateV4 where
  info := inState.info
  preCommitDeposits := inState.preCommitDeposits
  lockedFunds := inState.lockedFunds
  vestingFunds := inState.vestingFunds
  feeDebt := inState.feeDebt
  initialPledge := inState.initialPledge
  preCommittedSectors := inState.preCommittedSectors
  preCommittedSectorsExpiry := inState.preCommittedSectorsExpiry
  allocatedSectors := inState.allocatedSectors
  sectors := inState.sectors
  provingPeriodStart := inState.provingPeriodStart
  currentDeadline := inState.currentDeadline
  deadlines := inState.deadlines
  earlyTerminations := inState.earlyTerminations
  deadlineCronActive := true

/-- The blockstore calls of the miner migrator: `get` of a v3 miner state, and `put` of a v4
one, which gives the CID it is stored under. -/
structure MigrationStore where
  getMinerV3 : Cid → Except String (Option MinerStateV3)
  putMinerV4 : MinerStateV4 → Except String Cid

/-- `MigrationError`, by the variants the migration returns; `E` is the error of the output
tree's map. -/
inductive MigrationError (E : Type) where
  | migrationJobRun (code : Cid) (address : Address) (cause : MigrationError E)
  | flushFailed (cause : Error E)
  | blockStoreRead (text : String)
  | blockStoreWrite (text : String)
  | incompleteMigrationSpec (count : Nat)

/-- The two migrators of nv12, each with the code CID it gives the migrated actor. -/
inductive Migrator where
  | nilMigrator (newCode : Cid)
  | minerMigrator (newCode : Cid)
  deriving DecidableEq, Repr

/-- The code CID a migrator gives. -/
def Migrator.newCode : Migrator → Cid
  | .nilMigrator newCode => newCode
  | .minerMigrator newCode => newCode

/-- `ActorMigrationInput`. -/
structure ActorMigrationInput where
  address : Address
  balance : Int
  head : Cid
  priorEpoch : Int

/-- `MigrationOutput`. -/
structure MigrationOutput where
  newCodeCid : Cid
  newHead : Cid

variable {E : Type}

/-- `ActorMigration::migrate_state`: the nil migrator keeps the head; the miner migrator reads
the v3 state, stores its upgrade and points the head at it. -/
def Migrator.migrateState (migrator : Migrator) (store : MigrationStore)
    (input : ActorMigrationInput) : Except (MigrationError E) MigrationOutput :=
  match migrator with
  | .nilMigrator newCode => .ok ⟨newCode, input.head⟩
  | .minerMigrator newCode => do
    let inState ← match store.getMinerV3 input.head with
      | .error text => .error (.blockStoreRead text)
      | .ok none => .error (.blockStoreRead "Miner actor: could not read v3 state")
      | .ok (some inState) => .ok inState
    let newHead ← (store.putMinerV4 inState.upgrade).mapError .blockStoreWrite
    pure ⟨newCode, newHead⟩

/-- `MigrationJob`: one actor and its migrator. -/
structure MigrationJob where
  address : Address
  actorState : ActorState
  actorMigration : Migrator

/-- `MigrationJobOutput`: the actor's address and migrated state. -/
structure MigrationJobOutput where
  address : Address
  actorState : ActorState
  deriving DecidableEq, Repr

/-- `MigrationJob::run`: migrate the head, then keep the balance and the nonce. -/
def MigrationJob.run (job : MigrationJob) (store : MigrationStore) (priorEpoch : Int) :
    Except (MigrationError E) MigrationJobOutput := do
  let result ← (job.actorMigration.migrateState store
      ⟨job.address, job.actorState.balance, job.actorState.state, priorEpoch⟩).mapError
    (.migrationJobRun job.actorState.code job.address)
  pure {
    address := job.address
    actorState := {
      code := result.newCodeCid
      state := result.newHead
      sequence := job.actorState.sequence
      balance := job.actorState.balance } }

/-- `StateMigration`: the migrators by the code CID they apply to, and the deferred codes. -/
structure StateMigration where
  migrations : AList fun _ : Cid => Migrator
  deferredCodeIds : Finset Cid

namespace StateMigration

/-- `StateMigration::new`. -/
def new : StateMigration := ⟨∅, ∅⟩

/-- `StateMigration::add_migrator`: a later migrator for a code replaces the earlier. -/
def addMigrator (migration : StateMigration) (priorCid : Cid) (migrator : Migrator) :
    StateMigration :=
  { migration with migrations := migration.migrations.insert priorCid migrator }

/-- The dispatcher's step for one actor: its job, if its code has a migrator (the source
unwraps the lookup). -/
def dispatch (migration : StateMigration) (actor : Address × ActorState) : Option MigrationJob :=
  (migration.migrations.lookup actor.2.code).map fun migrator => ⟨actor.1, actor.2, migrator⟩

end StateMigration

/-- How a call of `migrate_state_tree` ends: with a root, with an error, or in a panic. -/
inductive Outcome (E R : Type) where
  | ok (root : R)
  | err (error : MigrationError E)
  | panicked

variable {M R : Type} (ops : MapOps Address ActorState M E R)

/-- `StateMigration::migrate_state_tree`, for the actors that `for_each` visits in
`actorsIn`'s order and job outputs that reach the collecting loop in `arrivalOrder`. -/
def migrateStateTree (migration : StateMigration) (store : MigrationStore) (priorEpoch : Int)
    (actorsIn : List (Address × ActorState)) (actorsOut : StateTree Address ActorState M)
    (arrivalOrder : List MigrationJobOutput → List MigrationJobOutput) : Outcome E R :=
  if migration.migrations.entries.length + migration.deferredCodeIds.card ≠ actorsCount then
    .err (.incompleteMigrationSpec migration.migrations.entries.length)
  else
    -- the dispatcher unwraps the migrator of every actor it receives
    match actorsIn.mapM migration.dispatch with
    | none => .panicked
    | some jobs =>
      -- a failing job panics in its worker
      match jobs.mapM fun job => job.run (E := E) store priorEpoch with
      | .error _ => .panicked
      | .ok outputs =>
        let written := (arrivalOrder outputs).forM fun output =>
          StateTree.setActor (E := E) output.address output.actorState
        match written actorsOut with
        | .error _ _ => .panicked
        | .ok () tree =>
          match StateTree.flush ops tree with
          | .ok root _ => .ok root
          | .error error _ => .err (.flushFailed error)

/-- `make_builtin`: the code CID of a builtin actor, a raw CIDv1 over the identity multihash of
its name. -/
def makeBuiltin (name : String) : Cid :=
  ⟨[0x01, 0x55, 0x00, name.length.toUInt8] ++ name.toList.map fun char => char.toNat.toUInt8⟩

/-- The actors that nv12 migrates with the nil migrator, by their code names. -/
def nilMigratedActors : List String :=
  ["account", "cron", "init", "multisig", "paymentchannel", "reward", "storagemarket",
    "storagepower", "system", "verifiedregistry"]

/-- `StateMigration::set_nil_migrations`: each v3 code of `nilMigratedActors` keeps its head and
takes the v4 code. -/
def StateMigration.setNilMigrations (migration : StateMigration) : StateMigration :=
  nilMigratedActors.foldl (fun migration name =>
      migration.addMigrator (makeBuiltin ("fil/3/" ++ name))
        (.nilMigrator (makeBuiltin ("fil/4/" ++ name))))
    migration

/-- The migration table of `run_nv12_migration`: the nil migrations and the miner migrator. -/
def nv12Migration : StateMigration :=
  StateMigration.new.setNilMigrations.addMigrator (makeBuiltin "fil/3/storageminer")
    (.minerMigrator (makeBuiltin "fil/4/storageminer"))

/-- `run_nv12_migration`: migrate the actors of the previous state into a new, empty tree. -/
def runNv12Migration (store : MigrationStore) (prevState : List (Address × ActorState))
    (epoch : Int) (emptyHamt : M)
    (arrivalOrder : List MigrationJobOutput → List MigrationJobOutput) : Outcome E R :=
  migrateStateTree ops nv12Migration store epoch prevState (StateTree.new emptyHamt) arrivalOrder

/-! ## What a job makes of an actor -/

/-- The head a migrator gives an actor whose head was `head`: the same head, or the CID under
which the upgrade of the v3 miner state at `head` was stored. -/
def MigratedHead (store : MigrationStore) : Migrator → Cid → Cid → Prop
  | .nilMigrator _, head, newHead => newHead = head
  | .minerMigrator _, head, newHead =>
    ∃ inState, store.getMinerV3 head = .ok (some inState) ∧
      store.putMinerV4 inState.upgrade = .ok newHead

/-- A migration that succeeds gives the migrator's code and the head it promises. -/
theorem Migrator.migrateState_spec {migrator : Migrator} {store : MigrationStore}
    {input : ActorMigrationInput} {output : MigrationOutput}
    (migrated : migrator.migrateState (E := E) store input = .ok output) :
    output.newCodeCid = migrator.newCode ∧ MigratedHead store migrator input.head output.newHead := by
  cases migrator with
  | nilMigrator newCode =>
    cases migrated
    exact ⟨rfl, rfl⟩
  | minerMigrator newCode =>
    simp only [Migrator.migrateState] at migrated
    -- only a stored v3 state is read successfully
    split at migrated
    · cases migrated
    · cases migrated
    · next inState found =>
      obtain ⟨same, read, rest⟩ := Except.bind_eq_ok.mp migrated
      cases read
      obtain ⟨newHead, stored, returned⟩ := Except.bind_eq_ok.mp rest
      cases returned
      exact ⟨rfl, inState, found, Except.mapError_eq_ok.mp stored⟩

/-- A job that succeeds keeps the address, the nonce and the balance, and takes the migrator's
code and head. -/
theorem MigrationJob.run_spec {job : MigrationJob} {store : MigrationStore} {priorEpoch : Int}
    {output : MigrationJobOutput} (ran : job.run (E := E) store priorEpoch = .ok output) :
    output.address = job.address ∧ output.actorState.code = job.actorMigration.newCode ∧
      output.actorState.sequence = job.actorState.sequence ∧
      output.actorState.balance = job.actorState.balance ∧
      MigratedHead store job.actorMigration job.actorState.state output.actorState.state := by
  simp only [MigrationJob.run] at ran
  obtain ⟨result, migrated, returned⟩ := Except.bind_eq_ok.mp ran
  cases returned
  obtain ⟨code, head⟩ := Migrator.migrateState_spec (Except.mapError_eq_ok.mp migrated)
  exact ⟨rfl, code, rfl, rfl, head⟩

/-- What the migration makes of one actor: an output at its address, with its nonce and
balance, the code of the migrator registered for its code, and the head that migrator gives. -/
def Migrates (migration : StateMigration) (store : MigrationStore) (actor : Address × ActorState)
    (output : MigrationJobOutput) : Prop :=
  ∃ migrator, migration.migrations.lookup actor.2.code = some migrator ∧
    output.address = actor.1 ∧ output.actorState.code = migrator.newCode ∧
    output.actorState.sequence = actor.2.sequence ∧ output.actorState.balance = actor.2.balance ∧
    MigratedHead store migrator actor.2.state output.actorState.state

/-- Jobs dispatched and run to the end migrate the actors one by one, in order. -/
theorem migrates_of_jobs {migration : StateMigration} {store : MigrationStore} {priorEpoch : Int} :
    ∀ {actorsIn : List (Address × ActorState)} {jobs : List MigrationJob}
      {outputs : List MigrationJobOutput},
      List.Forall₂ (fun actor job => migration.dispatch actor = some job) actorsIn jobs →
      List.Forall₂ (fun job output => job.run (E := E) store priorEpoch = .ok output) jobs outputs →
      List.Forall₂ (Migrates migration store) actorsIn outputs
  | [], [], [], .nil, .nil => .nil
  | actor :: actorsRest, job :: jobsRest, output :: outputsRest, .cons dispatched dispatchedRest,
      .cons ran ranRest => by
    refine .cons ?_ (migrates_of_jobs dispatchedRest ranRest)
    simp only [StateMigration.dispatch, Option.map_eq_some_iff] at dispatched
    obtain ⟨migrator, found, made⟩ := dispatched
    subst made
    obtain ⟨address, code, sequence, balance, head⟩ := MigrationJob.run_spec ran
    exact ⟨migrator, found, address, code, sequence, balance, head⟩

/-- The outputs sit at the actors' addresses, in order. -/
theorem addresses_of_migrates {migration : StateMigration} {store : MigrationStore} :
    ∀ {actorsIn : List (Address × ActorState)} {outputs : List MigrationJobOutput},
      List.Forall₂ (Migrates migration store) actorsIn outputs →
      outputs.map (·.address) = actorsIn.map Prod.fst
  | [], [], .nil => rfl
  | _ :: _, _ :: _, .cons ⟨_, _, address, _⟩ rest => by
    rw [List.map_cons, List.map_cons, address, addresses_of_migrates rest]

/-! ## The order in which the outputs are written -/

/-- The entry of the output tree's bottom layer that an output writes. -/
def MigrationJobOutput.entry (output : MigrationJobOutput) : Sigma fun _ : Address => Option ActorState :=
  ⟨output.address, some output.actorState⟩

/-- The bottom layer after the outputs are written into it in order. -/
def writtenLayer (layer : AList fun _ : Address => Option ActorState)
    (outputs : List MigrationJobOutput) : AList fun _ : Address => Option ActorState :=
  outputs.foldl (fun layer output => layer.insert output.address (some output.actorState)) layer

/-- The collecting loop writes every output into the single layer of a fresh tree. -/
theorem forM_setActor (hamt : M) (layer : AList fun _ : Address => Option ActorState)
    (outputs : List MigrationJobOutput) :
    (outputs.forM fun output => StateTree.setActor (E := E) output.address output.actorState)
        ⟨hamt, ⟨[⟨layer⟩]⟩⟩ =
      .ok () ⟨hamt, ⟨[⟨writtenLayer layer outputs⟩]⟩⟩ := by
  -- induction on the outputs, from any layer
  induction outputs generalizing layer with
  | nil => rfl
  | cons output rest inductionHypothesis =>
    -- `set_actor` on a tree with one layer inserts into it
    have written : StateTree.setActor (E := E) output.address output.actorState
        ⟨hamt, ⟨[⟨layer⟩]⟩⟩ =
          .ok () ⟨hamt, ⟨[⟨layer.insert output.address (some output.actorState)⟩]⟩⟩ := rfl
    simp only [List.forM]
    rw [EStateM.bind_apply_of_ok written]
    exact inductionHypothesis _

/-- Writing outputs at distinct fresh addresses puts their entries in front, last first. -/
theorem entries_writtenLayer (layer : AList fun _ : Address => Option ActorState) :
    ∀ {outputs : List MigrationJobOutput}, (outputs.map (·.address)).Nodup →
      (∀ output ∈ outputs, output.address ∉ layer) →
      (writtenLayer layer outputs).entries = (outputs.map (·.entry)).reverse ++ layer.entries
  | [], _, _ => rfl
  | output :: rest, distinct, fresh => by
    rw [List.map_cons, List.nodup_cons] at distinct
    have freshRest : ∀ other ∈ rest,
        other.address ∉ layer.insert output.address (some output.actorState) := by
      intro other listed
      rw [AList.mem_insert, not_or]
      refine ⟨fun same => distinct.1 ?_, fresh other (List.mem_cons_of_mem _ listed)⟩
      exact same ▸ List.mem_map_of_mem listed
    have written := entries_writtenLayer (layer.insert output.address (some output.actorState))
      distinct.2 freshRest
    rw [AList.entries_insert_of_notMem (fresh output List.mem_cons_self)] at written
    simp only [writtenLayer, List.foldl_cons] at written ⊢
    rw [written, List.map_cons, List.reverse_cons, List.append_assoc]
    rfl

/-- A map whose flushed root depends on the entries written into it, not on their order: the
form in which the collecting loop relies on the HAMT's canonical form. -/
def HistoryIndependent {S M E R : Type} (ops : MapOps Address S M E R) (hamt : M) : Prop :=
  ∀ entries entries' : List (Sigma fun _ : Address => Option S), entries.NodupKeys →
    entries.Perm entries' →
    (do StateTree.applyLayer ops entries; ops.flush) hamt =
      (do StateTree.applyLayer ops entries'; ops.flush) hamt

/-- The collecting loop on a fresh tree writes the outputs into its one layer. -/
theorem forM_setActor_new (hamt : M) (outputs : List MigrationJobOutput) :
    (outputs.forM fun output => StateTree.setActor (E := E) output.address output.actorState)
        (StateTree.new hamt) =
      .ok () ⟨hamt, ⟨[⟨writtenLayer ∅ outputs⟩]⟩⟩ :=
  forM_setActor hamt ∅ outputs

/-- Outputs at distinct addresses, written in any order, leave a layer that holds their
entries. -/
theorem writtenLayer_perm {outputs arrived : List MigrationJobOutput}
    (distinct : (outputs.map (·.address)).Nodup) (arrives : arrived.Perm outputs) :
    (writtenLayer ∅ arrived).entries.Perm (outputs.map (·.entry)) := by
  have arrivedDistinct : (arrived.map (·.address)).Nodup :=
    ((arrives.map (·.address)).nodup_iff).mpr distinct
  rw [entries_writtenLayer ∅ arrivedDistinct fun _ _ => AList.notMem_empty _, AList.empty_entries,
    List.append_nil]
  exact (List.reverse_perm _).trans (arrives.map _)

/-- Whatever order the outputs arrive in, the call ends the same way: the flushed root of a
history-independent map does not see the order of the writes. -/
theorem migrateStateTree_schedule_independent {migration : StateMigration}
    {store : MigrationStore} {priorEpoch : Int} {actorsIn : List (Address × ActorState)}
    {hamt : M} (distinct : (actorsIn.map Prod.fst).Nodup)
    (independent : HistoryIndependent ops hamt)
    {arrivalOrder arrivalOrder' : List MigrationJobOutput → List MigrationJobOutput}
    (arrives : ∀ outputs, (arrivalOrder outputs).Perm outputs)
    (arrives' : ∀ outputs, (arrivalOrder' outputs).Perm outputs) :
    migrateStateTree ops migration store priorEpoch actorsIn (StateTree.new hamt) arrivalOrder =
      migrateStateTree ops migration store priorEpoch actorsIn (StateTree.new hamt) arrivalOrder' := by
  unfold migrateStateTree
  split
  · rfl
  cases dispatched : actorsIn.mapM migration.dispatch with
  | none => rfl
  | some jobs =>
    dsimp only
    cases ran : jobs.mapM (fun job => job.run (E := E) store priorEpoch) with
    | error failure => rfl
    | ok outputs =>
      -- the outputs sit at the actors' addresses, which are distinct
      have migrates := migrates_of_jobs (List.forall₂_of_mapM_option dispatched)
        (List.forall₂_of_mapM_except ran)
      have outputsDistinct : (outputs.map (·.address)).Nodup := by
        rw [addresses_of_migrates migrates]
        exact distinct
      dsimp only
      rw [forM_setActor_new, forM_setActor_new]
      dsimp only [StateTree.flush]
      rw [independent _ _ (writtenLayer ∅ _).nodupKeys
          (writtenLayer_perm outputsDistinct (arrives outputs)),
        independent _ _ (writtenLayer ∅ _).nodupKeys
          (writtenLayer_perm outputsDistinct (arrives' outputs))]
      -- both sides now flush the same entries; only the cached layer differs
      cases (do StateTree.applyLayer ops (outputs.map MigrationJobOutput.entry); ops.flush) hamt <;>
        rfl

/-- A call that returns a root migrated every actor, and the root is what the map flushes after
the migrated actors are written into it, in the order of the input. -/
theorem migrateStateTree_eq_ok {migration : StateMigration} {store : MigrationStore}
    {priorEpoch : Int} {actorsIn : List (Address × ActorState)} {hamt : M}
    (distinct : (actorsIn.map Prod.fst).Nodup) (independent : HistoryIndependent ops hamt)
    {arrivalOrder : List MigrationJobOutput → List MigrationJobOutput}
    (arrives : ∀ outputs, (arrivalOrder outputs).Perm outputs) {root : R}
    (migrated : migrateStateTree ops migration store priorEpoch actorsIn (StateTree.new hamt)
      arrivalOrder = .ok root) :
    ∃ outputs, List.Forall₂ (Migrates migration store) actorsIn outputs ∧
      ∃ hamt', (do StateTree.applyLayer ops (outputs.map MigrationJobOutput.entry); ops.flush) hamt =
        .ok root hamt' := by
  unfold migrateStateTree at migrated
  split at migrated
  · cases migrated
  cases dispatched : actorsIn.mapM migration.dispatch with
  | none =>
    rw [dispatched] at migrated
    cases migrated
  | some jobs =>
    rw [dispatched] at migrated
    dsimp only at migrated
    cases ran : jobs.mapM (fun job => job.run (E := E) store priorEpoch) with
    | error failure =>
      rw [ran] at migrated
      cases migrated
    | ok outputs =>
      rw [ran] at migrated
      have migrates := migrates_of_jobs (List.forall₂_of_mapM_option dispatched)
        (List.forall₂_of_mapM_except ran)
      have outputsDistinct : (outputs.map (·.address)).Nodup := by
        rw [addresses_of_migrates migrates]
        exact distinct
      dsimp only at migrated
      rw [forM_setActor_new] at migrated
      dsimp only [StateTree.flush] at migrated
      rw [independent _ _ (writtenLayer ∅ _).nodupKeys
          (writtenLayer_perm outputsDistinct (arrives outputs))] at migrated
      refine ⟨outputs, migrates, ?_⟩
      cases flushed :
          (do StateTree.applyLayer ops (outputs.map MigrationJobOutput.entry); ops.flush) hamt with
      | ok flushedRoot hamt' =>
        rw [flushed] at migrated
        cases migrated
        exact ⟨hamt', rfl⟩
      | error failure hamt' =>
        rw [flushed] at migrated
        cases migrated

/-! ## A history-independent map -/

/-- A map given as a function and written entry by entry; its root is its contents. -/
def functionMapOps :
    MapOps Address ActorState (Address → Option ActorState) Unit (Address → Option ActorState) where
  get map addr := .ok (map addr)
  set addr state := modify fun map => Function.update map addr (some state)
  delete addr := modify fun map => Function.update map addr none
  flush := get

/-- Writing one entry into the function map updates it there. -/
theorem applyLayer_cons_functionMapOps (map : Address → Option ActorState) (addr : Address)
    (value : Option ActorState) (rest : List (Sigma fun _ : Address => Option ActorState)) :
    StateTree.applyLayer functionMapOps (⟨addr, value⟩ :: rest) map =
      StateTree.applyLayer functionMapOps rest (Function.update map addr value) := by
  cases value <;> rfl

/-- Writing entries with distinct addresses into the function map gives each address its
entry's value. -/
theorem applyLayer_functionMapOps (map : Address → Option ActorState) :
    ∀ {entries : List (Sigma fun _ : Address => Option ActorState)}, entries.NodupKeys →
      StateTree.applyLayer functionMapOps entries map =
        .ok () fun addr => (entries.dlookup addr).getD (map addr)
  | [], _ => rfl
  | ⟨written, value⟩ :: rest, distinct => by
    obtain ⟨fresh, restDistinct⟩ := List.nodupKeys_cons.mp distinct
    rw [applyLayer_cons_functionMapOps, applyLayer_functionMapOps _ restDistinct]
    congr 1
    funext addr
    by_cases same : addr = written
    · subst same
      rw [List.dlookup_cons_eq, List.dlookup_eq_none.mpr fresh, Option.getD_none,
        Function.update_self, Option.getD_some]
    · rw [List.dlookup_cons_ne _ _ same, Function.update_of_ne same]

/-- The function map is history independent. -/
theorem historyIndependent_functionMapOps (hamt : Address → Option ActorState) :
    HistoryIndependent functionMapOps hamt := by
  intro entries entries' distinct permuted
  have distinct' := (List.perm_nodupKeys permuted).mp distinct
  rw [EStateM.bind_apply_of_ok (applyLayer_functionMapOps hamt distinct),
    EStateM.bind_apply_of_ok (applyLayer_functionMapOps hamt distinct')]
  have same : (fun addr => (entries.dlookup addr).getD (hamt addr)) =
      fun addr => (entries'.dlookup addr).getD (hamt addr) := by
    funext addr
    rw [List.perm_dlookup addr distinct permuted]
  rw [same]

/-- A blockstore that holds no miner state and stores nothing. -/
def emptyMigrationStore : MigrationStore where
  getMinerV3 _ := .ok none
  putMinerV4 _ := .error "read-only store"

/-- Two v3 account actors. -/
def accountActors : List (Address × ActorState) :=
  [(Address.id 100, ⟨makeBuiltin "fil/3/account", ⟨[0x01, 0x71]⟩, 3, 5⟩),
    (Address.id 101, ⟨makeBuiltin "fil/3/account", ⟨[0x01, 0x72]⟩, 0, 7⟩)]

/-- Migrating two account actors ends the same way whether their outputs arrive in order or
reversed. -/
example :
    (accountActors.map Prod.fst).Nodup ∧ HistoryIndependent functionMapOps (fun _ => none) ∧
      migrateStateTree functionMapOps nv12Migration emptyMigrationStore 0 accountActors
          (StateTree.new fun _ => none) id =
        migrateStateTree functionMapOps nv12Migration emptyMigrationStore 0 accountActors
          (StateTree.new fun _ => none) List.reverse := by
  have distinct : (accountActors.map Prod.fst).Nodup := by decide
  have independent := historyIndependent_functionMapOps fun _ => none
  exact ⟨distinct, independent, migrateStateTree_schedule_independent functionMapOps distinct
    independent (fun _ => List.Perm.refl _) List.reverse_perm⟩

/-! ## An actor without a migrator -/

/-- A v2 account actor: nv12 has no migrator for its code. -/
def legacyAccount : ActorState where
  code := makeBuiltin "fil/2/account"
  state := ⟨[0x01, 0x71]⟩
  sequence := 0
  balance := 0

/-- An actor whose code has no migrator stops the dispatcher, whatever the other actors. -/
theorem mapM_dispatch_eq_none {migration : StateMigration}
    {actorsIn : List (Address × ActorState)} {actor : Address × ActorState}
    (listed : actor ∈ actorsIn) (unregistered : migration.migrations.lookup actor.2.code = none) :
    actorsIn.mapM migration.dispatch = none :=
  List.mapM_option_eq_none listed (by simp [StateMigration.dispatch, unregistered])

/-- A migration table of the right size that lacks the code of some actor panics: the size check
passes, and the dispatcher unwraps a missing migrator.  No order of the job outputs avoids it. -/
theorem migrateStateTree_panics_on_unknown_code {migration : StateMigration}
    {store : MigrationStore} {priorEpoch : Int} {actorsIn : List (Address × ActorState)}
    {actorsOut : StateTree Address ActorState M}
    (arrivalOrder : List MigrationJobOutput → List MigrationJobOutput)
    {address : Address} {actor : ActorState} (listed : (address, actor) ∈ actorsIn)
    (unregistered : migration.migrations.lookup actor.code = none)
    (complete : migration.migrations.entries.length + migration.deferredCodeIds.card = actorsCount) :
    migrateStateTree ops migration store priorEpoch actorsIn actorsOut arrivalOrder = .panicked := by
  have stopped := mapM_dispatch_eq_none listed unregistered
  simp only [migrateStateTree, complete, ne_eq, not_true_eq_false, if_false, stopped]

/-- `run_nv12_migration` over a tree holding a v2 account actor panics. -/
theorem migrateStateTree_panics_on_unknown_code_v2_account :
    (Address.id 100, legacyAccount) ∈ [(Address.id 100, legacyAccount)] ∧
      nv12Migration.migrations.lookup legacyAccount.code = none ∧
      nv12Migration.migrations.entries.length + nv12Migration.deferredCodeIds.card = actorsCount ∧
      runNv12Migration functionMapOps emptyMigrationStore [(Address.id 100, legacyAccount)] 0
        (fun _ => none) id = .panicked := by
  have listed : (Address.id 100, legacyAccount) ∈ [(Address.id 100, legacyAccount)] :=
    List.mem_singleton_self _
  have unregistered : nv12Migration.migrations.lookup legacyAccount.code = none := by decide
  have complete :
      nv12Migration.migrations.entries.length + nv12Migration.deferredCodeIds.card = actorsCount := by
    decide
  exact ⟨listed, unregistered, complete,
    migrateStateTree_panics_on_unknown_code functionMapOps id listed unregistered complete⟩

end Forest.StateMigration
