import Forest.Lib.Usize
import Forest.Lib.ByteOrder
import Forest.Lib.Result
import Forest.Lib.FloatOps
import Forest.Lib.SortBy
import Forest.Lib.BitPacking
import Forest.Lib.Leb128
import Forest.Hamt.HashBits
import Forest.Hamt.Bitfield
import Forest.Hamt.Node
import Forest.Hamt.Hamt
import Forest.Hamt.HashAlgorithm
import Forest.Amt.Node
import Forest.Amt.Amt
import Forest.StateTree.Snapshots
import Forest.StateTree.StateTree
import Forest.StateTree.Caching
import Forest.MessagePool.MsgChain
import Forest.MessagePool.Selection
import Forest.MessagePool.NoChains
import Forest.Bitfield.Iter
import Forest.Bitfield.BitField
import Forest.Bitfield.Format
import Forest.Bitfield.Writer
import Forest.Bitfield.Reader
import Forest.Bitfield.RlePlus
import Forest.Lib.SortedMap
import Forest.Miner.ExpirationQueue
import Forest.Miner.QueueInvariant
import Forest.Miner.ActiveSectors
import Forest.Miner.Reschedule
import Forest.Blocks.Header
import Forest.Message.Message
import Forest.Blocks.Tipset
import Forest.Chain.ChainStore
import Forest.Actor.BalanceTable
import Forest.Lib.I64
import Forest.VM.GasOutputs
import Forest.Market.State
import Forest.Market.Escrow
import Forest.Lib.MapM
import Forest.StateMigration.Migration
import Forest.ChainSync.HeaderSync
import Forest.ChainSync.BlockMessages
import Forest.ChainSync.MessageSync
import Forest.Hamt.Split
import Forest.Bitfield.Semantics
import Forest.Bitfield.Cut
import Forest.Bitfield.Sets
import Forest.Miner.BitfieldQueue
import Forest.Miner.Deadline
import Forest.Lib.Drain
import Forest.Miner.Partition
import Forest.Miner.EarlyTerminations
import Forest.Miner.DeadlineInfo
import Forest.MessagePool.Trim
import Forest.Bitfield.Json
import Forest.Power.State
import Forest.Miner.Vesting
import Forest.Lib.Base32
import Forest.Lib.Str
import Forest.Addressing.Address
import Forest.Addressing.RoundTrip
import Forest.Reward.State
import Forest.Reward.Baseline
import Forest.Lib.Heap
import Forest.Miner.DeadlineAssignment
import Forest.Market.Cron
import Forest.Lib.FirstOccurrence
import Forest.Chain.BaseFee
import Forest.MessagePool.MsgSet
import Forest.ChainExchange.Compaction
import Forest.Chain.Index
import Forest.Lib.Reentrant
import Forest.Multisig.Actor
import Forest.Multisig.Invariant
import Forest.MessagePool.ChainCreation
import Forest.Amt.ArraySemantics
import Forest.Amt.Walk
import Forest.StateTree.Transactions
