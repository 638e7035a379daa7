import Lineth.Lib.Except
import Lineth.Lib.Merkle
import Lineth.Lib.LinkedList
import Lineth.Lib.Memory
import Lineth.Lib.Call
import Lineth.Lib.RollingHash
import Lineth.Smt.Tree
import Lineth.Smt.Spec
import Lineth.Accumulator.Leaf
import Lineth.Accumulator.Prover
import Lineth.Accumulator.Verifier
import Lineth.Accumulator.Abstract
import Lineth.Accumulator.Honest
import Lineth.Accumulator.Complete
import Lineth.Accumulator.Run
import Lineth.Accumulator.Sound
import Lineth.Accumulator.Membership
import Lineth.Messaging.Hashing
import Lineth.Rollup.MessageService
import Lineth.Rollup.PublicInput
import Lineth.Rollup.DataSubmission
import Lineth.Rollup.Finalize
import Lineth.Rollup.ForcedTransactions
import Lineth.Rollup.Contract
import Lineth.Messaging.L2
import Lineth.Messaging.Anchoring
import Lineth.Messaging.Consistency
import Lineth.Rollup.Claims
import Lineth.Rollup.Chaining
import Lineth.Rollup.Censorship
import Lineth.Conflation.Domain
import Lineth.Conflation.GlobalBlock
import Lineth.Conflation.Calculators
import Lineth.Conflation.Partition
import Lineth.Conflation.BlobAware
import Lineth.Conflation.BlobAssembly
import Lineth.Conflation.BlobRun
import Lineth.Conflation.Blobs
import Lineth.Aggregation.Calculator
import Lineth.Aggregation.Blobs
import Lineth.Aggregation.Partition
import Lineth.Compressor.Encode
import Lineth.Compressor.Block
import Lineth.Compressor.BlobMaker
import Lineth.Compressor.RoundTrip
import Lineth.Accumulator.Invariant
import Lineth.Smt.Build
import Lineth.L2Execution.Guest
import Lineth.L2Execution.ForcedTransactions
import Lineth.L2Execution.Output
import Lineth.Koalabear.Field
import Lineth.Lib.Horner
import Lineth.Wiop.Expression
import Lineth.Wiop.NonNative
import Lineth.Lib.LinearFactor
import Lineth.Lib.RunningProduct
import Lineth.Wiop.Runtime
import Lineth.Wiop.Vanishing
import Lineth.Wiop.GrandProduct
import Lineth.Wiop.Table
import Lineth.Wiop.Permutation
import Lineth.StateManager.ProofChecks
import Lineth.StateManager.StorageTie
import Lineth.Lib.Tiling
import Lineth.Lib.LittleEndian
import Lineth.Riscv.Ram
import Lineth.EthLogs.BinarySearch
import Lineth.EthLogs.Poller
import Lineth.Lib.Parallel
import Lineth.Koalabear.PrefixScan
import Lineth.Lib.CyclicSum
import Lineth.Wiop.LogDerivative
import Lineth.Wiop.LogDerivativeExact
import Lineth.Maru.Block
import Lineth.Maru.Validation
import Lineth.Maru.Identity
import Lineth.Maru.Import
import Lineth.Maru.Sync
import Lineth.Lib.Straightline
import Lineth.Vecprog.Builder
import Lineth.Vecprog.BuilderExact
import Lineth.Vecprog.Compile
import Lineth.Lib.BatchInverse
import Lineth.Vecprog.Vector
import Lineth.Vecprog.Block
import Lineth.Vecprog.Run
import Lineth.Vecprog.RunBlock
import Lineth.Vecprog.Exact
import Lineth.Security.PauseManager
import Lineth.Security.PauseWindows
import Lineth.Security.RateLimit
import Lineth.Accumulator.Deferred
import Lineth.StateManager.Rejected
import Lineth.Rollup.ShnarfChain
import Lineth.StateManager.Patterns
import Lineth.StateManager.Recognition
import Lineth.Accumulator.Panics
import Lineth.StateManager.Panics
import Lineth.Lib.Reads
import Lineth.Types.Account
import Lineth.Types.AccountRoundTrip
import Lineth.Conflation.Rejected
import Lineth.Aggregation.Limits
import Lineth.Bridging.Reserved
import Lineth.Yield.Replenish
import Lineth.Compressor.Refused
import Lineth.Rollup.CalldataEvaluation
import Lineth.Ssz.Container
import Lineth.Ssz.Schema
import Lineth.Maru.Download
