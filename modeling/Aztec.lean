import Aztec.Failing
import Aztec.Merkle
import Aztec.FrontierMerkle
import Aztec.NoirArrays
import Aztec.KernelTypes
import Aztec.SortedCounters
import Aztec.AccumulatedData
import Aztec.PublicKernel
import Aztec.PublicKernelPhases
import Aztec.Transactions
import Aztec.Inbox
import Aztec.AvmStorage
import Aztec.AvmNullifiers
import Aztec.TreeBase
import Aztec.AppendOnlySnapshot
import Aztec.StandardTree
import Aztec.LinkedLeaves
import Aztec.MerkleCircuit
import Aztec.IndexedTreeCircuit
import Aztec.BaseRollupTrees
import Aztec.PropertyMap
import Aztec.StandardIndexedTree
import Aztec.IndexedTreeList
import Aztec.IndexedTreeBatch
import Aztec.IndexedTreeRuns
import Aztec.BigEndian
import Aztec.AvmInstructions
import Aztec.AvmCodec
import Aztec.AvmTraceDeserialization
import Aztec.PublicKernelSideEffects
import Aztec.LucasCertificate
import Aztec.ScalarField
import Aztec.AvmAluTrace
import Aztec.StatefulComputations
import Aztec.AvmMemory
import Aztec.AvmInterpreter
import Aztec.AvmStaticCalls
import Aztec.AvmFaults
import Aztec.AvmOperands
import Aztec.SortedLog
import Aztec.AvmMemTrace
import Aztec.AvmTraceBuilder
import Aztec.AvmMemTable
import Aztec.AvmTraceAgreement
import Aztec.AvmTraceReuse
import Aztec.Recombination
import Aztec.LeafArrays
import Aztec.SubtreeInsertion
import Aztec.CppAppendOnlyTree
import Aztec.LevelPipeline
import Aztec.CppIndexedTree
import Aztec.BlockBody
import Aztec.TxsHash
import Aztec.StumpTree
import Aztec.AvmTranspiler
import Aztec.FullSnapshot
import Aztec.SnapshotRuns
import Aztec.IndexedTreeSnapshot
import Aztec.Paging
import Aztec.LogPagination
import Aztec.StackTraversal
import Aztec.PrivateKernel
import Aztec.PrivateCallTree
import Aztec.KernelStaticCalls
import Aztec.CallContexts
import Aztec.InsertionMap
import Aztec.PendingMessages
import Aztec.WorldStateSync
import Aztec.BufferReader
import Aztec.BodyCodec
import Aztec.EnqueuedCalls
import Aztec.SequentialLog
import Aztec.PublicStorage
import Aztec.NoteSync
import Aztec.PublicProcessor
import Aztec.BlockAssembly
import Aztec.PublicWrites
import Aztec.KernelLogs
import Aztec.StableSort
import Aztec.ProverHints
import Aztec.NoteNonces
import Aztec.NoteDiscovery
import Aztec.DeferredNotes
import Aztec.DeferredRuns
import Aztec.SlowMap
import Aztec.HistoryProofs
import Aztec.NoteDatabase
import Aztec.WorldStateRuns
import Aztec.UltraGates
import Aztec.NonNativeField
import Aztec.MemoryChecking
import Aztec.UltraMemory
import Aztec.RamArray
import Aztec.RamHonest
import Aztec.RomArray
import Aztec.RomHonest
import Aztec.MemoryArrays
import Aztec.RangeConstraints
import Aztec.NoteReads
import Aztec.LowDivision
import Aztec.PolynomialRoots
import Aztec.PolynomialInterpolation
import Aztec.InnerProductArgument
import Aztec.Multilinear
import Aztec.PolynomialArrays
import Aztec.GeminiShplonk
import Aztec.ZeroMorph
import Aztec.FourierTransform
import Aztec.FftVariants
import Aztec.FftCosets
import Aztec.Univariates
import Aztec.Sumcheck
import Aztec.TransactionalStore
import Aztec.Words
import Aztec.WideIntegers
import Aztec.Uint256
import Aztec.Uintx
import Aztec.WideArithmetic
import Aztec.WideSlices
import Aztec.SparseForm
import Aztec.FieldRoots
import Aztec.Wnaf
import Aztec.ExecutionNotes
import Aztec.MlePolynomials
import Aztec.OutputNotes
import Aztec.TxPools
import Aztec.LmdbMap
import Aztec.ContractPublisher
import Aztec.NoteOracle
import Aztec.L2BlockCodec
