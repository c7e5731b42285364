import QLSA.Aggregator.Batcher
import QLSA.Aggregator.CycleAccounts
import QLSA.Aggregator.Mempool
import QLSA.Aggregator.Node
import QLSA.Aggregator.NodeIndices
import QLSA.Aggregator.PoolRuns
import QLSA.Aggregator.ProverRetries
import QLSA.Aggregator.RateLimiter
import QLSA.Chain.HashChainVerifier
import QLSA.Chain.MerkleRootVerifier
import QLSA.Chain.Poseidon2
import QLSA.Chain.Poseidon2Air
import QLSA.Chain.Poseidon2MerkleAir
import QLSA.Chain.RoundBlocks
import QLSA.Contracts.BatchRegistryV5
import QLSA.Contracts.BatchRegistryV7
import QLSA.Contracts.BatchSubmissions
import QLSA.Contracts.BindingPreimages
import QLSA.Contracts.Blake2s
import QLSA.Contracts.ChannelReplay
import QLSA.Contracts.CirclePoint
import QLSA.Contracts.EntryPoints
import QLSA.Contracts.ExactSums
import QLSA.Contracts.ExtensionAgreement
import QLSA.Contracts.FieldLibraries
import QLSA.Contracts.FoldSoundness
import QLSA.Contracts.GeneratedProofs
import QLSA.Contracts.HonestQueries
import QLSA.Contracts.LazyReduction
import QLSA.Contracts.MembershipAgreement
import QLSA.Contracts.Poseidon2ChannelT16
import QLSA.Contracts.Poseidon2ChannelT8
import QLSA.Contracts.Poseidon2M31T16
import QLSA.Contracts.Poseidon2MerkleT8
import QLSA.Contracts.RegistryAccumulator
import QLSA.Contracts.RegistryRuns
import QLSA.Contracts.VFRI11
import QLSA.Contracts.VFRI11Verifier
import QLSA.Core.Batch
import QLSA.Core.MerkleProofs
import QLSA.Core.Serialization
import QLSA.Field.Circle
import QLSA.Field.CircleOrder
import QLSA.Field.Mersenne31
import QLSA.Field.SecureField
import QLSA.Hash.Blake2s
import QLSA.Hash.Invertible
import QLSA.Hash.Permutation
import QLSA.Hash.Poseidon2
import QLSA.Hash.Rounds
import QLSA.Hash.Sixteen
import QLSA.Hash.Sponge
import QLSA.Machine.AbiDecoding
import QLSA.Machine.Fallible
import QLSA.Machine.InPlace
import QLSA.Machine.KeyedLog
import QLSA.Machine.Layout
import QLSA.Machine.Numerals
import QLSA.Machine.PackedBytes
import QLSA.Machine.Panics
import QLSA.Machine.Run
import QLSA.Machine.SlidingWindow
import QLSA.Machine.Traces
import QLSA.Machine.Window
import QLSA.Merkle.Duplication
import QLSA.Merkle.InPlaceLevels
import QLSA.Merkle.LevelPaths
import QLSA.Merkle.Path
import QLSA.Merkle.SlotUpdates
import QLSA.Mldsa.BitPacking
import QLSA.Mldsa.Encoding
import QLSA.Mldsa.Field
import QLSA.Mldsa.HintEncoding
import QLSA.Mldsa.HintWeight
import QLSA.Mldsa.Ntt
import QLSA.Mldsa.NttBatchAir
import QLSA.Mldsa.NttBatchTrace
import QLSA.Mldsa.NttBatchTransform
import QLSA.Mldsa.NttEvaluation
import QLSA.Mldsa.PolyMul
import QLSA.Mldsa.ProductAir
import QLSA.Mldsa.RingValues
import QLSA.Mldsa.Sampling
import QLSA.Mldsa.SelectorAir
import QLSA.Mldsa.Standard
import QLSA.Mldsa.TranscriptBinding
import QLSA.Mldsa.UseHint
import QLSA.Mldsa.UseHintBatch
import QLSA.Mldsa.Validity
import QLSA.Mldsa.Verification
import QLSA.Mldsa.WitnessTranscript
import QLSA.Recursive.AcceptedChains
import QLSA.Recursive.AggregationProofs
import QLSA.Recursive.BatchMemberships
import QLSA.Recursive.ChannelAir
import QLSA.Recursive.ChannelT8Air
import QLSA.Recursive.ChannelT8Trace
import QLSA.Recursive.CheckedColumns
import QLSA.Recursive.CheckedTrace
import QLSA.Recursive.Columns
import QLSA.Recursive.CommittedTraces
import QLSA.Recursive.CompositionT16
import QLSA.Recursive.CompositionT8
import QLSA.Recursive.FoldInputs
import QLSA.Recursive.FoldTrace
import QLSA.Recursive.HonestLane
import QLSA.Recursive.MerklePathT16Air
import QLSA.Recursive.MerklePathT16Trace
import QLSA.Recursive.MerklePathT8Air
import QLSA.Recursive.MerklePathT8Trace
import QLSA.Recursive.MldsaAggregation
import QLSA.Recursive.NodeProofs
import QLSA.Recursive.NonceStatement
import QLSA.Recursive.NonceUpdateRuns
import QLSA.Recursive.NonceUpdateT8Air
import QLSA.Recursive.NonceUpdateTrace
import QLSA.Recursive.PathLane
import QLSA.Recursive.ProofSystem
import QLSA.Recursive.Qm31Mul
import QLSA.Recursive.RebuiltColumns
import QLSA.Recursive.RecursiveVerifierAir
import QLSA.Recursive.RoundTrace
import QLSA.Recursive.TranscriptDrawAir
import QLSA.Recursive.TreeNode
import QLSA.Recursive.TreeNodeAcceptance
import QLSA.Recursive.TreeNodeProver
import QLSA.Recursive.TreeNodeShape
import QLSA.Recursive.TreeStatements
import QLSA.Recursive.VerifierReturns
import QLSA.Stwo.BatchMembership
import QLSA.Stwo.BatchTree
import QLSA.Stwo.CheckedHash
import QLSA.Stwo.FieldHash
import QLSA.Stwo.HashWords
import QLSA.Stwo.LazyWords
import QLSA.Stwo.LeafEncoding
import QLSA.Stwo.NonceChain
import QLSA.Stwo.NonceTree
import QLSA.Stwo.NonceUpdates
import QLSA.Stwo.PartialUpdates
import QLSA.Stwo.Poseidon2
import QLSA.Stwo.Poseidon2T16
import QLSA.Stwo.SparseTree
import QLSA.Stwo.SpongeSeparation
import QLSA.Vfri2.AggregationTree
import QLSA.Vfri2.Arithmetic
import QLSA.Vfri2.Barycentric
import QLSA.Vfri2.ChainFacts
import QLSA.Vfri2.Channel
import QLSA.Vfri2.ChannelT16
import QLSA.Vfri2.CheckedArithmetic
import QLSA.Vfri2.Domain
import QLSA.Vfri2.ExtractedQueries
import QLSA.Vfri2.FriChain
import QLSA.Vfri2.Geometry
import QLSA.Vfri2.HintGenerator
import QLSA.Vfri2.NodePaths
import QLSA.Vfri2.QueryHintsAbi
import QLSA.Vfri2.RecursionInputs
import QLSA.Vfri2.Transcript
