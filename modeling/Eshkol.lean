import Eshkol.Eskb.FileRoundTrip
import Eshkol.Vm.PeepholeSound
import Eshkol.Vm.Continuations
import Eshkol.Vm.NumbersTheorems
import Eshkol.Region.Transparent
import Eshkol.Region.CurrentArena
import Eshkol.Logic.KnowledgeBaseTheorems
import Eshkol.Logic.VmSimulation
import Eshkol.Exact.Exactness
import Eshkol.Dbsp.Streams
import Eshkol.Logic.PersistenceTheorems
import Eshkol.Msgpack.RoundTrip
import Eshkol.Distributed.OrSetTheorems
import Eshkol.Distributed.LwwMapTheorems
import Eshkol.Distributed.CounterTheorems
import Eshkol.Distributed.RgaInsertion
import Eshkol.Memory.LogTheorems
import Eshkol.Threads.ChannelTheorems
import Eshkol.Vm.BignumBitwiseTheorems
import Eshkol.Vm.BignumTextTheorems
import Eshkol.Memory.AppendedStores
import Eshkol.Exact.RationalRounding
import Eshkol.Exact.RationalTheorems
import Eshkol.Vm.RationalRounding
import Eshkol.Exact.NumberReaderTheorems
import Eshkol.Logic.Variables
import Eshkol.Vm.HashTableTheorems
import Eshkol.Macro.MatchingInverse
import Eshkol.Macro.MissedPositions
import Eshkol.Vm.SyntaxRulesInverse
import Eshkol.Types.BorrowTheorems
import Eshkol.Vm.StringCallTheorems
import Eshkol.Vm.LineDiff
import Eshkol.Vm.RelativePaths
import Eshkol.Types.DependentTheorems
import Eshkol.Types.PromotionTheorems
import Eshkol.Blc.SelfInterpreter
import Eshkol.Types.AliasTheorems
import Eshkol.Data.CsvTheorems
import Eshkol.Data.Base64Theorems
import Eshkol.Data.UrlTheorems
import Eshkol.Data.MerkleTheorems
import Eshkol.Data.CacheTheorems
import Eshkol.Data.PriorityQueueTheorems
import Eshkol.Data.ListSort
import Eshkol.Data.JsonSchemaTheorems
import Eshkol.Ad.Interval
import Eshkol.Region.ArenaCore
import Eshkol.Ad.TapeGradient
import Eshkol.Ad.SparseHessian
import Eshkol.Ad.Checkpoint
