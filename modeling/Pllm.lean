import Pllm.Garble.LogRowRuns
import Pllm.Garble.SharedAllocationRuns
import Pllm.Garble.TokenPruningRuns
import Pllm.Fss.SharedRescaleOneUse
import Pllm.Puma.FreshnessRuns
import Pllm.Pages.Vocabulary
import Pllm.Retained.SelectionRuns
import Pllm.Retained.CacheRuns
import Pllm.Replication.SecretReplicationCorrect
import Pllm.Entropy.PublicEntropyFrames
import Pllm.Kv.KvCache
import Pllm.Levels.ScheduleCorrect
import Pllm.Levels.TraceRuns
import Pllm.Canonical.BoundedCanonicalExact
import Pllm.Canonical.StreamSound
import Pllm.Canonical.BorrowedSound
import Pllm.Network.Placement
import Pllm.Paged.MatrixCorrect
import Pllm.Paged.DigitGemm
import Pllm.Keyed.BoundedIndexCorrect
import Pllm.Puma.Ranges
import Pllm.Decoder.GreedyVerificationCorrect
import Pllm.Decoder.TrieRuns
import Pllm.Fusefss.Material
import Pllm.Fusefss.WireRuns
import Pllm.Runtime.PreparedQueue
import Pllm.Runtime.RendezvousRuns
import Pllm.Maverick.Completeness
import Pllm.Maverick.LifecycleRuns
import Pllm.Bounds.Energy
import Pllm.Freivalds.Soundness
import Pllm.Freivalds.Verification
import Pllm.Interleaved.Reads
import Pllm.Coefficient.Evaluate
import Pllm.SlotMatrix.Transpose
import Pllm.Runtime.CorrelationLedger
import Pllm.Runtime.DecodeStoreRuns
import Pllm.Runtime.InflightPrefixRuns
import Pllm.Garble.RmsNormCorrect
import Pllm.Fss.Gpu127
import Pllm.Coefficient.Conversion
import Pllm.Coefficient.Compression
import Pllm.Coefficient.Extraction
import Pllm.Rms.Softmax
import Pllm.Runtime.Codec
import Pllm.Retained.SortCircuit
