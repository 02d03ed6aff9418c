import Beagle.Proofs.Forks
import Beagle.Proofs.Cuts
import Beagle.Proofs.Damage
import Beagle.Proofs.Durability
import Beagle.Proofs.SafePlans
import Beagle.Proofs.TermCodec
import Beagle.Proofs.StoredFacts
import Beagle.Proofs.Preorder
import Beagle.Proofs.Unifying
import Beagle.Proofs.Scheduling
import Beagle.Proofs.RegionKeys
import Beagle.Proofs.JsonEncoding
import Beagle.Proofs.ClosureDigests
import Beagle.Proofs.WarmResults
import Beagle.Proofs.SsaSoundness
import Beagle.Proofs.StageTexts
import Beagle.Proofs.ReaderProducts
import Beagle.Proofs.Collecting
import Beagle.Proofs.TokenPaths
import Beagle.Proofs.EpochStacks
import Beagle.Proofs.ClosedLayouts
import Beagle.Proofs.Fences
import Beagle.Proofs.CachedResults
import Beagle.Proofs.IndexedLiterals
import Beagle.Proofs.TiledSteps
import Beagle.Proofs.EffectAccounts
import Beagle.Proofs.Groups
import Beagle.Proofs.IntComparisons
import Beagle.Proofs.ReplayAgreement
import Beagle.Proofs.AcyclicMetas
import Beagle.Proofs.EvidenceRanks
import Beagle.Proofs.RangeSearches
import Beagle.Proofs.PredicateIdentities
import Beagle.Proofs.SyntaxErasure
import Beagle.Macros.BindingConds
import Beagle.Emit.SourceMaps
import Beagle.Emit.JsNames
import Beagle.Proofs.Slices
import Beagle.Native.Switches
import Beagle.Native.PathSuggestions
import Beagle.Proofs.CanonicalFences
import Beagle.Proofs.DominatorExactness
import Beagle.Native.Rebuild
