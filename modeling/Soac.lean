import Soac.Theorems.Liveness
import Soac.Theorems.MustBound
import Soac.Theorems.MayBound
import Soac.Theorems.ExprFacts
import Soac.Theorems.ValueFacts
import Soac.Theorems.PreciseImmortal
import Soac.Theorems.Linearize
import Soac.Theorems.InlineRefines
import Soac.Theorems.InlineRollback
import Soac.Theorems.NameResolution
import Soac.Theorems.OperandUnwind
import Soac.Theorems.PendingUnwind
import Soac.Theorems.CounterDump
import Soac.Theorems.CacheRemap
import Soac.Theorems.HandledException
import Soac.Theorems.DeoptDispatch
import Soac.Strict.Mro
import Soac.Theorems.ClassCatalog
import Soac.Theorems.SignedManifest
import Soac.Theorems.ManagedGenerator
import Soac.Generator.ResumeParams
import Soac.Theorems.ArgumentBinding
import Soac.Theorems.ExceptStar
import Soac.Theorems.PendingQueues
import Soac.Source.Literals
