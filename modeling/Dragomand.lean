import Dragomand.AcceptedOrder
import Dragomand.CacheCoherence
import Dragomand.CancelWakeups
import Dragomand.CatalogueCache
import Dragomand.ClientsApart
import Dragomand.ConfigRange
import Dragomand.ConfigSerial
import Dragomand.DaemonCancel
import Dragomand.DaemonPivot
import Dragomand.Detect
import Dragomand.Disconnects
import Dragomand.FetchedRoute
import Dragomand.Filters
import Dragomand.InstallDurable
import Dragomand.InstallRepair
import Dragomand.KeepWarm
import Dragomand.Loadable
import Dragomand.MemoryPressure
import Dragomand.ModelConfig
import Dragomand.PairArgs
import Dragomand.PairIdentity
import Dragomand.PivotReported
import Dragomand.Plugins
import Dragomand.PreparedLoaded
import Dragomand.RefusedRemoval
import Dragomand.RegistryOrder
import Dragomand.RequestPaths
import Dragomand.RequestSlots
import Dragomand.ResolveBest
import Dragomand.SchedulerOrder
import Dragomand.SchedulerWakeups
import Dragomand.WorkerRoute
import Dragomand.SentenceSpans
import Dragomand.StoreLock
import Dragomand.Timestamp
import Dragomand.VersionOrder
import Dragomand.TranslateAnswers
import Dragomand.ClientRequests
import Dragomand.EngineUnloads
import Dragomand.EngineSentences
import Dragomand.EngineService
