import Gem5Runahead.Lib.Transition
import Gem5Runahead.Lib.WriteLog
import Gem5Runahead.RunaheadCachePoison
import Gem5Runahead.InstListDrain
import Gem5Runahead.StoreQueueEscape
import Gem5Runahead.MiscRestore
import Gem5Runahead.RequestCompletion
import Gem5Runahead.RunaheadStoreData
import Gem5Runahead.RenameOwnership
import Gem5Runahead.NoLoadLeftBehind
import Gem5Runahead.CommittedWork
import Gem5Runahead.DrainPoint
import Gem5Runahead.IssuePoison
import Gem5Runahead.ROBSquash
import Gem5Runahead.PeriodCounters
import Gem5Runahead.LoadPoison
import Gem5Runahead.ExitSignal
import Gem5Runahead.LoadForwarding
import Gem5Runahead.StoreQueuePending
import Gem5Runahead.ChainExact
import Gem5Runahead.EarlySquash
import Gem5Runahead.MiscRegWrites
import Gem5Runahead.AddrCoverage
import Gem5Runahead.SplitRequest
import Gem5Runahead.RunaheadCacheIndex
import Gem5Runahead.UnsentLoad
import Gem5Runahead.SquashCalls
import Gem5Runahead.OverlappingStore
import Gem5Runahead.FilteredFetch
import Gem5Runahead.RunaheadMarks
import Gem5Runahead.FUPool
import Gem5Runahead.Lib.QueueHeads
import Gem5Runahead.Lib.While
import Gem5Runahead.ReadyLists
import Gem5Runahead.IssueStage
import Gem5Runahead.Lib.DelayLine
import Gem5Runahead.IssueStageInv
import Gem5Runahead.IssueOrder
import Gem5Runahead.IssueCycle
import Gem5Runahead.WakeUp
import Gem5Runahead.WakeUpInv
import Gem5Runahead.StoreSet
import Gem5Runahead.Lib.Dependents
import Gem5Runahead.MemDepUnit
import Gem5Runahead.MemDepUnitInv
