import Chimbuko.AD.ADAnomalyProvenance
import Chimbuko.AD.ADCounter
import Chimbuko.AD.ADEvent
import Chimbuko.AD.ADEventAttribution
import Chimbuko.AD.ADEventAttributionRuns
import Chimbuko.AD.ADEventBalance
import Chimbuko.AD.ADEventBalanceRuns
import Chimbuko.AD.ADEventCallStack
import Chimbuko.AD.ADEventCallTree
import Chimbuko.AD.ADEventClosedCalls
import Chimbuko.AD.ADEventExecData
import Chimbuko.AD.ADEventForest
import Chimbuko.AD.ADEventProtect
import Chimbuko.AD.ADEventPurge
import Chimbuko.AD.ADEventPurgeReport
import Chimbuko.AD.ADEventRuns
import Chimbuko.AD.ADEventSweep
import Chimbuko.AD.ADEventTrim
import Chimbuko.AD.ADExecDataInterface
import Chimbuko.AD.ADExecDataInterfaceRuns
import Chimbuko.AD.ADLocalFuncStatistics
import Chimbuko.AD.ADNormalEventProvenance
import Chimbuko.AD.ADOutlierRuns
import Chimbuko.AD.ADOutlierThreshold
import Chimbuko.AD.ADParser
import Chimbuko.AD.ADParserAttributes
import Chimbuko.AD.ADParserAttributesRuns
import Chimbuko.AD.ADParserCorrelation
import Chimbuko.AD.ADParserFetch
import Chimbuko.AD.ADParserInterweave
import Chimbuko.AD.ADParserMalformed
import Chimbuko.AD.ADParserOrder
import Chimbuko.AD.ADParserStream
import Chimbuko.AD.ADglobalFunctionIndexMap
import Chimbuko.AD.AnalysisDriver
import Chimbuko.AD.AnalysisDriverCounts
import Chimbuko.AD.AnalysisDriverEnd
import Chimbuko.AD.AnalysisDriverLoop
import Chimbuko.AD.AnalysisDriverModels
import Chimbuko.AD.AnalysisDriverProfile
import Chimbuko.AD.AnalysisDriverRuns
import Chimbuko.AD.Driver
import Chimbuko.AD.DriverProfile
import Chimbuko.AD.DriverWindow
import Chimbuko.AD.Event
import Chimbuko.AD.ExecData
import Chimbuko.Core.ADDataInterface
import Chimbuko.Core.ADOutlier
import Chimbuko.Core.ADOutlierAssess
import Chimbuko.Core.ADOutlierCOPOD
import Chimbuko.Core.ADOutlierHBOS
import Chimbuko.Core.ADOutlierHBOSLabels
import Chimbuko.Core.ADOutlierHolds
import Chimbuko.Core.ADOutlierReturns
import Chimbuko.Core.ADOutlierSSTD
import Chimbuko.Core.ADThreadNetClient
import Chimbuko.Core.ADThreadNetClientRuns
import Chimbuko.Core.ChimbukoBase
import Chimbuko.Core.ProvDBsetup
import Chimbuko.Core.ZmqNet
import Chimbuko.Core.ZmqNetRuns
import Chimbuko.Library.AccountedMap
import Chimbuko.Library.Attribution
import Chimbuko.Library.Batching
import Chimbuko.Library.CallForest
import Chimbuko.Library.CentralMoments
import Chimbuko.Library.Filing
import Chimbuko.Library.Grouping
import Chimbuko.Library.IntervalChain
import Chimbuko.Library.IntervalExtract
import Chimbuko.Library.KeyedMap
import Chimbuko.Library.LinkedCells
import Chimbuko.Library.NestedMap
import Chimbuko.Library.ParentLine
import Chimbuko.Library.PinStore
import Chimbuko.Library.Presence
import Chimbuko.Library.Ratchet
import Chimbuko.Library.RecordStore
import Chimbuko.Library.RequestReply
import Chimbuko.Library.RequestStore
import Chimbuko.Library.Retaking
import Chimbuko.Library.RoundLedger
import Chimbuko.Library.RowArray
import Chimbuko.Library.SlotPool
import Chimbuko.Library.TextScan
import Chimbuko.Library.TransitionSystem
import Chimbuko.Library.UniformMass
import Chimbuko.Library.WorkQueue
import Chimbuko.Param.CopodParam
import Chimbuko.Param.HbosParam
import Chimbuko.Param.HbosParamRuns
import Chimbuko.Param.ParamInterface
import Chimbuko.Param.SstdParam
import Chimbuko.Provdb.ProvDBadmin
import Chimbuko.Provdb.ProvDBclient
import Chimbuko.Provdb.ProvDBclientRuns
import Chimbuko.Provdb.ProvDBcommit
import Chimbuko.Provdb.ProvDBprune
import Chimbuko.Provdb.ProvDBpruneGlobalStats
import Chimbuko.Provdb.ProvDBpruneLabels
import Chimbuko.Provdb.ProvDBpruneOnline
import Chimbuko.Provdb.ProvDBpruneReturns
import Chimbuko.Provdb.ProvDBpruneRuns
import Chimbuko.Provdb.ProvDBpruneShards
import Chimbuko.Provdb.ProvDBshutdown
import Chimbuko.Pserver.ForceUpdate
import Chimbuko.Pserver.ForceUpdateRuns
import Chimbuko.Pserver.FunctionNames
import Chimbuko.Pserver.GlobalAnomalyMetrics
import Chimbuko.Pserver.GlobalAnomalyMetricsRuns
import Chimbuko.Pserver.GlobalAnomalyStats
import Chimbuko.Pserver.GlobalAnomalyStatsRuns
import Chimbuko.Pserver.GlobalCounterStats
import Chimbuko.Pserver.NetPayloadRecvCombinedADdata
import Chimbuko.Pserver.PSglobalFunctionIndexMap
import Chimbuko.Pserver.PSmoduleDataManager
import Chimbuko.Pserver.PSparamManager
import Chimbuko.Pserver.PSstatSender
import Chimbuko.Pserver.PSstatSenderStop
import Chimbuko.Util.ChunkAllocator
import Chimbuko.Util.DispatchQueue
import Chimbuko.Util.DispatchQueueRuns
import Chimbuko.Util.Histogram
import Chimbuko.Util.HistogramBins
import Chimbuko.Util.HistogramCDF
import Chimbuko.Util.HistogramCollect
import Chimbuko.Util.HistogramConserve
import Chimbuko.Util.HistogramExtract
import Chimbuko.Util.HistogramFixedNbin
import Chimbuko.Util.HistogramLinked
import Chimbuko.Util.HistogramLinkedAgree
import Chimbuko.Util.HistogramMeasure
import Chimbuko.Util.HistogramMerge
import Chimbuko.Util.HistogramMergeExact
import Chimbuko.Util.HistogramOperations
import Chimbuko.Util.HistogramProduced
import Chimbuko.Util.HistogramRanges
import Chimbuko.Util.HistogramSound
import Chimbuko.Util.HistogramTransfer
import Chimbuko.Util.HistogramVBW
import Chimbuko.Util.HistogramValid
import Chimbuko.Util.HistogramValues
import Chimbuko.Util.RunStats
import Chimbuko.Util.RunStatsCollect
import Chimbuko.Util.RunStatsMerge
