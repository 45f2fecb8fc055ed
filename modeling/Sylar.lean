import Sylar.Proofs.ByteArrayFlat
import Sylar.Proofs.ByteArrayRoundTrip
import Sylar.Proofs.BitmapFlags
import Sylar.Proofs.LruCache
import Sylar.Proofs.TimedLruCache
import Sylar.Proofs.TimedCache
import Sylar.Proofs.HashMap
import Sylar.Proofs.DumpRuns
import Sylar.Proofs.MultimapSets
import Sylar.Proofs.TimerDeadlines
import Sylar.Proofs.TimerEntries
import Sylar.Proofs.SchedulerPins
import Sylar.Proofs.SchedulerStop
import Sylar.Proofs.WorkerPermits
import Sylar.Proofs.EventTriggers
import Sylar.Proofs.HookTimeouts
import Sylar.Proofs.FdTables
import Sylar.Proofs.RockProtocol
import Sylar.Proofs.RequestOwners
import Sylar.Proofs.RequestResumes
import Sylar.Proofs.SendQueue
import Sylar.Proofs.StartPermits
import Sylar.Proofs.HolderStats
import Sylar.Proofs.LoadBalance
import Sylar.Proofs.Registry
import Sylar.Proofs.SharedNodes
import Sylar.Proofs.NsDomainCalls
import Sylar.Proofs.WSSession
import Sylar.Proofs.BitmapComplement
import Sylar.Proofs.BitmapPositions
import Sylar.Proofs.BitmapResize
import Sylar.Proofs.BitmapAny
import Sylar.Proofs.BitmapCounts
import Sylar.Proofs.HttpSession
import Sylar.Proofs.HttpConnection
import Sylar.Proofs.HttpConnectionLimits
import Sylar.Proofs.ConfigVar
import Sylar.Proofs.BitmapReverse
import Sylar.Proofs.BitmapCross
import Sylar.Proofs.BitmapEqual
import Sylar.Proofs.BitmapBytes
import Sylar.Proofs.ByteArrayBuffers
import Sylar.Proofs.ByteArrayFile
import Sylar.Proofs.ArrayRuns
import Sylar.Proofs.HashMapForeach
import Sylar.Proofs.MultimapCounts
import Sylar.Proofs.DumpRefusals
import Sylar.Proofs.TimedCacheRecords
import Sylar.Proofs.ByteArrayStrings
import Sylar.Proofs.AsyncSocketStreamManager
import Sylar.Proofs.WeightLoadBalance
import Sylar.Proofs.HolderStatsSet
import Sylar.Proofs.ServiceIds
import Sylar.Proofs.ZlibErrors
import Sylar.Proofs.WSReceives
import Sylar.Proofs.WSFragments
import Sylar.Proofs.WSMasking
import Sylar.Proofs.UrlCodes
import Sylar.Proofs.StringTrim
import Sylar.Proofs.HexStrings
import Sylar.Proofs.JsonUtil
import Sylar.Proofs.Base64
import Sylar.Proofs.StringSplit
import Sylar.Proofs.StringReplace
import Sylar.Proofs.HttpParams
import Sylar.Proofs.QueryComponents
import Sylar.Proofs.HttpDump
import Sylar.Proofs.AddressMasks
import Sylar.Proofs.AddressText
import Sylar.Proofs.LogFormatter
import Sylar.Proofs.LogDefine
import Sylar.Proofs.BitmapScratch
import Sylar.Proofs.Sleep
import Sylar.Proofs.FoxThreadEnds
import Sylar.Proofs.NsClient
import Sylar.Proofs.Logger
import Sylar.Proofs.HttpServer
import Sylar.Proofs.HashCache
import Sylar.Proofs.FoxRedis
import Sylar.Proofs.ZkServiceDiscovery
