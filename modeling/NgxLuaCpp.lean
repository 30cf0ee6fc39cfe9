import NgxLuaCpp.EventBus
import NgxLuaCpp.CacheRetention
import NgxLuaCpp.Jobs
import NgxLuaCpp.Jwt
import NgxLuaCpp.UdpRecv
import NgxLuaCpp.UdpListenRuns
import NgxLuaCpp.Fetch
import NgxLuaCpp.DnsParse
import NgxLuaCpp.DnsKeys
import NgxLuaCpp.Notify
import NgxLuaCpp.LuaReturns
import NgxLuaCpp.PostedQueue
import NgxLuaCpp.AwaitableRuns
import NgxLuaCpp.Stream
import NgxLuaCpp.JobSnapshots
import NgxLuaCpp.PrimeSegments
import NgxLuaCpp.LogClasses
import NgxLuaCpp.LogLines
import NgxLuaCpp.Bmp
import NgxLuaCpp.AsyncWorkerRuns
import NgxLuaCpp.WarpTasks
import NgxLuaCpp.IrisQueueShortRuns
import NgxLuaCpp.IrisPipe
import NgxLuaCpp.IrisQuota
import NgxLuaCpp.IrisEvent
import NgxLuaCpp.ListenersMutex
import NgxLuaCpp.Instances
import NgxLuaCpp.IrisDispatcherEnds
import NgxLuaCpp.UdpClient
import NgxLuaCpp.HttpGet
import NgxLuaCpp.FileHash
import NgxLuaCpp.IrisBarrierRuns
import NgxLuaCpp.IrisTreeRuns
