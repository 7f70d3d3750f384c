import SystemdPort.Core.TransactionMatters
import SystemdPort.Basic.FdUtil
import SystemdPort.Compat.Epoll
import SystemdPort.Basic.RecurseDir
import SystemdPort.Shared.CpuSet
import SystemdPort.Bus.RoundTrip
import SystemdPort.Bus.ReadRuns
import SystemdPort.Network.DhcpParse
import SystemdPort.Shared.BarrierRuns
import SystemdPort.Basic.EnvFileRoundTrip
import SystemdPort.Basic.UnitNamePath
import SystemdPort.Core.JobMerge
import SystemdPort.Core.TransactionVerify
import SystemdPort.Resolve.DnsAnswer
import SystemdPort.Event.TimeQueues
import SystemdPort.Bus.MatchRules
import SystemdPort.Bus.MatchParse
import SystemdPort.Resolve.DnsCacheRuns
import SystemdPort.Bus.BusError
import SystemdPort.Core.JobLists
import SystemdPort.Basic.InAddrUtil
import SystemdPort.Basic.IteratedCache
import SystemdPort.Event.MapClock
import SystemdPort.Basic.PathRelative
import SystemdPort.Basic.PathCompare
import SystemdPort.Basic.Escape
import SystemdPort.Basic.Strv
import SystemdPort.Shared.DnsConcat
import SystemdPort.Resolve.DnsNameLimits
import SystemdPort.Partition.Repart
