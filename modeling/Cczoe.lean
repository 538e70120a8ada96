import Cczoe.Foundations.BlockStorage
import Cczoe.Foundations.ByteNumerals
import Cczoe.Foundations.EarlyReturns
import Cczoe.Foundations.GuardedRuns
import Cczoe.Foundations.Ledger
import Cczoe.Foundations.LockPrograms
import Cczoe.Foundations.MarkedLists
import Cczoe.Foundations.OrderedMap
import Cczoe.Foundations.OrderedSet
import Cczoe.Foundations.PrefixBits
import Cczoe.Net.BlockBuffer
import Cczoe.Net.CursorLaws
import Cczoe.Net.CapacityGrowth
import Cczoe.Net.Positioning
import Cczoe.Net.GatherReads
import Cczoe.Net.ScatterWrites
import Cczoe.Net.SequentialWrites
import Cczoe.Net.TypedValues
import Cczoe.Net.TypedRoundTrip
import Cczoe.Net.WideVarints
import Cczoe.Net.StringLengths
import Cczoe.Net.ByteOrders
import Cczoe.Net.IncompleteReads
import Cczoe.Net.NarrowVarints
import Cczoe.Net.SocketTransfer
import Cczoe.Net.ConstReads
import Cczoe.Net.FixedSizeTransfer
import Cczoe.Net.ScriptedTransfers
import Cczoe.Net.SeekableText
import Cczoe.Net.FileTransfer
import Cczoe.Http.ParserCallbacks
import Cczoe.Http.SessionReads
import Cczoe.Http.FragmentedMessages
import Cczoe.Http.MessageText
import Cczoe.Http.ConnectionOptions
import Cczoe.Http.KeepAlive
import Cczoe.Http.UrlParts
import Cczoe.Http.DumpRoundTrip
import Cczoe.Http.ResponseParsing
import Cczoe.Http.HeaderLines
import Cczoe.Http.HeaderBlocks
import Cczoe.Http.ParserTransitions
import Cczoe.Http.ParserExecution
import Cczoe.Http.ParserInvariant
import Cczoe.Http.ParserSafety
import Cczoe.Http.ParserHeaders
import Cczoe.Http.ParserRequestLine
import Cczoe.Http.ParserHeaderLines
import Cczoe.Http.ParserReports
import Cczoe.Http.VendoredParser
import Cczoe.Http.ParserBoundaries
import Cczoe.Http.ParserSplits
import Cczoe.Http.ParserContinuation
import Cczoe.Http.ParserPieces
import Cczoe.Timer.TimerManager
import Cczoe.Timer.TimerOrder
import Cczoe.Timer.TimerEffects
import Cczoe.Timer.Expiry
import Cczoe.Timer.RefreshedTimers
import Cczoe.Timer.ResetTimers
import Cczoe.Timer.FiringTimes
import Cczoe.Timer.LockDiscipline
import Cczoe.Timer.Agenda
import Cczoe.Timer.ScheduledTimers
import Cczoe.Scheduler.EventTable
import Cczoe.Scheduler.EventTableLaws
import Cczoe.Scheduler.AtomicOperations
import Cczoe.Scheduler.PendingEvents
import Cczoe.Scheduler.Registrations
import Cczoe.Scheduler.WaitingTasks
import Cczoe.Scheduler.InterestList
import Cczoe.Scheduler.ContextGrowth
import Cczoe.Scheduler.Workers
import Cczoe.Scheduler.FiberHandoff
import Cczoe.Scheduler.IdleFiber
import Cczoe.Scheduler.TimerWakeups
import Cczoe.Scheduler.TaskOrder
import Cczoe.Fiber.Switching
import Cczoe.Hook.FdTable
import Cczoe.Hook.Wrappers
import Cczoe.Hook.PassThrough
import Cczoe.Hook.NonblockFlag
import Cczoe.Hook.BlockingCall
import Cczoe.Hook.BlockingCallLaws
import Cczoe.Hook.SleepTimers
import Cczoe.Address.Ordering
import Cczoe.Address.IPAddress
import Cczoe.Address.SubnetMasks
import Cczoe.Address.BroadcastAddresses
import Cczoe.Address.UnixPath
import Cczoe.Socket.Operations
import Cczoe.Socket.Connecting
import Cczoe.Socket.AddressCaches
import Cczoe.Socket.Timeouts
import Cczoe.Server.TcpServer
import Cczoe.Server.ServerRuns
import Cczoe.Config.Registry
import Cczoe.Config.LexicalCast
import Cczoe.Config.HandedValues
import Cczoe.Config.LoadedValues
import Cczoe.Config.LetterCase
import Cczoe.Config.Listeners
import Cczoe.Log.Appenders
import Cczoe.Log.LogFormatter
import Cczoe.Log.PatternScans
import Cczoe.Log.PatternRoundTrip
