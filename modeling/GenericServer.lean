import GenericServer.AsyncLogger
import GenericServer.ClientConnections
import GenericServer.ConnectAttempts
import GenericServer.ConnectionBacklog
import GenericServer.ConnectionInput
import GenericServer.ConnectionTable
import GenericServer.ConnectionTasks
import GenericServer.ConnectionTeardown
import GenericServer.CrossLoopDeadlock
import GenericServer.IdleExpiry
import GenericServer.LogFiles
import GenericServer.LoggerDrain
import GenericServer.LoggerThreadsContiguity
import GenericServer.LoopThreads
import GenericServer.PollerMirror
import GenericServer.RingBufferQueries
import GenericServer.SendSafety
import GenericServer.SystemTimer
import GenericServer.TimingWheelPunctuality
import GenericServer.TimingWheelTermination
import GenericServer.LogAppenders
import GenericServer.Decimals
import GenericServer.IntegerFormatting
import GenericServer.LogStream
import GenericServer.LogRecords
import GenericServer.BlockingQueue
import GenericServer.ByteWords
import GenericServer.InetAddresses
import GenericServer.ConnectClassification
import GenericServer.RetryBudget
import GenericServer.ClientSends
import GenericServer.IdleTimeouts
import GenericServer.EchoConnection
import GenericServer.BlockingQueueProgress
import GenericServer.CrossLoopProgress
import GenericServer.TimingWheelNested
import GenericServer.AcceptDispatch
import GenericServer.BufferRefinement
import GenericServer.EchoServerTables
import GenericServer.ConnectAnswers
import GenericServer.SyncLogging
import GenericServer.LoopShutdown
import GenericServer.LoggerShutdown
import GenericServer.LoggerFiles
import GenericServer.PollBatches
import GenericServer.TimeStamps
import GenericServer.StaleEntries
import GenericServer.ConnectionLifetimes
import GenericServer.EchoServerClients
