import UtilityFramework.Lib.Anchored
import UtilityFramework.Lib.Bytes
import UtilityFramework.Lib.Codec
import UtilityFramework.Lib.Condition
import UtilityFramework.Lib.Decimal
import UtilityFramework.Lib.FileStream
import UtilityFramework.Lib.Framing
import UtilityFramework.Lib.KeyedContainers
import UtilityFramework.Lib.LocalSteps
import UtilityFramework.Lib.Logged
import UtilityFramework.Lib.Memory
import UtilityFramework.Lib.NestedLayout
import UtilityFramework.Lib.NestedReading
import UtilityFramework.Lib.Responses
import UtilityFramework.Lib.SharableLock
import UtilityFramework.Lib.Splitting
import UtilityFramework.Lib.Toggle
import UtilityFramework.Lib.Transition
import UtilityFramework.Lib.Window
import UtilityFramework.Core.ByteOrder
import UtilityFramework.Core.Types
import UtilityFramework.Core.TypeNames
import UtilityFramework.Utils.AsyncAction
import UtilityFramework.Utils.CallbackHandler
import UtilityFramework.Utils.SimpleContext
import UtilityFramework.Utils.ContextDrain
import UtilityFramework.Utils.ContextTimers
import UtilityFramework.Utils.DisposablePtr
import UtilityFramework.Utils.SplitString
import UtilityFramework.Utils.EnvironmentVariables
import UtilityFramework.Utils.MessageDispatcher
import UtilityFramework.Utils.MessageDelivery
import UtilityFramework.Utils.ObjectPool
import UtilityFramework.Utils.TimersOnTime
import UtilityFramework.Utils.PendingTimers
import UtilityFramework.Utils.RefCountBase
import UtilityFramework.Utils.RefCountPtr
import UtilityFramework.Utils.Signal
import UtilityFramework.Utils.SignalRaise
import UtilityFramework.Utils.TimerClients
import UtilityFramework.Communication.DelimiterProtocol
import UtilityFramework.Parsers.Metadata
import UtilityFramework.Parsers.Options
import UtilityFramework.Parsers.BinaryParser
import UtilityFramework.Parsers.Json
import UtilityFramework.Parsers.HexDecoders
import UtilityFramework.Communication.TextEncodings
import UtilityFramework.Communication.Handshake
import UtilityFramework.Communication.UdpClientPort
import UtilityFramework.Communication.ReceiveModes
import UtilityFramework.Communication.VariableLengthProtocol
import UtilityFramework.Communication.WebSocketFrames
import UtilityFramework.Communication.WebSocketConnection
import UtilityFramework.Communication.WebSocketReader
import UtilityFramework.Database.MemoryRow
import UtilityFramework.Database.DataBinder
import UtilityFramework.Database.BinderRest
import UtilityFramework.Database.DataSet
import UtilityFramework.Database.Subscriptions
import UtilityFramework.Database.Dispatcher
import UtilityFramework.Database.Table
import UtilityFramework.Database.KeyOrder
import UtilityFramework.Database.RowNotification
import UtilityFramework.Database.SubscriptionTokens
import UtilityFramework.Parsers.Pool
import UtilityFramework.Parsers.PoolIsolation
import UtilityFramework.Parsers.NestedParsers
import UtilityFramework.Parsers.Builder
import UtilityFramework.Parsers.TreeLayout
import UtilityFramework.Parsers.FieldWrites
import UtilityFramework.Parsers.ArrayAccess
import UtilityFramework.Parsers.Layout
import UtilityFramework.Parsers.BitBlocks
import UtilityFramework.Parsers.ParserJson
import UtilityFramework.Parsers.BitFields
import UtilityFramework.Parsers.BitWrites
import UtilityFramework.Parsers.RecordTree
import UtilityFramework.Parsers.Defaults
import UtilityFramework.Parsers.EnumTable
import UtilityFramework.Parsers.FieldCodec
import UtilityFramework.Parsers.FieldOrder
import UtilityFramework.Parsers.Validate
import UtilityFramework.Parsers.JsonFailure
import UtilityFramework.Parsers.JsonRoundTrip
import UtilityFramework.Parsers.NamedAccess
import UtilityFramework.Parsers.OptionText
import UtilityFramework.Parsers.ReadSources
import UtilityFramework.Parsers.ParseBuffer
import UtilityFramework.Video.SharableBufferPool
import UtilityFramework.Video.SharableBufferLayout
import UtilityFramework.Parsers.SafeBuffer
import UtilityFramework.Parsers.Schema
import UtilityFramework.Parsers.SchemaKept
import UtilityFramework.Parsers.SchemaFields
import UtilityFramework.Parsers.SchemaNested
import UtilityFramework.Parsers.SchemaRoundTrip
import UtilityFramework.Rules.EnumLiterals
import UtilityFramework.Rules.Expression
import UtilityFramework.Rules.ShuntingYard
import UtilityFramework.Rules.Grammar
import UtilityFramework.Rules.TaskTimers
import UtilityFramework.Rules.TriggerSubscriptions
import UtilityFramework.Rules.Reload
import UtilityFramework.Rules.TaskTimersExact
import UtilityFramework.Rules.RuleRecords
import UtilityFramework.Rules.ReloadInvariant
import UtilityFramework.Rules.ReloadExact
import UtilityFramework.Rules.RowOperands
import UtilityFramework.Rules.RulesParser
import UtilityFramework.Remote.RemoteAgent
import UtilityFramework.Remote.DataMessages
import UtilityFramework.Remote.SyncStatus
import UtilityFramework.Remote.Ownership
import UtilityFramework.Remote.SentMessages
import UtilityFramework.Remote.QuietWrites
import UtilityFramework.Monitor.Messages
import UtilityFramework.Monitor.Monitor
import UtilityFramework.Monitor.MonitorClient
import UtilityFramework.Monitor.SingleRow
import UtilityFramework.Monitor.DebugLock
import UtilityFramework.Monitor.HandlerAccesses
import UtilityFramework.Monitor.HandlerSafety
import UtilityFramework.Monitor.TableDump
import UtilityFramework.Monitor.Updates
import UtilityFramework.Errors.ErrorsManager
import UtilityFramework.Errors.GroupCounters
import UtilityFramework.Files.IniFile
import UtilityFramework.Files.IniBuffers
import UtilityFramework.Files.IniMap
import UtilityFramework.Files.IniPersistence
import UtilityFramework.Files.LogFile
import UtilityFramework.Files.LogFlush
import UtilityFramework.Files.LogStored
import UtilityFramework.Files.LogAppendOnly
import UtilityFramework.Files.LogCyclic
import UtilityFramework.Files.LogDestruction
import UtilityFramework.StateMachine.StateMachine
import UtilityFramework.StateMachine.Terminal
import UtilityFramework.StateMachine.ProcessTimeout
import UtilityFramework.StateMachine.StatusRow
import UtilityFramework.StateMachine.Transitions
import UtilityFramework.Streams.MemoryStream
import UtilityFramework.Streams.StreamRuns
import UtilityFramework.Video.BufferpoolWait
import UtilityFramework.Video.Frame
import UtilityFramework.Video.FrameSerializer
import UtilityFramework.Video.FrameRoundTrip
import UtilityFramework.Video.HeldFrames
import UtilityFramework.Video.QueryLocks
import UtilityFramework.Video.ShmSession
import UtilityFramework.Video.VideoSource
