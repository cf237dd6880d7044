import Luaw.Foundations.Transition
import Luaw.Tcp.Connection
import Luaw.Tcp.ReadConservation
import Luaw.Tcp.References
import Luaw.Foundations.BigEndian
import Luaw.Foundations.BinaryFloat
import Luaw.Foundations.Program
import Luaw.Foundations.RefCount
import Luaw.Foundations.Fuel
import Luaw.Lua.Number
import Luaw.Lua.Value
import Luaw.Lua.Assignments
import Luaw.LuaPack.Format
import Luaw.LuaPack.Writer
import Luaw.LuaPack.Tokens
import Luaw.LuaPack.WriteQueue
import Luaw.LuaPack.FlushLimit
import Luaw.LuaPack.WriterScripts
import Luaw.LuaPack.Reader
import Luaw.LuaPack.TokenReader
import Luaw.LuaPack.ChunkIndependence
import Luaw.LuaPack.Integers
import Luaw.LuaPack.RoundTrip
import Luaw.Foundations.ChunkedCoding
import Luaw.Http.Connection
import Luaw.Http.Message
import Luaw.Http.Streaming
import Luaw.Http.FullBody
import Luaw.Http.Request
import Luaw.Http.Overwriting
import Luaw.Http.Service
import Luaw.Http.ParserReports
import Luaw.Http.ReadFull
import Luaw.Http.KeepAlive
import Luaw.Http.Uniform
import Luaw.Http.Dispatch
import Luaw.Http.ReadBound
import Luaw.Http.Pipelining
import Luaw.Http.Consuming
import Luaw.Scheduler.Machine
import Luaw.Scheduler.Wf
import Luaw.Scheduler.Quiet
import Luaw.Scheduler.Join
import Luaw.Foundations.LinkedQueue
import Luaw.Scheduler.RunQueue
import Luaw.Scheduler.ThreadIds
import Luaw.Scheduler.Running
import Luaw.Scheduler.ReadyThreads
import Luaw.Foundations.Trie
import Luaw.Foundations.Markup
import Luaw.Utils.Splitter
import Luaw.Webapp.Routes
import Luaw.Webapp.RenderView
import Luaw.Webapp.RouteTree
import Luaw.Webapp.Routing
import Luaw.Webapp.PathParams
import Luaw.Http.UrlDecoding
import Luaw.Http.UrlText
import Luaw.Http.UrlReference
import Luaw.Http.FormCoding
import Luaw.Foundations.Delimiter
import Luaw.Http.Multipart
import Luaw.Http.MultipartBuffer
import Luaw.Http.MultipartCoding
import Luaw.Tcp.Socket
import Luaw.Tcp.Waiting
import Luaw.Tcp.Wakeups
import Luaw.Tcp.Timeouts
import Luaw.Tcp.Library
import Luaw.Tcp.PendingWakeups
import Luaw.Timer.Reentrancy
import Luaw.Timer.References
import Luaw.Logging.LogFile
import Luaw.Logging.Rotation
import Luaw.Logging.Appender
import Luaw.Logging.Conservation
import Luaw.Logging.Limits
import Luaw.Logging.Loggers
import Luaw.Logging.Inheritance
import Luaw.Http.ClientResponse
import Luaw.Http.Fragments
import Luaw.Http.HeaderCase
import Luaw.Http.Hearing
import Luaw.LuaPack.ReqReader
import Luaw.LuaPack.Dictionary
import Luaw.LuaPack.Traversal
import Luaw.LuaPack.AllOrNothing
import Luaw.LuaPack.BufferSize
import Luaw.LuaPack.Termination
import Luaw.LuaPack.Grammar
import Luaw.LuaPack.Meaning
import Luaw.LuaPack.StringReader
import Luaw.LuaPack.Soundness
import Luaw.LuaPack.Truncation
import Luaw.Foundations.Retaining
import Luaw.Foundations.Coroutine
import Luaw.Foundations.Routine
import Luaw.Concurrent.Alone
import Luaw.DataStructs.LiveSlots
import Luaw.Server.CallbackStack
import Luaw.Server.FileReader
import Luaw.Foundations.BoundedQueue
import Luaw.DataStructs.RingBuffer
import Luaw.DataStructs.RingBufferRuns
import Luaw.Scheduler.DeadIds
import Luaw.Scheduler.ThreadCalls
import Luaw.Foundations.ExactFloats
import Luaw.LuaPack.IntegerMagnitudes
import Luaw.Parsing.State
import Luaw.Parsing.Execute
import Luaw.Parsing.Sound
import Luaw.Foundations.Gluing
import Luaw.Parsing.Steps
import Luaw.Parsing.Feeding
import Luaw.Parsing.Buffers
import Luaw.Parsing.Instance
import Luaw.Parsing.Cutting
import Luaw.Parsing.Words
import Luaw.Parsing.Reading
import Luaw.Parsing.HeaderLines
import Luaw.Parsing.Bodies
import Luaw.Parsing.Messages
import Luaw.Parsing.Telling
import Luaw.Parsing.Requests
import Luaw.Parsing.Responses
import Luaw.Parsing.Framing
import Luaw.Parsing.Urls
import Luaw.Parsing.UrlParts
import Luaw.Parsing.Exchange
import Luaw.Parsing.Parameters
import Luaw.Parsing.Serving
