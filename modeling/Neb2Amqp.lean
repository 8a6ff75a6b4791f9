import Neb2Amqp.Library.CString
import Neb2Amqp.Library.Heap
import Neb2Amqp.Library.Linked
import Neb2Amqp.Library.BoundedDeque
import Neb2Amqp.Library.Pairs
import Neb2Amqp.Library.Chunks
import Neb2Amqp.Library.Outbox
import Neb2Amqp.Library.Stdio
import Neb2Amqp.Library.Run
import Neb2Amqp.Library.Marks
import Neb2Amqp.Library.Handles
import Neb2Amqp.Library.Separator
import Neb2Amqp.Library.Lines
import Neb2Amqp.Library.Block
import Neb2Amqp.Library.Buffer
import Neb2Amqp.Library.Ctype
import Neb2Amqp.Library.Words
import Neb2Amqp.Library.BigEndian
import Neb2Amqp.Library.Codec
import Neb2Amqp.Library.Emits
import Neb2Amqp.Options
import Neb2Amqp.XUtils
import Neb2Amqp.XUtils.JoinBuffer
import Neb2Amqp.XUtils.Join
import Neb2Amqp.Arguments.Tokens
import Neb2Amqp.Arguments.Parse
import Neb2Amqp.Arguments.Fields
import Neb2Amqp.Arguments.Settings
import Neb2Amqp.Arguments.OwnFields
import Neb2Amqp.Arguments.NullStrings
import Neb2Amqp.Arguments.Tokenizing
import Neb2Amqp.Fifo.Queue
import Neb2Amqp.Fifo.Representation
import Neb2Amqp.Fifo.Refinement
import Neb2Amqp.Fifo.Contents
import Neb2Amqp.Fifo.CacheFile
import Neb2Amqp.Fifo.Csync
import Neb2Amqp.Fifo.CleanFlag
import Neb2Amqp.Fifo.Loading
import Neb2Amqp.Fifo.RoundTrip
import Neb2Amqp.Fifo.LongLines
import Neb2Amqp.Fifo.AllEvents
import Neb2Amqp.Fifo.Reads
import Neb2Amqp.Amqp.Session
import Neb2Amqp.Amqp.State
import Neb2Amqp.Amqp.Invariant
import Neb2Amqp.Amqp.Delivery
import Neb2Amqp.Amqp.Flush
import Neb2Amqp.Amqp.Autosync
import Neb2Amqp.Amqp.GiveBack
import Neb2Amqp.Amqp.Calls
import Neb2Amqp.Amqp.Reports
import Neb2Amqp.Amqp.Connections
import Neb2Amqp.Amqp.Throttle
import Neb2Amqp.Amqp.FlushRate
import Neb2Amqp.Amqp.AllEvents
import Neb2Amqp.Jansson.Utf8
import Neb2Amqp.Jansson.Object
import Neb2Amqp.Jansson.Dump
import Neb2Amqp.Json.Event
import Neb2Amqp.Json.Entries
import Neb2Amqp.Json.ServiceCheck
import Neb2Amqp.Json.Builders
import Neb2Amqp.Events.ServiceCheck
import Neb2Amqp.Events.Rounds
import Neb2Amqp.Events.Texts
import Neb2Amqp.Events.Pieces
import Neb2Amqp.Events.SplitText
import Neb2Amqp.Events.ChunkBounds
import Neb2Amqp.Events.Payload
import Neb2Amqp.Events.SplitKeys
import Neb2Amqp.Events.MessageSize
import Neb2Amqp.Events.SplitArithmetic
import Neb2Amqp.Events.SentTexts
import Neb2Amqp.Events.SplitUtf8
import Neb2Amqp.Events.OtherEvents
import Neb2Amqp.Events.Serialization
import Neb2Amqp.Events.OtherSizes
import Neb2Amqp.Events.Selection
import Neb2Amqp.Events.FieldValues
import Neb2Amqp.Events.Keys
import Neb2Amqp.Events.KeyObjects
import Neb2Amqp.Events.KeyLengths
import Neb2Amqp.Librabbitmq.Codec
import Neb2Amqp.Librabbitmq.Table
import Neb2Amqp.Librabbitmq.TableFormat
import Neb2Amqp.Librabbitmq.TableBounds
import Neb2Amqp.Librabbitmq.Methods
import Neb2Amqp.Librabbitmq.MethodFormat
import Neb2Amqp.Librabbitmq.Properties
import Neb2Amqp.Librabbitmq.Frames
import Neb2Amqp.Librabbitmq.Input
import Neb2Amqp.Librabbitmq.Stream
import Neb2Amqp.Librabbitmq.Receiving
import Neb2Amqp.Librabbitmq.FrameStreams
import Neb2Amqp.Librabbitmq.NewConnection
import Neb2Amqp.Librabbitmq.InputFaults
import Neb2Amqp.Librabbitmq.Socket
import Neb2Amqp.Librabbitmq.Publish
import Neb2Amqp.Librabbitmq.Peer
import Neb2Amqp.Librabbitmq.Progress
import Neb2Amqp.Librabbitmq.LongKeys
import Neb2Amqp.Librabbitmq.Clone
import Neb2Amqp.Librabbitmq.Waiting
import Neb2Amqp.Librabbitmq.Rpc
import Neb2Amqp.Librabbitmq.Login
import Neb2Amqp.Librabbitmq.Consumer
import Neb2Amqp.Librabbitmq.Messages
import Neb2Amqp.Amqp.Attempts
import Neb2Amqp.Amqp.Wire
import Neb2Amqp.Amqp.EventMemory
