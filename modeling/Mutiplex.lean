import Mutiplex.Lib.Transition
import Mutiplex.Lib.Watch
import Mutiplex.Lib.Potential
import Mutiplex.Lib.Monitor
import Mutiplex.Lib.CyclicList
import Mutiplex.Lib.CMemory
import Mutiplex.Lib.BoundedQueue
import Mutiplex.Lib.Lexicographic
import Mutiplex.Lib.Decimal
import Mutiplex.Lib.Columns
import Mutiplex.Lib.Reader
import Mutiplex.Lib.CText
import Mutiplex.CircularBuffer.Basic
import Mutiplex.CircularBuffer.Spec
import Mutiplex.CircularBuffer.Fifo
import Mutiplex.CircularBuffer.Ring
import Mutiplex.CircularBuffer.Growth
import Mutiplex.ByteBuffer.Basic
import Mutiplex.ByteBuffer.Spec
import Mutiplex.ByteBuffer.Receive
import Mutiplex.ByteBuffer.Assertions
import Mutiplex.ByteBuffer.ReadBack
import Mutiplex.Slice
import Mutiplex.InetAddress.Basic
import Mutiplex.InetAddress.Text
import Mutiplex.InetAddress.Grammar
import Mutiplex.EventLoop.Basic
import Mutiplex.EventLoop.Scheduling
import Mutiplex.EventLoop.Wakeup
import Mutiplex.EventLoop.Stop
import Mutiplex.EventLoop.Polling
import Mutiplex.EventSource
import Mutiplex.EventSource.Mirror
import Mutiplex.Connection.Basic
import Mutiplex.Connection.World
import Mutiplex.Connection.Jobs
import Mutiplex.Connection.Steps
import Mutiplex.Connection.Ownership
import Mutiplex.Connection.Life
import Mutiplex.Connection.Noted
import Mutiplex.Connection.Closing
import Mutiplex.Connection.Output
import Mutiplex.Connection.Kernel
import Mutiplex.Connection.Descriptors
import Mutiplex.Connection.Writable
import Mutiplex.Connection.Delivery
import Mutiplex.Connection.Flush
import Mutiplex.Connection.Stream
import Mutiplex.Connection.State
import Mutiplex.Connection.Registry
import Mutiplex.Connection.Reclaim
import Mutiplex.Connection.Dispatch
import Mutiplex.Connection.Safety
import Mutiplex.Connection.Input
import Mutiplex.Connection.Session
import Mutiplex.Connection.Teardown
import Mutiplex.Connection.Progress
import Mutiplex.Connection.Work
import Mutiplex.Connector
import Mutiplex.TcpServer
import Mutiplex.TcpServer.Lifetime
import Mutiplex.TcpServer.Destruction
import Mutiplex.TcpServer.Return
import Mutiplex.Timestamp
import Mutiplex.Service.Basic
import Mutiplex.Service.Kept
import Mutiplex.Service.Runs
import Mutiplex.Service.Wire
import Mutiplex.Service.Echo
import Mutiplex.Service.PingPong
import Mutiplex.Service.Datetime
