import Aesd.Lib.Segments
import Aesd.Lib.Journal
import Aesd.Lib.Heap
import Aesd.Lib.Run
import Aesd.Lib.Ring
import Aesd.Lib.Loop
import Aesd.Lib.Monitor
import Aesd.Lib.Serial
import Aesd.Lib.Logged
import Aesd.Lib.Code
import Aesd.Lib.Cells
import Aesd.Lib.Copies
import Aesd.Lib.Nested
import Aesd.Lib.SList
import Aesd.Lib.Handles
import Aesd.Lib.CString
import Aesd.Driver.Kernel
import Aesd.Driver.CircularBuffer
import Aesd.Driver.Search
import Aesd.Driver.CharDev
import Aesd.Driver.Abstract
import Aesd.Driver.Refinement
import Aesd.Driver.WriteRuns
import Aesd.Driver.System
import Aesd.Driver.Statements
import Aesd.Driver.Syscalls
import Aesd.Driver.Concurrent
import Aesd.Driver.History
import Aesd.Driver.Accounting
import Aesd.Driver.Failure
import Aesd.Driver.Ownership
import Aesd.Driver.Module
import Aesd.Driver.Bounds
import Aesd.Driver.Positions
import Aesd.Server.Command
import Aesd.Server.Recv
import Aesd.Server.Recognise
import Aesd.Server.Connection
import Aesd.Server.Device
import Aesd.Server.Lines
import Aesd.Server.Mixing
import Aesd.Server.Reply
import Aesd.Server.Send
import Aesd.Server.Serial
import Aesd.Server.Sequential
import Aesd.Server.Statements
import Aesd.Server.Seek
import Aesd.Server.Worker
import Aesd.Server.Main
import Aesd.Server.Threads
import Aesd.Server.Sockets
import Aesd.Server.Exclusion
import Aesd.Server.Shutdown
import Aesd.Server.Memory
import Aesd.Server.Simulation
import Aesd.Server.Descriptors
import Aesd.Server.Program
