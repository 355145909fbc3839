import Aesd.CircularBuffer.Lookup
import Aesd.CircularBuffer.Position
import Aesd.Device.Chunking
import Aesd.Device.Conservation
import Aesd.Device.Linearizable
import Aesd.Device.Ownership
import Aesd.Device.Reading
import Aesd.Device.Session
import Aesd.Server.Availability
import Aesd.Server.Clients
import Aesd.Server.Descriptors
import Aesd.Server.ReapingPass
import Aesd.Server.ReceiveBuffer
import Aesd.Server.Replies
import Aesd.Server.SeekGrammar
import Aesd.Server.Segmentation
import Aesd.Finder
import Aesd.Device.Completion
import Aesd.Device.Exhaustion
import Aesd.Server.FileMutex
import Aesd.Server.LogServer
import Aesd.Server.Shutdown
import Aesd.Server.DescriptorBalance
import Aesd.Device.Module
import Aesd.Device.Following
import Aesd.Lib.Printing
import Aesd.Server.Accepting
import Aesd.Server.Timestamp
import Aesd.Threading
import Aesd.Lib.OpenFiles
import Aesd.Systemcalls
import Aesd.FinderTest
import Aesd.Lib.NamedFile
import Aesd.Server.Instances
