import OsLabs.Lib.Machine
import OsLabs.Bakery1.Model
import OsLabs.Bakery1.Invariant
import OsLabs.Bakery1.Order
import OsLabs.Bakery1.Progress
import OsLabs.Bakery2.Model
import OsLabs.Bakery2.Retransmit
import OsLabs.Bakery1.Udp
import OsLabs.Bakery.Slots
import OsLabs.Lib.Buffer
import OsLabs.ProcFiles.Cycle
import OsLabs.ProcFiles.SingleFile
import OsLabs.Lib.FileTree
import OsLabs.Lib.Preorder
import OsLabs.Catalog.Model
import OsLabs.Catalog.Walks
import OsLabs.Sockets.Responder
import OsLabs.Sockets.Segments
import OsLabs.Sockets.Overruns
import OsLabs.Interrupts.Tasklet
import OsLabs.Interrupts.Workqueue
import OsLabs.Lib.ForkJoin
import OsLabs.Files.SharedRead
import OsLabs.Files.Writers
import OsLabs.Interrupts.Keystrokes
import OsLabs.Bakery2.TicketOrder
import OsLabs.ProcFiles.Reads
import OsLabs.Sockets.Epoll
import OsLabs.Lib.Observation
import OsLabs.ProcFiles.Failures
import OsLabs.Lib.Numeral
import OsLabs.ProcFiles.Selection
import OsLabs.Proc.Model
import OsLabs.Proc.Arguments
import OsLabs.Proc.Stat
import OsLabs.Proc.Descriptors
import OsLabs.Proc.Regions
import OsLabs.Proc.PageMap
import OsLabs.Catalog.CurrentDir
import OsLabs.Lib.Ledger
import OsLabs.Vfs.Myfs
import OsLabs.ProcFiles.SeqFile
import OsLabs.ProcFiles.SeqCells
import OsLabs.Catalog.WorkingDir
import OsLabs.Interrupts.Names
import OsLabs.Lib.Circle
import OsLabs.ProcInfo.Md
import OsLabs.Catalog.PathBuffer
import OsLabs.Catalog.Refinement
import OsLabs.Lib.Simulation
import OsLabs.Lib.Codec
import OsLabs.Bakery.Xdr
import OsLabs.Bakery2.Wire
import OsLabs.ProcFiles.Loading
import OsLabs.Files.Copies
import OsLabs.Proc.Maps
import OsLabs.Proc.Report
import OsLabs.Lib.Outline
import OsLabs.Catalog.Drawing
import OsLabs.Sockets.Pair
import OsLabs.Sockets.Sessions
import OsLabs.Sockets.Served
import OsLabs.Files.Overwrites
import OsLabs.ProcFiles.SeqReaders
import OsLabs.Vfs.Mounts
