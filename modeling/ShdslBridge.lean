import ShdslBridge.Components.Completion
import ShdslBridge.Components.DataQueueInterrupts
import ShdslBridge.Components.DataQueueProducers
import ShdslBridge.Components.EthReceive
import ShdslBridge.Components.Pipe
import ShdslBridge.Components.RingbufferForce
import ShdslBridge.Components.SerialDevice
import ShdslBridge.Components.SerialReceive
import ShdslBridge.Components.SerialTransmit
import ShdslBridge.Components.SpiBus
import ShdslBridge.Components.SpiFlash
import ShdslBridge.Components.Workqueue
import ShdslBridge.Driver.AlternatingBit
import ShdslBridge.Driver.Fragmentation
import ShdslBridge.Driver.FrameAnalysis
import ShdslBridge.Driver.IdcRam
import ShdslBridge.Driver.IdcReport
import ShdslBridge.Driver.LongFrames
import ShdslBridge.Driver.ReceiveFifo
import ShdslBridge.Driver.Retransmission
import ShdslBridge.Finsh.CodeSize
import ShdslBridge.Finsh.Completion
import ShdslBridge.Finsh.History
import ShdslBridge.Finsh.LexerBounds
import ShdslBridge.Finsh.LineValues
import ShdslBridge.Finsh.LvalueAccess
import ShdslBridge.Finsh.MshSplit
import ShdslBridge.Finsh.StackGarbage
import ShdslBridge.Finsh.StringLiterals
import ShdslBridge.Finsh.StringRuns
import ShdslBridge.Finsh.SymbolLookup
import ShdslBridge.Httpd.FormSearch
import ShdslBridge.Httpd.MemorySafety
import ShdslBridge.Httpd.PageTransfer
import ShdslBridge.Httpd.UploadExactly
import ShdslBridge.Kernel.AlignedAllocation
import ShdslBridge.Kernel.AllocatorLocks
import ShdslBridge.Kernel.Event
import ShdslBridge.Kernel.HeapSizes
import ShdslBridge.Kernel.IdleCleanup
import ShdslBridge.Kernel.MailboxCalls
import ShdslBridge.Kernel.MemPoolBlocks
import ShdslBridge.Kernel.MemheapAdequacy
import ShdslBridge.Kernel.MemheapSystem
import ShdslBridge.Kernel.MessageQueueRuns
import ShdslBridge.Kernel.ModuleLayout
import ShdslBridge.Kernel.ModuleLoads
import ShdslBridge.Kernel.MutualExclusion
import ShdslBridge.Kernel.PageAllocatorRuns
import ShdslBridge.Kernel.PrintfStandard
import ShdslBridge.Kernel.PriorityInheritance
import ShdslBridge.Kernel.Scheduler
import ShdslBridge.Kernel.Semaphore
import ShdslBridge.Kernel.SlabRuns
import ShdslBridge.Kernel.SoftTimerCheck
import ShdslBridge.Kernel.StringCompare
import ShdslBridge.Link.Configuration
import ShdslBridge.Link.EventOwnership
import ShdslBridge.Link.PollCall
import ShdslBridge.Net.Arp
import ShdslBridge.Net.Ping
import ShdslBridge.Net.TcpReceive
import ShdslBridge.Net.TcpSend
import ShdslBridge.Net.TcpTable
import ShdslBridge.Net.TcpTimeout
