import Nachos.Run
import Nachos.CInt
import Nachos.Semaphore
import Nachos.Bitmap
import Nachos.Rendezvous
import Nachos.PTable
import Nachos.TableSteps
import Nachos.ProcessIdentity
import Nachos.JoinExit
import Nachos.ParentLiveness
import Nachos.Scheduler
import Nachos.STable
import Nachos.ByteMemory
import Nachos.Machine
import Nachos.AddrSpace
import Nachos.LoadReads
import Nachos.LoadImage
import Nachos.LoadLayout
import Nachos.LoadConfined
import Nachos.Ownership
import Nachos.Spaces
import Nachos.FrameOwnership
import Nachos.Exec
import Nachos.ExecContained
import Nachos.FileCalls
import Nachos.FileRoundTrip
import Nachos.Descriptors
import Nachos.DescriptorsReturned
import Nachos.ContextSwitch
import Nachos.ContextSwitchRuns
import Nachos.LoadDelay
import Nachos.LoadDelayRuns
import Nachos.DiskFiles
import Nachos.FreeMap
import Nachos.Directory
import Nachos.FileSystem
import Nachos.DiskConsistent
import Nachos.FileIsolation
import Nachos.Lock
import Nachos.SynchList
import Nachos.MailDelivery
import Nachos.Coff2Noff
import Nachos.CoffImage
import Nachos.Interrupt
import Nachos.ConsoleInput
import Nachos.InstructionEnds
import Nachos.SynchDevice
import Nachos.Linked
import Nachos.LinkedList
import Nachos.Chaining
import Nachos.HashTable
import Nachos.SemNames
import Nachos.StateEffects
import Nachos.Syscalls
import Nachos.LoadPages
import Nachos.JoinChecks
import Nachos.InterruptLoop
import Nachos.Alu
import Nachos.Mult
import Nachos.UnalignedAccess
import Nachos.UnalignedPairs
import Nachos.FileBytes
import Nachos.HeaderTable
import Nachos.FileCursor
import Nachos.FileHistories
import Nachos.Numbers
import Nachos.ConsoleReaders
import Nachos.JoinAccounting
import Nachos.ExecNames
import Nachos.BitmapSets
import Nachos.ListRefinement
import Nachos.RequestClipping
import Nachos.DiskContents
import Nachos.KernelThreads
import Nachos.BoundedWaiting
import Nachos.Mesa
import Nachos.Monitor
import Nachos.MonitorRuns
import Nachos.AtomicObject
import Nachos.DiskRefinement
import Nachos.DiskTiming
import Nachos.ProgramImage
import Nachos.SynchAtomic
