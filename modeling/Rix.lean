import Rix.ListRuns
import Rix.PmmSafety
import Rix.BootMap
import Rix.BootZones
import Rix.BootBounds
import Rix.VmPreheap
import Rix.InitHooks
import Rix.BootWalk
import Rix.BootStride
import Rix.TagWalk
import Rix.SpinLock
import Rix.Cswitch
import Rix.Isr
import Rix.Kheap
import Rix.ListSegments
import Rix.RangeExact
import Rix.HeapOrder
import Rix.MmuMapping
import Rix.MmuVaddr
import Rix.QsortSafety
import Rix.QsortThreeWay
import Rix.SwapModes
import Rix.PrintfFormat
import Rix.PrintfLiterals
import Rix.Vsnprintf
import Rix.InitOrder
import Rix.Idt
import Rix.Kprint
import Rix.TextConsole
import Rix.Balloc
import Rix.ZoneExact
import Rix.Pset
import Rix.Memcpy
import Rix.Interrupts
import Rix.MmuQuery
import Rix.Platform
import Rix.Entry
import Rix.Threads
import Rix.PmmLost
import Rix.PmmStacks
import Rix.PrintfNumeric
import Rix.ConsoleText
import Rix.Gates
import Rix.KernelPages
