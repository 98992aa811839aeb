import Timix.CondWait
import Timix.VariableQueue
import Timix.MutexX86
import Timix.AtomicArm
import Timix.SemInterrupt
import Timix.RwLockInterrupt
import Timix.AtomicArmLoops
import Timix.InsertAfter
import Timix.NiosInterrupt
import Timix.AtomicAddX86
import Timix.CondDeadlock
import Timix.Terminal
import Timix.ConsoleLocks
import Timix.ConsoleDeadlock
import Timix.Lib.Guarded
import Timix.ConsoleIsolation
import Timix.CursorBounds
import Timix.AtomicArm8
import Timix.Lib.Arrival
import Timix.RwLockOrder
import Timix.RwLockOvertaking
import Timix.RwLockBooks
import Timix.Driver
import Timix.ForegroundScreen
import Timix.EintrReply
import Timix.StringImpl
import Timix.VisibleCursor
import Timix.PrintedByte
import Timix.BufferSafety
import Timix.CharCells
import Timix.SavedCursor
import Timix.StringCompare
import Timix.StringCopy
import Timix.Strchr
import Timix.Lib.Stretch
import Timix.Strtok
import Timix.BootPagetable
import Timix.BootMemory
import Timix.BootPath
import Timix.AtomicX86
import Timix.MutexLock
import Timix.CondMonitor
import Timix.HardwareCursor
import Timix.RwLockDrain
import Timix.ConsoleLinear
import Timix.SemFifo
import Timix.RwLockSections
import Timix.ConsoleSem
import Timix.SemCond
import Timix.ConsoleStack
