import WinArmVm.CompiledRuns
import WinArmVm.AdapterPool
import WinArmVm.ExceptionRoutes
import WinArmVm.ServiceCalls
import WinArmVm.ImageRuns
import WinArmVm.EndOfInput
import WinArmVm.TextBuffer
import WinArmVm.BuilderBarrier
import WinArmVm.IoOwnership
import WinArmVm.SupervisorRuns
import WinArmVm.MethodDictMap
import WinArmVm.SymbolInterning
import WinArmVm.RegisterAllocation
import WinArmVm.MopHostile
import WinArmVm.ScopeDescRoundTrip
import WinArmVm.HomeLiveness
import WinArmVm.HandleArena
import WinArmVm.MopSizeCap
import WinArmVm.AllocationExits
import WinArmVm.HeapRuns
import WinArmVm.ClassRedefinition
import WinArmVm.LoadOrder
import WinArmVm.SendCallers
import WinArmVm.TypeWalkSends
import WinArmVm.TypeRoundTrip
import WinArmVm.UndoTarget
import WinArmVm.InputCut
import WinArmVm.CodeCacheHoles
import WinArmVm.OopMap
import WinArmVm.BuilderTargets
import WinArmVm.ClassReread
import WinArmVm.CodeIndexRuns
import WinArmVm.Invalidation
import WinArmVm.PicOwnership
import WinArmVm.SnapshotCoverage
import WinArmVm.AtIfAbsentPut
import WinArmVm.SortedCollection
import WinArmVm.Calendar
import WinArmVm.ScaledReading
import WinArmVm.InboxWake
import WinArmVm.IoStreamClose
import WinArmVm.Splitting
import WinArmVm.IoPump
import WinArmVm.OsrTransition
import WinArmVm.WorkerFleet
import WinArmVm.CardTable
import WinArmVm.ReversePostorder
import WinArmVm.EditorPositions
import WinArmVm.IntervalEquality
import WinArmVm.SyntaxRuns
