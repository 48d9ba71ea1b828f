import Janadinite.Lib.Bytes
import Janadinite.Lib.Chain
import Janadinite.Lib.Codec
import Janadinite.Lib.Evaluation
import Janadinite.Lib.Layout
import Janadinite.Lib.Lock
import Janadinite.Lib.Overflow
import Janadinite.Lib.Paths
import Janadinite.Lib.RefCount
import Janadinite.Lib.Registry
import Janadinite.Lib.Runs
import Janadinite.Lib.Search
import Janadinite.Lib.Triple
import Janadinite.Parse.Io
import Janadinite.Parse.ConstantPool
import Janadinite.Parse.Raw
import Janadinite.Parse.RawRoundTrip
import Janadinite.Parse.PoolSlots
import Janadinite.Parse.OpCode
import Janadinite.Parse.Instructions
import Janadinite.Parse.Class
import Janadinite.Parse.Descriptors
import Janadinite.Parse.CodeWalk
import Janadinite.Parse.CodeAttribute
import Janadinite.Parse.LengthFields
import Janadinite.Parse.RawGrammar
import Janadinite.Vm.Slot
import Janadinite.Vm.Class
import Janadinite.Vm.Built
import Janadinite.Vm.Error
import Janadinite.Vm.Resolve
import Janadinite.Vm.FieldIndex
import Janadinite.Vm.Vtable
import Janadinite.Vm.StopTheWorld
import Janadinite.Vm.StopTheWorldSafety
import Janadinite.Vm.Heap
import Janadinite.Vm.Owned
import Janadinite.Vm.HeapOps
import Janadinite.Vm.GcMark
import Janadinite.Vm.GcSweep
import Janadinite.Vm.Gc
import Janadinite.Vm.AllocCount
import Janadinite.Vm.Context
import Janadinite.Vm.Execute
import Janadinite.Vm.Framed
import Janadinite.Vm.TableFramed
import Janadinite.Vm.Safepoint
import Janadinite.Vm.ExecuteFramed
import Janadinite.Vm.Allocation
import Janadinite.Vm.ArrayLevels
import Janadinite.Vm.Calls
import Janadinite.Vm.Machine
import Janadinite.Vm.Multiarray
import Janadinite.Vm.ArrayShape
import Janadinite.Vm.MachineStep
import Janadinite.Vm.MachineOwned
import Janadinite.Vm.FrameBounds
import Janadinite.Vm.Declared
import Janadinite.Vm.ClassConstants
import Janadinite.Vm.FieldLayout
import Janadinite.Vm.FieldSelection
import Janadinite.Vm.Drops
import Janadinite.Vm.CalleeFrame
import Janadinite.Vm.Operands
import Janadinite.Vm.Arithmetic
import Janadinite.Vm.FieldAccess
import Janadinite.Vm.WideArrays
import Janadinite.Vm.References
import Janadinite.Vm.NarrowArrays
import Janadinite.Vm.Silent
import Janadinite.Vm.ArrayLengths
import Janadinite.Vm.PrivateMethods
import Janadinite.Vm.Composed
import Janadinite.Vm.PoolLinks
import Janadinite.Vm.TableRuns
import Janadinite.Vm.Resolution
import Janadinite.Vm.StoreErrors
import Janadinite.Vm.Activations
import Janadinite.Vm.Boundaries
import Janadinite.Vm.Recognised
import Janadinite.Vm.SuperChain
import Janadinite.Vm.ClassLoading
import Janadinite.Vm.LoadingOnce
import Janadinite.Vm.TableGrowth
import Janadinite.Vm.Listed
import Janadinite.Vm.Reclaimed
import Janadinite.Vm.ExecuteListed
import Janadinite.Vm.LocalBounds
import Janadinite.Vm.Longs
import Janadinite.Lib.Reading
import Janadinite.Parse.Chunks
import Janadinite.Lib.Coupling
import Janadinite.Vm.Agreement
import Janadinite.Vm.Collections
import Janadinite.Vm.RunCode
import Janadinite.Vm.Recursion
import Janadinite.Vm.Shaped
import Janadinite.Vm.Shapes
import Janadinite.Lib.Response
import Janadinite.Vm.StopTheWorldLiveness
import Janadinite.Vm.Definitions
import Janadinite.Vm.Linking
import Janadinite.Vm.LoadOrder
import Janadinite.Vm.Loader
