import Ect.Ir.Semantics
import Ect.Bpf.Vm
import Ect.Bpf.Encode
import Ect.Lowering.Chain
import Ect.Translate.Growth
import Ect.Lowering.Walk
import Ect.Lowering.Acceptance
import Ect.Lowering.Alu
import Ect.Lowering.Cond
import Ect.Lowering.Path
import Ect.Lowering.ReturnValue
import Ect.Bpf.Machine
import Ect.Base.Spans
import Ect.Bpf.StackMachine
import Ect.Lowering.Memory
import Ect.Lowering.Regions
import Ect.Lowering.PacketLoads
import Ect.Lowering.Stack
import Ect.Lowering.StackRuns
import Ect.Maps.Shapes
import Ect.Lowering.Effects
import Ect.Ir.Cells
import Ect.Lowering.Frame
import Ect.Lowering.Constants
import Ect.Lowering.StackBounds
import Ect.Maps.ArrayLookup
import Ect.Maps.Scratch
import Ect.Base.Ranges
import Ect.Maps.Layout
import Ect.Maps.Accesses
import Ect.Base.Struct
import Ect.Base.Sexp
import Ect.Ir.Text
import Ect.Base.Utf8
import Ect.Object.Elf
import Ect.Object.ElfFormat
import Ect.Base.Follow
import Ect.Object.Btf
import Ect.Object.BtfFormat
import Ect.Lowering.WellFormed
import Ect.Object.BtfSizes
import Ect.Lowering.RegisterChecks
import Ect.Translate.Alike
import Ect.Translate.AlikeCalls
import Ect.Lowering.Flow
import Ect.Lowering.Unreachable
import Ect.Lowering.Unaffected
import Ect.Lowering.Joins
import Ect.Lowering.Synthesized
import Ect.Translate.Reads
import Ect.Translate.ReadsCalls
import Ect.Lowering.Seeding
import Ect.Object.Driver
import Ect.Object.Output
import Ect.Tests.Opeval
import Ect.Tests.Lowering
import Ect.Tests.Mkobj
import Ect.Tests.Mutate
import Ect.Object.Order
import Ect.Translate.Budget
import Ect.Object.Sizing
import Ect.Base.SlotTable
import Ect.Maps.Contents
import Ect.Maps.SlotScan
import Ect.Maps.SlotCopy
import Ect.Maps.HashMaps
import Ect.Base.SlotBudget
import Ect.Maps.SlotRuns
import Ect.Lowering.BadRegisters
import Ect.Lowering.Frameless
