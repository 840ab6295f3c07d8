import Bleach.Base.Transition
import Bleach.Base.ByteMemory
import Bleach.Base.OrderedMap
import Bleach.Config
import Bleach.Lifter.RegisterCopies
import Bleach.CallProtocol
import Bleach.EntryBlock
import Bleach.BlockEndCalls
import Bleach.StackPointerTags
import Bleach.BaseRegister
import Bleach.DirectCalls
import Bleach.IndirectBranches
import Bleach.IndirectControl
import Bleach.Simulation
import Bleach.AccessWidths
import Bleach.Mctomir.ControlFlow
import Bleach.Mctomir.BlockOwnership
import Bleach.Mctomir.Disassembly
import Bleach.Mctomir.Displacements
import Bleach.Mctomir.Aliases
import Bleach.Mctomir.CallTargets
import Bleach.Mctomir.SideTables
import Bleach.Mctomir.BlockRanges
import Bleach.Mctomir.OperandFidelity
import Bleach.SectionTable
import Bleach.LoadStore
import Bleach.BranchChains
import Bleach.SavedRegisters
import Bleach.RecordPairing
import Bleach.StackUnits
import Bleach.CallTypes
import Bleach.ConstantRegisters
import Bleach.MachineClone
import Bleach.Subregisters
import Bleach.Division
import Bleach.AddressConstants
import Bleach.Conversions
import Bleach.FloatClasses
import Bleach.Precisions
import Bleach.BranchTargets
import Bleach.ConfigOrder
import Bleach.RegisterWrites
import Bleach.PointerChains
import Bleach.StackBounds
import Bleach.StackEvents
import Bleach.CopyIndices
import Bleach.AddressLookup
import Bleach.CompareBranch
import Bleach.ShiftedImmediates
import Bleach.ElfSections
import Bleach.ConfigText
import Bleach.TemplateExpansion
import Bleach.ProgramPipeline
import Bleach.Rv64Lifting
import Bleach.SymbolFile
import Bleach.Base.StaleMemory
import Bleach.Rv64Calls
import Bleach.Rv64Programs
