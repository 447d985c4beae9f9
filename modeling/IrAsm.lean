import IrAsm.CommandLine
import IrAsm.Compile
import IrAsm.Config
import IrAsm.Error
import IrAsm.FileTree
import IrAsm.Flow
import IrAsm.Flow.Liveness
import IrAsm.Graph
import IrAsm.Graph.Coloring
import IrAsm.Graph.Interference
import IrAsm.Instr
import IrAsm.Instr.Read
import IrAsm.Main
import IrAsm.Module
import IrAsm.Module.Read
import IrAsm.Module.Verify
import IrAsm.NameSet
import IrAsm.Opcode
import IrAsm.ParseError
import IrAsm.Path
import IrAsm.Proofs.Bounds
import IrAsm.Proofs.Bytes
import IrAsm.Proofs.Coloring
import IrAsm.Proofs.Core
import IrAsm.Proofs.Cursor
import IrAsm.Proofs.Dataflow
import IrAsm.Proofs.Degrees
import IrAsm.Proofs.Descent
import IrAsm.Proofs.Eval
import IrAsm.Proofs.Flow
import IrAsm.Proofs.FrontEnd
import IrAsm.Proofs.Graph
import IrAsm.Proofs.InstrText
import IrAsm.Proofs.Integers
import IrAsm.Proofs.Interference
import IrAsm.Proofs.LabelText
import IrAsm.Proofs.Lines
import IrAsm.Proofs.Liveness
import IrAsm.Proofs.Palette
import IrAsm.Proofs.Partition
import IrAsm.Proofs.Path
import IrAsm.Proofs.Progress
import IrAsm.Proofs.Reading
import IrAsm.Proofs.Refine
import IrAsm.Proofs.Scan
import IrAsm.Proofs.Separation
import IrAsm.Proofs.Shape
import IrAsm.Proofs.SourceText
import IrAsm.Proofs.Steps
import IrAsm.Proofs.Success
import IrAsm.Proofs.TypeGrammar
import IrAsm.Proofs.TypeText
import IrAsm.Proofs.Verify
import IrAsm.Proofs.Walk
import IrAsm.Proofs.X86.Annotation
import IrAsm.Proofs.X86.Bindings
import IrAsm.Proofs.X86.Call
import IrAsm.Proofs.X86.Context
import IrAsm.Proofs.X86.Deletion
import IrAsm.Proofs.X86.Displacements
import IrAsm.Proofs.X86.Faults
import IrAsm.Proofs.X86.Footprint
import IrAsm.Proofs.X86.Frame
import IrAsm.Proofs.X86.Globals
import IrAsm.Proofs.X86.Immediates
import IrAsm.Proofs.X86.Internal
import IrAsm.Proofs.X86.Labels
import IrAsm.Proofs.X86.Layout
import IrAsm.Proofs.X86.LineText
import IrAsm.Proofs.X86.Locals
import IrAsm.Proofs.X86.Machine
import IrAsm.Proofs.X86.Marshal
import IrAsm.Proofs.X86.NormalForm
import IrAsm.Proofs.X86.Operations
import IrAsm.Proofs.X86.Outcome
import IrAsm.Proofs.X86.Peephole
import IrAsm.Proofs.X86.Prologue
import IrAsm.Proofs.X86.Propagation
import IrAsm.Proofs.X86.Select
import IrAsm.Proofs.X86.Sequence
import IrAsm.Proofs.X86.Simulation
import IrAsm.Proofs.X86.Stack
import IrAsm.Proofs.X86.States
import IrAsm.Proofs.X86.Survival
import IrAsm.Proofs.X86.Symbols
import IrAsm.Report
import IrAsm.Session
import IrAsm.Text.Blank
import IrAsm.Text.Decimal
import IrAsm.Text.Split
import IrAsm.Token
import IrAsm.Token.Parser
import IrAsm.Token.Scan
import IrAsm.Ty
import IrAsm.Ty.Read
import IrAsm.Word
import IrAsm.X86.Assembly
import IrAsm.X86.Code
import IrAsm.X86.Frame
import IrAsm.X86.Peephole
import IrAsm.X86.Reg
import IrAsm.X86.Select
import IrAsm.X86.Sequence
import IrAsm.Proofs.X86.Restoration
