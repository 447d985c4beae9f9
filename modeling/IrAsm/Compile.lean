import IrAsm.Graph.Interference
import IrAsm.Module.Verify
import IrAsm.Report
import IrAsm.X86.Assembly
import IrAsm.X86.Peephole
import IrAsm.X86.Select

/-!
# Compilation

`Function.compile` takes a function through liveness, coloring, selection and, if asked for, the
peephole passes. `Module.compile` verifies a module and compiles its functions into one assembly
file; the first function that fails decides the error.
-/

namespace IrAsm

/-- The number of registers to color with is one that the target has. -/
def Config.check (config : Config) : Except Error Unit :=
  let available := X86.Reg.palette.length
  if 1 ≤ config.registers ∧ config.registers ≤ available then .ok ()
  else .error (.config (.registers config.registers available))

structure CompiledFunction where
  name : String
  lines : List X86.Line
  report : Report
  deriving DecidableEq

namespace Function

/-- The flow, the liveness and the interference graph of a function. -/
def analyze (f : Function) : Except Error (Flow × Liveness × Graph) := do
  let flow ← Flow.build f
  let liveness ← flow.analyze f.name
  return (flow, liveness, Graph.interference flow.points liveness)

/-- Compiles a function that need not be verified. -/
def compile (f : Function) (config : Config) : Except Error CompiledFunction := do
  config.check
  let (flow, liveness, graph) ← f.analyze
  let coloring ← (Coloring.find graph flow.temporaries config.registers).mapError fun stuck =>
    Error.infeasible f.name config.registers stuck.toList
  let lines ← X86.Context.emit ⟨f, flow, liveness, coloring, config⟩
  let lines := if config.optimize then X86.Peephole.runAll X86.Line.shape lines else lines
  return ⟨f.name, lines, ⟨f.name, graph, coloring⟩⟩

end Function

structure Compilation where
  assembly : String
  /-- One for each function, in order. -/
  reports : List Report
  deriving DecidableEq

/-- Verifies and compiles a module. -/
def Module.compile (m : Module) (config : Config) : Except Error Compilation := do
  config.check
  m.verify
  let compiled ← m.functions.mapM (·.compile config)
  let functions := compiled.map fun f => f.lines.map X86.Line.text
  let assembly ← X86.Assembly.text config.fileName m.globals functions
  return ⟨assembly, compiled.map CompiledFunction.report⟩

end IrAsm
