import ContractLowering.Declarations.Basic
import ContractLowering.Generator

/-!
The state of a compilation and its steps: those of code generation, which leave the declarations
alone, and the binding of variables to registers.
-/

namespace ContractLowering

/-- What a compilation works on: the declarations, whose variables it binds, and the generator. -/
structure Compilation where
  decls : Declarations
  gen : Generator
deriving DecidableEq, Repr

/-- Steps of a compilation. The state after a failure is the one it happened in. -/
abbrev CompileM := EStateM Failure Compilation

namespace Compilation

/-- Runs steps of code generation that only read the declarations. -/
def generate {α : Type} (step : Declarations → GenM α) : CompileM α := fun c =>
  match step c.decls c.gen with
  | .ok a gen => .ok a { c with gen }
  | .error e gen => .error e { c with gen }

def getVariable (id : VarId) : CompileM Variable := do
  MonadExcept.ofExcept ((← get).decls.getVariable id)

def bind (id : VarId) (reg : Register) : CompileM Unit := do
  let decls ← MonadExcept.ofExcept ((← get).decls.bind id reg)
  modify fun c => { c with decls }

/-- Takes a register for a variable, known to the reader by the variable's name. -/
def allocFor (origin : Origin) (v : Variable) : CompileM Register :=
  generate fun _ => Generator.alloc origin (some v.name)

def emit (origin : Origin) (opcode : Opcode) (operands : List Operand) : CompileM Unit :=
  generate fun _ => Generator.emit origin opcode operands

def release (reg : Register) : CompileM Unit :=
  generate fun _ => Generator.release reg

end Compilation
end ContractLowering
