import ContractLowering.Instr
import ContractLowering.Pool

/-!
The code generator's state and its basic steps: taking a register, giving it back, and emitting
an instruction. Each register event enters the journal with the number of instructions emitted
before it. A step that fails leaves the state alone, but a sequence of steps that fails keeps
what its earlier steps did.
-/

namespace ContractLowering

inductive RegisterAction where
  | allocated
  | released
deriving DecidableEq, Repr

structure RegisterEvent where
  position : Nat
  action : RegisterAction
  register : Register
deriving DecidableEq, Repr

structure Generator where
  pool : Pool := {}
  code : List Instr := []
  journal : List RegisterEvent := []
  debugNames : Bool := true
deriving DecidableEq, Repr

/-- Steps of code generation. The state after a failure is the one it happened in. -/
abbrev GenM := EStateM Failure Generator

namespace Generator

def position (gen : Generator) : Nat := gen.code.length

def record (gen : Generator) (action : RegisterAction) (reg : Register) : Generator :=
  { gen with journal := gen.journal ++ [⟨gen.position, action, reg⟩] }

/-- Emits the instructions of one origin in order. -/
def emitAll (origin : Origin) (code : List (Opcode × List Operand)) : GenM Unit :=
  modify fun gen => { gen with code := gen.code ++ code.map fun c => ⟨c.1, c.2, origin⟩ }

def emit (origin : Origin) (opcode : Opcode) (operands : List Operand) : GenM Unit :=
  emitAll origin [(opcode, operands)]

/-- Takes a register and keeps the name it is given for. -/
def allocTagged (origin : Origin) (name : Option String) : GenM Register := fun gen =>
  match gen.pool.allocate origin name with
  | .ok (reg, pool) => .ok reg ({ gen with pool }.record .allocated reg)
  | .error d => .error (.reported d) gen

/-- Takes a register. Its name is kept only if the generator keeps names for the reader. -/
def alloc (origin : Origin) (name : Option String) : GenM Register := do
  allocTagged origin (if (← get).debugNames then name else none)

def release (reg : Register) : GenM Unit := fun gen =>
  match gen.pool.release reg with
  | .ok pool => .ok () ({ gen with pool }.record .released reg)
  | .error d => .error (.reported d) gen

end Generator
end ContractLowering
