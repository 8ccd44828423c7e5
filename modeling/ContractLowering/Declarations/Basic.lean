import ContractLowering.Diagnostic
import ContractLowering.Kind

/-!
Declaration tables. Scopes form a forest by their parents, and a scope may be that of a module.
A variable may be bound to the register that holds its value, and to one register at a time.
Numbers are handed out in order of declaration; using any other number is a failure.
-/

namespace ContractLowering

inductive ModuleKind where
  | contract
  | token
  | nft
  | script
deriving DecidableEq, Repr

structure ModuleInfo where
  name : String
  kind : ModuleKind
  symbol : Option String
deriving DecidableEq, Repr

namespace ModuleInfo

def contract (name : String) : ModuleInfo := ⟨name, .contract, none⟩

def token (name : String) (kind : ModuleKind) (symbol : String) : ModuleInfo :=
  ⟨name, kind, some symbol⟩

end ModuleInfo

structure Scope where
  name : String
  parent : Option ScopeId
  info : Option ModuleInfo
deriving DecidableEq, Repr

/-- The outermost scope belongs to no module. -/
def Scope.root : Scope := ⟨"global", none, none⟩

structure Variable where
  name : String
  kind : Kind
  register : Option Register
deriving DecidableEq, Repr

namespace Variable

def isBoundIn (regs : List Register) (v : Variable) : Bool := v.register.any (· ∈ regs)

/-- Forgets the register if it is one of these. -/
def unbind (regs : List Register) (v : Variable) : Variable :=
  if v.isBoundIn regs then { v with register := none } else v

end Variable

structure Constant where
  name : String
  kind : Kind
  value : String
deriving DecidableEq, Repr

structure Declarations where
  scopes : List Scope := [Scope.root]
  vars : List Variable := []
  consts : List Constant := []
deriving DecidableEq, Repr

namespace Declarations

def addModule (decls : Declarations) (info : ModuleInfo) : ScopeId × Declarations :=
  (⟨decls.scopes.length⟩,
    { decls with scopes := decls.scopes ++ [⟨info.name, some .root, some info⟩] })

/-- The parent need not be declared yet, or ever. -/
def addScope (decls : Declarations) (name : String) (parent : ScopeId) :
    ScopeId × Declarations :=
  (⟨decls.scopes.length⟩, { decls with scopes := decls.scopes ++ [⟨name, some parent, none⟩] })

def declareVariable (decls : Declarations) (name : String) (kind : Kind) :
    VarId × Declarations :=
  (⟨decls.vars.length⟩,
    { decls with vars := decls.vars ++ [⟨name, kind, none⟩] })

def declareConstant (decls : Declarations) (name : String) (kind : Kind) (value : String) :
    ConstId × Declarations :=
  (⟨decls.consts.length⟩,
    { decls with consts := decls.consts ++ [⟨name, kind, value⟩] })

def getScope (decls : Declarations) (id : ScopeId) : Except Failure Scope :=
  match decls.scopes[id.index]? with
  | some scope => .ok scope
  | none => .error (.unissuedScope id)

def getVariable (decls : Declarations) (id : VarId) : Except Failure Variable :=
  match decls.vars[id.index]? with
  | some v => .ok v
  | none => .error (.unissuedVariable id)

def getConstant (decls : Declarations) (id : ConstId) : Except Failure Constant :=
  match decls.consts[id.index]? with
  | some c => .ok c
  | none => .error (.unissuedConstant id)

/-- A variable that already has a register keeps it, and the attempt is a fault. -/
def bind (decls : Declarations) (id : VarId) (reg : Register) : Except Failure Declarations :=
  match decls.getVariable id with
  | .error e => .error e
  | .ok v =>
    if v.register.isSome then .error (.reported (.registerRebound v.name))
    else .ok { decls with
      vars := decls.vars.set id.index { v with register := some reg } }

def countBoundIn (decls : Declarations) (regs : List Register) : Nat :=
  decls.vars.countP (Variable.isBoundIn regs)

def unbind (decls : Declarations) (regs : List Register) : Declarations :=
  { decls with vars := decls.vars.map (Variable.unbind regs) }

end Declarations
end ContractLowering
