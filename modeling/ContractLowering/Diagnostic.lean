import ContractLowering.Declarations.Ids
import ContractLowering.Origin
import ContractLowering.Register

/-!
What can go wrong. A diagnostic is a fault that lowering reports with a message; it is internal
when no source text can cause it on its own, and a fault of the user otherwise. A failure is a
diagnostic, the use of a number that the declarations never handed out, or a scope whose chain of
parents has no end.
-/

namespace ContractLowering

inductive Severity where
  | internal
  | user
deriving DecidableEq, Repr

inductive Diagnostic where
  | unsupportedOperator (node : NodeId) (symbol : String)
  | unexpandedPlaceholder (node : NodeId) (name : String)
  | doubleRelease (register : Register)
  | registerRebound (name : String)
  | uninitializedVariable (origin : Origin) (name : String)
  | unknownPlaceholder (origin : Origin) (name : String)
  | placeholderOutsideModule (origin : Origin) (name : String)
  | missingSymbol (origin : Origin) (owner : String)
  | missingReturn (origin : Origin) (method : String)
  | registerLimit (origin : Origin) (limit : Nat)
deriving DecidableEq, Repr

namespace Diagnostic

def severity : Diagnostic → Severity
  | unsupportedOperator .. | unexpandedPlaceholder .. | doubleRelease .. | registerRebound .. =>
    .internal
  | _ => .user

def isInternal (d : Diagnostic) : Bool := d.severity = .internal

def node? : Diagnostic → Option NodeId
  | unsupportedOperator node _ | unexpandedPlaceholder node _ => some node
  | doubleRelease _ | registerRebound _ => none
  | uninitializedVariable origin _ | unknownPlaceholder origin _
  | placeholderOutsideModule origin _ | missingSymbol origin _
  | missingReturn origin _ | registerLimit origin _ => some origin.node

def atNode (node : NodeId) (what : String) : String :=
  "Internal error at node " ++ node.text ++ ": " ++ what

def atLine (origin : Origin) (what : String) : String :=
  "Compile error at line " ++ origin.line.repr ++ ": " ++ what

def message : Diagnostic → String
  | unsupportedOperator node symbol => atNode node ("no opcode for operator " ++ symbol)
  | unexpandedPlaceholder node name =>
    atNode node ("macro $" ++ name ++ " was not expanded before code generation")
  | doubleRelease register => "Internal error: register " ++ register.text ++ " released twice"
  | registerRebound name =>
    "Internal error: variable " ++ name ++ " is already bound to a register"
  | uninitializedVariable origin name => atLine origin ("uninitialized variable " ++ name)
  | unknownPlaceholder origin name => atLine origin ("unknown macro $" ++ name)
  | placeholderOutsideModule origin name =>
    atLine origin ("macro $" ++ name ++ " used outside of a module")
  | missingSymbol origin owner => atLine origin ("module " ++ owner ++ " has no symbol")
  | missingReturn origin method => atLine origin ("method " ++ method ++ " must return a value")
  | registerLimit origin limit =>
    atLine origin ("expression needs more than " ++ limit.repr ++ " registers")

end Diagnostic

inductive Failure where
  | reported (diagnostic : Diagnostic)
  | unissuedScope (id : ScopeId)
  | unissuedVariable (id : VarId)
  | unissuedConstant (id : ConstId)
  | endlessScopes
deriving DecidableEq, Repr

end ContractLowering
