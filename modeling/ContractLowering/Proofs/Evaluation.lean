import ContractLowering.Proofs.Machine

/-!
The meaning of an expression, without registers and without code. An operator evaluates left
before right. The arguments of a call are evaluated from last to first and each value is pushed at
once; then the call is made and its result popped. A literal address is made at run time from its
text, by a builtin. Variables are read from an environment, and a variable that is not in it, a
constant that was never declared and a placeholder have no meaning.
-/

namespace ContractLowering

variable {V W : Type}

/-- The value of a constant, by its kind. -/
def Kind.denote (vm : Machine V W) (value : String) : Kind → Except Fault V
  | string => .ok (vm.text value)
  | void | bool | number | address | record _ | unknown => vm.raw value

/-- A call whose arguments are on the stack, and its result. -/
def Binding.perform (vm : Machine V W) (binding : Binding) : HostM V W V :=
  match binding.implementation with
  | .builtin => do
    vm.builtin (vm.text binding.callee)
    HostM.pop
  | .contract name => do
    HostM.push (vm.text binding.callee)
    let context ← HostM.attempt (vm.context (vm.text name))
    vm.enter context
    HostM.pop
  | .missing => throw (.aborted binding.notImplemented)

namespace Expr

/-- The value that a literal stands for, once its text was read. -/
def construct (vm : Machine V W) (kind : Kind) (v : V) : HostM V W V :=
  if kind = .address then do
    HostM.push v
    vm.builtin (vm.text addressConstructor)
    HostM.pop
  else return v

mutual

def eval (vm : Machine V W) (consts : List Constant) (env : VarId → Option V) :
    Expr → HostM V W V
  | not _ x => do
    let v ← x.eval vm consts env
    HostM.attempt (vm.negate v)
  | binary _ op left right => do
    let a ← left.eval vm consts env
    let b ← right.eval vm consts env
    HostM.attempt (vm.operate op a b)
  | call _ binding args => do
    evalArgs vm consts env args
    binding.perform vm
  | lit _ value kind => do
    let v ← HostM.attempt (kind.denote vm value)
    construct vm kind v
  | placeholder _ _ => throw .stuck
  | var _ id =>
    match env id with
    | some v => return v
    | none => throw .stuck
  | const _ id =>
    match consts[id.index]? with
    | some c => HostM.attempt (c.kind.denote vm c.value)
    | none => throw .stuck

/-- Pushes the values of the arguments, that of the last one first. -/
def evalArgs (vm : Machine V W) (consts : List Constant) (env : VarId → Option V) :
    List Expr → HostM V W Unit
  | [] => return
  | arg :: args => do
    evalArgs vm consts env args
    let v ← arg.eval vm consts env
    HostM.push v

end

end Expr
end ContractLowering
