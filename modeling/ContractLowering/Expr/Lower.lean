import ContractLowering.Declarations.Basic
import ContractLowering.Expr.Basic
import ContractLowering.Generator

/-!
Code for expressions. The value of an expression ends up in one register that was free before;
the register belongs to whoever asked for the value, and everything else that was taken on the
way has been given back.

* a negation works in its operand's register;
* an operator runs left before right and then takes a third register for the result;
* a literal address is turned into one at run time by a builtin;
* a variable is copied out of its register, so that the copy can be given back;
* the arguments of a call are pushed from last to first, none of them held, and the result
  register is taken only then.
-/

namespace ContractLowering

/-- The builtin that makes an address of its text. -/
def addressConstructor : String := "Address()"

/-- A constant of this kind as an operand. -/
def Kind.constant (kind : Kind) (value : String) : Operand :=
  if kind.isQuoted then .str value else .raw value

def Kind.literalCode (kind : Kind) (value : String) (reg : Register) :
    List (Opcode × List Operand) :=
  (.load, [.reg reg, kind.constant value]) ::
    if kind = .address then
      [(.push, [.reg reg]), (.extCall, [.str addressConstructor]), (.pop, [.reg reg])]
    else []

namespace Binding

/-- What is said of a method that has no implementation. -/
def notImplemented (binding : Binding) : String :=
  "method " ++ binding.callee ++ " is not implemented"

/-- The call itself, once the arguments are on the stack. Its result ends up in the register,
unless the call never returns. -/
def callCode (binding : Binding) (reg : Register) : List (Opcode × List Operand) :=
  match binding.implementation with
  | .builtin =>
    [(.load, [.reg reg, .str binding.callee]), (.extCall, [.reg reg]), (.pop, [.reg reg])]
  | .contract name =>
    [(.load, [.reg reg, .str binding.callee]), (.push, [.reg reg]),
      (.load, [.reg reg, .str name]), (.ctx, [.reg reg, .reg reg]), (.switch, [.reg reg]),
      (.pop, [.reg reg])]
  | .missing => [(.throw, [.str binding.notImplemented])]

end Binding

namespace Expr

open Generator

/-- The register that holds the variable's value now. A register that was given back in the
meantime does not count. -/
def sourceRegister (decls : Declarations) (origin : Origin) (id : VarId) : GenM Register := do
  let v ← MonadExcept.ofExcept (decls.getVariable id)
  match v.register.filter (← get).pool.isLive with
  | some reg => return reg
  | none => throw (.reported (.uninitializedVariable origin v.name))

mutual

def lower (decls : Declarations) : Expr → GenM Register
  | not s x => do
    let reg ← x.lower decls
    emit s.toOrigin .not [.reg reg, .reg reg]
    return reg
  | binary s op left right =>
    match op.opcode? with
    | none => throw (.reported (.unsupportedOperator s.node op.symbol))
    | some opcode => do
      let l ← left.lower decls
      let r ← right.lower decls
      let reg ← alloc s.toOrigin none
      emit s.toOrigin opcode [.reg l, .reg r, .reg reg]
      release r
      release l
      return reg
  | call s binding args => do
    lowerArgs decls args
    let reg ← alloc s.toOrigin none
    emitAll s.toOrigin (binding.callCode reg)
    return reg
  | lit s value kind => do
    let reg ← alloc s.toOrigin none
    emitAll s.toOrigin (kind.literalCode value reg)
    return reg
  | placeholder s name => throw (.reported (.unexpandedPlaceholder s.node name))
  | var s id => do
    let source ← sourceRegister decls s.toOrigin id
    let reg ← alloc s.toOrigin none
    emit s.toOrigin .copy [.reg source, .reg reg]
    return reg
  | const s id => do
    let c ← MonadExcept.ofExcept (decls.getConstant id)
    let reg ← allocTagged s.toOrigin (some c.name)
    emit s.toOrigin .load [.reg reg, c.kind.constant c.value]
    return reg

/-- Pushes the arguments, the last one first. -/
def lowerArgs (decls : Declarations) : List Expr → GenM Unit
  | [] => return
  | arg :: args => do
    lowerArgs decls args
    let reg ← arg.lower decls
    emit arg.origin .push [.reg reg]
    release reg

end

end Expr
end ContractLowering
