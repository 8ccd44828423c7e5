import ContractLowering.Compilation
import ContractLowering.Expr.Lower
import ContractLowering.Stmt.Basic

/-!
Code for statements. A variable gets its register when it is first assigned to and keeps it;
nothing else stays live behind a statement.
-/

namespace ContractLowering
namespace Stmt

open Compilation

/-- The register that an assignment writes to: the one that the variable has, live or not, or else
a new one that it is bound to. -/
def targetRegister (origin : Origin) (id : VarId) : CompileM Register := do
  let v ← getVariable id
  match v.register with
  | some reg => return reg
  | none =>
    let reg ← allocFor origin v
    bind id reg
    return reg

mutual

def lower : Stmt → CompileM Unit
  | expr _ x => do
    let reg ← generate x.lower
    release reg
  | assign origin target value => do
    let reg ← generate value.lower
    let dest ← targetRegister origin target
    emit origin .copy [.reg reg, .reg dest]
    release reg
  | ret origin none => emit origin .ret []
  | ret origin (some value) => do
    let reg ← generate value.lower
    emit origin .push [.reg reg]
    release reg
    emit origin .ret []
  | block _ body => lowerAll body

def lowerAll : List Stmt → CompileM Unit
  | [] => return
  | s :: ss => do
    s.lower
    lowerAll ss

end

end Stmt
end ContractLowering
