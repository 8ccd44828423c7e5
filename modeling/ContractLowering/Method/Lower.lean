import ContractLowering.Interface.Basic
import ContractLowering.Stmt.Lower

/-!
Code for methods. The caller pushes the arguments from last to first, so the parameters are
popped in declared order. At its end a method gives back every register it took and did not give
back on the way, and no variable stays bound to one of those.
-/

namespace ContractLowering
namespace Method

open Compilation

def lowerParams (origin : Origin) : List VarId → CompileM Unit
  | [] => return
  | id :: ids => do
    let v ← getVariable id
    let reg ← allocFor origin v
    emit origin .pop [.reg reg]
    bind id reg
    lowerParams origin ids

def bindParams (method : Method) : CompileM Unit := lowerParams method.origin method.params

/-- A method without a result returns at its end; any other has to return somewhere. -/
def finish (method : Method) : GenM Unit :=
  if method.returns = .void then Generator.emit method.origin .ret []
  else if method.hasReturn then return
  else throw (.reported (.missingReturn method.origin method.name))

def releaseAll : List Register → CompileM Unit
  | [] => return
  | reg :: regs => do
    release reg
    releaseAll regs

/-- Gives back all live registers but these, the lowest first. -/
def releaseOthers (kept : List Register) : CompileM Unit := do
  let taken := (← get).gen.pool.liveRegisters.filter (· ∉ kept)
  releaseAll taken
  modify fun c => { c with decls := c.decls.unbind taken }

def describeParams : List VarId → CompileM (List Parameter)
  | [] => return []
  | id :: ids => do
    let v ← getVariable id
    return ⟨v.name, v.kind⟩ :: (← describeParams ids)

def lower (method : Method) : CompileM ExportedMethod := do
  let start ← get
  method.bindParams
  Stmt.lowerAll method.body
  generate fun _ => method.finish
  releaseOthers start.gen.pool.liveRegisters
  return ⟨method.name, method.returns, start.gen.position, ← describeParams method.params⟩

end Method
end ContractLowering
