import ContractLowering.Stmt.Basic

/-!
Methods of the source language. Parameters are variables of the declaration tables.
-/

namespace ContractLowering

structure Method where
  origin : Origin
  name : String
  scope : ScopeId
  params : List VarId
  returns : Kind
  body : List Stmt
  exported : Bool
deriving Repr

namespace Method

/-- The expressions of the body in order. -/
def expressions (method : Method) : List Expr := Stmt.allExpressions method.body

def hasReturn (method : Method) : Bool := Stmt.anyHasReturn method.body

end Method
end ContractLowering
