import ContractLowering.Expr.Basic

/-!
Statements of the source language.
-/

namespace ContractLowering

inductive Stmt where
  | expr (origin : Origin) (x : Expr)
  | assign (origin : Origin) (target : VarId) (value : Expr)
  | ret (origin : Origin) (value : Option Expr)
  | block (origin : Origin) (body : List Stmt)
deriving Repr

namespace Stmt

mutual

/-- A return stands in the statement, at any depth. -/
def hasReturn : Stmt → Bool
  | ret _ _ => true
  | block _ body => anyHasReturn body
  | expr .. | assign .. => false

def anyHasReturn : List Stmt → Bool
  | [] => false
  | s :: ss => s.hasReturn || anyHasReturn ss

end

mutual

/-- The expressions of a statement in order, those of nested statements included. -/
def expressions : Stmt → List Expr
  | expr _ x => [x]
  | assign _ _ value => [value]
  | ret _ value => value.toList
  | block _ body => allExpressions body

def allExpressions : List Stmt → List Expr
  | [] => []
  | s :: ss => s.expressions ++ allExpressions ss

end

end Stmt

end ContractLowering
