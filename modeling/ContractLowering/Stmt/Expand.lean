import ContractLowering.Expr.Expand
import ContractLowering.Stmt.Basic

/-!
Replacing placeholders in statements, in the order of the source text.
-/

namespace ContractLowering
namespace Stmt

mutual

def expand (decls : Declarations) : Stmt → Progress Stmt
  | expr origin x => (x.expand decls).map (expr origin)
  | assign origin target value => (value.expand decls).map (assign origin target)
  | ret origin none => .done (ret origin none)
  | ret origin (some value) => (value.expand decls).map fun value => ret origin (some value)
  | block origin body => (expandAll decls body).map (block origin)

def expandAll (decls : Declarations) : List Stmt → Progress (List Stmt)
  | [] => .done []
  | s :: ss => .both List.cons (s.expand decls) ss (expandAll decls ss)

end

end Stmt

end ContractLowering
