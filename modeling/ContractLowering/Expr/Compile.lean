import ContractLowering.Expr.Expand
import ContractLowering.Expr.Lower

/-!
Compiling single expressions.
-/

namespace ContractLowering

/-- Replaces the placeholders and generates code. Gives the tree without placeholders, and the
register of its value. -/
def Expr.compile (decls : Declarations) (e : Expr) : GenM (Expr × Register) := do
  let e ← MonadExcept.ofExcept (e.expand decls).result
  return (e, ← e.lower decls)

end ContractLowering
