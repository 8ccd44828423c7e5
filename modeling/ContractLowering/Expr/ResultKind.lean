import ContractLowering.Declarations.Basic
import ContractLowering.Expr.Basic

/-!
The kind of an expression's value. The operands of an arithmetic operator are taken to agree, so
the left one decides.
-/

namespace ContractLowering

def Expr.resultKind (decls : Declarations) : Expr → Except Failure Kind
  | .not _ _ => .ok .bool
  | .binary _ op left _ => if op.isLogical then .ok .bool else left.resultKind decls
  | .call _ binding _ => .ok binding.returns
  | .lit _ _ kind => .ok kind
  | .placeholder _ _ => .ok .unknown
  | .var _ id => (decls.getVariable id).map Variable.kind
  | .const _ id => (decls.getConstant id).map Constant.kind

end ContractLowering
