import ContractLowering.Declarations.Basic

/-!
The module that a scope belongs to: its own, or that of the nearest ancestor which has one. As
the parent of a scope is not checked when the scope is added, the chain of parents may leave the
table, which is a failure, or run in a circle, which is one too. A chain that ends looks at no
scope twice, so it ends within as many looks as there are scopes, or one more to find that a
number was never handed out.
-/

namespace ContractLowering
namespace Declarations

/-- Looks at no more than the given number of scopes. -/
def moduleWithin (decls : Declarations) : Nat → ScopeId → Except Failure (Option ModuleInfo)
  | 0, _ => .error .endlessScopes
  | looks + 1, id =>
    match decls.getScope id with
    | .error e => .error e
    | .ok { info := some info, .. } => .ok (some info)
    | .ok { info := none, parent := none, .. } => .ok none
    | .ok { info := none, parent := some parent, .. } => decls.moduleWithin looks parent

def enclosingModule (decls : Declarations) (id : ScopeId) : Except Failure (Option ModuleInfo) :=
  decls.moduleWithin (decls.scopes.length + 1) id

end Declarations
end ContractLowering
