import ContractLowering.Expr.Basic
import ContractLowering.Placeholder
import ContractLowering.Progress

/-!
Replacing placeholders in expressions. A placeholder becomes a literal on the same site; every
other node stays. Nodes are visited from left to right.
-/

namespace ContractLowering
namespace Expr

/-- The literal for a placeholder of this name at a site, looked up from a scope. -/
def literalFor (decls : Declarations) (site : Site) (name : String) (scope : ScopeId) :
    Except Failure Expr :=
  (Placeholder.resolve decls site.toOrigin name scope).map fun (value, kind) => lit site value kind

mutual

def expand (decls : Declarations) : Expr → Progress Expr
  | placeholder s name =>
    match literalFor decls s name s.scope with
    | .ok e => .done e
    | .error failure => .stopped (placeholder s name) failure
  | not s x => (x.expand decls).map (not s)
  | binary s op l r => .both (binary s op) (l.expand decls) r (r.expand decls)
  | call s binding args => (expandAll decls args).map (call s binding)
  | lit s value kind => .done (lit s value kind)
  | var s id => .done (var s id)
  | const s id => .done (const s id)

def expandAll (decls : Declarations) : List Expr → Progress (List Expr)
  | [] => .done []
  | e :: es => .both List.cons (e.expand decls) es (expandAll decls es)

end

end Expr
end ContractLowering
