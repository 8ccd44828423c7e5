import ContractLowering.Binding
import ContractLowering.Declarations.Ids
import ContractLowering.Operator
import ContractLowering.Origin

/-!
Expression trees after name and type resolution. Every node has a site: its origin and the scope
that it stands in. Placeholders are replaced by literals before code is generated.
-/

namespace ContractLowering

structure Site extends Origin where
  scope : ScopeId
deriving DecidableEq, Repr

inductive Expr where
  | not (site : Site) (x : Expr)
  | binary (site : Site) (op : Operator) (left right : Expr)
  | call (site : Site) (binding : Binding) (args : List Expr)
  | lit (site : Site) (value : String) (kind : Kind)
  | placeholder (site : Site) (name : String)
  | var (site : Site) (id : VarId)
  | const (site : Site) (id : ConstId)
deriving Repr

namespace Expr

def site : Expr → Site
  | not s _ | binary s _ _ _ | call s _ _ | lit s _ _ | placeholder s _ | var s _ | const s _ => s

def origin (e : Expr) : Origin := e.site.toOrigin

mutual

/-- Some node of the tree has this number. -/
def contains (id : NodeId) : Expr → Bool
  | not s x => s.node = id || x.contains id
  | binary s _ l r => s.node = id || l.contains id || r.contains id
  | call s _ args => s.node = id || anyContains id args
  | lit s _ _ | placeholder s _ | var s _ | const s _ => s.node = id

def anyContains (id : NodeId) : List Expr → Bool
  | [] => false
  | e :: es => e.contains id || anyContains id es

end

mutual

def hasPlaceholder : Expr → Bool
  | placeholder _ _ => true
  | not _ x => x.hasPlaceholder
  | binary _ _ l r => l.hasPlaceholder || r.hasPlaceholder
  | call _ _ args => anyHasPlaceholder args
  | lit .. | var .. | const .. => false

def anyHasPlaceholder : List Expr → Bool
  | [] => false
  | e :: es => e.hasPlaceholder || anyHasPlaceholder es

end

mutual

def same : Expr → Expr → Bool
  | not s x, not t y => s = t && x.same y
  | binary s op l r, binary t op' l' r' => s = t && op = op' && l.same l' && r.same r'
  | call s b args, call t b' args' => s = t && b = b' && allSame args args'
  | lit s v k, lit t v' k' => s = t && v = v' && k = k'
  | placeholder s n, placeholder t n' => s = t && n = n'
  | var s i, var t j => s = t && i = j
  | const s i, const t j => s = t && i = j
  | _, _ => false

def allSame : List Expr → List Expr → Bool
  | [], [] => true
  | e :: es, f :: fs => e.same f && allSame es fs
  | _, _ => false

end

mutual

theorem same_iff : ∀ (e f : Expr), e.same f = true ↔ e = f
  | not s x, f => by
    cases f <;> simp [same, same_iff x]
  | binary s op l r, f => by
    cases f <;> simp [same, same_iff l, same_iff r, and_assoc]
  | call s b args, f => by
    cases f <;> simp [same, allSame_iff args, and_assoc]
  | lit .., f | placeholder .., f | var .., f | const .., f => by
    cases f <;> simp [same, and_assoc]

theorem allSame_iff : ∀ (es fs : List Expr), allSame es fs = true ↔ es = fs
  | [], fs => by cases fs <;> simp [allSame]
  | e :: es, fs => by cases fs <;> simp [allSame, same_iff e, allSame_iff es]

end

instance : DecidableEq Expr := fun e f => decidable_of_iff _ (same_iff e f)

end Expr
end ContractLowering
