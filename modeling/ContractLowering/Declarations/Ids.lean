/-!
Numbers of scopes, variables and constants, in the order in which they are declared.
-/

namespace ContractLowering

structure ScopeId where
  index : Nat
deriving DecidableEq, Repr

structure VarId where
  index : Nat
deriving DecidableEq, Repr

structure ConstId where
  index : Nat
deriving DecidableEq, Repr

/-- The outermost scope, which every declaration table starts with. -/
def ScopeId.root : ScopeId := ⟨0⟩

end ContractLowering
