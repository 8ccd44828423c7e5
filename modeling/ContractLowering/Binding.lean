import ContractLowering.Kind

/-!
What a call is bound to: a builtin of the machine, a method of another contract, or a method that
is declared but has no implementation.
-/

namespace ContractLowering

inductive Implementation where
  | builtin
  | contract (name : String)
  | missing
deriving DecidableEq, Repr

/-- The callee is the name that the machine knows the method by. -/
structure Binding where
  name : String
  returns : Kind
  implementation : Implementation
  callee : String
deriving DecidableEq, Repr

namespace Binding

def toBuiltin (name callee : String) (returns : Kind) : Binding :=
  ⟨name, returns, .builtin, callee⟩

def toContract (contract name : String) (returns : Kind) : Binding :=
  ⟨name, returns, .contract contract, name⟩

def unimplemented (name : String) (returns : Kind) : Binding :=
  ⟨name, returns, .missing, name⟩

end Binding
end ContractLowering
