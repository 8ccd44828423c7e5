/-!
Machine registers, numbered from zero.
-/

namespace ContractLowering

structure Register where
  index : Nat
deriving DecidableEq, Repr

def Register.text (reg : Register) : String := "r" ++ reg.index.repr

end ContractLowering
