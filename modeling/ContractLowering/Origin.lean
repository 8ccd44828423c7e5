/-!
Where a piece of code comes from. Every node of a source tree has a number and a source line,
and every instruction and every register remembers the pair of the node it was made for.
-/

namespace ContractLowering

/-- The number of a node. Numbers are machine words, so the exported form is bounded. -/
structure NodeId where
  number : UInt32
deriving DecidableEq, Repr

def NodeId.text (id : NodeId) : String := "#" ++ id.number.toNat.repr

structure Origin where
  node : NodeId
  line : Nat
deriving DecidableEq, Repr

end ContractLowering
