/-!
Values of the exchange format: JSON, as far as the exported data uses it. A value that is well
formed but that no exported datum contains, such as a truth value or a fraction, is only known to
be foreign. Members of an object keep their order and may repeat.
-/

namespace ContractLowering

inductive Json where
  | null
  | nat (n : Nat)
  | str (text : String)
  | arr (items : List Json)
  | obj (members : List (String × Json))
  | foreign
deriving Repr, Inhabited

end ContractLowering
