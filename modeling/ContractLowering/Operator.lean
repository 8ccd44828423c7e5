/-!
Binary operators of the source language.
-/

namespace ContractLowering

inductive Operator where
  | add | sub | mul | div | mod
  | equal | notEqual
  | less | lessOrEqual | greater | greaterOrEqual
  | and | or | xor
deriving DecidableEq, Repr

namespace Operator

def symbol : Operator → String
  | add => "+"
  | sub => "-"
  | mul => "*"
  | div => "/"
  | mod => "%"
  | equal => "=="
  | notEqual => "!="
  | less => "<"
  | lessOrEqual => "<="
  | greater => ">"
  | greaterOrEqual => ">="
  | and => "and"
  | or => "or"
  | xor => "xor"

/-- Logical operators have a truth value, whatever their operands are. -/
def isLogical : Operator → Bool
  | add | sub | mul | div | mod => false
  | _ => true

end Operator
end ContractLowering
