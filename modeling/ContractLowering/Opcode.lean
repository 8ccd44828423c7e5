import ContractLowering.Operator

/-!
Operation codes of the machine, and the operators it can carry out directly.
-/

namespace ContractLowering

inductive Opcode where
  | load | copy | push | pop | not
  | add | sub | mul | div | mod
  | equal | lt | lte | gt | gte
  | extCall | ctx | switch | throw | ret
deriving DecidableEq, Repr

def Opcode.mnemonic : Opcode → String
  | load => "LOAD"
  | copy => "COPY"
  | push => "PUSH"
  | pop => "POP"
  | not => "NOT"
  | add => "ADD"
  | sub => "SUB"
  | mul => "MUL"
  | div => "DIV"
  | mod => "MOD"
  | equal => "EQUAL"
  | lt => "LT"
  | lte => "LTE"
  | gt => "GT"
  | gte => "GTE"
  | extCall => "EXTCALL"
  | ctx => "CTX"
  | switch => "SWITCH"
  | throw => "THROW"
  | ret => "RET"

/-- Inequality and the connectives have no operation of their own. -/
def Operator.opcode? : Operator → Option Opcode
  | add => some .add
  | sub => some .sub
  | mul => some .mul
  | div => some .div
  | mod => some .mod
  | equal => some .equal
  | less => some .lt
  | lessOrEqual => some .lte
  | greater => some .gt
  | greaterOrEqual => some .gte
  | notEqual | and | or | xor => none

end ContractLowering
