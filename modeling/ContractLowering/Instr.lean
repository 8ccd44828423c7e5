import ContractLowering.Opcode
import ContractLowering.Origin
import ContractLowering.Register

/-!
Instructions and their text.

A string operand is written between quotation marks, with quotation marks and backslashes inside
it escaped, so that the mark which ends it is the first one that no backslash precedes. A raw
operand is written as it stands.
-/

namespace ContractLowering

inductive Operand where
  | reg (reg : Register)
  | str (text : String)
  | raw (text : String)
deriving DecidableEq, Repr

namespace Operand

def escape (c : Char) : List Char := if c = '\\' ∨ c = '"' then ['\\', c] else [c]

def text : Operand → String
  | reg r => r.text
  | str s => "\"" ++ String.ofList (s.toList.flatMap escape) ++ "\""
  | raw s => s

def register? : Operand → Option Register
  | reg r => some r
  | _ => none

end Operand

structure Instr where
  opcode : Opcode
  operands : List Operand
  origin : Origin
deriving DecidableEq, Repr

namespace Instr

/-- The mnemonic, then each operand behind a blank. -/
def text (instr : Instr) : String :=
  instr.operands.foldl (fun line operand => line ++ " " ++ operand.text) instr.opcode.mnemonic

def registers (instr : Instr) : List Register :=
  instr.operands.filterMap Operand.register?

end Instr
end ContractLowering
