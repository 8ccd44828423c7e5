import ContractLowering.Instr

/-!
Code as text for a reader: the plain text, the listing with source lines, and the dump with
positions and node numbers.
-/

namespace ContractLowering
namespace Listing

/-- One line for each instruction. -/
def plain (code : List Instr) : String :=
  String.join (code.map fun instr => instr.text ++ "\n")

/-- A comment names the source line in front of each instruction that comes from another line
than the one before it. `shown` is the line named last. -/
def withLines (shown : Option Nat) : List Instr → String
  | [] => ""
  | instr :: code =>
    let comment :=
      if shown = some instr.origin.line then "" else "// line " ++ instr.origin.line.repr ++ "\n"
    comment ++ instr.text ++ "\n" ++ withLines (some instr.origin.line) code

def render (sourceMap : Bool) (code : List Instr) : String :=
  if sourceMap then withLines none code else plain code

/-- Fills up on the left with zeros. -/
def zeroPadded (width n : Nat) : String :=
  String.ofList (List.replicate (width - n.repr.length) '0') ++ n.repr

/-- Fills up on the right with blanks. -/
def blankPadded (width : Nat) (text : String) : String :=
  text ++ String.ofList (List.replicate (width - text.length) ' ')

def dumpRule : String := String.ofList (List.replicate 59 '═')

def dumpTitle : String := String.ofList (List.replicate 20 ' ') ++ "CODE DUMP"

def dumpLines (position : Nat) : List Instr → List String
  | [] => []
  | instr :: code =>
    (zeroPadded 4 position ++ ": " ++ blankPadded 40 instr.text ++ " ; node " ++
      instr.origin.node.text) :: dumpLines (position + 1) code

/-- The dump ends with an empty line. -/
def dump (code : List Instr) : String :=
  String.join
    (([dumpRule, dumpTitle, dumpRule] ++ dumpLines 0 code ++ [dumpRule, ""]).map (· ++ "\n"))

end Listing
end ContractLowering
