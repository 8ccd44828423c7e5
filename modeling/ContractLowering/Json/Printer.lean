import ContractLowering.Json.Basic
import ContractLowering.Json.Text

/-!
Values as text, either without any blanks or with an entry to a line. An empty container is
written without a break in both. A foreign value is written as some other foreign value.
-/

namespace ContractLowering
namespace Json

structure Layout where
  /-- What stands in front of an entry of this depth, and of the mark that ends its container. -/
  lineBreak : Nat → List Char
  afterColon : List Char

def Layout.compact : Layout := ⟨fun _ => [], []⟩

/-- Two blanks for each depth. -/
def Layout.indented : Layout := ⟨fun depth => '\n' :: List.replicate (2 * depth) ' ', [' ']⟩

mutual

def write (layout : Layout) (depth : Nat) : Json → List Char
  | null => "null".toList
  | nat n => Nat.toDigits 10 n
  | str s => Text.quote s
  | foreign => "false".toList
  | arr [] => ['[', ']']
  | arr (j :: js) =>
    '[' :: layout.lineBreak (depth + 1) ++ write layout (depth + 1) j ++
      writeItems layout (depth + 1) js ++ layout.lineBreak depth ++ [']']
  | obj [] => ['{', '}']
  | obj ((key, j) :: members) =>
    '{' :: layout.lineBreak (depth + 1) ++ Text.quote key ++ ':' :: layout.afterColon ++
      write layout (depth + 1) j ++ writeMembers layout (depth + 1) members ++
      layout.lineBreak depth ++ ['}']

/-- The items after the first, each behind a comma. -/
def writeItems (layout : Layout) (depth : Nat) : List Json → List Char
  | [] => []
  | j :: js =>
    ',' :: layout.lineBreak depth ++ write layout depth j ++ writeItems layout depth js

def writeMembers (layout : Layout) (depth : Nat) : List (String × Json) → List Char
  | [] => []
  | (key, j) :: members =>
    ',' :: layout.lineBreak depth ++ Text.quote key ++ ':' :: layout.afterColon ++
      write layout depth j ++ writeMembers layout depth members

end

def compact (j : Json) : String := String.ofList (j.write .compact 0)

def pretty (j : Json) : String := String.ofList (j.write .indented 0)

end Json
end ContractLowering
