import ContractLowering.Address
import ContractLowering.Declarations.EnclosingModule

/-!
Placeholders stand for facts about the module they occur in: the address of its contract, and
the symbol of its token. Dollar signs in front of a name do not count.
-/

namespace ContractLowering

inductive Placeholder where
  | thisAddress
  | thisSymbol
deriving DecidableEq, Repr

namespace Placeholder

def ofName? (name : String) : Option Placeholder :=
  let bare := name.toList.dropWhile (· = '$')
  if bare = "THIS_ADDRESS".toList then some thisAddress
  else if bare = "THIS_SYMBOL".toList then some thisSymbol
  else none

/-- The literal that a placeholder stands for, given the module around it. -/
def literal (origin : Origin) (info : ModuleInfo) : Placeholder → Except Failure (String × Kind)
  | thisAddress => .ok (Address.literal info.name, .address)
  | thisSymbol =>
    match info.symbol with
    | some symbol => .ok (symbol, .string)
    | none => .error (.reported (.missingSymbol origin info.name))

/-- A name that means nothing is refused before the scope is looked at. -/
def resolve (decls : Declarations) (origin : Origin) (name : String) (scope : ScopeId) :
    Except Failure (String × Kind) :=
  match ofName? name with
  | none => .error (.reported (.unknownPlaceholder origin name))
  | some placeholder =>
    match decls.enclosingModule scope with
    | .error e => .error e
    | .ok none => .error (.reported (.placeholderOutsideModule origin name))
    | .ok (some info) => placeholder.literal origin info

end Placeholder
end ContractLowering
