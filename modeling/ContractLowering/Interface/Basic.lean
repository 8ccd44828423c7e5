import ContractLowering.Declarations.Basic
import ContractLowering.SourceModule.Basic

/-!
The exported interface of a contract: its methods with their positions in the code, and its
events. A standard fixes the signature of the methods that it names.
-/

namespace ContractLowering

structure Parameter where
  name : String
  kind : Kind
deriving DecidableEq, Repr

structure ExportedMethod where
  name : String
  returns : Kind
  offset : Nat
  params : List Parameter
deriving DecidableEq, Repr

structure Interface where
  methods : List ExportedMethod := []
  events : List Event := []
deriving DecidableEq, Repr

inductive Standard where
  | nft
deriving DecidableEq, Repr

namespace Standard

/-- The standard that a kind of module has to keep to. -/
def ofModuleKind? : ModuleKind → Option Standard
  | .nft => some nft
  | .contract | .token | .script => none

def methodNames : Standard → List String
  | nft =>
    ["getName", "getDescription", "getImageURL", "getInfoURL", "getOwner", "getSeries",
      "getRoyalties"]

def covers (standard : Standard) (name : String) : Bool := name ∈ standard.methodNames

/-- The name of the one parameter of the methods that the standard covers. -/
def tokenParameter : String := "tokenID"

def params : Standard → List Parameter
  | nft => [⟨tokenParameter, .number⟩]

def apply (standard : Standard) (method : ExportedMethod) : ExportedMethod :=
  if standard.covers method.name then { method with params := standard.params } else method

end Standard

namespace Interface

/-- The first method of this name. -/
def find? (interface : Interface) (name : String) : Option ExportedMethod :=
  interface.methods.find? (·.name = name)

def countCovered (interface : Interface) (standard : Standard) : Nat :=
  interface.methods.countP (standard.covers ·.name)

/-- Gives each method that the standard covers the standard's parameters. -/
def applyStandard (interface : Interface) (standard : Standard) : Interface :=
  { interface with methods := interface.methods.map standard.apply }

end Interface
end ContractLowering
