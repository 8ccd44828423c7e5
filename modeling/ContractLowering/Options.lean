import ContractLowering.Generator
import ContractLowering.Interface.Basic

/-!
What a user can choose about a compilation.
-/

namespace ContractLowering

structure Options where
  /-- Listings name source lines. -/
  sourceMap : Bool := false
  /-- Registers of variables carry the variables' names. -/
  debugNames : Bool := true
  maxRegisters : Option Nat := none
  /-- If none is given, the kind of the module decides. -/
  standard : Option Standard := none
deriving DecidableEq, Repr

def Options.generator (options : Options) : Generator :=
  { pool := { limit := options.maxRegisters }, debugNames := options.debugNames }

/-- The version of the compiler. -/
def version : String := "1.0.0"

end ContractLowering
