import ContractLowering.Method.Basic

/-!
Modules of the source language: methods and events in the order of their declaration.
-/

namespace ContractLowering

structure Event where
  code : UInt8
  name : String
  returns : Kind
  description : String
deriving DecidableEq, Repr

structure SourceModule where
  scope : ScopeId
  methods : List Method
  events : List Event
deriving Repr

/-- The expressions of all methods in order. -/
def SourceModule.expressions (source : SourceModule) : List Expr :=
  source.methods.flatMap Method.expressions

end ContractLowering
