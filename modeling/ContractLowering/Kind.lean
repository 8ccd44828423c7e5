/-!
Kinds of values in the source language.
-/

namespace ContractLowering

inductive Kind where
  | void
  | bool
  | number
  | string
  | address
  | record (name : String)
  | unknown
deriving DecidableEq, Repr

namespace Kind

/-- A record kind shows the name of its type. -/
def text : Kind → String
  | void => "none"
  | bool => "bool"
  | number => "number"
  | string => "string"
  | address => "address"
  | record name => name
  | unknown => "unknown"

/-- Constants of these kinds are written between quotation marks. -/
def isQuoted (kind : Kind) : Bool := kind = string

end Kind
end ContractLowering
