import ContractLowering.Json.Printer
import ContractLowering.Json.Reader

/-!
How data is put into the exchange format and read back.

A record is an object with a member for each field; members of other names are passed over, and
no field may be given twice. It may also be written as an array of its fields in order. A variant
without a payload is its name, or an object that maps its name to null; one with a payload is an
object that maps its name to the payload.
-/

namespace ContractLowering
namespace Json

/-- The fields of a record by name; a field that is not given is `none`. -/
def fields? (names : List String) : Json → Option (List (Option Json))
  | obj members =>
    if names.any fun name => 1 < members.countP (·.1 = name) then none
    else some (names.map fun name => (members.find? (·.1 = name)).map (·.2))
  | arr items =>
    if names.length < items.length then none
    else some (items.map some ++ List.replicate (names.length - items.length) none)
  | _ => none

/-- The name and the payload of a variant. -/
def variant? : Json → Option (String × Option Json)
  | str name => some (name, none)
  | obj [(name, payload)] => some (name, some payload)
  | _ => none

/-- The name of a variant that has no payload. -/
def plainVariant? (j : Json) : Option String :=
  match j.variant? with
  | some (name, none) | some (name, some null) => some name
  | _ => none

def natBelow? (bound : Nat) : Json → Option Nat
  | nat n => if n < bound then some n else none
  | _ => none

end Json

class Codec (α : Type) where
  toJson : α → Json
  ofJson? : Json → Option α

namespace Codec

variable {α : Type} [Codec α]

def encode (a : α) : String := (toJson a).compact

def encodePretty (a : α) : String := (toJson a).pretty

def decode? (s : String) : Option α := (Json.parse? s).bind ofJson?

/-- Reads a field that has to be given. -/
def required? (field : Option Json) : Option α := field.bind ofJson?

instance : Codec String where
  toJson := .str
  ofJson?
    | .str s => some s
    | _ => none

instance : Codec (List α) where
  toJson as := .arr (as.map toJson)
  ofJson?
    | .arr items => items.mapM ofJson?
    | _ => none

instance : Codec UInt8 where
  toJson n := .nat n.toNat
  ofJson? j := (j.natBelow? 256).map UInt8.ofNat

/-- Naturals are exchanged as machine words of 64 bits. -/
instance : Codec Nat where
  toJson := .nat
  ofJson? j := j.natBelow? 18446744073709551616

end Codec
end ContractLowering
