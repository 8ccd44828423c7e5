import ContractLowering.Codec.Basic
import ContractLowering.Declarations.Basic
import ContractLowering.Expr.Basic

/-!
The exchange format of what source trees are made of: kinds, operators, node numbers and
bindings.
-/

namespace ContractLowering

namespace Kind

/-- The kinds that are known by their text. -/
def plain : List Kind := [void, bool, number, string, address, unknown]

instance : Codec Kind where
  toJson
    | record name => .obj [("struct", .str name)]
    | kind => .str kind.text
  ofJson? j :=
    match j.variant? with
    | some ("struct", some (.str name)) => some (record name)
    | _ => j.plainVariant?.bind fun name => plain.find? (·.text = name)

end Kind

namespace ModuleKind

def name : ModuleKind → String
  | contract => "contract"
  | token => "token"
  | nft => "nft"
  | script => "script"

def all : List ModuleKind := [contract, token, nft, script]

instance : Codec ModuleKind where
  toJson kind := .str kind.name
  ofJson? j := j.plainVariant?.bind fun name => all.find? (·.name = name)

end ModuleKind

namespace Operator

def name : Operator → String
  | add => "Add"
  | sub => "Sub"
  | mul => "Mul"
  | div => "Div"
  | mod => "Mod"
  | equal => "Equal"
  | notEqual => "NotEqual"
  | less => "Less"
  | lessOrEqual => "LessOrEqual"
  | greater => "Greater"
  | greaterOrEqual => "GreaterOrEqual"
  | and => "And"
  | or => "Or"
  | xor => "Xor"

def all : List Operator :=
  [add, sub, mul, div, mod, equal, notEqual, less, lessOrEqual, greater, greaterOrEqual, and, or,
    xor]

instance : Codec Operator where
  toJson op := .str op.name
  ofJson? j := j.plainVariant?.bind fun name => all.find? (·.name = name)

end Operator

instance : Codec NodeId where
  toJson id := .nat id.number.toNat
  ofJson? j := (j.natBelow? 4294967296).map fun n => ⟨UInt32.ofNat n⟩

instance : Codec Implementation where
  toJson
    | .builtin => .str "ExternalCall"
    | .contract name => .obj [("ContractCall", .obj [("contract", .str name)])]
    | .missing => .str "Custom"
  ofJson? j :=
    match j.variant? with
    | some ("ContractCall", some payload) => do
      let [contract] ← payload.fields? ["contract"] | none
      return .contract (← Codec.required? contract)
    | _ =>
      match j.plainVariant? with
      | some "ExternalCall" => some .builtin
      | some "Custom" => some .missing
      | _ => none

instance : Codec Binding where
  toJson b :=
    .obj [("name", Codec.toJson b.name), ("return_kind", Codec.toJson b.returns),
      ("implementation", Codec.toJson b.implementation), ("alias", Codec.toJson b.callee)]
  ofJson? j := do
    let [name, returns, implementation, callee] ←
      j.fields? ["name", "return_kind", "implementation", "alias"] | none
    return ⟨← Codec.required? name, ← Codec.required? returns, ← Codec.required? implementation,
      ← Codec.required? callee⟩

end ContractLowering
