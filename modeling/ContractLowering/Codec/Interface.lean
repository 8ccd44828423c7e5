import ContractLowering.Codec.Source
import ContractLowering.Interface.Basic

/-!
The exchange format of the exported interface. Only the events of an interface may be left out.
-/

namespace ContractLowering

namespace Standard

def name : Standard → String
  | nft => "nft"

def all : List Standard := [nft]

instance : Codec Standard where
  toJson standard := .str standard.name
  ofJson? j := j.plainVariant?.bind fun name => all.find? (·.name = name)

end Standard

instance : Codec Parameter where
  toJson p := .obj [("name", Codec.toJson p.name), ("kind", Codec.toJson p.kind)]
  ofJson? j := do
    let [name, kind] ← j.fields? ["name", "kind"] | none
    return ⟨← Codec.required? name, ← Codec.required? kind⟩

instance : Codec ExportedMethod where
  toJson m :=
    .obj [("name", Codec.toJson m.name), ("returnKind", Codec.toJson m.returns),
      ("offset", Codec.toJson m.offset), ("parameters", Codec.toJson m.params)]
  ofJson? j := do
    let [name, returns, offset, params] ←
      j.fields? ["name", "returnKind", "offset", "parameters"] | none
    return ⟨← Codec.required? name, ← Codec.required? returns, ← Codec.required? offset,
      ← Codec.required? params⟩

instance : Codec Event where
  toJson e :=
    .obj [("value", Codec.toJson e.code), ("name", Codec.toJson e.name),
      ("returnKind", Codec.toJson e.returns), ("description", Codec.toJson e.description)]
  ofJson? j := do
    let [code, name, returns, description] ←
      j.fields? ["value", "name", "returnKind", "description"] | none
    return ⟨← Codec.required? code, ← Codec.required? name, ← Codec.required? returns,
      ← Codec.required? description⟩

instance : Codec Interface where
  toJson i := .obj [("methods", Codec.toJson i.methods), ("events", Codec.toJson i.events)]
  ofJson? j := do
    let [methods, events] ← j.fields? ["methods", "events"] | none
    let events ← match events with
      | none => some []
      | some events => Codec.ofJson? events
    return ⟨← Codec.required? methods, events⟩

end ContractLowering
