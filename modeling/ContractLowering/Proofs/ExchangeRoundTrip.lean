import ContractLowering.Codec.Interface
import ContractLowering.Proofs.JsonReading
import Mathlib.Data.List.Nodup

/-!
Reading undoes writing in the whole exchange format. Each codec is `Lawful`: a value within its range is
read back from its exchanged form, and whatever is read is within the range. Together with the reading
of written text this carries over to texts, compact and indented.
-/

namespace ContractLowering

namespace Json

theorem find?_of_mem {members : List (String × Json)} (distinct : (members.map Prod.fst).Nodup)
    {m : String × Json} (member : m ∈ members) : members.find? (·.1 = m.1) = some m := by
  induction members with
  | nil => cases member
  | cons first members ih =>
      obtain ⟨fresh, distinct⟩ := List.nodup_cons.mp distinct
      rcases List.mem_cons.mp member with rfl | later
      · simp
      · have other : first.1 ≠ m.1 := fun same => fresh (same ▸ List.mem_map_of_mem later)
        simp [other, ih distinct later]

/-- The fields of a record that was written with these names are its members in order. -/
theorem fields?_obj {names : List String} {members : List (String × Json)} (distinct : names.Nodup)
    (h : members.map Prod.fst = names) :
    (obj members).fields? names = some (members.map fun m => some m.2) := by
  subst h
  have once : ((members.map Prod.fst).any fun name => 1 < members.countP (·.1 = name)) = false := by
    rw [List.any_eq_false]
    intro name _
    have count := List.nodup_iff_count_le_one.mp distinct name
    simp only [List.count, List.countP_map, Function.comp_def, beq_eq_decide] at count
    simpa using count
  rw [fields?, once, if_neg Bool.false_ne_true, List.map_map]
  congr 1
  refine List.map_congr_left fun m member => ?_
  rw [Function.comp_apply, find?_of_mem distinct member, Option.map_some]

end Json

namespace Codec

/-- Values within the range are read back, and only such values are read. -/
structure Lawful (α : Type) [Codec α] (inRange : α → Prop) : Prop where
  reads : ∀ a : α, inRange a → ofJson? (toJson a) = some a
  range : ∀ (j : Json) (a : α), ofJson? j = some a → inRange a

variable {α : Type} [Codec α] {inRange : α → Prop}

theorem Lawful.total (h : ∀ a : α, ofJson? (toJson a) = some a) : Lawful α fun _ => True :=
  ⟨fun a _ => h a, fun _ _ _ => trivial⟩

theorem Lawful.required (h : Lawful α inRange) (a : α) (within : inRange a) :
    required? (some (toJson a)) = some a :=
  h.reads a within

theorem Lawful.required_range (h : Lawful α inRange) {field : Option Json} {a : α}
    (hread : required? field = some a) : inRange a := by
  obtain ⟨j, -, hread⟩ := Option.bind_eq_some_iff.mp hread
  exact h.range j a hread

theorem string_lawful : Lawful String fun _ => True := .total fun _ => rfl

theorem nat_lawful : Lawful Nat fun n => n < UInt64.size := by
  refine ⟨fun n below => if_pos below, ?_⟩
  intro j n h
  cases j with
  | nat m =>
      obtain ⟨below, same⟩ := Option.ite_none_right_eq_some.mp h
      cases same
      exact below
  | null | str s | arr items | obj members | foreign => cases h

theorem uint8_lawful : Lawful UInt8 fun _ => True := by
  refine .total fun n => ?_
  have below : n.toNat < 256 := n.toNat_lt
  simp [ofJson?, toJson, Json.natBelow?, below]

theorem Lawful.mapM_reads (h : Lawful α inRange) (as : List α) (within : ∀ a ∈ as, inRange a) :
    (as.map toJson).mapM ofJson? = some as := by
  induction as with
  | nil => rfl
  | cons a as ih =>
      obtain ⟨first, others⟩ := List.forall_mem_cons.mp within
      rw [List.map_cons, List.mapM_cons, h.reads a first, ih others]
      rfl

theorem Lawful.mapM_range (h : Lawful α inRange) {items : List Json} {as : List α}
    (hread : items.mapM ofJson? = some as) : ∀ a ∈ as, inRange a := by
  induction items generalizing as with
  | nil =>
      cases hread
      exact List.forall_mem_nil _
  | cons item items ih =>
      rw [List.mapM_cons] at hread
      obtain ⟨a, hitem, hread⟩ := Option.bind_eq_some_iff.mp hread
      obtain ⟨others, hitems, hread⟩ := Option.bind_eq_some_iff.mp hread
      cases hread
      exact List.forall_mem_cons.mpr ⟨h.range item a hitem, ih hitems⟩

theorem list_lawful (h : Lawful α inRange) : Lawful (List α) fun as => ∀ a ∈ as, inRange a := by
  refine ⟨h.mapM_reads, ?_⟩
  intro j as hread
  cases j with
  | arr items => exact h.mapM_range hread
  | null | nat n | str s | obj members | foreign => cases hread

theorem kind_lawful : Lawful Kind fun _ => True := by
  refine .total fun kind => ?_
  cases kind <;> rfl

theorem moduleKind_lawful : Lawful ModuleKind fun _ => True := by
  refine .total fun kind => ?_
  cases kind <;> rfl

theorem standard_lawful : Lawful Standard fun _ => True := by
  refine .total fun standard => ?_
  cases standard
  rfl

theorem operator_lawful : Lawful Operator fun _ => True := by
  refine .total fun op => ?_
  cases op <;> rfl

theorem nodeId_lawful : Lawful NodeId fun _ => True := by
  refine .total fun id => ?_
  have below : id.number.toNat < 4294967296 := id.number.toNat_lt
  simp [ofJson?, toJson, Json.natBelow?, below]

theorem implementation_lawful : Lawful Implementation fun _ => True := by
  refine .total fun implementation => ?_
  cases implementation <;> rfl

theorem binding_lawful : Lawful Binding fun _ => True := by
  refine .total fun binding => ?_
  refine Option.bind_eq_some_iff.mpr ⟨_, Json.fields?_obj (by decide) rfl, ?_⟩
  simp only [List.map_cons, List.map_nil, string_lawful.required _ trivial,
    kind_lawful.required _ trivial, implementation_lawful.required _ trivial]
  rfl

theorem parameter_lawful : Lawful Parameter fun _ => True := by
  refine .total fun p => ?_
  refine Option.bind_eq_some_iff.mpr ⟨_, Json.fields?_obj (by decide) rfl, ?_⟩
  simp only [List.map_cons, List.map_nil, string_lawful.required _ trivial,
    kind_lawful.required _ trivial]
  rfl

theorem event_lawful : Lawful Event fun _ => True := by
  refine .total fun e => ?_
  refine Option.bind_eq_some_iff.mpr ⟨_, Json.fields?_obj (by decide) rfl, ?_⟩
  simp only [List.map_cons, List.map_nil, uint8_lawful.required _ trivial,
    string_lawful.required _ trivial, kind_lawful.required _ trivial]
  rfl

theorem exportedMethod_lawful : Lawful ExportedMethod fun m => m.offset < UInt64.size := by
  constructor
  · intro m below
    refine Option.bind_eq_some_iff.mpr ⟨_, Json.fields?_obj (by decide) rfl, ?_⟩
    simp only [List.map_cons, List.map_nil, string_lawful.required _ trivial,
      kind_lawful.required _ trivial, nat_lawful.required _ below,
      (list_lawful parameter_lawful).required _ fun _ _ => trivial]
    rfl
  · intro j m h
    obtain ⟨fields, -, h⟩ := Option.bind_eq_some_iff.mp h
    split at h
    · obtain ⟨name, _, h⟩ := Option.bind_eq_some_iff.mp h
      obtain ⟨returns, _, h⟩ := Option.bind_eq_some_iff.mp h
      obtain ⟨offset, hoffset, h⟩ := Option.bind_eq_some_iff.mp h
      obtain ⟨params, _, h⟩ := Option.bind_eq_some_iff.mp h
      cases h
      exact nat_lawful.required_range hoffset
    · cases h

theorem interface_lawful : Lawful Interface fun i => ∀ m ∈ i.methods, m.offset < UInt64.size := by
  constructor
  · intro i below
    refine Option.bind_eq_some_iff.mpr ⟨_, Json.fields?_obj (by decide) rfl, ?_⟩
    simp only [List.map_cons, List.map_nil, (list_lawful exportedMethod_lawful).required _ below,
      (list_lawful event_lawful).reads _ fun _ _ => trivial]
    rfl
  · intro j i h
    obtain ⟨fields, -, h⟩ := Option.bind_eq_some_iff.mp h
    split at h
    · next methods events =>
        -- The methods are read last, whether the events were there or left out.
        have hmethods : required? methods = some i.methods := by
          cases events <;>
          · obtain ⟨_, -, h⟩ := Option.bind_eq_some_iff.mp h
            obtain ⟨_, hmethods, h⟩ := Option.bind_eq_some_iff.mp h
            cases h
            exact hmethods
        exact (list_lawful exportedMethod_lawful).required_range hmethods
    · cases h

/-- Values within the range are read back from their text, and writing an accepted text anew gives a
text that stays as it is when it is written anew. -/
structure RoundTrips (text : α → String) (inRange : α → Prop) : Prop where
  decodes : ∀ a : α, inRange a → decode? (text a) = some a
  settles : ∀ s t : String, (decode? s).map text = some t → (decode? t).map text = some t

theorem Lawful.roundTrips {text : α → String} (h : Lawful α inRange)
    (parses : ∀ a, Json.parse? (text a) = some (toJson a)) : RoundTrips text inRange := by
  have decodes : ∀ a : α, inRange a → decode? (text a) = some a := by
    intro a within
    rw [decode?, parses, Option.bind_some, h.reads a within]
  refine ⟨decodes, ?_⟩
  intro s t hs
  obtain ⟨a, hread, rfl⟩ := Option.map_eq_some_iff.mp hs
  obtain ⟨j, -, hread⟩ := Option.bind_eq_some_iff.mp hread
  rw [decodes a (h.range j a hread), Option.map_some]

theorem Lawful.compact (h : Lawful α inRange) : RoundTrips encode inRange :=
  h.roundTrips fun a => Json.parse?_compact (toJson a)

theorem Lawful.pretty (h : Lawful α inRange) : RoundTrips encodePretty inRange :=
  h.roundTrips fun a => Json.parse?_pretty (toJson a)

/-- Offsets are exchanged as numbers of 64 bits; the other numbers have their width in their type. -/
theorem exchange_round_trips :
    RoundTrips encode (fun i : Interface => ∀ m ∈ i.methods, m.offset < UInt64.size) ∧
    RoundTrips encodePretty (fun i : Interface => ∀ m ∈ i.methods, m.offset < UInt64.size) ∧
    RoundTrips encode (fun m : ExportedMethod => m.offset < UInt64.size) ∧
    RoundTrips encode (fun _ : Event => True) ∧
    RoundTrips encode (fun _ : Parameter => True) ∧
    RoundTrips encode (fun _ : Kind => True) ∧
    RoundTrips encode (fun _ : ModuleKind => True) ∧
    RoundTrips encode (fun _ : Standard => True) ∧
    RoundTrips encode (fun _ : Operator => True) ∧
    RoundTrips encode (fun _ : NodeId => True) ∧
    RoundTrips encode (fun _ : Binding => True) ∧
    RoundTrips encode (fun _ : Implementation => True) :=
  ⟨interface_lawful.compact, interface_lawful.pretty, exportedMethod_lawful.compact,
    event_lawful.compact, parameter_lawful.compact, kind_lawful.compact, moduleKind_lawful.compact,
    standard_lawful.compact, operator_lawful.compact, nodeId_lawful.compact, binding_lawful.compact,
    implementation_lawful.compact⟩

namespace Awkward

/-- Texts that need every form of escape, a record named like another kind, and the largest numbers. -/
def interface : Interface :=
  { methods := [⟨"say \"hi\"\n", .record "none", UInt64.size - 1, [⟨"C:\\ß", .void⟩]⟩]
    events := [⟨255, "\x08\x0c\x1f", .number, "naïve 😀 \u2028"⟩] }

end Awkward

open Awkward in
theorem exchange_round_trips_awkward :
    decode? (encode interface) = some interface ∧
    decode? (encodePretty interface) = some interface ∧
    encode (Kind.record "none") = "\x7b\"struct\":\"none\"\x7d" ∧ encode Kind.void = "\"none\"" := by
  have offsets : ∀ m ∈ interface.methods, m.offset < UInt64.size := by decide
  obtain ⟨compact, pretty, -⟩ := exchange_round_trips
  exact ⟨compact.decodes interface offsets, pretty.decodes interface offsets,
    by decide +kernel, by decide +kernel⟩

end Codec
end ContractLowering
