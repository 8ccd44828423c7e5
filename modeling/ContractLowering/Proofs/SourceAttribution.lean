import ContractLowering.Proofs.EmittedCode
import ContractLowering.Proofs.ExpansionOrder

/-!
Which node an instruction is attributed to. The instructions of an expression name nodes of its tree
and no others, every node has an instruction of its own, and the last instruction is the root's.
Nodes may share their number and their line, so the instructions of an origin are counted.
-/

namespace ContractLowering

theorem Kind.literalCode_ne_nil (kind : Kind) (value : String) (reg : Register) :
    kind.literalCode value reg ≠ [] := by
  by_cases address : kind = .address <;> simp [literalCode, address]

theorem Binding.callCode_ne_nil (binding : Binding) (reg : Register) :
    binding.callCode reg ≠ [] := by
  cases himpl : binding.implementation <;> simp [callCode, himpl]

namespace Generator

theorem instrs_origins (origin : Origin) (code : List (Opcode × List Operand)) :
    (instrs origin code).map Instr.origin = List.replicate code.length origin := by
  simp [instrs, Function.comp_def]

end Generator

namespace Expr

open Generator

/-- The origins of the nodes, each as often as there are nodes with it. -/
def origins (e : Expr) : List Origin := e.preorder.map Expr.origin

theorem origins_eq (e : Expr) : e.origins = e.origin :: e.parts.flatMap origins := by
  rw [origins, preorder_eq, List.map_cons, List.map_flatMap]
  rfl

theorem origin_mem (e : Expr) : e.origin ∈ e.origins := by
  rw [origins_eq]
  exact List.mem_cons_self

theorem contains_step (e : Expr) (id : NodeId) :
    e.contains id = true ↔ e.origin.node = id ∨ ∃ part ∈ e.parts, part.contains id = true := by
  cases e <;> simp [contains, parts, origin, site, anyContains_eq, or_assoc]

/-- A number occurs in the tree when a node has it. -/
theorem contains_iff (e : Expr) (id : NodeId) :
    e.contains id = true ↔ ∃ origin ∈ e.origins, origin.node = id := by
  induction e using parts_induction with
  | step e ih =>
      rw [contains_step, origins_eq, List.exists_mem_cons_iff]
      refine or_congr Iff.rfl ?_
      constructor
      · rintro ⟨part, member, inside⟩
        obtain ⟨origin, horigin, hid⟩ := (ih part member).mp inside
        exact ⟨origin, List.mem_flatMap.mpr ⟨part, member, horigin⟩, hid⟩
      · rintro ⟨origin, horigin, hid⟩
        obtain ⟨part, member, inside⟩ := List.mem_flatMap.mp horigin
        exact ⟨part, member, (ih part member).mpr ⟨origin, inside, hid⟩⟩

section OwnCode

variable {e : Expr} {own : List (Opcode × List Operand)} (before : List Instr)

theorem own_sound : (instrs e.origin own).map Instr.origin ⊆ e.origins := by
  intro origin member
  rw [instrs_origins] at member
  rw [List.eq_of_mem_replicate member]
  exact e.origin_mem

theorem sound_of_parts (h : before.map Instr.origin ⊆ e.parts.flatMap origins) :
    (before ++ instrs e.origin own).map Instr.origin ⊆ e.origins := by
  rw [List.map_append, List.append_subset]
  refine ⟨?_, own_sound⟩
  rw [e.origins_eq]
  exact List.subset_cons_of_subset _ h

theorem complete_of_parts {origin : Origin} (some_own : own ≠ [])
    (h : (e.parts.flatMap origins).count origin ≤ (before.map Instr.origin).count origin) :
    e.origins.count origin ≤
      ((before ++ instrs e.origin own).map Instr.origin).count origin := by
  have length_pos := List.length_pos_iff.mpr some_own
  rw [e.origins_eq, List.count_cons, List.map_append, List.count_append, instrs_origins,
    List.count_replicate]
  split <;> omega

theorem last_of_own (some_own : own ≠ []) :
    ((before ++ instrs e.origin own).map Instr.origin).getLast? = some e.origin := by
  have length_ne : own.length ≠ 0 := mt List.length_eq_zero_iff.mp some_own
  rw [List.map_append, List.getLast?_append, instrs_origins, List.getLast?_replicate,
    if_neg length_ne, Option.some_or]

end OwnCode

section Passing

variable {args : List Argument}

theorem sound_passing
    (h : ∀ arg ∈ args, arg.code.map Instr.origin ⊆ arg.expr.origins) :
    (args.reverse.flatMap Argument.passing).map Instr.origin ⊆
      (args.map Argument.expr).flatMap origins := by
  intro origin member
  rw [List.map_flatMap, List.mem_flatMap] at member
  obtain ⟨arg, harg, passed⟩ := member
  rw [List.mem_reverse] at harg
  rw [List.flatMap_map, List.mem_flatMap]
  refine ⟨arg, harg, ?_⟩
  rw [Argument.passing, List.map_append, List.mem_append] at passed
  rcases passed with computed | pushed
  · exact h arg harg computed
  · rw [List.mem_singleton.mp pushed]
    exact arg.expr.origin_mem

theorem complete_passing {origin : Origin}
    (h : ∀ arg ∈ args, arg.expr.origins.count origin ≤ (arg.code.map Instr.origin).count origin) :
    ((args.map Argument.expr).flatMap origins).count origin ≤
      ((args.reverse.flatMap Argument.passing).map Instr.origin).count origin := by
  induction args with
  | nil => simp
  | cons arg args ih =>
      rw [List.forall_mem_cons] at h
      have rest := ih h.2
      have first : arg.expr.origins.count origin ≤
          (arg.passing.map Instr.origin).count origin := by
        rw [Argument.passing, List.map_append, List.count_append]
        exact Nat.le_add_right_of_le h.1
      simp only [List.map_cons, List.flatMap_cons, List.reverse_cons, List.flatMap_append,
        List.map_append, List.count_append]
      omega

end Passing

namespace Yields

variable {decls : Declarations} {e : Expr} {reg : Register} {code : List Instr}

/-- An instruction is one of a part's or the root's own. A push belongs to the argument. -/
theorem sound (h : e.Yields decls reg code) : code.map Instr.origin ⊆ e.origins := by
  induction h with
  | @not s x reg code operand ih =>
      refine sound_of_parts (e := .not s x) code ?_
      simpa [parts] using ih
  | @binary s op opcode left right l r reg first second supported before behind ihl ihr =>
      refine sound_of_parts (e := .binary s op left right) (first ++ second) ?_
      simpa [parts] using ⟨List.subset_append_of_subset_left _ ihl,
        List.subset_append_of_subset_right _ ihr⟩
  | @call s binding args reg each ih =>
      exact sound_of_parts (e := .call s binding (args.map Argument.expr)) _ (sound_passing ih)
  | @lit s value kind reg => exact own_sound (e := .lit s value kind)
  | @var s id source reg bound => exact own_sound (e := .var s id)
  | @const s id c reg declared => exact own_sound (e := .const s id)

/-- The instructions of an origin are no fewer than its nodes. -/
theorem complete (h : e.Yields decls reg code) (origin : Origin) :
    e.origins.count origin ≤ (code.map Instr.origin).count origin := by
  induction h with
  | @not s x reg code operand ih =>
      refine complete_of_parts (e := .not s x) code (List.cons_ne_nil _ _) ?_
      simpa [parts] using ih
  | @binary s op opcode left right l r reg first second supported before behind ihl ihr =>
      refine complete_of_parts (e := .binary s op left right) (first ++ second)
        (List.cons_ne_nil _ _) ?_
      simpa [parts] using Nat.add_le_add ihl ihr
  | @call s binding args reg each ih =>
      exact complete_of_parts (e := .call s binding (args.map Argument.expr)) _
        (binding.callCode_ne_nil reg) (complete_passing ih)
  | @lit s value kind reg =>
      exact complete_of_parts (e := .lit s value kind) [] (kind.literalCode_ne_nil value reg)
        (Nat.zero_le _)
  | @var s id source reg bound =>
      exact complete_of_parts (e := .var s id) [] (List.cons_ne_nil _ _) (Nat.zero_le _)
  | @const s id c reg declared =>
      exact complete_of_parts (e := .const s id) [] (List.cons_ne_nil _ _) (Nat.zero_le _)

/-- The root's own instructions stand behind those of its parts. -/
theorem last (h : e.Yields decls reg code) :
    (code.map Instr.origin).getLast? = some e.origin := by
  cases h with
  | not operand => exact last_of_own (e := .not _ _) _ (List.cons_ne_nil _ _)
  | binary supported before behind =>
      exact last_of_own (e := .binary _ _ _ _) _ (List.cons_ne_nil _ _)
  | call each => exact last_of_own (e := .call _ _ _) _ (Binding.callCode_ne_nil _ reg)
  | lit => exact last_of_own (e := .lit _ _ _) [] (Kind.literalCode_ne_nil _ _ reg)
  | var bound => exact last_of_own (e := .var _ _) [] (List.cons_ne_nil _ _)
  | const declared => exact last_of_own (e := .const _ _) [] (List.cons_ne_nil _ _)

end Yields

/-- The instructions that lowering appends name exactly the origins of the tree, each at least as
often as there are nodes with it, and the last one is the root's. -/
theorem lower_attributes_exactly {decls : Declarations} {e : Expr} {gen gen' : Generator}
    {reg : Register} (h : e.lower decls gen = .ok reg gen') :
    ∃ code, gen'.code = gen.code ++ code ∧
      (∀ origin, (∃ instr ∈ code, instr.origin = origin) ↔
        ∃ node ∈ e.preorder, node.origin = origin) ∧
      (∀ id, (∃ instr ∈ code, instr.origin.node = id) ↔ e.contains id = true) ∧
      (∀ origin, e.origins.count origin ≤ (code.map Instr.origin).count origin) ∧
      code.getLast?.map Instr.origin = some e.origin := by
  obtain ⟨code, hcode, yields⟩ := lower_yields e h
  have same : ∀ origin, origin ∈ code.map Instr.origin ↔ origin ∈ e.origins := by
    intro origin
    refine ⟨fun member => yields.sound member, fun member => ?_⟩
    have counted := yields.complete origin
    rw [← List.count_pos_iff] at member ⊢
    omega
  refine ⟨code, hcode, ?_, ?_, yields.complete, ?_⟩
  · intro origin
    simpa [origins] using same origin
  · intro id
    rw [contains_iff]
    constructor
    · rintro ⟨instr, member, hid⟩
      exact ⟨instr.origin, (same _).mp (List.mem_map_of_mem member), hid⟩
    · rintro ⟨origin, member, hid⟩
      obtain ⟨instr, hinstr, rfl⟩ := List.mem_map.mp ((same origin).mpr member)
      exact ⟨instr, hinstr, hid⟩
  · rw [← List.getLast?_map]
    exact yields.last

namespace Copied

def site (node : UInt32) (line : Nat) : Site := ⟨⟨⟨node⟩, line⟩, .root⟩

def denial : Expr := .not (site 2 1) (.lit (site 3 1) "true" .bool)

/-- A tree with a copy in it, so that two nodes have the same number. -/
def vote : Expr :=
  .call (site 1 4) (.unimplemented "vote" .bool)
    [.binary (site 4 2) .equal denial denial, .lit (site 5 3) "0x03" .address]

end Copied

open Copied in
/-- Both copies of the negation have an instruction. -/
theorem lower_attributes_exactly_copied :
    ∃ gen', vote.lower {} {} = .ok ⟨0⟩ gen' ∧ gen'.code.length = 12 ∧
      (∀ id, (∃ instr ∈ gen'.code, instr.origin.node = id) ↔ vote.contains id = true) ∧
      2 ≤ (gen'.code.map Instr.origin).count (Copied.site 2 1).toOrigin ∧
      gen'.code.getLast?.map Instr.origin = some (Copied.site 1 4).toOrigin := by
  obtain ⟨gen', lowers, length⟩ : ∃ gen', vote.lower {} {} = .ok ⟨0⟩ gen' ∧
      gen'.code.length = 12 := ⟨_, rfl, rfl⟩
  obtain ⟨code, hcode, -, contains, counts, last⟩ := lower_attributes_exactly lowers
  obtain rfl : gen'.code = code := hcode
  exact ⟨gen', lowers, length, contains, counts (Copied.site 2 1).toOrigin, last⟩

end Expr
end ContractLowering
