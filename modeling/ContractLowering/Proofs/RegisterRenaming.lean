import ContractLowering.Proofs.GenerationOrder
import ContractLowering.Proofs.RegisterLimit
import Mathlib.Order.Monotone.Basic

/-!
Generated code depends on the registers that happen to be held only through the numbering of the free
ones. `freeAt` counts the registers that are free where an expression begins. Two generators that hold
different registers, with variables bound wherever they like, take the same free registers by that
count, give the same ones back, emit the same instructions up to the count, and fail alike. The
registers that variables are copied from are the only others that the code mentions.
-/

namespace ContractLowering
namespace Pool

/-- The empty slots in ascending order, counted from zero. Behind the last slot all are empty. -/
def emptySlot : List (Option Tenant) → Nat → Nat
  | [], i => i
  | none :: _, 0 => 0
  | none :: slots, i + 1 => emptySlot slots i + 1
  | some _ :: slots, i => emptySlot slots i + 1

/-- The registers that are not live in ascending order, counted from zero. -/
def freeAt (pool : Pool) (i : Nat) : Register := ⟨emptySlot pool.slots i⟩

theorem emptySlot_lt_succ (slots : List (Option Tenant)) (i : Nat) :
    emptySlot slots i < emptySlot slots (i + 1) := by
  induction slots generalizing i with
  | nil => exact Nat.lt_succ_self i
  | cons slot slots ih =>
      cases slot with
      | some tenant => exact Nat.succ_lt_succ (ih i)
      | none =>
          cases i with
          | zero => exact Nat.succ_pos _
          | succ i => exact Nat.succ_lt_succ (ih i)

theorem slot_emptySlot (slots : List (Option Tenant)) (i : Nat) :
    slots[emptySlot slots i]?.join = none := by
  induction slots generalizing i with
  | nil => rfl
  | cons slot slots ih =>
      cases slot with
      | some tenant => exact ih i
      | none =>
          cases i with
          | zero => rfl
          | succ i => exact ih i

theorem exists_emptySlot {slots : List (Option Tenant)} {j : Nat} (h : slots[j]?.join = none) :
    ∃ i, emptySlot slots i = j := by
  induction slots generalizing j with
  | nil => exact ⟨j, rfl⟩
  | cons slot slots ih =>
      cases j with
      | zero =>
          obtain rfl : slot = none := h
          exact ⟨0, rfl⟩
      | succ j =>
          obtain ⟨i, rfl⟩ := ih h
          cases slot with
          | some tenant => exact ⟨i, rfl⟩
          | none => exact ⟨i + 1, rfl⟩

theorem freeAt_strictMono (pool : Pool) : StrictMono fun i => (pool.freeAt i).index :=
  strictMono_nat_of_lt_succ (emptySlot_lt_succ pool.slots)

theorem freeAt_inj {pool : Pool} {i j : Nat} : pool.freeAt i = pool.freeAt j ↔ i = j := by
  rw [Register.ext_iff]
  exact pool.freeAt_strictMono.injective.eq_iff

theorem isLive_freeAt (pool : Pool) (i : Nat) : pool.isLive (pool.freeAt i) = false :=
  (pool.isLive_eq_false_iff _).mpr (slot_emptySlot pool.slots i)

theorem exists_freeAt {pool : Pool} {reg : Register} (h : pool.isLive reg = false) :
    ∃ i, pool.freeAt i = reg := by
  obtain ⟨i, hi⟩ := exists_emptySlot ((pool.isLive_eq_false_iff reg).mp h)
  exact ⟨i, Register.ext hi⟩

/-- Two registers with the same number among those that are free in the one and in the other pool. -/
def Paired (left right : Pool) (reg reg' : Register) : Prop :=
  ∃ i, reg = left.freeAt i ∧ reg' = right.freeAt i

/-- What has become of two pools. All registers that were live still are, and of those that were free
the same ones are live on both sides, by their numbers. -/
structure Matched (left right pool pool' : Pool) : Prop where
  kept : ∀ reg, left.isLive reg = true → pool.isLive reg = true
  kept' : ∀ reg, right.isLive reg = true → pool'.isLive reg = true
  taken : ∀ i, pool.isLive (left.freeAt i) = pool'.isLive (right.freeAt i)

namespace Matched

variable {left right pool pool' : Pool}

theorem refl (left right : Pool) : Matched left right left right :=
  ⟨fun _ live => live, fun _ live => live, fun i => by rw [isLive_freeAt, isLive_freeAt]⟩

theorem symm (h : Matched left right pool pool') : Matched right left pool' pool :=
  ⟨h.kept', h.kept, fun i => (h.taken i).symm⟩

/-- A register that is free now was free before, so it has a number. -/
theorem exists_lowestFree (h : Matched left right pool pool') :
    ∃ i, pool.lowestFree = left.freeAt i := by
  have free : left.isLive pool.lowestFree = false := by
    rw [← Bool.not_eq_true]
    intro live
    have dead := pool.isLive_lowestFree
    rw [h.kept _ live] at dead
    cases dead
  obtain ⟨i, hi⟩ := exists_freeAt free
  exact ⟨i, hi.symm⟩

/-- The register with the number that is lowest on one side is free on the other side too. -/
theorem lowestFree_le (h : Matched left right pool pool') {i j : Nat}
    (hi : pool.lowestFree = left.freeAt i) (hj : pool'.lowestFree = right.freeAt j) : i ≤ j := by
  have dead := pool'.isLive_lowestFree
  rw [hj, ← h.taken] at dead
  have le := Pool.lowestFree_le dead
  rw [hi] at le
  exact left.freeAt_strictMono.le_iff_le.mp le

theorem lowestFree (h : Matched left right pool pool') :
    Paired left right pool.lowestFree pool'.lowestFree := by
  obtain ⟨i, hi⟩ := h.exists_lowestFree
  obtain ⟨j, hj⟩ := h.symm.exists_lowestFree
  have same : i = j := Nat.le_antisymm (h.lowestFree_le hi hj) (h.symm.lowestFree_le hj hi)
  exact ⟨i, hi, same ▸ hj⟩

theorem house (h : Matched left right pool pool') (tenant tenant' : Tenant) :
    Matched left right (pool.house tenant) (pool'.house tenant') := by
  obtain ⟨i, hi, hi'⟩ := h.lowestFree
  refine ⟨?_, ?_, ?_⟩
  · intro reg live
    rw [isLive_house, h.kept reg live, Bool.or_true]
  · intro reg live
    rw [isLive_house, h.kept' reg live, Bool.or_true]
  · intro j
    simp only [isLive_house, hi, hi', freeAt_inj, h.taken]

theorem vacate (h : Matched left right pool pool') {reg reg' : Register}
    (paired : Paired left right reg reg') :
    Matched left right (pool.vacate reg) (pool'.vacate reg') := by
  obtain ⟨i, rfl, rfl⟩ := paired
  have apart (p : Pool) {q : Register} (live : p.isLive q = true) : q ≠ p.freeAt i := by
    rintro rfl
    rw [isLive_freeAt] at live
    cases live
  refine ⟨?_, ?_, ?_⟩
  · intro q live
    simp [isLive_vacate, apart left live, h.kept q live]
  · intro q live
    simp [isLive_vacate, apart right live, h.kept' q live]
  · intro j
    simp only [isLive_vacate, freeAt_inj, h.taken]

end Matched
end Pool

/-- The same operand up to the number of a free register. -/
inductive Operand.Matches (left right : Pool) : Operand → Operand → Prop
  | reg {reg reg' : Register} (paired : left.Paired right reg reg') :
      Matches left right (.reg reg) (.reg reg')
  | str (text : String) : Matches left right (.str text) (.str text)
  | raw (text : String) : Matches left right (.raw text) (.raw text)

/-- The same instruction up to the numbers of free registers. The source of a copy that reads a
variable is the register that the variable is bound to on either side. -/
inductive Instr.Matches (c c' : Compilation) (nodes : List Expr) : Instr → Instr → Prop
  | read {s : Site} {id : VarId} {source source' reg reg' : Register} (node : .var s id ∈ nodes)
      (bound : c.decls.boundTo? id = some source) (bound' : c'.decls.boundTo? id = some source')
      (paired : c.gen.pool.Paired c'.gen.pool reg reg') :
      Matches c c' nodes ⟨.copy, [.reg source, .reg reg], s.toOrigin⟩
        ⟨.copy, [.reg source', .reg reg'], s.toOrigin⟩
  | same (opcode : Opcode) (origin : Origin) {operands operands' : List Operand}
      (each : List.Forall₂ (Operand.Matches c.gen.pool c'.gen.pool) operands operands') :
      Matches c c' nodes ⟨opcode, operands, origin⟩ ⟨opcode, operands', origin⟩

namespace Generator

/-- How far two generators have come from where they started. -/
structure InStep (c c' : Compilation) (nodes : List Expr) (gen gen' : Generator) : Prop where
  pools : Pool.Matched c.gen.pool c'.gen.pool gen.pool gen'.pool
  unlimited : gen.pool.limit = none
  unlimited' : gen'.pool.limit = none
  code : ∃ new new', gen.code = c.gen.code ++ new ∧ gen'.code = c'.gen.code ++ new' ∧
    List.Forall₂ (Instr.Matches c c' nodes) new new'

section InStep

variable {c c' : Compilation} {nodes : List Expr} {gen gen' : Generator}

namespace InStep

theorem refl (nodes : List Expr) (unlimited : c.gen.pool.limit = none)
    (unlimited' : c'.gen.pool.limit = none) : InStep c c' nodes c.gen c'.gen :=
  ⟨.refl _ _, unlimited, unlimited', [], [], by simp, by simp, .nil⟩

theorem extend (h : InStep c c' nodes gen gen') {code code' : List Instr}
    (each : List.Forall₂ (Instr.Matches c c' nodes) code code') :
    InStep c c' nodes (gen.extend code) (gen'.extend code') := by
  obtain ⟨new, new', hnew, hnew', before⟩ := h.code
  refine ⟨h.pools, h.unlimited, h.unlimited', new ++ code, new' ++ code', ?_, ?_, ?_⟩
  · rw [extend_code, hnew, List.append_assoc]
  · rw [extend_code, hnew', List.append_assoc]
  · exact List.rel_append before each

theorem take (h : InStep c c' nodes gen gen') (tenant tenant' : Tenant) :
    InStep c c' nodes (gen.take tenant) (gen'.take tenant') :=
  ⟨h.pools.house tenant tenant', h.unlimited, h.unlimited', h.code⟩

theorem drop (h : InStep c c' nodes gen gen') {reg reg' : Register}
    (paired : c.gen.pool.Paired c'.gen.pool reg reg') :
    InStep c c' nodes (gen.drop reg) (gen'.drop reg') :=
  ⟨h.pools.vacate paired, h.unlimited, h.unlimited', h.code⟩

end InStep

theorem allocTagged_inStep (h : InStep c c' nodes gen gen') (origin : Origin)
    (name name' : Option String) :
    Agree (InStep c c' nodes) (c.gen.pool.Paired c'.gen.pool) (allocTagged origin name gen)
      (allocTagged origin name' gen') := by
  rw [allocTagged_of_room (Pool.reachedLimit?_of_unlimited h.unlimited),
    allocTagged_of_room (Pool.reachedLimit?_of_unlimited h.unlimited')]
  exact ⟨h.pools.lowestFree, h.take _ _⟩

theorem alloc_inStep (h : InStep c c' nodes gen gen') (origin : Origin) (name : Option String) :
    Agree (InStep c c' nodes) (c.gen.pool.Paired c'.gen.pool) (alloc origin name gen)
      (alloc origin name gen') :=
  allocTagged_inStep h origin _ _

end InStep
end Generator

section Code

variable {c c' : Compilation} {nodes : List Expr} {reg reg' : Register}

theorem Kind.constant_matches (kind : Kind) (value : String) (left right : Pool) :
    Operand.Matches left right (kind.constant value) (kind.constant value) := by
  rw [constant]
  split
  · exact .str value
  · exact .raw value

/-- Code that is written for a register is the same code for another one. -/
theorem Kind.literalCode_matches (kind : Kind) (value : String) (origin : Origin)
    (paired : c.gen.pool.Paired c'.gen.pool reg reg') :
    List.Forall₂ (Instr.Matches c c' nodes)
      (Generator.instrs origin (kind.literalCode value reg))
      (Generator.instrs origin (kind.literalCode value reg')) := by
  have here := Operand.Matches.reg paired
  have loads : Instr.Matches c c' nodes ⟨.load, [.reg reg, kind.constant value], origin⟩
      ⟨.load, [.reg reg', kind.constant value], origin⟩ :=
    .same .load origin (.cons here (.cons (kind.constant_matches value _ _) .nil))
  rw [literalCode, literalCode]
  split
  · refine .cons loads (.cons ?_ (.cons ?_ (.cons ?_ .nil)))
    · exact .same .push origin (.cons here .nil)
    · exact .same .extCall origin (.cons (.str addressConstructor) .nil)
    · exact .same .pop origin (.cons here .nil)
  · exact .cons loads .nil

theorem Binding.callCode_matches (binding : Binding) (origin : Origin)
    (paired : c.gen.pool.Paired c'.gen.pool reg reg') :
    List.Forall₂ (Instr.Matches c c' nodes) (Generator.instrs origin (binding.callCode reg))
      (Generator.instrs origin (binding.callCode reg')) := by
  have here := Operand.Matches.reg paired
  have loads (text : String) : Instr.Matches c c' nodes ⟨.load, [.reg reg, .str text], origin⟩
      ⟨.load, [.reg reg', .str text], origin⟩ :=
    .same .load origin (.cons here (.cons (.str text) .nil))
  have alone (opcode : Opcode) :
      Instr.Matches c c' nodes ⟨opcode, [.reg reg], origin⟩ ⟨opcode, [.reg reg'], origin⟩ :=
    .same opcode origin (.cons here .nil)
  rw [callCode, callCode]
  cases binding.implementation with
  | builtin => exact .cons (loads _) (.cons (alone _) (.cons (alone _) .nil))
  | contract name =>
      have context : Instr.Matches c c' nodes ⟨.ctx, [.reg reg, .reg reg], origin⟩
          ⟨.ctx, [.reg reg', .reg reg'], origin⟩ :=
        .same .ctx origin (.cons here (.cons here .nil))
      exact .cons (loads _) (.cons (alone _) (.cons (loads _) (.cons context
        (.cons (alone _) (.cons (alone _) .nil)))))
  | missing => exact .cons (.same .throw origin (.cons (.str _) .nil)) .nil

end Code

theorem Declarations.getConstant_of_cleared_eq {decls decls' : Declarations}
    (h : decls'.cleared = decls.cleared) (id : ConstId) :
    decls'.getConstant id = decls.getConstant id := by
  rw [getConstant, getConstant, consts_of_cleared_eq h]

namespace Expr

open Generator

/-- Every variable among the nodes is bound to a register that is live. -/
def ReadsLive (c : Compilation) (nodes : List Expr) : Prop :=
  ∀ s id, var s id ∈ nodes →
    ∃ reg, c.decls.boundTo? id = some reg ∧ c.gen.pool.isLive reg = true

section TwoRuns

variable {c c' : Compilation} {nodes : List Expr} {gen gen' : Generator}

theorem lowerArgs_inStep {args : List Expr}
    (ih : ∀ arg ∈ args, ∀ gen gen', InStep c c' nodes gen gen' →
      Agree (InStep c c' nodes) (c.gen.pool.Paired c'.gen.pool) (arg.lower c.decls gen)
        (arg.lower c'.decls gen'))
    (h : InStep c c' nodes gen gen') :
    Agree (InStep c c' nodes) Eq (lowerArgs c.decls args gen) (lowerArgs c'.decls args gen') := by
  induction args with
  | nil =>
      simp only [lowerArgs]
      exact ⟨rfl, h⟩
  | cons arg args ihargs =>
      simp only [lowerArgs]
      refine (ihargs fun a ha => ih a (List.mem_cons_of_mem _ ha)).andThen ?_
      intro _ g₁ g₁' h₁
      refine (ih arg List.mem_cons_self g₁ g₁' h₁).bind_runs ?_
      intro reg reg' g₂ g₂' run run' paired h₂
      have pushed := ((lower_takes c.decls arg g₁).of_ok run).trans
        (g₂.extend_takes [⟨.push, [.reg reg], arg.origin⟩])
      have pushed' := ((lower_takes c'.decls arg g₁').of_ok run').trans
        (g₂'.extend_takes [⟨.push, [.reg reg'], arg.origin⟩])
      rw [bind_of_ok (emit_run ..), bind_of_ok (emit_run ..), pushed.release (by simp),
        pushed'.release (by simp)]
      have pushes : List.Forall₂ (Instr.Matches c c' nodes) [⟨.push, [.reg reg], arg.origin⟩]
          [⟨.push, [.reg reg'], arg.origin⟩] :=
        .cons (.same .push arg.origin (.cons (.reg paired) .nil)) .nil
      exact ⟨rfl, (h₂.extend pushes).drop paired⟩

/-- Two runs that have come equally far stay in step through an expression, also if it fails. -/
theorem lower_inStep (same : c'.decls.cleared = c.decls.cleared) (reads : ReadsLive c nodes)
    (reads' : ReadsLive c' nodes) (e : Expr) (part : e.nodes ⊆ nodes)
    (h : InStep c c' nodes gen gen') :
    Agree (InStep c c' nodes) (c.gen.pool.Paired c'.gen.pool) (e.lower c.decls gen)
      (e.lower c'.decls gen') := by
  induction e generalizing gen gen' with
  | not s x ih =>
      have inner : x.nodes ⊆ nodes := fun node hnode => part (by simp [Expr.nodes, hnode])
      simp only [lower]
      refine (ih inner h).bind ?_
      intro reg reg' g g' paired h₁
      refine ⟨paired, h₁.extend (.cons (.same .not s.toOrigin ?_) .nil)⟩
      exact .cons (.reg paired) (.cons (.reg paired) .nil)
  | binary s op left right ihl ihr =>
      have first : left.nodes ⊆ nodes := fun node hnode => part (by simp [Expr.nodes, hnode])
      have second : right.nodes ⊆ nodes := fun node hnode => part (by simp [Expr.nodes, hnode])
      simp only [lower]
      cases op.opcode? with
      | none => exact ⟨rfl, h⟩
      | some opcode =>
          refine (ihl first h).bind_runs ?_
          intro l l' g₁ g₁' run₁ run₁' pairedl h₁
          refine (ihr second h₁).bind_runs ?_
          intro r r' g₂ g₂' run₂ run₂' pairedr h₂
          refine (alloc_inStep h₂ s.toOrigin none).bind_runs ?_
          intro reg reg' g₃ g₃' run₃ run₃' paired h₃
          have taken := (((lower_takes c.decls left gen).of_ok run₁).trans
            ((lower_takes c.decls right g₁).of_ok run₂)).trans
            ((alloc_ends s.toOrigin none g₂).of_ok run₃)
          have taken' := (((lower_takes c'.decls left gen').of_ok run₁').trans
            ((lower_takes c'.decls right g₁').of_ok run₂')).trans
            ((alloc_ends s.toOrigin none g₂').of_ok run₃')
          rw [operate_run taken, operate_run taken']
          have operates : List.Forall₂ (Instr.Matches c c' nodes)
              [⟨opcode, [.reg l, .reg r, .reg reg], s.toOrigin⟩]
              [⟨opcode, [.reg l', .reg r', .reg reg'], s.toOrigin⟩] := by
            refine .cons (.same opcode s.toOrigin ?_) .nil
            exact .cons (.reg pairedl) (.cons (.reg pairedr) (.cons (.reg paired) .nil))
          exact ⟨paired, ((h₃.extend operates).drop pairedr).drop pairedl⟩
  | call s binding args ih =>
      have inner : ∀ arg ∈ args, arg.nodes ⊆ nodes := by
        intro arg harg node hnode
        exact part (List.mem_cons_of_mem _ (mem_argNodes.mpr ⟨arg, harg, hnode⟩))
      simp only [lower]
      refine (lowerArgs_inStep (fun arg harg _ _ => ih arg harg (inner arg harg)) h).andThen ?_
      intro _ g₁ g₁' h₁
      refine (alloc_inStep h₁ s.toOrigin none).bind ?_
      intro reg reg' g₂ g₂' paired h₂
      exact ⟨paired, h₂.extend (binding.callCode_matches s.toOrigin paired)⟩
  | lit s value kind =>
      simp only [lower]
      refine (alloc_inStep h s.toOrigin none).bind ?_
      intro reg reg' g₁ g₁' paired h₁
      exact ⟨paired, h₁.extend (kind.literalCode_matches value s.toOrigin paired)⟩
  | placeholder s name => exact ⟨rfl, h⟩
  | var s id =>
      have here : var s id ∈ nodes := part (by simp [Expr.nodes])
      obtain ⟨source, bound, live⟩ := reads s id here
      obtain ⟨source', bound', live'⟩ := reads' s id here
      simp only [lower]
      rw [bind_of_ok (sourceRegister_of_live bound (h.pools.kept source live)),
        bind_of_ok (sourceRegister_of_live bound' (h.pools.kept' source' live'))]
      refine (alloc_inStep h s.toOrigin none).bind ?_
      intro reg reg' g₁ g₁' paired h₁
      exact ⟨paired, h₁.extend (.cons (.read here bound bound' paired) .nil)⟩
  | const s id =>
      simp only [lower, Declarations.getConstant_of_cleared_eq same id]
      refine (Agree.ofExcept h (c.decls.getConstant id)).andThen ?_
      intro constant g₁ g₁' h₁
      refine (allocTagged_inStep h₁ s.toOrigin _ _).bind ?_
      intro reg reg' g₂ g₂' paired h₂
      refine ⟨paired, h₂.extend (.cons (.same .load s.toOrigin ?_) .nil)⟩
      exact .cons (.reg paired) (.cons (constant.kind.constant_matches _ _ _) .nil)

end TwoRuns

/-- From two starting points whose declarations differ only in what the variables are bound to, an
expression that reads live registers has the same outcome: it fails with the same error, or its value
ends up in the free register of the same number. In either case the instructions that were added are
the same up to the numbers of free registers and the registers that variables are read from. -/
theorem lower_renames_free {c c' : Compilation} (same : c'.decls.cleared = c.decls.cleared)
    (unlimited : c.gen.pool.limit = none) (unlimited' : c'.gen.pool.limit = none) (e : Expr)
    (reads : ReadsLive c e.nodes) (reads' : ReadsLive c' e.nodes) :
    ∃ gen gen' new new',
      ((∃ i, e.lower c.decls c.gen = .ok (c.gen.pool.freeAt i) gen ∧
          e.lower c'.decls c'.gen = .ok (c'.gen.pool.freeAt i) gen') ∨
        ∃ f, e.lower c.decls c.gen = .error f gen ∧ e.lower c'.decls c'.gen = .error f gen') ∧
      gen.code = c.gen.code ++ new ∧ gen'.code = c'.gen.code ++ new' ∧
      List.Forall₂ (Instr.Matches c c' e.nodes) new new' := by
  have agree := lower_inStep same reads reads' e (List.Subset.refl _)
    (InStep.refl e.nodes unlimited unlimited')
  cases hlower : e.lower c.decls c.gen with
  | ok reg gen =>
      cases hlower' : e.lower c'.decls c'.gen with
      | ok reg' gen' =>
          rw [hlower, hlower'] at agree
          obtain ⟨⟨i, rfl, rfl⟩, inStep⟩ := agree
          obtain ⟨new, new', code⟩ := inStep.code
          exact ⟨gen, gen', new, new', .inl ⟨i, rfl, rfl⟩, code⟩
      | error f gen' =>
          rw [hlower, hlower'] at agree
          exact agree.elim
  | error f gen =>
      cases hlower' : e.lower c'.decls c'.gen with
      | ok reg' gen' =>
          rw [hlower, hlower'] at agree
          exact agree.elim
      | error f' gen' =>
          rw [hlower, hlower'] at agree
          obtain ⟨rfl, inStep⟩ := agree
          obtain ⟨new, new', code⟩ := inStep.code
          exact ⟨gen, gen', new, new', .inr ⟨f, rfl, rfl⟩, code⟩

namespace Scattered

def site (node : UInt32) : Site := ⟨⟨⟨node⟩, 1⟩, .root⟩

def tenant (name : Option String) : Tenant := ⟨name, (site 1).toOrigin⟩

/-- A variable in the first register, and a held register behind a free one. -/
def left : Compilation where
  decls := { vars := [⟨"x", .number, some ⟨0⟩⟩], consts := [⟨"rate", .number, "3"⟩] }
  gen := { pool := { slots := [some (tenant "x"), none, some (tenant none)], peak := 3 } }

/-- The variable in the last of five registers, and the second one held too. -/
def right : Compilation where
  decls := { vars := [⟨"x", .number, some ⟨4⟩⟩], consts := [⟨"rate", .number, "3"⟩] }
  gen := { pool := {
    slots := [none, some (tenant none), none, none, some (tenant "x")]
    peak := 5 } }

/-- The variable is read twice, once while its first copy is held. -/
def sum : Expr :=
  .binary (site 2) .add (.var (site 3) ⟨0⟩) (.call (site 4) (.toContract "math" "pow" .number)
    [.binary (site 5) .mul (.const (site 6) ⟨0⟩) (.var (site 7) ⟨0⟩)])

theorem sum_reads {c : Compilation} {reg : Register} (bound : c.decls.boundTo? ⟨0⟩ = some reg)
    (live : c.gen.pool.isLive reg = true) : ReadsLive c sum.nodes := by
  intro s id hnode
  obtain rfl : id = ⟨0⟩ := by
    simp only [sum, nodes, argNodes, List.nil_append, List.mem_cons,
      List.mem_append, List.not_mem_nil, or_false, reduceCtorEq, false_or, var.injEq] at hnode
    rcases hnode with ⟨-, hid⟩ | ⟨-, hid⟩ <;> exact hid
  exact ⟨reg, bound, live⟩

end Scattered

open Scattered in
/-- The free registers are `r1 r3 r4 r5` on the left and `r0 r2 r3 r5` on the right, and the sum ends
up in the third of them. -/
theorem lower_renames_free_scattered :
    right.decls.cleared = left.decls.cleared ∧ left.gen.pool.limit = none ∧
      right.gen.pool.limit = none ∧ ReadsLive left sum.nodes ∧ ReadsLive right sum.nodes ∧
      ∃ gen gen', sum.lower left.decls left.gen = .ok ⟨4⟩ gen ∧
        sum.lower right.decls right.gen = .ok ⟨3⟩ gen' ∧ gen.code.length = 12 ∧
        List.Forall₂ (Instr.Matches left right sum.nodes) gen.code gen'.code := by
  have reads : ReadsLive left sum.nodes := sum_reads rfl rfl
  have reads' : ReadsLive right sum.nodes := sum_reads rfl rfl
  have same : right.decls.cleared = left.decls.cleared := rfl
  refine ⟨same, rfl, rfl, reads, reads', ?_⟩
  obtain ⟨ended, hended, length⟩ : ∃ ended, sum.lower left.decls left.gen = .ok ⟨4⟩ ended ∧
      ended.code.length = 12 := ⟨_, rfl, rfl⟩
  obtain ⟨gen, gen', new, new', outcome, code, code', each⟩ :=
    lower_renames_free same rfl rfl sum reads reads'
  rw [hended] at outcome
  rcases outcome with ⟨i, run, run'⟩ | ⟨f, run, -⟩
  · obtain ⟨hreg, rfl⟩ := EStateM.Result.ok.inj run
    have number : left.gen.pool.freeAt 2 = left.gen.pool.freeAt i := hreg
    obtain rfl := Pool.freeAt_inj.mp number
    obtain rfl : ended.code = new := code
    obtain rfl : gen'.code = new' := code'
    exact ⟨ended, gen', hended, run', length, each⟩
  · cases run

end Expr
end ContractLowering
