import ContractLowering.Expr.Lower
import ContractLowering.Proofs.Outcomes
import ContractLowering.Proofs.PoolTenants

/-!
What code generation for an expression consists of. The basic steps are functions from state to
state: `extend` adds instructions, `take` takes the lowest free register and `drop` gives one back.
For each kind of node one lemma lists the steps of a successful run in order, together with the
runs for the node's parts.
-/

namespace ContractLowering
namespace Generator

/-- The state after instructions were added. -/
def extend (gen : Generator) (code : List Instr) : Generator :=
  { gen with code := gen.code ++ code }

/-- The state after the lowest free register was taken. -/
def take (gen : Generator) (tenant : Tenant) : Generator :=
  { gen with pool := gen.pool.house tenant }.record .allocated gen.pool.lowestFree

/-- The state after a register was given back. -/
def drop (gen : Generator) (reg : Register) : Generator :=
  { gen with pool := gen.pool.vacate reg }.record .released reg

/-- The instructions of one origin. -/
def instrs (origin : Origin) (code : List (Opcode × List Operand)) : List Instr :=
  code.map fun c => ⟨c.1, c.2, origin⟩

section Fields

variable (gen : Generator) (code : List Instr) (tenant : Tenant) (reg : Register)

@[simp] theorem extend_code : (gen.extend code).code = gen.code ++ code := rfl
@[simp] theorem extend_pool : (gen.extend code).pool = gen.pool := rfl
@[simp] theorem take_code : (gen.take tenant).code = gen.code := rfl
@[simp] theorem take_pool : (gen.take tenant).pool = gen.pool.house tenant := rfl
@[simp] theorem drop_code : (gen.drop reg).code = gen.code := rfl
@[simp] theorem drop_pool : (gen.drop reg).pool = gen.pool.vacate reg := rfl
@[simp] theorem extend_journal : (gen.extend code).journal = gen.journal := rfl
@[simp] theorem take_journal : (gen.take tenant).journal =
    gen.journal ++ [⟨gen.position, .allocated, gen.pool.lowestFree⟩] := rfl
@[simp] theorem drop_journal :
    (gen.drop reg).journal = gen.journal ++ [⟨gen.position, .released, reg⟩] := rfl

end Fields

theorem emitAll_run (origin : Origin) (code : List (Opcode × List Operand)) (gen : Generator) :
    emitAll origin code gen = .ok () (gen.extend (instrs origin code)) := rfl

theorem emit_run (origin : Origin) (opcode : Opcode) (operands : List Operand) (gen : Generator) :
    emit origin opcode operands gen = .ok () (gen.extend [⟨opcode, operands, origin⟩]) := rfl

theorem allocTagged_ok {origin : Origin} {name : Option String} {gen gen' : Generator}
    {reg : Register} (h : allocTagged origin name gen = .ok reg gen') :
    reg = gen.pool.lowestFree ∧ gen' = gen.take ⟨name, origin⟩ := by
  rw [allocTagged] at h
  split at h
  · rename_i r pool halloc
    obtain ⟨-, rfl, rfl⟩ := Pool.allocate_ok halloc
    cases h
    exact ⟨rfl, rfl⟩
  · cases h

theorem alloc_ok {origin : Origin} {name : Option String} {gen gen' : Generator} {reg : Register}
    (h : alloc origin name gen = .ok reg gen') :
    reg = gen.pool.lowestFree ∧
      gen' = gen.take ⟨if gen.debugNames then name else none, origin⟩ :=
  allocTagged_ok h

theorem alloc_none_ok {origin : Origin} {gen gen' : Generator} {reg : Register}
    (h : alloc origin none gen = .ok reg gen') :
    reg = gen.pool.lowestFree ∧ gen' = gen.take ⟨none, origin⟩ := by
  obtain ⟨hreg, hgen⟩ := alloc_ok h
  rw [ite_self] at hgen
  exact ⟨hreg, hgen⟩

theorem allocTagged_of_room {origin : Origin} {name : Option String} {gen : Generator}
    (room : gen.pool.reachedLimit? = none) :
    allocTagged origin name gen = .ok gen.pool.lowestFree (gen.take ⟨name, origin⟩) := by
  simp only [allocTagged, Pool.allocate, room]
  rfl

theorem allocTagged_of_limit {origin : Origin} {name : Option String} {gen : Generator}
    {limit : Nat} (reached : gen.pool.reachedLimit? = some limit) :
    allocTagged origin name gen = .error (.reported (.registerLimit origin limit)) gen := by
  simp only [allocTagged, Pool.allocate, reached]

/-- A request for a register that fails changes nothing. -/
theorem allocTagged_error {origin : Origin} {name : Option String} {gen gen' : Generator}
    {e : Failure} (h : allocTagged origin name gen = .error e gen') : gen' = gen := by
  rw [allocTagged] at h
  split at h
  · cases h
  · cases h
    rfl

theorem release_of_live {gen : Generator} {reg : Register} (h : gen.pool.isLive reg = true) :
    release reg gen = .ok () (gen.drop reg) := by
  rw [release, Pool.release_of_live h]
  rfl

theorem release_of_dead {gen : Generator} {reg : Register} (h : gen.pool.isLive reg = false) :
    release reg gen = .error (.reported (.doubleRelease reg)) gen := by
  simp only [release, Pool.release, h, Bool.false_eq_true, if_false]

theorem release_ok {gen gen' : Generator} {reg : Register} (h : release reg gen = .ok () gen') :
    gen.pool.isLive reg = true ∧ gen' = gen.drop reg := by
  rw [release] at h
  split at h
  · rename_i pool hrelease
    obtain ⟨live, rfl⟩ := Pool.release_ok hrelease
    cases h
    exact ⟨live, rfl⟩
  · cases h

end Generator

namespace Expr

open Generator

variable {decls : Declarations} {gen gen' : Generator} {reg : Register} {s : Site}

theorem lower_not_ok {x : Expr} (h : (Expr.not s x).lower decls gen = .ok reg gen') :
    ∃ g, x.lower decls gen = .ok reg g ∧
      gen' = g.extend [⟨.not, [.reg reg, .reg reg], s.toOrigin⟩] := by
  simp only [lower] at h
  obtain ⟨r, g, hx, h⟩ := bind_ok h
  rw [bind_of_ok (emit_run ..)] at h
  cases h
  exact ⟨g, hx, rfl⟩

theorem lower_binary_ok {op : Operator} {left right : Expr}
    (h : (Expr.binary s op left right).lower decls gen = .ok reg gen') :
    ∃ opcode l g₁ r g₂, op.opcode? = some opcode ∧ left.lower decls gen = .ok l g₁ ∧
      right.lower decls g₁ = .ok r g₂ ∧ reg = g₂.pool.lowestFree ∧
      gen' = (((g₂.take ⟨none, s.toOrigin⟩).extend
        [⟨opcode, [.reg l, .reg r, .reg reg], s.toOrigin⟩]).drop r).drop l := by
  simp only [lower] at h
  cases hop : op.opcode? with
  | none =>
      rw [hop] at h
      cases h
  | some opcode =>
      rw [hop] at h
      obtain ⟨l, g₁, hl, h⟩ := bind_ok h
      obtain ⟨r, g₂, hr, h⟩ := bind_ok h
      obtain ⟨dst, g₃, ha, h⟩ := bind_ok h
      obtain ⟨hdst, rfl⟩ := alloc_none_ok ha
      rw [bind_of_ok (emit_run ..)] at h
      obtain ⟨_, g₅, h₅, h⟩ := bind_ok h
      obtain ⟨-, rfl⟩ := release_ok h₅
      obtain ⟨_, g₆, h₆, h⟩ := bind_ok h
      obtain ⟨-, rfl⟩ := release_ok h₆
      cases h
      exact ⟨opcode, l, g₁, r, g₂, rfl, hl, hr, hdst, rfl⟩

theorem lower_call_ok {binding : Binding} {args : List Expr}
    (h : (Expr.call s binding args).lower decls gen = .ok reg gen') :
    ∃ g, lowerArgs decls args gen = .ok () g ∧ reg = g.pool.lowestFree ∧
      gen' = (g.take ⟨none, s.toOrigin⟩).extend (instrs s.toOrigin (binding.callCode reg)) := by
  simp only [lower] at h
  obtain ⟨_, g, hargs, h⟩ := bind_ok h
  obtain ⟨r, g', ha, h⟩ := bind_ok h
  obtain ⟨hr, rfl⟩ := alloc_none_ok ha
  rw [bind_of_ok (emitAll_run ..)] at h
  cases h
  exact ⟨g, hargs, hr, rfl⟩

theorem lower_lit_ok {value : String} {kind : Kind}
    (h : (Expr.lit s value kind).lower decls gen = .ok reg gen') :
    reg = gen.pool.lowestFree ∧
      gen' = (gen.take ⟨none, s.toOrigin⟩).extend
        (instrs s.toOrigin (kind.literalCode value reg)) := by
  simp only [lower] at h
  obtain ⟨r, g, ha, h⟩ := bind_ok h
  obtain ⟨hr, rfl⟩ := alloc_none_ok ha
  rw [bind_of_ok (emitAll_run ..)] at h
  cases h
  exact ⟨hr, rfl⟩

theorem sourceRegister_ok {origin : Origin} {id : VarId}
    (h : sourceRegister decls origin id gen = .ok reg gen') :
    gen = gen' ∧ gen.pool.isLive reg = true ∧
      ∃ v, decls.getVariable id = .ok v ∧ v.register = some reg := by
  rw [sourceRegister] at h
  obtain ⟨v, g, hread, h⟩ := bind_ok h
  obtain ⟨hv, rfl⟩ := ofExcept_eq_ok hread
  rw [get_bind] at h
  cases hsource : v.register.filter gen.pool.isLive with
  | none =>
      rw [hsource] at h
      cases h
  | some r =>
      rw [hsource] at h
      cases h
      obtain ⟨hr, live⟩ := Option.filter_eq_some_iff.mp hsource
      exact ⟨rfl, live, v, hv, hr⟩

theorem lower_var_ok {id : VarId} (h : (Expr.var s id).lower decls gen = .ok reg gen') :
    ∃ v source, decls.getVariable id = .ok v ∧ v.register = some source ∧
      gen.pool.isLive source = true ∧ reg = gen.pool.lowestFree ∧
      gen' = (gen.take ⟨none, s.toOrigin⟩).extend
        [⟨.copy, [.reg source, .reg reg], s.toOrigin⟩] := by
  simp only [lower] at h
  obtain ⟨source, g, hs, h⟩ := bind_ok h
  obtain ⟨rfl, live, v, hv, hsource⟩ := sourceRegister_ok hs
  obtain ⟨r, g', ha, h⟩ := bind_ok h
  obtain ⟨hr, rfl⟩ := alloc_none_ok ha
  rw [bind_of_ok (emit_run ..)] at h
  cases h
  exact ⟨v, source, hv, hsource, live, hr, rfl⟩

theorem lower_const_ok {id : ConstId} (h : (Expr.const s id).lower decls gen = .ok reg gen') :
    ∃ c, decls.getConstant id = .ok c ∧ reg = gen.pool.lowestFree ∧
      gen' = (gen.take ⟨some c.name, s.toOrigin⟩).extend
        [⟨.load, [.reg reg, c.kind.constant c.value], s.toOrigin⟩] := by
  simp only [lower] at h
  obtain ⟨c, g, hread, h⟩ := bind_ok h
  obtain ⟨hc, rfl⟩ := ofExcept_eq_ok hread
  obtain ⟨r, g', ha, h⟩ := bind_ok h
  obtain ⟨hr, rfl⟩ := allocTagged_ok ha
  rw [bind_of_ok (emit_run ..)] at h
  cases h
  exact ⟨c, hc, hr, rfl⟩

theorem lowerArgs_cons_ok {arg : Expr} {args : List Expr}
    (h : lowerArgs decls (arg :: args) gen = .ok () gen') :
    ∃ g₁ r g₂, lowerArgs decls args gen = .ok () g₁ ∧ arg.lower decls g₁ = .ok r g₂ ∧
      gen' = (g₂.extend [⟨.push, [.reg r], arg.origin⟩]).drop r := by
  simp only [lowerArgs] at h
  obtain ⟨_, g₁, hargs, h⟩ := bind_ok h
  obtain ⟨r, g₂, harg, h⟩ := bind_ok h
  rw [bind_of_ok (emit_run ..)] at h
  obtain ⟨-, rfl⟩ := release_ok h
  exact ⟨g₁, r, g₂, hargs, harg, rfl⟩

end Expr
end ContractLowering
