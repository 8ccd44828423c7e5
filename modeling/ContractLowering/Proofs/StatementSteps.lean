import ContractLowering.Method.Lower
import ContractLowering.Proofs.Bindings
import ContractLowering.Proofs.LoweringSteps

/-!
What code generation for a statement and for a method consists of. As for expressions, one lemma
for each kind of statement and each part of a method lists the steps of a successful run.
-/

namespace ContractLowering
namespace Declarations

/-- The name and the kind of a variable, as an interface shows them. -/
def parameter? (decls : Declarations) (id : VarId) : Option Parameter :=
  decls.vars[id.index]?.map fun v => ⟨v.name, v.kind⟩

theorem parameter?_of_cleared_eq {decls decls' : Declarations}
    (h : decls'.cleared = decls.cleared) (id : VarId) :
    decls'.parameter? id = decls.parameter? id :=
  getElem?_map_of_cleared_eq (fun v => Parameter.mk v.name v.kind) (fun _ => rfl) h id.index

theorem parameter?_of_getVariable {decls : Declarations} {id : VarId} {v : Variable}
    (h : decls.getVariable id = .ok v) : decls.parameter? id = some ⟨v.name, v.kind⟩ := by
  rw [parameter?, getVariable_ok.mp h, Option.map_some]

end Declarations

namespace Compilation

open Generator

variable {c c' : Compilation} {reg : Register}

theorem generate_ok {α : Type} {step : Declarations → GenM α} {a : α}
    (h : generate step c = .ok a c') :
    ∃ gen, step c.decls c.gen = .ok a gen ∧ c' = { c with gen } := by
  simp only [generate] at h
  split at h
  · rename_i b gen hstep
    cases h
    exact ⟨gen, hstep, rfl⟩
  · cases h

theorem generate_ends {α : Type} {step : Declarations → GenM α} {done : α → Compilation → Prop}
    {failed : Failure → Compilation → Prop}
    (h : Ends (fun a gen => done a { c with gen }) (fun e gen => failed e { c with gen })
      (step c.decls c.gen)) : Ends done failed (generate step c) := by
  simp only [generate]
  cases hstep : step c.decls c.gen with
  | ok a gen => rwa [hstep] at h
  | error e gen => rwa [hstep] at h

theorem getVariable_ok {id : VarId} {v : Variable} (h : getVariable id c = .ok v c') :
    c.decls.getVariable id = .ok v ∧ c = c' := by
  simp only [getVariable] at h
  rw [get_bind] at h
  exact ofExcept_eq_ok h

theorem bind_ok {id : VarId} (h : bind id reg c = .ok () c') :
    ∃ decls, c.decls.bind id reg = .ok decls ∧ c' = { c with decls } := by
  simp only [bind] at h
  rw [get_bind] at h
  obtain ⟨decls, c₁, hbind, h⟩ := ContractLowering.bind_ok h
  obtain ⟨hdecls, rfl⟩ := ofExcept_eq_ok hbind
  cases h
  exact ⟨decls, hdecls, rfl⟩

/-- The tenant that a variable's register has. -/
def tenantOf (gen : Generator) (origin : Origin) (v : Variable) : Tenant :=
  ⟨if gen.debugNames then some v.name else none, origin⟩

theorem allocFor_ok {origin : Origin} {v : Variable} (h : allocFor origin v c = .ok reg c') :
    reg = c.gen.pool.lowestFree ∧ c' = { c with gen := c.gen.take (tenantOf c.gen origin v) } := by
  obtain ⟨gen, halloc, rfl⟩ := generate_ok h
  obtain ⟨hreg, rfl⟩ := alloc_ok halloc
  exact ⟨hreg, rfl⟩

theorem emit_run (origin : Origin) (opcode : Opcode) (operands : List Operand) (c : Compilation) :
    emit origin opcode operands c =
      .ok () { c with gen := c.gen.extend [⟨opcode, operands, origin⟩] } := rfl

theorem release_ok (h : release reg c = .ok () c') :
    c.gen.pool.isLive reg = true ∧ c' = { c with gen := c.gen.drop reg } := by
  obtain ⟨gen, hrelease, rfl⟩ := generate_ok h
  obtain ⟨live, rfl⟩ := Generator.release_ok hrelease
  exact ⟨live, rfl⟩

end Compilation

namespace Stmt

open Compilation

variable {c c' : Compilation} {origin : Origin}

theorem lower_expr_ok {x : Expr} (h : (Stmt.expr origin x).lower c = .ok () c') :
    ∃ reg g, x.lower c.decls c.gen = .ok reg g ∧ c' = { c with gen := g.drop reg } := by
  simp only [lower] at h
  obtain ⟨reg, c₁, hgen, h⟩ := ContractLowering.bind_ok h
  obtain ⟨g, hx, rfl⟩ := generate_ok hgen
  obtain ⟨-, rfl⟩ := release_ok h
  exact ⟨reg, g, hx, rfl⟩

/-- A variable that has a register keeps it. Any other gets the lowest free one. -/
theorem targetRegister_ok {id : VarId} {reg : Register}
    (h : targetRegister origin id c = .ok reg c') :
    (c.decls.boundTo? id = some reg ∧ c' = c) ∨
      ∃ decls tenant, reg = c.gen.pool.lowestFree ∧ c.decls.bind id reg = .ok decls ∧
        c' = ⟨decls, c.gen.take tenant⟩ := by
  simp only [targetRegister] at h
  obtain ⟨v, c₁, hread, h⟩ := ContractLowering.bind_ok h
  obtain ⟨hv, rfl⟩ := getVariable_ok hread
  cases hreg : v.register with
  | some r =>
      rw [hreg] at h
      cases h
      exact Or.inl ⟨by rw [Declarations.boundTo?_of_getVariable hv, hreg], rfl⟩
  | none =>
      rw [hreg] at h
      obtain ⟨r, c₂, halloc, h⟩ := ContractLowering.bind_ok h
      obtain ⟨hr, rfl⟩ := allocFor_ok halloc
      obtain ⟨_, c₃, hbind, h⟩ := ContractLowering.bind_ok h
      obtain ⟨decls, hdecls, rfl⟩ := Compilation.bind_ok hbind
      cases h
      exact Or.inr ⟨decls, _, hr, hdecls, rfl⟩

theorem targetRegister_code {id : VarId} {reg : Register}
    (h : targetRegister origin id c = .ok reg c') : c'.gen.code = c.gen.code := by
  cases targetRegister_ok h with
  | inl bound => rw [bound.2]
  | inr free =>
      obtain ⟨decls, tenant, -, -, rfl⟩ := free
      rfl

theorem lower_assign_ok {target : VarId} {value : Expr}
    (h : (Stmt.assign origin target value).lower c = .ok () c') :
    ∃ reg g dest c₁, value.lower c.decls c.gen = .ok reg g ∧
      targetRegister origin target { c with gen := g } = .ok dest c₁ ∧
      c' = { c₁ with gen :=
        (c₁.gen.extend [⟨.copy, [.reg reg, .reg dest], origin⟩]).drop reg } := by
  simp only [lower] at h
  obtain ⟨reg, c₁, hgen, h⟩ := ContractLowering.bind_ok h
  obtain ⟨g, hvalue, rfl⟩ := generate_ok hgen
  obtain ⟨dest, c₂, htarget, h⟩ := ContractLowering.bind_ok h
  rw [bind_of_ok (emit_run ..)] at h
  obtain ⟨-, rfl⟩ := release_ok h
  exact ⟨reg, g, dest, c₂, hvalue, htarget, rfl⟩

theorem lower_ret_none_ok (h : (Stmt.ret origin none).lower c = .ok () c') :
    c' = { c with gen := c.gen.extend [⟨.ret, [], origin⟩] } := by
  simp only [lower] at h
  rw [emit_run] at h
  cases h
  rfl

theorem lower_ret_some_ok {value : Expr} (h : (Stmt.ret origin (some value)).lower c = .ok () c') :
    ∃ reg g, value.lower c.decls c.gen = .ok reg g ∧
      c' = { c with gen :=
        ((g.extend [⟨.push, [.reg reg], origin⟩]).drop reg).extend [⟨.ret, [], origin⟩] } := by
  simp only [lower] at h
  obtain ⟨reg, c₁, hgen, h⟩ := ContractLowering.bind_ok h
  obtain ⟨g, hvalue, rfl⟩ := generate_ok hgen
  rw [bind_of_ok (emit_run ..)] at h
  obtain ⟨_, c₂, hrelease, h⟩ := ContractLowering.bind_ok h
  obtain ⟨-, rfl⟩ := release_ok hrelease
  rw [emit_run] at h
  cases h
  exact ⟨reg, g, hvalue, rfl⟩

theorem lowerAll_cons_ok {s : Stmt} {ss : List Stmt} (h : lowerAll (s :: ss) c = .ok () c') :
    ∃ c₁, s.lower c = .ok () c₁ ∧ lowerAll ss c₁ = .ok () c' := by
  simp only [lowerAll] at h
  obtain ⟨_, c₁, hs, hss⟩ := ContractLowering.bind_ok h
  exact ⟨c₁, hs, hss⟩

end Stmt

namespace Method

open Compilation

variable {c c' : Compilation} {origin : Origin}

theorem lowerParams_cons_ok {id : VarId} {ids : List VarId}
    (h : lowerParams origin (id :: ids) c = .ok () c') :
    ∃ reg decls tenant, reg = c.gen.pool.lowestFree ∧ c.decls.bind id reg = .ok decls ∧
      lowerParams origin ids
        ⟨decls, (c.gen.take tenant).extend [⟨.pop, [.reg reg], origin⟩]⟩ = .ok () c' := by
  simp only [lowerParams] at h
  obtain ⟨v, c₁, hread, h⟩ := ContractLowering.bind_ok h
  obtain ⟨-, rfl⟩ := getVariable_ok hread
  obtain ⟨reg, c₂, halloc, h⟩ := ContractLowering.bind_ok h
  obtain ⟨hreg, rfl⟩ := allocFor_ok halloc
  rw [bind_of_ok (emit_run ..)] at h
  obtain ⟨_, c₃, hbind, h⟩ := ContractLowering.bind_ok h
  obtain ⟨decls, hdecls, rfl⟩ := Compilation.bind_ok hbind
  exact ⟨reg, decls, _, hreg, hdecls, h⟩

/-- The instructions at the very end of a method. -/
def closing (method : Method) : List Instr :=
  if method.returns = .void then [⟨.ret, [], method.origin⟩] else []

theorem finish_ok {method : Method} {gen gen' : Generator}
    (h : method.finish gen = .ok () gen') :
    gen' = gen.extend method.closing ∧ (method.returns ≠ .void → method.hasReturn = true) := by
  simp only [finish] at h
  by_cases hvoid : method.returns = .void
  · rw [if_pos hvoid, Generator.emit_run] at h
    cases h
    exact ⟨by rw [closing, if_pos hvoid], fun hne => absurd hvoid hne⟩
  · rw [if_neg hvoid] at h
    cases hret : method.hasReturn with
    | false =>
        rw [hret] at h
        cases h
    | true =>
        rw [hret] at h
        cases h
        exact ⟨by simp [closing, hvoid, Generator.extend], fun _ => rfl⟩

theorem releaseAll_ok {regs : List Register} (h : releaseAll regs c = .ok () c') :
    c' = { c with gen := regs.foldl Generator.drop c.gen } := by
  induction regs generalizing c with
  | nil =>
      simp only [releaseAll] at h
      cases h
      rfl
  | cons reg regs ih =>
      simp only [releaseAll] at h
      obtain ⟨_, c₁, hrelease, h⟩ := ContractLowering.bind_ok h
      obtain ⟨-, rfl⟩ := release_ok hrelease
      exact ih h

/-- The live registers that are not among those to keep. -/
def taken (kept : List Register) (gen : Generator) : List Register :=
  gen.pool.liveRegisters.filter (· ∉ kept)

theorem releaseOthers_ok {kept : List Register} (h : releaseOthers kept c = .ok () c') :
    c' = ⟨c.decls.unbind (taken kept c.gen), (taken kept c.gen).foldl Generator.drop c.gen⟩ := by
  simp only [releaseOthers] at h
  rw [get_bind] at h
  obtain ⟨_, c₁, hrelease, h⟩ := ContractLowering.bind_ok h
  rw [releaseAll_ok hrelease] at h
  cases h
  rfl

/-- The parameters are described as they are declared, and nothing changes. -/
theorem describeParams_ok {ids : List VarId} {params : List Parameter}
    (h : describeParams ids c = .ok params c') :
    params.map some = ids.map c.decls.parameter? ∧ c = c' := by
  induction ids generalizing params c' with
  | nil =>
      simp only [describeParams] at h
      cases h
      exact ⟨rfl, rfl⟩
  | cons id ids ih =>
      simp only [describeParams] at h
      obtain ⟨v, c₁, hread, h⟩ := ContractLowering.bind_ok h
      obtain ⟨hv, rfl⟩ := getVariable_ok hread
      obtain ⟨others, c₂, hrest, h⟩ := ContractLowering.bind_ok h
      obtain ⟨hothers, rfl⟩ := ih hrest
      cases h
      refine ⟨?_, rfl⟩
      rw [List.map_cons, List.map_cons, hothers, Declarations.parameter?_of_getVariable hv]

/-- The steps of a method's lowering, and how the method is described. -/
theorem lower_describes {method : Method} {described : ExportedMethod}
    (h : method.lower c = .ok described c') :
    ∃ c₁ c₂ params, method.bindParams c = .ok () c₁ ∧ Stmt.lowerAll method.body c₁ = .ok () c₂ ∧
      (method.returns ≠ .void → method.hasReturn = true) ∧
      params.map some = method.params.map c'.decls.parameter? ∧
      described = ⟨method.name, method.returns, c.gen.position, params⟩ ∧
      c' = ⟨c₂.decls.unbind (taken c.gen.pool.liveRegisters c₂.gen),
        (taken c.gen.pool.liveRegisters c₂.gen).foldl Generator.drop
          (c₂.gen.extend method.closing)⟩ := by
  simp only [lower] at h
  rw [get_bind] at h
  obtain ⟨_, c₁, hparams, h⟩ := ContractLowering.bind_ok h
  obtain ⟨_, c₂, hbody, h⟩ := ContractLowering.bind_ok h
  obtain ⟨_, c₃, hgen, h⟩ := ContractLowering.bind_ok h
  obtain ⟨g, hfinish, rfl⟩ := generate_ok hgen
  obtain ⟨rfl, hreturn⟩ := finish_ok hfinish
  obtain ⟨_, c₄, hrelease, h⟩ := ContractLowering.bind_ok h
  have hc₄ := releaseOthers_ok hrelease
  obtain ⟨params, c₅, hdescribe, h⟩ := ContractLowering.bind_ok h
  obtain ⟨declared, rfl⟩ := describeParams_ok hdescribe
  cases h
  exact ⟨c₁, c₂, params, hparams, hbody, hreturn, declared, rfl, hc₄⟩

theorem lower_ok {method : Method} {described : ExportedMethod}
    (h : method.lower c = .ok described c') :
    ∃ c₁ c₂, method.bindParams c = .ok () c₁ ∧ Stmt.lowerAll method.body c₁ = .ok () c₂ ∧
      (method.returns ≠ .void → method.hasReturn = true) ∧
      described.name = method.name ∧ described.offset = c.gen.position ∧
      c' = ⟨c₂.decls.unbind (taken c.gen.pool.liveRegisters c₂.gen),
        (taken c.gen.pool.liveRegisters c₂.gen).foldl Generator.drop
          (c₂.gen.extend method.closing)⟩ := by
  obtain ⟨c₁, c₂, params, hparams, hbody, hreturn, -, rfl, hafter⟩ := lower_describes h
  exact ⟨c₁, c₂, hparams, hbody, hreturn, rfl, rfl, hafter⟩

end Method
end ContractLowering
