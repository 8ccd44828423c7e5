import ContractLowering.Proofs.EmittedCode
import ContractLowering.Proofs.Machine
import ContractLowering.Proofs.ModuleSteps
import ContractLowering.Proofs.StatementDiscipline

/-!
The returns in the code of a method. Expressions emit none and a statement emits as many as there are
return statements in it, so what a method adds to the code has one for each return statement and one
more if the method has no result. That is never none.
-/

namespace ContractLowering

def Instr.isReturn (instr : Instr) : Bool := instr.opcode = .ret

namespace Stmt

mutual

/-- How many return statements there are, at any depth. -/
def returnCount : Stmt → Nat
  | ret _ _ => 1
  | block _ body => allReturnCount body
  | expr .. | assign .. => 0

def allReturnCount : List Stmt → Nat
  | [] => 0
  | s :: ss => s.returnCount + allReturnCount ss

end

theorem allReturnCount_pos {ss : List Stmt}
    (ih : ∀ s ∈ ss, s.hasReturn = true → 0 < s.returnCount) (h : anyHasReturn ss = true) :
    0 < allReturnCount ss := by
  induction ss with
  | nil => cases h
  | cons s ss ihss =>
      simp only [anyHasReturn, Bool.or_eq_true] at h
      simp only [allReturnCount]
      cases h with
      | inl here =>
          have := ih s List.mem_cons_self here
          omega
      | inr later =>
          have := ihss (fun t ht => ih t (List.mem_cons_of_mem _ ht)) later
          omega

theorem returnCount_pos (s : Stmt) (h : s.hasReturn = true) : 0 < s.returnCount := by
  induction s with
  | expr _ _ | assign _ _ _ =>
      simp only [hasReturn] at h
      cases h
  | ret origin value => exact Nat.one_pos
  | block origin body ih =>
      simp only [hasReturn] at h
      simp only [returnCount]
      exact allReturnCount_pos ih h

theorem expandAll_returnCount (decls : Declarations) {ss : List Stmt}
    (ih : ∀ s ∈ ss, (s.expand decls).value.returnCount = s.returnCount) :
    allReturnCount (expandAll decls ss).value = allReturnCount ss := by
  induction ss with
  | nil => rfl
  | cons s ss ihss =>
      have head := ih s List.mem_cons_self
      have tail := ihss fun t ht => ih t (List.mem_cons_of_mem _ ht)
      simp only [expandAll, Progress.both]
      cases (s.expand decls).failure with
      | none => simp only [Progress.map, allReturnCount, head, tail]
      | some e => simp only [Progress.stopped, allReturnCount, head]

/-- Replacing placeholders neither adds nor removes a return. -/
theorem expand_returnCount (decls : Declarations) (s : Stmt) :
    (s.expand decls).value.returnCount = s.returnCount := by
  induction s with
  | expr _ _ | assign _ _ _ => simp only [expand, Progress.map, returnCount]
  | ret origin value => cases value <;> simp only [expand, Progress.map, Progress.done, returnCount]
  | block origin body ih =>
      simp only [expand, Progress.map, returnCount]
      exact expandAll_returnCount decls ih

end Stmt

def Method.returnCount (method : Method) : Nat := Stmt.allReturnCount method.body

theorem Method.expanded_returnCount (decls : Declarations) (method : Method) :
    (method.expanded decls).returnCount = method.returnCount :=
  Stmt.expandAll_returnCount decls fun s _ => s.expand_returnCount decls

namespace Generator

/-- How many returns were emitted so far. -/
def returnCount (gen : Generator) : Nat := gen.code.countP Instr.isReturn

section Fields

variable (gen : Generator) (code : List Instr) (tenant : Tenant) (reg : Register)

@[simp] theorem extend_returnCount :
    (gen.extend code).returnCount = gen.returnCount + code.countP Instr.isReturn :=
  List.countP_append

@[simp] theorem take_returnCount : (gen.take tenant).returnCount = gen.returnCount := rfl
@[simp] theorem drop_returnCount : (gen.drop reg).returnCount = gen.returnCount := rfl

end Fields
end Generator

theorem Kind.literalCode_returns (kind : Kind) (value : String) (reg : Register) (origin : Origin) :
    (Generator.instrs origin (kind.literalCode value reg)).countP Instr.isReturn = 0 := by
  by_cases address : kind = .address <;> simp [literalCode, address, Generator.instrs, Instr.isReturn]

theorem Binding.callCode_returns (binding : Binding) (reg : Register) (origin : Origin) :
    (Generator.instrs origin (binding.callCode reg)).countP Instr.isReturn = 0 := by
  cases himpl : binding.implementation <;>
    simp [callCode, himpl, Generator.instrs, Instr.isReturn]

namespace Expr

open Generator

variable {decls : Declarations} {gen gen' : Generator} {reg : Register}

theorem Argument.passing_returns {arg : Argument}
    (h : arg.code.countP Instr.isReturn = 0) : arg.passing.countP Instr.isReturn = 0 := by
  simp [passing, Instr.isReturn, h]

/-- The code of an expression has no return in it. -/
theorem Yields.returns {e : Expr} {code : List Instr} (h : e.Yields decls reg code) :
    code.countP Instr.isReturn = 0 := by
  induction h with
  | not operand ih => simp [instrs, Instr.isReturn, ih]
  | binary supported before behind ihl ihr =>
      simp [instrs, Instr.isReturn, Operator.opcode?_ne supported .ret rfl, ihl, ihr]
  | @call s binding args reg each ih =>
      rw [List.countP_append, binding.callCode_returns, Nat.add_zero, List.countP_eq_zero]
      intro instr hinstr
      obtain ⟨arg, harg, hinstr⟩ := List.mem_flatMap.mp hinstr
      have passed := Argument.passing_returns (ih arg (List.mem_reverse.mp harg))
      exact List.countP_eq_zero.mp passed instr hinstr
  | lit => exact Kind.literalCode_returns ..
  | var bound => rfl
  | const declared => rfl

theorem lower_returnCount (e : Expr) (h : e.lower decls gen = .ok reg gen') :
    gen'.returnCount = gen.returnCount := by
  obtain ⟨code, hcode, yields⟩ := e.lower_yields h
  rw [returnCount, hcode, List.countP_append, yields.returns]
  rfl

end Expr

namespace Stmt

open Compilation Generator

variable {c c' : Compilation}

theorem lowerAll_returnCount {ss : List Stmt}
    (ih : ∀ s ∈ ss, ∀ c c', s.lower c = .ok () c' →
      c'.gen.returnCount = c.gen.returnCount + s.returnCount)
    (h : lowerAll ss c = .ok () c') :
    c'.gen.returnCount = c.gen.returnCount + allReturnCount ss := by
  induction ss generalizing c with
  | nil =>
      simp only [lowerAll] at h
      cases h
      rfl
  | cons s ss ihss =>
      obtain ⟨c₁, hs, hss⟩ := lowerAll_cons_ok h
      rw [ihss (fun t ht => ih t (List.mem_cons_of_mem _ ht)) hss, ih s List.mem_cons_self c c₁ hs,
        allReturnCount, Nat.add_assoc]

/-- A statement emits as many returns as there are return statements in it. -/
theorem lower_returnCount (s : Stmt) (h : s.lower c = .ok () c') :
    c'.gen.returnCount = c.gen.returnCount + s.returnCount := by
  induction s generalizing c c' with
  | expr origin x =>
      obtain ⟨reg, g, hx, rfl⟩ := lower_expr_ok h
      simp [returnCount, x.lower_returnCount hx]
  | assign origin target value =>
      obtain ⟨reg, g, dest, c₁, hvalue, htarget, rfl⟩ := lower_assign_ok h
      have kept : c₁.gen.returnCount = g.returnCount :=
        congrArg (List.countP Instr.isReturn) (targetRegister_code htarget)
      simp [returnCount, Instr.isReturn, kept, value.lower_returnCount hvalue]
  | ret origin value =>
      cases value with
      | none =>
          rw [lower_ret_none_ok h]
          simp [returnCount, Instr.isReturn]
      | some value =>
          obtain ⟨reg, g, hvalue, rfl⟩ := lower_ret_some_ok h
          simp [returnCount, Instr.isReturn, value.lower_returnCount hvalue]
  | block origin body ih =>
      simp only [lower] at h
      simp only [returnCount]
      exact lowerAll_returnCount (fun s hs c c' => ih s hs) h

end Stmt

namespace Method

open Compilation

variable {c c' : Compilation}

theorem lowerParams_returnCount {origin : Origin} {ids : List VarId}
    (h : lowerParams origin ids c = .ok () c') : c'.gen.returnCount = c.gen.returnCount := by
  induction ids generalizing c with
  | nil =>
      simp only [lowerParams] at h
      cases h
      rfl
  | cons id ids ih =>
      obtain ⟨reg, decls, tenant, -, -, h⟩ := lowerParams_cons_ok h
      rw [ih h]
      simp [Instr.isReturn]

/-- The returns that the code of the method has to have: its own, and one for a method without a
result, which returns at its end. -/
def expectedReturns (method : Method) : Nat :=
  method.returnCount + if method.returns = .void then 1 else 0

theorem expanded_expectedReturns (decls : Declarations) (method : Method) :
    (method.expanded decls).expectedReturns = method.expectedReturns := by
  rw [expectedReturns, expectedReturns, expanded_returnCount]
  rfl

theorem closing_returns (method : Method) :
    method.closing.countP Instr.isReturn = if method.returns = .void then 1 else 0 := by
  rw [closing]
  split <;> rfl

theorem expectedReturns_pos {method : Method}
    (h : method.returns ≠ .void → method.hasReturn = true) : 0 < method.expectedReturns := by
  rw [expectedReturns]
  by_cases hvoid : method.returns = .void
  · rw [if_pos hvoid]
    exact Nat.succ_pos _
  · have own := Stmt.allReturnCount_pos (fun s _ => s.returnCount_pos) (h hvoid)
    exact Nat.add_pos_left own _

/-- What a method adds to the code has the returns that it has to have, and at least one. -/
theorem lower_part {method : Method} {described : ExportedMethod}
    (h : method.lower c = .ok described c') :
    ∃ part, c'.gen.code = c.gen.code ++ part ∧
      part.countP Instr.isReturn = method.expectedReturns ∧ 0 < method.expectedReturns := by
  obtain ⟨c₁, c₂, hparams, hbody, hreturn, -, -, rfl⟩ := lower_ok h
  obtain ⟨new, entered⟩ := lowerParams_binds hparams
  obtain ⟨new', ran⟩ := Stmt.lowerAll_binds (fun s _ _ _ => s.lower_binds) hbody
  obtain ⟨part, hpart⟩ := (entered.trans ran).takes.code
  refine ⟨part ++ method.closing, by simp [foldl_drop_code, ← hpart], ?_,
    expectedReturns_pos hreturn⟩
  -- the returns are counted once along the run and once in the code that it added
  have counted : c₂.gen.returnCount = c.gen.returnCount + method.returnCount := by
    rw [Stmt.lowerAll_returnCount (fun s _ _ _ => s.lower_returnCount) hbody,
      lowerParams_returnCount hparams]
    rfl
  have added : c₂.gen.returnCount = c.gen.returnCount + part.countP Instr.isReturn := by
    rw [Generator.returnCount, ← hpart, List.countP_append]
    rfl
  rw [List.countP_append, closing_returns, expectedReturns]
  omega

end Method
end ContractLowering
