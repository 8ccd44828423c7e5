import ContractLowering.Proofs.Bindings
import ContractLowering.Proofs.LoweringSteps

/-!
The code of an expression, seen apart from the pool that its registers came from. It is the code of
the parts in the order in which they are computed, with the node's own instructions behind it. What
holds of every such code holds of whatever lowering emits.
-/

namespace ContractLowering
namespace Expr

open Generator

/-- An argument of a call, the register of its value, and the code that computes it. -/
structure Argument where
  expr : Expr
  reg : Register
  code : List Instr

/-- The argument is computed and pushed. -/
def Argument.passing (arg : Argument) : List Instr :=
  arg.code ++ [⟨.push, [.reg arg.reg], arg.expr.origin⟩]

/-- The expression has its value in the register once this code has run. A placeholder has none. -/
inductive Yields (decls : Declarations) : Expr → Register → List Instr → Prop
  | not {s : Site} {x : Expr} {reg : Register} {code : List Instr}
      (operand : Yields decls x reg code) :
      Yields decls (.not s x) reg (code ++ instrs s.toOrigin [(.not, [.reg reg, .reg reg])])
  | binary {s : Site} {op : Operator} {opcode : Opcode} {left right : Expr} {l r reg : Register}
      {first second : List Instr} (supported : op.opcode? = some opcode)
      (before : Yields decls left l first) (behind : Yields decls right r second) :
      Yields decls (.binary s op left right) reg
        (first ++ second ++ instrs s.toOrigin [(opcode, [.reg l, .reg r, .reg reg])])
  | call {s : Site} {binding : Binding} {args : List Argument} {reg : Register}
      (each : ∀ arg ∈ args, Yields decls arg.expr arg.reg arg.code) :
      Yields decls (.call s binding (args.map Argument.expr)) reg
        (args.reverse.flatMap Argument.passing ++ instrs s.toOrigin (binding.callCode reg))
  | lit {s : Site} {value : String} {kind : Kind} {reg : Register} :
      Yields decls (.lit s value kind) reg (instrs s.toOrigin (kind.literalCode value reg))
  | var {s : Site} {id : VarId} {source reg : Register} (bound : decls.boundTo? id = some source) :
      Yields decls (.var s id) reg (instrs s.toOrigin [(.copy, [.reg source, .reg reg])])
  | const {s : Site} {id : ConstId} {c : Constant} {reg : Register}
      (declared : decls.getConstant id = .ok c) :
      Yields decls (.const s id) reg
        (instrs s.toOrigin [(.load, [.reg reg, c.kind.constant c.value])])

variable {decls : Declarations} {gen gen' : Generator} {reg : Register}

theorem lowerArgs_yields {args : List Expr}
    (ih : ∀ arg ∈ args, ∀ gen gen' reg, arg.lower decls gen = .ok reg gen' →
      ∃ code, gen'.code = gen.code ++ code ∧ arg.Yields decls reg code)
    (h : lowerArgs decls args gen = .ok () gen') :
    ∃ passed : List Argument, passed.map Argument.expr = args ∧
      gen'.code = gen.code ++ passed.reverse.flatMap Argument.passing ∧
      ∀ arg ∈ passed, arg.expr.Yields decls arg.reg arg.code := by
  induction args generalizing gen' with
  | nil =>
      simp only [lowerArgs] at h
      cases h
      exact ⟨[], rfl, by simp, by simp⟩
  | cons arg args ihargs =>
      obtain ⟨g₁, r, g₂, hrest, harg, rfl⟩ := lowerArgs_cons_ok h
      obtain ⟨passed, rfl, hcode, each⟩ :=
        ihargs (fun a ha => ih a (List.mem_cons_of_mem _ ha)) hrest
      obtain ⟨code, hcode', yields⟩ := ih arg List.mem_cons_self g₁ g₂ r harg
      refine ⟨⟨arg, r, code⟩ :: passed, rfl, ?_, ?_⟩
      · simp [hcode', hcode, Argument.passing]
      · rw [List.forall_mem_cons]
        exact ⟨yields, each⟩

/-- Lowering appends the code of the expression. -/
theorem lower_yields (e : Expr) (h : e.lower decls gen = .ok reg gen') :
    ∃ code, gen'.code = gen.code ++ code ∧ e.Yields decls reg code := by
  induction e generalizing gen gen' reg with
  | not s x ih =>
      obtain ⟨g, hx, rfl⟩ := lower_not_ok h
      obtain ⟨code, hcode, yields⟩ := ih hx
      exact ⟨_, by simp [hcode, instrs], .not yields⟩
  | binary s op left right ihl ihr =>
      obtain ⟨opcode, l, g₁, r, g₂, hop, hl, hr, -, rfl⟩ := lower_binary_ok h
      obtain ⟨first, hfirst, before⟩ := ihl hl
      obtain ⟨second, hsecond, behind⟩ := ihr hr
      exact ⟨_, by simp [hsecond, hfirst, instrs], .binary hop before behind⟩
  | call s binding args ih =>
      obtain ⟨g, hargs, -, rfl⟩ := lower_call_ok h
      obtain ⟨passed, rfl, hcode, each⟩ := lowerArgs_yields (fun a ha g g' r => ih a ha) hargs
      exact ⟨_, by simp [hcode], .call each⟩
  | lit s value kind =>
      obtain ⟨-, rfl⟩ := lower_lit_ok h
      exact ⟨_, rfl, .lit⟩
  | placeholder s name => cases h
  | var s id =>
      obtain ⟨v, source, hv, hsource, -, -, rfl⟩ := lower_var_ok h
      exact ⟨_, rfl, .var ((Declarations.boundTo?_of_getVariable hv).trans hsource)⟩
  | const s id =>
      obtain ⟨c, hc, -, rfl⟩ := lower_const_ok h
      exact ⟨_, rfl, .const hc⟩

end Expr
end ContractLowering
