import ContractLowering.Proofs.Routines
import ContractLowering.Proofs.SoundSteps

/-!
The operations on a generator, and the states that sequences of them lead to. Each operation may fail
on the way, and the next one then goes on from what the failure left. A generator is `Built` if
operations made it from a fresh one, each with declarations of its own choice. A state is `Reached` if
operations made it from a given one, where no register is given back by hand that a variable is bound
to.
-/

namespace ContractLowering

inductive Operation where
  | alloc (origin : Origin) (name : Option String)
  | release (reg : Register)
  | emit (origin : Origin) (opcode : Opcode) (operands : List Operand)
  | lowerExpr (e : Expr)
  | compileExpr (e : Expr)
  | lowerStmt (s : Stmt)
  | bindParams (method : Method)
  | finish (method : Method)
  | lowerMethod (method : Method)

theorem Expr.compile_steps {start : Compilation} {decls : Declarations} {gen : Generator}
    (live : start.BoundLive) (e : Expr) (h : Compilation.Steps start ⟨decls, gen⟩) :
    Ends (fun _ gen' => Compilation.Steps start ⟨decls, gen'⟩)
      (fun _ gen' => Compilation.Steps start ⟨decls, gen'⟩) (e.compile decls gen) := by
  simp only [compile]
  cases (e.expand decls).result with
  | error e => exact h
  | ok e => exact (e.lower_steps live h).bind fun _ _ h' => h'

namespace Operation

open Compilation

/-- The state that an operation leaves, whether it succeeds or fails. -/
def after (c : Compilation) : Operation → Compilation
  | alloc origin name => stateAfter (generate (fun _ => Generator.alloc origin name) c)
  | release reg => stateAfter (Compilation.release reg c)
  | emit origin opcode operands => stateAfter (Compilation.emit origin opcode operands c)
  | lowerExpr e => stateAfter (generate e.lower c)
  | compileExpr e => stateAfter (generate (fun decls => e.compile decls) c)
  | lowerStmt s => stateAfter (s.lower c)
  | bindParams method => stateAfter (method.bindParams c)
  | finish method => stateAfter (generate (fun _ => method.finish) c)
  | lowerMethod method => stateAfter (method.lower c)

/-- Only a register that no variable is bound to is given back by hand. -/
def Permitted (c : Compilation) : Operation → Prop
  | release reg => c.Spare reg
  | _ => True

instance (c : Compilation) : (op : Operation) → Decidable (op.Permitted c)
  | release reg => inferInstanceAs (Decidable (c.Spare reg))
  | alloc .. | emit .. | lowerExpr .. | compileExpr .. | lowerStmt .. | bindParams .. | finish ..
  | lowerMethod .. => inferInstanceAs (Decidable True)

theorem after_keeps {inv : Generator → Prop} (stable : Generator.Stable inv) {c : Compilation}
    (h : inv c.gen) (op : Operation) : inv (op.after c).gen := by
  have kept {α : Type} {x : CompileM α} (hx : Routine x) : inv (stateAfter (x c)).gen :=
    Ends.stateAfter (hx.keeps stable h)
  cases op with
  | alloc origin name => exact kept (.generate fun _ => .alloc origin name)
  | release reg => exact kept (.release reg)
  | emit origin opcode operands => exact kept (.emit origin opcode operands)
  | lowerExpr e => exact kept (.expr e)
  | compileExpr e => exact kept (.generate fun decls => e.compile_routine decls)
  | lowerStmt s => exact kept s.lower_routine
  | bindParams method => exact kept (Method.lowerParams_routine _ _)
  | finish method => exact kept (.generate fun _ => method.finish_routine)
  | lowerMethod method => exact kept method.lower_routine

/-- An operation takes sound steps only, except that an instruction emitted by hand may mention any
registers. -/
theorem after_steps {c : Compilation} (live : c.BoundLive) {op : Operation}
    (permitted : op.Permitted c) :
    Steps c (op.after c) ∨ ∃ code, op.after c = { c with gen := c.gen.extend code } := by
  have begun := Steps.refl c
  cases op with
  | emit origin opcode operands => exact .inr ⟨_, rfl⟩
  | alloc origin name =>
      refine .inl (generate_ends ?_).stateAfter
      exact (Expr.alloc_steps begun origin _).mono (fun _ _ h => h.1) fun _ _ h => h
  | release reg =>
      left
      cases held : c.gen.pool.isLive reg with
      | true => exact (release_steps begun held permitted).stateAfter
      | false =>
          simp only [after, Compilation.release, generate, Generator.release_of_dead held]
          exact begun
  | lowerExpr e => exact .inl (generate_ends (e.lower_steps live begun)).stateAfter
  | compileExpr e => exact .inl (generate_ends (e.compile_steps live begun)).stateAfter
  | lowerStmt s => exact .inl (s.lower_steps live begun).stateAfter
  | bindParams method => exact .inl (Method.lowerParams_steps live begun _ _).stateAfter
  | finish method => exact .inl (generate_ends (Method.finish_steps begun method)).stateAfter
  | lowerMethod method => exact .inl (method.lower_steps live begun).stateAfter

end Operation

inductive Generator.Built : Generator → Prop
  | fresh (options : Options) : Built options.generator
  | step {gen : Generator} (h : Built gen) (decls : Declarations) (op : Operation) :
      Built (op.after ⟨decls, gen⟩).gen

theorem Generator.Built.afterAll {gen : Generator} (h : Built gen) (decls : Declarations)
    (operations : List Operation) : Built (operations.foldl Operation.after ⟨decls, gen⟩).gen := by
  induction operations generalizing decls gen with
  | nil => exact h
  | cons op operations ih => exact ih (h.step decls op) _

theorem Generator.Built.invariant {inv : Generator → Prop} (stable : Stable inv)
    (fresh : ∀ options : Options, inv options.generator) {gen : Generator} (h : Built gen) :
    inv gen := by
  induction h with
  | fresh options => exact fresh options
  | step _ decls op ih => exact op.after_keeps stable ih

inductive Compilation.Reached (start : Compilation) : Compilation → Prop
  | start : Reached start start
  | step {c : Compilation} (h : Reached start c) (op : Operation) (permitted : op.Permitted c) :
      Reached start (op.after c)

end ContractLowering
