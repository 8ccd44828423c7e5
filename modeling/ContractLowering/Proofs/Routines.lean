import ContractLowering.Expr.Compile
import ContractLowering.Proofs.StatementSteps
import ContractLowering.SourceModule.Compile

/-!
What code generation is made of. A routine is a program that is put together from the basic steps:
it emits instructions, takes registers and gives them back, and looks at the generator only to see
which registers are live and how many instructions there are. Expressions, statements, methods and
modules are lowered by routines. What the basic steps preserve is therefore preserved by each of
them, whatever the declarations hold and however the run ends.
-/

namespace ContractLowering
namespace Generator

inductive Routine : {α : Type} → GenM α → Prop
  | pure {α : Type} (a : α) : Routine (pure a)
  | throw {α : Type} (e : Failure) : Routine (throw e : GenM α)
  | bind {α β : Type} {x : GenM α} {f : α → GenM β} (hx : Routine x) (hf : ∀ a, Routine (f a)) :
      Routine (x >>= f)
  | look {α : Type} {f : (Register → Bool) → GenM α} (hf : ∀ live, Routine (f live)) :
      Routine (get >>= fun gen => f gen.pool.isLive)
  | emitAll (origin : Origin) (code : List (Opcode × List Operand)) : Routine (emitAll origin code)
  | allocTagged (origin : Origin) (name : Option String) : Routine (allocTagged origin name)
  | alloc (origin : Origin) (name : Option String) : Routine (alloc origin name)
  | release (reg : Register) : Routine (release reg)

/-- A property of generators that survives each of the basic steps. A register is taken only while
the limit allows it, and only a live one is given back. -/
structure Stable (inv : Generator → Prop) : Prop where
  extend : ∀ gen code, inv gen → inv (gen.extend code)
  take : ∀ gen tenant, gen.pool.reachedLimit? = none → inv gen → inv (gen.take tenant)
  drop : ∀ gen reg, gen.pool.isLive reg = true → inv gen → inv (gen.drop reg)

theorem limit_stable (limit : Option Nat) : Stable fun gen => gen.pool.limit = limit :=
  ⟨fun _ _ h => h, fun _ _ _ h => h, fun _ _ _ h => h⟩

theorem debugNames_stable (debugNames : Bool) : Stable fun gen => gen.debugNames = debugNames :=
  ⟨fun _ _ h => h, fun _ _ _ h => h, fun _ _ _ h => h⟩

namespace Routine

theorem emit (origin : Origin) (opcode : Opcode) (operands : List Operand) :
    Routine (Generator.emit origin opcode operands) :=
  emitAll origin _

theorem ofExcept {α : Type} (x : Except Failure α) : Routine (MonadExcept.ofExcept x : GenM α) := by
  cases x with
  | ok a => exact pure a
  | error e => exact throw e

theorem allocTagged_keeps {inv : Generator → Prop} (stable : Stable inv) (origin : Origin)
    (name : Option String) {gen : Generator} (h : inv gen) :
    Ends (fun _ gen' => inv gen') (fun _ gen' => inv gen')
      (Generator.allocTagged origin name gen) := by
  cases room : gen.pool.reachedLimit? with
  | none =>
      rw [allocTagged_of_room room]
      exact stable.take gen _ room h
  | some limit =>
      rw [allocTagged_of_limit room]
      exact h

/-- A routine preserves what every step of it does, also if it fails on the way. -/
theorem keeps {α : Type} {x : GenM α} (hx : Routine x) {inv : Generator → Prop}
    (stable : Stable inv) {gen : Generator} (h : inv gen) :
    Ends (fun _ gen' => inv gen') (fun _ gen' => inv gen') (x gen) := by
  induction hx generalizing gen with
  | pure a => exact h
  | throw e => exact h
  | bind _ _ ihx ihf => exact (ihx h).bind fun a gen' h' => ihf a h'
  | look _ ih => exact ih gen.pool.isLive h
  | emitAll origin code => exact stable.extend gen _ h
  | allocTagged origin name => exact allocTagged_keeps stable origin name h
  | alloc origin name => exact allocTagged_keeps stable origin _ h
  | release reg =>
      cases live : gen.pool.isLive reg with
      | true =>
          rw [release_of_live live]
          exact stable.drop gen reg live h
      | false =>
          rw [release_of_dead live]
          exact h

end Routine
end Generator

namespace Expr

open Generator

theorem sourceRegister_routine (decls : Declarations) (origin : Origin) (id : VarId) :
    Routine (sourceRegister decls origin id) := by
  refine (Routine.ofExcept _).bind fun v => ?_
  have look : Routine (get >>= fun gen => (v.register.filter gen.pool.isLive).elim
      (throw (.reported (.uninitializedVariable origin v.name))) pure) := by
    refine Routine.look (f := fun live => (v.register.filter live).elim _ pure) fun live => ?_
    cases v.register.filter live with
    | some reg => exact .pure reg
    | none => exact .throw _
  refine Eq.mp (congrArg Routine (congrArg (get >>= ·) (funext fun gen => ?_))) look
  cases v.register.filter gen.pool.isLive <;> rfl

theorem lowerArgs_routine (decls : Declarations) {args : List Expr}
    (ih : ∀ arg ∈ args, Routine (arg.lower decls)) : Routine (lowerArgs decls args) := by
  induction args with
  | nil =>
      simp only [lowerArgs]
      exact .pure ()
  | cons arg args ihargs =>
      simp only [lowerArgs]
      refine (ihargs fun a ha => ih a (List.mem_cons_of_mem _ ha)).bind fun _ => ?_
      exact (ih arg List.mem_cons_self).bind fun reg => (Routine.emit ..).bind fun _ => .release reg

theorem lower_routine (decls : Declarations) (e : Expr) : Routine (e.lower decls) := by
  induction e with
  | not site x ih =>
      simp only [lower]
      exact ih.bind fun reg => (Routine.emit ..).bind fun _ => .pure reg
  | binary site op left right ihl ihr =>
      simp only [lower]
      cases op.opcode? with
      | none => exact .throw _
      | some opcode =>
          refine ihl.bind fun l => ihr.bind fun r => (Routine.alloc ..).bind fun reg => ?_
          refine (Routine.emit ..).bind fun _ => ?_
          exact (Routine.release r).bind fun _ => (Routine.release l).bind fun _ => .pure reg
  | call site binding args ih =>
      simp only [lower]
      refine (lowerArgs_routine decls ih).bind fun _ => (Routine.alloc ..).bind fun reg => ?_
      exact (Routine.emitAll ..).bind fun _ => .pure reg
  | lit site value kind =>
      simp only [lower]
      exact (Routine.alloc ..).bind fun reg => (Routine.emitAll ..).bind fun _ => .pure reg
  | placeholder site name =>
      simp only [lower]
      exact .throw _
  | var site id =>
      simp only [lower]
      refine (sourceRegister_routine decls _ id).bind fun source => ?_
      exact (Routine.alloc ..).bind fun reg => (Routine.emit ..).bind fun _ => .pure reg
  | const site id =>
      simp only [lower]
      refine (Routine.ofExcept _).bind fun c => (Routine.allocTagged ..).bind fun reg => ?_
      exact (Routine.emit ..).bind fun _ => .pure reg

theorem compile_routine (decls : Declarations) (e : Expr) : Routine (e.compile decls) :=
  (Routine.ofExcept _).bind fun e => (lower_routine decls e).bind fun _ => .pure _

end Expr

namespace Compilation

/-- Routines that work on the declarations too. -/
inductive Routine : {α : Type} → CompileM α → Prop
  | pure {α : Type} (a : α) : Routine (pure a)
  | throw {α : Type} (e : Failure) : Routine (throw e : CompileM α)
  | bind {α β : Type} {x : CompileM α} {f : α → CompileM β} (hx : Routine x)
      (hf : ∀ a, Routine (f a)) : Routine (x >>= f)
  | generate {α : Type} {step : Declarations → GenM α}
      (hstep : ∀ decls, Generator.Routine (step decls)) : Routine (generate step)
  | look {α : Type} {f : List Register → Nat → CompileM α}
      (hf : ∀ live position, Routine (f live position)) :
      Routine (get >>= fun c => f c.gen.pool.liveRegisters c.gen.position)
  | consult {α : Type} {f : Declarations → CompileM α} (hf : ∀ decls, Routine (f decls)) :
      Routine (get >>= fun c => f c.decls)
  | amend (f : Declarations → Declarations) :
      Routine (modify fun c => { c with decls := f c.decls })

namespace Routine

theorem ofExcept {α : Type} (x : Except Failure α) :
    Routine (MonadExcept.ofExcept x : CompileM α) := by
  cases x with
  | ok a => exact pure a
  | error e => exact throw e

theorem keeps {α : Type} {x : CompileM α} (hx : Routine x) {inv : Generator → Prop}
    (stable : Generator.Stable inv) {c : Compilation} (h : inv c.gen) :
    Ends (fun _ c' => inv c'.gen) (fun _ c' => inv c'.gen) (x c) := by
  induction hx generalizing c with
  | pure a => exact h
  | throw e => exact h
  | bind _ _ ihx ihf => exact (ihx h).bind fun a c' h' => ihf a h'
  | generate hstep => exact generate_ends ((hstep c.decls).keeps stable h)
  | look _ ih => exact ih c.gen.pool.liveRegisters c.gen.position h
  | consult _ ih => exact ih c.decls h
  | amend f => exact h

theorem getVariable (id : VarId) : Routine (Compilation.getVariable id) :=
  consult fun decls => ofExcept (decls.getVariable id)

theorem bindVariable (id : VarId) (reg : Register) : Routine (Compilation.bind id reg) :=
  consult fun decls => (ofExcept (decls.bind id reg)).bind fun decls => amend fun _ => decls

theorem allocFor (origin : Origin) (v : Variable) : Routine (Compilation.allocFor origin v) :=
  generate fun _ => .alloc origin _

theorem emit (origin : Origin) (opcode : Opcode) (operands : List Operand) :
    Routine (Compilation.emit origin opcode operands) :=
  generate fun _ => .emit origin opcode operands

theorem release (reg : Register) : Routine (Compilation.release reg) :=
  generate fun _ => .release reg

theorem expr (e : Expr) : Routine (Compilation.generate e.lower) :=
  generate fun decls => e.lower_routine decls

end Routine
end Compilation

namespace Stmt

open Compilation

theorem targetRegister_routine (origin : Origin) (id : VarId) :
    Routine (targetRegister origin id) := by
  refine (Routine.getVariable id).bind fun v => ?_
  cases v.register with
  | some reg => exact .pure reg
  | none =>
      exact (Routine.allocFor origin v).bind fun reg =>
        (Routine.bindVariable id reg).bind fun _ => .pure reg

theorem lowerAll_routine {ss : List Stmt} (ih : ∀ s ∈ ss, Routine s.lower) :
    Routine (lowerAll ss) := by
  induction ss with
  | nil =>
      simp only [lowerAll]
      exact .pure ()
  | cons s ss ihss =>
      simp only [lowerAll]
      exact (ih s List.mem_cons_self).bind fun _ =>
        ihss fun t ht => ih t (List.mem_cons_of_mem _ ht)

theorem lower_routine (s : Stmt) : Routine s.lower := by
  induction s with
  | expr origin x =>
      simp only [lower]
      exact (Routine.expr x).bind fun reg => .release reg
  | assign origin target value =>
      simp only [lower]
      refine (Routine.expr value).bind fun reg => ?_
      refine (targetRegister_routine origin target).bind fun dest => ?_
      exact (Routine.emit ..).bind fun _ => .release reg
  | ret origin value =>
      cases value with
      | none =>
          simp only [lower]
          exact .emit ..
      | some value =>
          simp only [lower]
          refine (Routine.expr value).bind fun reg => (Routine.emit ..).bind fun _ => ?_
          exact (Routine.release reg).bind fun _ => .emit ..
  | block origin body ih =>
      simp only [lower]
      exact lowerAll_routine ih

end Stmt

namespace Method

open Compilation

theorem lowerParams_routine (origin : Origin) (ids : List VarId) :
    Routine (lowerParams origin ids) := by
  induction ids with
  | nil => exact .pure ()
  | cons id ids ih =>
      simp only [lowerParams]
      refine (Routine.getVariable id).bind fun v => (Routine.allocFor origin v).bind fun reg => ?_
      exact (Routine.emit ..).bind fun _ => (Routine.bindVariable id reg).bind fun _ => ih

theorem finish_routine (method : Method) : Generator.Routine method.finish := by
  rw [finish]
  split
  · exact .emit ..
  · split
    · exact .pure ()
    · exact .throw _

theorem releaseAll_routine (regs : List Register) : Routine (releaseAll regs) := by
  induction regs with
  | nil => exact .pure ()
  | cons reg regs ih =>
      simp only [releaseAll]
      exact (Routine.release reg).bind fun _ => ih

theorem releaseOthers_routine (kept : List Register) : Routine (releaseOthers kept) := by
  refine Routine.look (f := fun live _ => do
    releaseAll (live.filter (· ∉ kept))
    modify fun c => { c with decls := c.decls.unbind (live.filter (· ∉ kept)) }) fun live _ => ?_
  exact (releaseAll_routine _).bind fun _ => .amend fun decls => decls.unbind _

theorem describeParams_routine (ids : List VarId) : Routine (describeParams ids) := by
  induction ids with
  | nil => exact .pure []
  | cons id ids ih =>
      simp only [describeParams]
      exact (Routine.getVariable id).bind fun v => ih.bind fun _ => .pure _

theorem lower_routine (method : Method) : Routine method.lower := by
  refine Routine.look (f := fun live position => do
    method.bindParams
    Stmt.lowerAll method.body
    generate fun _ => method.finish
    releaseOthers live
    let params ← describeParams method.params
    return (⟨method.name, method.returns, position, params⟩ : ExportedMethod))
    fun live position => ?_
  refine (lowerParams_routine ..).bind fun _ => ?_
  refine (Stmt.lowerAll_routine fun s _ => s.lower_routine).bind fun _ => ?_
  refine (Routine.generate fun _ => method.finish_routine).bind fun _ => ?_
  exact (releaseOthers_routine live).bind fun _ => (describeParams_routine _).bind fun _ => .pure _

end Method

theorem SourceModule.lowerMethods_routine (methods : List Method) :
    Compilation.Routine (lowerMethods methods) := by
  induction methods with
  | nil => exact .pure []
  | cons method methods ih =>
      simp only [lowerMethods]
      exact method.lower_routine.bind fun _ => ih.bind fun _ => .pure _

end ContractLowering
