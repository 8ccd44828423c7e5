import ContractLowering.Proofs.Operations

/-!
Variables and registers stay coupled. Whatever operations are done, and wherever they fail, a bound
variable has a live register that it shares with no other variable and that carries its name, as far
as names are kept. Each sound step preserves this: the bindings change only when a variable gets a
register that was taken for it, and when a method ends.
-/

namespace ContractLowering

/-- The name of a variable. -/
def Declarations.name? (decls : Declarations) (id : VarId) : Option String :=
  decls.vars[id.index]?.map Variable.name

theorem Declarations.name?_of_cleared_eq {decls decls' : Declarations}
    (h : decls'.cleared = decls.cleared) (id : VarId) : decls'.name? id = decls.name? id :=
  getElem?_map_of_cleared_eq Variable.name (fun _ => rfl) h id.index

theorem Declarations.name?_of_getVariable {decls : Declarations} {id : VarId} {v : Variable}
    (h : decls.getVariable id = .ok v) : decls.name? id = some v.name := by
  rw [name?, getVariable_ok.mp h, Option.map_some]

namespace Compilation

/-- Bound variables have registers of their own, which carry their names if names are kept. -/
structure Tied (c : Compilation) : Prop extends Coupled c where
  names : ∀ id reg, c.decls.boundTo? id = some reg →
    c.gen.pool.name? reg = if c.gen.debugNames then c.decls.name? id else none

namespace Tied

variable {c c' : Compilation}

theorem of_unbound (h : c.decls.Unbound) : Tied c := by
  refine ⟨Coupled.of_unbound h, ?_⟩
  intro id reg hreg
  rw [h.boundTo? id] at hreg
  cases hreg

/-- No variable was bound, and the registers of those that still are have kept their tenants. -/
theorem of_kept (h : Tied c) (cleared : c'.decls.cleared = c.decls.cleared)
    (flag : c'.gen.debugNames = c.gen.debugNames)
    (kept : ∀ id reg, c'.decls.boundTo? id = some reg →
      c.decls.boundTo? id = some reg ∧ c'.gen.pool.tenant? reg = c.gen.pool.tenant? reg) :
    Tied c' := by
  refine ⟨⟨?_, ?_⟩, ?_⟩
  · intro id reg hreg
    obtain ⟨before, htenant⟩ := kept id reg hreg
    rw [Pool.isLive, htenant]
    exact h.live id reg before
  · intro id id' reg hreg hreg'
    exact h.apart id id' reg (kept id reg hreg).1 (kept id' reg hreg').1
  · intro id reg hreg
    obtain ⟨before, htenant⟩ := kept id reg hreg
    rw [Pool.name?, htenant, flag, Declarations.name?_of_cleared_eq cleared]
    exact h.names id reg before

theorem extend (h : Tied c) (code : List Instr) : Tied { c with gen := c.gen.extend code } :=
  h.of_kept rfl rfl fun _ _ hreg => ⟨hreg, rfl⟩

theorem take (h : Tied c) (tenant : Tenant) : Tied { c with gen := c.gen.take tenant } := by
  refine h.of_kept rfl rfl fun id reg hreg => ⟨hreg, ?_⟩
  have hne : reg ≠ c.gen.pool.lowestFree := by
    rintro rfl
    exact BoundLive.spare_lowestFree h.live id hreg
  simp [hne]

theorem drop (h : Tied c) {reg : Register} (spare : c.Spare reg) :
    Tied { c with gen := c.gen.drop reg } := by
  refine h.of_kept rfl rfl fun id q hq => ⟨hq, ?_⟩
  have hne : q ≠ reg := fun heq => spare id (heq ▸ hq)
  simp [hne]

theorem bind (h : Tied c) {id : VarId} {v : Variable} {reg : Register} {origin : Origin}
    {decls : Declarations} (hv : c.decls.getVariable id = .ok v)
    (tenant : c.gen.pool.tenant? reg = some (tenantOf c.gen origin v)) (spare : c.Spare reg)
    (hbind : c.decls.bind id reg = .ok decls) : Tied { c with decls } := by
  obtain ⟨-, cleared, bound⟩ := Declarations.bind_ok hbind
  -- a register is that of the new binding, or was bound before and is another one
  have either : ∀ other q, decls.boundTo? other = some q →
      (other = id ∧ q = reg) ∨ (c.decls.boundTo? other = some q ∧ q ≠ reg) := by
    intro other q hq
    rw [bound] at hq
    split at hq
    · rename_i heq
      exact .inl ⟨heq, (Option.some.inj hq).symm⟩
    · exact .inr ⟨hq, fun heq => spare other (heq ▸ hq)⟩
  refine ⟨⟨(Step.bind c hv tenant spare hbind).boundLive h.live, ?_⟩, ?_⟩
  · intro first second q hfirst hsecond
    rcases either first q hfirst with ⟨rfl, rfl⟩ | ⟨hfirst, hne⟩
    · rcases either second q hsecond with ⟨rfl, -⟩ | ⟨-, hne⟩
      · rfl
      · exact absurd rfl hne
    · rcases either second q hsecond with ⟨-, rfl⟩ | ⟨hsecond, -⟩
      · exact absurd rfl hne
      · exact h.apart first second q hfirst hsecond
  · intro other q hq
    rw [Declarations.name?_of_cleared_eq cleared]
    rcases either other q hq with ⟨rfl, rfl⟩ | ⟨before, -⟩
    · rw [Declarations.name?_of_getVariable hv, Pool.name?, tenant, Option.bind_some, tenantOf]
    · exact h.names other q before

theorem leave (h : Tied c) (regs : List Register) :
    Tied ⟨c.decls.unbind regs, regs.foldl Generator.drop c.gen⟩ := by
  refine h.of_kept (Declarations.cleared_unbind _ _) ?_ ?_
  · exact Method.foldl_drop_field Generator.debugNames (fun _ _ => rfl) regs c.gen
  · intro id reg hreg
    rw [Declarations.boundTo?_unbind] at hreg
    obtain ⟨before, kept⟩ := Option.filter_eq_some_iff.mp hreg
    have kept : reg ∉ regs := by simpa using kept
    exact ⟨before, by rw [Method.foldl_drop_tenant?, if_neg kept]⟩

end Tied

theorem Step.tied {c c' : Compilation} (step : Step c c') (h : Tied c) : Tied c' := by
  cases step with
  | extend code mentioned => exact h.extend code
  | take tenant => exact h.take tenant
  | drop reg spare => exact h.drop spare
  | bind hv tenant spare hbind => exact h.bind hv tenant spare hbind
  | leave regs => exact h.leave regs

theorem Tied.after {c : Compilation} (h : Tied c) {op : Operation} (permitted : op.Permitted c) :
    Tied (op.after c) := by
  rcases Operation.after_steps h.live permitted with steps | ⟨code, hafter⟩
  · exact steps.invariant (fun _ _ => Step.tied) h
  · rw [hafter]
    exact h.extend code

theorem Reached.tied {start c : Compilation} (h : Tied start) (reached : Reached start c) :
    Tied c := by
  induction reached with
  | start => exact h
  | step _ op permitted ih => exact ih.after permitted

theorem Reached.keeps {inv : Generator → Prop} (stable : Generator.Stable inv)
    {start c : Compilation} (h : inv start.gen) (reached : Reached start c) : inv c.gen := by
  induction reached with
  | start => exact h
  | step _ op _ ih => exact op.after_keeps stable ih

/-- In every state that operations lead to from a fresh generator, bound variables have live registers
of their own, which have the variables' names if names are kept and no name otherwise. -/
theorem reached_coupled (options : Options) {decls : Declarations} {c : Compilation}
    (unbound : decls.Unbound) (reached : Reached ⟨decls, options.generator⟩ c) :
    (∀ id v reg, c.decls.getVariable id = .ok v → v.register = some reg →
      c.gen.pool.isLive reg = true ∧
        c.gen.pool.name? reg = if options.debugNames then some v.name else none) ∧
    ∀ id id' v v' reg, c.decls.getVariable id = .ok v → c.decls.getVariable id' = .ok v' →
      v.register = some reg → v'.register = some reg → id = id' := by
  have tied : Tied c := reached.tied (.of_unbound unbound)
  have flag : c.gen.debugNames = options.debugNames :=
    reached.keeps (Generator.debugNames_stable options.debugNames) rfl
  refine ⟨?_, ?_⟩
  · intro id v reg hv hreg
    rw [← Declarations.boundTo?_of_getVariable hv] at hreg
    refine ⟨tied.live id reg hreg, ?_⟩
    rw [tied.names id reg hreg, flag, Declarations.name?_of_getVariable hv]
  · intro id id' v v' reg hv hv' hreg hreg'
    rw [← Declarations.boundTo?_of_getVariable hv] at hreg
    rw [← Declarations.boundTo?_of_getVariable hv'] at hreg'
    exact tied.apart id id' reg hreg hreg'

namespace Recycled

def site : Site := ⟨⟨⟨5⟩, 1⟩, .root⟩

def table : Declarations := { vars := [⟨"x", .number, none⟩, ⟨"y", .number, none⟩] }

def method : Method where
  origin := site.toOrigin
  name := "run"
  scope := .root
  params := [⟨0⟩]
  returns := .number
  body := []
  exported := true

def start : Compilation := ⟨table, Options.generator {}⟩

/-- Has a register for the parameter. -/
def entered : Compilation := (Operation.bindParams method).after start

/-- Fails as the right operand has no value, and holds on to the register of the left one. -/
def stuck : Compilation :=
  (Operation.lowerStmt (.assign site.toOrigin ⟨1⟩
    (.binary site .add (.var site ⟨0⟩) (.var site ⟨1⟩)))).after entered

/-- Fails as the parameter is bound already, and holds on to the register that was taken for it. -/
def reentered : Compilation := (Operation.lowerMethod method).after stuck

def released : Compilation := (Operation.release ⟨1⟩).after reentered

/-- Succeeds: the value passes through the register that was given back. -/
def assigned : Compilation :=
  (Operation.lowerStmt (.assign site.toOrigin ⟨1⟩ (.var site ⟨0⟩))).after released

end Recycled

open Recycled in
/-- Two operations fail and leave registers behind, one of which is used again. -/
theorem reached_coupled_recycled :
    table.Unbound ∧ Reached start assigned ∧ assigned.gen.pool.liveRegisters = [⟨0⟩, ⟨2⟩, ⟨3⟩] ∧
      assigned.decls.getVariable ⟨1⟩ = .ok ⟨"y", .number, some ⟨3⟩⟩ ∧
      assigned.gen.pool.isLive ⟨3⟩ = true ∧ assigned.gen.pool.name? ⟨3⟩ = some "y" := by
  have unbound : table.Unbound := by decide
  have spare : (Operation.release ⟨1⟩).Permitted reentered := by decide +kernel
  have first : Reached start entered := .step .start _ trivial
  have second : Reached start stuck := .step first _ trivial
  have third : Reached start reentered := .step second _ trivial
  have fourth : Reached start released := .step third _ spare
  have reached : Reached start assigned := .step fourth _ trivial
  obtain ⟨coupled, -⟩ := reached_coupled {} unbound reached
  have bound : assigned.decls.getVariable ⟨1⟩ = .ok ⟨"y", .number, some ⟨3⟩⟩ :=
    Declarations.getVariable_ok.mpr (by decide +kernel)
  exact ⟨unbound, reached, by decide +kernel, bound, coupled ⟨1⟩ _ ⟨3⟩ bound rfl⟩

end Compilation
end ContractLowering
