import ContractLowering.Proofs.GenerationOrder

/-!
Variables that are bound to a register which was given back. A read looks at the register at the
time it is visited. It is turned down as long as the register is free, but a left operand may have
taken the register in the meantime, and then the read goes through and copies the operand. An
assignment does not look at all: it writes to the register, live or not, and leaves the variable as
stale as it was.
-/

namespace ContractLowering

/-- The variable is bound to a register that is not live. -/
def Compilation.Stale (c : Compilation) (id : VarId) : Prop :=
  ∃ reg, c.decls.boundTo? id = some reg ∧ c.gen.pool.isLive reg = false

namespace Expr

open Generator

/-- In an expression that is lowered, every variable is bound to a register that was live before, or
to one that holds the left operand of an operator while the right operand with the variable is
visited. An expression that fails does so at the first node with a fault, where a variable that is
neither counts as uninitialized, or because of the limit. -/
theorem lower_reads_live_or_held (decls : Declarations) (e : Expr) (gen : Generator) :
    (∀ reg gen', e.lower decls gen = .ok reg gen' →
        ∀ visit ∈ e.visits gen.pool [], ∀ s id, visit.node = .var s id →
          ∃ source, decls.boundTo? id = some source ∧
            (gen.pool.isLive source = true ∨ source ∈ visit.held)) ∧
      ∀ f gen', e.lower decls gen = .error f gen' →
        (e.visits gen.pool []).findSome? (Visit.fault? decls gen.pool) = some f ∨
          ∃ origin limit, gen.pool.limit = some limit ∧
            f = .reported (.registerLimit origin limit) := by
  have surfaces : Surfaces gen.pool.limit _ (e.lower decls gen) :=
    lower_surfaces e (Takes.refl gen) rfl
  constructor
  · intro reg gen' hlower visit hvisit s id hnode
    rw [hlower] at surfaces
    have faultless := List.findSome?_eq_none_iff.mp surfaces visit hvisit
    rw [Visit.fault?, hnode, fault?_var_eq_none] at faultless
    simpa using faultless
  · intro f gen' hlower
    rw [hlower] at surfaces
    exact surfaces

/-- Reading a variable that has a register fails for want of a value if and only if the register is
not live. -/
theorem lower_var_uninitialized_iff {decls : Declarations} {gen : Generator} {id : VarId}
    {reg : Register} (bound : decls.boundTo? id = some reg) (s : Site) :
    (∃ name gen', (var s id).lower decls gen =
      .error (.reported (.uninitializedVariable s.toOrigin name)) gen') ↔
        gen.pool.isLive reg = false := by
  constructor
  · rintro ⟨name, gen', hlower⟩
    have surfaces : Surfaces gen.pool.limit _ ((var s id).lower decls gen) :=
      lower_surfaces (var s id) (Takes.refl gen) rfl
    rw [hlower] at surfaces
    rw [← Bool.not_eq_true]
    intro live
    cases surfaces with
    | inl first =>
        have readable : (var s id).fault? decls (fun q => gen.pool.isLive q || decide (q ∈ [])) =
            none := fault?_var_eq_none.mpr ⟨reg, bound, by simp [live]⟩
        rw [visits, List.findSome?_singleton, Visit.fault?, readable] at first
        cases first
    | inr stopped =>
        obtain ⟨origin, limit, -, hf⟩ := stopped
        cases hf
  · intro dead
    obtain ⟨v, hv, hreg⟩ := Option.bind_eq_some_iff.mp bound
    have unset : sourceRegister decls s.toOrigin id gen =
        .error (.reported (.uninitializedVariable s.toOrigin v.name)) gen := by
      rw [sourceRegister, Declarations.getVariable_ok.mpr hv, bind_of_ok (ofExcept_ok v gen),
        get_bind, hreg, Option.filter_some_neg (by simp [dead])]
      rfl
    exact ⟨v.name, gen, by simp only [lower]; exact bind_of_error unset⟩

namespace Spent

def place (node : UInt32) (line : Nat) : Site := ⟨⟨⟨node⟩, line⟩, .root⟩

def owner : Tenant := ⟨some "x", (place 1 1).toOrigin⟩

/-- The variable was given the first register. What became of the register is open. -/
def start (tenant : Option Tenant) : Compilation where
  decls := { vars := [⟨"x", .number, some ⟨0⟩⟩] }
  gen := { pool := { slots := [tenant], peak := 1 } }

def sum : Expr :=
  .binary (place 2 2) .add (.lit (place 3 2) "1" .number) (.var (place 4 2) ⟨0⟩)

end Spent

open Spent in
/-- On its own the variable cannot be read. Behind a literal that was given its register it can, and
the sum is twice the literal. -/
theorem stale_variable_reads_left_operand :
    (start none).Stale ⟨0⟩ ∧
      (∃ gen', (Expr.var (place 4 2) ⟨0⟩).lower (start none).decls (start none).gen =
        .error (.reported (.uninitializedVariable (place 4 2).toOrigin "x")) gen') ∧
      ∃ reg gen', sum.lower (start none).decls (start none).gen = .ok reg gen' ∧ gen'.code =
        [⟨.load, [.reg ⟨0⟩, .raw "1"], (place 3 2).toOrigin⟩,
          ⟨.copy, [.reg ⟨0⟩, .reg ⟨1⟩], (place 4 2).toOrigin⟩,
          ⟨.add, [.reg ⟨0⟩, .reg ⟨1⟩, .reg ⟨2⟩], (place 2 2).toOrigin⟩] :=
  ⟨⟨⟨0⟩, rfl, rfl⟩, ⟨_, rfl⟩, _, _, rfl, rfl⟩

end Expr

namespace Stmt

open Generator

/-- An assignment ends with a copy of the value to the register that the variable is bound to then.
The register is live, and the variable can be read again, if and only if the variable was not stale
before. -/
theorem assign_readable_unless_stale {origin : Origin} {target : VarId} {value : Expr}
    {c c' : Compilation} (h : (Stmt.assign origin target value).lower c = .ok () c') :
    ∃ reg gen dest, value.lower c.decls c.gen = .ok reg gen ∧
      c'.decls.boundTo? target = some dest ∧
      c'.gen.code = gen.code ++ [⟨.copy, [.reg reg, .reg dest], origin⟩] ∧
      (c'.gen.pool.isLive dest = true ↔ ¬c.Stale target) ∧
      ∀ s : Site, (∃ name after, (Expr.var s target).lower c'.decls c'.gen =
        .error (.reported (.uninitializedVariable s.toOrigin name)) after) ↔ c.Stale target := by
  obtain ⟨reg, g, dest, c₁, hvalue, htarget, rfl⟩ := lower_assign_ok h
  have taken := (value.lower_takes c.decls c.gen).of_ok hvalue
  -- live afterwards is what was live before, and the register of a variable that had none
  have settled : c₁.decls.boundTo? target = some dest ∧ c₁.gen.code = g.code ∧
      (((c₁.gen.extend [⟨.copy, [.reg reg, .reg dest], origin⟩]).drop reg).pool.isLive dest = true ↔
        ¬c.Stale target) := by
    rcases targetRegister_ok htarget with ⟨hbound, rfl⟩ | ⟨decls, tenant, rfl, hbind, rfl⟩
    · have copied := taken.trans (g.extend_takes [⟨.copy, [.reg reg, .reg dest], origin⟩])
      have bound : c.decls.boundTo? target = some dest := hbound
      refine ⟨hbound, rfl, ?_⟩
      rw [(copied.drop [] []).isLive_iff]
      simp [Compilation.Stale, bound]
    · have both := (taken.trans (g.take_takes tenant)).trans
        (Generator.extend_takes _ [⟨.copy, [.reg reg, .reg g.pool.lowestFree], origin⟩])
      obtain ⟨unbound, -, hbound⟩ := Declarations.bind_ok hbind
      have free : c.decls.boundTo? target = none := unbound
      refine ⟨by rw [hbound, if_pos rfl], rfl, ?_⟩
      rw [(both.drop [g.pool.lowestFree] []).isLive_iff]
      simp [Compilation.Stale, free]
  obtain ⟨hbound, hcode, hlive⟩ := settled
  refine ⟨reg, g, dest, hvalue, hbound, ?_, hlive, fun s => ?_⟩
  · rw [drop_code, extend_code, hcode]
  · rw [Expr.lower_var_uninitialized_iff hbound s, ← Bool.not_eq_true, hlive, not_not]

section Spent

open Expr.Spent

def assignOne : Stmt :=
  .assign (place 2 2).toOrigin ⟨0⟩ (.lit (place 3 2) "1" .number)

/-- A variable with a live register keeps it and can be read again. -/
theorem assign_readable_unless_stale_kept :
    ¬(start (some owner)).Stale ⟨0⟩ ∧ ∃ after, assignOne.lower (start (some owner)) = .ok () after ∧
      ∃ dest, after.decls.boundTo? ⟨0⟩ = some dest ∧ after.gen.pool.isLive dest = true ∧
        ¬∃ name gen', (Expr.var (place 4 3) ⟨0⟩).lower after.decls after.gen =
          .error (.reported (.uninitializedVariable (place 4 3).toOrigin name)) gen' := by
  have fit : ¬(start (some owner)).Stale ⟨0⟩ := by
    rintro ⟨reg, hreg, dead⟩
    cases hreg
    cases dead
  obtain ⟨after, lowers⟩ : ∃ after, assignOne.lower (start (some owner)) = .ok () after := ⟨_, rfl⟩
  obtain ⟨reg, gen, dest, -, hbound, -, hlive, hread⟩ := assign_readable_unless_stale lowers
  exact ⟨fit, after, lowers, dest, hbound, hlive.mpr fit, mt (hread _).mp fit⟩

/-- The literal is copied to the register that the variable was bound to, which is the literal's own
and is given back at once. -/
theorem stale_variable_assigned_in_vain :
    (start none).Stale ⟨0⟩ ∧ ∃ after, assignOne.lower (start none) = .ok () after ∧
      after.decls.boundTo? ⟨0⟩ = some ⟨0⟩ ∧ after.gen.pool.isLive ⟨0⟩ = false ∧
      after.gen.code.getLast? = some ⟨.copy, [.reg ⟨0⟩, .reg ⟨0⟩], (place 2 2).toOrigin⟩ ∧
      ∃ gen', (Expr.var (place 4 3) ⟨0⟩).lower after.decls after.gen =
        .error (.reported (.uninitializedVariable (place 4 3).toOrigin "x")) gen' :=
  ⟨⟨⟨0⟩, rfl, rfl⟩, _, rfl, rfl, rfl, rfl, _, rfl⟩

end Spent

end Stmt
end ContractLowering
