import ContractLowering.Proofs.ExprMeaning
import ContractLowering.Proofs.Interpretation
import ContractLowering.Proofs.StatementDiscipline

/-!
The code of statements and methods does what they mean. What ties the environment to the registers
is `Holds`, and it survives every statement because bound variables have live registers of their
own. A return ends the run of the code as it ends the method, so what was generated behind it is
never reached.
-/

namespace ContractLowering

open Generator Compilation InterpretM

variable {V W α β : Type}

/-- Running the code on these registers ends as the interpretation does on the frame. -/
def Follows (vm : Machine V W) (code : List Instr) (regs : Register → V) (f : Frame V W)
    (x : InterpretM V W α) (done : α → Frame V W → (Register → V) → Prop) : Prop :=
  EndsAs vm code ⟨regs, f.host⟩ id Frame.host done (x f)

namespace Follows

variable {vm : Machine V W} {code code' : List Instr} {regs : Register → V} {f : Frame V W}

theorem bind {x : InterpretM V W α} {k : α → InterpretM V W β}
    {done : α → Frame V W → (Register → V) → Prop} {done' : β → Frame V W → (Register → V) → Prop}
    (h : Follows vm code regs f x done)
    (next : ∀ a f' regs', done a f' regs' → Follows vm code' regs' f' (k a) done') :
    Follows vm (code ++ code') regs f (x >>= k) done' :=
  EndsAs.bind h next

/-- An expression within a statement. -/
theorem of_realizes {x : (VarId → Option V) → HostM V W α} {done : α → (Register → V) → Prop}
    (h : Realizes vm code ⟨regs, f.host⟩ (x f.env) done) :
    Follows vm code regs f (InterpretM.onHost x) fun a f' regs' =>
      f'.env = f.env ∧ done a regs' := by
  rw [Realizes] at h
  rw [Follows, InterpretM.onHost]
  cases hx : x f.env f.host with
  | ok a host =>
      rw [hx] at h
      obtain ⟨regs', hrun, hdone⟩ := h
      exact ⟨regs', hrun, rfl, hdone⟩
  | error fault host =>
      rw [hx] at h
      exact h

/-- What holds of a frame in which the interpretation goes on does not matter if it never does. -/
theorem of_stops {x : InterpretM V W α} {done : α → Frame V W → (Register → V) → Prop}
    (h : Follows vm code regs f x done) (stops : ∃ stop f', x f = .error stop f')
    (done' : α → Frame V W → (Register → V) → Prop) : Follows vm code regs f x done' := by
  obtain ⟨stop, f', hx⟩ := stops
  rw [Follows, hx] at h ⊢
  exact h

theorem returned (origin : Origin) (done : α → Frame V W → (Register → V) → Prop) :
    Follows vm [⟨.ret, [], origin⟩] regs f (throw .returned) done :=
  ⟨regs, rfl⟩

end Follows

/-- A variable gets a value and its register the same value. -/
theorem Holds.assign {c c' : Compilation} {env : VarId → Option V} {regs : Register → V}
    {id : VarId} {dest : Register} (holds : Holds c.decls c.gen.pool env regs)
    (coupled : Coupled c') (bound : c'.decls.boundTo? id = some dest)
    (others : ∀ other, other ≠ id → c'.decls.boundTo? other = c.decls.boundTo? other) (v : V) :
    Holds c'.decls c'.gen.pool (Function.update env id (some v)) (Function.update regs dest v) := by
  intro other reg hreg
  refine ⟨coupled.live other reg hreg, ?_⟩
  by_cases ho : other = id
  · subst ho
    rw [bound, Option.some.injEq] at hreg
    rw [hreg, Function.update_self, Function.update_self]
  · have hne : reg ≠ dest := by
      intro heq
      rw [heq] at hreg
      exact ho (coupled.apart other id dest hreg bound)
    rw [others other ho] at hreg
    rw [Function.update_of_ne ho, Function.update_of_ne hne]
    exact (holds other reg hreg).2

/-- The code that was added between the two compilations follows the interpretation while the
registers hold the variables; and then they still do. -/
def Carries (vm : Machine V W) (c c' : Compilation) (x : InterpretM V W Unit) : Prop :=
  ∃ code, c'.gen.code = c.gen.code ++ code ∧
    ∀ (regs : Register → V) (f : Frame V W), Holds c.decls c.gen.pool f.env regs →
      Follows vm code regs f x fun _ f' regs' => Holds c'.decls c'.gen.pool f'.env regs'

namespace Carries

variable {vm : Machine V W} {c c₁ c₂ : Compilation}

theorem refl (vm : Machine V W) (c : Compilation) : Carries vm c c (pure ()) :=
  ⟨[], by simp, fun regs _ holds => ⟨regs, rfl, holds⟩⟩

theorem bind {x y : InterpretM V W Unit} (h : Carries vm c c₁ x) (k : Carries vm c₁ c₂ y) :
    Carries vm c c₂ (x >>= fun _ => y) := by
  obtain ⟨code₁, hcode₁, hrun₁⟩ := h
  obtain ⟨code₂, hcode₂, hrun₂⟩ := k
  refine ⟨code₁ ++ code₂, by simp [hcode₁, hcode₂], ?_⟩
  intro regs f holds
  refine (hrun₁ regs f holds).bind ?_
  intro _ f' regs' holds'
  exact hrun₂ regs' f' holds'

end Carries

namespace Stmt

/-- The code of the statement does what the statement means. -/
def Followed (vm : Machine V W) (s : Stmt) : Prop :=
  ∀ c c', Coupled c → s.lower c = .ok () c' → Carries vm c c' (s.interpret vm c.decls.consts)

variable {vm : Machine V W}

theorem expr_followed (origin : Origin) (x : Expr) : Followed vm (.expr origin x) := by
  intro c c' _ h
  obtain ⟨reg, g, hx, rfl⟩ := lower_expr_ok h
  obtain ⟨code, hcode, hrun⟩ := x.lower_realized vm c.decls c.gen g reg hx
  have taken := (x.lower_takes c.decls c.gen).of_ok hx
  refine ⟨code ++ [], by simp [hcode], ?_⟩
  intro regs f holds
  simp only [interpret]
  refine (Follows.of_realizes (hrun f.env ⟨regs, f.host⟩ holds)).bind ?_
  intro v f' regs' hvalue
  obtain ⟨henv, -, same⟩ := hvalue
  have held : Holds c.decls (g.drop reg).pool f'.env regs' := by
    rw [henv]
    exact holds.of_keeps (taken.drop [] []).keeps same
  exact ⟨regs', rfl, held⟩

/-- The register that an assignment writes to is the variable's, and no other variable is
affected. -/
theorem targetRegister_bound {origin : Origin} {id : VarId} {reg : Register} {c c' : Compilation}
    (h : targetRegister origin id c = .ok reg c') :
    c'.gen.code = c.gen.code ∧ c'.decls.boundTo? id = some reg ∧
      ∀ other, other ≠ id → c'.decls.boundTo? other = c.decls.boundTo? other := by
  rcases targetRegister_ok h with ⟨hbound, rfl⟩ | ⟨decls, tenant, rfl, hbind, rfl⟩
  · exact ⟨rfl, hbound, fun _ _ => rfl⟩
  · obtain ⟨-, -, hbound⟩ := Declarations.bind_ok hbind
    refine ⟨rfl, by rw [hbound, if_pos rfl], ?_⟩
    intro other hne
    rw [hbound, if_neg hne]

theorem assign_followed (origin : Origin) (target : VarId) (value : Expr) :
    Followed vm (.assign origin target value) := by
  intro c c' coupled h
  obtain ⟨new, binds⟩ := lower_assign_binds h
  have coupled' := binds.coupled coupled
  obtain ⟨reg, g, dest, c₁, hvalue, htarget, rfl⟩ := lower_assign_ok h
  obtain ⟨hcode₁, bound, others⟩ := targetRegister_bound htarget
  obtain ⟨code, hcode, hrun⟩ := value.lower_realized vm c.decls c.gen g reg hvalue
  have taken := (value.lower_takes c.decls c.gen).of_ok hvalue
  refine ⟨code ++ [⟨.copy, [.reg reg, .reg dest], origin⟩], by simp [hcode₁, hcode], ?_⟩
  intro regs f holds
  simp only [interpret]
  refine (Follows.of_realizes (hrun f.env ⟨regs, f.host⟩ holds)).bind ?_
  intro v f' regs' hdone
  obtain ⟨henv, hreg, same⟩ := hdone
  refine ⟨Function.update regs' dest (regs' reg), rfl, ?_⟩
  have held : Holds c.decls g.pool f'.env regs' := by
    rw [henv]
    exact holds.of_keeps taken.keeps same
  rw [hreg]
  exact Holds.assign (c := { c with gen := g }) held coupled' bound others v

theorem ret_followed (origin : Origin) (value : Option Expr) :
    Followed vm (.ret origin value) := by
  intro c c' _ h
  cases value with
  | none =>
      rw [lower_ret_none_ok h]
      refine ⟨_, rfl, ?_⟩
      intro regs f _
      simp only [interpret]
      exact Follows.returned origin _
  | some value =>
      obtain ⟨reg, g, hvalue, rfl⟩ := lower_ret_some_ok h
      obtain ⟨code, hcode, hrun⟩ := value.lower_realized vm c.decls c.gen g reg hvalue
      refine ⟨code ++ ([⟨.push, [.reg reg], origin⟩] ++ [⟨.ret, [], origin⟩]),
        by simp [hcode], ?_⟩
      intro regs f holds
      simp only [interpret]
      refine (Follows.of_realizes (hrun f.env ⟨regs, f.host⟩ holds)).bind ?_
      intro v f' regs' hdone
      obtain ⟨-, hreg, -⟩ := hdone
      have pushed := realizes_push vm origin ⟨regs', f'.host⟩ reg
      simp only [hreg] at pushed
      refine (Follows.of_realizes pushed).bind ?_
      intro _ f'' regs'' _
      exact Follows.returned origin _

theorem lowerAll_followed {ss : List Stmt} (ih : ∀ s ∈ ss, Followed vm s) {c c' : Compilation}
    (coupled : Coupled c) (h : lowerAll ss c = .ok () c') :
    Carries vm c c' (interpretAll vm c.decls.consts ss) := by
  induction ss generalizing c with
  | nil =>
      simp only [lowerAll] at h
      cases h
      simp only [interpretAll]
      exact Carries.refl vm c'
  | cons s ss ihss =>
      obtain ⟨c₁, hs, hss⟩ := lowerAll_cons_ok h
      obtain ⟨new, binds⟩ := s.lower_binds hs
      have first := ih s List.mem_cons_self c c₁ coupled hs
      have rest := ihss (fun t ht => ih t (List.mem_cons_of_mem _ ht)) (binds.coupled coupled) hss
      rw [Declarations.consts_of_cleared_eq binds.cleared] at rest
      simp only [interpretAll]
      exact first.bind rest

theorem lower_followed (vm : Machine V W) (s : Stmt) : Followed vm s := by
  induction s with
  | expr origin x => exact expr_followed origin x
  | assign origin target value => exact assign_followed origin target value
  | ret origin value => exact ret_followed origin value
  | block origin body ih =>
      intro c c' coupled h
      simp only [lower] at h
      simp only [interpret]
      exact lowerAll_followed ih coupled h

end Stmt

namespace Method

/-- A value that is popped into the register of a parameter is the parameter's. -/
theorem popParam_followed (vm : Machine V W) (origin : Origin) (tenant : Tenant)
    {c : Compilation} {decls : Declarations} {id : VarId}
    (hbind : c.decls.bind id c.gen.pool.lowestFree = .ok decls)
    (coupled : Coupled ⟨decls, (c.gen.take tenant).extend
      [⟨.pop, [.reg c.gen.pool.lowestFree], origin⟩]⟩) :
    Carries vm c
      ⟨decls, (c.gen.take tenant).extend [⟨.pop, [.reg c.gen.pool.lowestFree], origin⟩]⟩
      (onHost (fun _ => HostM.pop) >>= InterpretM.assign id) := by
  obtain ⟨-, -, hbound⟩ := Declarations.bind_ok hbind
  refine ⟨[⟨.pop, [.reg c.gen.pool.lowestFree], origin⟩] ++ [], by simp, ?_⟩
  intro regs f holds
  refine (Follows.of_realizes (realizes_pop vm origin ⟨regs, f.host⟩ _)).bind ?_
  intro v f' regs' hpop
  obtain ⟨henv, hregs⟩ := hpop
  have bound : decls.boundTo? id = some c.gen.pool.lowestFree := by rw [hbound, if_pos rfl]
  have others : ∀ other, other ≠ id → decls.boundTo? other = c.decls.boundTo? other := by
    intro other hne
    rw [hbound, if_neg hne]
  have held := holds.assign coupled bound others v
  rw [← henv, ← hregs] at held
  exact ⟨regs', rfl, held⟩

theorem lowerParams_followed (vm : Machine V W) {origin : Origin} {ids : List VarId}
    {c c' : Compilation} (coupled : Coupled c) (h : lowerParams origin ids c = .ok () c') :
    Carries vm c c' (popParams ids) := by
  induction ids generalizing c with
  | nil =>
      simp only [lowerParams] at h
      cases h
      exact Carries.refl vm c'
  | cons id ids ih =>
      obtain ⟨reg, decls, tenant, rfl, hbind, hrest⟩ := lowerParams_cons_ok h
      have popped := (c.gen.take_takes tenant).trans (Generator.extend_takes _
        [⟨.pop, [.reg c.gen.pool.lowestFree], origin⟩])
      have coupled₁ := (Binds.of_bind hbind popped).coupled coupled
      have first := popParam_followed vm origin tenant hbind coupled₁
      simp only [popParams]
      rw [← bind_assoc]
      exact first.bind (ih coupled₁ hrest)

/-- The code of a method ends as the method does, and that is never by running out of code. -/
theorem lower_followed (vm : Machine V W) {method : Method} {described : ExportedMethod}
    {c c' : Compilation} (coupled : Coupled c) (h : method.lower c = .ok described c') :
    ∃ code, c'.gen.code = c.gen.code ++ code ∧
      ∀ (regs : Register → V) (f : Frame V W), Holds c.decls c.gen.pool f.env regs →
        Follows vm code regs f (method.interpret vm c.decls.consts) fun _ _ _ => False := by
  obtain ⟨c₁, c₂, hparams, hbody, hreturn, -, -, rfl⟩ := lower_ok h
  obtain ⟨new, binds⟩ := lowerParams_binds hparams
  obtain ⟨code₁, hcode₁, hrun₁⟩ := lowerParams_followed vm coupled hparams
  obtain ⟨code₂, hcode₂, hrun₂⟩ :=
    Stmt.lowerAll_followed (fun s _ => s.lower_followed vm) (binds.coupled coupled) hbody
  refine ⟨code₁ ++ (code₂ ++ method.closing), by simp [foldl_drop_code, hcode₁, hcode₂], ?_⟩
  intro regs f holds
  simp only [interpret]
  refine (hrun₁ regs f holds).bind ?_
  intro _ f' regs' holds'
  rw [← Declarations.consts_of_cleared_eq binds.cleared]
  have body := hrun₂ regs' f' holds'
  by_cases hvoid : method.returns = .void
  · rw [closing, if_pos hvoid, if_pos hvoid]
    refine body.bind ?_
    intro _ f'' regs'' _
    exact Follows.returned method.origin _
  · -- a return somewhere in the body keeps the run from its end
    have stops := Stmt.interpretAll_stops vm c₁.decls.consts
      (fun s _ => s.interpret_stops vm c₁.decls.consts) (hreturn hvoid) f'
    refine (body.of_stops stops fun _ _ _ => False).bind ?_
    intro _ _ _ no
    exact no.elim

end Method
end ContractLowering
