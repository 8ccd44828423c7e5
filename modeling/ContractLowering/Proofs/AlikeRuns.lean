import ContractLowering.Proofs.LoweringSteps
import ContractLowering.Proofs.StatementSteps

/-!
Code generation looks at which registers are live and at the limit, and at nothing else about the
state of the generator. Two generators that agree on these are `Alike`: from there on they take the
same registers, emit the same instructions and fail with the same error, whatever code was generated
before, however high the pool has been and whatever names its tenants go by.
-/

namespace ContractLowering
namespace Generator

/-- The same registers are live under the same limit. The first generator has some code ahead of the
other's, and its pool had been at least this full. -/
structure Alike (limit : Option Nat) (ahead : List Instr) (low : Nat) (gen gen' : Generator) :
    Prop where
  live : ∀ reg, gen.pool.isLive reg = gen'.pool.isLive reg
  limit_left : gen.pool.limit = limit
  limit_right : gen'.pool.limit = limit
  code : gen.code = ahead ++ gen'.code
  peak : gen.pool.peak = max low gen'.pool.peak

variable {limit : Option Nat} {ahead : List Instr} {low : Nat} {gen gen' : Generator}

namespace Alike

theorem extend (h : Alike limit ahead low gen gen') (code : List Instr) :
    Alike limit ahead low (gen.extend code) (gen'.extend code) := by
  refine ⟨h.live, h.limit_left, h.limit_right, ?_, h.peak⟩
  rw [extend_code, extend_code, h.code, List.append_assoc]

theorem take (h : Alike limit ahead low gen gen') (tenant tenant' : Tenant) :
    Alike limit ahead low (gen.take tenant) (gen'.take tenant') := by
  have live : ∀ reg, (gen.pool.house tenant).isLive reg = (gen'.pool.house tenant').isLive reg := by
    intro reg
    rw [Pool.isLive_house, Pool.isLive_house, Pool.lowestFree_congr h.live, h.live]
  refine ⟨live, h.limit_left, h.limit_right, h.code, ?_⟩
  calc max gen.pool.peak (gen.pool.house tenant).liveCount
      = max (max low gen'.pool.peak) (gen'.pool.house tenant').liveCount := by
        rw [h.peak, Pool.liveCount_congr live]
    _ = max low (max gen'.pool.peak (gen'.pool.house tenant').liveCount) := Nat.max_assoc ..

theorem drop (h : Alike limit ahead low gen gen') (reg : Register) :
    Alike limit ahead low (gen.drop reg) (gen'.drop reg) := by
  refine ⟨?_, h.limit_left, h.limit_right, h.code, h.peak⟩
  intro q
  rw [drop_pool, drop_pool, Pool.isLive_vacate, Pool.isLive_vacate, h.live]

end Alike

theorem emitAll_agrees (h : Alike limit ahead low gen gen') (origin : Origin)
    (code : List (Opcode × List Operand)) :
    Agree (Alike limit ahead low) Eq (emitAll origin code gen) (emitAll origin code gen') :=
  ⟨rfl, h.extend _⟩

theorem emit_agrees (h : Alike limit ahead low gen gen') (origin : Origin) (opcode : Opcode)
    (operands : List Operand) :
    Agree (Alike limit ahead low) Eq (emit origin opcode operands gen)
      (emit origin opcode operands gen') :=
  emitAll_agrees h origin _

theorem allocTagged_agrees (h : Alike limit ahead low gen gen') (origin : Origin)
    (name name' : Option String) :
    Agree (Alike limit ahead low) Eq (allocTagged origin name gen)
      (allocTagged origin name' gen') := by
  have reached := Pool.reachedLimit?_congr h.live (h.limit_left.trans h.limit_right.symm)
  simp only [allocTagged, Pool.allocate, reached]
  cases gen'.pool.reachedLimit? with
  | some limit => exact ⟨rfl, h⟩
  | none => exact ⟨Pool.lowestFree_congr h.live, h.take _ _⟩

theorem alloc_agrees (h : Alike limit ahead low gen gen') (origin : Origin)
    (name : Option String) :
    Agree (Alike limit ahead low) Eq (alloc origin name gen) (alloc origin name gen') :=
  allocTagged_agrees h origin _ _

theorem release_agrees (h : Alike limit ahead low gen gen') (reg : Register) :
    Agree (Alike limit ahead low) Eq (release reg gen) (release reg gen') := by
  simp only [release, Pool.release, h.live reg]
  cases gen'.pool.isLive reg with
  | false => exact ⟨rfl, h⟩
  | true => exact ⟨rfl, h.drop reg⟩

end Generator

namespace Expr

open Generator

variable {limit : Option Nat} {ahead : List Instr} {low : Nat} {gen gen' : Generator}

theorem sourceRegister_agrees (decls : Declarations) (h : Alike limit ahead low gen gen')
    (origin : Origin) (id : VarId) :
    Agree (Alike limit ahead low) Eq (sourceRegister decls origin id gen)
      (sourceRegister decls origin id gen') := by
  simp only [sourceRegister]
  refine (Agree.ofExcept h _).andThen ?_
  intro v g g' h'
  rw [get_bind, get_bind, funext h'.live]
  cases v.register.filter g'.pool.isLive with
  | none => exact ⟨rfl, h'⟩
  | some reg => exact ⟨rfl, h'⟩

theorem lowerArgs_agrees (decls : Declarations) {args : List Expr}
    (ih : ∀ arg ∈ args, ∀ gen gen', Alike limit ahead low gen gen' →
      Agree (Alike limit ahead low) Eq (arg.lower decls gen) (arg.lower decls gen'))
    (h : Alike limit ahead low gen gen') :
    Agree (Alike limit ahead low) Eq (lowerArgs decls args gen) (lowerArgs decls args gen') := by
  induction args with
  | nil =>
      simp only [lowerArgs]
      exact ⟨rfl, h⟩
  | cons arg args ihargs =>
      simp only [lowerArgs]
      refine (ihargs fun a ha => ih a (List.mem_cons_of_mem _ ha)).andThen ?_
      intro _ g₁ g₁' h₁
      refine (ih arg List.mem_cons_self g₁ g₁' h₁).andThen ?_
      intro reg g₂ g₂' h₂
      refine (emit_agrees h₂ ..).andThen ?_
      intro _ g₃ g₃' h₃
      exact release_agrees h₃ reg

theorem lower_agrees (decls : Declarations) (e : Expr) (h : Alike limit ahead low gen gen') :
    Agree (Alike limit ahead low) Eq (e.lower decls gen) (e.lower decls gen') := by
  induction e generalizing gen gen' with
  | not site x ih =>
      simp only [lower]
      refine (ih h).andThen ?_
      intro reg g₁ g₁' h₁
      refine (emit_agrees h₁ ..).andThen ?_
      intro _ g₂ g₂' h₂
      exact ⟨rfl, h₂⟩
  | binary site op left right ihl ihr =>
      simp only [lower]
      cases op.opcode? with
      | none => exact ⟨rfl, h⟩
      | some opcode =>
          refine (ihl h).andThen ?_
          intro l g₁ g₁' h₁
          refine (ihr h₁).andThen ?_
          intro r g₂ g₂' h₂
          refine (alloc_agrees h₂ ..).andThen ?_
          intro reg g₃ g₃' h₃
          refine (emit_agrees h₃ ..).andThen ?_
          intro _ g₄ g₄' h₄
          refine (release_agrees h₄ r).andThen ?_
          intro _ g₅ g₅' h₅
          refine (release_agrees h₅ l).andThen ?_
          intro _ g₆ g₆' h₆
          exact ⟨rfl, h₆⟩
  | call site binding args ih =>
      simp only [lower]
      refine (lowerArgs_agrees decls (fun a ha g g' => ih a ha) h).andThen ?_
      intro _ g₁ g₁' h₁
      refine (alloc_agrees h₁ ..).andThen ?_
      intro reg g₂ g₂' h₂
      refine (emitAll_agrees h₂ ..).andThen ?_
      intro _ g₃ g₃' h₃
      exact ⟨rfl, h₃⟩
  | lit site value kind =>
      simp only [lower]
      refine (alloc_agrees h ..).andThen ?_
      intro reg g₁ g₁' h₁
      refine (emitAll_agrees h₁ ..).andThen ?_
      intro _ g₂ g₂' h₂
      exact ⟨rfl, h₂⟩
  | placeholder site name =>
      simp only [lower]
      exact ⟨rfl, h⟩
  | var site id =>
      simp only [lower]
      refine (sourceRegister_agrees decls h ..).andThen ?_
      intro source g₁ g₁' h₁
      refine (alloc_agrees h₁ ..).andThen ?_
      intro reg g₂ g₂' h₂
      refine (emit_agrees h₂ ..).andThen ?_
      intro _ g₃ g₃' h₃
      exact ⟨rfl, h₃⟩
  | const site id =>
      simp only [lower]
      refine (Agree.ofExcept h _).andThen ?_
      intro c g₁ g₁' h₁
      refine (allocTagged_agrees h₁ ..).andThen ?_
      intro reg g₂ g₂' h₂
      refine (emit_agrees h₂ ..).andThen ?_
      intro _ g₃ g₃' h₃
      exact ⟨rfl, h₃⟩

end Expr

namespace Compilation

/-- Alike generators over the same declarations. -/
structure Alike (limit : Option Nat) (ahead : List Instr) (low : Nat) (c c' : Compilation) :
    Prop where
  decls : c.decls = c'.decls
  gen : c.gen.Alike limit ahead low c'.gen

variable {limit : Option Nat} {ahead : List Instr} {low : Nat} {c c' : Compilation}

theorem generate_agrees {α β : Type} {values : α → β → Prop} {step : Declarations → GenM α}
    {step' : Declarations → GenM β} (h : Alike limit ahead low c c')
    (k : Agree (Generator.Alike limit ahead low) values (step c'.decls c.gen)
      (step' c'.decls c'.gen)) :
    Agree (Alike limit ahead low) values (generate step c) (generate step' c') := by
  simp only [generate, h.decls]
  cases hleft : step c'.decls c.gen <;> cases hright : step' c'.decls c'.gen <;>
    rw [hleft, hright] at k
  · exact ⟨k.1, rfl, k.2⟩
  · exact k.elim
  · exact k.elim
  · exact ⟨k.1, rfl, k.2⟩

theorem getVariable_agrees (h : Alike limit ahead low c c') (id : VarId) :
    Agree (Alike limit ahead low) Eq (getVariable id c) (getVariable id c') := by
  simp only [getVariable]
  rw [get_bind, get_bind, h.decls]
  exact Agree.ofExcept h _

theorem bind_agrees (h : Alike limit ahead low c c') (id : VarId) (reg : Register) :
    Agree (Alike limit ahead low) Eq (bind id reg c) (bind id reg c') := by
  simp only [bind]
  rw [get_bind, get_bind, h.decls]
  refine (Agree.ofExcept h _).andThen ?_
  intro decls c₁ c₁' h₁
  exact ⟨rfl, rfl, h₁.gen⟩

theorem allocFor_agrees (h : Alike limit ahead low c c') (origin : Origin) (v : Variable) :
    Agree (Alike limit ahead low) Eq (allocFor origin v c) (allocFor origin v c') :=
  generate_agrees h (Generator.alloc_agrees h.gen ..)

theorem emit_agrees (h : Alike limit ahead low c c') (origin : Origin) (opcode : Opcode)
    (operands : List Operand) :
    Agree (Alike limit ahead low) Eq (emit origin opcode operands c)
      (emit origin opcode operands c') :=
  generate_agrees h (Generator.emit_agrees h.gen ..)

theorem release_agrees (h : Alike limit ahead low c c') (reg : Register) :
    Agree (Alike limit ahead low) Eq (release reg c) (release reg c') :=
  generate_agrees h (Generator.release_agrees h.gen reg)

theorem generate_lower_agrees (h : Alike limit ahead low c c') (e : Expr) :
    Agree (Alike limit ahead low) Eq (generate e.lower c) (generate e.lower c') :=
  generate_agrees h (e.lower_agrees c'.decls h.gen)

end Compilation

namespace Stmt

open Compilation

variable {limit : Option Nat} {ahead : List Instr} {low : Nat} {c c' : Compilation}

theorem targetRegister_agrees (h : Alike limit ahead low c c') (origin : Origin) (id : VarId) :
    Agree (Alike limit ahead low) Eq (targetRegister origin id c)
      (targetRegister origin id c') := by
  simp only [targetRegister]
  refine (getVariable_agrees h id).andThen ?_
  intro v c₁ c₁' h₁
  cases v.register with
  | some reg => exact ⟨rfl, h₁⟩
  | none =>
      refine (allocFor_agrees h₁ origin v).andThen ?_
      intro reg c₂ c₂' h₂
      refine (bind_agrees h₂ id reg).andThen ?_
      intro _ c₃ c₃' h₃
      exact ⟨rfl, h₃⟩

theorem lowerAll_agrees {ss : List Stmt}
    (ih : ∀ s ∈ ss, ∀ c c', Alike limit ahead low c c' →
      Agree (Alike limit ahead low) Eq (s.lower c) (s.lower c'))
    (h : Alike limit ahead low c c') :
    Agree (Alike limit ahead low) Eq (lowerAll ss c) (lowerAll ss c') := by
  induction ss generalizing c c' with
  | nil =>
      simp only [lowerAll]
      exact ⟨rfl, h⟩
  | cons s ss ihss =>
      simp only [lowerAll]
      refine (ih s List.mem_cons_self c c' h).andThen ?_
      intro _ c₁ c₁' h₁
      exact ihss (fun t ht => ih t (List.mem_cons_of_mem _ ht)) h₁

theorem lower_agrees (s : Stmt) (h : Alike limit ahead low c c') :
    Agree (Alike limit ahead low) Eq (s.lower c) (s.lower c') := by
  induction s generalizing c c' with
  | expr origin x =>
      simp only [lower]
      refine (generate_lower_agrees h x).andThen ?_
      intro reg c₁ c₁' h₁
      exact release_agrees h₁ reg
  | assign origin target value =>
      simp only [lower]
      refine (generate_lower_agrees h value).andThen ?_
      intro reg c₁ c₁' h₁
      refine (targetRegister_agrees h₁ origin target).andThen ?_
      intro dest c₂ c₂' h₂
      refine (emit_agrees h₂ ..).andThen ?_
      intro _ c₃ c₃' h₃
      exact release_agrees h₃ reg
  | ret origin value =>
      cases value with
      | none =>
          simp only [lower]
          exact emit_agrees h ..
      | some value =>
          simp only [lower]
          refine (generate_lower_agrees h value).andThen ?_
          intro reg c₁ c₁' h₁
          refine (emit_agrees h₁ ..).andThen ?_
          intro _ c₂ c₂' h₂
          refine (release_agrees h₂ reg).andThen ?_
          intro _ c₃ c₃' h₃
          exact emit_agrees h₃ ..
  | block origin body ih =>
      simp only [lower]
      exact lowerAll_agrees (fun s hs c c' => ih s hs) h

end Stmt

namespace Method

open Compilation

variable {limit : Option Nat} {ahead : List Instr} {low : Nat} {c c' : Compilation}

theorem lowerParams_agrees (h : Alike limit ahead low c c') (origin : Origin) (ids : List VarId) :
    Agree (Alike limit ahead low) Eq (lowerParams origin ids c) (lowerParams origin ids c') := by
  induction ids generalizing c c' with
  | nil => exact ⟨rfl, h⟩
  | cons id ids ih =>
      simp only [lowerParams]
      refine (getVariable_agrees h id).andThen ?_
      intro v c₁ c₁' h₁
      refine (allocFor_agrees h₁ origin v).andThen ?_
      intro reg c₂ c₂' h₂
      refine (emit_agrees h₂ ..).andThen ?_
      intro _ c₃ c₃' h₃
      refine (bind_agrees h₃ id reg).andThen ?_
      intro _ c₄ c₄' h₄
      exact ih h₄

theorem finish_agrees (method : Method) {gen gen' : Generator}
    (h : gen.Alike limit ahead low gen') :
    Agree (Generator.Alike limit ahead low) Eq (method.finish gen) (method.finish gen') := by
  simp only [finish]
  split
  · exact Generator.emit_agrees h ..
  · split
    · exact ⟨rfl, h⟩
    · exact ⟨rfl, h⟩

theorem releaseAll_agrees (h : Alike limit ahead low c c') (regs : List Register) :
    Agree (Alike limit ahead low) Eq (releaseAll regs c) (releaseAll regs c') := by
  induction regs generalizing c c' with
  | nil => exact ⟨rfl, h⟩
  | cons reg regs ih =>
      simp only [releaseAll]
      refine (release_agrees h reg).andThen ?_
      intro _ c₁ c₁' h₁
      exact ih h₁

theorem releaseOthers_agrees (h : Alike limit ahead low c c') (kept : List Register) :
    Agree (Alike limit ahead low) Eq (releaseOthers kept c) (releaseOthers kept c') := by
  simp only [releaseOthers]
  rw [get_bind, get_bind, Pool.liveRegisters_congr h.gen.live]
  refine (releaseAll_agrees h _).andThen ?_
  intro _ c₁ c₁' h₁
  refine ⟨rfl, ?_, h₁.gen⟩
  simp only [h₁.decls]

theorem describeParams_agrees (h : Alike limit ahead low c c') (ids : List VarId) :
    Agree (Alike limit ahead low) Eq (describeParams ids c) (describeParams ids c') := by
  induction ids generalizing c c' with
  | nil => exact ⟨rfl, h⟩
  | cons id ids ih =>
      simp only [describeParams]
      refine (getVariable_agrees h id).andThen ?_
      intro v c₁ c₁' h₁
      refine (ih h₁).andThen ?_
      intro others c₂ c₂' h₂
      exact ⟨rfl, h₂⟩

/-- The two descriptions of a method differ by the length of the code ahead. -/
theorem lower_agrees (method : Method) (h : Alike limit ahead low c c') :
    Agree (Alike limit ahead low)
      (fun described described' =>
        described = { described' with offset := ahead.length + described'.offset })
      (method.lower c) (method.lower c') := by
  simp only [lower]
  rw [get_bind, get_bind, Pool.liveRegisters_congr h.gen.live]
  refine (lowerParams_agrees h ..).andThen ?_
  intro _ c₁ c₁' h₁
  refine (Stmt.lowerAll_agrees (fun s _ c c' => s.lower_agrees) h₁).andThen ?_
  intro _ c₂ c₂' h₂
  refine (generate_agrees h₂ (method.finish_agrees h₂.gen)).andThen ?_
  intro _ c₃ c₃' h₃
  refine (releaseOthers_agrees h₃ _).andThen ?_
  intro _ c₄ c₄' h₄
  refine (describeParams_agrees h₄ _).andThen ?_
  intro params c₅ c₅' h₅
  refine ⟨?_, h₅⟩
  rw [Generator.position, Generator.position, h.gen.code, List.length_append]

end Method
end ContractLowering
