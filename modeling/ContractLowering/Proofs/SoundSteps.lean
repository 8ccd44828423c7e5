import ContractLowering.Proofs.ModuleSteps
import ContractLowering.Proofs.StatementDiscipline
import Mathlib.Logic.Relation

/-!
What a compilation does from a state in which every bound variable has a live register. It emits
instructions that mention live registers only, takes registers, gives back registers that no variable
is bound to, and binds a variable to a register that was taken for it. At the end of a method it gives
back registers and unbinds their variables at once. Every run is a sequence of such steps, whether it
succeeds or fails.
-/

namespace ContractLowering

namespace Compilation

/-- No variable is bound to the register. -/
def Spare (c : Compilation) (reg : Register) : Prop := ∀ id, c.decls.boundTo? id ≠ some reg

theorem spare_iff {c : Compilation} {reg : Register} :
    c.Spare reg ↔ ¬∃ v ∈ c.decls.vars, v.register = some reg := by
  rw [← Declarations.exists_boundTo?, not_exists]
  rfl

instance (c : Compilation) (reg : Register) : Decidable (c.Spare reg) :=
  decidable_of_iff _ spare_iff.symm

/-- The instructions mention live registers only. -/
def Mentionable (c : Compilation) (code : List Instr) : Prop :=
  ∀ instr ∈ code, ∀ reg ∈ instr.registers, c.gen.pool.isLive reg = true

inductive Step : Compilation → Compilation → Prop
  | extend (c : Compilation) (code : List Instr) (mentioned : c.Mentionable code) :
      Step c { c with gen := c.gen.extend code }
  | take (c : Compilation) (tenant : Tenant) : Step c { c with gen := c.gen.take tenant }
  | drop (c : Compilation) (reg : Register) (spare : c.Spare reg) :
      Step c { c with gen := c.gen.drop reg }
  | bind (c : Compilation) {id : VarId} {v : Variable} {reg : Register} {origin : Origin}
      {decls : Declarations} (hv : c.decls.getVariable id = .ok v)
      (tenant : c.gen.pool.tenant? reg = some (tenantOf c.gen origin v)) (spare : c.Spare reg)
      (hbind : c.decls.bind id reg = .ok decls) : Step c { c with decls }
  | leave (c : Compilation) (regs : List Register) :
      Step c ⟨c.decls.unbind regs, regs.foldl Generator.drop c.gen⟩

def Steps : Compilation → Compilation → Prop := Relation.ReflTransGen Step

theorem BoundLive.of_unbound {c : Compilation} (h : c.decls.Unbound) : BoundLive c :=
  (Coupled.of_unbound h).live

theorem BoundLive.spare_lowestFree {c : Compilation} (h : BoundLive c) :
    c.Spare c.gen.pool.lowestFree := by
  intro id hid
  have live := h id _ hid
  rw [c.gen.pool.isLive_lowestFree] at live
  cases live

/-- No variable is bound to a register that was taken since. -/
theorem BoundLive.spare_of_takes {c : Compilation} {gen : Generator} {regs : List Register}
    {reg : Register} (h : BoundLive c) (taken : c.gen.Takes regs gen) (hreg : reg ∈ regs) :
    c.Spare reg :=
  fun id hid => taken.not_mem_of_live (h id reg hid) hreg

theorem Step.boundLive {c c' : Compilation} (h : Step c c') (live : BoundLive c) :
    BoundLive c' := by
  cases h with
  | extend code mentioned => exact live
  | take tenant =>
      intro id reg hid
      exact (c.gen.take_takes tenant).keeps.isLive (live id reg hid)
  | drop reg spare =>
      intro id q hid
      have hne : q ≠ reg := fun heq => spare id (heq ▸ hid)
      simp [Pool.isLive_vacate, hne, live id q hid]
  | bind hv tenant spare hbind =>
      intro other q hid
      rw [(Declarations.bind_ok hbind).2.2] at hid
      split at hid
      · cases hid
        exact (c.gen.pool.isLive_iff _).mpr ⟨_, tenant⟩
      · exact live other q hid
  | leave regs =>
      intro id reg hid
      rw [Declarations.boundTo?_unbind] at hid
      obtain ⟨hid, kept⟩ := Option.filter_eq_some_iff.mp hid
      have kept : reg ∉ regs := by simpa using kept
      simp only [Pool.isLive, Method.foldl_drop_tenant?, if_neg kept]
      exact live id reg hid

namespace Steps

variable {start c c' : Compilation}

theorem refl (c : Compilation) : Steps c c := Relation.ReflTransGen.refl

theorem tail (h : Steps start c) (step : Step c c') : Steps start c' :=
  Relation.ReflTransGen.tail h step

/-- What each step preserves holds in all states that steps lead to. -/
theorem invariant {inv : Compilation → Prop} (preserves : ∀ c c', Step c c' → inv c → inv c')
    (h : Steps c c') (hc : inv c) : inv c' := by
  induction h with
  | refl => exact hc
  | tail _ step ih => exact preserves _ _ step ih

theorem boundLive (h : Steps c c') (live : BoundLive c) : BoundLive c' :=
  h.invariant (fun _ _ => Step.boundLive) live

end Steps

section BasicSteps

variable {start c : Compilation}

theorem getVariable_steps (h : Steps start c) (id : VarId) :
    Ends (fun v c' => c.decls.getVariable id = .ok v ∧ c = c') (fun _ c' => Steps start c')
      (getVariable id c) := by
  simp only [getVariable]
  rw [get_bind]
  cases c.decls.getVariable id with
  | ok v => exact ⟨rfl, rfl⟩
  | error e => exact h

theorem allocFor_steps (h : Steps start c) (origin : Origin) (v : Variable) :
    Ends (fun reg c' => reg = c.gen.pool.lowestFree ∧
        c' = { c with gen := c.gen.take (tenantOf c.gen origin v) })
      (fun _ c' => Steps start c') (allocFor origin v c) := by
  refine generate_ends ?_
  cases hrun : Generator.alloc origin (some v.name) c.gen with
  | ok reg gen =>
      obtain ⟨rfl, rfl⟩ := Generator.alloc_ok hrun
      exact ⟨rfl, rfl⟩
  | error e gen =>
      obtain rfl := Generator.allocTagged_error hrun
      exact h

/-- A variable is bound to the register that was taken for it, unless it has one. Another register
that no variable is bound to stays so. -/
theorem bind_steps (h : Steps start c) {id : VarId} {v : Variable} {reg : Register}
    {origin : Origin} (hv : c.decls.getVariable id = .ok v)
    (tenant : c.gen.pool.tenant? reg = some (tenantOf c.gen origin v)) (spare : c.Spare reg) :
    Ends (fun _ c' => Steps start c' ∧ c'.gen = c.gen ∧ ∀ q, q ≠ reg → c.Spare q → c'.Spare q)
      (fun _ c' => Steps start c') (bind id reg c) := by
  simp only [bind]
  rw [get_bind]
  cases hbind : c.decls.bind id reg with
  | error e => exact h
  | ok decls =>
      refine ⟨h.tail (.bind c hv tenant spare hbind), rfl, ?_⟩
      intro q hne free other hother
      rw [(Declarations.bind_ok hbind).2.2] at hother
      split at hother
      · cases hother
        exact hne rfl
      · exact free other hother

theorem release_of_live {reg : Register} (h : c.gen.pool.isLive reg = true) :
    release reg c = .ok () { c with gen := c.gen.drop reg } := by
  simp only [release, generate, Generator.release_of_live h]

theorem release_steps (h : Steps start c) {reg : Register} (held : c.gen.pool.isLive reg = true)
    (spare : c.Spare reg) :
    Ends (fun _ c' => Steps start c') (fun _ c' => Steps start c') (release reg c) := by
  rw [release_of_live held]
  exact h.tail (.drop c reg spare)

end BasicSteps
end Compilation

theorem Instr.mem_registers {instr : Instr} {reg : Register} :
    reg ∈ instr.registers ↔ Operand.reg reg ∈ instr.operands := by
  rw [registers, List.mem_filterMap]
  constructor
  · rintro ⟨operand, member, hreg⟩
    cases operand <;> cases hreg
    exact member
  · intro member
    exact ⟨_, member, rfl⟩

@[simp]
theorem Kind.reg_ne_constant (kind : Kind) (value : String) (reg : Register) :
    Operand.reg reg ≠ kind.constant value := by
  rw [constant]
  split <;> simp

/-- The code of a literal mentions the literal's register only. -/
theorem Kind.literalCode_registers {kind : Kind} {value : String} {reg q : Register}
    {origin : Origin} {instr : Instr} (h : instr ∈ Generator.instrs origin (kind.literalCode value reg))
    (hq : q ∈ instr.registers) : q = reg := by
  obtain ⟨⟨opcode, operands⟩, member, rfl⟩ := List.mem_map.mp h
  rw [Instr.mem_registers] at hq
  by_cases address : kind = .address <;> simp [literalCode, address] at member
  · rcases member with ⟨-, rfl⟩ | ⟨-, rfl⟩ | ⟨-, rfl⟩ | ⟨-, rfl⟩ <;> simp at hq
    all_goals exact hq
  · simpa [member.2] using hq

/-- The code of a call mentions the register of the result only. -/
theorem Binding.callCode_registers {binding : Binding} {reg q : Register} {origin : Origin}
    {instr : Instr} (h : instr ∈ Generator.instrs origin (binding.callCode reg))
    (hq : q ∈ instr.registers) : q = reg := by
  obtain ⟨⟨opcode, operands⟩, member, rfl⟩ := List.mem_map.mp h
  rw [Instr.mem_registers] at hq
  cases himpl : binding.implementation <;> simp [callCode, himpl] at member
  · rcases member with ⟨-, rfl⟩ | ⟨-, rfl⟩ | ⟨-, rfl⟩ <;> simpa using hq
  · rcases member with ⟨-, rfl⟩ | ⟨-, rfl⟩ | ⟨-, rfl⟩ | ⟨-, rfl⟩ | ⟨-, rfl⟩ | ⟨-, rfl⟩ <;>
      simpa using hq
  · simp [member.2] at hq

namespace Expr

open Compilation Generator

variable {start : Compilation} {decls : Declarations} {gen : Generator}

theorem alloc_steps (h : Steps start ⟨decls, gen⟩) (origin : Origin) (name : Option String) :
    Ends (fun reg gen' => Steps start ⟨decls, gen'⟩ ∧ gen.Takes [reg] gen')
      (fun _ gen' => Steps start ⟨decls, gen'⟩) (allocTagged origin name gen) := by
  cases hrun : allocTagged origin name gen with
  | ok reg gen' =>
      obtain ⟨rfl, rfl⟩ := allocTagged_ok hrun
      exact ⟨h.tail (.take ⟨decls, gen⟩ _), gen.take_takes _⟩
  | error e gen' =>
      rw [allocTagged_error hrun]
      exact h

/-- One instruction whose registers were all taken. -/
theorem extend_taken {base : Generator} {regs : List Register}
    (h : Steps start ⟨decls, gen⟩) (taken : base.Takes regs gen) (instr : Instr)
    (mentioned : ∀ reg ∈ instr.registers, reg ∈ regs) :
    Steps start ⟨decls, gen.extend [instr]⟩ := by
  refine h.tail (.extend ⟨decls, gen⟩ [instr] ?_)
  intro i hi reg hreg
  rw [List.mem_singleton.mp hi] at hreg
  exact taken.held reg (mentioned reg hreg)

theorem lowerArgs_steps (live : BoundLive start) {args : List Expr}
    (ih : ∀ arg ∈ args, ∀ gen, Steps start ⟨decls, gen⟩ →
      Ends (fun _ gen' => Steps start ⟨decls, gen'⟩) (fun _ gen' => Steps start ⟨decls, gen'⟩)
        (arg.lower decls gen))
    (h : Steps start ⟨decls, gen⟩) :
    Ends (fun _ gen' => Steps start ⟨decls, gen'⟩) (fun _ gen' => Steps start ⟨decls, gen'⟩)
      (lowerArgs decls args gen) := by
  induction args with
  | nil =>
      simp only [lowerArgs]
      exact h
  | cons arg args ihargs =>
      simp only [lowerArgs]
      refine (ihargs fun a ha => ih a (List.mem_cons_of_mem _ ha)).bind ?_
      intro _ g₁ h₁
      refine ((ih arg List.mem_cons_self g₁ h₁).also (arg.lower_takes decls g₁)).bind ?_
      rintro reg g₂ ⟨h₂, taken⟩
      rw [bind_of_ok (Generator.emit_run ..)]
      have h₃ := extend_taken h₂ taken ⟨.push, [.reg reg], arg.origin⟩
        (by simp [Instr.mem_registers])
      have pushed := taken.trans (g₂.extend_takes [⟨.push, [.reg reg], arg.origin⟩])
      rw [pushed.release (by simp)]
      exact h₃.tail (.drop _ reg ((h₁.boundLive live).spare_of_takes pushed (by simp)))

theorem lower_steps (live : BoundLive start) (e : Expr) (h : Steps start ⟨decls, gen⟩) :
    Ends (fun _ gen' => Steps start ⟨decls, gen'⟩) (fun _ gen' => Steps start ⟨decls, gen'⟩)
      (e.lower decls gen) := by
  induction e generalizing gen with
  | not site x ih =>
      simp only [lower]
      refine ((ih h).also (x.lower_takes decls gen)).bind ?_
      rintro reg g₁ ⟨h₁, taken⟩
      exact extend_taken h₁ taken ⟨.not, [.reg reg, .reg reg], site.toOrigin⟩
        (by simp [Instr.mem_registers])
  | binary site op left right ihl ihr =>
      simp only [lower]
      cases op.opcode? with
      | none => exact h
      | some opcode =>
          refine ((ihl h).also (left.lower_takes decls gen)).bind ?_
          rintro l g₁ ⟨h₁, taken₁⟩
          refine ((ihr h₁).also (right.lower_takes decls g₁)).bind ?_
          rintro r g₂ ⟨h₂, taken₂⟩
          refine (alloc_steps h₂ site.toOrigin _).bind ?_
          rintro reg g₃ ⟨h₃, taken₃⟩
          rw [bind_of_ok (Generator.emit_run ..)]
          have taken := (taken₁.trans taken₂).trans taken₃
          have h₄ := extend_taken h₃ taken
            ⟨opcode, [.reg l, .reg r, .reg reg], site.toOrigin⟩ (by simp [Instr.mem_registers])
          have computed := taken.trans
            (g₃.extend_takes [⟨opcode, [.reg l, .reg r, .reg reg], site.toOrigin⟩])
          have spare : ∀ q ∈ [reg, r, l], Spare ⟨decls, gen⟩ q := fun q =>
            (h.boundLive live).spare_of_takes computed
          have h₅ := h₄.tail (.drop _ r (spare r (by simp)))
          have h₆ := h₅.tail (.drop _ l (spare l (by simp)))
          rw [bind_of_ok (computed.release (by simp))]
          have dropped := computed.drop [reg] [l]
          rw [bind_of_ok (dropped.release (by simp))]
          exact h₆
  | call site binding args ih =>
      simp only [lower]
      refine (lowerArgs_steps live (fun a ha g => ih a ha) h).bind ?_
      intro _ g₁ h₁
      refine (alloc_steps h₁ site.toOrigin _).bind ?_
      rintro reg g₂ ⟨h₂, taken⟩
      refine h₂.tail (.extend ⟨decls, g₂⟩ _ ?_)
      intro instr member q hq
      rw [Binding.callCode_registers member hq]
      exact taken.held reg List.mem_cons_self
  | lit site value kind =>
      simp only [lower]
      refine (alloc_steps h site.toOrigin _).bind ?_
      rintro reg g₁ ⟨h₁, taken⟩
      refine h₁.tail (.extend ⟨decls, g₁⟩ _ ?_)
      intro instr member q hq
      rw [Kind.literalCode_registers member hq]
      exact taken.held reg List.mem_cons_self
  | placeholder site name =>
      simp only [lower]
      exact h
  | var site id =>
      simp only [lower]
      refine ((sourceRegister_ends decls site.toOrigin id gen).mono (fun _ _ h => h) ?_).bind ?_
      · intro _ gen' hgen
        rw [hgen]
        exact h
      · rintro source _ ⟨rfl, -, -, -, hsource⟩
        refine (alloc_steps h site.toOrigin _).bind ?_
        rintro reg g₁ ⟨h₁, taken⟩
        refine h₁.tail (.extend ⟨decls, g₁⟩ [⟨.copy, [.reg source, .reg reg], site.toOrigin⟩] ?_)
        intro instr member q hq
        rw [List.mem_singleton.mp member, Instr.mem_registers] at hq
        have either : q = source ∨ q = reg := by simpa using hq
        rcases either with rfl | rfl
        · exact taken.keeps.isLive hsource
        · exact taken.held q List.mem_cons_self
  | const site id =>
      simp only [lower]
      cases decls.getConstant id with
      | error e => exact h
      | ok c =>
          refine (alloc_steps h site.toOrigin _).bind ?_
          rintro reg g₁ ⟨h₁, taken⟩
          exact extend_taken h₁ taken
            ⟨.load, [.reg reg, c.kind.constant c.value], site.toOrigin⟩
            (by simp [Instr.mem_registers])

end Expr

namespace Stmt

open Compilation

variable {start c : Compilation}

/-- The register that an assignment writes to is live. A live register that no variable is bound to
stays so. -/
theorem targetRegister_steps (live : BoundLive start) (h : Steps start c) (origin : Origin)
    (id : VarId) :
    Ends
      (fun dest c' => Steps start c' ∧ c'.gen.pool.isLive dest = true ∧
        ∀ q, c.gen.pool.isLive q = true → c.Spare q →
          c'.gen.pool.isLive q = true ∧ c'.Spare q)
      (fun _ c' => Steps start c') (targetRegister origin id c) := by
  simp only [targetRegister]
  refine (getVariable_steps h id).bind ?_
  rintro v _ ⟨hv, rfl⟩
  cases hreg : v.register with
  | some reg =>
      rw [← Declarations.boundTo?_of_getVariable hv] at hreg
      exact ⟨h, h.boundLive live id reg hreg, fun q hlive hspare => ⟨hlive, hspare⟩⟩
  | none =>
      refine (allocFor_steps h origin v).bind ?_
      rintro _ _ ⟨rfl, rfl⟩
      have taken := c.gen.take_takes (tenantOf c.gen origin v)
      have tenant : (c.gen.take (tenantOf c.gen origin v)).pool.tenant? c.gen.pool.lowestFree =
          some (tenantOf c.gen origin v) := by simp
      refine (bind_steps (h.tail (.take c _)) hv tenant
        (h.boundLive live).spare_lowestFree).bind ?_
      rintro _ c' ⟨h', hgen, hspare⟩
      have held := taken.held _ List.mem_cons_self
      refine ⟨h', hgen ▸ held, ?_⟩
      intro q hlive free
      refine ⟨hgen ▸ taken.keeps.isLive hlive, hspare q ?_ free⟩
      rintro rfl
      exact taken.not_mem_of_live hlive List.mem_cons_self

/-- The value of an expression sits in a live register that no variable is bound to. -/
theorem value_steps (live : BoundLive start) (h : Steps start c) (e : Expr) :
    Ends
      (fun reg c' => Steps start c' ∧ c'.gen.pool.isLive reg = true ∧ c'.Spare reg)
      (fun _ c' => Steps start c') (generate e.lower c) := by
  refine generate_ends (((e.lower_steps live h).also (e.lower_takes c.decls c.gen)).mono ?_
    (fun _ _ h => h))
  rintro reg gen ⟨h', taken⟩
  exact ⟨h', taken.held reg List.mem_cons_self,
    (h.boundLive live).spare_of_takes taken List.mem_cons_self⟩

theorem lowerAll_steps {ss : List Stmt}
    (ih : ∀ s ∈ ss, ∀ c, Steps start c →
      Ends (fun _ c' => Steps start c') (fun _ c' => Steps start c') (s.lower c))
    (h : Steps start c) :
    Ends (fun _ c' => Steps start c') (fun _ c' => Steps start c') (lowerAll ss c) := by
  induction ss generalizing c with
  | nil =>
      simp only [lowerAll]
      exact h
  | cons s ss ihss =>
      simp only [lowerAll]
      refine (ih s List.mem_cons_self c h).bind ?_
      intro _ c₁ h₁
      exact ihss (fun t ht => ih t (List.mem_cons_of_mem _ ht)) h₁

theorem lower_steps (live : BoundLive start) (s : Stmt) (h : Steps start c) :
    Ends (fun _ c' => Steps start c') (fun _ c' => Steps start c') (s.lower c) := by
  induction s generalizing c with
  | expr origin x =>
      simp only [lower]
      refine (value_steps live h x).bind ?_
      rintro reg c₁ ⟨h₁, held, spare⟩
      exact release_steps h₁ held spare
  | assign origin target value =>
      simp only [lower]
      refine (value_steps live h value).bind ?_
      rintro reg c₁ ⟨h₁, held, spare⟩
      refine (targetRegister_steps live h₁ origin target).bind ?_
      rintro dest c₂ ⟨h₂, hdest, hkept⟩
      obtain ⟨held, spare⟩ := hkept reg held spare
      rw [bind_of_ok (emit_run ..)]
      refine release_steps (h₂.tail (.extend c₂ [⟨.copy, [.reg reg, .reg dest], origin⟩] ?_))
        held spare
      intro instr member q hq
      rw [List.mem_singleton.mp member, Instr.mem_registers] at hq
      have either : q = reg ∨ q = dest := by simpa using hq
      rcases either with rfl | rfl
      · exact held
      · exact hdest
  | ret origin value =>
      cases value with
      | none =>
          simp only [lower]
          exact h.tail (.extend c _ (by simp [Mentionable, Instr.mem_registers]))
      | some value =>
          simp only [lower]
          refine (value_steps live h value).bind ?_
          rintro reg c₁ ⟨h₁, held, spare⟩
          rw [bind_of_ok (emit_run ..)]
          have pushed := h₁.tail (.extend c₁ [⟨.push, [.reg reg], origin⟩]
            (by simpa [Mentionable, Instr.mem_registers] using held))
          refine (release_steps pushed held spare).bind ?_
          intro _ c₂ h₂
          exact h₂.tail (.extend c₂ _ (by simp [Mentionable, Instr.mem_registers]))
  | block origin body ih =>
      simp only [lower]
      exact lowerAll_steps (fun s hs c => ih s hs) h

end Stmt

namespace Method

open Compilation

variable {start c : Compilation}

theorem lowerParams_steps (live : BoundLive start) (h : Steps start c) (origin : Origin)
    (ids : List VarId) :
    Ends (fun _ c' => Steps start c') (fun _ c' => Steps start c')
      (lowerParams origin ids c) := by
  induction ids generalizing c with
  | nil => exact h
  | cons id ids ih =>
      simp only [lowerParams]
      refine (getVariable_steps h id).bind ?_
      rintro v _ ⟨hv, rfl⟩
      refine (allocFor_steps h origin v).bind ?_
      rintro _ _ ⟨rfl, rfl⟩
      rw [bind_of_ok (emit_run ..)]
      have taken := c.gen.take_takes (tenantOf c.gen origin v)
      have popped := h.tail (.take c (tenantOf c.gen origin v)) |>.tail
        (.extend _ [⟨.pop, [.reg c.gen.pool.lowestFree], origin⟩]
          (by simpa [Mentionable, Instr.mem_registers] using taken.held _ List.mem_cons_self))
      have tenant : (c.gen.take (tenantOf c.gen origin v)).pool.tenant? c.gen.pool.lowestFree =
          some (tenantOf c.gen origin v) := by simp
      refine (bind_steps popped hv tenant (h.boundLive live).spare_lowestFree).bind ?_
      rintro _ c' ⟨h', -⟩
      exact ih h'

theorem finish_steps (h : Steps start c) (method : Method) :
    Ends (fun _ gen => Steps start { c with gen }) (fun _ gen => Steps start { c with gen })
      (method.finish c.gen) := by
  simp only [finish]
  split
  · exact h.tail (.extend c _ (by simp [Mentionable, Instr.mem_registers]))
  · split
    · exact h
    · exact h

theorem releaseAll_of_live {regs : List Register} (distinct : regs.Nodup)
    (held : ∀ reg ∈ regs, c.gen.pool.isLive reg = true) :
    releaseAll regs c = .ok () { c with gen := regs.foldl Generator.drop c.gen } := by
  induction regs generalizing c with
  | nil => rfl
  | cons reg regs ih =>
      obtain ⟨hreg, distinct⟩ := List.nodup_cons.mp distinct
      simp only [releaseAll]
      rw [bind_of_ok (release_of_live (held reg List.mem_cons_self)), ih distinct]
      · rfl
      · intro q hq
        have hne : q ≠ reg := fun heq => hreg (heq ▸ hq)
        simp [Pool.isLive_vacate, hne, held q (List.mem_cons_of_mem _ hq)]

/-- Giving back all registers but some cannot fail, as all of them are live. -/
theorem releaseOthers_run (kept : List Register) :
    releaseOthers kept c =
      .ok () ⟨c.decls.unbind (taken kept c.gen), (taken kept c.gen).foldl Generator.drop c.gen⟩ := by
  have distinct : (taken kept c.gen).Nodup := by
    refine (List.Nodup.filter _ ?_).filter _
    exact List.nodup_range.map fun i j hij => congrArg Register.index hij
  have held : ∀ reg ∈ taken kept c.gen, c.gen.pool.isLive reg = true := by
    intro reg hreg
    exact (c.gen.pool.mem_liveRegisters reg).mp (List.mem_filter.mp hreg).1
  simp only [releaseOthers]
  rw [get_bind]
  exact bind_of_ok (releaseAll_of_live distinct held)

theorem describeParams_steps (h : Steps start c) (ids : List VarId) :
    Ends (fun _ c' => Steps start c') (fun _ c' => Steps start c') (describeParams ids c) := by
  induction ids with
  | nil => exact h
  | cons id ids ih =>
      simp only [describeParams]
      refine (getVariable_steps h id).bind ?_
      rintro v _ ⟨-, rfl⟩
      exact ih.bind fun _ _ h' => h'

theorem lower_steps (live : BoundLive start) (h : Steps start c) (method : Method) :
    Ends (fun _ c' => Steps start c') (fun _ c' => Steps start c') (method.lower c) := by
  simp only [lower]
  rw [get_bind]
  refine (lowerParams_steps live h ..).bind ?_
  intro _ c₁ h₁
  refine (Stmt.lowerAll_steps (fun s _ _ => s.lower_steps live) h₁).bind ?_
  intro _ c₂ h₂
  refine (generate_ends (finish_steps h₂ method)).bind ?_
  intro _ c₃ h₃
  rw [bind_of_ok (releaseOthers_run _)]
  have left := h₃.tail (.leave c₃ (taken c.gen.pool.liveRegisters c₃.gen))
  exact (describeParams_steps left method.params).bind fun _ _ h' => h'

end Method

open Compilation in
theorem SourceModule.lowerMethods_steps {start c : Compilation} (live : BoundLive start)
    (h : Steps start c) (methods : List Method) :
    Ends (fun _ c' => Steps start c') (fun _ c' => Steps start c') (lowerMethods methods c) := by
  induction methods generalizing c with
  | nil => exact h
  | cons method methods ih =>
      simp only [lowerMethods]
      refine (method.lower_steps live h).bind ?_
      intro _ c₁ h₁
      refine (ih h₁).bind ?_
      intro _ c₂ h₂
      exact h₂

end ContractLowering
