import ContractLowering.Proofs.LoweringSteps

/-!
Who holds which register while code is generated. `Takes` compares two states of a generator: some
registers were free before and are held now, and every other register has the tenant it had. An
expression takes one register, and the arguments of a call take none. A run that fails may leave
temporaries behind, but it takes nothing away: `Keeps` is what remains in that case.
-/

namespace ContractLowering
namespace Generator

/-- Code and journal are only ever added to. -/
structure Grows (gen gen' : Generator) : Prop where
  code : gen.code <+: gen'.code
  journal : gen.journal <+: gen'.journal

/-- No register that was live has another tenant now, or none. -/
structure Keeps (gen gen' : Generator) : Prop extends Grows gen gen' where
  tenants : ∀ reg tenant, gen.pool.tenant? reg = some tenant → gen'.pool.tenant? reg = some tenant

/-- What code generation never does to a state, whether it succeeds or fails: a live register keeps
its name and its origin, and nothing is taken out of the code and the journal. -/
structure Undisturbed (gen gen' : Generator) : Prop where
  names : ∀ reg, gen.pool.isLive reg = true → gen'.pool.name? reg = gen.pool.name? reg
  origins : ∀ reg, gen.pool.isLive reg = true → gen'.pool.origin? reg = gen.pool.origin? reg
  code : gen.code <+: gen'.code
  journal : gen.journal <+: gen'.journal

/-- These registers were taken, no two of them the same, and nothing else changed hands. -/
structure Takes (gen : Generator) (regs : List Register) (gen' : Generator) : Prop
    extends Grows gen gen' where
  distinct : regs.Nodup
  fresh : ∀ reg ∈ regs, gen.pool.tenant? reg = none
  held : ∀ reg ∈ regs, gen'.pool.isLive reg = true
  others : ∀ reg, reg ∉ regs → gen'.pool.tenant? reg = gen.pool.tenant? reg

theorem Grows.trans {a b c : Generator} (h : Grows a b) (k : Grows b c) : Grows a c :=
  ⟨h.code.trans k.code, h.journal.trans k.journal⟩

theorem Keeps.refl (gen : Generator) : Keeps gen gen :=
  ⟨⟨List.prefix_rfl, List.prefix_rfl⟩, fun _ _ h => h⟩

theorem Keeps.trans {a b c : Generator} (h : Keeps a b) (k : Keeps b c) : Keeps a c :=
  ⟨h.toGrows.trans k.toGrows, fun reg t ht => k.tenants reg t (h.tenants reg t ht)⟩

theorem Keeps.isLive {gen gen' : Generator} (h : Keeps gen gen') {reg : Register}
    (live : gen.pool.isLive reg = true) : gen'.pool.isLive reg = true := by
  obtain ⟨t, ht⟩ := (gen.pool.isLive_iff reg).mp live
  exact (gen'.pool.isLive_iff reg).mpr ⟨t, h.tenants reg t ht⟩

theorem Keeps.undisturbed {gen gen' : Generator} (h : Keeps gen gen') : Undisturbed gen gen' := by
  have same : ∀ reg, gen.pool.isLive reg = true →
      gen'.pool.tenant? reg = gen.pool.tenant? reg := by
    intro reg live
    obtain ⟨t, ht⟩ := (gen.pool.isLive_iff reg).mp live
    rw [h.tenants reg t ht, ht]
  refine ⟨?_, ?_, h.code, h.journal⟩
  · intro reg live
    rw [Pool.name?, Pool.name?, same reg live]
  · intro reg live
    rw [Pool.origin?, Pool.origin?, same reg live]

namespace Takes

variable {gen gen' gen'' : Generator} {regs regs' : List Register} {reg : Register}

theorem refl (gen : Generator) : Takes gen [] gen :=
  ⟨⟨List.prefix_rfl, List.prefix_rfl⟩, List.nodup_nil, by simp, by simp, fun _ _ => rfl⟩

theorem not_mem_of_live (h : Takes gen regs gen') (live : gen.pool.isLive reg = true) :
    reg ∉ regs := by
  intro hreg
  rw [(gen.pool.isLive_eq_false_iff reg).mpr (h.fresh reg hreg)] at live
  cases live

theorem keeps (h : Takes gen regs gen') : Keeps gen gen' := by
  refine ⟨h.toGrows, ?_⟩
  intro reg t ht
  have live : gen.pool.isLive reg = true := (gen.pool.isLive_iff reg).mpr ⟨t, ht⟩
  rw [h.others reg (h.not_mem_of_live live), ht]

theorem isLive_iff (h : Takes gen regs gen') (reg : Register) :
    gen'.pool.isLive reg = true ↔ gen.pool.isLive reg = true ∨ reg ∈ regs := by
  by_cases hreg : reg ∈ regs
  · simp [hreg, h.held reg hreg]
  · simp [hreg, Pool.isLive, h.others reg hreg]

theorem trans (h : Takes gen regs gen') (k : Takes gen' regs' gen'') :
    Takes gen (regs' ++ regs) gen'' := by
  have apart : ∀ reg ∈ regs, reg ∉ regs' := fun reg hreg => k.not_mem_of_live (h.held reg hreg)
  refine ⟨h.toGrows.trans k.toGrows, ?_, ?_, ?_, ?_⟩
  · refine List.nodup_append.mpr ⟨k.distinct, h.distinct, ?_⟩
    intro a ha b hb hab
    subst hab
    exact apart a hb ha
  · intro reg hreg
    by_cases hr : reg ∈ regs
    · exact h.fresh reg hr
    · rw [← h.others reg hr]
      exact k.fresh reg ((List.mem_append.mp hreg).resolve_right hr)
  · intro reg hreg
    rcases List.mem_append.mp hreg with hr | hr
    · exact k.held reg hr
    · exact k.keeps.isLive (h.held reg hr)
  · intro reg hreg
    rw [List.mem_append, not_or] at hreg
    rw [k.others reg hreg.1, h.others reg hreg.2]

end Takes

theorem extend_takes (gen : Generator) (code : List Instr) : Takes gen [] (gen.extend code) :=
  ⟨⟨List.prefix_append _ _, List.prefix_rfl⟩, List.nodup_nil, by simp, by simp, fun _ _ => rfl⟩

theorem take_takes (gen : Generator) (tenant : Tenant) :
    Takes gen [gen.pool.lowestFree] (gen.take tenant) := by
  refine ⟨⟨List.prefix_rfl, List.prefix_append _ _⟩, by simp, ?_, ?_, ?_⟩
  · intro reg hreg
    rw [List.mem_singleton.mp hreg]
    exact gen.pool.tenant?_lowestFree
  · intro reg hreg
    rw [List.mem_singleton.mp hreg]
    simp [take, record, Pool.isLive_house]
  · intro reg hreg
    rw [List.mem_singleton] at hreg
    simp [take, record, hreg]

theorem Takes.drop {gen gen' : Generator} (before after : List Register) {reg : Register}
    (h : Takes gen (before ++ reg :: after) gen') :
    Takes gen (before ++ after) (gen'.drop reg) := by
  have hd : reg ∉ before ++ after ∧ (before ++ after).Nodup := by
    have perm : (before ++ reg :: after).Perm (reg :: (before ++ after)) := List.perm_middle
    exact List.nodup_cons.mp (perm.nodup_iff.mp h.distinct)
  have mem : ∀ q ∈ before ++ after, q ∈ before ++ reg :: after := by
    intro q hq
    simp only [List.mem_append, List.mem_cons] at hq ⊢
    exact hq.imp_right Or.inr
  refine ⟨⟨h.code, h.journal.trans (List.prefix_append _ _)⟩, hd.2, ?_, ?_, ?_⟩
  · exact fun q hq => h.fresh q (mem q hq)
  · intro q hq
    have hne : q ≠ reg := fun heq => hd.1 (heq ▸ hq)
    simp [Generator.drop, record, Pool.isLive_vacate, hne, h.held q (mem q hq)]
  · intro q hq
    by_cases hne : q = reg
    · subst hne
      simp [Generator.drop, record, h.fresh q (by simp)]
    · have hq' : q ∉ before ++ reg :: after := by
        simp only [List.mem_append, List.mem_cons, not_or] at hq ⊢
        exact ⟨hq.1, hne, hq.2⟩
      simp [Generator.drop, record, hne, h.others q hq']

theorem allocTagged_ends (origin : Origin) (name : Option String) (gen : Generator) :
    Ends (fun reg gen' => Takes gen [reg] gen') (fun _ gen' => gen' = gen)
      (allocTagged origin name gen) := by
  cases h : allocTagged origin name gen with
  | ok reg gen' =>
      obtain ⟨rfl, rfl⟩ := allocTagged_ok h
      exact gen.take_takes _
  | error e gen' => exact allocTagged_error h

theorem alloc_ends (origin : Origin) (name : Option String) (gen : Generator) :
    Ends (fun reg gen' => Takes gen [reg] gen') (fun _ gen' => gen' = gen)
      (alloc origin name gen) :=
  allocTagged_ends origin _ gen

/-- A register that was taken can be given back. -/
theorem Takes.release {gen gen' : Generator} {regs : List Register} {reg : Register}
    (h : Takes gen regs gen') (hreg : reg ∈ regs) : release reg gen' = .ok () (gen'.drop reg) :=
  release_of_live (h.held reg hreg)

end Generator

namespace Expr

open Generator

/-- A failure, seen from an earlier state. -/
theorem ends_of_keeps {α : Type} {gen gen' : Generator} {done : α → Generator → Prop}
    {r : EStateM.Result Failure Generator α} (k : Keeps gen gen')
    (h : Ends done (fun _ g => Keeps gen' g) r) : Ends done (fun _ g => Keeps gen g) r :=
  h.mono (fun _ _ h => h) fun _ _ h => k.trans h

theorem ends_of_eq {α : Type} {gen gen' : Generator} {done : α → Generator → Prop}
    {r : EStateM.Result Failure Generator α} (k : Keeps gen gen')
    (h : Ends done (fun _ g => g = gen') r) : Ends done (fun _ g => Keeps gen g) r :=
  h.mono (fun _ _ h => h) fun _ _ h => h ▸ k

theorem sourceRegister_ends (decls : Declarations) (origin : Origin) (id : VarId)
    (gen : Generator) :
    Ends (fun reg gen' => gen' = gen ∧ ∃ v, decls.getVariable id = .ok v ∧
        v.register = some reg ∧ gen.pool.isLive reg = true)
      (fun _ gen' => gen' = gen) (sourceRegister decls origin id gen) := by
  rw [sourceRegister]
  cases hv : decls.getVariable id with
  | error e => exact rfl
  | ok v =>
      rw [bind_of_ok (ofExcept_ok v gen), get_bind]
      cases hs : v.register.filter gen.pool.isLive with
      | none => exact rfl
      | some reg =>
          obtain ⟨hreg, live⟩ := Option.filter_eq_some_iff.mp hs
          exact ⟨rfl, v, rfl, hreg, live⟩

theorem lowerArgs_takes (decls : Declarations) (args : List Expr) (gen : Generator)
    (ih : ∀ arg ∈ args, ∀ gen, Ends (fun reg gen' => Takes gen [reg] gen')
      (fun _ gen' => Keeps gen gen') (arg.lower decls gen)) :
    Ends (fun _ gen' => Takes gen [] gen') (fun _ gen' => Keeps gen gen')
      (lowerArgs decls args gen) := by
  induction args generalizing gen with
  | nil => exact Takes.refl gen
  | cons arg args ihargs =>
      simp only [lowerArgs]
      refine (ihargs gen fun a ha => ih a (List.mem_cons_of_mem _ ha)).bind ?_
      intro _ g₁ h₁
      refine (ends_of_keeps h₁.keeps (ih arg List.mem_cons_self g₁)).bind ?_
      intro reg g₂ h₂
      rw [bind_of_ok (emit_run ..)]
      have h₃ := (h₁.trans h₂).trans (g₂.extend_takes [⟨.push, [.reg reg], arg.origin⟩])
      rw [h₃.release (by simp)]
      exact h₃.drop [] []

/-- What the code of an expression does to the registers, however its generation ends. -/
theorem lower_takes (decls : Declarations) (e : Expr) (gen : Generator) :
    Ends (fun reg gen' => Takes gen [reg] gen') (fun _ gen' => Keeps gen gen')
      (e.lower decls gen) := by
  induction e generalizing gen with
  | not s x ih =>
      simp only [lower]
      refine (ih gen).bind ?_
      intro reg g₁ h₁
      exact h₁.trans (g₁.extend_takes _)
  | binary s op left right ihl ihr =>
      simp only [lower]
      cases op.opcode? with
      | none => exact Keeps.refl gen
      | some opcode =>
          refine (ihl gen).bind ?_
          intro l g₁ h₁
          refine (ends_of_keeps h₁.keeps (ihr g₁)).bind ?_
          intro r g₂ h₂
          have h₁₂ := h₁.trans h₂
          refine (ends_of_eq h₁₂.keeps (alloc_ends s.toOrigin none g₂)).bind ?_
          intro reg g₃ h₃
          rw [bind_of_ok (emit_run ..)]
          -- right goes before left, so the two are taken off the list from the front
          have h₄ := (h₁₂.trans h₃).trans
            (g₃.extend_takes [⟨opcode, [.reg l, .reg r, .reg reg], s.toOrigin⟩])
          rw [bind_of_ok (h₄.release (by simp))]
          have h₅ := h₄.drop [reg] [l]
          rw [bind_of_ok (h₅.release (by simp))]
          exact h₅.drop [reg] []
  | call s binding args ih =>
      simp only [lower]
      refine (lowerArgs_takes decls args gen ih).bind ?_
      intro _ g₁ h₁
      refine (ends_of_eq h₁.keeps (alloc_ends s.toOrigin none g₁)).bind ?_
      intro reg g₂ h₂
      exact (h₁.trans h₂).trans (g₂.extend_takes _)
  | lit s value kind =>
      simp only [lower]
      refine (ends_of_eq (Keeps.refl gen) (alloc_ends s.toOrigin none gen)).bind ?_
      intro reg g₁ h₁
      exact h₁.trans (g₁.extend_takes _)
  | placeholder s name => exact Keeps.refl gen
  | var s id =>
      simp only [lower]
      refine (ends_of_eq (Keeps.refl gen) (sourceRegister_ends decls s.toOrigin id gen)).bind ?_
      intro source g h
      obtain ⟨hg, -⟩ := h
      rw [hg]
      refine (ends_of_eq (Keeps.refl gen) (alloc_ends s.toOrigin none gen)).bind ?_
      intro reg g₁ h₁
      exact h₁.trans (g₁.extend_takes _)
  | const s id =>
      simp only [lower]
      cases decls.getConstant id with
      | error e => exact Keeps.refl gen
      | ok c =>
          refine (ends_of_eq (Keeps.refl gen) (allocTagged_ends s.toOrigin _ gen)).bind ?_
          intro reg g₁ h₁
          exact h₁.trans (g₁.extend_takes _)

/-- The arguments of a call are pushed and none of them is held. -/
theorem lowerArgs_takes_none (decls : Declarations) (args : List Expr) (gen : Generator) :
    Ends (fun _ gen' => Takes gen [] gen') (fun _ gen' => Keeps gen gen')
      (lowerArgs decls args gen) :=
  lowerArgs_takes decls args gen fun arg _ => lower_takes decls arg

/-- An expression takes one register that was free and holds nothing else behind. A failure takes
no register away from anyone. -/
theorem lower_one_register (decls : Declarations) (e : Expr) (gen : Generator) :
    Ends
      (fun reg gen' => gen.pool.isLive reg = false ∧
        (∀ q, gen'.pool.isLive q = true ↔ gen.pool.isLive q = true ∨ q = reg) ∧
        Undisturbed gen gen')
      (fun _ gen' => (∀ q, gen.pool.isLive q = true → gen'.pool.isLive q = true) ∧
        Undisturbed gen gen')
      (e.lower decls gen) := by
  refine (lower_takes decls e gen).mono ?_ ?_
  · intro reg gen' h
    have fresh := h.fresh reg List.mem_cons_self
    refine ⟨(gen.pool.isLive_eq_false_iff reg).mpr fresh, ?_, h.keeps.undisturbed⟩
    intro q
    rw [h.isLive_iff q, List.mem_singleton]
  · intro _ gen' h
    exact ⟨fun q live => h.isLive live, h.undisturbed⟩

end Expr
end ContractLowering
