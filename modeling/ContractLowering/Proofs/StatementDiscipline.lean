import ContractLowering.Proofs.RegisterDiscipline
import ContractLowering.Proofs.StatementSteps
import Mathlib.Data.List.Nodup

/-!
Which registers statements and methods hold on to. A statement takes a register for each variable
that it is the first to assign to, and no other one stays taken: `Binds` lists the variables that
were bound with their registers. A method gives all of them back, so that a method which compiles
leaves the tenants of the registers and the bindings of the variables as it found them.
-/

namespace ContractLowering
namespace Compilation

open Generator

/-- These variables had no register and have the given ones now; nothing else about the bindings and
the live registers has changed. -/
structure Binds (c : Compilation) (new : List (VarId × Register)) (c' : Compilation) : Prop where
  takes : c.gen.Takes (new.map Prod.snd) c'.gen
  cleared : c'.decls.cleared = c.decls.cleared
  unbound : ∀ p ∈ new, c.decls.boundTo? p.1 = none
  bound : ∀ id reg, c'.decls.boundTo? id = some reg ↔
    c.decls.boundTo? id = some reg ∨ (id, reg) ∈ new

/-- Every bound variable has a live register. -/
def BoundLive (c : Compilation) : Prop :=
  ∀ id reg, c.decls.boundTo? id = some reg → c.gen.pool.isLive reg = true

theorem boundLive_iff {c : Compilation} : c.BoundLive ↔
    ∀ v ∈ c.decls.vars, ∀ reg ∈ v.register, c.gen.pool.isLive reg = true := by
  constructor
  · intro h v hv reg hreg
    obtain ⟨id, hid⟩ := Declarations.exists_boundTo?.mpr ⟨v, hv, hreg⟩
    exact h id reg hid
  · intro h id reg hid
    obtain ⟨v, hv, hreg⟩ := Declarations.exists_boundTo?.mp ⟨id, hid⟩
    exact h v hv reg hreg

instance (c : Compilation) : Decidable c.BoundLive := decidable_of_iff _ boundLive_iff.symm

/-- Bound variables have live registers, and no two of them share one. -/
structure Coupled (c : Compilation) : Prop where
  live : ∀ id reg, c.decls.boundTo? id = some reg → c.gen.pool.isLive reg = true
  apart : ∀ id id' reg, c.decls.boundTo? id = some reg → c.decls.boundTo? id' = some reg → id = id'

theorem Coupled.of_unbound {c : Compilation} (h : c.decls.Unbound) : Coupled c := by
  refine ⟨?_, ?_⟩
  · intro id reg hreg
    rw [h.boundTo? id] at hreg
    cases hreg
  · intro id id' reg hreg
    rw [h.boundTo? id] at hreg
    cases hreg

namespace Binds

variable {c c₁ c₂ : Compilation} {new new' : List (VarId × Register)}

theorem of_takes {gen : Generator} (h : c.gen.Takes [] gen) : Binds c [] { c with gen } :=
  ⟨h, rfl, by simp, by simp⟩

theorem refl (c : Compilation) : Binds c [] c := of_takes (Takes.refl c.gen)

theorem trans (h : Binds c new c₁) (k : Binds c₁ new' c₂) : Binds c (new' ++ new) c₂ := by
  refine ⟨?_, k.cleared.trans h.cleared, ?_, ?_⟩
  · rw [List.map_append]
    exact h.takes.trans k.takes
  · intro p hp
    rcases List.mem_append.mp hp with hp | hp
    · cases hreg : c.decls.boundTo? p.1 with
      | none => rfl
      | some reg =>
          have later := (h.bound p.1 reg).mpr (Or.inl hreg)
          rw [k.unbound p hp] at later
          cases later
    · exact h.unbound p hp
  · intro id reg
    rw [k.bound, h.bound, List.mem_append, or_assoc, or_comm (a := (id, reg) ∈ new)]

/-- A variable that was bound to a register which was taken for it. -/
theorem of_bind {decls : Declarations} {gen : Generator} {id : VarId} {reg : Register}
    (h : c.decls.bind id reg = .ok decls) (k : c.gen.Takes [reg] gen) :
    Binds c [(id, reg)] ⟨decls, gen⟩ := by
  obtain ⟨hnone, hcleared, hbound⟩ := Declarations.bind_ok h
  refine ⟨k, hcleared, by simpa using hnone, ?_⟩
  intro other reg
  rw [hbound]
  by_cases ho : other = id
  · subst ho
    simp [hnone, eq_comm]
  · simp [ho]

theorem coupled (h : Binds c new c₁) (k : Coupled c) : Coupled c₁ := by
  have fresh : ∀ id id' reg, c.decls.boundTo? id = some reg → (id', reg) ∉ new := by
    intro id id' reg hreg hnew
    exact h.takes.not_mem_of_live (k.live id reg hreg) (List.mem_map_of_mem hnew)
  refine ⟨?_, ?_⟩
  · intro id reg hreg
    rcases (h.bound id reg).mp hreg with hold | hnew
    · exact h.takes.keeps.isLive (k.live id reg hold)
    · exact h.takes.held reg (List.mem_map_of_mem hnew)
  · intro id id' reg hreg hreg'
    rcases (h.bound id reg).mp hreg with hold | hnew <;>
      rcases (h.bound id' reg).mp hreg' with hold' | hnew'
    · exact k.apart id id' reg hold hold'
    · exact absurd hnew' (fresh id id' reg hold)
    · exact absurd hnew (fresh id' id reg hold')
    · exact congrArg Prod.fst (List.inj_on_of_nodup_map h.takes.distinct hnew hnew' rfl)

end Binds
end Compilation

namespace Stmt

open Compilation Generator

theorem lowerAll_binds {ss : List Stmt} {c c' : Compilation}
    (ih : ∀ s ∈ ss, ∀ c c', s.lower c = .ok () c' → ∃ new, Binds c new c')
    (h : lowerAll ss c = .ok () c') : ∃ new, Binds c new c' := by
  induction ss generalizing c with
  | nil =>
      simp only [lowerAll] at h
      cases h
      exact ⟨[], Binds.refl c'⟩
  | cons s ss ihss =>
      obtain ⟨c₁, hs, hss⟩ := lowerAll_cons_ok h
      obtain ⟨new, hnew⟩ := ih s List.mem_cons_self c c₁ hs
      obtain ⟨new', hnew'⟩ := ihss (fun s hs => ih s (List.mem_cons_of_mem _ hs)) hss
      exact ⟨new' ++ new, hnew.trans hnew'⟩

theorem lower_assign_binds {origin : Origin} {target : VarId} {value : Expr} {c c' : Compilation}
    (h : (Stmt.assign origin target value).lower c = .ok () c') : ∃ new, Binds c new c' := by
  obtain ⟨reg, g, dest, c₁, hvalue, htarget, rfl⟩ := lower_assign_ok h
  have taken := (value.lower_takes c.decls c.gen).of_ok hvalue
  rcases targetRegister_ok htarget with ⟨-, rfl⟩ | ⟨decls, tenant, rfl, hbind, rfl⟩
  · have copied := taken.trans (g.extend_takes [⟨.copy, [.reg reg, .reg dest], origin⟩])
    exact ⟨[], Binds.of_takes (copied.drop [] [])⟩
  · have both := taken.trans (g.take_takes tenant)
    have copied := both.trans (Generator.extend_takes _
      [⟨.copy, [.reg reg, .reg g.pool.lowestFree], origin⟩])
    exact ⟨_, Binds.of_bind hbind (copied.drop [g.pool.lowestFree] [])⟩

theorem lower_binds (s : Stmt) {c c' : Compilation} (h : s.lower c = .ok () c') :
    ∃ new, Binds c new c' := by
  induction s generalizing c c' with
  | expr origin x =>
      obtain ⟨reg, g, hx, rfl⟩ := lower_expr_ok h
      have taken := (x.lower_takes c.decls c.gen).of_ok hx
      exact ⟨[], Binds.of_takes (taken.drop [] [])⟩
  | assign origin target value => exact lower_assign_binds h
  | ret origin value =>
      cases value with
      | none =>
          rw [lower_ret_none_ok h]
          exact ⟨[], Binds.of_takes (c.gen.extend_takes _)⟩
      | some value =>
          obtain ⟨reg, g, hvalue, rfl⟩ := lower_ret_some_ok h
          have taken := (value.lower_takes c.decls c.gen).of_ok hvalue
          have pushed := taken.trans (g.extend_takes [⟨.push, [.reg reg], origin⟩])
          exact ⟨[], Binds.of_takes ((pushed.drop [] []).trans (Generator.extend_takes _ _))⟩
  | block origin body ih =>
      simp only [lower] at h
      exact lowerAll_binds (fun s hs c c' => ih s hs) h

end Stmt

namespace Method

open Compilation Generator

theorem lowerParams_binds {origin : Origin} {ids : List VarId} {c c' : Compilation}
    (h : lowerParams origin ids c = .ok () c') : ∃ new, Binds c new c' := by
  induction ids generalizing c with
  | nil =>
      simp only [lowerParams] at h
      cases h
      exact ⟨[], Binds.refl c'⟩
  | cons id ids ih =>
      obtain ⟨reg, decls, tenant, rfl, hbind, h⟩ := lowerParams_cons_ok h
      have popped := (c.gen.take_takes tenant).trans (Generator.extend_takes _
        [⟨.pop, [.reg c.gen.pool.lowestFree], origin⟩])
      obtain ⟨new, hnew⟩ := ih h
      exact ⟨_, (Binds.of_bind hbind popped).trans hnew⟩

/-- What giving back one register leaves alone, giving back several does too. -/
theorem foldl_drop_field {α : Type} (field : Generator → α)
    (kept : ∀ gen reg, field (Generator.drop gen reg) = field gen) (regs : List Register)
    (gen : Generator) : field (regs.foldl Generator.drop gen) = field gen := by
  induction regs generalizing gen with
  | nil => rfl
  | cons reg regs ih => rw [List.foldl_cons, ih, kept]

theorem foldl_drop_code (regs : List Register) (gen : Generator) :
    (regs.foldl Generator.drop gen).code = gen.code :=
  foldl_drop_field Generator.code (fun _ _ => rfl) regs gen

theorem foldl_drop_tenant? (regs : List Register) (gen : Generator) (q : Register) :
    (regs.foldl Generator.drop gen).pool.tenant? q =
      if q ∈ regs then none else gen.pool.tenant? q := by
  induction regs generalizing gen with
  | nil => simp
  | cons reg regs ih =>
      rw [List.foldl_cons, ih]
      by_cases hq : q = reg <;> by_cases hmem : q ∈ regs <;> simp [hq, hmem]

/-- What is live at the end of a method and was not at its beginning is what was taken between. -/
theorem mem_taken {gen gen' : Generator} {regs : List Register} (h : gen.Takes regs gen')
    (q : Register) : q ∈ taken gen.pool.liveRegisters gen' ↔ q ∈ regs := by
  simp only [taken, List.mem_filter, decide_eq_true_eq, Pool.mem_liveRegisters, h.isLive_iff]
  constructor
  · intro hq
    obtain ⟨hlive, hold⟩ := hq
    exact hlive.resolve_left hold
  · intro hq
    exact ⟨Or.inr hq, fun live => h.not_mem_of_live live hq⟩

/-- Parameters and body bind some variables, and at its end the method gives back the registers that
were taken for them. -/
theorem lower_binds {method : Method} {described : ExportedMethod} {c c' : Compilation}
    (h : method.lower c = .ok described c') :
    ∃ new c₂, Binds c new c₂ ∧ (∀ q, c'.gen.pool.tenant? q = c.gen.pool.tenant? q) ∧
      c'.decls = c₂.decls.unbind (taken c.gen.pool.liveRegisters c₂.gen) := by
  obtain ⟨c₁, c₂, hparams, hbody, -, -, -, rfl⟩ := lower_ok h
  obtain ⟨new, hnew⟩ := lowerParams_binds hparams
  obtain ⟨new', hnew'⟩ := Stmt.lowerAll_binds (fun s _ _ _ => s.lower_binds) hbody
  have binds := hnew.trans hnew'
  refine ⟨_, c₂, binds, ?_, rfl⟩
  intro q
  rw [foldl_drop_tenant?, extend_pool]
  by_cases hq : q ∈ (new' ++ new).map Prod.snd
  · rw [if_pos ((mem_taken binds.takes q).mpr hq), binds.takes.fresh q hq]
  · rw [if_neg (mt (mem_taken binds.takes q).mp hq), binds.takes.others q hq]

theorem lower_cleared {method : Method} {described : ExportedMethod} {c c' : Compilation}
    (h : method.lower c = .ok described c') : c'.decls.cleared = c.decls.cleared := by
  obtain ⟨new, c₂, binds, -, hdecls⟩ := lower_binds h
  rw [hdecls, Declarations.cleared_unbind, binds.cleared]

/-- A method that compiles leaves every register and every binding as it found them. -/
theorem lower_restores {method : Method} {described : ExportedMethod} {c c' : Compilation}
    (h : method.lower c = .ok described c')
    (live : ∀ id reg, c.decls.boundTo? id = some reg → c.gen.pool.isLive reg = true) :
    c'.decls = c.decls ∧ ∀ q, c'.gen.pool.tenant? q = c.gen.pool.tenant? q := by
  obtain ⟨new, c₂, binds, htenants, hdecls⟩ := lower_binds h
  refine ⟨?_, htenants⟩
  rw [hdecls]
  refine Declarations.eq_of_cleared_eq ((Declarations.cleared_unbind _ _).trans binds.cleared) ?_
  intro id
  rw [Declarations.boundTo?_unbind]
  cases hid : c₂.decls.boundTo? id with
  | none =>
      cases hold : c.decls.boundTo? id with
      | none => rfl
      | some reg =>
          rw [(binds.bound id reg).mpr (Or.inl hold)] at hid
          cases hid
  | some reg =>
      rcases (binds.bound id reg).mp hid with hold | hnew
      · have hreg : reg ∉ taken c.gen.pool.liveRegisters c₂.gen :=
          mt (mem_taken binds.takes reg).mp (binds.takes.not_mem_of_live (live id reg hold))
        simp [Option.filter, hreg, hold]
      · have hreg : reg ∈ taken c.gen.pool.liveRegisters c₂.gen :=
          (mem_taken binds.takes reg).mpr (List.mem_map_of_mem hnew)
        simp [Option.filter, hreg, binds.unbound (id, reg) hnew]

/-- A method gives back what it took: the same registers are live, under the same names and for the
same nodes, and the same variables are bound to them. -/
theorem lower_gives_back {method : Method} {described : ExportedMethod} {c c' : Compilation}
    (live : c.BoundLive) (h : method.lower c = .ok described c') :
    c'.gen.pool.liveRegisters = c.gen.pool.liveRegisters ∧
      (∀ reg, c'.gen.pool.name? reg = c.gen.pool.name? reg) ∧
      (∀ reg, c'.gen.pool.origin? reg = c.gen.pool.origin? reg) ∧ c'.decls = c.decls := by
  obtain ⟨hdecls, htenants⟩ := lower_restores h live
  refine ⟨Pool.liveRegisters_congr ?_, ?_, ?_, hdecls⟩
  · intro reg
    rw [Pool.isLive, Pool.isLive, htenants]
  · intro reg
    rw [Pool.name?, Pool.name?, htenants]
  · intro reg
    rw [Pool.origin?, Pool.origin?, htenants]

namespace Enclosed

def site : Site := ⟨⟨⟨2⟩, 1⟩, .root⟩

/-- Two registers are held, the first of them for a variable, and one between them is free. -/
def outer : Compilation where
  decls := { vars := [⟨"x", .number, some ⟨0⟩⟩, ⟨"y", .number, none⟩, ⟨"z", .number, none⟩] }
  gen := { pool := {
    slots := [some ⟨some "x", site.toOrigin⟩, none, some ⟨none, site.toOrigin⟩]
    peak := 3 } }

/-- Assigns to the variable that is bound outside, and to a local one. -/
def method : Method where
  origin := site.toOrigin
  name := "accumulate"
  scope := .root
  params := [⟨1⟩]
  returns := .void
  body := [.assign site.toOrigin ⟨2⟩ (.binary site .add (.var site ⟨0⟩) (.var site ⟨1⟩)),
    .assign site.toOrigin ⟨0⟩ (.var site ⟨2⟩)]
  exported := false

end Enclosed

open Enclosed in
/-- The method takes the free register and further ones, and the two held registers remain. -/
theorem lower_gives_back_enclosed :
    outer.BoundLive ∧ ∃ described after, method.lower outer = .ok described after ∧
      after.gen.code.length = 8 ∧ after.gen.pool.liveRegisters = [⟨0⟩, ⟨2⟩] ∧
      after.gen.pool.name? ⟨0⟩ = some "x" ∧ after.decls = outer.decls := by
  have live : outer.BoundLive := by decide +kernel
  obtain ⟨described, after, lowers, hlength⟩ : ∃ described after,
      method.lower outer = .ok described after ∧ after.gen.code.length = 8 := by
    apply Ends.succeeds
    decide +kernel
  obtain ⟨hlive, hname, -, hdecls⟩ := lower_gives_back live lowers
  refine ⟨live, described, after, lowers, hlength, ?_, ?_, hdecls⟩
  · rw [hlive]
    decide +kernel
  · rw [hname]
    rfl

end Method
end ContractLowering
