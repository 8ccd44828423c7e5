import ContractLowering.Proofs.UserErrors

/-!
What a compilation that fails leaves in the declarations. A method is lowered in stages: one for each
parameter, one for each statement that is not a block, and one that ends the method. Registers are
unbound only behind the last stage, so a method that fails leaves bound whatever the stages in front
of the failing one have bound. The failing stage itself and everything outside the method leave no
trace.
-/

namespace ContractLowering

namespace Declarations

/-- The variable has a register. -/
def IsBound (decls : Declarations) (id : VarId) : Prop := (decls.boundTo? id).isSome = true

theorem IsBound.hasVariable {decls : Declarations} {id : VarId} (h : decls.IsBound id) :
    decls.hasVariable id = true := by
  rw [IsBound, boundTo?] at h
  cases hv : decls.vars[id.index]? with
  | none =>
      rw [hv] at h
      cases h
  | some v => exact decide_eq_true (List.getElem?_eq_some_iff.mp hv).1

theorem eq_of_cleared_of_unbound {decls decls' : Declarations} (unbound : decls.Unbound)
    (h : decls'.cleared = decls.cleared) (free : ∀ id, ¬decls'.IsBound id) : decls' = decls := by
  refine eq_of_cleared_eq h fun id => ?_
  rw [unbound.boundTo? id, ← Option.not_isSome_iff_eq_none]
  exact free id

end Declarations

namespace Compilation

/-- Of the declarations nothing but bindings has changed, and exactly these variables are bound in
addition to those that were. -/
structure Adds (c : Compilation) (ids : List VarId) (c' : Compilation) : Prop where
  cleared : c'.decls.cleared = c.decls.cleared
  bound : ∀ id, c'.decls.IsBound id ↔ c.decls.IsBound id ∨ id ∈ ids

namespace Adds

variable {c c₁ c₂ : Compilation} {ids ids' : List VarId}

theorem of_decls_eq (h : c₁.decls = c.decls) : Adds c [] c₁ := ⟨by rw [h], by simp [h]⟩

theorem trans (h : Adds c ids c₁) (k : Adds c₁ ids' c₂) : Adds c (ids ++ ids') c₂ := by
  refine ⟨k.cleared.trans h.cleared, fun id => ?_⟩
  rw [k.bound, h.bound, List.mem_append, or_assoc]

theorem of_bound {id : VarId} (h : c₁.decls = c.decls) (bound : c.decls.IsBound id) :
    Adds c [id] c₁ := by
  refine ⟨by rw [h], fun other => ?_⟩
  rw [h, List.mem_singleton]
  exact ⟨Or.inl, fun hother => hother.elim (fun old => old) fun new => new ▸ bound⟩

theorem of_bind {id : VarId} {reg : Register} (h : c.decls.bind id reg = .ok c₁.decls) :
    Adds c [id] c₁ := by
  obtain ⟨-, hcleared, hbound⟩ := Declarations.bind_ok h
  refine ⟨hcleared, fun other => ?_⟩
  rw [Declarations.IsBound, hbound, List.mem_singleton]
  by_cases hother : other = id
  · simp [hother]
  · simp [hother, Declarations.IsBound]

end Adds

variable {c : Compilation}

/-- Code generation does not touch the declarations. -/
theorem generate_decls {α : Type} (step : Declarations → GenM α) :
    Ends (fun _ c' => c'.decls = c.decls) (fun _ c' => c'.decls = c.decls) (generate step c) := by
  apply generate_ends
  cases step c.decls c.gen <;> rfl

theorem getVariable_ends (id : VarId) :
    Ends (fun v c' => c' = c ∧ c.decls.getVariable id = .ok v) (fun _ c' => c' = c)
      (getVariable id c) := by
  simp only [getVariable]
  rw [get_bind]
  cases hv : c.decls.getVariable id with
  | ok v => exact ⟨rfl, rfl⟩
  | error e => rfl

theorem allocFor_decls (origin : Origin) (v : Variable) :
    Ends (fun reg c' => c'.decls = c.decls ∧ c.gen.Takes [reg] c'.gen)
      (fun _ c' => c'.decls = c.decls) (allocFor origin v c) :=
  generate_ends ((Generator.alloc_ends origin (some v.name) c.gen).mono
    (fun _ _ taken => ⟨rfl, taken⟩) fun _ _ _ => rfl)

theorem bind_adds (id : VarId) (reg : Register) :
    Ends (fun _ c' => Adds c [id] c' ∧ c'.gen = c.gen) (fun _ c' => c'.decls = c.decls)
      (bind id reg c) := by
  simp only [bind]
  rw [get_bind]
  cases hbind : c.decls.bind id reg with
  | ok decls => exact ⟨Adds.of_bind hbind, rfl⟩
  | error e => rfl

end Compilation

/-- A part of a method's lowering, and the variable that it binds if it goes through. -/
structure Stage where
  binds? : Option VarId
  run : CompileM Unit

namespace Stage

open Compilation

/-- The stage binds its variable, unless that is bound, or it fails and binds nothing. -/
def Exact (stage : Stage) : Prop :=
  ∀ c, Ends (fun _ c' => Adds c stage.binds?.toList c') (fun _ c' => c'.decls = c.decls)
    (stage.run c)

def runAll : List Stage → CompileM Unit
  | [] => return
  | stage :: stages => do
    stage.run
    runAll stages

/-- The variables that the stages bind. -/
def bindings (stages : List Stage) : List VarId := stages.flatMap fun stage => stage.binds?.toList

theorem bindings_append (stages stages' : List Stage) :
    bindings (stages ++ stages') = bindings stages ++ bindings stages' :=
  List.flatMap_append

theorem runAll_append (stages stages' : List Stage) :
    runAll (stages ++ stages') = runAll stages >>= fun _ => runAll stages' := by
  induction stages with
  | nil => simp only [List.nil_append, runAll, pure_bind]
  | cons stage stages ih => simp only [List.cons_append, runAll, ih, bind_assoc]

theorem runAll_ok {stages : List Stage} (each : ∀ stage ∈ stages, stage.Exact)
    {c c' : Compilation} (h : runAll stages c = .ok () c') : Adds c (bindings stages) c' := by
  induction stages generalizing c with
  | nil =>
      simp only [runAll] at h
      cases h
      exact Adds.of_decls_eq rfl
  | cons stage stages ih =>
      simp only [runAll] at h
      obtain ⟨_, c₁, hstage, h⟩ := ContractLowering.bind_ok h
      have first := (each stage List.mem_cons_self c).of_ok hstage
      exact first.trans (ih (fun s hs => each s (List.mem_cons_of_mem _ hs)) h)

/-- A run that fails does so in one of the stages, which is then the last one to be run. -/
theorem runAll_error {stages : List Stage} {c c' : Compilation} {e : Failure}
    (h : runAll stages c = .error e c') :
    ∃ done failing rest c₁, stages = done ++ failing :: rest ∧ runAll done c = .ok () c₁ ∧
      failing.run c₁ = .error e c' := by
  induction stages generalizing c with
  | nil =>
      simp only [runAll] at h
      cases h
  | cons stage stages ih =>
      simp only [runAll] at h
      cases hstage : stage.run c with
      | error e₁ c₁ =>
          rw [bind_of_error hstage] at h
          cases h
          exact ⟨[], stage, stages, c, rfl, rfl, hstage⟩
      | ok _ c₁ =>
          rw [bind_of_ok hstage] at h
          obtain ⟨done, failing, rest, c₂, rfl, hdone, hfailing⟩ := ih h
          refine ⟨stage :: done, failing, rest, c₂, rfl, ?_, hfailing⟩
          simp only [runAll]
          rw [bind_of_ok hstage, hdone]

end Stage

namespace Stmt

open Compilation

mutual

/-- The stages of a statement. A block has those of the statements in it. -/
def stages : Stmt → List Stage
  | expr origin x => [⟨none, (expr origin x).lower⟩]
  | assign origin target value => [⟨some target, (assign origin target value).lower⟩]
  | ret origin value => [⟨none, (ret origin value).lower⟩]
  | block _ body => allStages body

def allStages : List Stmt → List Stage
  | [] => []
  | s :: ss => s.stages ++ allStages ss

end

theorem lowerAll_eq_runAll {ss : List Stmt} (ih : ∀ s ∈ ss, s.lower = Stage.runAll s.stages) :
    lowerAll ss = Stage.runAll (allStages ss) := by
  induction ss with
  | nil => simp only [lowerAll, allStages, Stage.runAll]
  | cons s ss ihss =>
      simp only [lowerAll, allStages, Stage.runAll_append]
      rw [ih s List.mem_cons_self, ihss fun t ht => ih t (List.mem_cons_of_mem _ ht)]

theorem lower_eq_runAll (s : Stmt) : s.lower = Stage.runAll s.stages := by
  have single (stage : Stage) : Stage.runAll [stage] = stage.run := bind_pure_unit
  induction s with
  | expr origin x => rw [stages, single]
  | assign origin target value => rw [stages, single]
  | ret origin value => rw [stages, single]
  | block origin body ih =>
      simp only [lower, stages]
      exact lowerAll_eq_runAll ih

/-- The value of a statement is in a live register, and the declarations are as they were. -/
theorem value_decls (x : Expr) (c : Compilation) :
    Ends (fun reg c' => c'.decls = c.decls ∧ c'.gen.pool.isLive reg = true)
      (fun _ c' => c'.decls = c.decls) (generate x.lower c) :=
  generate_ends ((x.lower_takes c.decls c.gen).mono
    (fun reg _ taken => ⟨rfl, taken.held reg List.mem_cons_self⟩) fun _ _ _ => rfl)

theorem targetRegister_adds (origin : Origin) (id : VarId) (c : Compilation) :
    Ends (fun _ c' => Adds c [id] c' ∧ c.gen.Keeps c'.gen) (fun _ c' => c'.decls = c.decls)
      (targetRegister origin id c) := by
  simp only [targetRegister]
  refine ((getVariable_ends id).mono (fun _ _ h => h) fun _ _ h => by rw [h]).bind ?_
  intro v c₁ h₁
  obtain ⟨rfl, hv⟩ := h₁
  have hbound := Declarations.boundTo?_of_getVariable hv
  cases hreg : v.register with
  | some reg =>
      have bound : c₁.decls.IsBound id := by rw [Declarations.IsBound, hbound, hreg]; rfl
      exact ⟨Adds.of_bound rfl bound, Generator.Keeps.refl c₁.gen⟩
  | none =>
      refine (allocFor_decls origin v).bind ?_
      intro reg c₂ h₂
      obtain ⟨hdecls, taken⟩ := h₂
      refine ((bind_adds id reg).mono (fun _ _ h => h) fun _ _ h => h.trans hdecls).bind ?_
      intro _ c₃ h₃
      obtain ⟨added, hgen⟩ := h₃
      refine ⟨(Adds.of_decls_eq hdecls).trans added, ?_⟩
      rw [hgen]
      exact taken.keeps

theorem assign_exact (origin : Origin) (target : VarId) (value : Expr) :
    Stage.Exact ⟨some target, (assign origin target value).lower⟩ := by
  intro c
  simp only [lower]
  refine (value_decls value c).bind ?_
  intro reg c₁ h₁
  obtain ⟨hdecls, live⟩ := h₁
  have binds := targetRegister_adds origin target c₁
  refine (binds.mono (fun _ _ h => h) fun _ _ h => h.trans hdecls).bind ?_
  intro dest c₂ h₂
  rw [bind_of_ok (emit_run ..)]
  refine release_ends (h₂.2.isLive live) ?_
  have added : Adds c [] c₁ := Adds.of_decls_eq hdecls
  exact added.trans ⟨h₂.1.cleared, h₂.1.bound⟩

theorem expr_exact (origin : Origin) (x : Expr) : Stage.Exact ⟨none, (expr origin x).lower⟩ := by
  intro c
  simp only [lower]
  refine (value_decls x c).bind ?_
  intro reg c₁ h₁
  exact release_ends h₁.2 (Adds.of_decls_eq h₁.1)

theorem ret_exact (origin : Origin) (value : Option Expr) :
    Stage.Exact ⟨none, (ret origin value).lower⟩ := by
  intro c
  cases value with
  | none => exact Adds.of_decls_eq rfl
  | some value =>
      simp only [lower]
      refine (value_decls value c).bind ?_
      intro reg c₁ h₁
      rw [bind_of_ok (emit_run ..), bind_of_ok (release_of_live
        (c := { c₁ with gen := c₁.gen.extend [⟨.push, [.reg reg], origin⟩] }) h₁.2)]
      exact Adds.of_decls_eq h₁.1

theorem allStages_exact {ss : List Stmt} (ih : ∀ s ∈ ss, ∀ stage ∈ s.stages, stage.Exact) :
    ∀ stage ∈ allStages ss, stage.Exact := by
  induction ss with
  | nil => simp [allStages]
  | cons s ss ihss =>
      intro stage hstage
      simp only [allStages, List.mem_append] at hstage
      cases hstage with
      | inl here => exact ih s List.mem_cons_self stage here
      | inr later => exact ihss (fun t ht => ih t (List.mem_cons_of_mem _ ht)) stage later

theorem stages_exact (s : Stmt) : ∀ stage ∈ s.stages, stage.Exact := by
  induction s with
  | expr origin x =>
      intro stage hstage
      simp only [stages, List.mem_singleton] at hstage
      exact hstage ▸ expr_exact origin x
  | assign origin target value =>
      intro stage hstage
      simp only [stages, List.mem_singleton] at hstage
      exact hstage ▸ assign_exact origin target value
  | ret origin value =>
      intro stage hstage
      simp only [stages, List.mem_singleton] at hstage
      exact hstage ▸ ret_exact origin value
  | block origin body ih =>
      simp only [stages]
      exact allStages_exact ih

end Stmt

namespace Method

open Compilation

variable {c c' : Compilation}

/-- The stages of a method: its parameters, its statements, and its end. -/
def stages (method : Method) : List Stage :=
  method.params.map (fun id => ⟨some id, lowerParams method.origin [id]⟩) ++
    (Stmt.allStages method.body ++ [⟨none, generate fun _ => method.finish⟩])

theorem param_exact (origin : Origin) (id : VarId) :
    Stage.Exact ⟨some id, lowerParams origin [id]⟩ := by
  intro c
  simp only [lowerParams]
  refine ((getVariable_ends id).mono (fun _ _ h => h) fun _ _ h => by rw [h]).bind ?_
  intro v c₁ h₁
  obtain ⟨rfl, -⟩ := h₁
  refine (allocFor_decls origin v).bind ?_
  intro reg c₂ h₂
  rw [bind_of_ok (emit_run ..)]
  have binds := bind_adds (c := { c₂ with gen := c₂.gen.extend [⟨.pop, [.reg reg], origin⟩] }) id reg
  refine (binds.mono (fun _ _ h => h.1) fun _ _ h => h.trans h₂.1).bind ?_
  intro _ c₃ h₃
  have added : Adds c₁ [] c₂ := Adds.of_decls_eq h₂.1
  exact added.trans ⟨h₃.cleared, h₃.bound⟩

theorem stages_exact (method : Method) : ∀ stage ∈ method.stages, stage.Exact := by
  intro stage hstage
  simp only [stages, List.mem_append, List.mem_map, List.mem_singleton] at hstage
  cases hstage with
  | inl param =>
      obtain ⟨id, -, rfl⟩ := param
      exact param_exact method.origin id
  | inr inside =>
      cases inside with
      | inl body => exact Stmt.allStages_exact (fun s _ => s.stages_exact) stage body
      | inr last =>
          subst last
          intro c
          have kept := generate_decls (c := c) fun _ => method.finish
          exact kept.mono (fun _ _ h => Adds.of_decls_eq h) fun _ _ h => h

theorem lowerParams_eq_runAll (origin : Origin) (ids : List VarId) :
    lowerParams origin ids =
      Stage.runAll (ids.map fun id => ⟨some id, lowerParams origin [id]⟩) := by
  induction ids with
  | nil => simp only [lowerParams, List.map_nil, Stage.runAll]
  | cons id ids ih =>
      simp only [List.map_cons, Stage.runAll, ← ih]
      simp only [lowerParams, bind_assoc, pure_bind]

/-- A method runs its stages, and then only gives back registers and describes itself. -/
theorem lower_eq_runAll (method : Method) (c : Compilation) :
    method.lower c = (do
      Stage.runAll method.stages
      releaseOthers c.gen.pool.liveRegisters
      return ⟨method.name, method.returns, c.gen.position, ← describeParams method.params⟩ :
        CompileM ExportedMethod) c := by
  simp only [lower, stages, Stage.runAll_append, ← lowerParams_eq_runAll,
    ← Stmt.lowerAll_eq_runAll fun s _ => s.lower_eq_runAll, Stage.runAll]
  rw [get_bind]
  simp only [bindParams, bind_assoc, pure_bind]

theorem mem_bindings_stages {method : Method} {id : VarId} (h : id ∈ method.params) :
    id ∈ Stage.bindings method.stages := by
  refine List.mem_flatMap.mpr ⟨⟨some id, lowerParams method.origin [id]⟩, ?_, by simp⟩
  exact List.mem_append_left _ (List.mem_map_of_mem h)

/-- A method that fails does so in one of its stages. -/
theorem lower_error {method : Method} {e : Failure} (h : method.lower c = .error e c') :
    Stage.runAll method.stages c = .error e c' := by
  rw [lower_eq_runAll] at h
  cases hrun : Stage.runAll method.stages c with
  | error e₁ c₁ =>
      rw [bind_of_error hrun] at h
      cases h
      rfl
  | ok _ c₁ =>
      rw [bind_of_ok hrun] at h
      have added := Stage.runAll_ok method.stages_exact hrun
      -- every parameter was bound, so it was declared and can be described
      have declared : ∀ id ∈ method.params, c₁.decls.hasVariable id = true := fun id hid =>
        ((added.bound id).mpr (Or.inr (mem_bindings_stages hid))).hasVariable
      exact ((conclusion_succeeds (fun _ _ => False) declared _ _).of_error h).elim

end Method

namespace SourceModule

open Compilation

variable {c c' : Compilation}

/-- Lowering methods fails in one of them, and those in front of it went through. -/
theorem lowerMethods_error {methods : List Method} {e : Failure}
    (h : lowerMethods methods c = .error e c') :
    ∃ before method rest described c₁, methods = before ++ method :: rest ∧
      lowerMethods before c = .ok described c₁ ∧ method.lower c₁ = .error e c' := by
  induction methods generalizing c with
  | nil =>
      simp only [lowerMethods] at h
      cases h
  | cons method methods ih =>
      simp only [lowerMethods] at h
      cases hmethod : method.lower c with
      | error e₁ c₁ =>
          rw [bind_of_error hmethod] at h
          cases h
          exact ⟨[], method, methods, [], c, rfl, rfl, hmethod⟩
      | ok first c₁ =>
          rw [bind_of_ok hmethod] at h
          cases hrest : lowerMethods methods c₁ with
          | ok others c₂ =>
              rw [bind_of_ok hrest] at h
              cases h
          | error e₁ c₂ =>
              rw [bind_of_error hrest] at h
              cases h
              obtain ⟨before, failing, rest, described, c₃, rfl, hbefore, hfailing⟩ := ih hrest
              refine ⟨method :: before, failing, rest,
                if method.exported then first :: described else described, c₃, rfl, ?_, hfailing⟩
              simp only [lowerMethods]
              rw [bind_of_ok hmethod, bind_of_ok hbefore]
              rfl

theorem lowerMethods_restores {methods : List Method} {described : List ExportedMethod}
    (unbound : c.decls.Unbound) (h : lowerMethods methods c = .ok described c') :
    c'.decls = c.decls := by
  induction methods generalizing c described with
  | nil =>
      simp only [lowerMethods] at h
      cases h
      rfl
  | cons method methods ih =>
      obtain ⟨first, c₁, others, hfirst, hothers, -⟩ := lowerMethods_cons_ok h
      have restored := (Method.lower_restores hfirst (Coupled.of_unbound unbound).live).1
      rw [← restored] at unbound ⊢
      exact ih unbound hothers

/-- Lowering the methods fails in one of them with these declarations. The methods in front of it go
through, and so do the given stages of the method itself; the stage behind them fails. -/
def StopsBehind (methods : List Method) (start : Compilation) (done : List Stage) (e : Failure)
    (after : Declarations) : Prop :=
  ∃ before method rest described c, methods = before ++ method :: rest ∧
    lowerMethods before start = .ok described c ∧
    ∃ failing left c₁ c₂, method.stages = done ++ failing :: left ∧
      Stage.runAll done c = .ok () c₁ ∧ failing.run c₁ = .error e c₂ ∧ c₂.decls = after

theorem lowerMethods_stopsBehind {methods : List Method} {e : Failure} (unbound : c.decls.Unbound)
    (h : lowerMethods methods c = .error e c') :
    ∃ done, StopsBehind methods c done e c'.decls ∧ c'.decls.cleared = c.decls.cleared ∧
      ∀ id, c'.decls.IsBound id ↔ id ∈ Stage.bindings done := by
  obtain ⟨before, method, rest, described, c₁, rfl, hbefore, hmethod⟩ := lowerMethods_error h
  have restored := lowerMethods_restores unbound hbefore
  obtain ⟨done, failing, left, c₂, hstages, hdone, hfailing⟩ :=
    Stage.runAll_error (Method.lower_error hmethod)
  -- the stages in front of the failing one have bound their variables, and it has bound none
  have sound : ∀ stage ∈ done ++ failing :: left, stage.Exact := hstages ▸ method.stages_exact
  have added := Stage.runAll_ok (fun stage hstage => sound stage (List.mem_append_left _ hstage)) hdone
  have kept : c'.decls = c₂.decls := (sound failing (by simp) c₂).of_error hfailing
  refine ⟨done, ⟨before, method, rest, described, c₁, rfl, hbefore, failing, left, c₂, c', hstages,
    hdone, hfailing, rfl⟩, ?_, ?_⟩
  · rw [kept, added.cleared, restored]
  · intro id
    rw [kept, added.bound, restored, Declarations.IsBound, unbound.boundTo? id]
    simp

/-- The ways in which a compilation fails, and the declarations that each of them leaves. -/
inductive FailsWith (source : SourceModule) (options : Options) (decls : Declarations)
    (e : Failure) : Declarations → Prop
  | expansion (failed : (source.expand decls).failure = some e) :
      FailsWith source options decls e decls
  | lowering {done : List Stage} {after : Declarations}
      (stops : StopsBehind (source.expanded decls).methods ⟨decls, options.generator⟩ done e after)
      (bound : ∀ id, after.IsBound id ↔ id ∈ Stage.bindings done) :
      FailsWith source options decls e after
  | standard (failed : source.standard? options decls = .error e) :
      FailsWith source options decls e decls

theorem compile_failsWith {source : SourceModule} {options : Options} {decls after : Declarations}
    {e : Failure} (unbound : decls.Unbound)
    (fails : source.compile options decls = .error e after) :
    after.cleared = decls.cleared ∧ source.FailsWith options decls e after := by
  cases hexpand : (source.expand decls).failure with
  | some e₁ =>
      rw [compile_of_expand_error hexpand] at fails
      cases fails
      exact ⟨rfl, .expansion hexpand⟩
  | none =>
      rw [expand_failure, List.findSome?_eq_none_iff] at hexpand
      cases hlower : lowerMethods (source.expanded decls).methods ⟨decls, options.generator⟩ with
      | error e₁ c =>
          rw [compile_of_lower_error hexpand hlower] at fails
          cases fails
          obtain ⟨done, stops, hcleared, hbound⟩ :=
            lowerMethods_stopsBehind (c := ⟨decls, options.generator⟩) unbound hlower
          exact ⟨hcleared, .lowering stops hbound⟩
      | ok described c =>
          have restored : c.decls = decls :=
            lowerMethods_restores (c := ⟨decls, options.generator⟩) unbound hlower
          cases hstandard : source.standard? options c.decls with
          | ok standard =>
              rw [compile_of_standard_ok hexpand hlower hstandard] at fails
              cases fails
          | error e₁ =>
              rw [compile_of_standard_error hexpand hlower hstandard] at fails
              cases fails
              rw [restored] at hstandard ⊢
              exact ⟨rfl, .standard hstandard⟩

/-- What a failed compilation leaves in the declarations. If a placeholder or the standard is at fault,
they are as before. If a method is, exactly those of its parameters and local variables are bound that
the stages in front of the failing one have bound. Where there are none, every later compilation ends
as if the failed one had not been made. -/
theorem compile_error_leaves (source : SourceModule) (options : Options)
    {decls after : Declarations} {e : Failure} (unbound : decls.Unbound)
    (fails : source.compile options decls = .error e after) :
    after.cleared = decls ∧ source.FailsWith options decls e after ∧
      ((∀ id, ¬after.IsBound id) → ∀ (later : SourceModule) (options' : Options),
        later.compile options' after = later.compile options' decls) := by
  obtain ⟨hcleared, failure⟩ := compile_failsWith unbound fails
  refine ⟨hcleared.trans unbound.cleared, failure, ?_⟩
  intro free later options'
  rw [Declarations.eq_of_cleared_of_unbound unbound hcleared free]

namespace Forgetful

def origin : Origin := ⟨⟨1⟩, 1⟩

def table : Declarations := { vars := [⟨"amount", .number, none⟩] }

def deposit (body : List Stmt) : Method where
  origin := origin
  name := "deposit"
  scope := .root
  params := [⟨0⟩]
  returns := .number
  body := body
  exported := true

/-- Promises a number and returns nothing. -/
def source : SourceModule := ⟨.root, [deposit []], []⟩

def corrected : SourceModule :=
  ⟨.root, [deposit [.ret ⟨⟨2⟩, 2⟩ (some (.var ⟨⟨⟨3⟩, 2⟩, .root⟩ ⟨0⟩))]], []⟩

/-- The parameter has kept its register. -/
def after : Declarations := { vars := [⟨"amount", .number, some ⟨0⟩⟩] }

theorem fails :
    source.compile {} table = .error (.reported (.missingReturn origin "deposit")) after := by
  obtain ⟨e, s, h, rfl, rfl⟩ : ∃ e s, source.compile {} table = .error e s ∧
      e = .reported (.missingReturn origin "deposit") ∧ s = after := by
    apply Ends.fails
    decide +kernel
  exact h

end Forgetful

open Forgetful in
/-- The method fails at its end, behind the stage that has bound its parameter. -/
theorem compile_error_leaves_parameter :
    table.Unbound ∧
      source.compile {} table = .error (.reported (.missingReturn origin "deposit")) after ∧
      after.cleared = table ∧ ∃ done, StopsBehind [deposit []] ⟨table, Options.generator {}⟩ done
          (.reported (.missingReturn origin "deposit")) after ∧
        ∀ id, after.IsBound id ↔ id ∈ Stage.bindings done := by
  have unbound : table.Unbound := by decide
  obtain ⟨hcleared, failure, -⟩ := compile_error_leaves source {} unbound fails
  refine ⟨unbound, fails, hcleared, ?_⟩
  cases failure with
  | lowering stops bound => exact ⟨_, stops, bound⟩

open Forgetful in
/-- Nothing is bound at first. After a module that could not be compiled, the corrected module
cannot be compiled either, although it can be on its own: its parameter is still bound. -/
theorem failed_compilation_spoils_later :
    table.Unbound ∧
      (∃ e left, source.compile {} table = .error e left ∧ left.IsBound ⟨0⟩ ∧
        ∃ later, corrected.compile {} left = .error (.reported (.registerRebound "amount")) later) ∧
      ∃ compiled, corrected.compile {} table = .ok compiled table := by
  have unbound : table.Unbound := by decide
  obtain ⟨e, later, hlater, rfl⟩ : ∃ e later, corrected.compile {} after = .error e later ∧
      e = .reported (.registerRebound "amount") := by
    apply Ends.fails
    decide +kernel
  obtain ⟨compiled, same, compiles, rfl⟩ : ∃ compiled same,
      corrected.compile {} table = .ok compiled same ∧ same = table := by
    apply Ends.succeeds
    decide +kernel
  exact ⟨unbound, ⟨_, after, fails, rfl, later, hlater⟩, compiled, compiles⟩

end SourceModule
end ContractLowering
