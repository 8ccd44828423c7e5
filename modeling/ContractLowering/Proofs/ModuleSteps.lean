import ContractLowering.Proofs.StatementSteps
import ContractLowering.SourceModule.Compile

/-!
What compiling a module consists of: the expansion of its methods, which goes through or fails with
the first method that cannot be expanded, the lowering of one method after the other, and the
look-up of the standard for the interface.
-/

namespace ContractLowering

namespace Progress

variable {α : Type} (f : α → Progress α)

theorem result_eq_ok {p : Progress α} {a : α} :
    p.result = .ok a ↔ p.failure = none ∧ p.value = a := by
  rw [result]
  cases p.failure <;> simp

theorem result_eq_error {p : Progress α} {e : Failure} :
    p.result = .error e ↔ p.failure = some e := by
  rw [result]
  cases p.failure <;> simp

theorem traverse_failure (as : List α) :
    (traverse f as).failure = as.findSome? fun a => (f a).failure := by
  induction as with
  | nil => rfl
  | cons a as ih =>
      rw [traverse, both, List.findSome?_cons]
      cases (f a).failure with
      | none => exact ih
      | some e => rfl

theorem traverse_value {as : List α} (h : ∀ a ∈ as, (f a).failure = none) :
    (traverse f as).value = as.map fun a => (f a).value := by
  induction as with
  | nil => rfl
  | cons a as ih =>
      rw [traverse, both, h a List.mem_cons_self]
      exact congrArg (List.cons _) (ih fun b hb => h b (List.mem_cons_of_mem _ hb))

end Progress

/-- The method with its placeholders replaced, as far as they can be. -/
def Method.expanded (decls : Declarations) (method : Method) : Method := (method.expand decls).value

namespace SourceModule

variable {source : SourceModule} {options : Options} {decls decls' : Declarations}

def expanded (decls : Declarations) (source : SourceModule) : SourceModule :=
  { source with methods := source.methods.map (Method.expanded decls) }

theorem expand_failure (decls : Declarations) (source : SourceModule) :
    (source.expand decls).failure =
      source.methods.findSome? fun method => (method.expand decls).failure :=
  Progress.traverse_failure _ _

theorem expand_result (h : ∀ method ∈ source.methods, (method.expand decls).failure = none) :
    (source.expand decls).result = .ok (source.expanded decls) := by
  rw [Progress.result_eq_ok, expand_failure, List.findSome?_eq_none_iff]
  refine ⟨h, ?_⟩
  rw [expand, Progress.map, Progress.traverse_value _ h]
  rfl

/-- What is returned once all methods are lowered. -/
def assemble (source : SourceModule) (options : Options) (standard : Option Standard)
    (methods : List ExportedMethod) (gen : Generator) : Compiled where
  code := gen.code
  interface :=
    standard.elim ⟨methods, source.events⟩ (Interface.applyStandard ⟨methods, source.events⟩)
  warnings := source.warnings
  peak := gen.pool.peak
  sourceMap := options.sourceMap

theorem compile_of_expand_error {e : Failure} (h : (source.expand decls).failure = some e) :
    source.compile options decls = .error e decls := by
  rw [compile, Progress.result_eq_error.mpr h]

section Expanded

variable (expands : ∀ method ∈ source.methods, (method.expand decls).failure = none)
include expands

theorem compile_of_lower_error {e : Failure} {c : Compilation}
    (h : lowerMethods (source.expanded decls).methods ⟨decls, options.generator⟩ = .error e c) :
    source.compile options decls = .error e c.decls := by
  rw [compile, expand_result expands]
  simp only [lower]
  rw [bind_of_error h]

variable {described : List ExportedMethod} {c : Compilation}
  (lowers : lowerMethods (source.expanded decls).methods ⟨decls, options.generator⟩ =
    .ok described c)
include lowers

theorem compile_of_standard_error {e : Failure} (h : source.standard? options c.decls = .error e) :
    source.compile options decls = .error e c.decls := by
  have h' : (source.expanded decls).standard? options c.decls = .error e := h
  rw [compile, expand_result expands]
  simp only [lower]
  rw [bind_of_ok lowers, get_bind, h']
  rfl

theorem compile_of_standard_ok {standard : Option Standard}
    (h : source.standard? options c.decls = .ok standard) :
    source.compile options decls =
      .ok ((source.expanded decls).assemble options standard described c.gen) c.decls := by
  have h' : (source.expanded decls).standard? options c.decls = .ok standard := h
  rw [compile, expand_result expands]
  simp only [lower]
  rw [bind_of_ok lowers, get_bind, h']
  rfl

end Expanded

/-- The phases of a compilation that succeeds, with the standard that was found for the module. -/
theorem compile_phases {compiled : Compiled}
    (h : source.compile options decls = .ok compiled decls') :
    (∀ method ∈ source.methods, (method.expand decls).failure = none) ∧
      ∃ described c standard,
        lowerMethods (source.expanded decls).methods ⟨decls, options.generator⟩ = .ok described c ∧
        source.standard? options c.decls = .ok standard ∧
        compiled = (source.expanded decls).assemble options standard described c.gen ∧
        decls' = c.decls := by
  cases hfailure : (source.expand decls).failure with
  | some e =>
      rw [compile_of_expand_error hfailure] at h
      cases h
  | none =>
      rw [expand_failure, List.findSome?_eq_none_iff] at hfailure
      refine ⟨hfailure, ?_⟩
      cases hlower : lowerMethods (source.expanded decls).methods ⟨decls, options.generator⟩ with
      | error e c =>
          rw [compile_of_lower_error hfailure hlower] at h
          cases h
      | ok described c =>
          cases hstandard : source.standard? options c.decls with
          | error e =>
              rw [compile_of_standard_error hfailure hlower hstandard] at h
              cases h
          | ok standard =>
              rw [compile_of_standard_ok hfailure hlower hstandard] at h
              cases h
              exact ⟨described, c, standard, rfl, hstandard, rfl, rfl⟩

theorem compile_ok {compiled : Compiled} (h : source.compile options decls = .ok compiled decls') :
    (∀ method ∈ source.methods, (method.expand decls).failure = none) ∧
      ∃ described c standard,
        lowerMethods (source.expanded decls).methods ⟨decls, options.generator⟩ = .ok described c ∧
        compiled = (source.expanded decls).assemble options standard described c.gen ∧
        decls' = c.decls := by
  obtain ⟨expands, described, c, standard, lowers, -, hcompiled, hdecls⟩ := compile_phases h
  exact ⟨expands, described, c, standard, lowers, hcompiled, hdecls⟩

/-- The run of the generator behind a compiled module. -/
theorem compile_runs {compiled : Compiled} (h : source.compile options decls = .ok compiled decls') :
    ∃ expanded c, (source.expand decls).result = .ok expanded ∧
      expanded.lower options ⟨decls, options.generator⟩ = .ok compiled c ∧ decls' = c.decls := by
  rw [compile] at h
  split at h
  · cases h
  · rename_i expanded hexpand
    split at h
    · rename_i compiled c hlower
      cases h
      exact ⟨expanded, c, hexpand, hlower, rfl⟩
    · cases h

theorem lower_ok {compiled : Compiled} {c c' : Compilation}
    (h : source.lower options c = .ok compiled c') :
    ∃ described, lowerMethods source.methods c = .ok described c' ∧
      compiled.code = c'.gen.code ∧ compiled.peak = c'.gen.pool.peak := by
  simp only [lower] at h
  obtain ⟨described, c₁, hmethods, h⟩ := bind_ok h
  rw [get_bind] at h
  obtain ⟨standard, c₂, hstandard, h⟩ := bind_ok h
  obtain ⟨-, rfl⟩ := ofExcept_eq_ok hstandard
  rw [get_bind] at h
  cases h
  exact ⟨described, hmethods, rfl, rfl⟩

theorem lowerMethods_cons_ok {method : Method} {methods : List Method}
    {described : List ExportedMethod} {c c' : Compilation}
    (h : lowerMethods (method :: methods) c = .ok described c') :
    ∃ first c₁ others, method.lower c = .ok first c₁ ∧ lowerMethods methods c₁ = .ok others c' ∧
      described = if method.exported then first :: others else others := by
  simp only [lowerMethods] at h
  obtain ⟨first, c₁, hfirst, h⟩ := bind_ok h
  obtain ⟨others, c₂, hothers, h⟩ := bind_ok h
  cases h
  exact ⟨first, c₁, others, hfirst, hothers, rfl⟩

end SourceModule
end ContractLowering
