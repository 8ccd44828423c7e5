import ContractLowering.Proofs.AlikeRuns
import ContractLowering.Proofs.ExportedInterface

/-!
Presentation has no influence on code. Which methods are exported, which events there are, whether
registers carry names, whether listings name source lines and which standard applies: two compilations
that differ in nothing else succeed with the same code or fail with the same error. Their generators are
alike all the way, although the names of their tenants differ.
-/

namespace ContractLowering

/-- The method, whether it is exported or not. -/
def Method.unpublished (method : Method) : Method := { method with exported := false }

theorem Method.unpublished_lower (method : Method) : method.unpublished.lower = method.lower := rfl

namespace SourceModule

open Compilation

/-- The module without what only its interface shows. -/
def unpublished (source : SourceModule) : SourceModule :=
  { source with methods := source.methods.map Method.unpublished, events := [] }

theorem unpublished_expand_failure (source : SourceModule) (decls : Declarations) :
    (source.unpublished.expand decls).failure = (source.expand decls).failure := by
  rw [expand_failure, expand_failure, unpublished, List.findSome?_map]
  rfl

theorem unpublished_expanded (source : SourceModule) (decls : Declarations) :
    source.unpublished.expanded decls = (source.expanded decls).unpublished := by
  simp only [expanded, unpublished, List.map_map]
  rfl

theorem unpublished_warnings (source : SourceModule) :
    source.unpublished.warnings = source.warnings := by
  simp only [warnings, expressions, unpublished, List.flatMap_map]
  rfl

theorem lowerMethods_agrees {limit : Option Nat} {low : Nat} {c c' : Compilation}
    {methods methods' : List Method}
    (same : methods.map Method.unpublished = methods'.map Method.unpublished)
    (h : Alike limit [] low c c') :
    Agree (Alike limit [] low) (fun _ _ => True) (lowerMethods methods c)
      (lowerMethods methods' c') := by
  induction methods generalizing methods' c c' with
  | nil =>
      cases methods' with
      | nil => exact ⟨trivial, h⟩
      | cons method' methods' => cases same
  | cons method methods ih =>
      cases methods' with
      | nil => cases same
      | cons method' methods' =>
          obtain ⟨hmethod, hmethods⟩ := List.cons.inj same
          have lowers : method'.lower = method.lower := by
            rw [← method'.unpublished_lower, ← hmethod, method.unpublished_lower]
          simp only [lowerMethods, lowers]
          refine (method.lower_agrees h).bind ?_
          intro described described' c₁ c₁' _ h₁
          refine (ih hmethods h₁).bind ?_
          intro others others' c₂ c₂' _ h₂
          exact ⟨trivial, h₂⟩

theorem generator_alike {options options' : Options}
    (limits : options.maxRegisters = options'.maxRegisters) :
    options.generator.Alike options.maxRegisters [] 0 options'.generator :=
  ⟨fun _ => rfl, rfl, limits.symm, rfl, rfl⟩

/-- Lowering leaves the scopes alone, so it does not matter when the standard is looked up. -/
theorem standard?_behind {source : SourceModule} {options : Options} {methods : List Method}
    {described : List ExportedMethod} {c c' : Compilation}
    (lowers : lowerMethods methods c = .ok described c') :
    source.standard? options c'.decls = source.standard? options c.decls := by
  obtain ⟨-, -, -, hcleared, -⟩ := lowerMethods_described lowers
  rw [standard?, standard?, Declarations.enclosingModule_of_cleared_eq hcleared]

variable {source source' : SourceModule} {decls : Declarations}

theorem compile_agrees {options options' : Options} (parents : decls.ParentsFirst)
    (issued : source.scope.index < decls.scopes.length)
    (same : source.unpublished = source'.unpublished)
    (limits : options.maxRegisters = options'.maxRegisters) :
    Agree Eq
      (fun compiled compiled' => compiled'.code = compiled.code ∧
        compiled'.warnings = compiled.warnings ∧ compiled'.peak = compiled.peak)
      (source.compile options decls) (source'.compile options' decls) := by
  have issued' : source'.unpublished.scope.index < decls.scopes.length := same ▸ issued
  have hfailure : (source.expand decls).failure = (source'.expand decls).failure := by
    rw [← unpublished_expand_failure, same, unpublished_expand_failure]
  have hexpanded : (source.expanded decls).unpublished = (source'.expanded decls).unpublished := by
    rw [← unpublished_expanded, same, unpublished_expanded]
  cases hexpand : (source.expand decls).failure with
  | some e =>
      rw [compile_of_expand_error hexpand, compile_of_expand_error (hfailure ▸ hexpand)]
      exact ⟨rfl, rfl⟩
  | none =>
      have expands := hexpand
      have expands' := hfailure ▸ hexpand
      rw [expand_failure, List.findSome?_eq_none_iff] at expands expands'
      have begun : Alike options.maxRegisters [] 0 ⟨decls, options.generator⟩
        ⟨decls, options'.generator⟩ := ⟨rfl, generator_alike limits⟩
      have runs := lowerMethods_agrees (congrArg SourceModule.methods hexpanded) begun
      cases hlower : lowerMethods (source.expanded decls).methods ⟨decls, options.generator⟩ with
      | error e c =>
          obtain ⟨c', hlower', alike⟩ := runs.of_error hlower
          rw [compile_of_lower_error expands hlower, compile_of_lower_error expands' hlower']
          exact ⟨rfl, alike.decls⟩
      | ok described c =>
          obtain ⟨described', c', hlower', -, alike⟩ := runs.of_ok hlower
          obtain ⟨standard, hstandard⟩ := standard?_of_parentsFirst options parents issued
          obtain ⟨standard', hstandard'⟩ :=
            standard?_of_parentsFirst options' parents issued'
          rw [← standard?_behind hlower] at hstandard
          rw [← standard?_behind hlower'] at hstandard'
          rw [compile_of_standard_ok expands hlower hstandard,
            compile_of_standard_ok expands' hlower' hstandard']
          refine ⟨⟨?_, ?_, ?_⟩, alike.decls⟩
          · exact alike.gen.code.symm
          · change (source'.expanded decls).warnings = (source.expanded decls).warnings
            rw [← unpublished_warnings, ← hexpanded, unpublished_warnings]
          · exact (alike.gen.peak.trans (Nat.zero_max _)).symm

/-- Two modules that differ only in their events and in which methods they export, compiled with
options that agree on the limit: if one compiles, so does the other, to the same code with the same
warnings and the same peak, and if one fails, the other fails with the same error. In both cases the
declarations are the same afterwards. -/
theorem compile_ignores_presentation (options options' : Options) (parents : decls.ParentsFirst)
    (issued : source.scope.index < decls.scopes.length)
    (same : source.unpublished = source'.unpublished)
    (limits : options.maxRegisters = options'.maxRegisters) :
    (∀ compiled after, source.compile options decls = .ok compiled after →
      ∃ compiled', source'.compile options' decls = .ok compiled' after ∧
        compiled'.code = compiled.code ∧ compiled'.warnings = compiled.warnings ∧
        compiled'.peak = compiled.peak) ∧
    ∀ e after, source.compile options decls = .error e after →
      source'.compile options' decls = .error e after := by
  have runs := compile_agrees parents issued same limits
  constructor
  · intro compiled after compiles
    obtain ⟨compiled', after', compiles', equal, rfl⟩ := runs.of_ok compiles
    exact ⟨compiled', compiles', equal⟩
  · intro e after fails
    obtain ⟨after', fails', rfl⟩ := runs.of_error fails
    exact fails'

namespace Fee

def site : Site := ⟨⟨⟨5⟩, 3⟩, ⟨1⟩⟩

def table : Declarations where
  scopes := [Scope.root, ⟨"art", some .root, some ⟨"art", .nft, some "ART"⟩⟩]
  vars := [⟨"price", .number, none⟩]
  consts := [⟨"FEE", .number, "5"⟩]

/-- Adds a constant, whose register has a name in any case, to its argument. -/
def getRoyalties : Method where
  origin := site.toOrigin
  name := "getRoyalties"
  scope := ⟨1⟩
  params := [⟨0⟩]
  returns := .number
  body := [.ret site.toOrigin (some (.binary site .add (.var site ⟨0⟩) (.const site ⟨0⟩)))]
  exported := true

def shown : SourceModule := ⟨⟨1⟩, [getRoyalties], [⟨1, "Paid", .number, "paid"⟩]⟩

def hidden : SourceModule := ⟨⟨1⟩, [{ getRoyalties with exported := false }], []⟩

/-- Nothing is shown, and the limit is as given. -/
def terse (limit : Option Nat) : Options where
  sourceMap := true
  debugNames := false
  maxRegisters := limit
  standard := some .nft

end Fee

open Fee in
/-- A module with everything shown and the same with nothing shown. Four registers are enough for both,
and three are too few for both. -/
theorem compile_ignores_presentation_hidden :
    table.ParentsFirst ∧ shown.scope.index < table.scopes.length ∧
    shown.unpublished = hidden.unpublished ∧
    (∃ compiled compiled' after,
      shown.compile { maxRegisters := some 4 } table = .ok compiled after ∧
      hidden.compile (terse (some 4)) table = .ok compiled' after ∧
      compiled'.code = compiled.code ∧ compiled.code.length = 6 ∧ compiled'.peak = 4 ∧
      compiled.interface.methods.length = 1 ∧ compiled'.interface.methods = []) ∧
    ∃ after,
      hidden.compile (terse (some 3)) table =
        .error (.reported (.registerLimit site.toOrigin 3)) after := by
  have parents : table.ParentsFirst := by decide
  have issued : shown.scope.index < table.scopes.length := by decide
  have same : shown.unpublished = hidden.unpublished := rfl
  obtain ⟨succeed, -⟩ := compile_ignores_presentation { maxRegisters := some 4 } (terse (some 4))
    parents issued same rfl
  obtain ⟨-, fail⟩ := compile_ignores_presentation { maxRegisters := some 3 } (terse (some 3))
    parents issued same rfl
  refine ⟨parents, issued, same, ?_, ?_⟩
  · obtain ⟨compiled, after, compiles, hlength, hpeak, hmethods⟩ : ∃ compiled after,
        shown.compile { maxRegisters := some 4 } table = .ok compiled after ∧
          compiled.code.length = 6 ∧ compiled.peak = 4 ∧
          compiled.interface.methods.length = 1 := by
      apply Ends.succeeds
      decide +kernel
    obtain ⟨compiled', compiles', hcode, -, hpeak'⟩ := succeed compiled after compiles
    obtain ⟨compiled'', after'', compiles'', hnone⟩ : ∃ compiled after,
        hidden.compile (terse (some 4)) table = .ok compiled after ∧
          compiled.interface.methods = [] := by
      apply Ends.succeeds
      decide +kernel
    cases compiles'.symm.trans compiles''
    exact ⟨compiled, compiled', after, compiles, compiles', hcode, hlength, hpeak'.trans hpeak,
      hmethods, hnone⟩
  · obtain ⟨e, after, fails, rfl⟩ : ∃ e after,
        shown.compile { maxRegisters := some 3 } table = .error e after ∧
          e = .reported (.registerLimit site.toOrigin 3) := by
      apply Ends.fails
      decide +kernel
    exact ⟨after, fail _ after fails⟩

end SourceModule
end ContractLowering
