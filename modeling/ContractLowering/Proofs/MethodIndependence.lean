import ContractLowering.Proofs.AlikeRuns
import ContractLowering.Proofs.ModuleSteps
import ContractLowering.Proofs.ScopeParents
import ContractLowering.Proofs.StatementDiscipline
import Mathlib.Data.List.Forall2

/-!
Methods compile independently. A method gives back all that it took, so the next one finds the
compilation as a method that stands alone would, but for the code that is there already and for how
full the pool has been. What a module compiles to is therefore put together from what its methods
compile to one by one.
-/

namespace ContractLowering

namespace Compilation

/-- Nothing is bound or generated yet, and no register was ever taken. -/
structure Fresh (c : Compilation) : Prop where
  unbound : c.decls.Unbound
  code : c.gen.code = []
  peak : c.gen.pool.peak = 0

/-- A compilation that only its code and the peak of its pool tell from a fresh one. -/
def Ready (start c : Compilation) : Prop :=
  Alike start.gen.pool.limit c.gen.code c.gen.pool.peak c start

theorem Fresh.ready {start : Compilation} (fresh : Fresh start) : Ready start start :=
  ⟨rfl, fun _ => rfl, rfl, rfl, by rw [fresh.code, List.append_nil], by rw [Nat.max_self]⟩

end Compilation

open Compilation

/-- What lowering a method adds to a compilation that is ready is what lowering it alone gives, and
the compilation is ready again. -/
theorem Method.lower_ready {start c : Compilation} (fresh : Fresh start) (ready : Ready start c)
    (method : Method) :
    Ends
      (fun _ c' => ∃ described part, method.lower start = .ok described ⟨start.decls, part⟩ ∧
        c'.gen.code = c.gen.code ++ part.code ∧
        c'.gen.pool.peak = max c.gen.pool.peak part.pool.peak ∧ Ready start c')
      (fun e _ => failure? (method.lower start) = some e) (method.lower c) := by
  have agree := method.lower_agrees ready
  cases hc : method.lower c with
  | error e c' =>
      cases hstart : method.lower start with
      | ok described part =>
          rw [hc, hstart] at agree
          exact agree.elim
      | error e' part =>
          rw [hc, hstart] at agree
          exact congrArg some agree.1.symm
  | ok described c' =>
      cases hstart : method.lower start with
      | error e' part =>
          rw [hc, hstart] at agree
          exact agree.elim
      | ok described' part =>
          rw [hc, hstart] at agree
          obtain ⟨-, alike⟩ := agree
          obtain ⟨hdecls, htenants⟩ :=
            lower_restores hstart (Coupled.of_unbound fresh.unbound).live
          refine ⟨described', part.gen, by rw [← hdecls], alike.gen.code, alike.gen.peak,
            alike.decls.trans hdecls, ?_, alike.gen.limit_left, rfl, ?_, ?_⟩
          · intro reg
            rw [alike.gen.live, Pool.isLive, Pool.isLive, htenants]
          · rw [fresh.code, List.append_nil]
          · rw [fresh.peak, Nat.max_zero]

theorem Expr.allWarnings_append (es fs : List Expr) :
    allWarnings (es ++ fs) = allWarnings es ++ allWarnings fs := by
  induction es with
  | nil => simp [allWarnings]
  | cons e es ih => simp [allWarnings, ih]

namespace SourceModule

theorem lowerMethods_ready {start c : Compilation} (fresh : Fresh start) (ready : Ready start c)
    (methods : List Method) :
    Ends
      (fun _ c' => ∃ parts : List Generator,
        List.Forall₂ (fun method part => ∃ described,
          method.lower start = .ok described ⟨start.decls, part⟩) methods parts ∧
        c'.decls = start.decls ∧
        c'.gen.code = c.gen.code ++ parts.flatMap Generator.code ∧
        c'.gen.pool.peak = max c.gen.pool.peak ((parts.map fun part => part.pool.peak).foldr max 0))
      (fun e _ => methods.findSome? (fun method => failure? (method.lower start)) = some e)
      (lowerMethods methods c) := by
  induction methods generalizing c with
  | nil => exact ⟨[], .nil, ready.decls, by simp, by simp⟩
  | cons method methods ih =>
      simp only [lowerMethods]
      refine Ends.bind ((method.lower_ready fresh ready).mono (fun _ _ h => h) ?_) ?_
      · intro e _ hfails
        rw [List.findSome?_cons, hfails]
      · intro _ c₁ h
        obtain ⟨described, part, hpart, hcode, hpeak, ready₁⟩ := h
        refine Ends.bind ((ih ready₁).mono (fun _ _ h => h) ?_) ?_
        · intro e _ hfails
          rw [List.findSome?_cons, hpart, hfails]
          rfl
        · intro _ c₂ h
          obtain ⟨parts, hparts, hdecls, hcode', hpeak'⟩ := h
          refine ⟨part :: parts, .cons ⟨described, hpart⟩ hparts, hdecls, ?_, ?_⟩
          · rw [hcode', hcode, List.flatMap_cons, List.append_assoc]
          · rw [hpeak', hpeak, List.map_cons, List.foldr_cons, Nat.max_assoc]

/-- What all methods add is what each of them adds on its own, and the first one that cannot be
lowered on its own is the one that fails. -/
theorem lowerMethods_parts {decls : Declarations} (unbound : decls.Unbound) (options : Options)
    (methods : List Method) :
    Ends
      (fun _ c => c.decls = decls ∧ ∃ parts : List Generator,
        List.Forall₂ (fun method part => ∃ described,
          method.lower ⟨decls, options.generator⟩ = .ok described ⟨decls, part⟩) methods parts ∧
        c.gen.code = parts.flatMap Generator.code ∧
        c.gen.pool.peak = (parts.map fun part => part.pool.peak).foldr max 0)
      (fun e _ => methods.findSome? (fun method =>
        failure? (method.lower ⟨decls, options.generator⟩)) = some e)
      (lowerMethods methods ⟨decls, options.generator⟩) := by
  have fresh : Fresh ⟨decls, options.generator⟩ := ⟨unbound, rfl, rfl⟩
  refine (lowerMethods_ready fresh fresh.ready methods).mono ?_ (fun _ _ h => h)
  intro _ c h
  obtain ⟨parts, hparts, hdecls, hcode, hpeak⟩ := h
  exact ⟨hdecls, parts, hparts, hcode, hpeak.trans (Nat.zero_max _)⟩

/-- The module with one method only. -/
def only (source : SourceModule) (method : Method) : SourceModule :=
  { source with methods := [method] }

variable {source : SourceModule} {options : Options} {decls : Declarations} {method : Method}
  {standard : Option Standard}

theorem lowerMethods_singleton (method : Method) :
    lowerMethods [method] = do
      let described ← method.lower
      return if method.exported then [described] else [] := by
  simp only [lowerMethods, pure_bind]

theorem expands_only (h : (method.expand decls).failure = none) :
    ∀ m ∈ (source.only method).methods, (m.expand decls).failure = none := by
  intro m hm
  rw [List.mem_singleton.mp hm]
  exact h

theorem compile_only_of_ok {described : ExportedMethod} {part : Generator}
    (expands : (method.expand decls).failure = none)
    (lowers : (method.expanded decls).lower ⟨decls, options.generator⟩ =
      .ok described ⟨decls, part⟩)
    (hstandard : source.standard? options decls = .ok standard) :
    ∃ compiled, (source.only method).compile options decls = .ok compiled decls ∧
      compiled.code = part.code ∧ compiled.peak = part.pool.peak ∧
      compiled.warnings = Expr.allWarnings (method.expanded decls).expressions := by
  have alone : lowerMethods ((source.only method).expanded decls).methods
      ⟨decls, options.generator⟩ =
        .ok (if (method.expanded decls).exported then [described] else []) ⟨decls, part⟩ := by
    refine (congrFun (lowerMethods_singleton _) _).trans ?_
    rw [bind_of_ok lowers]
    rfl
  have compiles := compile_of_standard_ok (expands_only expands) alone hstandard
  refine ⟨_, compiles, rfl, rfl, ?_⟩
  exact congrArg Expr.allWarnings (List.append_nil _)

/-- A method that stands alone fails to compile if it cannot be expanded, and otherwise if it cannot
be lowered. -/
theorem compile_only_failure? (unbound : decls.Unbound)
    (hstandard : source.standard? options decls = .ok standard) (method : Method) :
    failure? ((source.only method).compile options decls) =
      (method.expand decls).failure.or
        (failure? ((method.expanded decls).lower ⟨decls, options.generator⟩)) := by
  cases hexpand : (method.expand decls).failure with
  | some e =>
      have fails : ((source.only method).expand decls).failure = some e := by
        rw [expand_failure]
        simp [only, hexpand]
      rw [compile_of_expand_error fails]
      rfl
  | none =>
      cases hlower : (method.expanded decls).lower ⟨decls, options.generator⟩ with
      | error e c =>
          have alone : lowerMethods ((source.only method).expanded decls).methods
              ⟨decls, options.generator⟩ = .error e c := by
            refine (congrFun (lowerMethods_singleton _) _).trans ?_
            rw [bind_of_error hlower]
          rw [compile_of_lower_error (expands_only hexpand) alone]
          rfl
      | ok described c =>
          obtain ⟨after, part⟩ := c
          have restored : after = decls :=
            (Method.lower_restores hlower (Coupled.of_unbound unbound).live).1
          rw [restored] at hlower
          obtain ⟨compiled, compiles, -⟩ := compile_only_of_ok hexpand hlower hstandard
          rw [compiles]
          rfl

theorem warnings_eq_flatMap (source : SourceModule) :
    source.warnings = source.methods.flatMap fun method =>
      Expr.allWarnings method.expressions := by
  rw [warnings, expressions]
  induction source.methods with
  | nil => rfl
  | cons method methods ih =>
      rw [List.flatMap_cons, List.flatMap_cons, Expr.allWarnings_append, ih]

theorem findSome?_failure?_eq_none {start : Compilation} {methods : List Method}
    {parts : List Generator}
    (h : List.Forall₂ (fun method part => ∃ described,
      method.lower start = .ok described ⟨decls, part⟩) methods parts) :
    methods.findSome? (fun method => failure? (method.lower start)) = none := by
  induction h with
  | nil => rfl
  | cons hpart _ ih =>
      obtain ⟨described, hpart⟩ := hpart
      rw [List.findSome?_cons, hpart]
      exact ih

/-- A module fails to compile with the first error of its methods: the first one of their expansion,
or else the first one of a method that stands alone. -/
theorem compile_failure? (unbound : decls.Unbound)
    (hstandard : source.standard? options decls = .ok standard) :
    failure? (source.compile options decls) =
      (source.methods.findSome? fun method => (method.expand decls).failure).or
        (source.methods.findSome? fun method =>
          failure? ((source.only method).compile options decls)) := by
  rw [← expand_failure]
  cases hexpand : (source.expand decls).failure with
  | some e =>
      rw [compile_of_expand_error hexpand]
      rfl
  | none =>
      rw [expand_failure, List.findSome?_eq_none_iff] at hexpand
      have alone : ∀ method ∈ source.methods,
          failure? ((source.only method).compile options decls) =
            failure? ((method.expanded decls).lower ⟨decls, options.generator⟩) := by
        intro method hmethod
        rw [compile_only_failure? unbound hstandard, hexpand method hmethod, Option.none_or]
      have first : (source.methods.findSome? fun method =>
          failure? ((source.only method).compile options decls)) =
            (source.expanded decls).methods.findSome? fun method =>
              failure? (method.lower ⟨decls, options.generator⟩) := by
        calc source.methods.findSome? _
            = (source.methods.map fun method =>
                failure? ((source.only method).compile options decls)).findSome? id :=
              List.findSome?_map.symm
          _ = (source.methods.map fun method =>
                failure? ((method.expanded decls).lower ⟨decls, options.generator⟩)).findSome?
                  id := by rw [List.map_congr_left alone]
          _ = _ := by
              rw [expanded, List.findSome?_map, List.findSome?_map]
              rfl
      rw [Option.none_or, first]
      have run := lowerMethods_parts unbound options (source.expanded decls).methods
      cases hlower : lowerMethods (source.expanded decls).methods ⟨decls, options.generator⟩ with
      | error e c =>
          rw [compile_of_lower_error hexpand hlower, run.of_error hlower]
          rfl
      | ok described c =>
          obtain ⟨hdecls, parts, hparts, -⟩ := run.of_ok hlower
          rw [← hdecls] at hstandard
          rw [compile_of_standard_ok hexpand hlower hstandard, findSome?_failure?_eq_none hparts]
          rfl

theorem compile_each (hstandard : source.standard? options decls = .ok standard)
    {methods : List Method} {gens : List Generator}
    (expands : ∀ method ∈ methods, (method.expand decls).failure = none)
    (h : List.Forall₂ (fun method part => ∃ described,
      (method.expanded decls).lower ⟨decls, options.generator⟩ = .ok described ⟨decls, part⟩)
      methods gens) :
    ∃ parts, List.Forall₂ (fun method part =>
        (source.only method).compile options decls = .ok part decls) methods parts ∧
      parts.flatMap Compiled.code = gens.flatMap Generator.code ∧
      parts.flatMap Compiled.warnings =
        methods.flatMap (fun method => Expr.allWarnings (method.expanded decls).expressions) ∧
      parts.map Compiled.peak = gens.map fun gen => gen.pool.peak := by
  induction h with
  | nil => exact ⟨[], .nil, rfl, rfl, rfl⟩
  | cons hlowers _ ih =>
      obtain ⟨described, lowers⟩ := hlowers
      obtain ⟨part, compiles, hcode, hpeak, hwarnings⟩ :=
        compile_only_of_ok (expands _ List.mem_cons_self) lowers hstandard
      obtain ⟨parts, hparts, hcodes, hwarned, hpeaks⟩ :=
        ih fun method hmethod => expands method (List.mem_cons_of_mem _ hmethod)
      refine ⟨part :: parts, .cons compiles hparts, ?_, ?_, ?_⟩
      · rw [List.flatMap_cons, List.flatMap_cons, hcode, hcodes]
      · rw [List.flatMap_cons, List.flatMap_cons, hwarnings, hwarned]
      · rw [List.map_cons, List.map_cons, hpeak, hpeaks]

theorem compile_parts {compiled : Compiled} {after : Declarations} (unbound : decls.Unbound)
    (hstandard : source.standard? options decls = .ok standard)
    (h : source.compile options decls = .ok compiled after) :
    after = decls ∧ ∃ parts, List.Forall₂ (fun method part =>
        (source.only method).compile options decls = .ok part decls) source.methods parts ∧
      compiled.code = parts.flatMap Compiled.code ∧
      compiled.warnings = parts.flatMap Compiled.warnings ∧
      compiled.peak = (parts.map Compiled.peak).foldr max 0 := by
  obtain ⟨expands, described, c, _, lowers, rfl, rfl⟩ := compile_ok h
  obtain ⟨hdecls, gens, hgens, hcode, hpeak⟩ :=
    (lowerMethods_parts unbound options (source.expanded decls).methods).of_ok lowers
  obtain ⟨parts, hparts, hcodes, hwarned, hpeaks⟩ :=
    compile_each hstandard expands (List.forall₂_map_left_iff.mp hgens)
  refine ⟨hdecls, parts, hparts, ?_, ?_, ?_⟩
  · rw [hcodes]
    exact hcode
  · rw [hwarned]
    exact (warnings_eq_flatMap _).trans (List.flatMap_map ..)
  · rw [hpeaks]
    exact hpeak

/-- A module compiles if and only if each of its methods compiles in a module of its own. Then its
code and its warnings are those of the methods one behind the other, the peak is the highest one,
and the declarations are as before. If the module fails, it does so with the error of the first
method that cannot be expanded or, if all can, of the first that fails in a module of its own. -/
theorem compile_independent (source : SourceModule) (options : Options) {decls : Declarations}
    (unbound : decls.Unbound) (parents : decls.ParentsFirst)
    (issued : source.scope.index < decls.scopes.length) :
    ((∃ compiled after, source.compile options decls = .ok compiled after) ↔
        ∀ method ∈ source.methods, ∃ compiled after,
          (source.only method).compile options decls = .ok compiled after) ∧
      (∀ compiled after, source.compile options decls = .ok compiled after →
        after = decls ∧ ∃ parts, List.Forall₂ (fun method part =>
            (source.only method).compile options decls = .ok part decls) source.methods parts ∧
          compiled.code = parts.flatMap Compiled.code ∧
          compiled.warnings = parts.flatMap Compiled.warnings ∧
          compiled.peak = (parts.map Compiled.peak).foldr max 0) ∧
      ∀ e after, source.compile options decls = .error e after →
        (source.methods.findSome? fun method => (method.expand decls).failure).or
          (source.methods.findSome? fun method =>
            failure? ((source.only method).compile options decls)) = some e := by
  obtain ⟨standard, hstandard⟩ := standard?_of_parentsFirst options parents issued
  have hfailure := compile_failure? unbound hstandard
  refine ⟨?_, fun compiled after => compile_parts unbound hstandard, ?_⟩
  · simp only [← failure?_eq_none, hfailure, Option.or_eq_none_iff, List.findSome?_eq_none_iff]
    constructor
    · intro h method hmethod
      exact h.2 method hmethod
    · intro h
      refine ⟨?_, h⟩
      intro method hmethod
      have alone := h method hmethod
      rw [compile_only_failure? unbound hstandard, Option.or_eq_none_iff] at alone
      exact alone.1
  · intro e after hfails
    rw [← hfailure, hfails]
    rfl

namespace Shared

def site : Site := ⟨⟨⟨7⟩, 1⟩, .root⟩

def table : Declarations := { vars := [⟨"x", .number, none⟩] }

/-- Returns its argument. -/
def identity : Method where
  origin := site.toOrigin
  name := "identity"
  scope := .root
  params := [⟨0⟩]
  returns := .number
  body := [.ret site.toOrigin (some (.var site ⟨0⟩))]
  exported := true

/-- Assigns to the variable that is the other method's parameter. -/
def reset : Method where
  origin := site.toOrigin
  name := "reset"
  scope := .root
  params := []
  returns := .void
  body := [.assign site.toOrigin ⟨0⟩ (.not site (.lit site "false" .bool))]
  exported := false

def both : SourceModule := ⟨.root, [identity, reset], []⟩

end Shared

open Shared in
/-- Two methods that use the same variable. -/
theorem compile_independent_shared :
    table.Unbound ∧ table.ParentsFirst ∧ both.scope.index < table.scopes.length ∧
      ∃ compiled first second, both.compile {} table = .ok compiled table ∧
        (both.only identity).compile {} table = .ok first table ∧
        (both.only reset).compile {} table = .ok second table ∧
        compiled.code = first.code ++ second.code ∧ compiled.code.length = 8 ∧
        compiled.peak = max first.peak second.peak := by
  have unbound : table.Unbound := by decide
  have parents : table.ParentsFirst := by decide
  have issued : both.scope.index < table.scopes.length := by decide
  obtain ⟨-, hparts, -⟩ := compile_independent both {} unbound parents issued
  obtain ⟨compiled, after, compiles, hlength⟩ : ∃ compiled after,
      both.compile {} table = .ok compiled after ∧ compiled.code.length = 8 := by
    apply Ends.succeeds
    decide +kernel
  obtain ⟨rfl, parts, hparts, hcode, -, hpeak⟩ := hparts compiled after compiles
  rw [both] at hparts
  obtain ⟨first, _, hfirst, hrest, rfl⟩ := List.forall₂_cons_left_iff.mp hparts
  obtain ⟨second, _, hsecond, hnil, rfl⟩ := List.forall₂_cons_left_iff.mp hrest
  rw [List.forall₂_nil_left_iff.mp hnil] at hcode hpeak
  refine ⟨unbound, parents, issued, compiled, first, second, compiles, hfirst, hsecond,
    ?_, hlength, hpeak.trans ?_⟩
  · simpa using hcode
  · simp

end SourceModule
end ContractLowering
