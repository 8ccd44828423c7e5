import ContractLowering.Proofs.ModuleSteps
import ContractLowering.Proofs.Routines

/-!
A limit on the registers is exact. A compilation under a limit and one without any go the same way
step by step, until a register is asked for when as many are live as the limit allows. There the one
stops, and the peak of the other rises above the limit and stays there. So the peak of a compilation
without a limit is the least limit that it can be given.
-/

namespace ContractLowering

variable {α β : Type}

/-- How a run under a limit ends, seen from the same run without a limit. The two end alike as long as
the peak is within the limit. Once it is not, the one under the limit was stopped. -/
inductive Confined {σ : Type} (peak : σ → Nat) (limited : σ → σ) (limit : Nat) :
    EStateM.Result Failure σ α → EStateM.Result Failure σ α → Prop
  | done (a : α) (s : σ) (within : peak s ≤ limit) : Confined peak limited limit
      (.ok a s) (.ok a (limited s))
  | failed (e : Failure) (s : σ) (within : peak s ≤ limit) : Confined peak limited limit
      (.error e s) (.error e (limited s))
  | stopped (r : EStateM.Result Failure σ α) (origin : Origin) (s : σ)
      (exceeded : limit < peak (stateAfter r)) : Confined peak limited limit
      r (.error (.reported (.registerLimit origin limit)) s)

/-- What comes behind an excess cannot undo it, as the peak never falls. -/
theorem Confined.bind {σ : Type} {peak : σ → Nat} {limited : σ → σ} {limit : Nat}
    {x y : EStateM Failure σ α} {f g : α → EStateM Failure σ β} {s t : σ}
    (h : Confined peak limited limit (x s) (y t))
    (k : ∀ a s', x s = .ok a s' → peak s' ≤ limit →
      Confined peak limited limit (f a s') (g a (limited s')))
    (rises : ∀ a s', peak s' ≤ peak (stateAfter (f a s'))) :
    Confined peak limited limit ((x >>= f) s) ((y >>= g) t) := by
  cases hx : x s with
  | ok a s' =>
      rw [bind_of_ok hx]
      rw [hx] at h
      cases hy : y t with
      | ok b t' =>
          rw [bind_of_ok hy]
          rw [hy] at h
          cases h with
          | done _ _ within => exact k a s' hx within
      | error e t' =>
          rw [bind_of_error hy]
          rw [hy] at h
          cases h with
          | stopped _ origin _ exceeded =>
              exact .stopped _ origin _ (Nat.lt_of_lt_of_le exceeded (rises a s'))
  | error e s' =>
      rw [bind_of_error hx]
      rw [hx] at h
      cases hy : y t with
      | ok b t' =>
          rw [hy] at h
          cases h
      | error e' t' =>
          rw [bind_of_error hy]
          rw [hy] at h
          cases h with
          | failed _ _ within => exact .failed e s' within
          | stopped _ origin _ exceeded => exact .stopped _ origin _ exceeded

namespace Pool

def limitedTo (pool : Pool) (limit : Nat) : Pool := { pool with limit := some limit }

theorem reachedLimit?_of_unlimited {pool : Pool} (h : pool.limit = none) :
    pool.reachedLimit? = none := by
  rw [reachedLimit?, h, Option.filter_none]

theorem reachedLimit?_limitedTo (pool : Pool) (limit : Nat) :
    (pool.limitedTo limit).reachedLimit? =
      if limit ≤ pool.liveCount then some limit else none := by
  have count : (pool.limitedTo limit).liveCount = pool.liveCount := rfl
  rw [reachedLimit?, count]
  by_cases full : limit ≤ pool.liveCount <;> simp [limitedTo, Option.filter_some, full]

end Pool

namespace Generator

def limitedTo (gen : Generator) (limit : Nat) : Generator :=
  { gen with pool := gen.pool.limitedTo limit }

theorem peak_stable (low : Nat) : Stable fun gen => low ≤ gen.pool.peak := by
  refine ⟨fun _ _ h => h, ?_, fun _ _ _ h => h⟩
  intro gen tenant _ h
  rw [take_pool, Pool.house_peak]
  omega

theorem allocTagged_confined (origin : Origin) (name : Option String) {limit : Nat}
    {gen : Generator} (unlimited : gen.pool.limit = none) (within : gen.pool.peak ≤ limit) :
    Confined (fun gen => gen.pool.peak) (fun gen => gen.limitedTo limit) limit
      (allocTagged origin name gen) (allocTagged origin name (gen.limitedTo limit)) := by
  rw [allocTagged_of_room (Pool.reachedLimit?_of_unlimited unlimited)]
  have reached := gen.pool.reachedLimit?_limitedTo limit
  by_cases full : limit ≤ gen.pool.liveCount
  · rw [if_pos full] at reached
    rw [allocTagged_of_limit reached]
    refine .stopped _ origin _ ?_
    rw [stateAfter, take_pool, Pool.house_peak]
    omega
  · rw [if_neg full] at reached
    rw [allocTagged_of_room reached]
    refine .done _ (gen.take ⟨name, origin⟩) ?_
    rw [take_pool, Pool.house_peak]
    omega

theorem Routine.confined {x : GenM α} (hx : Routine x) {limit : Nat} {gen : Generator}
    (unlimited : gen.pool.limit = none) (within : gen.pool.peak ≤ limit) :
    Confined (fun gen => gen.pool.peak) (fun gen => gen.limitedTo limit) limit
      (x gen) (x (gen.limitedTo limit)) := by
  induction hx generalizing gen with
  | pure a => exact .done a gen within
  | throw e => exact .failed e gen within
  | bind hx hf ihx ihf =>
      refine (ihx unlimited within).bind ?_ ?_
      · intro a gen' hrun within'
        exact ihf a ((hx.keeps (limit_stable none) unlimited).of_ok hrun) within'
      · intro a gen'
        exact ((hf a).keeps (peak_stable gen'.pool.peak) (Nat.le_refl _)).stateAfter
  | look _ ih => exact ih gen.pool.isLive unlimited within
  | emitAll origin code => exact .done () (gen.extend (instrs origin code)) within
  | allocTagged origin name => exact allocTagged_confined origin name unlimited within
  | alloc origin name => exact allocTagged_confined origin _ unlimited within
  | release reg =>
      cases live : gen.pool.isLive reg with
      | true =>
          have live' : (gen.limitedTo limit).pool.isLive reg = true := live
          rw [release_of_live live, release_of_live live']
          exact .done () (gen.drop reg) within
      | false =>
          have dead : (gen.limitedTo limit).pool.isLive reg = false := live
          rw [release_of_dead live, release_of_dead dead]
          exact .failed _ gen within

end Generator

namespace Compilation

def limitedTo (c : Compilation) (limit : Nat) : Compilation :=
  { c with gen := c.gen.limitedTo limit }

theorem generate_confined {step : Declarations → GenM α} {c : Compilation} {limit : Nat}
    (h : Confined (fun gen => gen.pool.peak) (fun gen => gen.limitedTo limit) limit
      (step c.decls c.gen) (step c.decls (c.gen.limitedTo limit))) :
    Confined (fun c => c.gen.pool.peak) (fun c => c.limitedTo limit) limit
      (generate step c) (generate step (c.limitedTo limit)) := by
  simp only [generate, limitedTo]
  generalize step c.decls c.gen = r at h
  generalize step c.decls (c.gen.limitedTo limit) = r' at h
  cases h with
  | done a gen within =>
      refine .done a { c with gen } ?_
      exact within
  | failed e gen within =>
      refine .failed e { c with gen } ?_
      exact within
  | stopped _ origin gen exceeded =>
      refine .stopped _ origin _ ?_
      cases r <;> exact exceeded

theorem Routine.confined {x : CompileM α} (hx : Routine x) {limit : Nat} {c : Compilation}
    (unlimited : c.gen.pool.limit = none) (within : c.gen.pool.peak ≤ limit) :
    Confined (fun c => c.gen.pool.peak) (fun c => c.limitedTo limit) limit
      (x c) (x (c.limitedTo limit)) := by
  induction hx generalizing c with
  | pure a => exact .done a c within
  | throw e => exact .failed e c within
  | bind hx hf ihx ihf =>
      refine (ihx unlimited within).bind ?_ ?_
      · intro a c' hrun within'
        exact ihf a ((hx.keeps (Generator.limit_stable none) unlimited).of_ok hrun) within'
      · intro a c'
        have rises := (hf a).keeps (Generator.peak_stable c'.gen.pool.peak) (Nat.le_refl _)
        exact rises.stateAfter
  | generate hstep => exact generate_confined ((hstep c.decls).confined unlimited within)
  | look _ ih => exact ih c.gen.pool.liveRegisters c.gen.position unlimited within
  | consult _ ih => exact ih c.decls unlimited within
  | amend f =>
      refine .done () { c with decls := f c.decls } ?_
      exact within

end Compilation

namespace SourceModule

/-- Under the limit, a module compiles to the same as without it, or it is stopped. It is stopped
only if its peak is above the limit. -/
theorem compile_confined (source : SourceModule) (options : Options) (decls : Declarations)
    (limit : Nat) :
    Ends
      (fun compiled after =>
        (compiled.peak ≤ limit ∧
          source.compile { options with maxRegisters := some limit } decls =
            .ok compiled after) ∨
        (limit < compiled.peak ∧ ∃ origin after',
          source.compile { options with maxRegisters := some limit } decls =
            .error (.reported (.registerLimit origin limit)) after'))
      (fun e _ => ∃ e' after',
        source.compile { options with maxRegisters := some limit } decls = .error e' after' ∧
          (e' = e ∨ ∃ origin, e' = .reported (.registerLimit origin limit)))
      (source.compile { options with maxRegisters := none } decls) := by
  cases hexpand : (source.expand decls).failure with
  | some e =>
      rw [compile_of_expand_error hexpand, compile_of_expand_error hexpand]
      exact ⟨e, decls, rfl, Or.inl rfl⟩
  | none =>
      rw [expand_failure, List.findSome?_eq_none_iff] at hexpand
      have run := (lowerMethods_routine (source.expanded decls).methods).confined
        (c := ⟨decls, Options.generator { options with maxRegisters := none }⟩) rfl
        (Nat.zero_le limit)
      have start : Compilation.limitedTo
          ⟨decls, Options.generator { options with maxRegisters := none }⟩ limit =
            ⟨decls, Options.generator { options with maxRegisters := some limit }⟩ := rfl
      rw [start] at run
      generalize hfree : lowerMethods _ ⟨decls, Options.generator
        { options with maxRegisters := none }⟩ = free at run
      generalize hlimited : lowerMethods _ ⟨decls, Options.generator
        { options with maxRegisters := some limit }⟩ = limited at run
      cases run with
      | done described c within =>
          cases hstandard : source.standard? options c.decls with
          | error e =>
              rw [compile_of_standard_error hexpand hfree hstandard,
                compile_of_standard_error hexpand hlimited hstandard]
              exact ⟨e, c.decls, rfl, Or.inl rfl⟩
          | ok standard =>
              rw [compile_of_standard_ok hexpand hfree hstandard,
                compile_of_standard_ok hexpand hlimited hstandard]
              exact Or.inl ⟨within, rfl⟩
      | failed e c within =>
          rw [compile_of_lower_error hexpand hfree, compile_of_lower_error hexpand hlimited]
          exact ⟨e, c.decls, rfl, Or.inl rfl⟩
      | stopped _ origin c exceeded =>
          rw [compile_of_lower_error hexpand hlimited]
          cases free with
          | error e c' =>
              rw [compile_of_lower_error hexpand hfree]
              exact ⟨_, c.decls, rfl, Or.inr ⟨origin, rfl⟩⟩
          | ok described c' =>
              cases hstandard : source.standard? options c'.decls with
              | error e =>
                  rw [compile_of_standard_error hexpand hfree hstandard]
                  exact ⟨_, c.decls, rfl, Or.inr ⟨origin, rfl⟩⟩
              | ok standard =>
                  rw [compile_of_standard_ok hexpand hfree hstandard]
                  exact Or.inr ⟨exceeded, origin, c.decls, rfl⟩

/-- A module that compiles without a limit compiles under one if and only if its peak is within it,
and then to the same; otherwise it is stopped with that limit. A module that fails without a limit
fails under any with the same error, or because it is stopped. -/
theorem compile_limit_exact (source : SourceModule) (options : Options) (decls : Declarations)
    (limit : Nat) :
    Ends
      (fun compiled after =>
        ((∃ compiled' after', source.compile { options with maxRegisters := some limit } decls =
            .ok compiled' after') ↔ compiled.peak ≤ limit) ∧
        (compiled.peak ≤ limit →
          source.compile { options with maxRegisters := some limit } decls = .ok compiled after) ∧
        (limit < compiled.peak → ∃ origin after',
          source.compile { options with maxRegisters := some limit } decls =
            .error (.reported (.registerLimit origin limit)) after'))
      (fun e _ => ∃ e' after',
        source.compile { options with maxRegisters := some limit } decls = .error e' after' ∧
          (e' = e ∨ ∃ origin, e' = .reported (.registerLimit origin limit)))
      (source.compile { options with maxRegisters := none } decls) := by
  refine (source.compile_confined options decls limit).mono ?_ (fun _ _ h => h)
  intro compiled after h
  rcases h with ⟨within, same⟩ | ⟨exceeded, stopped⟩
  · refine ⟨⟨fun _ => within, fun _ => ⟨compiled, after, same⟩⟩, fun _ => same, ?_⟩
    intro exceeded
    omega
  · refine ⟨⟨?_, ?_⟩, ?_, fun _ => stopped⟩
    · intro succeeds
      obtain ⟨compiled', after', succeeds⟩ := succeeds
      obtain ⟨origin, after'', fails⟩ := stopped
      rw [succeeds] at fails
      cases fails
    · intro within
      omega
    · intro within
      omega

namespace Invoice

def site (node : UInt32) : Site := ⟨⟨⟨node⟩, 1⟩, .root⟩

def table : Declarations := { vars := [⟨"fee", .number, none⟩, ⟨"price", .number, none⟩] }

/-- The product is computed while both parameters and a copy of the fee are held. -/
def total : Method where
  origin := (site 1).toOrigin
  name := "total"
  scope := .root
  params := [⟨0⟩, ⟨1⟩]
  returns := .number
  body := [.ret (site 2).toOrigin (some (.binary (site 3) .add (.var (site 4) ⟨0⟩)
    (.binary (site 5) .mul (.var (site 6) ⟨1⟩) (.lit (site 7) "2" .number))))]
  exported := true

def source : SourceModule := ⟨.root, [total], []⟩

end Invoice

open Invoice in
/-- Six registers are live at once. A limit of six changes nothing, and with five the module is
stopped. -/
theorem compile_limit_exact_invoice :
    ∃ compiled after, source.compile { maxRegisters := none } table = .ok compiled after ∧
      compiled.peak = 6 ∧
      source.compile { maxRegisters := some 6 } table = .ok compiled after ∧
      (¬∃ compiled' after', source.compile { maxRegisters := some 5 } table =
        .ok compiled' after') ∧
      ∃ origin after', source.compile { maxRegisters := some 5 } table =
        .error (.reported (.registerLimit origin 5)) after' := by
  obtain ⟨compiled, after, compiles, hpeak⟩ : ∃ compiled after,
      source.compile { maxRegisters := none } table = .ok compiled after ∧ compiled.peak = 6 := by
    apply Ends.succeeds
    decide +kernel
  refine ⟨compiled, after, compiles, hpeak, ?_⟩
  -- nothing else depends on what the module is, and with a name for it nothing is evaluated
  generalize source = invoice at compiles ⊢
  obtain ⟨-, same, -⟩ := (compile_limit_exact invoice {} table 6).of_ok compiles
  obtain ⟨succeeds, -, stopped⟩ := (compile_limit_exact invoice {} table 5).of_ok compiles
  refine ⟨same (by omega), ?_, stopped (by omega)⟩
  rw [succeeds]
  omega

end SourceModule
end ContractLowering
