import ContractLowering.Proofs.Journal
import ContractLowering.Proofs.Operations

/-!
Emitted code mentions live registers only. The journal says which registers are live where an
instruction stands, and it does so for every generator that operations made from a fresh one. What
expressions, statements and methods append is therefore sound wherever the bound variables have live
registers. A module starts from an empty journal, so that no register in its code lies at or above
the peak.
-/

namespace ContractLowering

open Generator Compilation

namespace SourceModule

variable {source : SourceModule} {options : Options} {decls : Declarations} {compiled : Compiled}
  {c : Compilation}

theorem lower_mentions_live (unbound : decls.Unbound)
    (h : source.lower options ⟨decls, options.generator⟩ = .ok compiled c) :
    c.gen.MentionsLive 0 := by
  obtain ⟨described, hmethods, -, -⟩ := lower_ok h
  have live : BoundLive ⟨decls, options.generator⟩ := .of_unbound unbound
  have steps := (lowerMethods_steps live (Steps.refl _) source.methods).of_ok hmethods
  exact (steps.appendsLive (recorded_fresh options)).mentions

/-- The generator of a module keeps what its steps preserve. -/
theorem lower_keeps {inv : Generator → Prop} (stable : Stable inv) (fresh : inv options.generator)
    (h : source.lower options ⟨decls, options.generator⟩ = .ok compiled c) : inv c.gen := by
  obtain ⟨described, hmethods, -, -⟩ := lower_ok h
  have start : inv (Compilation.mk decls options.generator).gen := fresh
  exact ((lowerMethods_routine source.methods).keeps stable start).of_ok hmethods

end SourceModule

/-- In the code of a module every register is live where it is mentioned, below the peak, and within
the limit. What is appended for an expression, a statement or a method mentions live registers only,
also if it fails on the way, from any generator that operations have made. -/
theorem code_mentions_live :
    (∀ (source : SourceModule) (options : Options) (decls decls' : Declarations)
        (compiled : Compiled),
      decls.Unbound → source.compile options decls = .ok compiled decls' →
      ∃ expanded c, (source.expand decls).result = .ok expanded ∧
        expanded.lower options ⟨decls, options.generator⟩ = .ok compiled c ∧
        c.gen.code = compiled.code ∧ c.gen.MentionsLive 0 ∧
        (∀ instr ∈ compiled.code, ∀ reg ∈ instr.registers, reg.index < compiled.peak) ∧
        ∀ limit, options.maxRegisters = some limit → compiled.peak ≤ limit) ∧
    ∀ (gen : Generator) (decls : Declarations), gen.Built → BoundLive ⟨decls, gen⟩ →
      (∀ e : Expr, (stateAfter (e.lower decls gen)).AppendsLive gen.code) ∧
      (∀ s : Stmt, (stateAfter (s.lower ⟨decls, gen⟩)).gen.AppendsLive gen.code) ∧
      ∀ method : Method, (stateAfter (method.lower ⟨decls, gen⟩)).gen.AppendsLive gen.code := by
  refine ⟨?_, ?_⟩
  · intro source options decls decls' compiled unbound h
    obtain ⟨expanded, c, hexpand, hlower, -⟩ := SourceModule.compile_runs h
    have mentions := SourceModule.lower_mentions_live unbound hlower
    have within := SourceModule.lower_keeps withinPeak_stable (withinPeak_fresh options) hlower
    have hlimit := SourceModule.lower_keeps (limit_stable options.maxRegisters) rfl hlower
    obtain ⟨-, -, hcode, hpeak⟩ := SourceModule.lower_ok hlower
    refine ⟨expanded, c, hexpand, hlower, hcode.symm, mentions, ?_, ?_⟩
    · intro instr member reg hreg
      rw [hpeak]
      exact within.mentioned mentions (hcode ▸ member) hreg
    · intro limit hoption
      rw [hpeak]
      exact within.limit limit (hlimit.trans hoption)
  · intro gen decls built live
    have recorded : gen.Recorded := built.invariant recorded_stable recorded_fresh
    have begun := Steps.refl ⟨decls, gen⟩
    refine ⟨?_, ?_, ?_⟩
    · intro e
      have steps := (e.lower_steps live begun).stateAfter
      exact steps.appendsLive recorded
    · intro s
      have steps := (s.lower_steps live begun).stateAfter
      exact steps.appendsLive recorded
    · intro method
      have steps := (method.lower_steps live begun).stateAfter
      exact steps.appendsLive recorded

namespace Successor

def site : Site := ⟨⟨⟨3⟩, 1⟩, .root⟩

def table : Declarations := { vars := [⟨"x", .number, none⟩, ⟨"y", .number, none⟩] }

/-- Puts its argument and one into a local variable. -/
def next : Method where
  origin := site.toOrigin
  name := "next"
  scope := .root
  params := [⟨0⟩]
  returns := .number
  body := [.assign site.toOrigin ⟨1⟩ (.binary site .add (.var site ⟨0⟩) (.lit site "1" .number)),
    .ret site.toOrigin (some (.var site ⟨1⟩))]
  exported := true

def source : SourceModule := ⟨.root, [next], []⟩

/-- Made from a fresh generator by taking a register. -/
def holding : Generator :=
  ((Operation.alloc site.toOrigin (some "x")).after ⟨table, Options.generator {}⟩).gen

/-- The register that was taken is that of the first variable. -/
def bound : Declarations := { vars := [⟨"x", .number, some ⟨0⟩⟩, ⟨"y", .number, none⟩] }

/-- Fails at the right operand, when the code for the left one is there. -/
def unset : Stmt :=
  .assign site.toOrigin ⟨1⟩ (.binary site .add (.var site ⟨0⟩) (.var site ⟨1⟩))

end Successor

open Successor in
/-- A module that needs all of the four registers it may use, and a statement that fails on the way. -/
theorem code_mentions_live_sum :
    table.Unbound ∧
    (∃ compiled after, source.compile { maxRegisters := some 4 } table = .ok compiled after ∧
      compiled.code.length = 8 ∧ compiled.peak = 4 ∧
      ∀ instr ∈ compiled.code, ∀ reg ∈ instr.registers, reg.index < 4) ∧
    holding.Built ∧ BoundLive ⟨bound, holding⟩ ∧
    failure? (unset.lower ⟨bound, holding⟩) =
      some (.reported (.uninitializedVariable site.toOrigin "y")) ∧
    (stateAfter (unset.lower ⟨bound, holding⟩)).gen.code.length = 1 ∧
    (stateAfter (unset.lower ⟨bound, holding⟩)).gen.AppendsLive [] := by
  have unbound : table.Unbound := by decide
  have built : holding.Built := .step (.fresh {}) table _
  have live : BoundLive ⟨bound, holding⟩ := by decide +kernel
  obtain ⟨modules, parts⟩ := code_mentions_live
  obtain ⟨-, statements, -⟩ := parts holding bound built live
  obtain ⟨compiled, after, compiles, hlength, hpeak⟩ : ∃ compiled after,
      source.compile { maxRegisters := some 4 } table = .ok compiled after ∧
        compiled.code.length = 8 ∧ compiled.peak = 4 := by
    apply Ends.succeeds
    decide +kernel
  obtain ⟨-, -, -, -, -, -, below, -⟩ := modules source _ table after compiled unbound compiles
  refine ⟨unbound, ⟨compiled, after, compiles, hlength, hpeak, hpeak ▸ below⟩, built, live,
    ?_, ?_, statements unset⟩
  · decide +kernel
  · decide +kernel

end ContractLowering
