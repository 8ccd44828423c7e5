import ContractLowering.Proofs.AssembledCode
import ContractLowering.Proofs.Machine

/-!
Warnings and the code that gives up. A call of a method without an implementation compiles to an
instruction that throws, and is warned about. The warning about a call comes in front of those about
its arguments, which are taken from left to right. The code of a call stands behind that of its
arguments, which come last to first. The two lists are the same up to their order.
-/

namespace ContractLowering

namespace Instr

def isThrow (instr : Instr) : Bool := instr.opcode = .throw

/-- The instruction as a warning about it reads. Its operand has to be a message. -/
def abortText? (instr : Instr) : Option String :=
  match instr.operands with
  | [.str message] =>
    some ("line " ++ instr.origin.line.repr ++ ": " ++ message ++ " and will abort when called")
  | _ => none

end Instr

/-- The throwing instructions, each as a warning about it reads. -/
def abortTexts (code : List Instr) : List (Option String) :=
  (code.filter Instr.isThrow).map Instr.abortText?

@[simp]
theorem abortTexts_append (first second : List Instr) :
    abortTexts (first ++ second) = abortTexts first ++ abortTexts second := by
  simp [abortTexts]

namespace Expr

/-- The warning about the node itself. -/
def warning? : Expr → Option Warning
  | call s binding _ =>
    if binding.implementation = .missing then some ⟨s.line, binding⟩ else none
  | _ => none

theorem allWarnings_eq_filterMap_of {es : List Expr}
    (ih : ∀ e ∈ es, e.warnings = e.preorder.filterMap warning?) :
    allWarnings es = (es.flatMap preorder).filterMap warning? := by
  induction es with
  | nil => rfl
  | cons e es ihes =>
      rw [List.forall_mem_cons] at ih
      rw [allWarnings, ih.1, ihes ih.2, List.flatMap_cons, List.filterMap_append]

/-- Warnings are collected in the order of the nodes. -/
theorem warnings_eq_filterMap (e : Expr) : e.warnings = e.preorder.filterMap warning? := by
  induction e with
  | not s x ih => simp [warnings, preorder, List.filterMap_cons, warning?, ih]
  | binary s op left right ihl ihr =>
      simp [warnings, preorder, List.filterMap_cons, warning?, ihl, ihr]
  | call s binding args ih =>
      rw [warnings, preorder, allPreorder_eq_flatMap, List.filterMap_cons,
        allWarnings_eq_filterMap_of ih]
      by_cases missing : binding.implementation = .missing <;> simp [warning?, missing]
  | lit _ _ _ | placeholder _ _ | var _ _ | const _ _ => simp [warnings, preorder, warning?]

theorem allWarnings_eq_filterMap (es : List Expr) :
    allWarnings es = (es.flatMap preorder).filterMap warning? :=
  allWarnings_eq_filterMap_of fun e _ => e.warnings_eq_filterMap

theorem fillAll_warnings {literals : Site → String → String × Kind} {es : List Expr}
    (ih : ∀ e ∈ es, (e.fill literals).warnings = e.warnings) :
    allWarnings (fillAll literals es) = allWarnings es := by
  induction es with
  | nil => rfl
  | cons e es ihes =>
      rw [List.forall_mem_cons] at ih
      rw [fillAll, allWarnings, allWarnings, ih.1, ihes ih.2]

/-- Nothing is warned about for the sake of a placeholder. -/
theorem fill_warnings (literals : Site → String → String × Kind) (e : Expr) :
    (e.fill literals).warnings = e.warnings := by
  induction e with
  | not s x ih => rw [fill, warnings, warnings, ih]
  | binary s op left right ihl ihr => rw [fill, warnings, warnings, ihl, ihr]
  | call s binding args ih => rw [fill, warnings, warnings, fillAll_warnings ih]
  | lit _ _ _ | placeholder _ _ | var _ _ | const _ _ => rfl

end Expr

/-- The code throws once for each node that is warned about, and says what the warning says. -/
def Announced (code : List Instr) (nodes : List Expr) : Prop :=
  (abortTexts code).Perm ((nodes.filterMap Expr.warning?).map fun w => some w.text)

namespace Announced

variable {code code' : List Instr} {nodes nodes' : List Expr} {e : Expr}

theorem nil : Announced [] [] := List.Perm.nil

theorem append (h : Announced code nodes) (h' : Announced code' nodes') :
    Announced (code ++ code') (nodes ++ nodes') := by
  rw [Announced, abortTexts_append, List.filterMap_append, List.map_append]
  exact List.Perm.append h h'

theorem silent (h : Announced code nodes) (hcode : abortTexts code' = []) :
    Announced (code ++ code') nodes := by
  rwa [Announced, abortTexts_append, hcode, List.append_nil]

theorem perm (h : Announced code nodes) (same : nodes.Perm nodes') : Announced code nodes' :=
  h.trans ((same.filterMap _).map _)

theorem cons (h : Announced code nodes) (unwarned : e.warning? = none) :
    Announced code (e :: nodes) := by
  rwa [Announced, List.filterMap_cons_none unwarned]

end Announced

open Generator

theorem Kind.literalCode_silent (kind : Kind) (value : String) (reg : Register) (origin : Origin) :
    abortTexts (instrs origin (kind.literalCode value reg)) = [] := by
  by_cases address : kind = .address <;>
    simp [literalCode, address, instrs, abortTexts, Instr.isThrow]

theorem Binding.callCode_announced (binding : Binding) (reg : Register) (s : Site)
    (args : List Expr) :
    Announced (instrs s.toOrigin (binding.callCode reg)) [.call s binding args] := by
  cases himpl : binding.implementation <;>
    simp [Announced, callCode, himpl, instrs, abortTexts, Instr.isThrow, Expr.warning?,
      Instr.abortText?, Warning.text]

theorem Expr.Own.announced {consts : List Constant} {e : Expr} {code : List Instr}
    (h : e.Own consts code) : Announced code [e] := by
  cases h with
  | @binary s op opcode left right l r reg supported =>
      have silent : abortTexts (instrs s.toOrigin [(opcode, [.reg l, .reg r, .reg reg])]) = [] := by
        simp [abortTexts, instrs, Instr.isThrow, Operator.opcode?_ne supported .throw rfl]
      exact (Announced.nil.silent silent).cons rfl
  | @call s binding args reg => exact binding.callCode_announced reg s args
  | @lit s value kind reg => exact (Announced.nil.silent (kind.literalCode_silent ..)).cons rfl
  | not | var | const _ => exact (Announced.nil.silent rfl).cons rfl

theorem Instr.isMove_silent {instr : Instr} (h : instr.isMove = true) :
    abortTexts [instr] = [] := by
  have calm : instr.opcode ≠ .throw := by
    intro throws
    simp [isMove, throws] at h
  simp [abortTexts, isThrow, calm]

theorem Assembled.announced {consts : List Constant} {code : List Instr} {nodes : List Expr}
    (h : Assembled consts code nodes) : Announced code nodes := by
  induction h with
  | nil => exact .nil
  | own h => exact h.announced
  | move h => exact Announced.nil.silent (Instr.isMove_silent h)
  | append _ _ ih ih' => exact ih.append ih'
  | perm _ same ih => exact ih.perm same

namespace SourceModule

section Compile

variable {source : SourceModule} {options : Options} {decls decls' : Declarations}

theorem lowerMethods_announced {methods : List Method} {described : List ExportedMethod}
    {c c' : Compilation} {nodes : List Expr} (h : lowerMethods methods c = .ok described c')
    (before : Announced c.gen.code nodes) :
    Announced c'.gen.code (nodes ++ methods.flatMap Method.preorder) := by
  obtain ⟨code, hcode, assembled⟩ := lowerMethods_assembled h
  rw [hcode]
  exact before.append assembled.announced

theorem warnings_eq_filterMap (source : SourceModule) :
    source.warnings = source.preorder.filterMap Expr.warning? :=
  Expr.allWarnings_eq_filterMap source.expressions

theorem expanded_warnings (h : ∀ method ∈ source.methods, (method.expand decls).failure = none) :
    (source.expanded decls).warnings = source.warnings := by
  rw [warnings, expressions_expanded h, ← Expr.fillAll_eq_map,
    Expr.fillAll_warnings fun e _ => e.fill_warnings _]
  rfl

/-- The warnings about a module that compiles are the throwing instructions of its code in another
order. There is one for each call of a method without an implementation. -/
theorem compile_announces_aborts {compiled : Compiled}
    (h : source.compile options decls = .ok compiled decls') :
    ((compiled.code.filter Instr.isThrow).map Instr.abortText?).Perm
        (compiled.warnings.map fun w => some w.text) ∧
      compiled.warnings.length = compiled.code.countP Instr.isThrow ∧
      compiled.warnings = source.preorder.filterMap Expr.warning? := by
  obtain ⟨expands, described, c, standard, lowers, rfl, -⟩ := compile_ok h
  have announced := lowerMethods_announced lowers .nil
  rw [List.nil_append, ← preorder_eq_flatMap, Announced, ← warnings_eq_filterMap] at announced
  refine ⟨announced, ?_, ?_⟩
  · have length := announced.length_eq
    rw [List.length_map, abortTexts, List.length_map, ← List.countP_eq_length_filter] at length
    exact length.symm
  · rw [← warnings_eq_filterMap, ← expanded_warnings expands]
    rfl

end Compile

namespace Lottery

def site (node : UInt32) (line : Nat) : Site := ⟨⟨⟨node⟩, line⟩, .root⟩

/-- A call of a method that nothing implements. -/
def ask (node : UInt32) (line : Nat) (name : String) (args : List Expr) : Expr :=
  .call (site node line) (.unimplemented name .number) args

/-- An argument is a call that would abort first, and another one an argument of that. -/
def play : Method where
  origin := (site 1 1).toOrigin
  name := "play"
  scope := .root
  params := []
  returns := .number
  body := [.block (site 2 2).toOrigin [.ret (site 3 2).toOrigin (some (ask 4 2 "draw"
    [ask 5 3 "shuffle" [ask 6 4 "seed" []],
      .binary (site 7 5) .add (ask 8 5 "stake" []) (.lit (site 9 5) "1" .number)]))]]
  exported := true

def settle : Method where
  origin := (site 10 7).toOrigin
  name := "settle"
  scope := .root
  params := []
  returns := .void
  body := [.expr (site 11 8).toOrigin (.not (site 12 8) (ask 13 8 "audit" []))]
  exported := false

def source : SourceModule := ⟨.root, [play, settle], []⟩

end Lottery

open Lottery in
/-- The lines in the order of the warnings, and in the order of the code. -/
theorem compile_announces_aborts_lottery :
    ∃ compiled decls', source.compile {} {} = .ok compiled decls' ∧
      compiled.warnings.map Warning.line = [2, 3, 4, 5, 8] ∧
      (compiled.code.filter Instr.isThrow).map (fun instr => instr.origin.line) =
        [5, 4, 3, 2, 8] ∧
      ((compiled.code.filter Instr.isThrow).map Instr.abortText?).Perm
        (compiled.warnings.map fun w => some w.text) ∧
      compiled.warnings.length = compiled.code.countP Instr.isThrow := by
  obtain ⟨compiled, decls', compiles, warned, thrown⟩ : ∃ compiled decls',
      source.compile {} {} = .ok compiled decls' ∧
        compiled.warnings.map Warning.line = [2, 3, 4, 5, 8] ∧
        (compiled.code.filter Instr.isThrow).map (fun instr => instr.origin.line) =
          [5, 4, 3, 2, 8] := by
    apply Ends.succeeds
    decide +kernel
  obtain ⟨same, length, -⟩ := compile_announces_aborts compiles
  exact ⟨compiled, decls', compiles, warned, thrown, same, length⟩

end SourceModule
end ContractLowering
