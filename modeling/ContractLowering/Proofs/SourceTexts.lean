import ContractLowering.Proofs.AssembledCode
import ContractLowering.Proofs.ListingLines

/-!
Texts of the source inside listings. Literals, constants, the names of what is called and the symbol
that a placeholder stands for get into the code as they are, apart from quotation marks and
backslashes. The listing of a module can be read line by line exactly when none of these texts has a
line break in it.
-/

namespace ContractLowering

open Generator Listing

namespace Operand

theorem newline_mem_escape (c : Char) : '\n' ∈ escape c ↔ c = '\n' := by
  rw [escape]
  split <;> simp [eq_comm]

theorem oneLine_str (text : String) : OneLine (str text).text ↔ OneLine text := by
  simp [OneLine, str_text_toList, List.mem_flatMap, newline_mem_escape]

theorem oneLine_reg (r : Register) : OneLine (reg r).text :=
  oneLine_append.mpr ⟨by decide, oneLine_repr r.index⟩

end Operand

theorem Kind.oneLine_constant (kind : Kind) (value : String) :
    OneLine (kind.constant value).text ↔ OneLine value := by
  rw [constant]
  split
  · exact Operand.oneLine_str value
  · exact Iff.rfl

theorem Binding.oneLine_notImplemented (binding : Binding) :
    OneLine binding.notImplemented ↔ OneLine binding.callee := by
  have front : OneLine "method " := by decide
  have back : OneLine " is not implemented" := by decide
  simp [notImplemented, oneLine_append, front, back]

theorem Opcode.oneLine_mnemonic (opcode : Opcode) : OneLine opcode.mnemonic := by
  cases opcode <;> decide

/-- A line break in an instruction is one in an operand. -/
theorem Instr.oneLine_text (instr : Instr) :
    OneLine instr.text ↔ ∀ operand ∈ instr.operands, OneLine operand.text := by
  have mnemonic := instr.opcode.oneLine_mnemonic
  rw [OneLine] at mnemonic
  simp [OneLine, text_toList, mnemonic, Operand.spelling]

namespace Binding

/-- The names by which a call finds its method. -/
def texts (binding : Binding) : List String :=
  match binding.implementation with
  | .contract name => [binding.callee, name]
  | .builtin | .missing => [binding.callee]

theorem oneLine_callCode (binding : Binding) (reg : Register) (origin : Origin) :
    (∀ instr ∈ instrs origin (binding.callCode reg), OneLine instr.text) ↔
      ∀ text ∈ binding.texts, OneLine text := by
  cases himpl : binding.implementation <;>
    simp [callCode, texts, himpl, instrs, Instr.oneLine_text, Operand.oneLine_reg,
      Operand.oneLine_str, oneLine_notImplemented]

end Binding

theorem Kind.oneLine_literalCode (kind : Kind) (value : String) (reg : Register)
    (origin : Origin) :
    (∀ instr ∈ instrs origin (kind.literalCode value reg), OneLine instr.text) ↔
      OneLine value := by
  have builtin : OneLine addressConstructor := by decide
  by_cases address : kind = .address <;>
    simp [literalCode, address, instrs, Instr.oneLine_text, Operand.oneLine_reg,
      Operand.oneLine_str, oneLine_constant, builtin]

namespace Address

theorem oneLine_hexDigits (byte : UInt8) : '\n' ∉ hexDigits byte := by
  have digits : ∀ d < 16, '\n' ≠ Nat.digitChar d := by decide
  have below := byte.toNat_lt
  have high := digits (byte.toNat / 16) (by omega)
  have low := digits (byte.toNat % 16) (by omega)
  simp [hexDigits, high, low]

theorem oneLine_literal (name : String) : OneLine (literal name) := by
  simp [OneLine, literal, List.mem_flatMap, oneLine_hexDigits]

end Address

namespace Expr

/-- The texts that a node puts into the code. The address of a module is not among them. -/
def texts (decls : Declarations) : Expr → List String
  | call _ binding _ => binding.texts
  | lit _ value _ => [value]
  | const _ id => (decls.consts[id.index]?.map Constant.value).toList
  | placeholder s name =>
    if Placeholder.ofName? name = some .thisSymbol then [(Placeholder.resolved decls s name).1]
    else []
  | not _ _ | binary _ _ _ _ | var _ _ => []

theorem Own.oneLine {decls : Declarations} {e : Expr} {code : List Instr}
    (h : e.Own decls.consts code) :
    (∀ instr ∈ code, OneLine instr.text) ↔ ∀ text ∈ e.texts decls, OneLine text := by
  cases h with
  | @call s binding args reg => exact binding.oneLine_callCode reg s.toOrigin
  | @lit s value kind reg =>
      rw [texts, List.forall_mem_singleton]
      exact kind.oneLine_literalCode value reg s.toOrigin
  | const declared =>
      simp [instrs, Instr.oneLine_text, Operand.oneLine_reg, Kind.oneLine_constant, texts, declared]
  | not | var | binary _ => simp [instrs, Instr.oneLine_text, Operand.oneLine_reg, texts]

end Expr

theorem Instr.isMove_oneLine {instr : Instr} (h : instr.isMove = true) : OneLine instr.text := by
  rw [isMove, Bool.and_eq_true, List.all_eq_true] at h
  rw [oneLine_text]
  intro operand member
  cases operand with
  | reg r => exact Operand.oneLine_reg r
  | str text | raw text => cases h.2 _ member

/-- Code has a line break in it where a text of its nodes has one. -/
theorem Assembled.oneLine {decls : Declarations} {code : List Instr} {nodes : List Expr}
    (h : Assembled decls.consts code nodes) :
    (∀ instr ∈ code, OneLine instr.text) ↔
      ∀ node ∈ nodes, ∀ text ∈ node.texts decls, OneLine text := by
  induction h with
  | nil => simp
  | own h => rw [List.forall_mem_singleton, h.oneLine]
  | move h => simpa using Instr.isMove_oneLine h
  | append _ _ ih ih' => rw [List.forall_mem_append, List.forall_mem_append, ih, ih']
  | perm _ same ih => rw [ih, forall_congr' fun node => imp_congr_left same.mem_iff]

namespace Placeholder

/-- A placeholder that has a literal stands for the symbol of a module or for its address, and in an
address there is no line break. -/
theorem oneLine_resolved {decls : Declarations} {s : Site} {name : String}
    (h : (Expr.placeholder s name).unresolved? decls = none)
    (other : ofName? name ≠ some .thisSymbol) : OneLine (resolved decls s name).1 := by
  rw [Expr.unresolved?] at h
  rw [resolved]
  cases resolves : resolve decls s.toOrigin name s.scope with
  | error e =>
      rw [resolves] at h
      cases h
  | ok literal =>
      rw [resolve] at resolves
      split at resolves
      · cases resolves
      · rename_i placeholder named
        cases placeholder with
        | thisSymbol => exact absurd named other
        | thisAddress =>
            split at resolves
            · cases resolves
            · cases resolves
            · cases resolves
              exact Address.oneLine_literal _

end Placeholder

namespace Expr

theorem preorder_fill (literals : Site → String → String × Kind) (e : Expr) :
    (e.fill literals).preorder = e.preorder.map (fill literals) := by
  induction e with
  | not s x ih => simp [fill, preorder, ih]
  | binary s op left right ihl ihr => simp [fill, preorder, ihl, ihr]
  | call s binding args ih =>
      simp only [fill, preorder, allPreorder_eq_flatMap, fillAll_eq_map, List.flatMap_map,
        List.map_cons, List.map_flatMap]
      rw [List.flatMap_congr ih]
  | lit _ _ _ | placeholder _ _ | var _ _ | const _ _ => rfl

/-- The literal in place of a placeholder has a line break if the symbol has one. -/
theorem oneLine_fill {decls : Declarations} {e : Expr} (h : e.unresolved? decls = none) :
    (∀ text ∈ (e.fill (Placeholder.resolved decls)).texts decls, OneLine text) ↔
      ∀ text ∈ e.texts decls, OneLine text := by
  cases e with
  | placeholder s name =>
      rw [fill, texts, texts]
      split
      · exact Iff.rfl
      · rename_i other
        simpa using Placeholder.oneLine_resolved h other
  | not _ _ | binary _ _ _ _ | call _ _ _ | lit _ _ _ | var _ _ | const _ _ => rfl

end Expr

namespace SourceModule

section Compile

variable {source : SourceModule} {options : Options} {decls decls' : Declarations}

/-- The texts of the source that get into the code. -/
def texts (decls : Declarations) (source : SourceModule) : List String :=
  source.preorder.flatMap (Expr.texts decls)

/-- No text that gets into the code has a line break. -/
def OneLined (decls : Declarations) (source : SourceModule) : Prop :=
  ∀ text ∈ source.texts decls, OneLine text

instance : Decidable (source.OneLined decls) :=
  inferInstanceAs (Decidable (∀ text ∈ source.texts decls, OneLine text))

theorem oneLined_iff : source.OneLined decls ↔
    ∀ node ∈ source.preorder, ∀ text ∈ node.texts decls, OneLine text := by
  rw [OneLined, texts, List.forall_mem_flatMap]

theorem oneLined_expanded (h : ∀ method ∈ source.methods, (method.expand decls).failure = none) :
    (source.expanded decls).OneLined decls ↔ source.OneLined decls := by
  have resolved : ∀ node ∈ source.preorder, node.unresolved? decls = none := by
    have expands := (Progress.result_eq_ok.mp (expand_result h)).1
    rwa [expand_eq_upToFault, Progress.upToFault_failure_eq_none] at expands
  have nodes : (source.expanded decls).preorder =
      source.preorder.map (Expr.fill (Placeholder.resolved decls)) := by
    rw [preorder, expressions_expanded h, List.flatMap_map, preorder, List.map_flatMap]
    exact List.flatMap_congr fun e _ => e.preorder_fill _
  rw [oneLined_iff, oneLined_iff, nodes, List.forall_mem_map]
  exact forall₂_congr fun node member => Expr.oneLine_fill (resolved node member)

theorem compile_oneLine {compiled : Compiled}
    (h : source.compile options decls = .ok compiled decls') :
    (∀ instr ∈ compiled.code, OneLine instr.text) ↔ source.OneLined decls := by
  obtain ⟨expands, described, c, standard, lowers, rfl, -⟩ := compile_ok h
  obtain ⟨code, hcode, assembled⟩ := lowerMethods_assembled lowers
  -- what is lowered has literals in place of the placeholders
  rw [← oneLined_expanded expands, oneLined_iff, preorder_eq_flatMap, ← assembled.oneLine]
  have all : c.gen.code = code := hcode
  rw [← all]
  rfl

/-- The plain listing of a module that compiles has one line for each instruction, and the comments
in the other listing name the line of the source for each of them, exactly when no text of the
source that gets into the code has a line break. Leaving out the comments gives the plain listing
exactly when no line of that one looks like a comment, as is the case when there are no such line
breaks. -/
theorem compile_listing_lines {compiled : Compiled}
    (h : source.compile options decls = .ok compiled decls') :
    (lines (render false compiled.code) = compiled.code.map Instr.text ↔ source.OneLined decls) ∧
      (attributed none (lines (render true compiled.code)) =
          compiled.code.map (fun instr => (some instr.origin.line, instr.text)) ↔
        source.OneLined decls) ∧
      (withoutComments (render true compiled.code) = render false compiled.code ↔
        ∀ line ∈ lines (render false compiled.code), isComment line = false) ∧
      (source.OneLined decls →
        withoutComments (render true compiled.code) = render false compiled.code) := by
  have texts := compile_oneLine h
  have plainly := lines_plain_eq_iff compiled.code
  have comments := withoutComments_eq_iff compiled.code
  refine ⟨plainly.trans texts, (attributed_eq_iff compiled.code).trans texts, comments, ?_⟩
  intro oneLined
  refine comments.mpr fun line member => ?_
  rw [plainly.mpr (texts.mpr oneLined)] at member
  obtain ⟨instr, -, rfl⟩ := List.mem_map.mp member
  exact isComment_text instr

end Compile

namespace Motto

def site (node : UInt32) (line : Nat) : Site := ⟨⟨⟨node⟩, line⟩, .root⟩

/-- Gives back its words behind an exclamation mark. -/
def recite (words : String) : Method where
  origin := (site 1 1).toOrigin
  name := "recite"
  scope := .root
  params := []
  returns := .string
  body := [.ret (site 2 3).toOrigin (some (.binary (site 3 3) .add
    (.lit (site 4 2) "!" .string) (.lit (site 5 3) words .string)))]
  exported := true

def source (words : String) : SourceModule := ⟨.root, [recite words], []⟩

end Motto

open Motto in
/-- The words look like a comment, but stand between quotation marks. -/
theorem compile_listing_lines_motto :
    ∃ compiled decls', (source "// line 40 \"\\").compile {} {} = .ok compiled decls' ∧
      (source "// line 40 \"\\").OneLined {} ∧
      compiled.code.map (fun instr => instr.origin.line) = [2, 3, 3, 3, 3] ∧
      lines (render false compiled.code) = compiled.code.map Instr.text ∧
      attributed none (lines (render true compiled.code)) =
        compiled.code.map (fun instr => (some instr.origin.line, instr.text)) ∧
      withoutComments (render true compiled.code) = render false compiled.code := by
  have oneLined : (source "// line 40 \"\\").OneLined {} := by decide +kernel
  obtain ⟨compiled, decls', compiles, origins⟩ : ∃ compiled decls',
      (source "// line 40 \"\\").compile {} {} = .ok compiled decls' ∧
        compiled.code.map (fun instr => instr.origin.line) = [2, 3, 3, 3, 3] := by
    apply Ends.succeeds
    decide +kernel
  obtain ⟨plainly, commented, -, cleaned⟩ := compile_listing_lines compiles
  exact ⟨compiled, decls', compiles, oneLined, origins, plainly.mpr oneLined,
    commented.mpr oneLined, cleaned oneLined⟩

open Motto in
/-- With line breaks in the words there are more lines than instructions, one of them is taken for a
comment, and what follows seems to come from the line that it names. -/
theorem line_breaks_spoil_listing :
    ∃ compiled decls', (source "a\n// line 40\n").compile {} {} = .ok compiled decls' ∧
      compiled.code.length = 5 ∧
      lines (render false compiled.code) = ["LOAD r0 \"!\"", "LOAD r1 \"a", "// line 40", "\"",
        "ADD r0 r1 r2", "PUSH r2", "RET"] ∧
      lines (render false compiled.code) ≠ compiled.code.map Instr.text ∧
      withoutComments (render true compiled.code) ≠ render false compiled.code ∧
      (some 40, "ADD r0 r1 r2") ∈ attributed none (lines (render true compiled.code)) ∧
      compiled.code[2]?.map (fun instr => (instr.text, instr.origin.line)) =
        some ("ADD r0 r1 r2", 3) := by
  apply Ends.succeeds
  decide +kernel

end SourceModule
end ContractLowering
