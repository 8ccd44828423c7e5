import ContractLowering.Proofs.ReturnCount
import ContractLowering.Proofs.ScopeParents
import Mathlib.Data.List.Forall2

/-!
The interface of a compiled module describes its code. The code consists of one part for each method,
in the order of the methods. The interface lists the exported methods with the number of instructions
in front of their parts, and with their declared parameters unless the standard that applies to the
module has it otherwise.
-/

namespace ContractLowering

namespace Declarations

theorem moduleWithin_of_scopes_eq {decls decls' : Declarations} (h : decls'.scopes = decls.scopes)
    (looks : Nat) (id : ScopeId) : decls'.moduleWithin looks id = decls.moduleWithin looks id := by
  induction looks generalizing id with
  | zero => rfl
  | succ looks ih =>
      have same : decls'.getScope id = decls.getScope id := by rw [getScope, getScope, h]
      rw [moduleWithin, moduleWithin, same]
      simp only [ih]

theorem enclosingModule_of_cleared_eq {decls decls' : Declarations}
    (h : decls'.cleared = decls.cleared) (id : ScopeId) :
    decls'.enclosingModule id = decls.enclosingModule id := by
  have same := congrArg Declarations.scopes h
  have scopes : decls'.scopes = decls.scopes := same
  rw [enclosingModule, enclosingModule, scopes, moduleWithin_of_scopes_eq scopes]

end Declarations

/-- What an interface says about a method that starts behind so many instructions. -/
structure Describes (decls : Declarations) (standard : Option Standard) (method : Method)
    (ahead : Nat) (exported : ExportedMethod) : Prop where
  name : exported.name = method.name
  returns : exported.returns = method.returns
  offset : exported.offset = ahead
  params : if standard.any (·.covers method.name) then exported.params = [⟨"tokenID", .number⟩]
    else exported.params.map some = method.params.map decls.parameter?

theorem Describes.apply {decls : Declarations} {method : Method} {ahead : Nat}
    {exported : ExportedMethod} (h : Describes decls none method ahead exported)
    (standard : Standard) :
    Describes decls (some standard) method ahead (standard.apply exported) := by
  have hname := h.name
  by_cases covered : standard.covers method.name = true
  · have apply_eq : standard.apply exported = { exported with params := standard.params } := by
      rw [Standard.apply, hname, if_pos covered]
    rw [apply_eq]
    refine ⟨h.name, h.returns, h.offset, ?_⟩
    rw [Option.any_some, if_pos covered]
    cases standard
    rfl
  · have apply_eq : standard.apply exported = exported := by
      rw [Standard.apply, hname, if_neg covered]
    rw [apply_eq]
    refine ⟨h.name, h.returns, h.offset, ?_⟩
    rw [Option.any_some, if_neg covered]
    exact h.params

namespace Standard

theorem apply_apply (standard : Standard) (exported : ExportedMethod) :
    standard.apply (standard.apply exported) = standard.apply exported := by
  by_cases covered : standard.covers exported.name = true <;> simp [apply, covered]

end Standard

theorem Interface.applyStandard_applyStandard (interface : Interface) (standard : Standard) :
    (interface.applyStandard standard).applyStandard standard = interface.applyStandard standard := by
  simp only [applyStandard, List.map_map]
  congr 1
  exact List.map_congr_left fun exported _ => standard.apply_apply exported

namespace Method

open Compilation

variable {c c' : Compilation}

/-- A method is described as it was declared. -/
theorem lower_declared {method : Method} {described : ExportedMethod}
    (h : method.lower c = .ok described c') :
    Describes c.decls none method c.gen.position described := by
  obtain ⟨c₁, c₂, params, -, -, -, declared, rfl, -⟩ := lower_describes h
  refine ⟨rfl, rfl, rfl, ?_⟩
  have same := Declarations.parameter?_of_cleared_eq (lower_cleared h)
  rw [funext same] at declared
  exact declared

end Method

namespace SourceModule

open Compilation

variable {c c' : Compilation}

/-- The instructions that each method adds to the code. -/
def codeParts : List Method → CompileM (List (List Instr))
  | [] => return []
  | method :: methods => do
    let ahead := (← get).gen.position
    let _ ← method.lower
    let part := (← get).gen.code.drop ahead
    return part :: (← codeParts methods)

/-- The exported methods, each with the number of instructions in front of it. -/
def entryPoints (ahead : Nat) : List Method → List (List Instr) → List (Method × Nat)
  | method :: methods, part :: parts =>
    let others := entryPoints (ahead + part.length) methods parts
    if method.exported then (method, ahead) :: others else others
  | _, _ => []

theorem codeParts_cons {method : Method} {methods : List Method} {described : ExportedMethod}
    {part : List Instr} {parts : List (List Instr)} {c₁ : Compilation}
    (hfirst : method.lower c = .ok described c₁) (hpart : c₁.gen.code = c.gen.code ++ part)
    (hothers : codeParts methods c₁ = .ok parts c') :
    codeParts (method :: methods) c = .ok (part :: parts) c' := by
  simp only [codeParts]
  rw [get_bind, bind_of_ok hfirst, get_bind, bind_of_ok hothers, hpart, Generator.position,
    List.drop_left]
  rfl

/-- A part of the code that belongs to a method. -/
structure PartOf (method : Method) (part : List Instr) : Prop where
  returns : part.countP Instr.isReturn = method.expectedReturns
  nonempty : 0 < part.countP Instr.isReturn

theorem PartOf.length_pos {method : Method} {part : List Instr} (h : PartOf method part) :
    0 < part.length :=
  Nat.lt_of_lt_of_le h.nonempty List.countP_le_length

/-- Lowering the methods one after the other adds their parts in order and describes the exported
ones. -/
theorem lowerMethods_described {methods : List Method} {described : List ExportedMethod}
    (h : lowerMethods methods c = .ok described c') :
    ∃ parts, codeParts methods c = .ok parts c' ∧ c'.gen.code = c.gen.code ++ parts.flatten ∧
      c'.decls.cleared = c.decls.cleared ∧ List.Forall₂ PartOf methods parts ∧
      List.Forall₂ (fun entry => Describes c.decls none entry.1 entry.2)
        (entryPoints c.gen.position methods parts) described := by
  induction methods generalizing described c with
  | nil =>
      simp only [lowerMethods] at h
      cases h
      exact ⟨[], rfl, by simp, rfl, .nil, .nil⟩
  | cons method methods ih =>
      obtain ⟨first, c₁, others, hfirst, hothers, rfl⟩ := lowerMethods_cons_ok h
      obtain ⟨part, hpart, hreturns, hpos⟩ := Method.lower_part hfirst
      have hcleared := Method.lower_cleared hfirst
      obtain ⟨parts, hparts, hcode, hdecls, hfit, hdescribed⟩ := ih hothers
      have hahead : c₁.gen.position = c.gen.position + part.length := by
        rw [Generator.position, hpart, List.length_append]
        rfl
      have hlater : List.Forall₂ (fun entry => Describes c.decls none entry.1 entry.2)
          (entryPoints (c.gen.position + part.length) methods parts) others := by
        rw [← hahead]
        refine hdescribed.imp ?_
        intro entry m hm
        refine ⟨hm.name, hm.returns, hm.offset, ?_⟩
        have hparams := hm.params
        rwa [funext (Declarations.parameter?_of_cleared_eq hcleared)] at hparams
      refine ⟨part :: parts, codeParts_cons hfirst hpart hparts, by simp [hcode, hpart],
        hdecls.trans hcleared, .cons ⟨hreturns, hreturns ▸ hpos⟩ hfit, ?_⟩
      rw [entryPoints]
      cases method.exported with
      | true => exact .cons (Method.lower_declared hfirst) hlater
      | false => exact hlater

/-- No part is empty, so each method starts behind the start of the one before. -/
theorem entryPoints_increase {methods : List Method} {parts : List (List Instr)}
    (h : List.Forall₂ PartOf methods parts) (ahead : Nat) :
    (∀ entry ∈ entryPoints ahead methods parts, ahead ≤ entry.2) ∧
      (entryPoints ahead methods parts).Pairwise (fun entry later => entry.2 < later.2) := by
  induction h generalizing ahead with
  | nil => exact ⟨by simp [entryPoints], .nil⟩
  | @cons method part methods parts hpart _ ih =>
      obtain ⟨hbehind, hpairs⟩ := ih (ahead + part.length)
      have hpos := hpart.length_pos
      have hstrict : ∀ entry ∈ entryPoints (ahead + part.length) methods parts, ahead < entry.2 := by
        intro entry hentry
        have := hbehind entry hentry
        omega
      rw [entryPoints]
      cases method.exported with
      | false => exact ⟨fun entry hentry => Nat.le_of_lt (hstrict entry hentry), hpairs⟩
      | true =>
          refine ⟨?_, List.pairwise_cons.mpr ⟨hstrict, hpairs⟩⟩
          intro entry hentry
          cases List.mem_cons.mp hentry with
          | inl first => exact first ▸ Nat.le_refl ahead
          | inr later => exact Nat.le_of_lt (hstrict entry later)

theorem entryPoints_expanded (decls : Declarations) (ahead : Nat) (methods : List Method)
    (parts : List (List Instr)) :
    entryPoints ahead (methods.map (Method.expanded decls)) parts =
      (entryPoints ahead methods parts).map fun entry => (entry.1.expanded decls, entry.2) := by
  induction methods generalizing ahead parts with
  | nil => rfl
  | cons method methods ih =>
      cases parts with
      | nil => rfl
      | cons part parts =>
          have same : (method.expanded decls).exported = method.exported := rfl
          simp only [List.map_cons, entryPoints, ih, same]
          split <;> rfl

theorem offsets_eq {decls : Declarations} {standard : Option Standard}
    {entries : List (Method × Nat)} {exported : List ExportedMethod}
    (h : List.Forall₂ (fun entry => Describes decls standard entry.1 entry.2) entries exported) :
    exported.map ExportedMethod.offset = entries.map Prod.snd := by
  induction h with
  | nil => rfl
  | cons hm _ ih => rw [List.map_cons, List.map_cons, hm.offset, ih]

/-- The standard for a module is the one of the options. If they give none, the modules of one kind
have to keep to a standard. -/
structure Follows (source : SourceModule) (options : Options) (decls : Declarations)
    (standard : Option Standard) : Prop where
  forced : ∀ s, options.standard = some s → standard = some s
  declared : options.standard = none → ∃ info, decls.enclosingModule source.scope = .ok info ∧
    standard = if info.any (·.kind = .nft) then some .nft else none

theorem follows_of_standard? {source : SourceModule} {options : Options} {decls : Declarations}
    {standard : Option Standard} (h : source.standard? options decls = .ok standard) :
    source.Follows options decls standard := by
  rw [standard?] at h
  cases hforced : options.standard with
  | some s =>
      rw [hforced] at h
      cases h
      exact ⟨fun _ hs => hforced ▸ hs, fun hnone => by simp [hforced] at hnone⟩
  | none =>
      rw [hforced] at h
      refine ⟨by simp [hforced], fun _ => ?_⟩
      cases hinfo : decls.enclosingModule source.scope with
      | error e =>
          rw [hinfo] at h
          cases h
      | ok info =>
          rw [hinfo] at h
          cases h
          refine ⟨info, rfl, ?_⟩
          cases info with
          | none => rfl
          | some info => cases hkind : info.kind <;> simp [hkind, Standard.ofModuleKind?]

theorem assemble_describes {decls : Declarations} {entries : List (Method × Nat)}
    {described : List ExportedMethod}
    (h : List.Forall₂ (fun entry => Describes decls none entry.1 entry.2) entries described)
    (source : SourceModule) (options : Options) (standard : Option Standard) (gen : Generator) :
    List.Forall₂ (fun entry => Describes decls standard entry.1 entry.2) entries
      (source.assemble options standard described gen).interface.methods := by
  cases standard with
  | none => exact h
  | some standard =>
      simp only [assemble, Option.elim_some, Interface.applyStandard]
      exact List.forall₂_map_right_iff.mpr (h.imp fun _ _ hm => hm.apply standard)

theorem assemble_applyStandard (source : SourceModule) (options : Options)
    (described : List ExportedMethod) (gen : Generator) (standard : Standard) :
    (source.assemble options (some standard) described gen).interface.applyStandard standard =
      (source.assemble options (some standard) described gen).interface :=
  Interface.applyStandard_applyStandard _ _

theorem assemble_events (source : SourceModule) (options : Options) (standard : Option Standard)
    (described : List ExportedMethod) (gen : Generator) :
    (source.assemble options standard described gen).interface.events = source.events := by
  cases standard <;> rfl

/-- The interface of a module describes its code. The code is that of the methods one behind the
other, none of them without a return and each with as many returns as its text asks for. The
interface has the exported methods in order, with the number of instructions in front of them and
their declared parameters, or those of the standard that the module follows. -/
theorem compile_describes (source : SourceModule) (options : Options)
    {decls decls' : Declarations} {compiled : Compiled}
    (compiles : source.compile options decls = .ok compiled decls') :
    ∃ standard parts c, source.Follows options decls standard ∧
      codeParts (source.expanded decls).methods ⟨decls, options.generator⟩ = .ok parts c ∧
      compiled.code = parts.flatten ∧
      List.Forall₂ (fun method part => part ≠ [] ∧ 0 < part.countP Instr.isReturn ∧
        part.countP Instr.isReturn =
          method.returnCount + if method.returns = .void then 1 else 0) source.methods parts ∧
      List.Forall₂ (fun entry => Describes decls standard entry.1 entry.2)
        (entryPoints 0 source.methods parts) compiled.interface.methods ∧
      compiled.interface.methods.Pairwise (fun m later => m.offset < later.offset) ∧
      compiled.interface.events = source.events ∧
      ∀ s, standard = some s → compiled.interface.applyStandard s = compiled.interface := by
  obtain ⟨-, described, c, standard, lowers, hstandard, rfl, -⟩ := compile_phases compiles
  obtain ⟨parts, hparts, hcode, hcleared, hfit, hentries⟩ := lowerMethods_described lowers
  have follows : source.Follows options decls standard := by
    have found := follows_of_standard? hstandard
    refine ⟨found.forced, fun hnone => ?_⟩
    rw [← Declarations.enclosingModule_of_cleared_eq hcleared]
    exact found.declared hnone
  have fit : List.Forall₂ PartOf source.methods parts := by
    refine (List.forall₂_map_left_iff.mp hfit).imp ?_
    intro method part hpart
    exact ⟨hpart.returns.trans (method.expanded_expectedReturns decls), hpart.nonempty⟩
  have described : List.Forall₂ (fun entry => Describes decls none entry.1 entry.2)
      (entryPoints 0 source.methods parts) described := by
    have entries := entryPoints_expanded decls 0 source.methods parts
    refine (List.forall₂_map_left_iff.mp (entries ▸ hentries)).imp ?_
    intro entry exported hm
    exact ⟨hm.name, hm.returns, hm.offset, hm.params⟩
  have final := assemble_describes described (source.expanded decls) options standard c.gen
  refine ⟨standard, parts, c, follows, hparts, hcode, fit.imp ?_, final, ?_,
    assemble_events _ options standard _ c.gen, ?_⟩
  · intro method part hpart
    exact ⟨List.ne_nil_of_length_pos hpart.length_pos, hpart.nonempty, hpart.returns⟩
  · rw [← List.pairwise_map (f := ExportedMethod.offset) (R := (· < ·)), offsets_eq final,
      List.pairwise_map]
    exact (entryPoints_increase fit 0).2
  · intro s hs
    subst hs
    exact assemble_applyStandard _ options _ c.gen s

namespace Deed

def origin : Origin := ⟨⟨3⟩, 1⟩

def site : Site := ⟨origin, ⟨1⟩⟩

def decls : Declarations where
  scopes := [Scope.root, ⟨"deed", some .root, some (.token "deed" .nft "DEED")⟩]
  vars := [⟨"id", .number, none⟩, ⟨"amount", .number, none⟩]

/-- Not exported, with two returns, one of them in a block within a block. -/
def check : Method where
  origin := origin
  name := "check"
  scope := ⟨1⟩
  params := [⟨0⟩]
  returns := .number
  body := [.block origin [.ret origin (some (.var site ⟨0⟩)),
    .block origin [.ret origin (some (.lit site "0" .number))]]]
  exported := false

/-- The standard covers this name. -/
def getName : Method where
  origin := origin
  name := "getName"
  scope := ⟨1⟩
  params := [⟨0⟩, ⟨1⟩]
  returns := .string
  body := [.ret origin (some (.placeholder site "THIS_SYMBOL"))]
  exported := true

def burn : Method where
  origin := origin
  name := "burn"
  scope := ⟨1⟩
  params := [⟨0⟩, ⟨1⟩]
  returns := .void
  body := [.ret origin none]
  exported := true

def source : SourceModule := ⟨⟨1⟩, [check, getName, burn], [⟨64, "Burned", .number, "a deed"⟩]⟩

end Deed

open Deed in
/-- The parameters of the name that the standard covers are replaced, and the returns of the method
that is not exported lie in front of it. -/
theorem compile_describes_deed :
    ∃ compiled after, source.compile {} decls = .ok compiled after ∧
      compiled.interface.methods = [⟨"getName", .string, 7, [⟨"tokenID", .number⟩]⟩,
        ⟨"burn", .void, 12, [⟨"id", .number⟩, ⟨"amount", .number⟩]⟩] ∧
      compiled.interface.applyStandard .nft = compiled.interface ∧
      ∃ parts : List (List Instr), compiled.code = parts.flatten ∧
        List.Forall₂ (fun returns part => part.countP Instr.isReturn = returns) [2, 1, 2] parts := by
  obtain ⟨compiled, after, compiles, hmethods⟩ : ∃ compiled after,
      source.compile {} decls = .ok compiled after ∧
        compiled.interface.methods = [⟨"getName", .string, 7, [⟨"tokenID", .number⟩]⟩,
          ⟨"burn", .void, 12, [⟨"id", .number⟩, ⟨"amount", .number⟩]⟩] := by
    apply Ends.succeeds
    decide +kernel
  obtain ⟨standard, parts, -, follows, -, hcode, hparts, -, -, -, again⟩ :=
    compile_describes source {} compiles
  obtain ⟨info, hinfo, hstandard⟩ := follows.declared rfl
  have found : decls.enclosingModule source.scope =
      .ok (some (.token "deed" .nft "DEED")) := rfl
  obtain rfl : info = some (.token "deed" .nft "DEED") := by
    rw [found] at hinfo
    cases hinfo
    rfl
  refine ⟨compiled, after, compiles, hmethods, again .nft hstandard, parts, hcode, ?_⟩
  have counts : [2, 1, 2] = source.methods.map fun method =>
      method.returnCount + if method.returns = .void then 1 else 0 := by decide +kernel
  rw [counts, List.forall₂_map_left_iff]
  exact hparts.imp fun method part hpart => hpart.2.2

end SourceModule
end ContractLowering
