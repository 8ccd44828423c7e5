import ContractLowering.SourceModule.Compile

/-!
Looking up the module of a scope. Where every scope comes behind its parent in the table, each look
goes to a smaller number, so the look-up of a scope that was handed out cannot fail.
-/

namespace ContractLowering
namespace Declarations

/-- The parent of every scope was handed out before the scope. -/
def ParentsFirst (decls : Declarations) : Prop :=
  ∀ (i : Nat) (scope : Scope) (parent : ScopeId), decls.scopes[i]? = some scope →
    scope.parent = some parent → parent.index < i

theorem parentsFirst_iff {decls : Declarations} : decls.ParentsFirst ↔
    ∀ i : Fin decls.scopes.length, ∀ parent ∈ (decls.scopes.get i).parent, parent.index < i := by
  constructor
  · intro h i parent up
    exact h i _ parent (List.getElem?_eq_getElem i.isLt) up
  · intro h i scope parent at_i up
    obtain ⟨inside, rfl⟩ := List.getElem?_eq_some_iff.mp at_i
    exact h ⟨i, inside⟩ parent up

instance (decls : Declarations) : Decidable decls.ParentsFirst :=
  decidable_of_iff _ parentsFirst_iff.symm

theorem getScope_of_issued {decls : Declarations} {id : ScopeId}
    (issued : id.index < decls.scopes.length) :
    decls.getScope id = .ok decls.scopes[id.index] := by
  rw [getScope, List.getElem?_eq_getElem issued]

theorem moduleWithin_of_parentsFirst {decls : Declarations} (h : decls.ParentsFirst) {looks : Nat}
    {id : ScopeId} (issued : id.index < decls.scopes.length) (enough : id.index < looks) :
    ∃ info, decls.moduleWithin looks id = .ok info := by
  induction looks generalizing id with
  | zero => omega
  | succ looks ih =>
      have hscope := List.getElem?_eq_getElem issued
      rw [moduleWithin, getScope_of_issued issued]
      cases hat : decls.scopes[id.index] with
      | mk name parent info =>
          rw [hat] at hscope
          cases info with
          | some info => exact ⟨some info, rfl⟩
          | none =>
              cases parent with
              | none => exact ⟨none, rfl⟩
              | some parent =>
                  have smaller := h id.index _ parent hscope rfl
                  exact ih (by omega) (by omega)

theorem enclosingModule_of_parentsFirst {decls : Declarations} (h : decls.ParentsFirst)
    {id : ScopeId} (issued : id.index < decls.scopes.length) :
    ∃ info, decls.enclosingModule id = .ok info :=
  moduleWithin_of_parentsFirst h issued (Nat.lt_succ_of_lt issued)

end Declarations

theorem SourceModule.standard?_of_parentsFirst {source : SourceModule} {decls : Declarations}
    (options : Options) (h : decls.ParentsFirst)
    (issued : source.scope.index < decls.scopes.length) :
    ∃ standard, source.standard? options decls = .ok standard := by
  rw [standard?]
  cases options.standard with
  | some standard => exact ⟨some standard, rfl⟩
  | none =>
      obtain ⟨info, hinfo⟩ := Declarations.enclosingModule_of_parentsFirst h issued
      rw [hinfo]
      exact ⟨_, rfl⟩

end ContractLowering
