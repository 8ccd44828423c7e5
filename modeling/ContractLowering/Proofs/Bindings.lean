import ContractLowering.Declarations.Basic

/-!
Which variable is bound to which register. Binding and unbinding change nothing else about the
declarations, so a table is known once its `cleared` form and its bindings are.
-/

namespace ContractLowering

attribute [ext] VarId

namespace Declarations

/-- The register that a variable is bound to. -/
def boundTo? (decls : Declarations) (id : VarId) : Option Register :=
  decls.vars[id.index]?.bind Variable.register

/-- No variable is bound. -/
def Unbound (decls : Declarations) : Prop := ∀ v ∈ decls.vars, v.register = none

instance (decls : Declarations) : Decidable decls.Unbound :=
  inferInstanceAs (Decidable (∀ v ∈ decls.vars, v.register = none))

/-- The declarations without any binding. -/
def cleared (decls : Declarations) : Declarations :=
  { decls with vars := decls.vars.map fun v => { v with register := none } }

theorem getVariable_ok {decls : Declarations} {id : VarId} {v : Variable} :
    decls.getVariable id = .ok v ↔ decls.vars[id.index]? = some v := by
  simp only [getVariable]
  cases decls.vars[id.index]? <;> simp

theorem boundTo?_of_getVariable {decls : Declarations} {id : VarId} {v : Variable}
    (h : decls.getVariable id = .ok v) : decls.boundTo? id = v.register := by
  rw [boundTo?, getVariable_ok.mp h, Option.bind_some]

theorem exists_boundTo? {decls : Declarations} {reg : Register} :
    (∃ id, decls.boundTo? id = some reg) ↔ ∃ v ∈ decls.vars, v.register = some reg := by
  constructor
  · rintro ⟨id, hid⟩
    obtain ⟨v, hv, hreg⟩ := Option.bind_eq_some_iff.mp hid
    exact ⟨v, List.mem_of_getElem? hv, hreg⟩
  · rintro ⟨v, hv, hreg⟩
    obtain ⟨i, hi⟩ := List.mem_iff_getElem?.mp hv
    exact ⟨⟨i⟩, by rw [boundTo?, hi, Option.bind_some, hreg]⟩

theorem Unbound.boundTo? {decls : Declarations} (h : decls.Unbound) (id : VarId) :
    decls.boundTo? id = none := by
  rw [Declarations.boundTo?, Option.bind_eq_none_iff]
  intro v hv
  exact h v (List.mem_of_getElem? hv)

theorem bind_ok {decls decls' : Declarations} {id : VarId} {reg : Register}
    (h : decls.bind id reg = .ok decls') :
    decls.boundTo? id = none ∧ decls'.cleared = decls.cleared ∧
      ∀ other, decls'.boundTo? other = if other = id then some reg else decls.boundTo? other := by
  simp only [bind] at h
  cases hv : decls.getVariable id with
  | error e => simp only [hv, reduceCtorEq] at h
  | ok v =>
      simp only [hv] at h
      split at h
      · cases h
      · rename_i free
        cases h
        obtain ⟨inside, hslot⟩ := List.getElem?_eq_some_iff.mp (getVariable_ok.mp hv)
        have hnone : v.register = none := by simpa using free
        refine ⟨by rw [boundTo?_of_getVariable hv, hnone], ?_, ?_⟩
        · simp only [cleared, List.map_set]
          congr 1
          refine List.ext_getElem? fun i => ?_
          by_cases hi : id.index = i
          · subst hi
            simp [inside, hslot]
          · simp [hi]
        · intro other
          by_cases ho : other = id
          · subst ho
            simp [boundTo?, inside]
          · have hi : id.index ≠ other.index := fun heq => ho (VarId.ext heq.symm)
            simp [boundTo?, hi, ho]

theorem cleared_unbind (decls : Declarations) (regs : List Register) :
    (decls.unbind regs).cleared = decls.cleared := by
  simp only [cleared, unbind, List.map_map]
  congr 1
  refine List.map_congr_left fun v _ => ?_
  simp only [Function.comp_apply, Variable.unbind]
  split <;> rfl

theorem boundTo?_unbind (decls : Declarations) (regs : List Register) (id : VarId) :
    (decls.unbind regs).boundTo? id = (decls.boundTo? id).filter (· ∉ regs) := by
  simp only [boundTo?, unbind, List.getElem?_map]
  cases decls.vars[id.index]? with
  | none => rfl
  | some v =>
      cases hreg : v.register with
      | none => simp [Variable.unbind, Variable.isBoundIn, hreg]
      | some reg =>
          by_cases hmem : reg ∈ regs <;>
            simp [Variable.unbind, Variable.isBoundIn, Option.filter, hreg, hmem]

theorem eq_of_cleared_eq {decls decls' : Declarations} (h : decls'.cleared = decls.cleared)
    (same : ∀ id, decls'.boundTo? id = decls.boundTo? id) : decls' = decls := by
  obtain ⟨scopes, vars, consts⟩ := decls
  obtain ⟨scopes', vars', consts'⟩ := decls'
  simp only [cleared, mk.injEq] at h
  obtain ⟨rfl, hvars, rfl⟩ := h
  congr 1
  refine List.ext_getElem? fun i => ?_
  have form := congrArg (·[i]?) hvars
  have register := same ⟨i⟩
  simp only [List.getElem?_map, boundTo?] at form register
  cases hv' : vars'[i]? <;> cases hv : vars[i]? <;>
    simp only [hv', hv, Option.map_none, Option.map_some, Option.bind_some, Option.some.injEq,
      Variable.mk.injEq, and_true, reduceCtorEq] at form register ⊢
  rename_i v' v
  cases v
  cases v'
  simp_all

/-- A look at a variable that does not see its register sees the same in both tables. -/
theorem getElem?_map_of_cleared_eq {α : Type} {decls decls' : Declarations} (look : Variable → α)
    (blind : ∀ v : Variable, look { v with register := none } = look v)
    (h : decls'.cleared = decls.cleared) (i : Nat) :
    decls'.vars[i]?.map look = decls.vars[i]?.map look := by
  have seen (d : Declarations) : d.vars[i]?.map look = d.cleared.vars[i]?.map look := by
    rw [cleared, List.getElem?_map, Option.map_map]
    exact congrArg (d.vars[i]?.map ·) (funext fun v => (blind v).symm)
  rw [seen decls', seen decls, h]

theorem consts_of_cleared_eq {decls decls' : Declarations} (h : decls'.cleared = decls.cleared) :
    decls'.consts = decls.consts := by
  have same := congrArg Declarations.consts h
  exact same

end Declarations

theorem getElem?_of_getConstant {decls : Declarations} {id : ConstId} {c : Constant}
    (h : decls.getConstant id = .ok c) : decls.consts[id.index]? = some c := by
  simp only [Declarations.getConstant] at h
  split at h
  · cases h
    assumption
  · cases h

end ContractLowering
