import ContractLowering.Proofs.ModuleSteps
import ContractLowering.Proofs.ScopeParents

/-!
Source that uses the declarations properly: every number of a scope, a variable or a constant was
handed out, every operator has an opcode, and no method lists a parameter twice. On such source,
replacing placeholders fails only for a reason that the user has to answer for, and what it gives is
well formed again, has the same nodes, and has no placeholder left.
-/

namespace ContractLowering

section Members

variable {α : Type} {p : α → Bool} {f : List α → Bool}

/-- A function on lists with the equations of `any` is `any`. -/
theorem eq_any_of_equations (nil : f [] = false) (cons : ∀ a as, f (a :: as) = (p a || f as))
    (as : List α) : f as = as.any p := by
  induction as with
  | nil => exact nil
  | cons a as ih => rw [cons, ih, List.any_cons]

theorem eq_all_of_equations (nil : f [] = true) (cons : ∀ a as, f (a :: as) = (p a && f as))
    (as : List α) : f as = as.all p := by
  induction as with
  | nil => exact nil
  | cons a as ih => rw [cons, ih, List.all_cons]

end Members

namespace Declarations

/-- The number was handed out for a scope. -/
def hasScope (decls : Declarations) (id : ScopeId) : Bool := id.index < decls.scopes.length

def hasVariable (decls : Declarations) (id : VarId) : Bool := id.index < decls.vars.length

def hasConstant (decls : Declarations) (id : ConstId) : Bool := id.index < decls.consts.length

theorem getVariable_of_has {decls : Declarations} {id : VarId} (h : decls.hasVariable id = true) :
    ∃ v, decls.getVariable id = .ok v := by
  have inside : id.index < decls.vars.length := by simpa [hasVariable] using h
  exact ⟨_, getVariable_ok.mpr (List.getElem?_eq_getElem inside)⟩

theorem getConstant_of_has {decls : Declarations} {id : ConstId}
    (h : decls.hasConstant id = true) : ∃ c, decls.getConstant id = .ok c := by
  have inside : id.index < decls.consts.length := by simpa [hasConstant] using h
  exact ⟨_, by rw [getConstant, List.getElem?_eq_getElem inside]⟩

end Declarations

namespace Expr

mutual

def wellFormed (decls : Declarations) : Expr → Bool
  | not s x => decls.hasScope s.scope && x.wellFormed decls
  | binary s op left right =>
    decls.hasScope s.scope && op.opcode?.isSome && left.wellFormed decls && right.wellFormed decls
  | call s _ args => decls.hasScope s.scope && allWellFormed decls args
  | lit s _ _ | placeholder s _ => decls.hasScope s.scope
  | var s id => decls.hasScope s.scope && decls.hasVariable id
  | const s id => decls.hasScope s.scope && decls.hasConstant id

def allWellFormed (decls : Declarations) : List Expr → Bool
  | [] => true
  | e :: es => e.wellFormed decls && allWellFormed decls es

end

theorem allWellFormed_eq (decls : Declarations) :
    ∀ es, allWellFormed decls es = es.all (wellFormed decls) :=
  eq_all_of_equations rfl fun _ _ => rfl

theorem anyContains_eq (id : NodeId) : ∀ es, anyContains id es = es.any (contains id) :=
  eq_any_of_equations rfl fun _ _ => rfl

theorem contains_site (e : Expr) : e.contains e.site.node = true := by
  cases e <;> simp [contains, site]

end Expr

namespace Stmt

mutual

def wellFormed (decls : Declarations) : Stmt → Bool
  | expr _ x => x.wellFormed decls
  | assign _ target value => decls.hasVariable target && value.wellFormed decls
  | ret _ value => value.all (Expr.wellFormed decls)
  | block _ body => allWellFormed decls body

def allWellFormed (decls : Declarations) : List Stmt → Bool
  | [] => true
  | s :: ss => s.wellFormed decls && allWellFormed decls ss

end

mutual

/-- The statement, or a statement or an expression in it, has this number. -/
def contains (id : NodeId) : Stmt → Bool
  | expr origin x => origin.node = id || x.contains id
  | assign origin _ value => origin.node = id || value.contains id
  | ret origin value => origin.node = id || value.any (Expr.contains id)
  | block origin body => origin.node = id || anyContains id body

def anyContains (id : NodeId) : List Stmt → Bool
  | [] => false
  | s :: ss => s.contains id || anyContains id ss

end

theorem allWellFormed_eq (decls : Declarations) :
    ∀ ss, allWellFormed decls ss = ss.all (wellFormed decls) :=
  eq_all_of_equations rfl fun _ _ => rfl

theorem anyContains_eq (id : NodeId) : ∀ ss, anyContains id ss = ss.any (contains id) :=
  eq_any_of_equations rfl fun _ _ => rfl

end Stmt

namespace Method

def wellFormed (decls : Declarations) (method : Method) : Bool :=
  decls.hasScope method.scope && method.params.all decls.hasVariable && method.params.Nodup &&
    Stmt.allWellFormed decls method.body

def contains (id : NodeId) (method : Method) : Bool :=
  method.origin.node = id || Stmt.anyContains id method.body

end Method

namespace SourceModule

def wellFormed (decls : Declarations) (source : SourceModule) : Bool :=
  decls.hasScope source.scope && source.methods.all (Method.wellFormed decls)

/-- A method, a statement or an expression of the module has this number. -/
def contains (id : NodeId) (source : SourceModule) : Bool := source.methods.any (Method.contains id)

end SourceModule

/-- The failure is a fault of the user at one of these nodes. -/
def Failure.BlamesUser (within : NodeId → Prop) (e : Failure) : Prop :=
  ∃ d node, e = .reported d ∧ d.severity = .user ∧ d.node? = some node ∧ within node

namespace Progress

variable {α β γ : Type}

theorem both_failure (f : α → β → γ) (first : Progress α) (before : β) (second : Progress β) :
    (both f first before second).failure = first.failure.or second.failure := by
  rw [both]
  cases first.failure <;> rfl

theorem both_value (f : α → β → γ) {first : Progress α} (before : β) (second : Progress β)
    (h : first.failure = none) : (both f first before second).value = f first.value second.value := by
  rw [both, h]
  rfl

theorem traverse_failure_eq_none {f : α → Progress α} {as : List α} :
    (traverse f as).failure = none ↔ ∀ a ∈ as, (f a).failure = none := by
  rw [traverse_failure, List.findSome?_eq_none_iff]

end Progress

section Expansion

variable {decls : Declarations} {within : NodeId → Prop}

theorem Expr.expandAll_eq_traverse (decls : Declarations) (es : List Expr) :
    expandAll decls es = Progress.traverse (expand decls) es := by
  induction es with
  | nil => rfl
  | cons e es ih => rw [expandAll, ih, Progress.traverse]

theorem Stmt.expandAll_eq_traverse (decls : Declarations) (ss : List Stmt) :
    expandAll decls ss = Progress.traverse (expand decls) ss := by
  induction ss with
  | nil => rfl
  | cons s ss ih => rw [expandAll, ih, Progress.traverse]

theorem Placeholder.resolve_blames (parents : decls.ParentsFirst) {origin : Origin} {name : String}
    {scope : ScopeId} (issued : decls.hasScope scope = true) (known : within origin.node)
    {e : Failure} (h : resolve decls origin name scope = .error e) : e.BlamesUser within := by
  have inside : scope.index < decls.scopes.length := by simpa [Declarations.hasScope] using issued
  obtain ⟨info, hinfo⟩ := Declarations.enclosingModule_of_parentsFirst parents inside
  rw [resolve] at h
  cases hname : ofName? name with
  | none =>
      rw [hname] at h
      cases h
      exact ⟨_, _, rfl, rfl, rfl, known⟩
  | some placeholder =>
      rw [hname, hinfo] at h
      cases info with
      | none =>
          cases h
          exact ⟨_, _, rfl, rfl, rfl, known⟩
      | some info =>
          cases placeholder with
          | thisAddress => cases h
          | thisSymbol =>
              simp only [literal] at h
              cases hsymbol : info.symbol with
              | some symbol =>
                  rw [hsymbol] at h
                  cases h
              | none =>
                  rw [hsymbol] at h
                  cases h
                  exact ⟨_, _, rfl, rfl, rfl, known⟩

namespace Expr

/-- Placeholders fail only for a reason that the user has to answer for. -/
theorem expand_blames (parents : decls.ParentsFirst) (e : Expr)
    (formed : e.wellFormed decls = true) (known : ∀ id, e.contains id = true → within id)
    {failure : Failure} (h : (e.expand decls).failure = some failure) :
    failure.BlamesUser within := by
  induction e with
  | not s x ih =>
      simp only [wellFormed, Bool.and_eq_true] at formed
      simp only [expand] at h
      exact ih formed.2 (fun id hid => known id (by simp [contains, hid])) h
  | binary s op left right ihl ihr =>
      simp only [wellFormed, Bool.and_eq_true] at formed
      simp only [expand, Progress.both_failure, Option.or_eq_some_iff] at h
      cases h with
      | inl hleft => exact ihl formed.1.2 (fun id hid => known id (by simp [contains, hid])) hleft
      | inr hright =>
          exact ihr formed.2 (fun id hid => known id (by simp [contains, hid])) hright.2
  | call s binding args ih =>
      simp only [wellFormed, allWellFormed_eq, Bool.and_eq_true, List.all_eq_true] at formed
      simp only [expand, expandAll_eq_traverse, Progress.map, Progress.traverse_failure] at h
      obtain ⟨arg, harg, hfailure⟩ := List.exists_of_findSome?_eq_some h
      refine ih arg harg (formed.2 arg harg) (fun id hid => known id ?_) hfailure
      simp only [contains, anyContains_eq, Bool.or_eq_true, List.any_eq_true]
      exact Or.inr ⟨arg, harg, hid⟩
  | placeholder s name =>
      simp only [wellFormed] at formed
      simp only [expand] at h
      cases hresolve : Placeholder.resolve decls s.toOrigin name s.scope with
      | ok literal =>
          rw [literalFor, hresolve] at h
          cases h
      | error e =>
          rw [literalFor, hresolve] at h
          cases h
          exact Placeholder.resolve_blames parents formed (known s.node (by simp [contains]))
            hresolve
  | lit _ _ _ | var _ _ | const _ _ =>
      simp only [expand] at h
      cases h

/-- What lowering an expression may rely on. Placeholders have no rule. -/
inductive Lowerable (decls : Declarations) (within : NodeId → Prop) : Expr → Prop
  | not {s : Site} {x : Expr} (node : within s.node) (operand : Lowerable decls within x) :
      Lowerable decls within (.not s x)
  | binary {s : Site} {op : Operator} {opcode : Opcode} {left right : Expr} (node : within s.node)
      (supported : op.opcode? = some opcode) (first : Lowerable decls within left)
      (second : Lowerable decls within right) : Lowerable decls within (.binary s op left right)
  | call {s : Site} {binding : Binding} {args : List Expr} (node : within s.node)
      (each : ∀ arg ∈ args, Lowerable decls within arg) :
      Lowerable decls within (.call s binding args)
  | lit {s : Site} {value : String} {kind : Kind} (node : within s.node) :
      Lowerable decls within (.lit s value kind)
  | var {s : Site} {id : VarId} (node : within s.node) (issued : decls.hasVariable id = true) :
      Lowerable decls within (.var s id)
  | const {s : Site} {id : ConstId} (node : within s.node) (issued : decls.hasConstant id = true) :
      Lowerable decls within (.const s id)

/-- Expansion that goes through gives an expression that is ready to be lowered. -/
theorem expand_lowerable (e : Expr) (formed : e.wellFormed decls = true)
    (known : ∀ id, e.contains id = true → within id) (h : (e.expand decls).failure = none) :
    Lowerable decls within (e.expand decls).value := by
  have node : within e.site.node := known _ e.contains_site
  induction e with
  | not s x ih =>
      simp only [wellFormed, Bool.and_eq_true] at formed
      simp only [expand, Progress.map] at h ⊢
      have inner : ∀ id, x.contains id = true → within id :=
        fun id hid => known id (by simp [contains, hid])
      exact .not node (ih formed.2 inner h (inner _ x.contains_site))
  | binary s op left right ihl ihr =>
      simp only [wellFormed, Bool.and_eq_true] at formed
      simp only [expand, Progress.both_failure, Option.or_eq_none_iff] at h
      obtain ⟨⟨⟨-, hop⟩, hleft⟩, hright⟩ := formed
      obtain ⟨opcode, supported⟩ := Option.isSome_iff_exists.mp hop
      have inl : ∀ id, left.contains id = true → within id :=
        fun id hid => known id (by simp [contains, hid])
      have inr : ∀ id, right.contains id = true → within id :=
        fun id hid => known id (by simp [contains, hid])
      simp only [expand]
      rw [Progress.both_value _ _ _ h.1]
      exact .binary node supported (ihl hleft inl h.1 (inl _ left.contains_site))
        (ihr hright inr h.2 (inr _ right.contains_site))
  | call s binding args ih =>
      simp only [wellFormed, allWellFormed_eq, Bool.and_eq_true, List.all_eq_true] at formed
      simp only [expand, expandAll_eq_traverse, Progress.map] at h ⊢
      have expands := Progress.traverse_failure_eq_none.mp h
      rw [Progress.traverse_value _ expands]
      refine .call node ?_
      intro arg harg
      obtain ⟨original, horiginal, rfl⟩ := List.mem_map.mp harg
      have inner : ∀ id, original.contains id = true → within id := by
        intro id hid
        refine known id ?_
        simp only [contains, anyContains_eq, Bool.or_eq_true, List.any_eq_true]
        exact Or.inr ⟨original, horiginal, hid⟩
      exact ih original horiginal (formed.2 original horiginal) inner (expands original horiginal)
        (inner _ original.contains_site)
  | placeholder s name =>
      simp only [expand] at h ⊢
      cases hresolve : Placeholder.resolve decls s.toOrigin name s.scope with
      | ok literal =>
          -- the literal stands on the site of the placeholder
          simp only [literalFor, hresolve]
          exact .lit node
      | error e =>
          rw [literalFor, hresolve] at h
          cases h
  | lit s value kind => exact .lit node
  | var s id =>
      simp only [wellFormed, Bool.and_eq_true] at formed
      exact .var node formed.2
  | const s id =>
      simp only [wellFormed, Bool.and_eq_true] at formed
      exact .const node formed.2

end Expr

namespace Stmt

/-- What lowering a statement may rely on. -/
inductive Lowerable (decls : Declarations) (within : NodeId → Prop) : Stmt → Prop
  | expr {origin : Origin} {x : Expr} (value : x.Lowerable decls within) :
      Lowerable decls within (.expr origin x)
  | assign {origin : Origin} {target : VarId} {x : Expr} (node : within origin.node)
      (issued : decls.hasVariable target = true) (value : x.Lowerable decls within) :
      Lowerable decls within (.assign origin target x)
  | ret {origin : Origin} {x : Option Expr} (value : ∀ y ∈ x, y.Lowerable decls within) :
      Lowerable decls within (.ret origin x)
  | block {origin : Origin} {body : List Stmt} (each : ∀ s ∈ body, Lowerable decls within s) :
      Lowerable decls within (.block origin body)

/-- The expressions of a statement that fails to expand are to blame for it. -/
theorem expand_blames (parents : decls.ParentsFirst) (s : Stmt)
    (formed : s.wellFormed decls = true) (known : ∀ id, s.contains id = true → within id)
    {failure : Failure} (h : (s.expand decls).failure = some failure) :
    failure.BlamesUser within := by
  induction s with
  | expr origin x =>
      simp only [wellFormed] at formed
      simp only [expand] at h
      exact x.expand_blames parents formed (fun id hid => known id (by simp [contains, hid])) h
  | assign origin target value =>
      simp only [wellFormed, Bool.and_eq_true] at formed
      simp only [expand] at h
      exact value.expand_blames parents formed.2
        (fun id hid => known id (by simp [contains, hid])) h
  | ret origin value =>
      cases value with
      | none =>
          simp only [expand] at h
          cases h
      | some value =>
          simp only [wellFormed, Option.all_some] at formed
          simp only [expand] at h
          exact value.expand_blames parents formed
            (fun id hid => known id (by simp [contains, hid])) h
  | block origin body ih =>
      simp only [wellFormed, allWellFormed_eq, List.all_eq_true] at formed
      simp only [expand, expandAll_eq_traverse, Progress.map, Progress.traverse_failure] at h
      obtain ⟨s, hs, hfailure⟩ := List.exists_of_findSome?_eq_some h
      refine ih s hs (formed s hs) (fun id hid => known id ?_) hfailure
      simp only [contains, anyContains_eq, Bool.or_eq_true, List.any_eq_true]
      exact Or.inr ⟨s, hs, hid⟩

theorem expand_lowerable (s : Stmt) (formed : s.wellFormed decls = true)
    (known : ∀ id, s.contains id = true → within id) (h : (s.expand decls).failure = none) :
    Lowerable decls within (s.expand decls).value := by
  induction s with
  | expr origin x =>
      simp only [wellFormed] at formed
      simp only [expand] at h ⊢
      exact .expr (x.expand_lowerable formed (fun id hid => known id (by simp [contains, hid])) h)
  | assign origin target value =>
      simp only [wellFormed, Bool.and_eq_true] at formed
      simp only [expand] at h ⊢
      exact .assign (known _ (by simp [contains])) formed.1
        (value.expand_lowerable formed.2 (fun id hid => known id (by simp [contains, hid])) h)
  | ret origin value =>
      cases value with
      | none =>
          simp only [expand]
          exact .ret nofun
      | some value =>
          simp only [wellFormed, Option.all_some] at formed
          simp only [expand] at h ⊢
          refine .ret fun y hy => ?_
          cases hy
          exact value.expand_lowerable formed (fun id hid => known id (by simp [contains, hid])) h
  | block origin body ih =>
      simp only [wellFormed, allWellFormed_eq, List.all_eq_true] at formed
      simp only [expand, expandAll_eq_traverse, Progress.map] at h ⊢
      have expands := Progress.traverse_failure_eq_none.mp h
      rw [Progress.traverse_value _ expands]
      refine .block ?_
      intro s hs
      obtain ⟨original, horiginal, rfl⟩ := List.mem_map.mp hs
      refine ih original horiginal (formed original horiginal) (fun id hid => known id ?_)
        (expands original horiginal)
      simp only [contains, anyContains_eq, Bool.or_eq_true, List.any_eq_true]
      exact Or.inr ⟨original, horiginal, hid⟩

end Stmt

namespace Method

/-- What lowering a method may rely on. -/
structure Lowerable (decls : Declarations) (within : NodeId → Prop) (method : Method) : Prop where
  node : within method.origin.node
  issued : ∀ id ∈ method.params, decls.hasVariable id = true
  distinct : method.params.Nodup
  body : ∀ s ∈ method.body, s.Lowerable decls within

theorem contains_of_mem {method : Method} {s : Stmt} (hs : s ∈ method.body) {id : NodeId}
    (h : s.contains id = true) : method.contains id = true := by
  simp only [contains, Stmt.anyContains_eq, Bool.or_eq_true, List.any_eq_true]
  exact Or.inr ⟨s, hs, h⟩

theorem expand_blames (parents : decls.ParentsFirst) (method : Method)
    (formed : method.wellFormed decls = true)
    (known : ∀ id, method.contains id = true → within id) {failure : Failure}
    (h : (method.expand decls).failure = some failure) : failure.BlamesUser within := by
  simp only [wellFormed, Stmt.allWellFormed_eq, Bool.and_eq_true, List.all_eq_true] at formed
  simp only [expand, Stmt.expandAll_eq_traverse, Progress.map, Progress.traverse_failure] at h
  obtain ⟨s, hs, hfailure⟩ := List.exists_of_findSome?_eq_some h
  exact s.expand_blames parents (formed.2 s hs)
    (fun id hid => known id (contains_of_mem hs hid)) hfailure

theorem expanded_lowerable (method : Method) (formed : method.wellFormed decls = true)
    (known : ∀ id, method.contains id = true → within id)
    (h : (method.expand decls).failure = none) :
    (method.expanded decls).Lowerable decls within := by
  simp only [wellFormed, Stmt.allWellFormed_eq, Bool.and_eq_true, List.all_eq_true,
    decide_eq_true_eq] at formed
  obtain ⟨⟨⟨-, hparams⟩, hdistinct⟩, hbody⟩ := formed
  simp only [expand, Stmt.expandAll_eq_traverse, Progress.map] at h
  have expands := Progress.traverse_failure_eq_none.mp h
  refine ⟨known _ (by simp [contains, expanded, expand, Progress.map]), hparams, hdistinct, ?_⟩
  intro s hs
  simp only [expanded, expand, Stmt.expandAll_eq_traverse, Progress.map,
    Progress.traverse_value _ expands] at hs
  obtain ⟨original, horiginal, rfl⟩ := List.mem_map.mp hs
  exact original.expand_lowerable (hbody original horiginal)
    (fun id hid => known id (contains_of_mem horiginal hid)) (expands original horiginal)

end Method
end Expansion
end ContractLowering
