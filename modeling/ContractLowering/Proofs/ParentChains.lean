import ContractLowering.Proofs.ScopeParents
import Mathlib.Data.Fintype.Pigeonhole

/-!
How far the look-up of a module has to go. A look at a scope gives an answer or leads on to the
parent, and nothing in a table keeps the parents from leading in a circle. `LooksUp` is the search
without a bound on the number of looks. A search that ends comes to no scope twice, so it ends within
as many steps as there are scopes, and the bounded search finds its answer.
-/

namespace ContractLowering
namespace Declarations

/-- The module that a scope itself is the scope of. -/
def ownModule? (decls : Declarations) (id : ScopeId) : Option ModuleInfo :=
  decls.scopes[id.index]?.bind Scope.info

def parent? (decls : Declarations) (id : ScopeId) : Option ScopeId :=
  decls.scopes[id.index]?.bind Scope.parent

/-- Where so many steps from a scope to its parent lead. -/
def ancestor? (decls : Declarations) : Nat → ScopeId → Option ScopeId
  | 0, id => some id
  | steps + 1, id => (decls.parent? id).bind (decls.ancestor? steps)

/-- The search need not go on from here. -/
inductive Settles (decls : Declarations) (id : ScopeId) : Except Failure (Option ModuleInfo) → Prop
  | found {info : ModuleInfo} (own : decls.ownModule? id = some info) :
      Settles decls id (.ok (some info))
  | outermost (issued : id.index < decls.scopes.length) (plain : decls.ownModule? id = none)
      (top : decls.parent? id = none) : Settles decls id (.ok none)
  | unissued (outside : decls.scopes.length ≤ id.index) :
      Settles decls id (.error (.unissuedScope id))

/-- The search from a scope ends with this answer, after however many looks. -/
inductive LooksUp (decls : Declarations) : ScopeId → Except Failure (Option ModuleInfo) → Prop
  | here {id : ScopeId} {answer : Except Failure (Option ModuleInfo)}
      (settles : decls.Settles id answer) : LooksUp decls id answer
  | above {id parent : ScopeId} {answer : Except Failure (Option ModuleInfo)}
      (plain : decls.ownModule? id = none) (up : decls.parent? id = some parent)
      (later : LooksUp decls parent answer) : LooksUp decls id answer

/-- The chain of parents reaches a scope that settles the search after so many steps, and none
before it does. -/
structure SettlesAfter (decls : Declarations) (steps : Nat) (id : ScopeId)
    (answer : Except Failure (Option ModuleInfo)) : Prop where
  reached : ∃ last, decls.ancestor? steps id = some last ∧ decls.Settles last answer
  first : ∀ earlier < steps, ∃ scope parent, decls.ancestor? earlier id = some scope ∧
    decls.ownModule? scope = none ∧ decls.parent? scope = some parent

/-- The nearest scope that has a module, from the scope itself upwards, has this one. -/
def NearestModule (decls : Declarations) (id : ScopeId) (info : ModuleInfo) : Prop :=
  ∃ steps last, decls.ancestor? steps id = some last ∧ decls.ownModule? last = some info ∧
    ∀ earlier < steps, ∀ scope, decls.ancestor? earlier id = some scope →
      decls.ownModule? scope = none

section Chains

variable {decls : Declarations} {id parent : ScopeId}
  {answer : Except Failure (Option ModuleInfo)}

theorem index_lt_of_parent? (up : decls.parent? id = some parent) :
    id.index < decls.scopes.length := by
  obtain ⟨scope, at_id, -⟩ := Option.bind_eq_some_iff.mp up
  exact (List.getElem?_eq_some_iff.mp at_id).1

theorem settles_or_above (decls : Declarations) (id : ScopeId) :
    (∃ answer, decls.Settles id answer) ∨
      decls.ownModule? id = none ∧ ∃ parent, decls.parent? id = some parent := by
  by_cases issued : id.index < decls.scopes.length
  · cases plain : decls.ownModule? id with
    | some info => exact Or.inl ⟨_, .found plain⟩
    | none =>
        cases up : decls.parent? id with
        | none => exact Or.inl ⟨_, .outermost issued plain up⟩
        | some parent => exact Or.inr ⟨rfl, parent, rfl⟩
  · exact Or.inl ⟨_, .unissued (Nat.le_of_not_lt issued)⟩

/-- No scope both settles the search and leads on. -/
theorem Settles.not_above (h : decls.Settles id answer) (plain : decls.ownModule? id = none) :
    decls.parent? id ≠ some parent := by
  intro up
  cases h with
  | found own => simp [plain] at own
  | outermost _ _ top => simp [top] at up
  | unissued outside =>
      have := index_lt_of_parent? up
      omega

theorem ancestor?_add (decls : Declarations) (m n : Nat) (id : ScopeId) :
    decls.ancestor? (m + n) id = (decls.ancestor? m id).bind (decls.ancestor? n) := by
  induction m generalizing id with
  | zero => simp [ancestor?]
  | succ m ih => simp only [Nat.succ_add, ancestor?, Option.bind_assoc, ih]

section Looks

theorem moduleWithin_of_settles (h : decls.Settles id answer) (looks : Nat) :
    decls.moduleWithin (looks + 1) id = answer := by
  rw [moduleWithin, getScope]
  cases h with
  | found own =>
      obtain ⟨⟨name, parent, info⟩, at_id, rfl⟩ := Option.bind_eq_some_iff.mp own
      rw [at_id]
  | outermost issued plain top =>
      rw [ownModule?, List.getElem?_eq_getElem issued, Option.bind_some] at plain
      rw [parent?, List.getElem?_eq_getElem issued, Option.bind_some] at top
      rw [List.getElem?_eq_getElem issued]
      cases at_id : decls.scopes[id.index] with
      | mk name parent info =>
          rw [at_id] at plain top
          cases plain
          cases top
          rfl
  | unissued outside => rw [List.getElem?_eq_none outside]

theorem moduleWithin_above (plain : decls.ownModule? id = none)
    (up : decls.parent? id = some parent) (looks : Nat) :
    decls.moduleWithin (looks + 1) id = decls.moduleWithin looks parent := by
  obtain ⟨⟨name, up, info⟩, at_id, rfl⟩ := Option.bind_eq_some_iff.mp up
  rw [ownModule?, at_id] at plain
  cases plain
  rw [moduleWithin, getScope, at_id]

/-- A bounded search gives up, or it finds what the unbounded one does. -/
theorem moduleWithin_looksUp (looks : Nat) (id : ScopeId) :
    decls.moduleWithin looks id = .error .endlessScopes ∨
      decls.LooksUp id (decls.moduleWithin looks id) := by
  induction looks generalizing id with
  | zero => exact Or.inl rfl
  | succ looks ih =>
      rcases settles_or_above decls id with ⟨answer, settles⟩ | ⟨plain, parent, up⟩
      · rw [moduleWithin_of_settles settles]
        exact Or.inr (.here settles)
      · rw [moduleWithin_above plain up]
        exact (ih parent).imp_right fun later => .above plain up later

end Looks

theorem SettlesAfter.zero (h : decls.Settles id answer) : decls.SettlesAfter 0 id answer := by
  refine ⟨⟨id, rfl, h⟩, ?_⟩
  intro earlier before
  omega

theorem SettlesAfter.succ {steps : Nat} (plain : decls.ownModule? id = none)
    (up : decls.parent? id = some parent) (h : decls.SettlesAfter steps parent answer) :
    decls.SettlesAfter (steps + 1) id answer := by
  have shift (n : Nat) : decls.ancestor? (n + 1) id = decls.ancestor? n parent := by
    rw [ancestor?, up, Option.bind_some]
  refine ⟨?_, ?_⟩
  · rw [shift]
    exact h.reached
  · intro earlier before
    cases earlier with
    | zero => exact ⟨id, parent, rfl, plain, up⟩
    | succ earlier =>
        rw [shift]
        exact h.first earlier (by omega)

theorem LooksUp.settlesAfter (h : decls.LooksUp id answer) :
    ∃ steps, decls.SettlesAfter steps id answer := by
  induction h with
  | here settles => exact ⟨0, .zero settles⟩
  | above plain up _ ih =>
      obtain ⟨steps, later⟩ := ih
      exact ⟨steps + 1, later.succ plain up⟩

/-- The search ends if the chain of parents ever reaches a scope that settles it. -/
theorem exists_looksUp_of_reached {steps : Nat} {last : ScopeId}
    (reached : decls.ancestor? steps id = some last) (settles : decls.Settles last answer) :
    ∃ answer, decls.LooksUp id answer := by
  induction steps generalizing id with
  | zero =>
      cases reached
      exact ⟨answer, .here settles⟩
  | succ steps ih =>
      rcases settles_or_above decls id with ⟨sooner, here⟩ | ⟨plain, parent, up⟩
      · exact ⟨sooner, .here here⟩
      · rw [ancestor?, up, Option.bind_some] at reached
        obtain ⟨answer, later⟩ := ih reached
        exact ⟨answer, .above plain up later⟩

/-- Among more scopes than there are in the table, two are the same. -/
theorem SettlesAfter.exists_repeated {steps : Nat} (h : decls.SettlesAfter steps id answer)
    (long : decls.scopes.length < steps) :
    ∃ i j scope, i < j ∧ j < steps ∧ decls.ancestor? i id = some scope ∧
      decls.ancestor? j id = some scope := by
  have issued (k : Fin steps) : ∃ place : Fin decls.scopes.length,
      decls.ancestor? k id = some ⟨place⟩ := by
    obtain ⟨scope, parent, reached, -, up⟩ := h.first k k.isLt
    exact ⟨⟨scope.index, index_lt_of_parent? up⟩, reached⟩
  choose place reached using issued
  obtain ⟨i, j, apart, same⟩ := Fintype.exists_ne_map_eq_of_card_lt place (by simpa using long)
  have again := reached j
  rw [← same] at again
  rcases Nat.lt_or_gt_of_ne (Fin.val_ne_of_ne apart) with before | after
  · exact ⟨i, j, _, before, j.isLt, reached i, again⟩
  · exact ⟨j, i, _, after, i.isLt, again, reached i⟩

/-- A scope that came twice would lead to the end a second time, and sooner. -/
theorem SettlesAfter.steps_le {steps : Nat} (h : decls.SettlesAfter steps id answer) :
    steps ≤ decls.scopes.length := by
  apply Nat.le_of_not_lt
  intro long
  obtain ⟨i, j, scope, before, inside, first, second⟩ := h.exists_repeated long
  obtain ⟨last, reached, settles⟩ := h.reached
  have rest : decls.ancestor? (steps - j) scope = some last := by
    have whole := decls.ancestor?_add j (steps - j) id
    rwa [Nat.add_sub_cancel' (Nat.le_of_lt inside), second, Option.bind_some, reached,
      eq_comm] at whole
  have sooner : decls.ancestor? (i + (steps - j)) id = some last := by
    rw [ancestor?_add, first, Option.bind_some, rest]
  obtain ⟨other, parent, reached', plain, up⟩ := h.first (i + (steps - j)) (by omega)
  obtain rfl : last = other := Option.some.inj (sooner.symm.trans reached')
  exact settles.not_above plain up

theorem SettlesAfter.of_succ {steps : Nat} (h : decls.SettlesAfter (steps + 1) id answer) :
    ∃ parent, decls.ownModule? id = none ∧ decls.parent? id = some parent ∧
      decls.SettlesAfter steps parent answer := by
  obtain ⟨scope, parent, start, plain, up⟩ := h.first 0 (Nat.succ_pos steps)
  obtain rfl : id = scope := Option.some.inj start
  have shift (n : Nat) : decls.ancestor? n parent = decls.ancestor? (n + 1) id := by
    rw [ancestor?, up, Option.bind_some]
  refine ⟨parent, plain, up, ?_, ?_⟩
  · rw [shift]
    exact h.reached
  · intro earlier before
    rw [shift]
    exact h.first (earlier + 1) (by omega)

theorem SettlesAfter.settles_of_zero (h : decls.SettlesAfter 0 id answer) :
    decls.Settles id answer := by
  obtain ⟨last, start, settles⟩ := h.reached
  obtain rfl : id = last := Option.some.inj start
  exact settles

theorem SettlesAfter.looksUp {steps : Nat} (h : decls.SettlesAfter steps id answer) :
    decls.LooksUp id answer := by
  induction steps generalizing id with
  | zero => exact .here h.settles_of_zero
  | succ steps ih =>
      obtain ⟨parent, plain, up, later⟩ := h.of_succ
      exact .above plain up (ih later)

/-- One look more than there are steps is enough. -/
theorem SettlesAfter.moduleWithin {steps looks : Nat} (h : decls.SettlesAfter steps id answer)
    (enough : steps < looks) : decls.moduleWithin looks id = answer := by
  induction steps generalizing id looks with
  | zero =>
      cases looks with
      | zero => omega
      | succ looks => exact moduleWithin_of_settles h.settles_of_zero looks
  | succ steps ih =>
      cases looks with
      | zero => omega
      | succ looks =>
          obtain ⟨parent, plain, up, later⟩ := h.of_succ
          rw [moduleWithin_above plain up]
          exact ih later (by omega)

theorem LooksUp.ne_endless (h : decls.LooksUp id answer) : answer ≠ .error .endlessScopes := by
  induction h with
  | here settles => cases settles <;> simp
  | above _ _ _ ih => exact ih

/-- The bounded search finds the answer of the unbounded one, and reports that there is none. -/
theorem looksUp_iff : decls.LooksUp id answer ↔
    decls.enclosingModule id = answer ∧ answer ≠ .error .endlessScopes := by
  constructor
  · intro h
    obtain ⟨steps, settles⟩ := h.settlesAfter
    exact ⟨settles.moduleWithin (Nat.lt_succ_of_le settles.steps_le), h.ne_endless⟩
  · rintro ⟨rfl, ended⟩
    exact (moduleWithin_looksUp _ id).resolve_left ended

theorem exists_settles_iff : (∃ answer, decls.Settles id answer) ↔
    (∃ info, decls.ownModule? id = some info) ∨
      (id.index < decls.scopes.length ∧ decls.parent? id = none) ∨
        decls.scopes.length ≤ id.index := by
  constructor
  · rintro ⟨answer, settles⟩
    cases settles with
    | found own => exact Or.inl ⟨_, own⟩
    | outermost issued _ top => exact Or.inr (Or.inl ⟨issued, top⟩)
    | unissued outside => exact Or.inr (Or.inr outside)
  · rintro (⟨info, own⟩ | ⟨issued, top⟩ | outside)
    · exact ⟨_, .found own⟩
    · cases plain : decls.ownModule? id with
      | some info => exact ⟨_, .found plain⟩
      | none => exact ⟨_, .outermost issued plain top⟩
    · exact ⟨_, .unissued outside⟩

theorem LooksUp.nearestModule {info : ModuleInfo} (h : decls.LooksUp id (.ok (some info))) :
    decls.NearestModule id info := by
  obtain ⟨steps, ⟨last, reached, settles⟩, first⟩ := h.settlesAfter
  cases settles with
  | found own =>
      refine ⟨steps, last, reached, own, ?_⟩
      intro earlier before scope reached'
      obtain ⟨other, parent, reached'', plain, -⟩ := first earlier before
      obtain rfl : scope = other := Option.some.inj (reached'.symm.trans reached'')
      exact plain

/-- On the way to the nearest module there is a parent to go on to. -/
theorem NearestModule.looksUp {info : ModuleInfo} (h : decls.NearestModule id info) :
    decls.LooksUp id (.ok (some info)) := by
  obtain ⟨steps, last, reached, own, plain⟩ := h
  have settles : decls.SettlesAfter steps id (.ok (some info)) := by
    refine ⟨⟨last, reached, .found own⟩, ?_⟩
    intro earlier before
    obtain ⟨rest, rfl⟩ := Nat.exists_eq_add_of_lt before
    rw [Nat.add_assoc, ancestor?_add] at reached
    obtain ⟨scope, here, onward⟩ := Option.bind_eq_some_iff.mp reached
    obtain ⟨parent, up, -⟩ := Option.bind_eq_some_iff.mp onward
    exact ⟨scope, parent, here, plain earlier before scope here, up⟩
  exact settles.looksUp

/-- If every scope comes behind its parent, the nearest module is found. -/
theorem enclosingModule_nearest (parents : decls.ParentsFirst)
    (issued : id.index < decls.scopes.length) :
    ∃ owner, decls.enclosingModule id = .ok owner ∧
      ∀ info, owner = some info ↔ decls.NearestModule id info := by
  obtain ⟨owner, found⟩ := enclosingModule_of_parentsFirst parents issued
  refine ⟨owner, found, fun info => ⟨?_, ?_⟩⟩
  · rintro rfl
    have ends : decls.LooksUp id (.ok (some info)) := looksUp_iff.mpr ⟨found, by simp⟩
    exact ends.nearestModule
  · intro nearest
    have same := (looksUp_iff.mp nearest.looksUp).1
    rw [found] at same
    exact Except.ok.inj same

/-- The search for the module of a scope ends if and only if the chain of parents comes, within as
many steps as there are scopes, to a scope with a module, to one without a parent or to a number that
was never handed out. The first of these gives the answer. If every scope comes behind its parent,
the search ends, and the answer is the module of the nearest scope that has one. -/
theorem search_ends_within_scopes (decls : Declarations) (id : ScopeId) :
    ((∃ answer, decls.LooksUp id answer) ↔
      ∃ steps ≤ decls.scopes.length, ∃ last, decls.ancestor? steps id = some last ∧
        ((∃ info, decls.ownModule? last = some info) ∨
          (last.index < decls.scopes.length ∧ decls.parent? last = none) ∨
            decls.scopes.length ≤ last.index)) ∧
      (∀ answer, decls.LooksUp id answer ↔
        ∃ steps ≤ decls.scopes.length, decls.SettlesAfter steps id answer) ∧
      (∀ answer, decls.LooksUp id answer ↔
        decls.enclosingModule id = answer ∧ answer ≠ .error .endlessScopes) ∧
      (decls.ParentsFirst → id.index < decls.scopes.length →
        ∃ owner, decls.LooksUp id (.ok owner) ∧ decls.enclosingModule id = .ok owner ∧
          ∀ info, owner = some info ↔ decls.NearestModule id info) := by
  refine ⟨⟨?_, ?_⟩, fun answer => ⟨?_, ?_⟩, fun _ => looksUp_iff, ?_⟩
  · rintro ⟨answer, h⟩
    obtain ⟨steps, settles⟩ := h.settlesAfter
    obtain ⟨last, reached, here⟩ := settles.reached
    exact ⟨steps, settles.steps_le, last, reached, exists_settles_iff.mp ⟨answer, here⟩⟩
  · rintro ⟨steps, -, last, reached, stop⟩
    obtain ⟨answer, settles⟩ := exists_settles_iff.mpr stop
    exact exists_looksUp_of_reached reached settles
  · intro h
    obtain ⟨steps, settles⟩ := h.settlesAfter
    exact ⟨steps, settles.steps_le, settles⟩
  · rintro ⟨steps, -, settles⟩
    exact settles.looksUp
  · intro parents issued
    obtain ⟨owner, found, nearest⟩ := enclosingModule_nearest parents issued
    exact ⟨owner, looksUp_iff.mpr ⟨found, by simp⟩, found, nearest⟩

end Chains

namespace Tangled

/-- A contract, a method in it and a block in the method. -/
def orderly : Declarations :=
  ((({} : Declarations).addModule (.contract "bank")).2.addScope "deposit" ⟨1⟩).2.addScope "block" ⟨2⟩
    |>.2

/-- Two more scopes that are each other's parents, and one whose parent is never added. -/
def decls : Declarations :=
  ((orderly.addScope "hen" ⟨5⟩).2.addScope "egg" ⟨4⟩).2.addScope "orphan" ⟨9⟩ |>.2

end Tangled

open Tangled in
theorem search_ends_within_scopes_tangled :
    orderly.ParentsFirst ∧ orderly.NearestModule ⟨3⟩ (.contract "bank") ∧
      decls.LooksUp ⟨6⟩ (.error (.unissuedScope ⟨9⟩)) ∧ ¬ ∃ answer, decls.LooksUp ⟨4⟩ answer := by
  have parents : orderly.ParentsFirst := by decide
  refine ⟨parents, ?_, ?_, ?_⟩
  · obtain ⟨owner, -, found, nearest⟩ :=
      (search_ends_within_scopes orderly ⟨3⟩).2.2.2 parents (by decide)
    exact (nearest _).mp (Except.ok.inj found).symm
  · exact ((search_ends_within_scopes decls ⟨6⟩).2.2.1 _).mpr ⟨rfl, by simp⟩
  · rintro ⟨answer, h⟩
    obtain ⟨found, ended⟩ := ((search_ends_within_scopes decls ⟨4⟩).2.2.1 answer).mp h
    exact ended found.symm

end Declarations
end ContractLowering
