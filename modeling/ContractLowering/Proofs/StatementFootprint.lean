import ContractLowering.Proofs.FailedCompilations

/-!
What a statement leaves behind. Of all the registers that it takes, those stay live that it bound a
variable to, and the variables that it binds are the targets of its assignments, at any depth, that
had no register before. A variable that has one keeps it, however often it is assigned to.
-/

namespace ContractLowering

/-- The variable had no register and has this one now. -/
def Compilation.Acquires (c c' : Compilation) (id : VarId) (reg : Register) : Prop :=
  c.decls.boundTo? id = none ∧ c'.decls.boundTo? id = some reg

instance (c c' : Compilation) (id : VarId) (reg : Register) : Decidable (c.Acquires c' id reg) :=
  inferInstanceAs (Decidable (_ ∧ _))

namespace Compilation.Binds

variable {c c' : Compilation} {new : List (VarId × Register)}

theorem acquires_iff (h : Binds c new c') {id : VarId} {reg : Register} :
    c.Acquires c' id reg ↔ (id, reg) ∈ new := by
  rw [Acquires, h.bound]
  constructor
  · rintro ⟨free, old | gained⟩
    · rw [free] at old
      cases old
    · exact gained
  · intro gained
    exact ⟨h.unbound (id, reg) gained, Or.inr gained⟩

theorem acquires_free (h : Binds c new c') {id : VarId} {reg : Register}
    (gained : c.Acquires c' id reg) : c.gen.pool.isLive reg = false := by
  have taken : reg ∈ new.map Prod.snd := List.mem_map_of_mem (h.acquires_iff.mp gained)
  exact (c.gen.pool.isLive_eq_false_iff reg).mpr (h.takes.fresh reg taken)

theorem acquires_apart (h : Binds c new c') {id id' : VarId} {reg : Register}
    (gained : c.Acquires c' id reg) (gained' : c.Acquires c' id' reg) : id = id' := by
  have same := List.inj_on_of_nodup_map h.takes.distinct (h.acquires_iff.mp gained)
    (h.acquires_iff.mp gained') rfl
  exact congrArg Prod.fst same

theorem isLive_iff (h : Binds c new c') (reg : Register) :
    c'.gen.pool.isLive reg = true ↔
      c.gen.pool.isLive reg = true ∨ ∃ id, c.Acquires c' id reg := by
  simp only [h.takes.isLive_iff, List.mem_map, Prod.exists, exists_eq_right, h.acquires_iff]

end Compilation.Binds

namespace Stmt

open Compilation

mutual

/-- The variables that are assigned to in the statement, at any depth. -/
def targets : Stmt → List VarId
  | assign _ target _ => [target]
  | block _ body => allTargets body
  | expr .. | ret .. => []

def allTargets : List Stmt → List VarId
  | [] => []
  | s :: ss => s.targets ++ allTargets ss

end

theorem bindings_allStages {ss : List Stmt} (ih : ∀ s ∈ ss, Stage.bindings s.stages = s.targets) :
    Stage.bindings (allStages ss) = allTargets ss := by
  induction ss with
  | nil => rfl
  | cons s ss ihss =>
      rw [allStages, Stage.bindings_append, ih s List.mem_cons_self,
        ihss fun t ht => ih t (List.mem_cons_of_mem _ ht), allTargets]

theorem bindings_stages (s : Stmt) : Stage.bindings s.stages = s.targets := by
  induction s with
  | expr origin x => rfl
  | assign origin target value => rfl
  | ret origin value => rfl
  | block origin body ih =>
      simp only [stages, targets]
      exact bindings_allStages ih

/-- Bound after a statement is what was bound before it, and what it assigns to. -/
theorem lower_adds (s : Stmt) {c c' : Compilation} (h : s.lower c = .ok () c') :
    Adds c s.targets c' := by
  rw [lower_eq_runAll] at h
  rw [← bindings_stages]
  exact Stage.runAll_ok s.stages_exact h

/-- A statement gives a register to each of its targets that has none, and to no other variable. The
registers are new and no two of them the same, and apart from them the same ones are live as before. -/
theorem lower_leaves_targets (s : Stmt) {c c' : Compilation} (h : s.lower c = .ok () c') :
    (∀ id reg, c.decls.boundTo? id = some reg → c'.decls.boundTo? id = some reg) ∧
      (∀ id, (∃ reg, c.Acquires c' id reg) ↔ id ∈ s.targets ∧ c.decls.boundTo? id = none) ∧
      (∀ id id' reg, c.Acquires c' id reg → c.Acquires c' id' reg → id = id') ∧
      (∀ id reg, c.Acquires c' id reg → c.gen.pool.isLive reg = false) ∧
      ∀ reg, c'.gen.pool.isLive reg = true ↔
        c.gen.pool.isLive reg = true ∨ ∃ id, c.Acquires c' id reg := by
  obtain ⟨new, binds⟩ := s.lower_binds h
  have added := s.lower_adds h
  refine ⟨fun id reg old => (binds.bound id reg).mpr (Or.inl old), ?_,
    fun id id' reg => binds.acquires_apart, fun id reg => binds.acquires_free, binds.isLive_iff⟩
  intro id
  have bound := added.bound id
  rw [Declarations.IsBound, Declarations.IsBound, Option.isSome_iff_exists] at bound
  constructor
  · rintro ⟨reg, free, gained⟩
    have either := bound.mp ⟨reg, gained⟩
    rw [free] at either
    exact ⟨either.resolve_left Bool.false_ne_true, free⟩
  · rintro ⟨target, free⟩
    obtain ⟨reg, gained⟩ := bound.mpr (Or.inr target)
    exact ⟨reg, free, gained⟩

namespace Layered

def site : Site := ⟨⟨⟨1⟩, 1⟩, .root⟩

/-- The first variable has a live register, the last one a register that was given back, and the two
between them have none. -/
def outer : Compilation where
  decls := { vars := [⟨"x", .number, some ⟨1⟩⟩, ⟨"y", .number, none⟩, ⟨"z", .number, none⟩,
    ⟨"w", .number, some ⟨5⟩⟩] }
  gen := { pool := { slots := [none, some ⟨some "x", site.toOrigin⟩], peak := 2 } }

/-- Assigns to all of the variables, to one of them twice and inside of a block. -/
def body : Stmt :=
  .block site.toOrigin
    [.assign site.toOrigin ⟨1⟩ (.binary site .add (.var site ⟨0⟩) (.lit site "1" .number)),
      .block site.toOrigin [.assign site.toOrigin ⟨2⟩ (.var site ⟨1⟩),
        .assign site.toOrigin ⟨1⟩ (.lit site "2" .number)],
      .assign site.toOrigin ⟨3⟩ (.lit site "3" .number), .assign site.toOrigin ⟨0⟩ (.var site ⟨2⟩),
      .ret site.toOrigin (some (.var site ⟨1⟩))]

end Layered

open Layered in
/-- Two variables get registers, around the one that is live, and nothing else stays. -/
theorem lower_leaves_targets_layered :
    ∃ after, body.lower outer = .ok () after ∧ body.targets = [⟨1⟩, ⟨2⟩, ⟨1⟩, ⟨3⟩, ⟨0⟩] ∧
      outer.Acquires after ⟨1⟩ ⟨0⟩ ∧ outer.Acquires after ⟨2⟩ ⟨3⟩ ∧
      after.decls.boundTo? ⟨0⟩ = some ⟨1⟩ ∧ after.decls.boundTo? ⟨3⟩ = some ⟨5⟩ ∧
      outer.gen.pool.isLive ⟨3⟩ = false ∧ after.gen.pool.isLive ⟨3⟩ = true ∧
      after.gen.pool.liveRegisters = [⟨0⟩, ⟨1⟩, ⟨3⟩] := by
  obtain ⟨_, after, lowers, first, second, live⟩ : ∃ done after, body.lower outer = .ok done after ∧
      outer.Acquires after ⟨1⟩ ⟨0⟩ ∧ outer.Acquires after ⟨2⟩ ⟨3⟩ ∧
      after.gen.pool.liveRegisters = [⟨0⟩, ⟨1⟩, ⟨3⟩] := by
    apply Ends.succeeds
    decide +kernel
  obtain ⟨keeps, -, -, free, isLive⟩ := lower_leaves_targets body lowers
  exact ⟨after, lowers, rfl, first, second, keeps _ _ rfl, keeps _ _ rfl, free _ _ second,
    (isLive _).mpr (Or.inr ⟨_, second⟩), live⟩

end Stmt
end ContractLowering
