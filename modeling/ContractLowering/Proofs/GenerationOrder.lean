import ContractLowering.Proofs.Routines
import ContractLowering.Proofs.StatementDiscipline
import ContractLowering.Proofs.WellFormed

/-!
In which order an expression is visited, and what it fails with. An operator is looked up before its
operands are visited, left comes before right, and the arguments of a call come last to first. While
a right operand is visited, the value of the left one is held in a register, and `home` tells which
one that is. A node can be at fault for one reason at most, and lowering fails with the fault of the
first node that has one, unless the limit on registers stops it before.
-/

namespace ContractLowering

namespace Pool

/-- Neither live nor among the given registers. -/
def isSpare (pool : Pool) (held : List Register) (index : Nat) : Bool :=
  !pool.isLive ⟨index⟩ && ⟨index⟩ ∉ held

/-- An index behind all slots and all the given registers. -/
def behind (pool : Pool) (held : List Register) : Nat :=
  held.foldl (fun bound reg => bound + reg.index + 1) pool.slots.length

/-- The lowest register that is neither live nor among the given ones. -/
def spare (pool : Pool) (held : List Register) : Register :=
  ⟨(List.range (pool.behind held + 1)).findIdx (pool.isSpare held)⟩

theorem isSpare_iff (pool : Pool) (held : List Register) (reg : Register) :
    pool.isSpare held reg.index = true ↔ pool.isLive reg = false ∧ reg ∉ held := by
  simp [isSpare]

theorem foldl_index_bounds (held : List Register) (start : Nat) :
    start ≤ held.foldl (fun bound reg => bound + reg.index + 1) start ∧
      ∀ reg ∈ held, reg.index < held.foldl (fun bound reg => bound + reg.index + 1) start := by
  induction held generalizing start with
  | nil => simp
  | cons reg held ih =>
      obtain ⟨hstart, hheld⟩ := ih (start + reg.index + 1)
      rw [List.foldl_cons, List.forall_mem_cons]
      exact ⟨by omega, by omega, hheld⟩

theorem isSpare_behind (pool : Pool) (held : List Register) :
    pool.isSpare held (pool.behind held) = true := by
  obtain ⟨hslots, hheld⟩ := foldl_index_bounds held pool.slots.length
  have dead : pool.isLive ⟨pool.behind held⟩ = false := by
    rw [← Bool.not_eq_true]
    intro live
    exact Nat.not_lt.mpr hslots (pool.index_lt_of_isLive _ live)
  have apart : (⟨pool.behind held⟩ : Register) ∉ held := by
    intro member
    exact Nat.lt_irrefl _ (hheld _ member)
  exact (pool.isSpare_iff held ⟨pool.behind held⟩).mpr ⟨dead, apart⟩

theorem spare_free (pool : Pool) (held : List Register) :
    pool.isLive (pool.spare held) = false ∧ pool.spare held ∉ held := by
  have found : (List.range (pool.behind held + 1)).findIdx (pool.isSpare held) <
      (List.range (pool.behind held + 1)).length :=
    List.findIdx_lt_length_of_exists ⟨pool.behind held, by simp, pool.isSpare_behind held⟩
  have free := List.findIdx_getElem (w := found)
  rw [List.getElem_range] at free
  exact (pool.isSpare_iff held (pool.spare held)).mp free

theorem taken_below_spare {pool : Pool} {held : List Register} {reg : Register}
    (h : reg.index < (pool.spare held).index) : pool.isLive reg = true ∨ reg ∈ held := by
  have taken := List.not_of_lt_findIdx h
  rw [List.getElem_range] at taken
  simpa [isSpare, Decidable.or_iff_not_imp_left] using taken

end Pool

/-- Live is what was live before and what was taken since. -/
theorem Generator.Takes.isLive_eq {gen g : Generator} {held : List Register}
    (h : gen.Takes held g) :
    g.pool.isLive = fun reg => gen.pool.isLive reg || decide (reg ∈ held) := by
  funext reg
  rw [Bool.eq_iff_iff, h.isLive_iff, Bool.or_eq_true, decide_eq_true_eq]

theorem Generator.Takes.lowestFree {gen g : Generator} {held : List Register}
    (h : gen.Takes held g) : g.pool.lowestFree = gen.pool.spare held := by
  obtain ⟨dead, apart⟩ := gen.pool.spare_free held
  have le : g.pool.lowestFree.index ≤ (gen.pool.spare held).index := by
    refine Pool.lowestFree_le ?_
    rw [h.isLive_eq]
    simp [dead, apart]
  have ge : (gen.pool.spare held).index ≤ g.pool.lowestFree.index := by
    refine Nat.le_of_not_lt fun below => ?_
    have live := (h.isLive_iff _).mpr (Pool.taken_below_spare below)
    rw [g.pool.isLive_lowestFree] at live
    cases live
  exact Register.ext (Nat.le_antisymm le ge)

namespace Expr

open Generator

mutual

/-- The nodes in the order in which they are visited. -/
def nodes : Expr → List Expr
  | not s x => not s x :: x.nodes
  | binary s op left right => binary s op left right :: (left.nodes ++ right.nodes)
  | call s binding args => call s binding args :: argNodes args
  | lit s value kind => [lit s value kind]
  | placeholder s name => [placeholder s name]
  | var s id => [var s id]
  | const s id => [const s id]

/-- The last argument comes first. -/
def argNodes : List Expr → List Expr
  | [] => []
  | arg :: args => argNodes args ++ arg.nodes

end

/-- The register that the value ends up in, if besides the live registers these are held. -/
def home (pool : Pool) (held : List Register) : Expr → Register
  | not _ x => x.home pool held
  | binary _ _ left right =>
    let l := left.home pool held
    let r := right.home pool (l :: held)
    pool.spare (r :: l :: held)
  | call .. | lit .. | placeholder .. | var .. | const .. => pool.spare held

/-- A node that is visited, and the registers that hold left operands meanwhile. -/
structure Visit where
  held : List Register
  node : Expr

mutual

/-- The visits in order. The value of a left operand is held while the right one is visited. -/
def visits (pool : Pool) (held : List Register) : Expr → List Visit
  | not s x => ⟨held, not s x⟩ :: x.visits pool held
  | binary s op left right =>
    ⟨held, binary s op left right⟩ ::
      (left.visits pool held ++ right.visits pool (left.home pool held :: held))
  | call s binding args => ⟨held, call s binding args⟩ :: argVisits pool held args
  | lit s value kind => [⟨held, lit s value kind⟩]
  | placeholder s name => [⟨held, placeholder s name⟩]
  | var s id => [⟨held, var s id⟩]
  | const s id => [⟨held, const s id⟩]

def argVisits (pool : Pool) (held : List Register) : List Expr → List Visit
  | [] => []
  | arg :: args => argVisits pool held args ++ arg.visits pool held

end

/-- What is wrong with a node itself. A variable can be read from these registers only. -/
def fault? (decls : Declarations) (readable : Register → Bool) : Expr → Option Failure
  | binary s op _ _ =>
    if op.opcode?.isSome then none
    else some (.reported (.unsupportedOperator s.node op.symbol))
  | placeholder s name => some (.reported (.unexpandedPlaceholder s.node name))
  | var s id =>
    match decls.vars[id.index]? with
    | none => some (.unissuedVariable id)
    | some v =>
      if v.register.any readable then none
      else some (.reported (.uninitializedVariable s.toOrigin v.name))
  | const _ id => if decls.hasConstant id then none else some (.unissuedConstant id)
  | not .. | call .. | lit .. => none

/-- What is wrong with a node where it is visited: the live registers and those held can be read. -/
def Visit.fault? (decls : Declarations) (pool : Pool) (visit : Visit) : Option Failure :=
  visit.node.fault? decls fun reg => pool.isLive reg || decide (reg ∈ visit.held)

/-- Once the operands and the result have their registers, nothing about an operator can fail. -/
theorem operate_run {gen g : Generator} {l r reg : Register} (taken : gen.Takes [reg, r, l] g)
    (origin : Origin) (opcode : Opcode) :
    (do
      emit origin opcode [.reg l, .reg r, .reg reg]
      release r
      release l
      return reg : GenM Register) g =
        .ok reg (((g.extend [⟨opcode, [.reg l, .reg r, .reg reg], origin⟩]).drop r).drop l) := by
  have emitted := taken.trans (g.extend_takes [⟨opcode, [.reg l, .reg r, .reg reg], origin⟩])
  have dropped := emitted.drop [reg] [l]
  rw [bind_of_ok (emit_run ..), bind_of_ok (emitted.release (by simp)),
    bind_of_ok (dropped.release (by simp))]
  rfl

/-- An expression that is lowered has its value where `home` says. -/
theorem lower_home {decls : Declarations} (e : Expr) {gen g g' : Generator}
    {held : List Register} {reg : Register} (taken : gen.Takes held g)
    (h : e.lower decls g = .ok reg g') : reg = e.home gen.pool held := by
  induction e generalizing g g' held reg with
  | not s x ih =>
      obtain ⟨g₁, hx, -⟩ := lower_not_ok h
      exact ih taken hx
  | binary s op left right ihl ihr =>
      obtain ⟨opcode, l, g₁, r, g₂, -, hl, hr, rfl, -⟩ := lower_binary_ok h
      have taken₁ := taken.trans ((lower_takes decls left g).of_ok hl)
      have taken₂ := taken₁.trans ((lower_takes decls right g₁).of_ok hr)
      obtain rfl := ihl taken hl
      obtain rfl := ihr taken₁ hr
      exact taken₂.lowestFree
  | call s binding args _ =>
      obtain ⟨g₁, hargs, rfl, -⟩ := lower_call_ok h
      have passed := (lowerArgs_takes_none decls args g).of_ok hargs
      exact (taken.trans passed).lowestFree
  | lit s value kind =>
      obtain ⟨rfl, -⟩ := lower_lit_ok h
      exact taken.lowestFree
  | placeholder s name => cases h
  | var s id =>
      obtain ⟨v, source, -, -, -, rfl, -⟩ := lower_var_ok h
      exact taken.lowestFree
  | const s id =>
      obtain ⟨c, -, rfl, -⟩ := lower_const_ok h
      exact taken.lowestFree

/-- The run goes through and there is no fault, or it fails with the fault that comes first, or the
limit stops it. -/
def Surfaces {α : Type} (limit : Option Nat) (first : Option Failure) :
    EStateM.Result Failure Generator α → Prop :=
  Ends (fun _ _ => first = none) fun f _ =>
    first = some f ∨ ∃ origin bound, limit = some bound ∧
      f = .reported (.registerLimit origin bound)

section Surfaces

variable {α β : Type} {limit : Option Nat} {first second : Option Failure} {x : GenM α}
  {f : α → GenM β} {gen : Generator}

/-- Of two faults in sequence the earlier one counts. -/
theorem Surfaces.bind (h : Surfaces limit first (x gen))
    (k : ∀ a gen', x gen = .ok a gen' → Surfaces limit second (f a gen')) :
    Surfaces limit (first.or second) ((x >>= f) gen) := by
  cases hx : x gen with
  | ok a gen' =>
      rw [hx] at h
      have faultless : first = none := h
      rw [bind_of_ok hx, faultless, Option.none_or]
      exact k a gen' hx
  | error e gen' =>
      rw [hx] at h
      rw [bind_of_error hx]
      refine h.imp (fun found => ?_) id
      rw [found, Option.some_or]

/-- Nothing is at fault in what follows. -/
theorem Surfaces.andThen (h : Surfaces limit first (x gen))
    (k : ∀ a gen', x gen = .ok a gen' → Surfaces limit none (f a gen')) :
    Surfaces limit first ((x >>= f) gen) := by
  have both := h.bind k
  rwa [Option.or_none] at both

theorem allocTagged_surfaces (origin : Origin) (name : Option String)
    (hlimit : gen.pool.limit = limit) : Surfaces limit none (allocTagged origin name gen) := by
  cases reached : gen.pool.reachedLimit? with
  | none =>
      rw [allocTagged_of_room reached]
      rfl
  | some bound =>
      rw [allocTagged_of_limit reached]
      have set := (Option.filter_eq_some_iff.mp reached).1
      exact Or.inr ⟨origin, bound, hlimit.symm.trans set, rfl⟩

theorem alloc_surfaces (origin : Origin) (name : Option String)
    (hlimit : gen.pool.limit = limit) : Surfaces limit none (alloc origin name gen) :=
  allocTagged_surfaces origin _ hlimit

end Surfaces

section Faults

variable {decls : Declarations} {gen g : Generator} {held : List Register} {limit : Option Nat}

theorem limit_of_lower {e : Expr} {reg : Register} {g' : Generator}
    (h : e.lower decls g = .ok reg g') : g'.pool.limit = g.pool.limit :=
  ((lower_routine decls e).keeps (limit_stable g.pool.limit) rfl).of_ok h

theorem limit_of_lowerArgs {args : List Expr} {g' : Generator}
    (h : lowerArgs decls args g = .ok () g') : g'.pool.limit = g.pool.limit :=
  ((lowerArgs_routine decls fun a _ => lower_routine decls a).keeps
    (limit_stable g.pool.limit) rfl).of_ok h

theorem sourceRegister_of_live {origin : Origin} {id : VarId} {reg : Register}
    (bound : decls.boundTo? id = some reg) (live : g.pool.isLive reg = true) :
    sourceRegister decls origin id g = .ok reg g := by
  obtain ⟨v, hv, hreg⟩ := Option.bind_eq_some_iff.mp bound
  rw [sourceRegister, Declarations.getVariable_ok.mpr hv, bind_of_ok (ofExcept_ok v g), get_bind,
    hreg, Option.filter_some_pos live]
  rfl

theorem sourceRegister_surfaces (s : Site) (id : VarId) :
    Surfaces limit ((var s id).fault? decls g.pool.isLive)
      (sourceRegister decls s.toOrigin id g) := by
  rw [sourceRegister, fault?, Declarations.getVariable]
  cases decls.vars[id.index]? with
  | none => exact Or.inl rfl
  | some v =>
      rw [bind_of_ok (ofExcept_ok v g), get_bind]
      cases hsource : v.register.filter g.pool.isLive with
      | some reg =>
          obtain ⟨hreg, live⟩ := Option.filter_eq_some_iff.mp hsource
          simp only [hreg, Option.any_some, live, if_true]
          rfl
      | none =>
          have dead : v.register.any g.pool.isLive = false := by
            cases hreg : v.register with
            | none => rfl
            | some reg => simpa [hreg, Option.filter_some] using hsource
          simp only [dead]
          exact Or.inl rfl

theorem lowerArgs_surfaces {args : List Expr}
    (ih : ∀ arg ∈ args, ∀ g, gen.Takes held g → g.pool.limit = limit →
      Surfaces limit ((arg.visits gen.pool held).findSome? (Visit.fault? decls gen.pool))
        (arg.lower decls g))
    (taken : gen.Takes held g) (hlimit : g.pool.limit = limit) :
    Surfaces limit ((argVisits gen.pool held args).findSome? (Visit.fault? decls gen.pool))
      (lowerArgs decls args g) := by
  induction args with
  | nil => rfl
  | cons arg args ihargs =>
      simp only [lowerArgs, argVisits, List.findSome?_append]
      refine (ihargs fun a ha => ih a (List.mem_cons_of_mem _ ha)).bind ?_
      intro _ g₁ hargs
      have passed := (lowerArgs_takes_none decls args g).of_ok hargs
      have limit₁ := (limit_of_lowerArgs hargs).trans hlimit
      refine (ih arg List.mem_cons_self g₁ (taken.trans passed) limit₁).andThen ?_
      intro reg g₂ harg
      have pushed := ((lower_takes decls arg g₁).of_ok harg).trans
        (g₂.extend_takes [⟨.push, [.reg reg], arg.origin⟩])
      rw [bind_of_ok (emit_run ..), pushed.release (by simp)]
      rfl

/-- Lowering fails with the fault of the first node that has one, or because of the limit. -/
theorem lower_surfaces (e : Expr) (taken : gen.Takes held g) (hlimit : g.pool.limit = limit) :
    Surfaces limit ((e.visits gen.pool held).findSome? (Visit.fault? decls gen.pool))
      (e.lower decls g) := by
  induction e generalizing g held with
  | not s x ih =>
      simp only [lower]
      exact (ih taken hlimit).andThen fun _ _ _ => rfl
  | binary s op left right ihl ihr =>
      simp only [lower, visits, List.findSome?_cons, Visit.fault?, fault?]
      cases op.opcode? with
      | none => exact Or.inl rfl
      | some opcode =>
          simp only [Option.isSome_some, if_true, List.findSome?_append]
          refine (ihl taken hlimit).bind ?_
          intro l g₁ hl
          have taken₁ := (lower_takes decls left g).of_ok hl
          have limit₁ := (limit_of_lower hl).trans hlimit
          -- the right operand is visited while the left one is held in its home
          rw [← lower_home left taken hl]
          refine (ihr (taken.trans taken₁) limit₁).andThen ?_
          intro r g₂ hr
          have taken₂ := taken₁.trans ((lower_takes decls right g₁).of_ok hr)
          have limit₂ := (limit_of_lower hr).trans limit₁
          refine (alloc_surfaces s.toOrigin none limit₂).andThen ?_
          intro reg g₃ halloc
          have taken₃ := taken₂.trans ((alloc_ends s.toOrigin none g₂).of_ok halloc)
          rw [operate_run taken₃]
          rfl
  | call s binding args ih =>
      simp only [lower, visits, List.findSome?_cons, Visit.fault?, fault?]
      refine (lowerArgs_surfaces (fun arg harg g => ih arg harg) taken hlimit).andThen ?_
      intro _ g₁ hargs
      have limit₁ := (limit_of_lowerArgs hargs).trans hlimit
      exact (alloc_surfaces s.toOrigin none limit₁).andThen fun _ _ _ => rfl
  | lit s value kind =>
      simp only [lower]
      exact (alloc_surfaces s.toOrigin none hlimit).andThen fun _ _ _ => rfl
  | placeholder s name => exact Or.inl rfl
  | var s id =>
      simp only [lower, visits, List.findSome?_singleton, Visit.fault?]
      rw [← taken.isLive_eq]
      refine (sourceRegister_surfaces s id).andThen ?_
      intro source g₁ hsource
      obtain ⟨rfl, -⟩ := sourceRegister_ok hsource
      exact (alloc_surfaces s.toOrigin none hlimit).andThen fun _ _ _ => rfl
  | const s id =>
      simp only [lower, visits, List.findSome?_singleton, Visit.fault?, fault?]
      cases issued : decls.hasConstant id with
      | false =>
          have outside : decls.consts[id.index]? = none := by
            simpa [Declarations.hasConstant] using issued
          simp only [Declarations.getConstant, outside]
          exact Or.inl rfl
      | true =>
          obtain ⟨c, hc⟩ := Declarations.getConstant_of_has issued
          rw [hc, bind_of_ok (ofExcept_ok c g)]
          exact (allocTagged_surfaces s.toOrigin _ hlimit).andThen fun _ _ _ => rfl

theorem argVisits_nodes {pool : Pool} {args : List Expr}
    (ih : ∀ arg ∈ args, ∀ held, (arg.visits pool held).map Visit.node = arg.nodes)
    (held : List Register) : (argVisits pool held args).map Visit.node = argNodes args := by
  induction args with
  | nil => rfl
  | cons arg args ihargs =>
      rw [argVisits, List.map_append, ih arg List.mem_cons_self,
        ihargs fun a ha => ih a (List.mem_cons_of_mem _ ha), argNodes]

theorem visits_nodes (e : Expr) (pool : Pool) (held : List Register) :
    (e.visits pool held).map Visit.node = e.nodes := by
  induction e generalizing held with
  | not s x ih => simp only [visits, nodes, List.map_cons, ih]
  | binary s op left right ihl ihr =>
      simp only [visits, nodes, List.map_cons, List.map_append, ihl, ihr]
  | call s binding args ih =>
      simp only [visits, nodes, List.map_cons, argVisits_nodes ih]
  | lit s value kind => rfl
  | placeholder s name => rfl
  | var s id => rfl
  | const s id => rfl

theorem fault?_var_eq_none {readable : Register → Bool} {s : Site} {id : VarId} :
    (var s id).fault? decls readable = none ↔
      ∃ reg, decls.boundTo? id = some reg ∧ readable reg = true := by
  simp only [fault?, Declarations.boundTo?]
  cases decls.vars[id.index]? with
  | none => simp
  | some v => cases hreg : v.register <;> simp [hreg]

theorem fault?_congr {readable readable' : Register → Bool}
    (h : ∀ id reg, decls.boundTo? id = some reg → readable reg = readable' reg) (e : Expr) :
    e.fault? decls readable = e.fault? decls readable' := by
  cases e with
  | var s id =>
      have here := h id
      simp only [fault?]
      rw [Declarations.boundTo?] at here
      cases hv : decls.vars[id.index]? with
      | none => rfl
      | some v =>
          rw [hv, Option.bind_some] at here
          have same : v.register.any readable = v.register.any readable' := by
            cases hreg : v.register with
            | none => rfl
            | some reg => exact here reg hreg
          simp only [same]
  | not _ _ | binary _ _ _ _ | call _ _ _ | lit _ _ _ | placeholder _ _ | const _ _ => rfl

/-- Every node can be lowered. Variables are bound to registers that can be read. -/
structure Ready (decls : Declarations) (readable : Register → Bool) (e : Expr) : Prop where
  supported : ∀ s op left right, binary s op left right ∈ e.nodes → op.opcode?.isSome = true
  expanded : ∀ s name, placeholder s name ∉ e.nodes
  bound : ∀ s id, var s id ∈ e.nodes →
    ∃ reg, decls.boundTo? id = some reg ∧ readable reg = true
  declared : ∀ s id, const s id ∈ e.nodes → decls.hasConstant id = true

theorem ready_iff {readable : Register → Bool} {e : Expr} :
    e.Ready decls readable ↔ ∀ node ∈ e.nodes, node.fault? decls readable = none := by
  constructor
  · intro ready node hnode
    cases node with
    | binary s op left right => simp [fault?, ready.supported s op left right hnode]
    | placeholder s name => exact absurd hnode (ready.expanded s name)
    | var s id => exact fault?_var_eq_none.mpr (ready.bound s id hnode)
    | const s id => simp [fault?, ready.declared s id hnode]
    | not _ _ | call _ _ _ | lit _ _ _ => rfl
  · intro h
    refine ⟨?_, ?_, ?_, ?_⟩
    · intro s op left right hnode
      simpa [fault?, Option.isSome_iff_ne_none] using h _ hnode
    · intro s name hnode
      cases h _ hnode
    · intro s id hnode
      exact fault?_var_eq_none.mp (h _ hnode)
    · intro s id hnode
      simpa [fault?] using h _ hnode

instance (decls : Declarations) (readable : Register → Bool) (e : Expr) :
    Decidable (e.Ready decls readable) :=
  decidable_of_iff _ ready_iff.symm

/-- Parts of an expression are ready too, also if more registers can be read. -/
theorem Ready.part {readable readable' : Register → Bool} {e x : Expr}
    (h : e.Ready decls readable) (part : ∀ node ∈ x.nodes, node ∈ e.nodes)
    (more : ∀ reg, readable reg = true → readable' reg = true) : x.Ready decls readable' := by
  refine ⟨?_, ?_, ?_, ?_⟩
  · intro s op left right hnode
    exact h.supported s op left right (part _ hnode)
  · intro s name hnode
    exact h.expanded s name (part _ hnode)
  · intro s id hnode
    obtain ⟨reg, hreg, hreadable⟩ := h.bound s id (part _ hnode)
    exact ⟨reg, hreg, more reg hreadable⟩
  · intro s id hnode
    exact h.declared s id (part _ hnode)

theorem mem_argNodes {args : List Expr} {node : Expr} :
    node ∈ argNodes args ↔ ∃ arg ∈ args, node ∈ arg.nodes := by
  induction args with
  | nil => simp [argNodes]
  | cons arg args ih => simp [argNodes, ih, or_comm]

/-- As long as bound variables have live registers, the place of a visit does not matter. -/
theorem Visit.fault?_of_boundLive (live : Compilation.BoundLive ⟨decls, gen⟩) (visit : Visit) :
    visit.fault? decls gen.pool = visit.node.fault? decls fun _ => true := by
  refine fault?_congr (fun id reg hreg => ?_) visit.node
  simp [live id reg hreg]

/-- The diagnostics that a node itself can cause. -/
theorem fault?_reported {readable : Register → Bool} {e : Expr} {d : Diagnostic}
    (h : e.fault? decls readable = some (.reported d)) :
    (∃ node symbol, d = .unsupportedOperator node symbol) ∨
      (∃ node name, d = .unexpandedPlaceholder node name) ∨
        ∃ origin name, d = .uninitializedVariable origin name := by
  cases e with
  | binary s op left right =>
      simp only [fault?] at h
      split at h <;> cases h
      exact .inl ⟨_, _, rfl⟩
  | placeholder s name =>
      cases h
      exact .inr (.inl ⟨_, _, rfl⟩)
  | var s id =>
      simp only [fault?] at h
      split at h
      · cases h
      · split at h <;> cases h
        exact .inr (.inr ⟨_, _, rfl⟩)
  | const s id =>
      simp only [fault?] at h
      split at h <;> cases h
  | not _ _ | call _ _ _ | lit _ _ _ => cases h

theorem failure?_eq_first (unlimited : gen.pool.limit = none)
    (live : Compilation.BoundLive ⟨decls, gen⟩) (e : Expr) :
    failure? (e.lower decls gen) = e.nodes.findSome? (fault? decls fun _ => true) := by
  have surfaces : Surfaces none _ (e.lower decls gen) :=
    lower_surfaces e (Takes.refl gen) unlimited
  rw [funext (Visit.fault?_of_boundLive live)] at surfaces
  rw [← visits_nodes e gen.pool [], List.findSome?_map]
  cases hlower : e.lower decls gen with
  | ok reg gen' =>
      rw [hlower] at surfaces
      exact Eq.symm surfaces
  | error f gen' =>
      rw [hlower] at surfaces
      cases surfaces with
      | inl first => exact Eq.symm first
      | inr stopped =>
          obtain ⟨origin, bound, hbound, -⟩ := stopped
          cases hbound

/-- Without a limit and with live registers for all bound variables, an expression is lowered if and
only if each of its nodes can be. Otherwise the fault of the first node that has one is reported,
and registers are never the reason. -/
theorem lower_fails_first (unlimited : gen.pool.limit = none)
    (live : Compilation.BoundLive ⟨decls, gen⟩) (e : Expr) :
    ((∃ reg gen', e.lower decls gen = .ok reg gen') ↔ e.Ready decls fun _ => true) ∧
      (∀ f, (∃ gen', e.lower decls gen = .error f gen') ↔
        e.nodes.findSome? (fault? decls fun _ => true) = some f) ∧
      ∀ f gen', e.lower decls gen = .error f gen' →
        (∀ reg, f ≠ .reported (.doubleRelease reg)) ∧
        (∀ name, f ≠ .reported (.registerRebound name)) ∧
        ∀ origin limit, f ≠ .reported (.registerLimit origin limit) := by
  have first := failure?_eq_first unlimited live e
  have fails : ∀ f, (∃ gen', e.lower decls gen = .error f gen') ↔
      e.nodes.findSome? (fault? decls fun _ => true) = some f := by
    intro f
    rw [← first]
    cases e.lower decls gen <;> simp [failure?]
  refine ⟨?_, fails, ?_⟩
  · rw [← failure?_eq_none, first, List.findSome?_eq_none_iff, ready_iff]
  · intro f gen' hlower
    obtain ⟨node, -, hfault⟩ := List.exists_of_findSome?_eq_some ((fails f).mp ⟨gen', hlower⟩)
    refine ⟨?_, ?_, ?_⟩
    · rintro reg rfl
      simpa using fault?_reported hfault
    · rintro name rfl
      simpa using fault?_reported hfault
    · rintro origin limit rfl
      simpa using fault?_reported hfault

end Faults

namespace Faulty

def site (node : UInt32) (line : Nat) : Site := ⟨⟨⟨node⟩, line⟩, .root⟩

def decls : Declarations where
  vars := [⟨"x", .number, some ⟨1⟩⟩, ⟨"y", .number, none⟩]

/-- One register is live, and the variable that has a value is bound to it. -/
def gen : Generator where
  pool := { slots := [none, some ⟨some "x", (site 1 1).toOrigin⟩], peak := 2 }

/-- Both arguments are at fault, and so are both operands of the conjunction in the last one. -/
def logged : Expr :=
  .call (site 2 5) (.toBuiltin "log" "log" .void)
    [.placeholder (site 3 5) "THIS_SYMBOL",
      .binary (site 4 6) .add (.var (site 5 6) ⟨0⟩)
        (.binary (site 6 7) .and (.var (site 7 7) ⟨1⟩) (.const (site 8 7) ⟨0⟩))]

end Faulty

open Faulty in
/-- The conjunction is visited before its operands, and the last argument before the first. -/
theorem lower_fails_first_conjunction :
    gen.pool.limit = none ∧ Compilation.BoundLive ⟨decls, gen⟩ ∧
      ∃ gen',
        logged.lower decls gen = .error (.reported (.unsupportedOperator ⟨6⟩ "and")) gen' := by
  have live : Compilation.BoundLive ⟨decls, gen⟩ := by decide
  obtain ⟨-, fails, -⟩ := lower_fails_first rfl live logged
  exact ⟨rfl, live, (fails _).mpr rfl⟩

end Expr
end ContractLowering
