import ContractLowering.Proofs.GenerationOrder
import ContractLowering.Proofs.PoolRefinement

/-!
How many registers an expression needs. The shape of its tree tells: operands and arguments are held
only as long as their consumer has not run, so an operator needs what its left operand needs, or one
more than its right operand needs, or three for its own operation, and a call needs what its
neediest argument needs. An expression is lowered under a limit if and only if the live registers
and its need are within it, and the peak rises to their sum.
-/

namespace ContractLowering

/-- Taking registers raises the number of live ones by as many. -/
theorem Generator.Takes.liveCount {gen gen' : Generator} {regs : List Register}
    (h : gen.Takes regs gen') : gen'.pool.liveCount = regs.length + gen.pool.liveCount := by
  have perm : gen'.pool.liveRegisters.Perm (regs ++ gen.pool.liveRegisters) := by
    refine (List.perm_ext_iff_of_nodup gen'.pool.liveRegisters_nodup ?_).mpr ?_
    · refine List.nodup_append.mpr ⟨h.distinct, gen.pool.liveRegisters_nodup, ?_⟩
      rintro reg hreg _ live rfl
      exact h.not_mem_of_live ((Pool.mem_liveRegisters _ _).mp live) hreg
    · intro reg
      rw [Pool.mem_liveRegisters, h.isLive_iff, List.mem_append, Pool.mem_liveRegisters, or_comm]
  rw [← Pool.length_liveRegisters, perm.length_eq, List.length_append, Pool.length_liveRegisters]

namespace Expr

open Generator

mutual

/-- The number of registers that lowering takes beyond those that are live. -/
def need : Expr → Nat
  | not _ x => x.need
  | binary _ _ left right => max (max left.need (1 + right.need)) 3
  | call _ _ args => max 1 (greatestNeed args)
  | lit .. | placeholder .. | var .. | const .. => 1

def greatestNeed : List Expr → Nat
  | [] => 0
  | arg :: args => max arg.need (greatestNeed args)

end

end Expr

namespace Generator

/-- The pool was filled up to this many live registers, and its limit allows for them. -/
structure RisesTo (gen : Generator) (count : Nat) (gen' : Generator) : Prop where
  limit : gen'.pool.limit = gen.pool.limit
  peak : gen'.pool.peak = max gen.pool.peak count
  within : ∀ limit, gen.pool.limit = some limit → count ≤ limit

/-- The pool will have been filled up to this many live registers once one more is taken. -/
structure Approaches (gen : Generator) (count : Nat) (gen' : Generator) : Prop where
  limit : gen'.pool.limit = gen.pool.limit
  peak : max gen'.pool.peak (gen.pool.liveCount + 1) = max gen.pool.peak count
  within : ∀ limit, gen.pool.limit = some limit → gen.pool.liveCount + 1 ≤ limit → count ≤ limit

/-- A request was refused because the limit does not allow for this many live registers. -/
def Exceeds (gen : Generator) (count : Nat) (f : Failure) : Prop :=
  ∃ origin limit, gen.pool.limit = some limit ∧ limit < count ∧
    f = .reported (.registerLimit origin limit)

variable {gen gen' gen'' : Generator} {count count' : Nat} {f : Failure}

theorem RisesTo.trans (h : RisesTo gen count gen') (k : RisesTo gen' count' gen'') :
    RisesTo gen (max count count') gen'' := by
  refine ⟨k.limit.trans h.limit, ?_, ?_⟩
  · rw [k.peak, h.peak, Nat.max_assoc]
  · intro limit hlimit
    exact Nat.max_le.mpr ⟨h.within limit hlimit, k.within limit (h.limit.trans hlimit)⟩

theorem Exceeds.mono (h : Exceeds gen count f) (le : count ≤ count') : Exceeds gen count' f := by
  obtain ⟨origin, limit, hlimit, lt, hf⟩ := h
  exact ⟨origin, limit, hlimit, Nat.lt_of_lt_of_le lt le, hf⟩

theorem Exceeds.of_limit (h : Exceeds gen' count f) (same : gen'.pool.limit = gen.pool.limit) :
    Exceeds gen count f := by
  obtain ⟨origin, limit, hlimit, lt, hf⟩ := h
  exact ⟨origin, limit, same.symm.trans hlimit, lt, hf⟩

theorem allocTagged_rises (origin : Origin) (name : Option String) (gen : Generator) :
    Ends (fun _ gen' => RisesTo gen (gen.pool.liveCount + 1) gen')
      (fun f _ => Exceeds gen (gen.pool.liveCount + 1) f) (allocTagged origin name gen) := by
  cases reached : gen.pool.reachedLimit? with
  | none =>
      rw [allocTagged_of_room reached]
      refine ⟨rfl, gen.pool.house_peak _, ?_⟩
      intro limit hlimit
      exact Pool.liveCount_lt_of_room hlimit reached
  | some limit =>
      rw [allocTagged_of_limit reached]
      obtain ⟨hlimit, full⟩ := Option.filter_eq_some_iff.mp reached
      exact ⟨origin, limit, hlimit, Nat.lt_succ_of_le (of_decide_eq_true full), rfl⟩

theorem alloc_rises (origin : Origin) (name : Option String) (gen : Generator) :
    Ends (fun _ gen' => RisesTo gen (gen.pool.liveCount + 1) gen')
      (fun f _ => Exceeds gen (gen.pool.liveCount + 1) f) (alloc origin name gen) :=
  allocTagged_rises origin _ gen

end Generator

namespace Expr

open Generator

section Need

variable {decls : Declarations}

theorem lowerArgs_rises {args : List Expr} (gen : Generator)
    (ih : ∀ arg ∈ args, ∀ g : Generator, g.pool.isLive = gen.pool.isLive →
      Ends (fun _ gen' => RisesTo g (g.pool.liveCount + arg.need) gen')
        (fun f _ => Exceeds g (g.pool.liveCount + arg.need) f) (arg.lower decls g)) :
    Ends (fun _ gen' => Approaches gen (gen.pool.liveCount + max 1 (greatestNeed args)) gen')
      (fun f _ => Exceeds gen (gen.pool.liveCount + max 1 (greatestNeed args)) f)
      (lowerArgs decls args gen) := by
  induction args with
  | nil =>
      refine ⟨rfl, rfl, fun limit _ room => room⟩
  | cons arg args ihargs =>
      simp only [lowerArgs, greatestNeed]
      have rest := ihargs fun a ha => ih a (List.mem_cons_of_mem _ ha)
      have passed := lowerArgs_takes_none decls args gen
      refine ((rest.mono (fun _ _ h => h) fun f _ h => h.mono (by omega)).also passed).bind ?_
      intro _ g₁ h₁
      obtain ⟨near, taken⟩ := h₁
      have live : g₁.pool.isLive = gen.pool.isLive := by simp [taken.isLive_eq]
      have count : g₁.pool.liveCount = gen.pool.liveCount := by simpa using taken.liveCount
      have here := (ih arg List.mem_cons_self g₁ live).also (lower_takes decls arg g₁)
      rw [count] at here
      refine (here.mono (fun _ _ h => h) fun f _ h => ?_).bind ?_
      · exact (h.of_limit near.limit).mono (by omega)
      intro reg g₂ h₂
      obtain ⟨rises, held⟩ := h₂
      have pushed := held.trans (g₂.extend_takes [⟨.push, [.reg reg], arg.origin⟩])
      rw [bind_of_ok (emit_run ..), pushed.release (by simp)]
      have peak : ((g₂.extend [⟨.push, [.reg reg], arg.origin⟩]).drop reg).pool.peak =
          max g₁.pool.peak (gen.pool.liveCount + arg.need) := rises.peak
      refine ⟨rises.limit.trans near.limit, ?_, ?_⟩
      · rw [peak, Nat.max_right_comm, near.peak]
        omega
      · intro limit hlimit room
        have here := rises.within limit (near.limit.trans hlimit)
        have others := near.within limit hlimit room
        omega

/-- Lowering an expression that is ready fills the pool as far as the expression needs, or fails
because the limit does not allow for it. -/
theorem lower_rises (e : Expr) (gen : Generator) (ready : e.Ready decls gen.pool.isLive) :
    Ends (fun _ gen' => RisesTo gen (gen.pool.liveCount + e.need) gen')
      (fun f _ => Exceeds gen (gen.pool.liveCount + e.need) f) (e.lower decls gen) := by
  induction e generalizing gen with
  | not s x ih =>
      have operand : x.Ready decls gen.pool.isLive :=
        ready.part (fun node hnode => by simp [nodes, hnode]) fun _ live => live
      simp only [lower]
      exact (ih gen operand).bind fun _ _ h => ⟨h.limit, h.peak, h.within⟩
  | binary s op left right ihl ihr =>
      obtain ⟨opcode, hop⟩ := Option.isSome_iff_exists.mp
        (ready.supported s op left right (by simp [nodes]))
      simp only [lower, hop, need]
      have first : left.Ready decls gen.pool.isLive :=
        ready.part (fun node hnode => by simp [nodes, hnode]) fun _ live => live
      refine (((ihl gen first).mono (fun _ _ h => h) fun f _ h => h.mono (by omega)).also
        (lower_takes decls left gen)).bind ?_
      intro l g₁ h₁
      obtain ⟨rises₁, taken₁⟩ := h₁
      have count₁ : g₁.pool.liveCount = 1 + gen.pool.liveCount := taken₁.liveCount
      have second : right.Ready decls g₁.pool.isLive :=
        ready.part (fun node hnode => by simp [nodes, hnode]) fun _ live => taken₁.keeps.isLive live
      refine (((ihr g₁ second).mono (fun _ _ h => h) fun f _ h =>
        (h.of_limit rises₁.limit).mono (by omega)).also (lower_takes decls right g₁)).bind ?_
      intro r g₂ h₂
      obtain ⟨rises₂, taken₂⟩ := h₂
      have count₂ : g₂.pool.liveCount = 1 + g₁.pool.liveCount := taken₂.liveCount
      have rises := rises₁.trans rises₂
      refine (((alloc_rises s.toOrigin none g₂).mono (fun _ _ h => h) fun f _ h =>
        (h.of_limit rises.limit).mono (by omega)).also (alloc_ends s.toOrigin none g₂)).bind ?_
      intro reg g₃ h₃
      obtain ⟨rises₃, taken₃⟩ := h₃
      rw [operate_run ((taken₁.trans taken₂).trans taken₃)]
      have whole := rises.trans rises₃
      have sum : max (max (gen.pool.liveCount + left.need) (g₁.pool.liveCount + right.need))
          (g₂.pool.liveCount + 1) =
          gen.pool.liveCount + max (max left.need (1 + right.need)) 3 := by omega
      rw [sum] at whole
      exact ⟨whole.limit, whole.peak, whole.within⟩
  | call s binding args ih =>
      have each : ∀ arg ∈ args, ∀ g : Generator, g.pool.isLive = gen.pool.isLive →
          Ends (fun _ gen' => RisesTo g (g.pool.liveCount + arg.need) gen')
            (fun f _ => Exceeds g (g.pool.liveCount + arg.need) f) (arg.lower decls g) := by
        intro arg harg g live
        refine ih arg harg g (ready.part ?_ fun reg h => ?_)
        · intro node hnode
          exact List.mem_cons_of_mem _ (mem_argNodes.mpr ⟨arg, harg, hnode⟩)
        · rwa [live]
      simp only [lower, need]
      refine ((lowerArgs_rises gen each).also (lowerArgs_takes_none decls args gen)).bind ?_
      intro _ g₁ h₁
      obtain ⟨near, taken⟩ := h₁
      have count : g₁.pool.liveCount = gen.pool.liveCount := by simpa using taken.liveCount
      have result := alloc_rises s.toOrigin none g₁
      rw [count] at result
      refine (result.mono (fun _ _ h => h) fun f _ h => ?_).bind ?_
      · exact (h.of_limit near.limit).mono (by omega)
      intro reg g₂ rises
      refine ⟨rises.limit.trans near.limit, rises.peak.trans near.peak, ?_⟩
      intro limit hlimit
      exact near.within limit hlimit (rises.within limit (near.limit.trans hlimit))
  | lit s value kind =>
      simp only [lower]
      exact (alloc_rises s.toOrigin none gen).bind fun _ _ h => ⟨h.limit, h.peak, h.within⟩
  | placeholder s name => exact absurd (by simp [nodes]) (ready.expanded s name)
  | var s id =>
      obtain ⟨source, hsource, live⟩ := ready.bound s id (by simp [nodes])
      simp only [lower]
      rw [bind_of_ok (sourceRegister_of_live hsource live)]
      exact (alloc_rises s.toOrigin none gen).bind fun _ _ h => ⟨h.limit, h.peak, h.within⟩
  | const s id =>
      obtain ⟨c, hc⟩ := Declarations.getConstant_of_has (ready.declared s id (by simp [nodes]))
      simp only [lower, hc]
      exact (allocTagged_rises s.toOrigin _ gen).bind fun _ _ h => ⟨h.limit, h.peak, h.within⟩

/-- An expression that is ready is lowered if and only if there is no limit, or the live registers
and the need of the expression are within it. Otherwise the limit is reported. The peak rises to the
sum of the two. -/
theorem lower_takes_need (e : Expr) (gen : Generator) (ready : e.Ready decls gen.pool.isLive) :
    ((∃ reg gen', e.lower decls gen = .ok reg gen') ↔
        ∀ limit, gen.pool.limit = some limit → gen.pool.liveCount + e.need ≤ limit) ∧
      (∀ f gen', e.lower decls gen = .error f gen' → ∃ origin limit,
        gen.pool.limit = some limit ∧ f = .reported (.registerLimit origin limit)) ∧
      ∀ reg gen', e.lower decls gen = .ok reg gen' →
        gen'.pool.peak = max gen.pool.peak (gen.pool.liveCount + e.need) := by
  have rises := lower_rises e gen ready
  refine ⟨⟨?_, ?_⟩, ?_, ?_⟩
  · rintro ⟨reg, gen', hlower⟩
    exact (rises.of_ok hlower).within
  · intro within
    cases hlower : e.lower decls gen with
    | ok reg gen' => exact ⟨reg, gen', rfl⟩
    | error f gen' =>
        obtain ⟨origin, limit, hlimit, exceeded, -⟩ := rises.of_error hlower
        exact absurd (within limit hlimit) (Nat.not_le.mpr exceeded)
  · intro f gen' hlower
    obtain ⟨origin, limit, hlimit, -, hf⟩ := rises.of_error hlower
    exact ⟨origin, limit, hlimit, hf⟩
  · intro reg gen' hlower
    exact (rises.of_ok hlower).peak

end Need

namespace Tight

def site : Site := ⟨⟨⟨1⟩, 1⟩, .root⟩

def decls : Declarations := { vars := [⟨"x", .number, some ⟨1⟩⟩] }

/-- Two registers are live, with a free one in front of each. -/
def gen (limit : Nat) : Generator where
  pool := {
    slots := [none, some ⟨some "x", site.toOrigin⟩, none, some ⟨none, site.toOrigin⟩]
    limit := some limit
    peak := 4 }

/-- The left operand is held while the neediest argument of the call takes three more registers. -/
def sum : Expr :=
  .binary site .add (.var site ⟨0⟩) (.call site (.toBuiltin "pow" "pow" .number)
    [.binary site .mul (.lit site "2" .number) (.var site ⟨0⟩), .not site (.lit site "3" .number)])

end Tight

open Tight in
/-- Two live registers and a need of four go under a limit of six and not under one of five. -/
theorem lower_takes_need_tight :
    sum.Ready decls (gen 6).pool.isLive ∧ sum.Ready decls (gen 5).pool.isLive ∧
      (∃ reg gen', sum.lower decls (gen 6) = .ok reg gen' ∧ gen'.pool.peak = 6) ∧
      ∃ origin gen',
        sum.lower decls (gen 5) = .error (.reported (.registerLimit origin 5)) gen' := by
  have ready₆ : sum.Ready decls (gen 6).pool.isLive := by decide
  have ready₅ : sum.Ready decls (gen 5).pool.isLive := by decide
  obtain ⟨fits₆, -, peak⟩ := lower_takes_need sum (gen 6) ready₆
  obtain ⟨fits₅, stopped, -⟩ := lower_takes_need sum (gen 5) ready₅
  refine ⟨ready₆, ready₅, ?_, ?_⟩
  · obtain ⟨reg, gen', hlower⟩ := fits₆.mpr fun limit hlimit => by cases hlimit; decide
    exact ⟨reg, gen', hlower, peak reg gen' hlower⟩
  · cases hlower : sum.lower decls (gen 5) with
    | ok reg gen' => exact absurd (fits₅.mp ⟨reg, gen', hlower⟩ 5 rfl) (by decide)
    | error f gen' =>
        obtain ⟨origin, limit, hlimit, rfl⟩ := stopped f gen' hlower
        cases hlimit
        exact ⟨origin, gen', rfl⟩

end Expr
end ContractLowering
