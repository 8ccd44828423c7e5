import ContractLowering.Proofs.SoundSteps
import ContractLowering.Proofs.WellFormed

/-!
Well-formed source never causes an internal error. Lowering what was expanded from it fails only for a
reason that the user has to answer for: every number was handed out, every register that is given back
is live, and a variable is bound only while it has no register. As methods restore the bindings, each
of them starts with all its parameters unbound.
-/

namespace ContractLowering

variable {within : NodeId → Prop}

namespace Declarations

theorem hasVariable_cleared (decls : Declarations) (id : VarId) :
    decls.cleared.hasVariable id = decls.hasVariable id := by
  simp [hasVariable, cleared]

theorem Unbound.cleared {decls : Declarations} (h : decls.Unbound) : decls.cleared = decls := by
  have vars : decls.vars.map (fun v => { v with register := none }) = decls.vars := by
    refine (List.map_congr_left fun v hv => ?_).trans (List.map_id _)
    rw [← h v hv]
    rfl
  rw [Declarations.cleared, vars]

/-- A variable without a register can be bound. -/
theorem bind_of_free {decls : Declarations} {id : VarId} (issued : decls.hasVariable id = true)
    (free : decls.boundTo? id = none) (reg : Register) : ∃ decls', decls.bind id reg = .ok decls' := by
  obtain ⟨v, hv⟩ := getVariable_of_has issued
  rw [boundTo?_of_getVariable hv] at free
  rw [bind, hv]
  simp [free]

end Declarations

namespace Generator

theorem allocTagged_blames {origin : Origin} (node : within origin.node) (name : Option String)
    (gen : Generator) :
    Ends (fun _ _ => True) (fun e _ => e.BlamesUser within) (allocTagged origin name gen) := by
  cases hlimit : gen.pool.reachedLimit? with
  | none =>
      rw [allocTagged_of_room hlimit]
      trivial
  | some limit =>
      rw [allocTagged_of_limit hlimit]
      exact ⟨_, _, rfl, rfl, rfl, node⟩

/-- A request for a register is refused only for the user's limit. -/
theorem alloc_blames {origin : Origin} (node : within origin.node) (name : Option String)
    (gen : Generator) :
    Ends (fun reg gen' => Takes gen [reg] gen') (fun e _ => e.BlamesUser within)
      (alloc origin name gen) := by
  refine ((allocTagged_blames node _ gen).also (alloc_ends origin name gen)).mono ?_ ?_
  · exact fun _ _ h => h.2
  · exact fun _ _ h => h

end Generator

namespace Expr

open Generator

variable {decls : Declarations}

theorem sourceRegister_blames {origin : Origin} (node : within origin.node) {id : VarId}
    (issued : decls.cleared.hasVariable id = true) (gen : Generator) :
    Ends (fun _ _ => True) (fun e _ => e.BlamesUser within)
      (sourceRegister decls origin id gen) := by
  rw [Declarations.hasVariable_cleared] at issued
  obtain ⟨v, hv⟩ := Declarations.getVariable_of_has issued
  rw [sourceRegister, hv, bind_of_ok (ofExcept_ok v gen), get_bind]
  cases v.register.filter gen.pool.isLive with
  | none => exact ⟨_, _, rfl, rfl, rfl, node⟩
  | some reg => trivial

theorem lowerArgs_blames {args : List Expr}
    (ih : ∀ arg ∈ args, ∀ gen, Ends (fun _ _ => True) (fun e _ => e.BlamesUser within)
      (arg.lower decls gen)) (gen : Generator) :
    Ends (fun _ _ => True) (fun e _ => e.BlamesUser within) (lowerArgs decls args gen) := by
  induction args generalizing gen with
  | nil => trivial
  | cons arg args ihargs =>
      simp only [lowerArgs]
      refine (ihargs (fun a ha => ih a (List.mem_cons_of_mem _ ha)) gen).bind ?_
      intro _ g₁ _
      refine ((ih arg List.mem_cons_self g₁).also (lower_takes decls arg g₁)).bind ?_
      intro reg g₂ taken
      have pushed := taken.2.trans (g₂.extend_takes [⟨.push, [.reg reg], arg.origin⟩])
      rw [bind_of_ok (emit_run ..), pushed.release (by simp)]
      trivial

/-- Lowering an expression fails only for the user's fault. -/
theorem lower_blames {e : Expr} (h : Lowerable decls.cleared within e) (gen : Generator) :
    Ends (fun _ _ => True) (fun failure _ => failure.BlamesUser within) (e.lower decls gen) := by
  induction h generalizing gen with
  | not node _ ih =>
      simp only [lower]
      exact (ih gen).bind fun _ _ _ => trivial
  | @binary s op opcode left right node supported _ _ ihl ihr =>
      simp only [lower, supported]
      refine ((ihl gen).also (lower_takes decls left gen)).bind ?_
      intro l g₁ h₁
      refine ((ihr g₁).also (lower_takes decls right g₁)).bind ?_
      intro r g₂ h₂
      refine (alloc_blames node none g₂).bind ?_
      intro reg g₃ h₃
      -- both operands are live, and no two of the three registers are the same
      have h₄ := ((h₁.2.trans h₂.2).trans h₃).trans
        (g₃.extend_takes [⟨opcode, [.reg l, .reg r, .reg reg], s.toOrigin⟩])
      have h₅ := h₄.drop [reg] [l]
      rw [bind_of_ok (emit_run ..), bind_of_ok (h₄.release (by simp)),
        bind_of_ok (h₅.release (by simp))]
      trivial
  | call node _ ih =>
      simp only [lower]
      refine (lowerArgs_blames ih gen).bind ?_
      intro _ g _
      exact (alloc_blames node none g).bind fun _ _ _ => trivial
  | lit node =>
      simp only [lower]
      exact (alloc_blames node none gen).bind fun _ _ _ => trivial
  | var node issued =>
      simp only [lower]
      refine (sourceRegister_blames node issued gen).bind ?_
      intro _ g _
      exact (alloc_blames node none g).bind fun _ _ _ => trivial
  | const node issued =>
      have declared : decls.hasConstant _ = true := issued
      obtain ⟨c, hc⟩ := Declarations.getConstant_of_has declared
      simp only [lower, hc]
      exact (allocTagged_blames node _ gen).bind fun _ _ _ => trivial

end Expr

namespace Compilation

variable {c : Compilation}

theorem getVariable_of_has {id : VarId} (issued : c.decls.cleared.hasVariable id = true) :
    ∃ v, getVariable id c = .ok v c ∧ c.decls.boundTo? id = v.register := by
  rw [Declarations.hasVariable_cleared] at issued
  obtain ⟨v, hv⟩ := Declarations.getVariable_of_has issued
  refine ⟨v, ?_, Declarations.boundTo?_of_getVariable hv⟩
  simp only [getVariable]
  rw [get_bind, hv]
  rfl

theorem allocFor_blames {origin : Origin} (node : within origin.node) (v : Variable) :
    Ends (fun reg c' => c'.decls = c.decls ∧ c.gen.Takes [reg] c'.gen)
      (fun e _ => e.BlamesUser within) (allocFor origin v c) :=
  generate_ends ((Generator.alloc_blames node (some v.name) c.gen).mono
    (fun _ _ taken => ⟨rfl, taken⟩) fun _ _ blames => blames)

/-- Binding a variable that has no register goes through. -/
theorem bind_of_free {id : VarId} (issued : c.decls.cleared.hasVariable id = true)
    (free : c.decls.boundTo? id = none) (reg : Register) :
    ∃ decls, c.decls.bind id reg = .ok decls ∧ bind id reg c = .ok () { c with decls } := by
  rw [Declarations.hasVariable_cleared] at issued
  obtain ⟨decls, hdecls⟩ := Declarations.bind_of_free issued free reg
  refine ⟨decls, hdecls, ?_⟩
  simp only [bind]
  rw [get_bind, hdecls]
  rfl

theorem release_ends {reg : Register} {done : Unit → Compilation → Prop}
    {failed : Failure → Compilation → Prop} (live : c.gen.pool.isLive reg = true)
    (h : done () { c with gen := c.gen.drop reg }) : Ends done failed (release reg c) := by
  rw [release_of_live live]
  exact h

end Compilation

namespace Stmt

open Compilation

variable {decls : Declarations} {c : Compilation}

/-- The variable of an assignment gets a register unless the user's limit is reached. -/
theorem targetRegister_blames {origin : Origin} (node : within origin.node) {id : VarId}
    (issued : decls.hasVariable id = true) (hc : c.decls.cleared = decls) :
    Ends (fun _ c' => c'.decls.cleared = decls ∧ c.gen.Keeps c'.gen)
      (fun e _ => e.BlamesUser within) (targetRegister origin id c) := by
  subst hc
  obtain ⟨v, read, hbound⟩ := getVariable_of_has issued
  simp only [targetRegister]
  rw [bind_of_ok read]
  cases hreg : v.register with
  | some reg => exact ⟨rfl, Generator.Keeps.refl c.gen⟩
  | none =>
      refine (allocFor_blames node v).bind ?_
      intro reg c₁ h₁
      obtain ⟨hdecls, taken⟩ := h₁
      rw [← hdecls] at issued hbound ⊢
      obtain ⟨decls, hbind, bound⟩ :=
        Compilation.bind_of_free issued (hbound.trans hreg) reg
      rw [bind_of_ok bound]
      exact ⟨(Declarations.bind_ok hbind).2.1, taken.keeps⟩

/-- Lowering an expression in a statement fails only for the user's fault, and its register is live. -/
theorem value_blames {x : Expr} (h : x.Lowerable decls within) (hc : c.decls.cleared = decls) :
    Ends (fun reg c' => c'.decls.cleared = decls ∧ c'.gen.pool.isLive reg = true)
      (fun e _ => e.BlamesUser within) (generate x.lower c) := by
  subst hc
  refine generate_ends (((x.lower_blames h c.gen).also (x.lower_takes c.decls c.gen)).mono ?_ ?_)
  · exact fun reg gen h => ⟨rfl, h.2.held reg List.mem_cons_self⟩
  · exact fun _ _ blames => blames

theorem lowerAll_blames {ss : List Stmt}
    (ih : ∀ s ∈ ss, ∀ c : Compilation, c.decls.cleared = decls →
      Ends (fun _ c' => c'.decls.cleared = decls) (fun e _ => e.BlamesUser within) (s.lower c))
    (hc : c.decls.cleared = decls) :
    Ends (fun _ c' => c'.decls.cleared = decls) (fun e _ => e.BlamesUser within)
      (lowerAll ss c) := by
  induction ss generalizing c with
  | nil => exact hc
  | cons s ss ihss =>
      simp only [lowerAll]
      refine (ih s List.mem_cons_self c hc).bind ?_
      intro _ c₁ h₁
      exact ihss (fun t ht => ih t (List.mem_cons_of_mem _ ht)) h₁

/-- Lowering a statement fails only for the user's fault. -/
theorem lower_blames {s : Stmt} (h : s.Lowerable decls within) (hc : c.decls.cleared = decls) :
    Ends (fun _ c' => c'.decls.cleared = decls) (fun e _ => e.BlamesUser within) (s.lower c) := by
  induction h generalizing c with
  | expr value =>
      simp only [lower]
      refine (value_blames value hc).bind ?_
      intro reg c₁ h₁
      exact release_ends h₁.2 h₁.1
  | @assign origin target x node issued value =>
      simp only [lower]
      refine (value_blames value hc).bind ?_
      intro reg c₁ h₁
      refine (targetRegister_blames node issued h₁.1).bind ?_
      intro dest c₂ h₂
      rw [bind_of_ok (emit_run ..)]
      exact release_ends (h₂.2.isLive h₁.2) h₂.1
  | @ret origin x value =>
      cases x with
      | none => exact hc
      | some x =>
          simp only [lower]
          refine (value_blames (value x rfl) hc).bind ?_
          intro reg c₁ h₁
          rw [bind_of_ok (emit_run ..), bind_of_ok (release_of_live
            (c := { c₁ with gen := c₁.gen.extend [⟨.push, [.reg reg], origin⟩] }) h₁.2)]
          exact h₁.1
  | block _ ih =>
      simp only [lower]
      exact lowerAll_blames (fun s hs c hc => ih s hs hc) hc

end Stmt

namespace Method

open Compilation

variable {decls : Declarations} {c : Compilation}

theorem lowerParams_blames {origin : Origin} (node : within origin.node) {ids : List VarId}
    (issued : ∀ id ∈ ids, decls.hasVariable id = true) (distinct : ids.Nodup)
    (hc : c.decls.cleared = decls) (free : ∀ id ∈ ids, c.decls.boundTo? id = none) :
    Ends (fun _ c' => c'.decls.cleared = decls) (fun e _ => e.BlamesUser within)
      (lowerParams origin ids c) := by
  subst hc
  induction ids generalizing c with
  | nil => rfl
  | cons id ids ih =>
      obtain ⟨hid, hids⟩ := List.nodup_cons.mp distinct
      have idIssued := issued id List.mem_cons_self
      have idFree := free id List.mem_cons_self
      obtain ⟨v, read, -⟩ := getVariable_of_has idIssued
      simp only [lowerParams]
      rw [bind_of_ok read]
      refine (allocFor_blames node v).bind ?_
      intro reg c₁ h₁
      rw [bind_of_ok (emit_run ..)]
      rw [← h₁.1] at idIssued idFree issued free ⊢
      obtain ⟨decls, hbind, bound⟩ := Compilation.bind_of_free
        (c := { c₁ with gen := c₁.gen.extend [⟨.pop, [.reg reg], origin⟩] }) idIssued idFree reg
      obtain ⟨-, hcleared, hbound⟩ := Declarations.bind_ok hbind
      rw [bind_of_ok bound, ← hcleared]
      -- no parameter is listed twice, so those behind this one are still unbound
      refine ih hids (fun other hother => ?_) fun other hother => ?_
      · have apart : other ≠ id := fun heq => hid (heq ▸ hother)
        rw [hbound, if_neg apart]
        exact free other (List.mem_cons_of_mem _ hother)
      · rw [hcleared]
        exact issued other (List.mem_cons_of_mem _ hother)

theorem finish_blames {method : Method} (node : within method.origin.node) (gen : Generator) :
    Ends (fun _ _ => True) (fun e _ => e.BlamesUser within) (method.finish gen) := by
  rw [finish]
  by_cases hvoid : method.returns = .void
  · rw [if_pos hvoid]
    trivial
  · rw [if_neg hvoid]
    cases method.hasReturn with
    | true => trivial
    | false => exact ⟨_, _, rfl, rfl, rfl, node⟩

theorem describeParams_succeeds {ids : List VarId} {failed : Failure → Compilation → Prop}
    (issued : ∀ id ∈ ids, c.decls.cleared.hasVariable id = true) :
    Ends (fun _ _ => True) failed (describeParams ids c) := by
  induction ids with
  | nil => trivial
  | cons id ids ih =>
      obtain ⟨v, read, -⟩ := getVariable_of_has (issued id List.mem_cons_self)
      simp only [describeParams]
      rw [bind_of_ok read]
      refine (ih fun other hother => issued other (List.mem_cons_of_mem _ hother)).bind ?_
      intro _ _ _
      trivial

/-- What a method does behind its end cannot fail: all registers that it gives back are live. -/
theorem conclusion_succeeds (failed : Failure → Compilation → Prop) {ids : List VarId}
    (declared : ∀ id ∈ ids, c.decls.hasVariable id = true) (kept : List Register)
    (described : List Parameter → ExportedMethod) :
    Ends (fun _ _ => True) failed
      ((releaseOthers kept >>= fun _ => describeParams ids >>= fun params =>
        pure (described params)) c) := by
  rw [bind_of_ok (releaseOthers_run kept)]
  refine (describeParams_succeeds fun id hid => ?_).bind fun _ _ _ => trivial
  rw [Declarations.cleared_unbind, Declarations.hasVariable_cleared]
  exact declared id hid

/-- Lowering a method fails only for the user's fault. If it goes through, no variable is bound
again. -/
theorem lower_blames {method : Method} (h : method.Lowerable c.decls within)
    (unbound : c.decls.Unbound) :
    Ends (fun _ c' => c'.decls = c.decls) (fun e _ => e.BlamesUser within) (method.lower c) := by
  have restores : Ends (fun _ c' => c'.decls = c.decls) (fun _ _ => True) (method.lower c) := by
    cases hlower : method.lower c with
    | ok described c' =>
        exact (lower_restores hlower (Coupled.of_unbound unbound).live).1
    | error e c' => trivial
  have blames : Ends (fun _ _ => True) (fun e _ => e.BlamesUser within) (method.lower c) := by
    simp only [lower]
    rw [get_bind]
    refine (lowerParams_blames h.node h.issued h.distinct unbound.cleared
      fun id _ => unbound.boundTo? id).bind ?_
    intro _ c₁ h₁
    refine (Stmt.lowerAll_blames (fun s hs c hc => Stmt.lower_blames (h.body s hs) hc) h₁).bind ?_
    intro _ c₂ h₂
    have finishes : Ends (fun _ c₃ => c₃.decls.cleared = c.decls)
        (fun e _ => e.BlamesUser within) (generate (fun _ => method.finish) c₂) :=
      generate_ends ((finish_blames h.node c₂.gen).mono (fun _ _ _ => h₂) fun _ _ blames => blames)
    refine finishes.bind ?_
    intro _ c₃ h₃
    refine conclusion_succeeds _ (fun id hid => ?_) _ _
    rw [← Declarations.hasVariable_cleared, h₃]
    exact h.issued id hid
  exact (blames.also restores).mono (fun _ _ h => h.2) fun _ _ h => h

end Method

namespace SourceModule

open Compilation

variable {c : Compilation}

theorem lowerMethods_blames {methods : List Method}
    (h : ∀ method ∈ methods, method.Lowerable c.decls within) (unbound : c.decls.Unbound) :
    Ends (fun _ c' => c'.decls = c.decls) (fun e _ => e.BlamesUser within)
      (lowerMethods methods c) := by
  induction methods generalizing c with
  | nil => rfl
  | cons method methods ih =>
      simp only [lowerMethods]
      refine (Method.lower_blames (h method List.mem_cons_self) unbound).bind ?_
      intro _ c₁ h₁
      rw [← h₁] at h unbound ⊢
      refine (ih (fun m hm => h m (List.mem_cons_of_mem _ hm)) unbound).bind ?_
      intro _ _ h₂
      exact h₂

/-- Compiling well-formed source succeeds, or it fails with a diagnostic that the user has to answer
for, at a method, a statement or an expression of the module. -/
theorem compile_blames_user (source : SourceModule) (options : Options) {decls : Declarations}
    (unbound : decls.Unbound) (parents : decls.ParentsFirst)
    (formed : source.wellFormed decls = true) :
    (∃ compiled after, source.compile options decls = .ok compiled after) ∨
      ∃ d node after, source.compile options decls = .error (.reported d) after ∧
        d.severity = .user ∧ d.node? = some node ∧ source.contains node = true := by
  simp only [wellFormed, Bool.and_eq_true, List.all_eq_true] at formed
  have known : ∀ method ∈ source.methods, ∀ id, method.contains id = true →
      source.contains id = true := by
    intro method hmethod id hid
    exact List.any_eq_true.mpr ⟨method, hmethod, hid⟩
  cases hexpand : (source.expand decls).failure with
  | some e =>
      have compiles : source.compile options decls = .error e decls :=
        compile_of_expand_error hexpand
      rw [expand_failure] at hexpand
      obtain ⟨method, hmethod, hfailure⟩ := List.exists_of_findSome?_eq_some hexpand
      obtain ⟨d, node, rfl, blamed⟩ :=
        method.expand_blames parents (formed.2 method hmethod) (known method hmethod) hfailure
      exact Or.inr ⟨d, node, decls, compiles, blamed⟩
  | none =>
      rw [expand_failure, List.findSome?_eq_none_iff] at hexpand
      have lowerable : ∀ method ∈ (source.expanded decls).methods,
          method.Lowerable decls fun id => source.contains id = true := by
        intro method hmethod
        obtain ⟨original, horiginal, rfl⟩ := List.mem_map.mp hmethod
        exact original.expanded_lowerable (formed.2 original horiginal)
          (known original horiginal) (hexpand original horiginal)
      have lowers := lowerMethods_blames (c := ⟨decls, options.generator⟩) lowerable unbound
      cases hlower : lowerMethods (source.expanded decls).methods ⟨decls, options.generator⟩ with
      | error e c =>
          obtain ⟨d, node, rfl, blamed⟩ := lowers.of_error hlower
          exact Or.inr ⟨d, node, c.decls, compile_of_lower_error hexpand hlower, blamed⟩
      | ok described c =>
          have issued : source.scope.index < decls.scopes.length := by
            simpa [Declarations.hasScope] using formed.1
          obtain ⟨standard, hstandard⟩ := standard?_of_parentsFirst options parents issued
          have hdecls : c.decls = decls := lowers.of_ok hlower
          rw [← hdecls] at hstandard
          exact Or.inl ⟨_, _, compile_of_standard_ok hexpand hlower hstandard⟩

namespace Vault

def site (node : UInt32) (line : Nat) : Site := ⟨⟨⟨node⟩, line⟩, ⟨2⟩⟩

/-- A block scope within the scope of a contract. -/
def decls : Declarations where
  scopes := [Scope.root, ⟨"vault", some .root, some (.contract "vault")⟩, ⟨"body", some ⟨1⟩, none⟩]
  vars := [⟨"amount", .number, none⟩, ⟨"total", .number, none⟩]

def deposit : Method where
  origin := (site 1 1).toOrigin
  name := "deposit"
  scope := ⟨2⟩
  params := [⟨0⟩]
  returns := .void
  body := [.block (site 2 2).toOrigin [.assign (site 3 2).toOrigin ⟨1⟩
    (.binary (site 4 2) .add (.var (site 5 2) ⟨0⟩) (.lit (site 6 2) "1" .number))]]
  exported := true

/-- Uses the variable that the other method assigned to. -/
def balance : Method where
  origin := (site 7 3).toOrigin
  name := "balance"
  scope := ⟨2⟩
  params := []
  returns := .number
  body := [.ret (site 8 4).toOrigin (some (.var (site 9 4) ⟨1⟩))]
  exported := true

def source : SourceModule := ⟨⟨1⟩, [deposit, balance], []⟩

def options : Options := { maxRegisters := some 4 }

end Vault

open Vault in
/-- A variable keeps nothing from one method to the next, and the diagnostic points at its use. -/
theorem compile_blames_user_vault :
    decls.Unbound ∧ decls.ParentsFirst ∧ source.wellFormed decls = true ∧
      ∃ d after, source.compile options decls = .error (.reported d) after ∧
        d = .uninitializedVariable ⟨⟨9⟩, 4⟩ "total" ∧ d.severity = .user ∧
        source.contains ⟨9⟩ = true := by
  have unbound : decls.Unbound := by decide
  have parents : decls.ParentsFirst := by decide
  have formed : source.wellFormed decls = true := by decide +kernel
  obtain ⟨e, after, fails, rfl⟩ : ∃ e after, source.compile options decls = .error e after ∧
      e = .reported (.uninitializedVariable ⟨⟨9⟩, 4⟩ "total") := by
    apply Ends.fails
    decide +kernel
  cases compile_blames_user source options unbound parents formed with
  | inl succeeds =>
      obtain ⟨compiled, after', compiles⟩ := succeeds
      cases fails.symm.trans compiles
  | inr blamed =>
      obtain ⟨d, node, after', fails', hseverity, hnode, hcontains⟩ := blamed
      cases fails.symm.trans fails'
      cases hnode
      exact ⟨unbound, parents, formed, _, after, fails, rfl, hseverity, hcontains⟩

end SourceModule
end ContractLowering
