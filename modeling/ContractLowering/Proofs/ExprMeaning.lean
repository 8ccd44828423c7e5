import ContractLowering.Proofs.Bindings
import ContractLowering.Proofs.Evaluation
import ContractLowering.Proofs.RegisterDiscipline

/-!
The code of an expression does what the expression means. `EndsAs` says that code and some other
computation end alike: in the same fault, or both without one, and then with the same stack and
world. It goes through a sequence of steps and a sequence of instructions at once. `Realizes` is the
case of an evaluation, so each kind of node is settled by the instructions that it adds to those of
its parts. That no part of an expression overwrites a
value which is still needed comes from the register discipline.
-/

namespace ContractLowering

variable {V W ε σ α β : Type}

/-- Running the code from a state ends as another computation did: in the same way and with the
same stack and world. What the other computation calls a fault and where it has the stack and the
world is a parameter, and so is what holds of its value, its state and the registers if it went
through. -/
def EndsAs (vm : Machine V W) (code : List Instr) (s : MachineState V W) (fault : ε → Stop)
    (host : σ → Host V W) (done : α → σ → (Register → V) → Prop) :
    EStateM.Result ε σ α → Prop
  | .ok a t => ∃ regs, vm.run code s = .ok () ⟨regs, host t⟩ ∧ done a t regs
  | .error e t => ∃ regs, vm.run code s = .error (fault e) ⟨regs, host t⟩

namespace EndsAs

variable {vm : Machine V W} {code code' : List Instr} {s : MachineState V W} {fault : ε → Stop}
  {host : σ → Host V W} {done : α → σ → (Register → V) → Prop}

theorem mono {done' : α → σ → (Register → V) → Prop} {r : EStateM.Result ε σ α}
    (h : EndsAs vm code s fault host done r)
    (k : ∀ a t regs, done a t regs → done' a t regs) : EndsAs vm code s fault host done' r := by
  cases r with
  | ok a t =>
      obtain ⟨regs, hrun, hdone⟩ := h
      exact ⟨regs, hrun, k a t regs hdone⟩
  | error e t => exact h

theorem bind {x : EStateM ε σ α} {f : α → EStateM ε σ β} {t : σ}
    {done' : β → σ → (Register → V) → Prop} (h : EndsAs vm code s fault host done (x t))
    (k : ∀ a t' regs, done a t' regs →
      EndsAs vm code' ⟨regs, host t'⟩ fault host done' (f a t')) :
    EndsAs vm (code ++ code') s fault host done' ((x >>= f) t) := by
  cases hx : x t with
  | ok a t' =>
      rw [hx] at h
      obtain ⟨regs, hrun, hdone⟩ := h
      have hk := k a t' regs hdone
      rw [bind_of_ok hx]
      cases hf : f a t' <;> rw [hf] at hk <;>
        simpa only [EndsAs, vm.run_append_of_ok hrun] using hk
  | error e t' =>
      rw [hx] at h
      obtain ⟨regs, hrun⟩ := h
      rw [bind_of_error hx]
      exact ⟨regs, vm.run_append_of_error hrun code'⟩

end EndsAs

/-- Running the code from a state ends as the computation does on the state's stack and world. -/
def Realizes (vm : Machine V W) (code : List Instr) (s : MachineState V W) (x : HostM V W α)
    (done : α → (Register → V) → Prop) : Prop :=
  EndsAs vm code s Stop.failed id (fun a _ regs => done a regs) (x s.host)

namespace Realizes

variable {vm : Machine V W} {code code' : List Instr} {s : MachineState V W} {x : HostM V W α}
  {done : α → (Register → V) → Prop}

theorem mono {done' : α → (Register → V) → Prop} (h : Realizes vm code s x done)
    (k : ∀ a regs, done a regs → done' a regs) : Realizes vm code s x done' :=
  EndsAs.mono h fun a _ regs => k a regs

theorem bind {f : α → HostM V W β} {done' : β → (Register → V) → Prop}
    (h : Realizes vm code s x done)
    (k : ∀ a regs host, done a regs → Realizes vm code' ⟨regs, host⟩ (f a) done') :
    Realizes vm (code ++ code') s (x >>= f) done' :=
  EndsAs.bind h fun a host regs => k a regs host

end Realizes

section Instructions

variable (vm : Machine V W) (origin : Origin) (s : MachineState V W)

/-- An instruction that puts the result of a computation into a register. -/
theorem realizes_write {instr : Instr} {dst : Register} {x : HostM V W V}
    (h : vm.exec instr s = (Machine.onHost x >>= Machine.write dst) s) :
    Realizes vm [instr] s x fun v regs => regs = Function.update s.regs dst v := by
  rw [Realizes]
  cases hx : x s.host with
  | ok v host =>
      have hx' : Machine.onHost x s = .ok v { s with host } := by simp only [Machine.onHost, hx]
      rw [bind_of_ok hx'] at h
      exact ⟨_, (vm.run_singleton instr s).trans h, rfl⟩
  | error fault host =>
      have hx' : Machine.onHost x s = .error (.failed fault) { s with host } := by
        simp only [Machine.onHost, hx]
      rw [bind_of_error hx'] at h
      exact ⟨_, (vm.run_singleton instr s).trans h⟩

/-- An instruction that leaves the registers alone. -/
theorem realizes_host {instr : Instr} {x : HostM V W Unit}
    (h : vm.exec instr s = Machine.onHost x s) :
    Realizes vm [instr] s x fun _ regs => regs = s.regs := by
  rw [Realizes]
  simp only [Machine.onHost] at h
  cases hx : x s.host with
  | ok _ host =>
      rw [hx] at h
      exact ⟨_, (vm.run_singleton instr s).trans h, rfl⟩
  | error fault host =>
      rw [hx] at h
      exact ⟨_, (vm.run_singleton instr s).trans h⟩

theorem realizes_load (dst : Register) (value : Operand) :
    Realizes vm [⟨.load, [.reg dst, value], origin⟩] s (.attempt (vm.constant value))
      fun v regs => regs = Function.update s.regs dst v :=
  realizes_write vm s rfl

/-- Loading a string cannot fail, so whatever comes next starts with it in the register. -/
theorem realizes_load_text (dst : Register) (text : String) {code : List Instr} {x : HostM V W α}
    {done : α → (Register → V) → Prop}
    (h : Realizes vm code ⟨Function.update s.regs dst (vm.text text), s.host⟩ x done) :
    Realizes vm (⟨.load, [.reg dst, .str text], origin⟩ :: code) s x done := h

theorem realizes_copy (src dst : Register) :
    Realizes vm [⟨.copy, [.reg src, .reg dst], origin⟩] s (pure (s.regs src))
      fun v regs => regs = Function.update s.regs dst v :=
  realizes_write vm s rfl

theorem realizes_not (src dst : Register) :
    Realizes vm [⟨.not, [.reg src, .reg dst], origin⟩] s (.attempt (vm.negate (s.regs src)))
      fun v regs => regs = Function.update s.regs dst v :=
  realizes_write vm s rfl

theorem realizes_ctx (src dst : Register) :
    Realizes vm [⟨.ctx, [.reg src, .reg dst], origin⟩] s (.attempt (vm.context (s.regs src)))
      fun v regs => regs = Function.update s.regs dst v :=
  realizes_write vm s rfl

theorem realizes_pop (dst : Register) :
    Realizes vm [⟨.pop, [.reg dst], origin⟩] s HostM.pop
      fun v regs => regs = Function.update s.regs dst v :=
  realizes_write vm s rfl

theorem realizes_operator {op : Operator} {opcode : Opcode} (h : op.opcode? = some opcode)
    (left right dst : Register) :
    Realizes vm [⟨opcode, [.reg left, .reg right, .reg dst], origin⟩] s
      (.attempt (vm.operate op (s.regs left) (s.regs right)))
      fun v regs => regs = Function.update s.regs dst v := by
  apply realizes_write vm s
  have hop := Operator.operator?_of_opcode? h
  cases opcode <;> simp only [Opcode.operator?, Option.some.injEq, reduceCtorEq] at hop <;>
    subst hop <;> rfl

theorem realizes_push (src : Register) :
    Realizes vm [⟨.push, [.reg src], origin⟩] s (.push (s.regs src)) fun _ regs => regs = s.regs :=
  realizes_host vm s rfl

theorem realizes_extCall (src : Register) :
    Realizes vm [⟨.extCall, [.reg src], origin⟩] s (vm.builtin (s.regs src))
      fun _ regs => regs = s.regs :=
  realizes_host vm s rfl

theorem realizes_extCall_named (name : String) :
    Realizes vm [⟨.extCall, [.str name], origin⟩] s (vm.builtin (vm.text name))
      fun _ regs => regs = s.regs :=
  realizes_host vm s rfl

theorem realizes_switch (src : Register) :
    Realizes vm [⟨.switch, [.reg src], origin⟩] s (vm.enter (s.regs src))
      fun _ regs => regs = s.regs :=
  realizes_host vm s rfl

theorem realizes_throw (message : String) (done : α → (Register → V) → Prop) :
    Realizes vm [⟨.throw, [.str message], origin⟩] s (throw (.aborted message)) done :=
  ⟨s.regs, rfl⟩

end Instructions

theorem constant_constant (vm : Machine V W) (kind : Kind) (value : String) :
    vm.constant (kind.constant value) = kind.denote vm value := by
  cases kind <;> rfl

open Generator in
/-- The code of a literal reads its text and, for an address, calls the builtin that makes one. -/
theorem literalCode_realizes (vm : Machine V W) (origin : Origin) (s : MachineState V W)
    (kind : Kind) (value : String) (reg : Register) :
    Realizes vm (instrs origin (kind.literalCode value reg)) s
      (HostM.attempt (kind.denote vm value) >>= Expr.construct vm kind)
      fun v regs => regs = Function.update s.regs reg v := by
  rw [← constant_constant]
  refine (realizes_load vm origin s reg (kind.constant value)).bind ?_
  intro v regs host hregs
  subst hregs
  by_cases haddress : kind = .address
  · simp only [haddress, Expr.construct, if_true]
    have pushed := realizes_push vm origin ⟨Function.update s.regs reg v, host⟩ reg
    simp only [Function.update_self] at pushed
    refine pushed.bind ?_
    intro _ regs host hregs
    subst hregs
    refine (realizes_extCall_named vm origin _ addressConstructor).bind ?_
    intro _ regs host hregs
    subst hregs
    refine (realizes_pop vm origin _ reg).mono ?_
    intro w regs hregs
    subst hregs
    exact Function.update_idem v w s.regs
  · simp only [haddress, Expr.construct, if_false]
    exact ⟨_, rfl, rfl⟩

open Generator in
/-- The code of a call does what the call does, and its result ends up in the register. -/
theorem callCode_realizes (vm : Machine V W) (origin : Origin) (s : MachineState V W)
    (binding : Binding) (reg : Register) :
    Realizes vm (instrs origin (binding.callCode reg)) s (binding.perform vm)
      fun v regs => regs = Function.update s.regs reg v := by
  cases himpl : binding.implementation with
  | builtin =>
      simp only [Binding.callCode, Binding.perform, himpl]
      apply realizes_load_text vm origin s reg binding.callee
      have called := realizes_extCall vm origin
        ⟨Function.update s.regs reg (vm.text binding.callee), s.host⟩ reg
      simp only [Function.update_self] at called
      refine called.bind ?_
      intro _ regs host hregs
      subst hregs
      refine (realizes_pop vm origin _ reg).mono ?_
      intro v regs hregs
      subst hregs
      exact Function.update_idem _ v s.regs
  | contract name =>
      simp only [Binding.callCode, Binding.perform, himpl]
      apply realizes_load_text vm origin s reg binding.callee
      have pushed := realizes_push vm origin
        ⟨Function.update s.regs reg (vm.text binding.callee), s.host⟩ reg
      simp only [Function.update_self] at pushed
      refine pushed.bind ?_
      intro _ regs host hregs
      subst hregs
      apply realizes_load_text vm origin _ reg name
      have made := realizes_ctx vm origin
        ⟨Function.update (Function.update s.regs reg (vm.text binding.callee)) reg (vm.text name),
          host⟩ reg reg
      simp only [Function.update_self, Function.update_idem] at made ⊢
      refine made.bind ?_
      intro context regs host hregs
      subst hregs
      have entered := realizes_switch vm origin ⟨Function.update s.regs reg context, host⟩ reg
      simp only [Function.update_self] at entered
      refine entered.bind ?_
      intro _ regs host hregs
      subst hregs
      refine (realizes_pop vm origin _ reg).mono ?_
      intro v regs hregs
      subst hregs
      exact Function.update_idem _ v s.regs
  | missing =>
      simp only [Binding.callCode, Binding.perform, himpl]
      exact realizes_throw vm origin s _ _

/-- The register of every bound variable is live and holds the value of the variable. -/
def Holds (decls : Declarations) (pool : Pool) (env : VarId → Option V) (regs : Register → V) :
    Prop :=
  ∀ id reg, decls.boundTo? id = some reg → pool.isLive reg = true ∧ env id = some (regs reg)

theorem Holds.of_keeps {decls : Declarations} {gen gen' : Generator} {env : VarId → Option V}
    {regs regs' : Register → V} (h : Holds decls gen.pool env regs) (k : gen.Keeps gen')
    (same : ∀ q, gen.pool.isLive q = true → regs' q = regs q) :
    Holds decls gen'.pool env regs' := by
  intro id reg hreg
  obtain ⟨live, value⟩ := h id reg hreg
  exact ⟨k.isLive live, by rw [value, same reg live]⟩

namespace Expr

open Generator

/-- The code that lowering the expression adds, run while the variables are held by their
registers, ends as the evaluation does. The value is then in the register that lowering gives, and
what was in a live register is still there. -/
def Realized (vm : Machine V W) (decls : Declarations) (e : Expr) : Prop :=
  ∀ gen gen' reg, e.lower decls gen = .ok reg gen' →
    ∃ code, gen'.code = gen.code ++ code ∧
      ∀ (env : VarId → Option V) (s : MachineState V W), Holds decls gen.pool env s.regs →
        Realizes vm code s (e.eval vm decls.consts env) fun v regs =>
          regs reg = v ∧ ∀ q, gen.pool.isLive q = true → regs q = s.regs q

variable {vm : Machine V W} {decls : Declarations}

/-- A value written to a register that is free disturbs no live one. -/
theorem update_free {pool : Pool} {reg q : Register} (free : pool.tenant? reg = none)
    (live : pool.isLive q = true) (regs : Register → V) (v : V) :
    Function.update regs reg v q = regs q := by
  have hq : q ≠ reg := by
    intro hq
    subst hq
    rw [(pool.isLive_eq_false_iff q).mpr free] at live
    cases live
  exact Function.update_of_ne hq v regs

theorem not_realized {site : Site} {x : Expr} (hx : Realized vm decls x) :
    Realized vm decls (.not site x) := by
  intro gen gen' reg h
  obtain ⟨g, hlower, rfl⟩ := lower_not_ok h
  obtain ⟨code, hcode, hrun⟩ := hx gen g reg hlower
  have taken := (lower_takes decls x gen).of_ok hlower
  refine ⟨code ++ [⟨.not, [.reg reg, .reg reg], site.toOrigin⟩], by simp [hcode], ?_⟩
  intro env s holds
  simp only [eval]
  refine (hrun env s holds).bind ?_
  intro v regs host hdone
  obtain ⟨rfl, same⟩ := hdone
  refine (realizes_not vm site.toOrigin ⟨regs, host⟩ reg reg).mono ?_
  intro w regs' hregs
  subst hregs
  refine ⟨Function.update_self .., ?_⟩
  intro q live
  exact (update_free (taken.fresh reg List.mem_cons_self) live regs w).trans (same q live)

theorem binary_realized {site : Site} {op : Operator} {left right : Expr}
    (hleft : Realized vm decls left) (hright : Realized vm decls right) :
    Realized vm decls (.binary site op left right) := by
  intro gen gen' reg h
  obtain ⟨opcode, l, g₁, r, g₂, hop, hl, hr, rfl, rfl⟩ := lower_binary_ok h
  obtain ⟨code₁, hcode₁, hrun₁⟩ := hleft gen g₁ l hl
  obtain ⟨code₂, hcode₂, hrun₂⟩ := hright g₁ g₂ r hr
  have taken₁ := (lower_takes decls left gen).of_ok hl
  have taken₂ := (lower_takes decls right g₁).of_ok hr
  refine ⟨code₁ ++ (code₂ ++ [⟨opcode, [.reg l, .reg r, .reg g₂.pool.lowestFree], site.toOrigin⟩]),
    by simp [hcode₁, hcode₂], ?_⟩
  intro env s holds
  simp only [eval]
  refine (hrun₁ env s holds).bind ?_
  intro a regs₁ host₁ hdone
  obtain ⟨rfl, same₁⟩ := hdone
  refine (hrun₂ env ⟨regs₁, host₁⟩ (holds.of_keeps taken₁.keeps same₁)).bind ?_
  intro b regs₂ host₂ hdone
  obtain ⟨rfl, same₂⟩ := hdone
  -- the left value is in a live register while the right operand is computed
  have hl₂ : regs₂ l = regs₁ l := same₂ l (taken₁.held l List.mem_cons_self)
  have result := realizes_operator vm site.toOrigin ⟨regs₂, host₂⟩ hop l r g₂.pool.lowestFree
  simp only [hl₂] at result
  refine result.mono ?_
  intro w regs' hregs
  subst hregs
  refine ⟨Function.update_self .., ?_⟩
  intro q live
  have live₁ := taken₁.keeps.isLive live
  have live₂ := taken₂.keeps.isLive live₁
  calc Function.update regs₂ g₂.pool.lowestFree w q
      = regs₂ q := update_free g₂.pool.tenant?_lowestFree live₂ regs₂ w
    _ = regs₁ q := same₂ q live₁
    _ = s.regs q := same₁ q live

theorem args_realized {args : List Expr} (hargs : ∀ arg ∈ args, Realized vm decls arg)
    {gen gen' : Generator} (h : lowerArgs decls args gen = .ok () gen') :
    ∃ code, gen'.code = gen.code ++ code ∧
      ∀ (env : VarId → Option V) (s : MachineState V W), Holds decls gen.pool env s.regs →
        Realizes vm code s (evalArgs vm decls.consts env args) fun _ regs =>
          ∀ q, gen.pool.isLive q = true → regs q = s.regs q := by
  induction args generalizing gen' with
  | nil =>
      simp only [lowerArgs] at h
      cases h
      exact ⟨[], by simp, fun _ s _ => ⟨s.regs, rfl, fun _ _ => rfl⟩⟩
  | cons arg args ih =>
      obtain ⟨g₁, r, g₂, hrest, harg, rfl⟩ := lowerArgs_cons_ok h
      obtain ⟨code₁, hcode₁, hrun₁⟩ := ih (fun a ha => hargs a (List.mem_cons_of_mem _ ha)) hrest
      obtain ⟨code₂, hcode₂, hrun₂⟩ := hargs arg List.mem_cons_self g₁ g₂ r harg
      have taken := (lowerArgs_takes_none decls args gen).of_ok hrest
      refine ⟨code₁ ++ (code₂ ++ [⟨.push, [.reg r], arg.origin⟩]), by simp [hcode₁, hcode₂], ?_⟩
      intro env s holds
      simp only [evalArgs]
      refine (hrun₁ env s holds).bind ?_
      intro _ regs₁ host₁ same₁
      refine (hrun₂ env ⟨regs₁, host₁⟩ (holds.of_keeps taken.keeps same₁)).bind ?_
      intro v regs₂ host₂ hdone
      obtain ⟨rfl, same₂⟩ := hdone
      refine (realizes_push vm arg.origin ⟨regs₂, host₂⟩ r).mono ?_
      intro _ regs' hregs q live
      subst hregs
      exact (same₂ q (taken.keeps.isLive live)).trans (same₁ q live)

theorem call_realized {site : Site} {binding : Binding} {args : List Expr}
    (hargs : ∀ arg ∈ args, Realized vm decls arg) :
    Realized vm decls (.call site binding args) := by
  intro gen gen' reg h
  obtain ⟨g, hlower, rfl, rfl⟩ := lower_call_ok h
  obtain ⟨code, hcode, hrun⟩ := args_realized hargs hlower
  have taken := (lowerArgs_takes_none decls args gen).of_ok hlower
  refine ⟨code ++ instrs site.toOrigin (binding.callCode g.pool.lowestFree), by simp [hcode], ?_⟩
  intro env s holds
  simp only [eval]
  refine (hrun env s holds).bind ?_
  intro _ regs host same
  refine (callCode_realizes vm site.toOrigin ⟨regs, host⟩ binding g.pool.lowestFree).mono ?_
  intro v regs' hregs
  subst hregs
  refine ⟨Function.update_self .., ?_⟩
  intro q live
  have free := update_free g.pool.tenant?_lowestFree (taken.keeps.isLive live) regs v
  exact free.trans (same q live)

theorem lower_realized (vm : Machine V W) (decls : Declarations) (e : Expr) :
    Realized vm decls e := by
  induction e with
  | not site x ih => exact not_realized ih
  | binary site op left right ihl ihr => exact binary_realized ihl ihr
  | call site binding args ih => exact call_realized ih
  | lit site value kind =>
      intro gen gen' reg h
      obtain ⟨rfl, rfl⟩ := lower_lit_ok h
      refine ⟨_, rfl, ?_⟩
      intro env s _
      simp only [eval]
      refine (literalCode_realizes vm site.toOrigin s kind value gen.pool.lowestFree).mono ?_
      intro v regs hregs
      subst hregs
      exact ⟨Function.update_self .., fun q live =>
        update_free gen.pool.tenant?_lowestFree live s.regs v⟩
  | placeholder site name =>
      intro gen gen' reg h
      simp only [lower] at h
      cases h
  | var site id =>
      intro gen gen' reg h
      obtain ⟨v, source, hv, hsource, -, rfl, rfl⟩ := lower_var_ok h
      have bound : decls.boundTo? id = some source := by
        rw [Declarations.boundTo?_of_getVariable hv, hsource]
      refine ⟨_, rfl, ?_⟩
      intro env s holds
      simp only [eval, (holds id source bound).2]
      refine (realizes_copy vm site.toOrigin s source gen.pool.lowestFree).mono ?_
      intro w regs hregs
      subst hregs
      exact ⟨Function.update_self .., fun q live =>
        update_free gen.pool.tenant?_lowestFree live s.regs w⟩
  | const site id =>
      intro gen gen' reg h
      obtain ⟨c, hc, rfl, rfl⟩ := lower_const_ok h
      refine ⟨_, rfl, ?_⟩
      intro env s _
      simp only [eval, getElem?_of_getConstant hc, ← constant_constant]
      refine (realizes_load vm site.toOrigin s gen.pool.lowestFree _).mono ?_
      intro v regs hregs
      subst hregs
      exact ⟨Function.update_self .., fun q live =>
        update_free gen.pool.tenant?_lowestFree live s.regs v⟩

/-- Running the code that lowering an expression adds and evaluating the expression come to the
same: the same fault, or the same stack and world, the value in the register that lowering gives,
and every register that was live before with the value it had. -/
theorem lower_preserves_meaning (vm : Machine V W) (decls : Declarations) (e : Expr)
    {gen gen' : Generator} {reg : Register} (lowered : e.lower decls gen = .ok reg gen') :
    ∃ code, gen'.code = gen.code ++ code ∧
      ∀ (env : VarId → Option V) (s : MachineState V W), Holds decls gen.pool env s.regs →
        match e.eval vm decls.consts env s.host with
        | .ok v host => ∃ regs, vm.run code s = .ok () ⟨regs, host⟩ ∧ regs reg = v ∧
            ∀ q, gen.pool.isLive q = true → regs q = s.regs q
        | .error fault host => ∃ regs, vm.run code s = .error (.failed fault) ⟨regs, host⟩ := by
  obtain ⟨code, hcode, hrun⟩ := lower_realized vm decls e gen gen' reg lowered
  refine ⟨code, hcode, ?_⟩
  intro env s holds
  have realized := hrun env s holds
  rw [Realizes] at realized
  cases heval : e.eval vm decls.consts env s.host with
  | ok v host =>
      rw [heval] at realized
      exact realized
  | error fault host =>
      rw [heval] at realized
      exact realized

/-- A variable in `r0` plus the result of a builtin on a literal. The builtin sees the value that
was pushed for it, the sum goes to `r3`, and the variable keeps its register. -/
theorem lower_preserves_meaning_call_sum :
    let site : Site := ⟨⟨⟨7⟩, 1⟩, .root⟩
    let decls : Declarations := { vars := [⟨"x", .number, some ⟨0⟩⟩] }
    let gen : Generator := { pool := { slots := [some ⟨none, site.toOrigin⟩], peak := 1 } }
    let call := Expr.call site (.toBuiltin "len" "Len()" .number) [.lit site "four" .string]
    let e := Expr.binary site .add (.var site ⟨0⟩) call
    let vm : Machine Nat Nat :=
      { text := String.length, raw := fun s => .ok s.length, negate := fun _ => .error .stuck,
        operate := fun _ a b => .ok (a + b), context := .ok, enter := fun _ => pure (),
        builtin := fun name => modify fun host => { host with world := host.world + name } }
    ∃ gen' code, e.lower decls gen = .ok ⟨3⟩ gen' ∧ gen'.code = gen.code ++ code ∧
      ∃ regs, vm.run code ⟨fun _ => 5, ⟨[], 1⟩⟩ = .ok () ⟨regs, ⟨[], 6⟩⟩ ∧
        regs ⟨3⟩ = 9 ∧ regs ⟨0⟩ = 5 := by
  intro site decls gen call e vm
  obtain ⟨code, hcode, hrun⟩ := lower_preserves_meaning vm decls e
    (show e.lower decls gen = .ok ⟨3⟩ _ from rfl)
  have holds : Holds decls gen.pool (fun _ => some 5) fun _ => 5 := by
    intro id reg hreg
    cases hi : id.index <;> simp [decls, Declarations.boundTo?, hi] at hreg
    subst hreg
    exact ⟨rfl, rfl⟩
  obtain ⟨regs, hran, hvalue, hkept⟩ :=
    hrun (fun _ => some 5) ⟨fun _ => 5, ⟨[], 1⟩⟩ holds
  exact ⟨_, code, rfl, hcode, regs, hran, hvalue, hkept ⟨0⟩ rfl⟩

end Expr
end ContractLowering
