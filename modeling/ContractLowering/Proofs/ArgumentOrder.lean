import ContractLowering.Proofs.ExprMeaning
import ContractLowering.Proofs.StatementDiscipline

/-!
Caller and callee agree on the order of arguments. The arguments of a call are computed and pushed
from last to first, and a method pops its parameters from first to last, so each parameter receives
its own argument and nothing of the call stays on the stack. Arguments use the same stack while they
are computed. What that takes is `Balanced`: every call within them removes its own arguments, for a
contract the name of the method too, and leaves one result.
-/

namespace ContractLowering

variable {V W : Type}

/-- The computation removes these values from the top of the stack and leaves one in their place. -/
def HostM.Replaces (x : HostM V W Unit) (top : List V) : Prop :=
  ∀ rest world host, x ⟨top ++ rest, world⟩ = .ok () host → ∃ v, host.stack = v :: rest

/-- The call removes so many arguments and leaves one result. A method of a contract finds its name
on top of them. -/
def Binding.Balanced (vm : Machine V W) (binding : Binding) (count : Nat) : Prop :=
  match binding.implementation with
  | .builtin => ∀ args : List V, args.length = count →
      (vm.builtin (vm.text binding.callee)).Replaces args
  | .contract name => ∀ (context : V) (args : List V), vm.context (vm.text name) = .ok context →
      args.length = count → (vm.enter context).Replaces (vm.text binding.callee :: args)
  | .missing => True

theorem HostM.pop_ok {host host' : Host V W} {v : V} (h : HostM.pop host = .ok v host') :
    host.stack = v :: host'.stack := by
  obtain ⟨stack, world⟩ := host
  cases stack with
  | nil => cases h
  | cons w stack =>
      cases h
      rfl

theorem HostM.attempt_ok {x : Except Fault V} {host host' : Host V W} {v : V}
    (h : HostM.attempt x host = .ok v host') : x = .ok v ∧ host = host' :=
  ofExcept_eq_ok h

theorem HostM.Replaces.pop {x : HostM V W Unit} {top rest : List V} {world : W}
    {host : Host V W} {v : V} (h : x.Replaces top)
    (ran : (x >>= fun _ => HostM.pop) ⟨top ++ rest, world⟩ = .ok v host) : host.stack = rest := by
  obtain ⟨_, host₁, hx, hpop⟩ := bind_ok ran
  obtain ⟨w, hw⟩ := h rest world host₁ hx
  rw [HostM.pop_ok hpop] at hw
  exact (List.cons.inj hw).2

theorem Binding.perform_stack {vm : Machine V W} {binding : Binding} {args rest : List V}
    {world : W} {host : Host V W} {v : V} (balanced : binding.Balanced vm args.length)
    (ran : binding.perform vm ⟨args ++ rest, world⟩ = .ok v host) : host.stack = rest := by
  cases himpl : binding.implementation with
  | builtin =>
      simp only [Balanced, himpl] at balanced
      simp only [perform, himpl] at ran
      exact (balanced args rfl).pop ran
  | contract name =>
      simp only [Balanced, himpl] at balanced
      simp only [perform, himpl] at ran
      obtain ⟨_, host₁, hpush, ran⟩ := bind_ok ran
      cases hpush
      obtain ⟨context, host₂, hattempt, ran⟩ := bind_ok ran
      obtain ⟨hcontext, rfl⟩ := HostM.attempt_ok hattempt
      exact (balanced context args hcontext rfl).pop ran
  | missing =>
      simp only [perform, himpl] at ran
      cases ran

namespace Expr

mutual

/-- Every call in the expression is balanced, and so is the builtin that makes an address. -/
def Balanced (vm : Machine V W) : Expr → Prop
  | not _ x => x.Balanced vm
  | binary _ _ left right => left.Balanced vm ∧ right.Balanced vm
  | call _ binding args => binding.Balanced vm args.length ∧ AllBalanced vm args
  | lit _ _ kind => kind = .address →
      ∀ v : V, (vm.builtin (vm.text addressConstructor)).Replaces [v]
  | placeholder .. | var .. | const .. => True

def AllBalanced (vm : Machine V W) : List Expr → Prop
  | [] => True
  | arg :: args => arg.Balanced vm ∧ AllBalanced vm args

end

theorem allBalanced_iff (vm : Machine V W) (args : List Expr) :
    AllBalanced vm args ↔ ∀ arg ∈ args, arg.Balanced vm := by
  induction args with
  | nil => simp [AllBalanced]
  | cons arg args ih => simp [AllBalanced, ih]

/-- Evaluates the arguments from last to first and gives their values in the order of the
arguments. Each value is pushed before the next argument is evaluated. -/
def evalEach (vm : Machine V W) (consts : List Constant) (env : VarId → Option V) :
    List Expr → HostM V W (List V)
  | [] => return []
  | arg :: args => do
    let values ← evalEach vm consts env args
    let v ← arg.eval vm consts env
    HostM.push v
    return v :: values

variable {vm : Machine V W} {consts : List Constant} {env : VarId → Option V}
  {host host' : Host V W}

theorem evalEach_of_evalArgs {args : List Expr}
    (h : evalArgs vm consts env args host = .ok () host') :
    ∃ values, evalEach vm consts env args host = .ok values host' := by
  induction args generalizing host' with
  | nil =>
      simp only [evalArgs] at h
      cases h
      exact ⟨[], rfl⟩
  | cons arg args ih =>
      simp only [evalArgs] at h
      obtain ⟨_, host₁, hargs, h⟩ := bind_ok h
      obtain ⟨v, host₂, harg, h⟩ := bind_ok h
      obtain ⟨values, hvalues⟩ := ih hargs
      refine ⟨v :: values, ?_⟩
      simp only [evalEach]
      rw [bind_of_ok hvalues, bind_of_ok harg, bind_of_ok h]
      rfl

theorem evalEach_stack {args : List Expr} {values : List V}
    (keeps : ∀ arg ∈ args, ∀ host host' v, arg.eval vm consts env host = .ok v host' →
      host'.stack = host.stack)
    (h : evalEach vm consts env args host = .ok values host') :
    host'.stack = values ++ host.stack ∧ values.length = args.length := by
  induction args generalizing host' values with
  | nil =>
      simp only [evalEach] at h
      cases h
      exact ⟨rfl, rfl⟩
  | cons arg args ih =>
      simp only [evalEach] at h
      obtain ⟨others, host₁, hargs, h⟩ := bind_ok h
      obtain ⟨v, host₂, harg, h⟩ := bind_ok h
      obtain ⟨hstack, hlength⟩ := ih (fun a ha => keeps a (List.mem_cons_of_mem _ ha)) hargs
      have hkept := keeps arg List.mem_cons_self host₁ host₂ v harg
      cases h
      exact ⟨by simp [hkept, hstack], by simp [hlength]⟩

theorem eval_call_stack {site : Site} {binding : Binding} {args : List Expr} {v : V}
    (balanced : binding.Balanced vm args.length)
    (keeps : ∀ arg ∈ args, ∀ host host' v, arg.eval vm consts env host = .ok v host' →
      host'.stack = host.stack)
    (h : (call site binding args).eval vm consts env host = .ok v host') :
    host'.stack = host.stack := by
  simp only [eval] at h
  obtain ⟨_, host₁, hargs, h⟩ := bind_ok h
  obtain ⟨values, hvalues⟩ := evalEach_of_evalArgs hargs
  obtain ⟨hstack, hlength⟩ := evalEach_stack keeps hvalues
  obtain ⟨stack, world⟩ := host₁
  obtain rfl : stack = values ++ host.stack := hstack
  rw [← hlength] at balanced
  exact Binding.perform_stack balanced h

theorem construct_stack {kind : Kind} {v w : V}
    (balanced : kind = .address → ∀ v : V, (vm.builtin (vm.text addressConstructor)).Replaces [v])
    (h : construct vm kind v host = .ok w host') : host'.stack = host.stack := by
  simp only [construct] at h
  by_cases address : kind = .address
  · rw [if_pos address] at h
    obtain ⟨_, host₁, hpush, h⟩ := bind_ok h
    cases hpush
    exact (balanced address v).pop h
  · rw [if_neg address] at h
    cases h
    rfl

/-- Evaluating an expression whose calls are balanced leaves the stack as it was. -/
theorem eval_stack (e : Expr) (balanced : e.Balanced vm) {v : V}
    (h : e.eval vm consts env host = .ok v host') : host'.stack = host.stack := by
  induction e generalizing host host' v with
  | not site x ih =>
      simp only [Balanced] at balanced
      simp only [eval] at h
      obtain ⟨a, host₁, hx, h⟩ := bind_ok h
      obtain ⟨-, rfl⟩ := HostM.attempt_ok h
      exact ih balanced hx
  | binary site op left right ihl ihr =>
      simp only [Balanced] at balanced
      simp only [eval] at h
      obtain ⟨a, host₁, hl, h⟩ := bind_ok h
      obtain ⟨b, host₂, hr, h⟩ := bind_ok h
      obtain ⟨-, rfl⟩ := HostM.attempt_ok h
      exact (ihr balanced.2 hr).trans (ihl balanced.1 hl)
  | call site binding args ih =>
      simp only [Balanced, allBalanced_iff] at balanced
      exact eval_call_stack balanced.1
        (fun arg harg host host' v => ih arg harg (balanced.2 arg harg)) h
  | lit site value kind =>
      simp only [Balanced] at balanced
      simp only [eval] at h
      obtain ⟨a, host₁, hvalue, h⟩ := bind_ok h
      obtain ⟨-, rfl⟩ := HostM.attempt_ok hvalue
      exact construct_stack balanced h
  | placeholder site name =>
      simp only [eval] at h
      cases h
  | var site id =>
      simp only [eval] at h
      cases hid : env id <;> rw [hid] at h <;> cases h
      rfl
  | const site id =>
      simp only [eval] at h
      cases hid : consts[id.index]? with
      | none =>
          rw [hid] at h
          cases h
      | some c =>
          rw [hid] at h
          obtain ⟨-, rfl⟩ := HostM.attempt_ok h
          rfl

end Expr

/-- The instructions that pop into these registers, the first one first. -/
def pops (origin : Origin) (regs : List Register) : List Instr :=
  regs.map fun reg => ⟨.pop, [.reg reg], origin⟩

theorem run_pop (vm : Machine V W) (origin : Origin) (reg : Register) (code : List Instr)
    (own : Register → V) (v : V) (stack : List V) (world : W) :
    vm.run (⟨.pop, [.reg reg], origin⟩ :: code) ⟨own, ⟨v :: stack, world⟩⟩ =
      vm.run code ⟨Function.update own reg v, ⟨stack, world⟩⟩ := rfl

/-- Popping into distinct registers puts the topmost values there in order. -/
theorem run_pops (vm : Machine V W) (origin : Origin) {regs : List Register} {values : List V}
    (distinct : regs.Nodup) (hlength : values.length = regs.length) (own : Register → V)
    (stack : List V) (world : W) :
    ∃ file, vm.run (pops origin regs) ⟨own, ⟨values ++ stack, world⟩⟩ =
        .ok () ⟨file, ⟨stack, world⟩⟩ ∧
      (∀ reg, reg ∉ regs → file reg = own reg) ∧ regs.map file = values := by
  induction regs generalizing values own with
  | nil =>
      obtain rfl := List.length_eq_zero_iff.mp hlength
      exact ⟨own, rfl, fun _ _ => rfl, rfl⟩
  | cons reg regs ih =>
      cases values with
      | nil => cases hlength
      | cons v values =>
          obtain ⟨hreg, hregs⟩ := List.nodup_cons.mp distinct
          obtain ⟨file, hrun, hkept, hvalues⟩ :=
            ih hregs (Nat.succ.inj hlength) (Function.update own reg v)
          refine ⟨file, (run_pop vm origin reg _ own v _ world).trans hrun, ?_, ?_⟩
          · intro q hq
            rw [List.mem_cons, not_or] at hq
            rw [hkept q hq.2, Function.update_of_ne hq.1]
          · rw [List.map_cons, hkept reg hreg, Function.update_self, hvalues]

namespace Method

open Compilation Generator

/-- The code for parameters pops each of them, in order, into a register of its own. -/
theorem lowerParams_pops {origin : Origin} {ids : List VarId} {c c' : Compilation}
    (h : lowerParams origin ids c = .ok () c') :
    ∃ regs, regs.length = ids.length ∧ c'.gen.code = c.gen.code ++ pops origin regs ∧
      Binds c (ids.zip regs).reverse c' := by
  induction ids generalizing c with
  | nil =>
      simp only [lowerParams] at h
      cases h
      exact ⟨[], rfl, by simp [pops], Binds.refl c'⟩
  | cons id ids ih =>
      obtain ⟨reg, decls, tenant, rfl, hbind, h⟩ := lowerParams_cons_ok h
      have popped := (c.gen.take_takes tenant).trans (Generator.extend_takes _
        [⟨.pop, [.reg c.gen.pool.lowestFree], origin⟩])
      obtain ⟨regs, hlength, hcode, hbinds⟩ := ih h
      refine ⟨c.gen.pool.lowestFree :: regs, by simp [hlength], by simp [hcode, pops], ?_⟩
      rw [List.zip_cons_cons, List.reverse_cons]
      exact (Binds.of_bind hbind popped).trans hbinds

/-- Each parameter is bound to its register. -/
theorem boundTo?_of_zip {ids : List VarId} {regs : List Register} {c c' : Compilation}
    (h : Binds c (ids.zip regs).reverse c') {i : Nat} {id : VarId} {reg : Register}
    (hid : ids[i]? = some id) (hreg : regs[i]? = some reg) : c'.decls.boundTo? id = some reg := by
  refine (h.bound id reg).mpr (Or.inr (List.mem_reverse.mpr ?_))
  exact List.mem_of_getElem? (List.getElem?_zip_eq_some.mpr ⟨hid, hreg⟩)

theorem nodup_of_zip {ids : List VarId} {regs : List Register} {c c' : Compilation}
    (h : Binds c (ids.zip regs).reverse c') (hlength : regs.length = ids.length) :
    regs.Nodup := by
  have distinct := h.takes.distinct
  rwa [List.map_reverse, List.nodup_reverse, List.map_snd_zip (Nat.le_of_eq hlength)] at distinct

end Method

/-- The code of a call up to the point where another contract takes over. -/
def Binding.dispatchCode (binding : Binding) (reg : Register) : List (Opcode × List Operand) :=
  (binding.callCode reg).takeWhile fun c => c.1 ≠ .switch

open Generator in
theorem Binding.dispatchCode_realizes (vm : Machine V W) {binding : Binding} {name : String}
    (himpl : binding.implementation = .contract name) (origin : Origin) (reg : Register)
    (s : MachineState V W) :
    Realizes vm (instrs origin (binding.dispatchCode reg)) s
      (HostM.push (vm.text binding.callee) >>= fun _ =>
        HostM.attempt (vm.context (vm.text name))) fun _ _ => True := by
  have hcode : binding.dispatchCode reg = [(.load, [.reg reg, .str binding.callee]),
      (.push, [.reg reg]), (.load, [.reg reg, .str name]), (.ctx, [.reg reg, .reg reg])] := by
    simp [dispatchCode, callCode, himpl]
  rw [hcode]
  apply realizes_load_text vm origin s reg binding.callee
  have pushed := realizes_push vm origin
    ⟨Function.update s.regs reg (vm.text binding.callee), s.host⟩ reg
  simp only [Function.update_self] at pushed
  refine pushed.bind ?_
  intro _ regs host _
  apply realizes_load_text vm origin _ reg name
  have made := realizes_ctx vm origin ⟨Function.update regs reg (vm.text name), host⟩ reg reg
  simp only [Function.update_self] at made
  exact made.mono fun _ _ _ => trivial

open Generator in
/-- When a contract takes over, the name of the method lies on top of the arguments. -/
theorem Binding.dispatchCode_names (vm : Machine V W) {binding : Binding} {name : String}
    (himpl : binding.implementation = .contract name) (origin : Origin) (reg : Register)
    {s s' : MachineState V W}
    (ran : vm.run (instrs origin (binding.dispatchCode reg)) s = .ok () s') :
    s'.host = ⟨vm.text binding.callee :: s.host.stack, s.host.world⟩ := by
  have realized := dispatchCode_realizes vm himpl origin reg s
  rw [Realizes] at realized
  cases hcontext : vm.context (vm.text name) with
  | ok context =>
      rw [hcontext] at realized
      obtain ⟨regs, hrun, -⟩ := realized
      cases ran.symm.trans hrun
      rfl
  | error fault =>
      rw [hcontext] at realized
      obtain ⟨regs, hrun⟩ := realized
      cases ran.symm.trans hrun

namespace Method

open Compilation Generator

/-- Each parameter of a method receives the argument at its place. The code for the arguments of a
call, run to its end, and then the code for the parameters, run by a machine with registers of its
own, leave in the register of each parameter the value that its argument has when the arguments are
evaluated from last to first, and the stack as it was before the call. -/
theorem params_receive_args (vm : Machine V W) {decls : Declarations} {site : Site}
    {binding : Binding} {args : List Expr} {gen gen' : Generator} {reg : Register}
    {method : Method} {c c' : Compilation}
    (lowered : (Expr.call site binding args).lower decls gen = .ok reg gen')
    (entered : method.bindParams c = .ok () c') (arity : method.params.length = args.length)
    (balanced : ∀ arg ∈ args, arg.Balanced vm) :
    ∃ pushCode popCode,
      gen'.code = gen.code ++ (pushCode ++ instrs site.toOrigin (binding.callCode reg)) ∧
      c'.gen.code = c.gen.code ++ popCode ∧
      ∀ (env : VarId → Option V) (s s' : MachineState V W), Holds decls gen.pool env s.regs →
        vm.run pushCode s = .ok () s' →
        (∀ name, binding.implementation = .contract name → ∀ t,
          vm.run (instrs site.toOrigin (binding.dispatchCode reg)) s' = .ok () t →
            t.host = ⟨vm.text binding.callee :: s'.host.stack, s'.host.world⟩) ∧
        ∃ values, Expr.evalEach vm decls.consts env args s.host = .ok values s'.host ∧
          ∀ own : Register → V, ∃ regs,
            vm.run popCode ⟨own, s'.host⟩ = .ok () ⟨regs, ⟨s.host.stack, s'.host.world⟩⟩ ∧
            ∀ (i : Nat) (id : VarId), method.params[i]? = some id →
              ∃ r, c'.decls.boundTo? id = some r ∧ values[i]? = some (regs r) := by
  obtain ⟨g, hargs, -, rfl⟩ := Expr.lower_call_ok lowered
  obtain ⟨pushCode, hpush, hrealizes⟩ :=
    Expr.args_realized (fun arg _ => Expr.lower_realized vm decls arg) hargs
  obtain ⟨regs, hlength, hpops, hbinds⟩ := lowerParams_pops entered
  have distinct := nodup_of_zip hbinds hlength
  refine ⟨pushCode, pops method.origin regs, by simp [hpush], hpops, ?_⟩
  intro env s s' holds ran
  refine ⟨fun name himpl t => Binding.dispatchCode_names vm himpl site.toOrigin reg, ?_⟩
  -- the run of the pushing code is the evaluation of the arguments
  have evaluates : Expr.evalArgs vm decls.consts env args s.host = .ok () s'.host := by
    have realized := hrealizes env s holds
    rw [Realizes] at realized
    cases heval : Expr.evalArgs vm decls.consts env args s.host with
    | ok _ host =>
        rw [heval] at realized
        obtain ⟨after, hrun, -⟩ := realized
        rw [ran] at hrun
        cases hrun
        rfl
    | error fault host =>
        rw [heval] at realized
        obtain ⟨after, hrun⟩ := realized
        rw [ran] at hrun
        cases hrun
  obtain ⟨values, hvalues⟩ := Expr.evalEach_of_evalArgs evaluates
  obtain ⟨hstack, hcount⟩ := Expr.evalEach_stack
    (fun arg harg _ _ _ => arg.eval_stack (balanced arg harg)) hvalues
  refine ⟨values, hvalues, fun own => ?_⟩
  have count : values.length = regs.length := by rw [hcount, hlength, arity]
  obtain ⟨file, hrun, -, hfile⟩ :=
    run_pops vm method.origin distinct count own s.host.stack s'.host.world
  rw [← hstack] at hrun
  refine ⟨file, hrun, ?_⟩
  intro i id hid
  have inside : i < regs.length := hlength ▸ (List.getElem?_eq_some_iff.mp hid).1
  have hreg : regs[i]? = some regs[i] := List.getElem?_eq_getElem inside
  refine ⟨regs[i], boundTo?_of_zip hbinds hid hreg, ?_⟩
  rw [← hfile, List.getElem?_map, hreg, Option.map_some]

namespace Transfer

def site : Site := ⟨⟨⟨5⟩, 1⟩, .root⟩

/-- A string is its length. The builtin that makes addresses adds a hundred to the text, and every
other one takes two arguments and puts the first one in front of the second. The world counts the
calls. -/
def vm : Machine Nat Nat where
  text := String.length
  raw s := .ok s.length
  negate _ := .error .stuck
  operate _ a b := .ok (a + b)
  builtin name host :=
    match host.stack with
    | [] => .error .stuck host
    | a :: rest =>
      if name = 9 then .ok () ⟨(a + 100) :: rest, host.world + 1⟩
      else
        match rest with
        | [] => .error .stuck host
        | b :: rest => .ok () ⟨(10 * a + b) :: rest, host.world + 1⟩
  context := .ok
  enter _ := throw .stuck

def caller : Declarations := { vars := [⟨"x", .number, some ⟨0⟩⟩] }

def gen : Generator := { pool := { slots := [some ⟨some "x", site.toOrigin⟩], peak := 1 } }

def binding : Binding := .toContract "ledger" "transfer" .void

/-- The result of a builtin, and an address. -/
def args : List Expr :=
  [.call site (.toBuiltin "pair" "Pair()" .number) [.var site ⟨0⟩, .lit site "12" .number],
    .lit site "abc" .address]

def callee : Compilation where
  decls := { vars := [⟨"amount", .number, none⟩, ⟨"to", .address, none⟩] }
  gen := {}

def method : Method where
  origin := site.toOrigin
  name := "transfer"
  scope := .root
  params := [⟨0⟩, ⟨1⟩]
  returns := .void
  body := []
  exported := true

def pushCode : List Instr := instrs site.toOrigin
  [(.load, [.reg ⟨1⟩, .raw "abc"]), (.push, [.reg ⟨1⟩]), (.extCall, [.str "Address()"]),
    (.pop, [.reg ⟨1⟩]), (.push, [.reg ⟨1⟩]),
    (.load, [.reg ⟨1⟩, .raw "12"]), (.push, [.reg ⟨1⟩]),
    (.copy, [.reg ⟨0⟩, .reg ⟨1⟩]), (.push, [.reg ⟨1⟩]),
    (.load, [.reg ⟨1⟩, .str "Pair()"]), (.extCall, [.reg ⟨1⟩]), (.pop, [.reg ⟨1⟩]),
    (.push, [.reg ⟨1⟩])]

theorem balanced : ∀ arg ∈ args, arg.Balanced vm := by
  intro arg harg
  simp only [args, List.mem_cons, List.not_mem_nil, or_false] at harg
  cases harg with
  | inl first =>
      subst first
      refine ⟨?_, trivial, nofun, trivial⟩
      intro values hlength rest world host ran
      match values, hlength with
      | [a, b], _ =>
          cases ran
          exact ⟨_, rfl⟩
  | inr second =>
      subst second
      intro _ v rest world host ran
      cases ran
      exact ⟨_, rfl⟩

theorem holds : Holds caller gen.pool (fun _ => some 4) fun _ => 4 := by
  intro id reg hreg
  cases hi : id.index <;> simp [caller, Declarations.boundTo?, hi] at hreg
  subst hreg
  exact ⟨rfl, rfl⟩

end Transfer

open Transfer in
/-- The first parameter gets the result of the builtin and the second one the address, although the
address was made first. -/
theorem params_receive_args_transfer :
    ∃ gen' after popCode s regs,
      (Expr.call site binding args).lower caller gen = .ok ⟨1⟩ gen' ∧
      gen'.code = pushCode ++ instrs site.toOrigin (binding.callCode ⟨1⟩) ∧
      method.bindParams callee = .ok () after ∧ after.gen.code = popCode ∧
      vm.run pushCode ⟨fun _ => 4, ⟨[7], 0⟩⟩ = .ok () s ∧ s.host.stack = [42, 103, 7] ∧
      vm.run popCode ⟨fun _ => 0, s.host⟩ = .ok () ⟨regs, ⟨[7], 2⟩⟩ ∧
      after.decls.boundTo? ⟨0⟩ = some ⟨0⟩ ∧ regs ⟨0⟩ = 42 ∧
      after.decls.boundTo? ⟨1⟩ = some ⟨1⟩ ∧ regs ⟨1⟩ = 103 := by
  obtain ⟨reg, gen', lowered, rfl, hcode⟩ : ∃ reg gen',
      (Expr.call site binding args).lower caller gen = .ok reg gen' ∧ reg = ⟨1⟩ ∧
        gen'.code = pushCode ++ instrs site.toOrigin (binding.callCode ⟨1⟩) := by
    apply Ends.succeeds
    decide +kernel
  obtain ⟨_, after, entered, hfirst, hsecond⟩ : ∃ u after,
      method.bindParams callee = .ok u after ∧ after.decls.boundTo? ⟨0⟩ = some ⟨0⟩ ∧
        after.decls.boundTo? ⟨1⟩ = some ⟨1⟩ := by
    apply Ends.succeeds
    decide +kernel
  obtain ⟨pushes, popCode, hpush, hpop, hruns⟩ :=
    params_receive_args vm lowered entered rfl balanced
  obtain rfl : pushCode = pushes := List.append_cancel_right (hcode.symm.trans hpush)
  obtain ⟨_, s, ran, hhost⟩ : ∃ u s, vm.run pushCode ⟨fun _ => 4, ⟨[7], 0⟩⟩ = .ok u s ∧
      s.host = ⟨[42, 103, 7], 2⟩ := by
    apply Ends.succeeds
    decide +kernel
  obtain ⟨-, values, hvalues, hreceives⟩ := hruns (fun _ => some 4) _ s holds ran
  obtain ⟨regs, hrun, hregs⟩ := hreceives fun _ => 0
  have evaluated : Expr.evalEach vm caller.consts (fun _ => some 4) args ⟨[7], 0⟩ =
      .ok [42, 103] ⟨[42, 103, 7], 2⟩ := rfl
  obtain ⟨rfl, -⟩ := EStateM.Result.ok.inj (evaluated.symm.trans hvalues)
  obtain ⟨r₀, hr₀, hv₀⟩ := hregs 0 ⟨0⟩ rfl
  obtain ⟨r₁, hr₁, hv₁⟩ := hregs 1 ⟨1⟩ rfl
  obtain rfl : ⟨0⟩ = r₀ := Option.some.inj (hfirst.symm.trans hr₀)
  obtain rfl : ⟨1⟩ = r₁ := Option.some.inj (hsecond.symm.trans hr₁)
  rw [hhost] at hrun
  refine ⟨gen', after, popCode, s, regs, lowered, hcode, entered, hpop, ran, by rw [hhost], ?_,
    hfirst, (Option.some.inj hv₀).symm, hsecond, (Option.some.inj hv₁).symm⟩
  rw [hhost]
  exact hrun

end Method
end ContractLowering
