import ContractLowering.Expr.Lower
import ContractLowering.Proofs.Outcomes
import Mathlib.Logic.Function.Basic

/-!
The machine that the code is written for. It has a file of registers, an operand stack and a world
that only builtins and contracts reach. What operators, builtins and contracts do is a parameter,
and each of them may fail; what the other instructions do is fixed:

* LOAD, COPY, NOT, the operators and CTX write their last operand (LOAD its first) and nothing else;
* PUSH and POP move one value between a register and the stack;
* EXTCALL and SWITCH act on the stack and the world, as the named builtin or the context has it;
* THROW gives up with its message, and RET ends the run.

An instruction that does not have the operands of its opcode cannot be executed, and a run that
cannot go on is stuck.
-/

namespace ContractLowering

inductive Fault where
  | aborted (message : String)
  | stuck
deriving DecidableEq, Repr

/-- How a run comes to an end before its code does. -/
inductive Stop where
  | returned
  | failed (fault : Fault)
deriving DecidableEq, Repr

/-- What a run shares with its surroundings. The top of the stack comes first. -/
structure Host (V W : Type) where
  stack : List V
  world : W
deriving DecidableEq, Repr

abbrev HostM (V W : Type) := EStateM Fault (Host V W)

namespace HostM

variable {V W : Type}

def push (v : V) : HostM V W Unit := modify fun host => { host with stack := v :: host.stack }

def pop : HostM V W V := fun host =>
  match host.stack with
  | [] => .error .stuck host
  | v :: stack => .ok v { host with stack }

def attempt (v : Except Fault V) : HostM V W V := MonadExcept.ofExcept v

end HostM

/-- The operations that a machine is built from. A string constant is always a value; a raw one
may be malformed. -/
structure Machine (V W : Type) where
  text : String → V
  raw : String → Except Fault V
  negate : V → Except Fault V
  operate : Operator → V → V → Except Fault V
  builtin : V → HostM V W Unit
  context : V → Except Fault V
  enter : V → HostM V W Unit

structure MachineState (V W : Type) where
  regs : Register → V
  host : Host V W

abbrev ExecM (V W : Type) := EStateM Stop (MachineState V W)

/-- The operator that an opcode of three registers stands for. -/
def Opcode.operator? : Opcode → Option Operator
  | add => some .add
  | sub => some .sub
  | mul => some .mul
  | div => some .div
  | mod => some .mod
  | equal => some .equal
  | lt => some .less
  | lte => some .lessOrEqual
  | gt => some .greater
  | gte => some .greaterOrEqual
  | load | copy | push | pop | not | extCall | ctx | switch | throw | ret => none

theorem Operator.operator?_of_opcode? {op : Operator} {opcode : Opcode}
    (h : op.opcode? = some opcode) : opcode.operator? = some op := by
  cases op <;> simp only [Operator.opcode?, Option.some.injEq, reduceCtorEq] at h <;>
    subst h <;> rfl

/-- An opcode that stands for no operator is the opcode of none. -/
theorem Operator.opcode?_ne {op : Operator} {opcode : Opcode} (h : op.opcode? = some opcode)
    (other : Opcode) (foreign : other.operator? = none) : opcode ≠ other := by
  rintro rfl
  rw [operator?_of_opcode? h] at foreign
  cases foreign

namespace Machine

variable {V W : Type} (vm : Machine V W)

/-- Lets the surroundings act. The registers stay. -/
def onHost {α : Type} (x : HostM V W α) : ExecM V W α := fun s =>
  match x s.host with
  | .ok a host => .ok a { s with host }
  | .error fault host => .error (.failed fault) { s with host }

def read (reg : Register) : ExecM V W V := do return (← get).regs reg

def write (reg : Register) (v : V) : ExecM V W Unit :=
  modify fun s => { s with regs := Function.update s.regs reg v }

def constant : Operand → Except Fault V
  | .str text => .ok (vm.text text)
  | .raw text => vm.raw text
  | .reg _ => .error .stuck

def exec (instr : Instr) : ExecM V W Unit :=
  match instr.opcode, instr.operands with
  | .load, [.reg dst, value] => do write dst (← onHost (.attempt (vm.constant value)))
  | .copy, [.reg src, .reg dst] => do write dst (← read src)
  | .not, [.reg src, .reg dst] => do write dst (← onHost (.attempt (vm.negate (← read src))))
  | .ctx, [.reg src, .reg dst] => do write dst (← onHost (.attempt (vm.context (← read src))))
  | .push, [.reg src] => do onHost (.push (← read src))
  | .pop, [.reg dst] => do write dst (← onHost .pop)
  | .extCall, [.reg src] => do onHost (vm.builtin (← read src))
  | .extCall, [.str name] => onHost (vm.builtin (vm.text name))
  | .switch, [.reg src] => do onHost (vm.enter (← read src))
  | .throw, [.str message] => throw (.failed (.aborted message))
  | .ret, [] => throw .returned
  | opcode, [.reg left, .reg right, .reg dst] =>
    match opcode.operator? with
    | some op => do
      write dst (← onHost (.attempt (vm.operate op (← read left) (← read right))))
    | none => throw (.failed .stuck)
  | _, _ => throw (.failed .stuck)

/-- Executes instructions in order, up to the first one that ends the run. -/
def run : List Instr → ExecM V W Unit
  | [] => return
  | instr :: code => do
    vm.exec instr
    run code

theorem run_append (code code' : List Instr) (s : MachineState V W) :
    vm.run (code ++ code') s = (vm.run code >>= fun _ => vm.run code') s := by
  induction code generalizing s with
  | nil => rfl
  | cons instr code ih =>
      simp only [List.cons_append, run, bind_assoc]
      cases h : vm.exec instr s with
      | ok _ s' =>
          rw [bind_of_ok h, bind_of_ok h]
          exact ih s'
      | error stop s' => rw [bind_of_error h, bind_of_error h]

theorem run_append_of_ok {code : List Instr} {s s' : MachineState V W}
    (h : vm.run code s = .ok () s') (code' : List Instr) :
    vm.run (code ++ code') s = vm.run code' s' := by
  rw [run_append, bind_of_ok h]

theorem run_append_of_error {code : List Instr} {s s' : MachineState V W} {stop : Stop}
    (h : vm.run code s = .error stop s') (code' : List Instr) :
    vm.run (code ++ code') s = .error stop s' := by
  rw [run_append, bind_of_error h]

theorem run_singleton (instr : Instr) (s : MachineState V W) :
    vm.run [instr] s = vm.exec instr s := by
  simp only [run]
  cases h : vm.exec instr s with
  | ok _ s' => rw [bind_of_ok h]; rfl
  | error stop s' => rw [bind_of_error h]

/-- How many instructions a run executes, the one that ends it included. -/
def executed : List Instr → MachineState V W → Nat
  | [], _ => 0
  | instr :: code, s =>
    match vm.exec instr s with
    | .ok _ s' => executed code s' + 1
    | .error _ _ => 1

theorem executed_le_length (code : List Instr) (s : MachineState V W) :
    vm.executed code s ≤ code.length := by
  induction code generalizing s with
  | nil => exact Nat.le_refl 0
  | cons instr code ih =>
      rw [executed, List.length_cons]
      cases vm.exec instr s with
      | ok _ s' => exact Nat.succ_le_succ (ih s')
      | error stop s' => exact Nat.succ_le_succ (Nat.zero_le _)

/-- Nothing behind the code that ends a run is executed. -/
theorem executed_append_of_error {code : List Instr} {s s' : MachineState V W} {stop : Stop}
    (h : vm.run code s = .error stop s') (code' : List Instr) :
    vm.executed (code ++ code') s = vm.executed code s := by
  induction code generalizing s with
  | nil => cases h
  | cons instr code ih =>
      rw [List.cons_append, executed, executed]
      cases hexec : vm.exec instr s with
      | ok _ s₁ =>
          rw [run, bind_of_ok hexec] at h
          exact congrArg (· + 1) (ih h)
      | error stop s₁ => rfl

end Machine
end ContractLowering
