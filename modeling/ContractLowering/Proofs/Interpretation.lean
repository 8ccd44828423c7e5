import ContractLowering.Method.Basic
import ContractLowering.Proofs.Evaluation

/-!
The meaning of statements and methods. A frame is an environment together with the stack and the
world. Statements run in order; an assignment updates the environment, and a return pushes its value
and ends the method. A method first pops one argument for each parameter, in declared order. One
without a result ends by itself; any other is stuck if no return comes before its end.
-/

namespace ContractLowering

structure Frame (V W : Type) where
  env : VarId → Option V
  host : Host V W

abbrev InterpretM (V W : Type) := EStateM Stop (Frame V W)

namespace InterpretM

variable {V W α : Type}

/-- Runs a computation that reads the environment and works on the stack and the world. -/
def onHost (x : (VarId → Option V) → HostM V W α) : InterpretM V W α := fun f =>
  match x f.env f.host with
  | .ok a host => .ok a { f with host }
  | .error fault host => .error (.failed fault) { f with host }

def assign (id : VarId) (v : V) : InterpretM V W Unit :=
  modify fun f => { f with env := Function.update f.env id (some v) }

end InterpretM

variable {V W : Type}

namespace Stmt

open InterpretM

mutual

def interpret (vm : Machine V W) (consts : List Constant) : Stmt → InterpretM V W Unit
  | expr _ x => do
    let _ ← onHost fun env => x.eval vm consts env
    return
  | assign _ target value => do
    let v ← onHost fun env => value.eval vm consts env
    InterpretM.assign target v
  | ret _ none => throw .returned
  | ret _ (some value) => do
    let v ← onHost fun env => value.eval vm consts env
    onHost fun _ => HostM.push v
    throw .returned
  | block _ body => interpretAll vm consts body

def interpretAll (vm : Machine V W) (consts : List Constant) : List Stmt → InterpretM V W Unit
  | [] => return
  | s :: ss => do
    s.interpret vm consts
    interpretAll vm consts ss

end

/-- A statement with a return in it never lets the next one run. -/
theorem interpretAll_stops (vm : Machine V W) (consts : List Constant) {ss : List Stmt}
    (ih : ∀ s ∈ ss, s.hasReturn = true → ∀ f, ∃ stop f', s.interpret vm consts f = .error stop f')
    (h : anyHasReturn ss = true) (f : Frame V W) :
    ∃ stop f', interpretAll vm consts ss f = .error stop f' := by
  induction ss generalizing f with
  | nil => cases h
  | cons s ss ihss =>
      simp only [anyHasReturn, Bool.or_eq_true] at h
      simp only [interpretAll]
      cases hs : s.interpret vm consts f with
      | error stop f' =>
          rw [bind_of_error hs]
          exact ⟨stop, f', rfl⟩
      | ok _ f' =>
          rw [bind_of_ok hs]
          rcases h with hreturn | hlater
          · obtain ⟨stop, f'', hstop⟩ := ih s List.mem_cons_self hreturn f
            rw [hs] at hstop
            cases hstop
          · exact ihss (fun t ht => ih t (List.mem_cons_of_mem _ ht)) hlater f'

theorem interpret_stops (vm : Machine V W) (consts : List Constant) (s : Stmt)
    (h : s.hasReturn = true) (f : Frame V W) :
    ∃ stop f', s.interpret vm consts f = .error stop f' := by
  induction s generalizing f with
  | expr _ _ | assign _ _ _ =>
      simp only [hasReturn] at h
      cases h
  | ret origin value =>
      cases value with
      | none => exact ⟨.returned, f, rfl⟩
      | some value =>
          simp only [interpret]
          cases hv : (onHost fun env => value.eval vm consts env : InterpretM V W V) f with
          | ok v f' =>
              rw [bind_of_ok hv]
              exact ⟨.returned, _, rfl⟩
          | error stop f' =>
              rw [bind_of_error hv]
              exact ⟨stop, f', rfl⟩
  | block origin body ih =>
      simp only [hasReturn] at h
      simp only [interpret]
      exact interpretAll_stops vm consts (fun s hs hr f => ih s hs hr f) h f

end Stmt

namespace Method

open InterpretM

/-- Each parameter gets the value on top of the stack, the first one first. -/
def popParams : List VarId → InterpretM V W Unit
  | [] => return
  | id :: ids => do
    let v ← onHost fun _ => HostM.pop
    InterpretM.assign id v
    popParams ids

def interpret (vm : Machine V W) (consts : List Constant) (method : Method) :
    InterpretM V W Unit := do
  popParams method.params
  Stmt.interpretAll vm consts method.body
  throw (if method.returns = .void then .returned else .failed .stuck)

end Method
end ContractLowering
