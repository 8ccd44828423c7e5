import ContractLowering.Proofs.RegisterDiscipline
import ContractLowering.Proofs.Routines

/-!
What a call is made of. Its arguments are passed one after the other, the last one first. Each is
computed, pushed, and its register given back at once, so every argument finds the registers as the
call found them, and so does the result, whatever the arguments are and whatever they push on their
own account. The journal shows it: the first event behind a push is the release of what was pushed.
-/

namespace ContractLowering
namespace Generator

section Nothing

variable {gen gen' : Generator}

theorem Takes.isLive_of_nil (h : Takes gen [] gen') (reg : Register) :
    gen'.pool.isLive reg = gen.pool.isLive reg := by
  rw [Pool.isLive, Pool.isLive, h.others reg List.not_mem_nil]

theorem Takes.liveRegisters_eq (h : Takes gen [] gen') :
    gen'.pool.liveRegisters = gen.pool.liveRegisters :=
  Pool.liveRegisters_congr h.isLive_of_nil

theorem Takes.lowestFree_eq (h : Takes gen [] gen') :
    gen'.pool.lowestFree = gen.pool.lowestFree :=
  Pool.lowestFree_congr h.isLive_of_nil

end Nothing

/-- Of the events behind the first so many, none speaks of a position yet to come. -/
structure LoggedSince (count : Nat) (gen : Generator) : Prop where
  before : count ≤ gen.journal.length
  positions : ∀ event ∈ gen.journal.drop count, event.position ≤ gen.position

theorem LoggedSince.record {count : Nat} {gen : Generator} (h : LoggedSince count gen)
    (action : RegisterAction) (reg : Register) : LoggedSince count (gen.record action reg) := by
  refine ⟨Nat.le_trans h.before (List.prefix_append _ _).length_le, ?_⟩
  intro event member
  rw [Generator.record, List.drop_append_of_le_length h.before] at member
  rcases List.mem_append.mp member with old | new
  · exact h.positions event old
  · rw [List.mem_singleton.mp new]
    exact Nat.le_refl _

theorem loggedSince_stable (count : Nat) : Stable (LoggedSince count) := by
  refine ⟨?_, ?_, ?_⟩
  · intro gen code h
    refine ⟨h.before, fun event member => Nat.le_trans (h.positions event member) ?_⟩
    exact (List.prefix_append gen.code code).length_le
  · intro gen tenant _ h
    have housed : LoggedSince count { gen with pool := gen.pool.house tenant } :=
      ⟨h.before, h.positions⟩
    exact housed.record .allocated gen.pool.lowestFree
  · intro gen reg _ h
    have vacated : LoggedSince count { gen with pool := gen.pool.vacate reg } :=
      ⟨h.before, h.positions⟩
    exact vacated.record .released reg

end Generator

namespace Expr

open Generator

/-- An argument on its way to the stack: the state where its code begins, and the register that has
its value in the state where the code ends. -/
structure Passing where
  arg : Expr
  start : Generator
  reg : Register
  stop : Generator

namespace Passing

/-- The code of the argument. -/
def code (p : Passing) : List Instr := p.stop.code.drop p.start.code.length

/-- The register events of the argument. -/
def events (p : Passing) : List RegisterEvent := p.stop.journal.drop p.start.journal.length

def push (p : Passing) : Instr := ⟨.push, [.reg p.reg], p.arg.origin⟩

/-- The register is given back right behind the push. -/
def release (p : Passing) : RegisterEvent := ⟨p.stop.position + 1, .released, p.reg⟩

/-- The state once the value is pushed and its register given back. -/
def passed (p : Passing) : Generator := (p.stop.extend [p.push]).drop p.reg

theorem passed_code (p : Passing) : p.passed.code = p.stop.code ++ [p.push] := rfl

theorem passed_journal (p : Passing) : p.passed.journal = p.stop.journal ++ [p.release] := by
  rw [passed, drop_journal, extend_journal, release, position, extend_code, List.length_append]
  rfl

end Passing

/-- The arguments were passed in this order, and this is the state behind the last of them. -/
inductive Passes (decls : Declarations) (gen : Generator) : List Passing → Generator → Prop
  | start : Passes decls gen [] gen
  | next {passings : List Passing} {p : Passing} (before : Passes decls gen passings p.start)
      (run : p.arg.lower decls p.start = .ok p.reg p.stop) :
      Passes decls gen (passings ++ [p]) p.passed

/-- What holds of an argument that is passed between the beginning and the end of a call. -/
structure Passing.InTurn (decls : Declarations) (gen gen' : Generator) (p : Passing) : Prop where
  run : p.arg.lower decls p.start = .ok p.reg p.stop
  code : p.stop.code = p.start.code ++ p.code
  live : p.start.pool.liveRegisters = gen.pool.liveRegisters
  pushed : gen'.code[p.stop.position]? = some p.push
  released : (gen'.journal.drop gen.journal.length).find?
    (fun event => p.stop.position < event.position) = some p.release

section Passes

variable {decls : Declarations} {gen gen' g : Generator} {passings : List Passing} {p : Passing}

theorem lowerArgs_passes {args : List Expr} (h : lowerArgs decls args gen = .ok () g) :
    ∃ passings, Passes decls gen passings g ∧ passings.map Passing.arg = args.reverse := by
  induction args generalizing g with
  | nil =>
      simp only [lowerArgs] at h
      cases h
      exact ⟨[], .start, rfl⟩
  | cons arg args ih =>
      obtain ⟨g₁, reg, g₂, hargs, harg, rfl⟩ := lowerArgs_cons_ok h
      obtain ⟨passings, passes, order⟩ := ih hargs
      have run : (Passing.mk arg g₁ reg g₂).arg.lower decls g₁ = .ok reg g₂ := harg
      refine ⟨_, passes.next run, ?_⟩
      rw [List.map_append, order, List.reverse_cons]
      rfl

theorem grows_of_run (run : p.arg.lower decls p.start = .ok p.reg p.stop) : p.start.Grows p.stop :=
  ((lower_takes decls p.arg p.start).of_ok run).toGrows

theorem code_of_run (run : p.arg.lower decls p.start = .ok p.reg p.stop) :
    p.stop.code = p.start.code ++ p.code :=
  (List.prefix_iff_eq_append.mp (grows_of_run run).code).symm

theorem events_of_run (run : p.arg.lower decls p.start = .ok p.reg p.stop) :
    p.stop.journal = p.start.journal ++ p.events :=
  (List.prefix_iff_eq_append.mp (grows_of_run run).journal).symm

namespace Passes

/-- Nothing is held behind an argument that was passed. -/
theorem takes (h : Passes decls gen passings g) : gen.Takes [] g := by
  induction h with
  | start => exact Takes.refl gen
  | @next passings p before run ih =>
      have taken := ih.trans ((lower_takes decls p.arg p.start).of_ok run)
      have pushed := taken.trans (p.stop.extend_takes [p.push])
      exact pushed.drop [] []

theorem code (h : Passes decls gen passings g) :
    g.code = gen.code ++ passings.flatMap fun p => p.code ++ [p.push] := by
  induction h with
  | start => simp
  | @next passings p before run ih =>
      rw [p.passed_code, code_of_run run, ih, List.flatMap_append, List.flatMap_singleton]
      simp only [List.append_assoc]

theorem journal (h : Passes decls gen passings g) :
    g.journal = gen.journal ++ passings.flatMap fun p => p.events ++ [p.release] := by
  induction h with
  | start => simp
  | @next passings p before run ih =>
      rw [p.passed_journal, events_of_run run, ih, List.flatMap_append, List.flatMap_singleton]
      simp only [List.append_assoc]

theorem loggedSince (h : Passes decls gen passings g) : g.LoggedSince gen.journal.length := by
  have stable := loggedSince_stable gen.journal.length
  induction h with
  | start => exact ⟨Nat.le_refl _, by simp⟩
  | @next passings p before run ih =>
      have computed := ((lower_routine decls p.arg).keeps stable ih).of_ok run
      have live := ((lower_takes decls p.arg p.start).of_ok run).held p.reg List.mem_cons_self
      exact stable.drop _ p.reg live (stable.extend _ [p.push] computed)

/-- The state of a call where one of its arguments begins, and what was added behind it since. -/
theorem of_mem (h : Passes decls gen passings g) (member : p ∈ passings) :
    (∃ before, Passes decls gen before p.start) ∧ p.arg.lower decls p.start = .ok p.reg p.stop ∧
      p.passed.Grows g := by
  induction h with
  | start => cases member
  | @next passings q before run ih =>
      rcases List.mem_append.mp member with earlier | last
      · obtain ⟨begun, ran, grows⟩ := ih earlier
        have passed : Passes decls q.start [q] q.passed := Passes.start.next run
        exact ⟨begun, ran, grows.trans passed.takes.toGrows⟩
      · obtain rfl := List.mem_singleton.mp last
        exact ⟨⟨passings, before⟩, run, (Takes.refl p.passed).toGrows⟩

/-- Every event up to the push was recorded in front of it, so the release is the first behind it. -/
theorem inTurn (h : Passes decls gen passings g) (grows : g.Grows gen') (member : p ∈ passings) :
    p.InTurn decls gen gen' := by
  obtain ⟨⟨before, begun⟩, run, later⟩ := h.of_mem member
  have rest := later.trans grows
  refine ⟨run, code_of_run run, begun.takes.liveRegisters_eq, ?_, ?_⟩
  · obtain ⟨more, hmore⟩ := rest.code
    rw [← hmore, p.passed_code, List.append_assoc, position,
      List.getElem?_append_right (Nat.le_refl _), Nat.sub_self]
    rfl
  · have logged : p.stop.LoggedSince gen.journal.length :=
      ((lower_routine decls p.arg).keeps (loggedSince_stable _) begun.loggedSince).of_ok run
    obtain ⟨more, hmore⟩ := rest.journal
    have silent : (p.stop.journal.drop gen.journal.length).find?
        (fun event => p.stop.position < event.position) = none := by
      rw [List.find?_eq_none]
      intro event hevent
      simpa using logged.positions event hevent
    rw [← hmore, p.passed_journal, List.append_assoc, List.drop_append_of_le_length logged.before,
      List.find?_append, silent]
    simp [Passing.release]

end Passes
end Passes

/-- A call passes its arguments from last to first, and each finds the registers as the call found
them. Then it takes the register that is lowest free for all of this time, and its own code follows. -/
theorem lower_call_sequence {decls : Declarations} {s : Site} {binding : Binding}
    {args : List Expr} {gen gen' : Generator} {reg : Register}
    (h : (Expr.call s binding args).lower decls gen = .ok reg gen') :
    ∃ passings ready, Passes decls gen passings ready ∧
      passings.map Passing.arg = args.reverse ∧ (∀ p ∈ passings, p.InTurn decls gen gen') ∧
      ready.pool.liveRegisters = gen.pool.liveRegisters ∧ reg = gen.pool.lowestFree ∧
      gen' = (ready.take ⟨none, s.toOrigin⟩).extend (instrs s.toOrigin (binding.callCode reg)) ∧
      gen'.code = gen.code ++ (passings.flatMap fun p => p.code ++ [p.push]) ++
        instrs s.toOrigin (binding.callCode reg) ∧
      gen'.journal = gen.journal ++ (passings.flatMap fun p => p.events ++ [p.release]) ++
        [⟨ready.position, .allocated, reg⟩] := by
  obtain ⟨ready, hargs, hreg, hgen⟩ := lower_call_ok h
  obtain ⟨passings, passes, order⟩ := lowerArgs_passes hargs
  have grows : ready.Grows gen' := by
    rw [hgen]
    exact ((ready.take_takes _).trans (Generator.extend_takes _ _)).toGrows
  refine ⟨passings, ready, passes, order, fun p => passes.inTurn grows,
    passes.takes.liveRegisters_eq, hreg.trans passes.takes.lowestFree_eq, hgen, ?_, ?_⟩
  · rw [hgen, extend_code, take_code, passes.code]
  · rw [hgen, extend_journal, take_journal, passes.journal, hreg]

namespace Nested

def site (node : UInt32) : Site := ⟨⟨⟨node⟩, 1⟩, .root⟩

def decls : Declarations := { vars := [⟨"x", .number, some ⟨0⟩⟩] }

/-- A variable in the first register, and a held register behind a free one. -/
def gen : Generator where
  pool := {
    slots := [some ⟨some "x", (site 1).toOrigin⟩, none, some ⟨none, (site 1).toOrigin⟩]
    peak := 3 }

/-- A call that pushes arguments of its own. -/
def largest : Expr :=
  .call (site 2) (.toBuiltin "max" "max" .number) [.var (site 3) ⟨0⟩, .lit (site 4) "7" .number]

/-- An address is pushed once while it is made, and only then as an argument. -/
def payee : Expr := .lit (site 5) "0x03" .address

def pay : Expr := .call (site 6) (.toContract "bank" "pay" .bool) [largest, payee]

def journal : List RegisterEvent :=
  [⟨0, .allocated, ⟨1⟩⟩, ⟨5, .released, ⟨1⟩⟩, ⟨5, .allocated, ⟨1⟩⟩, ⟨7, .released, ⟨1⟩⟩,
    ⟨7, .allocated, ⟨1⟩⟩, ⟨9, .released, ⟨1⟩⟩, ⟨9, .allocated, ⟨1⟩⟩, ⟨13, .released, ⟨1⟩⟩,
    ⟨13, .allocated, ⟨1⟩⟩]

end Nested

open Nested in
/-- Six values are pushed in all. Two of the pushes pass the arguments of the outer call, the fifth
instruction and the thirteenth, and their registers are given back behind them. -/
theorem lower_call_sequence_nested :
    ∃ gen', pay.lower decls gen = .ok ⟨1⟩ gen' ∧ gen'.code.length = 19 ∧
      gen'.journal = Nested.journal ∧ ∃ passings : List Passing,
        passings.map Passing.arg = [payee, largest] ∧ ∀ p ∈ passings, p.InTurn decls gen gen' := by
  obtain ⟨gen', lowers, length, journal⟩ : ∃ gen', pay.lower decls gen = .ok ⟨1⟩ gen' ∧
      gen'.code.length = 19 ∧ gen'.journal = Nested.journal := ⟨_, rfl, rfl, rfl⟩
  obtain ⟨passings, _, -, order, inTurn, -⟩ := lower_call_sequence lowers
  exact ⟨gen', lowers, length, journal, passings, order, inTurn⟩

end Expr
end ContractLowering
