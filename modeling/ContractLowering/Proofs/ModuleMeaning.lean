import ContractLowering.Proofs.MethodMeaning
import ContractLowering.Proofs.ModuleSteps

/-!
The code of a module, entered where a method starts, does what the method means. The code of the
methods lies one behind the other, and as every method ends, nothing of the next one is executed.
-/

namespace ContractLowering

open Compilation

variable {V W : Type}

/-- The code, run from any state, stops as the method does on the state's stack and world. -/
def Method.StopsAs (vm : Machine V W) (consts : List Constant) (method : Method)
    (code : List Instr) : Prop :=
  ∀ s : MachineState V W, ∃ stop frame regs,
    method.interpret vm consts ⟨fun _ => none, s.host⟩ = .error stop frame ∧
      vm.run code s = .error stop ⟨regs, frame.host⟩

theorem Method.lower_stopsAs (vm : Machine V W) {method : Method} {described : ExportedMethod}
    {c c' : Compilation} (unbound : c.decls.Unbound) (h : method.lower c = .ok described c') :
    ∃ code, c'.gen.code = c.gen.code ++ code ∧ method.StopsAs vm c.decls.consts code := by
  obtain ⟨code, hcode, hrun⟩ := lower_followed vm (Coupled.of_unbound unbound) h
  refine ⟨code, hcode, ?_⟩
  intro s
  have holds : Holds c.decls c.gen.pool (fun _ => none) s.regs := by
    intro id reg hreg
    rw [unbound.boundTo? id] at hreg
    cases hreg
  have followed := hrun s.regs ⟨fun _ => none, s.host⟩ holds
  rw [Follows] at followed
  cases hend : method.interpret vm c.decls.consts ⟨fun _ => none, s.host⟩ with
  | ok _ frame =>
      rw [hend] at followed
      obtain ⟨regs, -, no⟩ := followed
      exact no.elim
  | error stop frame =>
      rw [hend] at followed
      obtain ⟨regs, hran⟩ := followed
      exact ⟨stop, frame, regs, rfl, hran⟩

namespace SourceModule

/-- The positions between which the code of the methods lies: that of a method goes from the
position with the method's index to the one behind it. -/
def bounds : List Method → CompileM (List Nat)
  | [] => do return [(← get).gen.position]
  | method :: methods => do
    let start := (← get).gen.position
    let _ ← method.lower
    return start :: (← bounds methods)

/-- The name and the start of every exported method. -/
def entries (methods : List Method) (bounds : List Nat) : List (String × Nat) :=
  ((methods.zip bounds).filter fun entry => entry.1.exported).map fun entry =>
    (entry.1.name, entry.2)

theorem bounds_head {methods : List Method} {positions : List Nat} {c c' : Compilation}
    (h : bounds methods c = .ok positions c') : positions[0]? = some c.gen.position := by
  cases methods with
  | nil =>
      cases h
      rfl
  | cons method methods =>
      simp only [bounds] at h
      rw [get_bind] at h
      obtain ⟨described, c₁, hfirst, h⟩ := ContractLowering.bind_ok h
      obtain ⟨others, c₂, hothers, h⟩ := ContractLowering.bind_ok h
      cases h
      rfl

theorem bounds_cons {method : Method} {methods : List Method} {described : ExportedMethod}
    {positions : List Nat} {c c₁ c' : Compilation} (hfirst : method.lower c = .ok described c₁)
    (hothers : bounds methods c₁ = .ok positions c') :
    bounds (method :: methods) c = .ok (c.gen.position :: positions) c' := by
  simp only [bounds]
  rw [get_bind, bind_of_ok hfirst, bind_of_ok hothers]
  rfl

theorem entries_cons (method : Method) (methods : List Method) (start : Nat)
    (positions : List Nat) :
    entries (method :: methods) (start :: positions) =
      if method.exported then (method.name, start) :: entries methods positions
      else entries methods positions := by
  rw [entries, List.zip_cons_cons, List.filter_cons]
  cases method.exported <;> rfl

/-- The code between two positions is that of the method. -/
def Placed (vm : Machine V W) (consts : List Constant) (method : Method) (start stop : Nat)
    (code : List Instr) : Prop :=
  ∃ before own after, code = before ++ (own ++ after) ∧ before.length = start ∧
    start + own.length = stop ∧ method.StopsAs vm consts own

theorem lowerMethods_placed (vm : Machine V W) {methods : List Method}
    {described : List ExportedMethod} {c c' : Compilation} (unbound : c.decls.Unbound)
    (h : lowerMethods methods c = .ok described c') :
    ∃ positions tail, bounds methods c = .ok positions c' ∧ c'.gen.code = c.gen.code ++ tail ∧
      described.map (fun m => (m.name, m.offset)) = entries methods positions ∧
      ∀ i method, methods[i]? = some method → ∃ start stop,
        positions[i]? = some start ∧ positions[i + 1]? = some stop ∧
          Placed vm c.decls.consts method start stop c'.gen.code := by
  induction methods generalizing described c with
  | nil =>
      simp only [lowerMethods] at h
      cases h
      exact ⟨[c'.gen.position], [], rfl, by simp, rfl, by simp⟩
  | cons method methods ih =>
      obtain ⟨first, c₁, others, hfirst, hothers, rfl⟩ := lowerMethods_cons_ok h
      obtain ⟨hdecls, -⟩ := Method.lower_restores hfirst (Coupled.of_unbound unbound).live
      obtain ⟨own, hown, hstops⟩ := method.lower_stopsAs vm unbound hfirst
      rw [← hdecls] at unbound
      obtain ⟨positions, tail, hbounds, htail, hentries, hplaced⟩ := ih unbound hothers
      refine ⟨c.gen.position :: positions, own ++ tail, bounds_cons hfirst hbounds,
        by simp [htail, hown], ?_, ?_⟩
      · obtain ⟨-, -, -, -, -, hname, hoffset, -⟩ := Method.lower_ok hfirst
        rw [entries_cons, ← hentries]
        cases method.exported
        · rfl
        · simp [hname, hoffset]
      · intro i m hm
        cases i with
        | zero =>
            cases hm
            refine ⟨c.gen.position, c₁.gen.position, rfl, bounds_head hbounds,
              c.gen.code, own, tail, by simp [htail, hown], rfl, ?_, hstops⟩
            rw [Generator.position, Generator.position, hown, List.length_append]
        | succ i =>
            rw [hdecls] at hplaced
            exact hplaced i m hm

/-- Once the run enters the code of a method it ends there. -/
theorem Placed.run {vm : Machine V W} {consts : List Constant} {method : Method}
    {start stop : Nat} {code : List Instr} (h : Placed vm consts method start stop code)
    (s : MachineState V W) :
    ∃ halt frame regs, method.interpret vm consts ⟨fun _ => none, s.host⟩ = .error halt frame ∧
      vm.run (code.drop start) s = .error halt ⟨regs, frame.host⟩ ∧
      start + vm.executed (code.drop start) s ≤ stop := by
  obtain ⟨before, own, after, rfl, rfl, rfl, hstops⟩ := h
  obtain ⟨halt, frame, regs, hmeaning, hrun⟩ := hstops s
  rw [List.drop_left]
  refine ⟨halt, frame, regs, hmeaning, vm.run_append_of_error hrun after, ?_⟩
  rw [vm.executed_append_of_error hrun]
  exact Nat.add_le_add_left (vm.executed_le_length own s) _

theorem assemble_entries (source : SourceModule) (options : Options) (standard : Option Standard)
    (described : List ExportedMethod) (gen : Generator) :
    ((source.assemble options standard described gen).interface.methods.map fun m =>
      (m.name, m.offset)) = described.map fun m => (m.name, m.offset) := by
  cases standard with
  | none => rfl
  | some standard =>
      simp only [assemble, Option.elim_some, Interface.applyStandard, List.map_map]
      refine List.map_congr_left fun m _ => ?_
      simp only [Function.comp_apply, Standard.apply]
      split <;> rfl

/-- The code of a module, entered where a method starts, returns, aborts or gets stuck exactly as
the method with its placeholders replaced does, leaves the same stack and the same world, and
executes nothing that lies behind the method. The interface has the starts of the exported
methods. -/
theorem compile_preserves_meaning (vm : Machine V W) (source : SourceModule) (options : Options)
    {decls decls' : Declarations} {compiled : Compiled} (unbound : decls.Unbound)
    (compiles : source.compile options decls = .ok compiled decls') :
    (source.expand decls).result = .ok (source.expanded decls) ∧
      ∃ positions c, bounds (source.expanded decls).methods ⟨decls, options.generator⟩ =
          .ok positions c ∧
        compiled.interface.methods.map (fun m => (m.name, m.offset)) =
          entries (source.expanded decls).methods positions ∧
        ∀ i method, (source.expanded decls).methods[i]? = some method →
          ∃ start stop, positions[i]? = some start ∧ positions[i + 1]? = some stop ∧
            ∀ s : MachineState V W, ∃ halt frame regs,
              method.interpret vm decls.consts ⟨fun _ => none, s.host⟩ = .error halt frame ∧
              vm.run (compiled.code.drop start) s = .error halt ⟨regs, frame.host⟩ ∧
              start + vm.executed (compiled.code.drop start) s ≤ stop := by
  obtain ⟨expands, described, c, standard, lowers, rfl, rfl⟩ := compile_ok compiles
  obtain ⟨positions, tail, hbounds, -, hentries, hplaced⟩ :=
    lowerMethods_placed vm unbound lowers
  refine ⟨expand_result expands, positions, c, hbounds, ?_, ?_⟩
  · rw [assemble_entries, hentries]
  · intro i method hmethod
    obtain ⟨start, stop, hstart, hstop, placed⟩ := hplaced i method hmethod
    exact ⟨start, stop, hstart, hstop, placed.run⟩

namespace Counter

def site : Site := ⟨⟨⟨7⟩, 1⟩, .root⟩

def table : Declarations := { vars := [⟨"x", .number, none⟩] }

def tick : Method where
  origin := site.toOrigin
  name := "tick"
  scope := .root
  params := []
  returns := .void
  body := [.expr site.toOrigin (.call site (.toBuiltin "tick" "Tick()" .number) [])]
  exported := false

/-- Adds one to its argument in place and returns the sum. -/
def increment : Method where
  origin := site.toOrigin
  name := "increment"
  scope := .root
  params := [⟨0⟩]
  returns := .number
  body := [.assign site.toOrigin ⟨0⟩ (.binary site .add (.var site ⟨0⟩) (.lit site "1" .number)),
    .ret site.toOrigin (some (.var site ⟨0⟩))]
  exported := true

def source : SourceModule := ⟨.root, [tick, increment], []⟩

/-- Values are numbers, texts stand for their lengths, and builtins count in the world. -/
def vm : Machine Nat Nat where
  text := String.length
  raw text := .ok text.length
  negate _ := .error .stuck
  operate _ a b := .ok (a + b)
  builtin name := modify fun host => { host with world := host.world + name }
  context := .ok
  enter _ := pure ()

end Counter

open Counter in
/-- The code of the second of two methods starts behind the four instructions of the first. -/
theorem compile_preserves_meaning_increment :
    ∃ compiled, table.Unbound ∧ source.compile {} table = .ok compiled table ∧
      compiled.interface.methods.map (fun m => (m.name, m.offset)) = [("increment", 4)] ∧
      ∃ regs, vm.run (compiled.code.drop 4) ⟨fun _ => 0, ⟨[5, 8], 3⟩⟩ =
          .error .returned ⟨regs, ⟨[6, 8], 3⟩⟩ ∧
        4 + vm.executed (compiled.code.drop 4) ⟨fun _ => 0, ⟨[5, 8], 3⟩⟩ ≤ 12 := by
  have unbound : table.Unbound := by decide
  obtain ⟨compiled, after, compiles, rfl⟩ :
      ∃ compiled after, source.compile {} table = .ok compiled after ∧ after = table := by
    apply Ends.succeeds
    decide +kernel
  obtain ⟨-, positions, c, hbounds, hentries, hmeaning⟩ :=
    compile_preserves_meaning vm source {} unbound compiles
  obtain ⟨starts, c', hstarts, rfl⟩ : ∃ starts c', bounds (source.expanded table).methods
      ⟨table, Options.generator {}⟩ = .ok starts c' ∧ starts = [0, 4, 12] := by
    apply Ends.succeeds
    decide +kernel
  rw [hbounds] at hstarts
  cases hstarts
  obtain ⟨start, stop, hstart, hstop, hrun⟩ := hmeaning 1 increment rfl
  cases hstart
  cases hstop
  obtain ⟨halt, frame, regs, hincrement, hran, hwithin⟩ := hrun ⟨fun _ => 0, ⟨[5, 8], 3⟩⟩
  obtain ⟨_, _, hends, rfl, hhost⟩ : ∃ halt frame,
      increment.interpret vm table.consts ⟨fun _ => none, ⟨[5, 8], 3⟩⟩ = .error halt frame ∧
        halt = .returned ∧ frame.host = ⟨[6, 8], 3⟩ := by
    apply Ends.fails
    decide +kernel
  rw [hincrement] at hends
  cases hends
  rw [hhost] at hran
  exact ⟨compiled, unbound, compiles, hentries, regs, hran, hwithin⟩

end SourceModule
end ContractLowering
