import ContractLowering.Proofs.Journal
import ContractLowering.Proofs.Operations

/-!
The journal is faithful. Whatever operations made a generator, and whichever of them failed on the way,
its journal can be replayed from the empty set: each event is possible where it stands, the events come
in the order of the code, and behind the last one the registers are live that the pool says are.
-/

namespace ContractLowering

/-- The event can happen while these registers are live: the lowest free register is allocated, or a
live one is released. -/
def RegisterEvent.Fits (live : Finset Register) (event : RegisterEvent) : Prop :=
  match event.action with
  | .allocated => event.register ∉ live ∧ ∀ reg, reg ∉ live → event.register.index ≤ reg.index
  | .released => event.register ∈ live

/-- Each event can happen behind those in front of it. -/
def Replayable (journal : List RegisterEvent) : Prop :=
  ∀ before event later, journal = before ++ event :: later → event.Fits (replay before)

theorem Replayable.append_singleton {journal : List RegisterEvent} {event : RegisterEvent}
    (h : Replayable journal) (fits : event.Fits (replay journal)) :
    Replayable (journal ++ [event]) := by
  intro before event' later hsplit
  rcases List.eq_nil_or_concat later with rfl | ⟨later', last, rfl⟩
  · obtain ⟨rfl, hlast⟩ := List.append_inj' hsplit rfl
    cases hlast
    exact fits
  · have hfront : journal ++ [event] = (before ++ event' :: later') ++ [last] := by
      rw [hsplit, List.concat_eq_append, List.append_assoc, List.cons_append]
    exact h before event' later' (List.append_inj' hfront rfl).1

namespace Generator

/-- The journal can be replayed in order, up to the live registers. -/
structure Faithful (gen : Generator) : Prop extends Recorded gen where
  replayable : Replayable gen.journal
  ordered : gen.journal.Pairwise fun event event' => event.position ≤ event'.position

namespace Faithful

variable {gen : Generator}

theorem append_ordered (h : Faithful gen) (action : RegisterAction) (reg : Register) :
    (gen.journal ++ [RegisterEvent.mk gen.position action reg]).Pairwise fun event event' =>
      event.position ≤ event'.position := by
  rw [List.pairwise_append]
  refine ⟨h.ordered, List.pairwise_singleton _ _, ?_⟩
  intro event member last hlast
  rw [List.mem_singleton.mp hlast]
  exact h.positions event member

theorem extend (h : Faithful gen) (code : List Instr) : Faithful (gen.extend code) :=
  ⟨h.toRecorded.extend code, h.replayable, h.ordered⟩

theorem take (h : Faithful gen) (tenant : Tenant) : Faithful (gen.take tenant) := by
  refine ⟨h.toRecorded.take tenant, h.replayable.append_singleton ⟨?_, ?_⟩, h.append_ordered ..⟩
  · rw [h.replayed, Bool.not_eq_true, Pool.isLive_eq_false_iff]
    exact gen.pool.tenant?_lowestFree
  · intro reg free
    rw [h.replayed] at free
    refine Nat.le_of_not_lt fun below => free ?_
    exact gen.pool.isLive_below_lowestFree reg below

theorem drop (h : Faithful gen) {reg : Register} (live : gen.pool.isLive reg = true) :
    Faithful (gen.drop reg) :=
  ⟨h.toRecorded.drop reg, h.replayable.append_singleton ((h.replayed reg).mpr live),
    h.append_ordered ..⟩

end Faithful

theorem faithful_stable : Stable Faithful :=
  ⟨fun _ code h => h.extend code, fun _ tenant _ h => h.take tenant, fun _ _ live h => h.drop live⟩

theorem faithful_fresh (options : Options) : Faithful options.generator := by
  refine ⟨recorded_fresh options, ?_, List.Pairwise.nil⟩
  intro before event later hsplit
  cases before <;> cases hsplit

/-- Replaying the journal from the empty set allocates the lowest register that is not in the set and
releases registers that are in it only, and it ends with the live registers. Positions never decrease
and are within the code. -/
theorem Built.journal_faithful {gen : Generator} (built : gen.Built) :
    (∀ before event later, gen.journal = before ++ event :: later →
      (event.action = .allocated → event.register ∉ replay before ∧
        ∀ reg, reg ∉ replay before → event.register.index ≤ reg.index) ∧
      (event.action = .released → event.register ∈ replay before)) ∧
    (∀ reg, reg ∈ replay gen.journal ↔ gen.pool.isLive reg = true) ∧
    (gen.journal.Pairwise fun event event' => event.position ≤ event'.position) ∧
    ∀ event ∈ gen.journal, event.position ≤ gen.code.length := by
  have faithful : gen.Faithful := built.invariant faithful_stable faithful_fresh
  refine ⟨?_, faithful.replayed, faithful.ordered, faithful.positions⟩
  intro before event later hsplit
  have fits := faithful.replayable before event later hsplit
  rw [RegisterEvent.Fits] at fits
  constructor
  · intro allocated
    simpa only [allocated] using fits
  · intro released
    simpa only [released] using fits

namespace Interrupted

def site : Site := ⟨⟨⟨4⟩, 2⟩, .root⟩

/-- The first variable has the register that is taken first. -/
def table : Declarations := { vars := [⟨"x", .number, some ⟨0⟩⟩, ⟨"y", .number, none⟩] }

/-- Fails at the right operand, when the left one has its register. -/
def unset : Stmt := .expr site.toOrigin (.binary site .add (.var site ⟨0⟩) (.var site ⟨1⟩))

/-- A register is taken, a statement fails on the way, a register that is not live and then the first
one are given back, and an expression uses that one again. -/
def operations : List Operation :=
  [.alloc site.toOrigin (some "x"), .lowerStmt unset, .release ⟨7⟩, .release ⟨0⟩,
    .lowerExpr (.lit site "1" .number)]

def finished : Compilation := operations.foldl Operation.after ⟨table, Options.generator {}⟩

end Interrupted

open Interrupted in
/-- The journal of a run in which two of five operations fail. -/
theorem journal_faithful_interrupted :
    finished.gen.Built ∧
    finished.gen.journal =
      [⟨0, .allocated, ⟨0⟩⟩, ⟨0, .allocated, ⟨1⟩⟩, ⟨1, .released, ⟨0⟩⟩, ⟨1, .allocated, ⟨0⟩⟩] ∧
    (∀ reg, reg ∈ replay finished.gen.journal ↔ finished.gen.pool.isLive reg = true) ∧
    (⟨0⟩ : Register) ∉ replay (finished.gen.journal.take 3) ∧
    ∀ event ∈ finished.gen.journal, event.position ≤ 2 := by
  have built : finished.gen.Built := (Built.fresh {}).afterAll table operations
  obtain ⟨steps, replayed, -, positions⟩ := built.journal_faithful
  have hjournal : finished.gen.journal =
      [⟨0, .allocated, ⟨0⟩⟩, ⟨0, .allocated, ⟨1⟩⟩, ⟨1, .released, ⟨0⟩⟩, ⟨1, .allocated, ⟨0⟩⟩] := by
    decide +kernel
  have hlength : finished.gen.code.length = 2 := by decide +kernel
  refine ⟨built, hjournal, replayed, ?_, hlength ▸ positions⟩
  have hsplit : finished.gen.journal =
      finished.gen.journal.take 3 ++ ⟨1, .allocated, ⟨0⟩⟩ :: [] := by
    rw [hjournal]
    rfl
  exact ((steps _ _ _ hsplit).1 rfl).1

end Generator
end ContractLowering
