import ContractLowering.Proofs.Routines
import ContractLowering.Proofs.SoundSteps
import Mathlib.Data.Finset.Basic

/-!
The journal of register events. Replayed from the beginning it gives the registers that are live, and
replayed up to a position in the code those that were live when the instruction there was emitted. No
register of the journal lies at or above the peak of the pool, and the peak is within the limit.
-/

namespace ContractLowering

def RegisterEvent.apply (live : Finset Register) (event : RegisterEvent) : Finset Register :=
  match event.action with
  | .allocated => insert event.register live
  | .released => live.erase event.register

/-- The registers that are live after the events. -/
def replay (journal : List RegisterEvent) : Finset Register :=
  journal.foldl RegisterEvent.apply ∅

/-- The registers that are live once all events up to the position have happened. -/
def liveAt (journal : List RegisterEvent) (position : Nat) : Finset Register :=
  replay (journal.filter fun event => event.position ≤ position)

theorem replay_append_singleton (journal : List RegisterEvent) (event : RegisterEvent) :
    replay (journal ++ [event]) = event.apply (replay journal) := by
  rw [replay, List.foldl_append]
  rfl

theorem exists_event_of_mem_replay {journal : List RegisterEvent} {reg : Register}
    (h : reg ∈ replay journal) : ∃ event ∈ journal, event.register = reg := by
  induction journal using List.reverseRecOn with
  | nil => cases h
  | append_singleton journal event ih =>
      rw [replay_append_singleton] at h
      by_cases heq : event.register = reg
      · exact ⟨event, by simp, heq⟩
      · have before : reg ∈ replay journal := by
          rw [RegisterEvent.apply] at h
          split at h
          · exact (Finset.mem_insert.mp h).resolve_left (Ne.symm heq)
          · exact Finset.mem_of_mem_erase h
        obtain ⟨event', member, hreg⟩ := ih before
        exact ⟨event', List.mem_append_left _ member, hreg⟩

/-- An event behind the position does not count. -/
theorem liveAt_append_of_lt {journal : List RegisterEvent} {event : RegisterEvent} {position : Nat}
    (h : position < event.position) : liveAt (journal ++ [event]) position = liveAt journal position := by
  rw [liveAt, liveAt, List.filter_append]
  simp [h]

theorem liveAt_of_le {journal : List RegisterEvent} {position : Nat}
    (h : ∀ event ∈ journal, event.position ≤ position) : liveAt journal position = replay journal := by
  rw [liveAt, List.filter_eq_self.mpr]
  simpa using h

namespace Generator

/-- The journal tells which registers are live, and speaks of no position yet to come. -/
structure Recorded (gen : Generator) : Prop where
  positions : ∀ event ∈ gen.journal, event.position ≤ gen.position
  replayed : ∀ reg, reg ∈ replay gen.journal ↔ gen.pool.isLive reg = true

/-- From a position on, the instructions mention registers only that are live where they stand. -/
def MentionsLive (gen : Generator) (start : Nat) : Prop :=
  ∀ i instr, start ≤ i → gen.code[i]? = some instr → ∀ reg ∈ instr.registers,
    reg ∈ liveAt gen.journal i

/-- The code begins with the given instructions, and those behind them mention live registers only. -/
structure AppendsLive (base : List Instr) (gen : Generator) : Prop where
  grown : base <+: gen.code
  mentions : gen.MentionsLive base.length

structure Accounted (base : List Instr) (gen : Generator) : Prop extends
  Recorded gen, AppendsLive base gen

variable {base : List Instr} {gen : Generator}

namespace Recorded

theorem extend (h : Recorded gen) (code : List Instr) : Recorded (gen.extend code) := by
  refine ⟨?_, h.replayed⟩
  intro event member
  have before := h.positions event member
  simp only [position, extend_code, List.length_append] at before ⊢
  omega

theorem append_positions (h : Recorded gen) (action : RegisterAction) (reg : Register) :
    ∀ event ∈ gen.journal ++ [⟨gen.position, action, reg⟩], event.position ≤ gen.position := by
  intro event member
  rcases List.mem_append.mp member with member | member
  · exact h.positions event member
  · rw [List.mem_singleton.mp member]

theorem take (h : Recorded gen) (tenant : Tenant) : Recorded (gen.take tenant) := by
  refine ⟨h.append_positions .allocated _, ?_⟩
  intro reg
  rw [take_journal, replay_append_singleton, take_pool, Pool.isLive_house]
  simp [RegisterEvent.apply, h.replayed]

theorem drop (h : Recorded gen) (reg : Register) : Recorded (gen.drop reg) := by
  refine ⟨h.append_positions .released reg, ?_⟩
  intro q
  rw [drop_journal, replay_append_singleton, drop_pool, Pool.isLive_vacate]
  simp [RegisterEvent.apply, h.replayed]

end Recorded

theorem recorded_stable : Stable Recorded :=
  ⟨fun _ code h => h.extend code, fun _ tenant _ h => h.take tenant, fun _ reg _ h => h.drop reg⟩

theorem recorded_fresh (options : Options) : Recorded options.generator := by
  refine ⟨by simp [Options.generator], ?_⟩
  intro reg
  simp [Options.generator, replay, Pool.isLive, Pool.tenant?]

namespace Accounted

theorem extend (h : Accounted base gen) {code : List Instr}
    (mentioned : ∀ instr ∈ code, ∀ reg ∈ instr.registers, gen.pool.isLive reg = true) :
    Accounted base (gen.extend code) := by
  refine ⟨h.toRecorded.extend code, h.grown.trans (List.prefix_append _ _), ?_⟩
  intro i instr hstart hinstr reg hreg
  rw [extend_code] at hinstr
  rw [extend_journal]
  by_cases old : i < gen.code.length
  · rw [List.getElem?_append_left old] at hinstr
    exact h.mentions i instr hstart hinstr reg hreg
  · -- all events so far have a position up to that of the new instruction
    rw [List.getElem?_append_right (Nat.le_of_not_lt old)] at hinstr
    rw [liveAt_of_le fun event member =>
      (h.positions event member).trans (Nat.le_of_not_lt old), h.replayed]
    exact mentioned instr (List.mem_of_getElem? hinstr) reg hreg

/-- An event that happens now comes behind all instructions there are. -/
theorem append_mentions (h : Accounted base gen) (action : RegisterAction) (reg : Register) :
    ∀ i instr, base.length ≤ i → gen.code[i]? = some instr → ∀ q ∈ instr.registers,
      q ∈ liveAt (gen.journal ++ [⟨gen.position, action, reg⟩]) i := by
  intro i instr hstart hinstr q hq
  obtain ⟨inside, -⟩ := List.getElem?_eq_some_iff.mp hinstr
  rw [liveAt_append_of_lt inside]
  exact h.mentions i instr hstart hinstr q hq

theorem take (h : Accounted base gen) (tenant : Tenant) : Accounted base (gen.take tenant) :=
  ⟨h.toRecorded.take tenant, h.grown, h.append_mentions .allocated _⟩

theorem drop (h : Accounted base gen) (reg : Register) : Accounted base (gen.drop reg) :=
  ⟨h.toRecorded.drop reg, h.grown, h.append_mentions .released reg⟩

theorem dropAll (h : Accounted base gen) (regs : List Register) :
    Accounted base (regs.foldl Generator.drop gen) := by
  induction regs generalizing gen with
  | nil => exact h
  | cons reg regs ih => exact ih (h.drop reg)

end Accounted

/-- Nothing is appended yet. -/
theorem Recorded.accounted (h : Recorded gen) : Accounted gen.code gen := by
  refine ⟨h, List.prefix_rfl, ?_⟩
  intro i instr hstart hinstr
  rw [List.getElem?_eq_none hstart] at hinstr
  cases hinstr

/-- No register ever taken lies at or above the peak, and the peak is within the limit. -/
structure WithinPeak (gen : Generator) : Prop where
  slots : gen.pool.slots.length ≤ gen.pool.peak
  events : ∀ event ∈ gen.journal, event.register.index < gen.pool.peak
  limit : ∀ limit, gen.pool.limit = some limit → gen.pool.peak ≤ limit

theorem WithinPeak.take (h : WithinPeak gen) (tenant : Tenant)
    (room : gen.pool.reachedLimit? = none) : WithinPeak (gen.take tenant) := by
  have slots := h.slots
  have grown := Pool.length_occupy tenant gen.pool.slots
  have inside := Pool.lowestFree_lt_length_occupy tenant gen.pool.slots
  have peak := gen.pool.house_peak tenant
  rw [Pool.liveCount] at peak
  refine ⟨?_, ?_, ?_⟩
  · change (Pool.occupy tenant gen.pool.slots).length ≤ (gen.pool.house tenant).peak
    omega
  · intro event member
    change event.register.index < (gen.pool.house tenant).peak
    rcases List.mem_append.mp member with member | member
    · have before := h.events event member
      omega
    · rw [List.mem_singleton.mp member]
      change gen.pool.slots.findIdx Option.isNone < (gen.pool.house tenant).peak
      omega
  · intro limit hlimit
    change gen.pool.limit = some limit at hlimit
    have within := h.limit limit hlimit
    have count := Pool.liveCount_lt_of_room hlimit room
    rw [Pool.liveCount] at count
    change (gen.pool.house tenant).peak ≤ limit
    omega

theorem WithinPeak.drop (h : WithinPeak gen) {reg : Register}
    (live : gen.pool.isLive reg = true) : WithinPeak (gen.drop reg) := by
  refine ⟨?_, ?_, h.limit⟩
  · rw [drop_pool, Pool.vacate, List.length_set]
    exact h.slots
  · intro event member
    rcases List.mem_append.mp member with member | member
    · exact h.events event member
    · rw [List.mem_singleton.mp member]
      exact Nat.lt_of_lt_of_le (gen.pool.index_lt_of_isLive reg live) h.slots

theorem withinPeak_stable : Stable WithinPeak :=
  ⟨fun _ _ h => ⟨h.slots, h.events, h.limit⟩, fun _ tenant room h => h.take tenant room,
    fun _ _ live h => h.drop live⟩

/-- A register that is mentioned where it is live has been taken before. -/
theorem WithinPeak.mentioned (h : WithinPeak gen) (mentions : gen.MentionsLive 0) {instr : Instr}
    (member : instr ∈ gen.code) {reg : Register} (hreg : reg ∈ instr.registers) :
    reg.index < gen.pool.peak := by
  obtain ⟨i, hi⟩ := List.mem_iff_getElem?.mp member
  obtain ⟨event, hevent, rfl⟩ :=
    exists_event_of_mem_replay (mentions i instr (Nat.zero_le i) hi reg hreg)
  exact h.events event (List.mem_of_mem_filter hevent)

theorem withinPeak_fresh (options : Options) : WithinPeak options.generator :=
  ⟨Nat.le_refl 0, by simp [Options.generator], fun limit _ => Nat.zero_le limit⟩

end Generator

theorem Compilation.Step.accounted {base : List Instr} {c c' : Compilation} (step : Step c c')
    (h : c.gen.Accounted base) : c'.gen.Accounted base := by
  cases step with
  | extend code mentioned => exact h.extend mentioned
  | take tenant => exact h.take tenant
  | drop reg spare => exact h.drop reg
  | bind hv tenant spare hbind => exact h
  | leave regs => exact h.dropAll regs

theorem Compilation.Steps.appendsLive {c c' : Compilation} (h : Steps c c')
    (recorded : c.gen.Recorded) : c'.gen.AppendsLive c.gen.code := by
  have accounted := h.invariant (fun _ _ => Step.accounted) recorded.accounted
  exact accounted.toAppendsLive

end ContractLowering
