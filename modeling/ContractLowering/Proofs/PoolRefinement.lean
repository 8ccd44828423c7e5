import ContractLowering.Proofs.PoolTenants
import Mathlib.Data.Finmap
import Mathlib.Data.Fintype.EquivFin
import Mathlib.Order.Bounds.Basic

/-!
The register pool serves its users as a finite map from registers to tenants would, in which a register
is live if it has a tenant. Whatever is asked of the two, in any order, they give the same answers. The
slots of the pool, which the map does not have, are as many as registers were ever live at a time.
-/

namespace ContractLowering

/-- What can be asked of a pool. -/
inductive Request where
  | allocate (origin : Origin) (name : Option String)
  | release (reg : Register)

/-- The register that is handed out, nothing if one is given back, or why the request is refused. -/
abbrev Answer := Except Diagnostic (Option Register)

/-- Serves requests one after the other. Gives the answers and the state behind the last one. -/
def serveAll {σ : Type} (serve : σ → Request → Answer × σ) (start : σ) (requests : List Request) :
    List Answer × σ :=
  requests.foldl (fun run request =>
    (run.1 ++ [(serve run.2 request).1], (serve run.2 request).2)) ([], start)

theorem serveAll_append_singleton {σ : Type} (serve : σ → Request → Answer × σ) (start : σ)
    (requests : List Request) (request : Request) :
    serveAll serve start (requests ++ [request]) =
      ((serveAll serve start requests).1 ++ [(serve (serveAll serve start requests).2 request).1],
        (serve (serveAll serve start requests).2 request).2) := by
  rw [serveAll, List.foldl_append]
  rfl

/-- A refused request leaves the pool as it is. -/
def Pool.serve (pool : Pool) : Request → Answer × Pool
  | .allocate origin name =>
    match pool.allocate origin name with
    | .ok (reg, pool') => (.ok (some reg), pool')
    | .error d => (.error d, pool)
  | .release reg =>
    match pool.release reg with
    | .ok pool' => (.ok none, pool')
    | .error d => (.error d, pool)

/-- The live registers, each with its tenant. -/
abbrev Tenancy := Finmap fun _ : Register => Tenant

namespace Tenancy

theorem exists_vacant (tenancy : Tenancy) : ∃ index, Register.mk index ∉ tenancy := by
  obtain ⟨index, fresh⟩ := Infinite.exists_notMem_finset (tenancy.keys.image Register.index)
  refine ⟨index, fun member => fresh ?_⟩
  exact Finset.mem_image.mpr ⟨⟨index⟩, Finmap.mem_keys.mpr member, rfl⟩

/-- The lowest register that has no tenant. -/
def vacant (tenancy : Tenancy) : Register := ⟨Nat.find tenancy.exists_vacant⟩

/-- A register is refused if as many are live as the limit allows, and cannot be given back unless it
is live. -/
def serve (limit : Option Nat) (tenancy : Tenancy) : Request → Answer × Tenancy
  | .allocate origin name =>
    if limit = some tenancy.keys.card then
      (.error (.registerLimit origin tenancy.keys.card), tenancy)
    else (.ok (some tenancy.vacant), tenancy.insert tenancy.vacant ⟨name, origin⟩)
  | .release reg =>
    if reg ∈ tenancy then (.ok none, tenancy.erase reg)
    else (.error (.doubleRelease reg), tenancy)

end Tenancy

namespace Pool

section Requests

variable {pool : Pool}

theorem serve_allocate_of_room (room : pool.reachedLimit? = none) (origin : Origin)
    (name : Option String) :
    pool.serve (.allocate origin name) =
      (.ok (some pool.lowestFree), pool.house ⟨name, origin⟩) := by
  simp only [serve, allocate, room]

theorem serve_allocate_of_limit {limit : Nat} (reached : pool.reachedLimit? = some limit)
    (origin : Origin) (name : Option String) :
    pool.serve (.allocate origin name) = (.error (.registerLimit origin limit), pool) := by
  simp only [serve, allocate, reached]

theorem serve_release_of_live {reg : Register} (live : pool.isLive reg = true) :
    pool.serve (.release reg) = (.ok none, pool.vacate reg) := by
  simp only [serve, release_of_live live]

theorem serve_release_of_dead {reg : Register} (dead : pool.isLive reg = false) :
    pool.serve (.release reg) = (.error (.doubleRelease reg), pool) := by
  simp only [serve, release, dead, Bool.false_eq_true, if_false]

end Requests

/-- What a request does to the pool: nothing if it is refused, and else a tenant comes or goes. -/
theorem serve_cases (pool : Pool) (request : Request) :
    (∃ d, pool.serve request = (.error d, pool)) ∨
      (∃ tenant, pool.reachedLimit? = none ∧
        pool.serve request = (.ok (some pool.lowestFree), pool.house tenant)) ∨
      ∃ reg, pool.isLive reg = true ∧ pool.serve request = (.ok none, pool.vacate reg) := by
  cases request with
  | allocate origin name =>
      cases room : pool.reachedLimit? with
      | none => exact .inr (.inl ⟨_, rfl, serve_allocate_of_room room origin name⟩)
      | some limit => exact .inl ⟨_, serve_allocate_of_limit room origin name⟩
  | release reg =>
      cases live : pool.isLive reg with
      | true => exact .inr (.inr ⟨reg, live, serve_release_of_live live⟩)
      | false => exact .inl ⟨_, serve_release_of_dead live⟩

theorem liveRegisters_ascend (pool : Pool) :
    pool.liveRegisters.Pairwise fun reg reg' => reg.index < reg'.index := by
  refine List.Pairwise.filter _ (List.pairwise_map.mpr ?_)
  exact List.pairwise_lt_range

theorem liveRegisters_nodup (pool : Pool) : pool.liveRegisters.Nodup := by
  refine pool.liveRegisters_ascend.imp ?_
  intro reg reg' hlt heq
  rw [heq] at hlt
  exact Nat.lt_irrefl _ hlt

theorem length_liveRegisters (pool : Pool) : pool.liveRegisters.length = pool.liveCount := by
  have spread : (List.range pool.slots.length).map (fun i => pool.slots[i]?.join) = pool.slots := by
    refine List.ext_getElem (by simp) ?_
    intro i hi hi'
    simp [hi']
  calc pool.liveRegisters.length
      = (List.range pool.slots.length).countP (pool.isLive ∘ Register.mk) := by
        rw [liveRegisters, ← List.countP_eq_length_filter, List.countP_map]
    _ = ((List.range pool.slots.length).map fun i => pool.slots[i]?.join).countP Option.isSome := by
        rw [List.countP_map]
        rfl
    _ = pool.liveCount := by rw [spread, liveCount]

/-- The pool has the tenants of the map, and no more slots than were ever taken at a time. -/
structure Refines (limit : Option Nat) (pool : Pool) (tenancy : Tenancy) : Prop where
  limited : pool.limit = limit
  tenants : ∀ reg, pool.tenant? reg = tenancy.lookup reg
  slots : pool.slots.length = pool.peak
  within : ∀ bound, limit = some bound → pool.peak ≤ bound

namespace Refines

variable {limit : Option Nat} {pool : Pool} {tenancy : Tenancy}

theorem fresh (limit : Option Nat) : Refines limit { limit } ∅ := by
  refine ⟨rfl, ?_, rfl, fun bound _ => Nat.zero_le bound⟩
  intro reg
  rw [Finmap.lookup_empty]
  rfl

theorem isLive (h : Refines limit pool tenancy) (reg : Register) :
    pool.isLive reg = true ↔ reg ∈ tenancy := by
  rw [Pool.isLive, h.tenants, Finmap.lookup_isSome]

theorem mem_liveRegisters (h : Refines limit pool tenancy) (reg : Register) :
    reg ∈ pool.liveRegisters ↔ reg ∈ tenancy := by
  rw [Pool.mem_liveRegisters, h.isLive]

theorem liveCount (h : Refines limit pool tenancy) : pool.liveCount = tenancy.keys.card := by
  have keys : pool.liveRegisters.toFinset = tenancy.keys := by
    ext reg
    rw [List.mem_toFinset, h.mem_liveRegisters, Finmap.mem_keys]
  rw [← pool.length_liveRegisters, ← List.toFinset_card_of_nodup pool.liveRegisters_nodup, keys]

theorem liveCount_le_peak (h : Refines limit pool tenancy) : pool.liveCount ≤ pool.peak := by
  rw [← h.slots]
  exact List.countP_le_length

theorem lowestFree (h : Refines limit pool tenancy) : pool.lowestFree = tenancy.vacant := by
  refine Register.ext (Eq.symm ?_)
  rw [Tenancy.vacant, Nat.find_eq_iff]
  constructor
  · rw [← h.isLive, Pool.isLive, pool.tenant?_lowestFree]
    exact Bool.false_ne_true
  · intro index below
    rw [not_not, ← h.isLive]
    exact pool.isLive_below_lowestFree ⟨index⟩ below

/-- The limit is never exceeded, so it is reached when exactly as many registers are live. -/
theorem reachedLimit? (h : Refines limit pool tenancy) :
    pool.reachedLimit? = if limit = some tenancy.keys.card then some tenancy.keys.card else none := by
  rw [Pool.reachedLimit?, h.limited, ← h.liveCount]
  cases hlimit : limit with
  | none => rfl
  | some bound =>
      have within := h.within bound hlimit
      have count := h.liveCount_le_peak
      by_cases reached : bound = pool.liveCount
      · simp [reached]
      · have room : ¬ bound ≤ pool.liveCount := by omega
        simp [Option.filter_some, reached, room]

theorem house (h : Refines limit pool tenancy) (room : pool.reachedLimit? = none)
    (tenant : Tenant) :
    Refines limit (pool.house tenant) (tenancy.insert tenancy.vacant tenant) := by
  have peak := pool.house_peak tenant
  refine ⟨h.limited, ?_, ?_, ?_⟩
  · intro reg
    rw [Pool.tenant?_house, h.lowestFree, h.tenants]
    by_cases here : reg = tenancy.vacant
    · rw [if_pos here, here, Finmap.lookup_insert]
    · rw [if_neg here, Finmap.lookup_insert_of_ne _ here]
  · -- a slot is added if all of them have a tenant, and then the new count is the new length
    have slots := h.slots
    have grown := Pool.length_occupy tenant pool.slots
    change (occupy tenant pool.slots).length = _
    rw [peak, grown, Pool.liveCount, slots]
  · intro bound hbound
    have count := Pool.liveCount_lt_of_room (h.limited.trans hbound) room
    have within := h.within bound hbound
    rw [peak]
    omega

theorem vacate (h : Refines limit pool tenancy) (reg : Register) :
    Refines limit (pool.vacate reg) (tenancy.erase reg) := by
  refine ⟨h.limited, ?_, ?_, h.within⟩
  · intro q
    rw [Pool.tenant?_vacate, h.tenants]
    by_cases here : q = reg
    · rw [if_pos here, here, Finmap.lookup_erase]
    · rw [if_neg here, Finmap.lookup_erase_ne here]
  · rw [Pool.vacate, List.length_set]
    exact h.slots

/-- One request gets the same answer from both, and they stay in step. -/
theorem serve (h : Refines limit pool tenancy) (request : Request) :
    (pool.serve request).1 = (tenancy.serve limit request).1 ∧
      Refines limit (pool.serve request).2 (tenancy.serve limit request).2 := by
  cases request with
  | allocate origin name =>
      have reached := h.reachedLimit?
      by_cases full : limit = some tenancy.keys.card
      · rw [if_pos full] at reached
        rw [serve_allocate_of_limit reached, Tenancy.serve, if_pos full]
        exact ⟨rfl, h⟩
      · rw [if_neg full] at reached
        rw [serve_allocate_of_room reached, Tenancy.serve, if_neg full, h.lowestFree]
        exact ⟨rfl, h.house reached _⟩
  | release reg =>
      have live := h.isLive reg
      by_cases member : reg ∈ tenancy
      · rw [serve_release_of_live (live.mpr member), Tenancy.serve, if_pos member]
        exact ⟨rfl, h.vacate reg⟩
      · have dead : pool.isLive reg = false := by
          rw [← Bool.not_eq_true, live]
          exact member
        rw [serve_release_of_dead dead, Tenancy.serve, if_neg member]
        exact ⟨rfl, h⟩

/-- A request raises the peak to the number of registers live behind it, if that is higher. -/
theorem serve_peak (h : Refines limit pool tenancy) (request : Request) :
    (pool.serve request).2.peak = max pool.peak (pool.serve request).2.liveCount := by
  rcases pool.serve_cases request with ⟨d, hserve⟩ | ⟨tenant, -, hserve⟩ | ⟨reg, -, hserve⟩
  · rw [hserve]
    exact (Nat.max_eq_left h.liveCount_le_peak).symm
  · rw [hserve]
    rfl
  · rw [hserve]
    exact (Nat.max_eq_left (h.vacate reg).liveCount_le_peak).symm

theorem handed_out_lt_peak (h : Refines limit pool tenancy) {request : Request} {reg : Register}
    (answered : (pool.serve request).1 = .ok (some reg)) :
    reg.index < (pool.serve request).2.peak := by
  rcases pool.serve_cases request with ⟨d, hserve⟩ | ⟨tenant, room, hserve⟩ | ⟨reg', -, hserve⟩
  · rw [hserve] at answered
    cases answered
  · rw [hserve] at answered ⊢
    cases answered
    rw [← (h.house room tenant).slots]
    exact lowestFree_lt_length_occupy tenant pool.slots
  · rw [hserve] at answered
    cases answered

end Refines

section Runs

variable (limit : Option Nat) (requests : List Request)

theorem serveAll_refines :
    (serveAll serve { limit } requests).1 = (serveAll (Tenancy.serve limit) ∅ requests).1 ∧
      Refines limit (serveAll serve { limit } requests).2
        (serveAll (Tenancy.serve limit) ∅ requests).2 := by
  induction requests using List.reverseRecOn with
  | nil => exact ⟨rfl, .fresh limit⟩
  | append_singleton requests request ih =>
      obtain ⟨answers, refines⟩ := ih
      obtain ⟨answer, refines'⟩ := refines.serve request
      rw [serveAll_append_singleton, serveAll_append_singleton]
      refine ⟨?_, refines'⟩
      rw [answers, answer]

/-- The highest number of registers that were live at any time. -/
theorem peak_isGreatest :
    IsGreatest {count | ∃ past, past <+: requests ∧
      count = (serveAll serve { limit } past).2.liveCount}
      (serveAll serve { limit } requests).2.peak := by
  induction requests using List.reverseRecOn with
  | nil =>
      refine ⟨⟨[], List.prefix_rfl, rfl⟩, ?_⟩
      rintro count ⟨past, hpast, rfl⟩
      rw [List.prefix_nil.mp hpast]
      exact Nat.le_refl 0
  | append_singleton requests request ih =>
      obtain ⟨⟨past, hpast, attained⟩, bound⟩ := ih
      have now := serveAll_append_singleton serve { limit } requests request
      have raised := (serveAll_refines limit requests).2.serve_peak request
      rw [now]
      constructor
      · rcases max_choice (serveAll serve { limit } requests).2.peak
          (serve (serveAll serve { limit } requests).2 request).2.liveCount with hmax | hmax
        · refine ⟨past, hpast.trans (List.prefix_append _ _), ?_⟩
          exact raised.trans (hmax.trans attained)
        · refine ⟨requests ++ [request], List.prefix_rfl, ?_⟩
          rw [now]
          exact raised.trans hmax
      · rintro count ⟨past', hpast', rfl⟩
        rw [raised]
        rcases List.prefix_concat_iff.mp hpast' with rfl | earlier
        · rw [now]
          exact Nat.le_max_right _ _
        · exact (bound ⟨past', earlier, rfl⟩).trans (Nat.le_max_left _ _)

theorem handed_out_below_peak {reg : Register}
    (member : .ok (some reg) ∈ (serveAll serve { limit } requests).1) :
    reg.index < (serveAll serve { limit } requests).2.peak := by
  induction requests using List.reverseRecOn with
  | nil => cases member
  | append_singleton requests request ih =>
      have refines := (serveAll_refines limit requests).2
      rw [serveAll_append_singleton] at member ⊢
      rcases List.mem_append.mp member with earlier | last
      · have raised := refines.serve_peak request
        have below := ih earlier
        exact below.trans_le (raised ▸ Nat.le_max_left _ _)
      · exact refines.handed_out_lt_peak (List.mem_singleton.mp last).symm

/-- A pool answers any requests as the finite map does: it refuses a register only if as many are live
as the limit allows, hands out the lowest one that is not live, and takes back live ones only. The two
have the same live registers with the same tenants. The peak is the highest number of registers that
were ever live together; it is within the limit, no register was ever handed out beyond it, and there
are as many slots. A refused request changes nothing. -/
theorem serves_as_finite_map :
    ∃ answers pool tenancy,
      serveAll serve { limit } requests = (answers, pool) ∧
      serveAll (Tenancy.serve limit) ∅ requests = (answers, tenancy) ∧
      (∀ reg, pool.tenant? reg = tenancy.lookup reg) ∧
      (pool.liveRegisters.Pairwise fun reg reg' => reg.index < reg'.index) ∧
      (∀ reg, reg ∈ pool.liveRegisters ↔ reg ∈ tenancy) ∧
      pool.liveCount = tenancy.keys.card ∧
      IsGreatest {count | ∃ past, past <+: requests ∧
        count = (serveAll serve { limit } past).2.liveCount} pool.peak ∧
      (∀ bound, limit = some bound → pool.peak ≤ bound) ∧
      pool.slots.length = pool.peak ∧
      (∀ reg, .ok (some reg) ∈ answers → reg.index < pool.peak) ∧
      ∀ request d, (pool.serve request).1 = .error d → (pool.serve request).2 = pool := by
  obtain ⟨answers, refines⟩ := serveAll_refines limit requests
  refine ⟨_, _, _, rfl, Prod.ext answers.symm rfl, refines.tenants, liveRegisters_ascend _,
    refines.mem_liveRegisters, refines.liveCount, peak_isGreatest limit requests, refines.within,
    refines.slots, fun reg => handed_out_below_peak limit requests, ?_⟩
  intro request d refused
  rcases serve_cases _ request with ⟨d', hserve⟩ | ⟨tenant, -, hserve⟩ | ⟨reg, -, hserve⟩
  · rw [hserve]
  · rw [hserve] at refused
    cases refused
  · rw [hserve] at refused
    cases refused

end Runs

namespace Recycled

def origin : Origin := ⟨⟨1⟩, 1⟩

/-- One register more than two, the first one twice given back, and taken again. -/
def requests : List Request :=
  [.allocate origin none, .allocate origin none, .allocate origin none, .release ⟨0⟩, .release ⟨0⟩,
    .allocate origin (some "tmp")]

end Recycled

open Recycled in
/-- A limit that is reached, a register that is given back twice, and one that is used again. -/
theorem serves_as_finite_map_recycled :
    ∃ pool tenancy,
      serveAll serve { limit := some 2 } requests =
        ([.ok (some ⟨0⟩), .ok (some ⟨1⟩), .error (.registerLimit origin 2), .ok none,
          .error (.doubleRelease ⟨0⟩), .ok (some ⟨0⟩)], pool) ∧
      (serveAll (Tenancy.serve (some 2)) ∅ requests).2 = tenancy ∧
      tenancy.lookup ⟨0⟩ = some ⟨some "tmp", origin⟩ ∧ tenancy.keys.card = 2 ∧
      pool.peak = 2 ∧ pool.slots.length = 2 := by
  obtain ⟨answers, pool, tenancy, run, run', tenants, -, -, count, -, -, slots, -⟩ :=
    serves_as_finite_map (some 2) requests
  have hanswers : answers = (serveAll serve { limit := some 2 } requests).1 := by rw [run]
  have hpool : pool = (serveAll serve { limit := some 2 } requests).2 := by rw [run]
  refine ⟨pool, tenancy, ?_, by rw [run'], ?_, ?_, ?_, ?_⟩
  · rw [run, hanswers]
    rfl
  · rw [← tenants, hpool]
    rfl
  · rw [← count, hpool]
    rfl
  · rw [hpool]
    rfl
  · rw [slots, hpool]
    rfl

end Pool
end ContractLowering
