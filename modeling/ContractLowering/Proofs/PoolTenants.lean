import ContractLowering.Pool

/-!
The register pool seen through its tenants. Taking a register changes the tenant of the lowest free
register only, giving one back empties that register only, and the registers that a pool hands out,
counts and lists depend on nothing but which registers are live. How many slots the pool has beyond
the last live one is of no consequence.
-/

namespace ContractLowering

attribute [ext] Register

namespace Pool

theorem occupy_tenant (tenant : Tenant) (slots : List (Option Tenant)) (i : Nat) :
    (occupy tenant slots)[i]?.join =
      if i = slots.findIdx Option.isNone then some tenant else slots[i]?.join := by
  induction slots generalizing i with
  | nil => cases i <;> simp [occupy]
  | cons slot slots ih =>
      cases slot with
      | none => cases i <;> simp [occupy, List.findIdx_cons]
      | some other => cases i <;> simp [occupy, List.findIdx_cons, ih]

theorem slot_lowestFree (slots : List (Option Tenant)) :
    slots[slots.findIdx Option.isNone]?.join = none := by
  induction slots with
  | nil => rfl
  | cons slot slots ih => cases slot <;> simp [List.findIdx_cons, ih]

theorem slot_below_lowestFree (slots : List (Option Tenant)) (i : Nat)
    (h : i < slots.findIdx Option.isNone) : (slots[i]?.join).isSome := by
  induction slots generalizing i with
  | nil => simp at h
  | cons slot slots ih =>
      cases slot with
      | none => simp [List.findIdx_cons] at h
      | some other =>
          cases i with
          | zero => rfl
          | succ i => exact ih i (by simpa [List.findIdx_cons] using h)

theorem slot_set (slots : List (Option Tenant)) (i j : Nat) :
    (slots.set i none)[j]?.join = if j = i then none else slots[j]?.join := by
  rw [List.getElem?_set]
  by_cases h : i = j
  · subst h
    by_cases hi : i < slots.length <;> simp [hi]
  · simp [h, Ne.symm h]

theorem countTenants_eq_zero (slots : List (Option Tenant))
    (h : ∀ i : Nat, (slots[i]?.join).isSome = false) : slots.countP Option.isSome = 0 := by
  rw [List.countP_eq_zero]
  intro slot hslot
  obtain ⟨i, hi⟩ := List.mem_iff_getElem?.mp hslot
  simpa [hi] using h i

/-- The count sees neither the tenants' names nor empty slots, so two lists of slots of different
lengths may have the same one. -/
theorem countTenants_congr (xs ys : List (Option Tenant))
    (h : ∀ i : Nat, (xs[i]?.join).isSome = (ys[i]?.join).isSome) :
    xs.countP Option.isSome = ys.countP Option.isSome := by
  induction xs generalizing ys with
  | nil => exact (countTenants_eq_zero ys fun i => by simpa using (h i).symm).symm
  | cons x xs ih =>
      cases ys with
      | nil => exact countTenants_eq_zero (x :: xs) fun i => by simpa using h i
      | cons y ys =>
          have head : x.isSome = y.isSome := by simpa using h 0
          have tail := ih ys fun i => by simpa using h (i + 1)
          rw [List.countP_cons, List.countP_cons, head, tail]

theorem countTenants_occupy (tenant : Tenant) (slots : List (Option Tenant)) :
    (occupy tenant slots).countP Option.isSome = slots.countP Option.isSome + 1 := by
  induction slots with
  | nil => rfl
  | cons slot slots ih => cases slot <;> simp [occupy, ih]

/-- A slot is added only if none is free, and then all of them have a tenant. -/
theorem length_occupy (tenant : Tenant) (slots : List (Option Tenant)) :
    (occupy tenant slots).length = max slots.length (slots.countP Option.isSome + 1) := by
  induction slots with
  | nil => simp [occupy]
  | cons slot slots ih =>
      cases slot with
      | none =>
          have count := slots.countP_le_length (p := Option.isSome)
          simp only [occupy, List.length_cons, List.countP_cons, Option.isSome_none]
          rw [if_neg Bool.false_ne_true]
          omega
      | some other =>
          simp only [occupy, List.length_cons, List.countP_cons, Option.isSome_some, if_true]
          omega

theorem lowestFree_lt_length_occupy (tenant : Tenant) (slots : List (Option Tenant)) :
    slots.findIdx Option.isNone < (occupy tenant slots).length := by
  induction slots with
  | nil => simp [occupy]
  | cons slot slots ih => cases slot <;> simp [occupy, List.findIdx_cons, ih]

variable (pool : Pool) (tenant : Tenant) (reg : Register)

theorem tenant?_lowestFree : pool.tenant? pool.lowestFree = none :=
  slot_lowestFree pool.slots

@[simp]
theorem tenant?_house :
    (pool.house tenant).tenant? reg =
      if reg = pool.lowestFree then some tenant else pool.tenant? reg := by
  have h := occupy_tenant tenant pool.slots reg.index
  have hreg : (reg = pool.lowestFree) = (reg.index = pool.slots.findIdx Option.isNone) := by
    simp [lowestFree, Register.ext_iff]
  simpa only [tenant?, house, hreg] using h

theorem isLive_eq_false_iff : pool.isLive reg = false ↔ pool.tenant? reg = none := by
  simp [isLive]

theorem isLive_iff : pool.isLive reg = true ↔ ∃ t, pool.tenant? reg = some t :=
  Option.isSome_iff_exists

theorem isLive_lowestFree : pool.isLive pool.lowestFree = false :=
  (pool.isLive_eq_false_iff _).mpr pool.tenant?_lowestFree

theorem isLive_below_lowestFree (h : reg.index < pool.lowestFree.index) :
    pool.isLive reg = true :=
  slot_below_lowestFree pool.slots reg.index h

theorem lowestFree_le {pool : Pool} {reg : Register} (h : pool.isLive reg = false) :
    pool.lowestFree.index ≤ reg.index := by
  refine Nat.le_of_not_lt fun below => ?_
  rw [pool.isLive_below_lowestFree reg below] at h
  cases h

theorem isLive_house :
    (pool.house tenant).isLive reg = (decide (reg = pool.lowestFree) || pool.isLive reg) := by
  by_cases h : reg = pool.lowestFree <;> simp [isLive, h]

theorem index_lt_of_isLive (h : pool.isLive reg = true) : reg.index < pool.slots.length := by
  obtain ⟨t, ht⟩ := (pool.isLive_iff reg).mp h
  refine Nat.lt_of_not_le fun hle => ?_
  simp [tenant?, List.getElem?_eq_none hle] at ht

theorem mem_liveRegisters : reg ∈ pool.liveRegisters ↔ pool.isLive reg = true := by
  simp only [liveRegisters, List.mem_filter, List.mem_map, List.mem_range, and_iff_right_iff_imp]
  intro h
  exact ⟨reg.index, pool.index_lt_of_isLive reg h, rfl⟩

@[simp]
theorem house_peak : (pool.house tenant).peak = max pool.peak (pool.liveCount + 1) := by
  simp only [house, countTenants_occupy, liveCount]

theorem liveCount_lt_of_room {pool : Pool} {limit : Nat} (hlimit : pool.limit = some limit)
    (room : pool.reachedLimit? = none) : pool.liveCount < limit := by
  rw [reachedLimit?, hlimit] at room
  simpa [Option.filter_some] using room

theorem allocate_ok {pool pool' : Pool} {origin : Origin} {name : Option String} {reg : Register}
    (h : pool.allocate origin name = .ok (reg, pool')) :
    pool.reachedLimit? = none ∧ reg = pool.lowestFree ∧ pool' = pool.house ⟨name, origin⟩ := by
  rw [allocate] at h
  cases hl : pool.reachedLimit? with
  | some limit => simp only [hl, reduceCtorEq] at h
  | none =>
      simp only [hl, Except.ok.injEq, Prod.mk.injEq] at h
      exact ⟨rfl, h.1.symm, h.2.symm⟩

/-- The pool without the tenant of one register. -/
def vacate : Pool := { pool with slots := pool.slots.set reg.index none }

@[simp]
theorem tenant?_vacate (q : Register) :
    (pool.vacate reg).tenant? q = if q = reg then none else pool.tenant? q := by
  simp only [tenant?, vacate, slot_set, Register.ext_iff]

theorem isLive_vacate (q : Register) :
    (pool.vacate reg).isLive q = (!decide (q = reg) && pool.isLive q) := by
  by_cases h : q = reg <;> simp [isLive, h]

theorem release_of_live {pool : Pool} {reg : Register} (h : pool.isLive reg = true) :
    pool.release reg = .ok (pool.vacate reg) := by
  simp only [release, h, if_true, vacate]

theorem release_ok {pool pool' : Pool} {reg : Register} (h : pool.release reg = .ok pool') :
    pool.isLive reg = true ∧ pool' = pool.vacate reg := by
  rw [release] at h
  split at h
  · exact ⟨‹_›, (Except.ok.inj h).symm⟩
  · cases h

section SameLiveRegisters

variable {pool pool' : Pool} (h : ∀ reg, pool.isLive reg = pool'.isLive reg)
include h

theorem lowestFree_congr : pool.lowestFree = pool'.lowestFree := by
  have le : pool.lowestFree.index ≤ pool'.lowestFree.index :=
    lowestFree_le (by rw [h, isLive_lowestFree])
  have ge : pool'.lowestFree.index ≤ pool.lowestFree.index :=
    lowestFree_le (by rw [← h, isLive_lowestFree])
  exact Register.ext (Nat.le_antisymm le ge)

theorem liveCount_congr : pool.liveCount = pool'.liveCount :=
  countTenants_congr pool.slots pool'.slots fun i => h ⟨i⟩

theorem reachedLimit?_congr (limit : pool.limit = pool'.limit) :
    pool.reachedLimit? = pool'.reachedLimit? := by
  rw [reachedLimit?, reachedLimit?, limit, liveCount_congr h]

theorem liveRegisters_congr : pool.liveRegisters = pool'.liveRegisters := by
  have wide (p : Pool) (n : Nat) :
      ((List.range (p.slots.length + n)).map Register.mk).filter p.isLive = p.liveRegisters := by
    induction n with
    | zero => rfl
    | succ n ih =>
        have dead : p.isLive ⟨p.slots.length + n⟩ = false := by simp [isLive, tenant?]
        rw [← Nat.add_assoc, List.range_succ, List.map_append, List.filter_append, ih]
        simp [dead]
  have live : pool.isLive = pool'.isLive := funext h
  rw [← wide pool pool'.slots.length, ← wide pool' pool.slots.length, live, Nat.add_comm]

end SameLiveRegisters

end Pool
end ContractLowering
