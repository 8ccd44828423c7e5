import ContractLowering.Diagnostic

/-!
The register pool. A slot is free or holds a tenant, and a register is live while its slot has
one. The lowest free register is handed out first, and a pool with a limit refuses to hold more
live registers than that. A refused request leaves the pool as it is.
-/

namespace ContractLowering

/-- What the pool knows about a live register: a name for the reader and the node it serves. -/
structure Tenant where
  name : Option String
  origin : Origin
deriving DecidableEq, Repr

structure Pool where
  slots : List (Option Tenant) := []
  limit : Option Nat := none
  peak : Nat := 0
deriving DecidableEq, Repr

namespace Pool

def tenant? (pool : Pool) (reg : Register) : Option Tenant := pool.slots[reg.index]?.join

def isLive (pool : Pool) (reg : Register) : Bool := (pool.tenant? reg).isSome

def name? (pool : Pool) (reg : Register) : Option String := (pool.tenant? reg).bind Tenant.name

def origin? (pool : Pool) (reg : Register) : Option Origin := (pool.tenant? reg).map Tenant.origin

def liveCount (pool : Pool) : Nat := pool.slots.countP Option.isSome

/-- The live registers in ascending order. -/
def liveRegisters (pool : Pool) : List Register :=
  ((List.range pool.slots.length).map Register.mk).filter pool.isLive

/-- The lowest register that is not live; it lies one past the slots when all of them are taken. -/
def lowestFree (pool : Pool) : Register := ⟨pool.slots.findIdx Option.isNone⟩

/-- Puts a tenant into the lowest free slot, or into a new one behind the others. -/
def occupy (tenant : Tenant) : List (Option Tenant) → List (Option Tenant)
  | [] => [some tenant]
  | none :: slots => some tenant :: slots
  | some other :: slots => some other :: occupy tenant slots

/-- Gives a tenant a slot, and raises the peak if more registers are live than ever before. -/
def house (pool : Pool) (tenant : Tenant) : Pool :=
  let slots := occupy tenant pool.slots
  { pool with slots, peak := max pool.peak (slots.countP Option.isSome) }

/-- The limit, once as many registers are live as it allows. -/
def reachedLimit? (pool : Pool) : Option Nat := pool.limit.filter (· ≤ pool.liveCount)

def allocate (pool : Pool) (origin : Origin) (name : Option String) :
    Except Diagnostic (Register × Pool) :=
  match pool.reachedLimit? with
  | some limit => .error (.registerLimit origin limit)
  | none => .ok (pool.lowestFree, pool.house ⟨name, origin⟩)

def release (pool : Pool) (reg : Register) : Except Diagnostic Pool :=
  if pool.isLive reg then .ok { pool with slots := pool.slots.set reg.index none }
  else .error (.doubleRelease reg)

end Pool
end ContractLowering
