import ContractLowering.Diagnostic

/-!
A tree worked through from left to right, up to the first failure. What stands before the failing
node has its new form, and the node and what follows it are as they were.
-/

namespace ContractLowering

structure Progress (α : Type) where
  value : α
  failure : Option Failure

namespace Progress

def done {α : Type} (a : α) : Progress α := ⟨a, none⟩

def stopped {α : Type} (a : α) (e : Failure) : Progress α := ⟨a, some e⟩

def map {α β : Type} (f : α → β) (p : Progress α) : Progress β := ⟨f p.value, p.failure⟩

/-- Joins two parts. The second keeps the form it had if the first one failed. -/
def both {α β γ : Type} (f : α → β → γ) (first : Progress α) (before : β) (second : Progress β) :
    Progress γ :=
  match first.failure with
  | none => second.map (f first.value)
  | some e => stopped (f first.value before) e

def traverse {α : Type} (f : α → Progress α) : List α → Progress (List α)
  | [] => done []
  | a :: as => both List.cons (f a) as (traverse f as)

/-- The whole result, if there was no failure. -/
def result {α : Type} (p : Progress α) : Except Failure α :=
  match p.failure with
  | none => .ok p.value
  | some e => .error e

end Progress
end ContractLowering
