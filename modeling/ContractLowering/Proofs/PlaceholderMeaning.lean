import ContractLowering.Proofs.ParentChains
import ContractLowering.Proofs.WellFormed

/-!
What placeholders stand for. The name of a placeholder is its word behind any number of dollar signs,
and the module that it speaks of is the nearest one around its site. Where one of these is missing,
or the symbol that is asked for, the placeholder is refused for the first thing that is missing.
-/

namespace ContractLowering
namespace Placeholder

/-- The word that a placeholder is written with. -/
def word : Placeholder → String
  | thisAddress => "THIS_ADDRESS"
  | thisSymbol => "THIS_SYMBOL"

/-- The word of the placeholder, behind any number of dollar signs. -/
def Names (name : String) (p : Placeholder) : Prop :=
  ∃ dollars, name.toList = List.replicate dollars '$' ++ p.word.toList

theorem dropWhile_eq_iff {cs rest : List Char} (plain : rest.dropWhile (· = '$') = rest) :
    cs.dropWhile (· = '$') = rest ↔ ∃ dollars, cs = List.replicate dollars '$' ++ rest := by
  constructor
  · rintro rfl
    refine ⟨(cs.takeWhile (· = '$')).length, ?_⟩
    have dollars : cs.takeWhile (· = '$') = List.replicate (cs.takeWhile (· = '$')).length '$' := by
      rw [List.eq_replicate_iff]
      exact ⟨rfl, fun c hc => by simpa using List.all_eq_true.mp List.all_takeWhile c hc⟩
    rw [← dollars, List.takeWhile_append_dropWhile]
  · rintro ⟨dollars, rfl⟩
    induction dollars with
    | zero => exact plain
    | succ n ih => rwa [List.replicate_succ, List.cons_append, List.dropWhile_cons_of_pos (by simp)]

theorem ofName?_eq (name : String) : ofName? name =
    if name.toList.dropWhile (· = '$') = thisAddress.word.toList then some thisAddress
    else if name.toList.dropWhile (· = '$') = thisSymbol.word.toList then some thisSymbol
    else none := rfl

theorem names_iff {name : String} {p : Placeholder} : Names name p ↔ ofName? name = some p := by
  have plain : p.word.toList.dropWhile (· = '$') = p.word.toList := by cases p <;> decide
  have apart : thisAddress.word.toList ≠ thisSymbol.word.toList := by decide
  rw [Names, ← dropWhile_eq_iff plain, ofName?_eq]
  generalize name.toList.dropWhile (· = '$') = bare
  cases p with
  | thisAddress =>
      generalize thisAddress.word.toList = address
      generalize thisSymbol.word.toList = symbol
      by_cases h : bare = address
      · simp [h]
      · simp [h]
  | thisSymbol =>
      generalize thisAddress.word.toList = address at apart ⊢
      generalize thisSymbol.word.toList = symbol at apart ⊢
      by_cases h : bare = address
      · simp [h, apart]
      · simp [h]

section Meaning

variable {decls : Declarations} {s : Site} {name : String}

/-- The literal that a placeholder at a site stands for. -/
inductive StandsFor (decls : Declarations) (s : Site) (name : String) : String × Kind → Prop
  | address {info : ModuleInfo} (named : Names name thisAddress)
      (inside : decls.NearestModule s.scope info) :
      StandsFor decls s name (Address.literal info.name, .address)
  | symbol {info : ModuleInfo} {symbol : String} (named : Names name thisSymbol)
      (inside : decls.NearestModule s.scope info) (has : info.symbol = some symbol) :
      StandsFor decls s name (symbol, .string)

/-- What is wrong with a placeholder at a site. The name comes first, then the module around the
site, then the symbol. -/
inductive Refused (decls : Declarations) (s : Site) (name : String) : Diagnostic → Prop
  | unknown (nameless : ¬ ∃ p, Names name p) :
      Refused decls s name (.unknownPlaceholder s.toOrigin name)
  | outside {p : Placeholder} (named : Names name p)
      (alone : ¬ ∃ info, decls.NearestModule s.scope info) :
      Refused decls s name (.placeholderOutsideModule s.toOrigin name)
  | symbolless {info : ModuleInfo} (named : Names name thisSymbol)
      (inside : decls.NearestModule s.scope info) (missing : info.symbol = none) :
      Refused decls s name (.missingSymbol s.toOrigin info.name)

/-- The name, the module or the symbol is missing. -/
def Unresolvable (decls : Declarations) (s : Site) (name : String) : Prop :=
  (¬ ∃ p, Names name p) ∨ (¬ ∃ info, decls.NearestModule s.scope info) ∨
    Names name thisSymbol ∧ ∃ info, decls.NearestModule s.scope info ∧ info.symbol = none

theorem exists_refused_iff : (∃ d, Refused decls s name d) ↔ Unresolvable decls s name := by
  constructor
  · rintro ⟨d, refused⟩
    cases refused with
    | unknown nameless => exact Or.inl nameless
    | outside _ alone => exact Or.inr (Or.inl alone)
    | symbolless named inside missing => exact Or.inr (Or.inr ⟨named, _, inside, missing⟩)
  · intro h
    by_cases named : ∃ p, Names name p
    · by_cases inside : ∃ info, decls.NearestModule s.scope info
      · rcases h with nameless | alone | ⟨symbol, info, nearest, missing⟩
        · exact absurd named nameless
        · exact absurd inside alone
        · exact ⟨_, .symbolless symbol nearest missing⟩
      · obtain ⟨p, named⟩ := named
        exact ⟨_, .outside named inside⟩
    · exact ⟨_, .unknown named⟩

/-- Where scopes come behind their parents, a placeholder has its literal or is refused. -/
theorem resolve_cases (parents : decls.ParentsFirst) (issued : decls.hasScope s.scope = true)
    (name : String) :
    (∃ literal, resolve decls s.toOrigin name s.scope = .ok literal ∧
        StandsFor decls s name literal ∧ ¬ Unresolvable decls s name) ∨
      ∃ d, resolve decls s.toOrigin name s.scope = .error (.reported d) ∧
        Refused decls s name d := by
  have inside : s.scope.index < decls.scopes.length := by
    simpa [Declarations.hasScope] using issued
  obtain ⟨owner, found, nearest⟩ := Declarations.enclosingModule_nearest parents inside
  rw [resolve, found]
  cases hname : ofName? name with
  | none =>
      refine Or.inr ⟨_, rfl, .unknown ?_⟩
      rintro ⟨p, named⟩
      rw [names_iff, hname] at named
      cases named
  | some p =>
      have named := names_iff.mpr hname
      cases owner with
      | none =>
          refine Or.inr ⟨_, rfl, .outside named ?_⟩
          rintro ⟨info, around⟩
          cases (nearest info).mpr around
      | some info =>
          have around := (nearest info).mp rfl
          cases p with
          | thisAddress =>
              refine Or.inl ⟨_, rfl, .address named around, ?_⟩
              rintro (nameless | alone | ⟨symbol, -⟩)
              · exact nameless ⟨_, named⟩
              · exact alone ⟨_, around⟩
              · rw [names_iff, hname] at symbol
                cases symbol
          | thisSymbol =>
              simp only [literal]
              cases has : info.symbol with
              | none => exact Or.inr ⟨_, rfl, .symbolless named around has⟩
              | some symbol =>
                  refine Or.inl ⟨_, rfl, .symbol named around has, ?_⟩
                  rintro (nameless | alone | ⟨-, other, nearby, missing⟩)
                  · exact nameless ⟨_, named⟩
                  · exact alone ⟨_, around⟩
                  · cases (nearest other).mpr nearby
                    rw [has] at missing
                    cases missing

end Meaning
end Placeholder
end ContractLowering
