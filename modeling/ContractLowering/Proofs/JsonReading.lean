import ContractLowering.Json.Reader
import ContractLowering.Proofs.JsonScanning

/-!
Reading what was written. From the place of a value, the tokens of a value lead to the place where that
value is complete, whatever is open around it. So the text of a value is read as that value, with or
without blanks between its tokens.
-/

namespace ContractLowering
namespace Json

/-- The value that is read from a place on. -/
def readFrom (place : Place) (tokens : List Token) : Option Json :=
  (tokens.foldlM Place.step place).bind Place.finish

theorem readFrom_cons {place next : Place} {token : Token} (h : place.step token = some next)
    (tokens : List Token) : readFrom place (token :: tokens) = readFrom next tokens := by
  rw [readFrom, List.foldlM_cons, h]
  rfl

/-- Reading the tokens of the value leads past it, whatever is open around it. -/
def ReadsPast (j : Json) : Prop :=
  ∀ path rest, readFrom (.value path) (j.tokens ++ rest) = readFrom (.filled j path) rest

/-- A value does not begin with the end of an array. -/
theorem tokens_eq_cons (j : Json) :
    ∃ token others, j.tokens = token :: others ∧ token ≠ .closeArr := by
  cases j with
  | arr items => cases items <;> exact ⟨_, _, by rw [tokens], by decide⟩
  | obj members => cases members <;> exact ⟨_, _, by rw [tokens], by decide⟩
  | null => exact ⟨.null, [], by rw [tokens], by simp⟩
  | nat n => exact ⟨.nat n, [], by rw [tokens], by simp⟩
  | str s => exact ⟨.text (some s), [], by rw [tokens], by simp⟩
  | foreign => exact ⟨.foreign, [], by rw [tokens], by simp⟩

/-- The place of a first item, where the array may end, is as good for a value as any other. -/
theorem readFrom_opened (j : Json) (path : List Frame) (rest : List Token) :
    readFrom (.opened path) (j.tokens ++ rest) =
      readFrom (.value (.item [] :: path)) (j.tokens ++ rest) := by
  obtain ⟨token, others, htokens, hne⟩ := j.tokens_eq_cons
  have same : (Place.opened path).step token = (Place.value (.item [] :: path)).step token := by
    cases token <;> first | rfl | exact absurd rfl hne
  rw [htokens, List.cons_append, readFrom, readFrom, List.foldlM_cons, List.foldlM_cons, same]

/-- Behind an item, the others and the closing mark complete the array. -/
theorem readFrom_items {js : List Json} (ih : ∀ j ∈ js, ReadsPast j) (j : Json)
    (before : List Json) (path : List Frame) (rest : List Token) :
    readFrom (.filled j (.item before :: path)) (itemTokens js ++ .closeArr :: rest) =
      readFrom (.filled (arr (before.reverse ++ j :: js)) path) rest := by
  induction js generalizing j before with
  | nil =>
      rw [itemTokens, List.nil_append, readFrom_cons rfl, List.reverse_cons]
  | cons next js ihjs =>
      rw [itemTokens, List.cons_append, List.append_assoc, readFrom_cons rfl,
        ih next List.mem_cons_self, ihjs (fun j hj => ih j (List.mem_cons_of_mem _ hj)),
        List.reverse_cons, List.append_assoc]
      rfl

/-- The members of an object as the reader keeps them. -/
def keyed (members : List (String × Json)) : List (Option String × Json) :=
  members.map fun m => (some m.1, m.2)

theorem ofMembers_keyed (members : List (String × Json)) : ofMembers (keyed members) = obj members := by
  rw [ofMembers]
  suffices all : (keyed members).mapM _ = some members by rw [all]
  induction members with
  | nil => rfl
  | cons m members ih =>
      rw [keyed] at ih
      rw [keyed, List.map_cons, List.mapM_cons, ih]
      rfl

theorem keyed_append (before : List (String × Json)) (key : String) (j : Json) :
    (keyed (before ++ [(key, j)])).reverse = (some key, j) :: (keyed before).reverse := by
  simp [keyed]

theorem readFrom_members {members : List (String × Json)} (ih : ∀ m ∈ members, ReadsPast m.2)
    (key : String) (j : Json) (before : List (String × Json)) (path : List Frame)
    (rest : List Token) :
    readFrom (.filled j (.member (keyed before).reverse (some key) :: path))
        (memberTokens members ++ .closeObj :: rest) =
      readFrom (.filled (obj (before ++ (key, j) :: members)) path) rest := by
  induction members generalizing key j before with
  | nil =>
      -- The reader holds the members last one first.
      have closed : ofMembers ((some key, j) :: (keyed before).reverse).reverse =
          obj (before ++ [(key, j)]) := by
        rw [← keyed_append, List.reverse_reverse, ofMembers_keyed]
      rw [memberTokens, List.nil_append, readFrom_cons rfl, closed]
  | cons m members ihms =>
      obtain ⟨next, j'⟩ := m
      rw [memberTokens, List.cons_append, List.cons_append, List.cons_append, List.append_assoc,
        readFrom_cons rfl, readFrom_cons rfl, readFrom_cons rfl, ih _ List.mem_cons_self,
        ← keyed_append, ihms (fun m hm => ih m (List.mem_cons_of_mem _ hm)), List.append_assoc]
      rfl

theorem readsPast (j : Json) : ReadsPast j := by
  induction j with
  | null | nat n | str s | foreign =>
      intro path rest
      rw [tokens, List.cons_append, readFrom_cons rfl, List.nil_append]
  | arr items ih =>
      intro path rest
      cases items with
      | nil =>
          rw [tokens, List.cons_append, List.cons_append, readFrom_cons rfl, readFrom_cons rfl,
            List.nil_append]
      | cons j js =>
          rw [tokens, List.cons_append, List.append_assoc, List.append_assoc, readFrom_cons rfl,
            readFrom_opened, ih j List.mem_cons_self, List.singleton_append,
            readFrom_items fun j hj => ih j (List.mem_cons_of_mem _ hj)]
          rfl
  | obj members ih =>
      intro path rest
      cases members with
      | nil =>
          rw [tokens, List.cons_append, List.cons_append, readFrom_cons rfl, readFrom_cons rfl,
            List.nil_append]
      | cons m members =>
          obtain ⟨key, j⟩ := m
          have others := readFrom_members (fun m hm => ih m (List.mem_cons_of_mem _ hm)) key j []
          rw [tokens, List.cons_append, List.cons_append, List.cons_append, List.append_assoc,
            List.append_assoc, readFrom_cons rfl, readFrom_cons rfl, readFrom_cons rfl,
            ih _ List.mem_cons_self, List.singleton_append]
          exact others path rest

theorem parse?_write {layout : Layout} (blank : layout.IsBlank) (j : Json) :
    parse? (String.ofList (j.write layout 0)) = some j := by
  have read := j.readsPast [] []
  rw [List.append_nil] at read
  rw [parse?, String.toList_ofList, scan?_write blank]
  exact read

theorem parse?_compact (j : Json) : parse? j.compact = some j := parse?_write Layout.compact_isBlank j

theorem parse?_pretty (j : Json) : parse? j.pretty = some j := parse?_write Layout.indented_isBlank j

end Json
end ContractLowering
