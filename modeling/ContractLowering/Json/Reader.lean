import ContractLowering.Json.Basic
import ContractLowering.Json.Token

/-!
From tokens to values. The machine knows where in the whole the next token stands: the path lists
the containers that are open there, the innermost first, each with what it already holds.
-/

namespace ContractLowering
namespace Json

/-- An open container at the place of one of its entries. Entries before it are listed with the
latest first. The key of a member has no value if a half of a character stands alone in it. -/
inductive Frame where
  | item (before : List Json)
  | member (before : List (Option String × Json)) (key : Option String)

inductive Place where
  /-- A value has to follow. -/
  | value (path : List Frame)
  /-- An array was opened; a first item or its end has to follow. -/
  | opened (path : List Frame)
  /-- A key has to follow, or the end of an object that has no member. -/
  | key (path : List Frame) (before : List (Option String × Json))
  | colon (path : List Frame) (before : List (Option String × Json)) (key : Option String)
  /-- A value is complete. -/
  | filled (value : Json) (path : List Frame)

/-- An object with a key that has no value is of no use. -/
def ofMembers (members : List (Option String × Json)) : Json :=
  match members.mapM fun (key, value) => key.map (·, value) with
  | some members => obj members
  | none => foreign

namespace Place

/-- The place after the first token of a value. -/
def enter (path : List Frame) : Token → Option Place
  | .openArr => some (opened path)
  | .openObj => some (key path [])
  | .null => some (filled null path)
  | .nat n => some (filled (nat n) path)
  | .text (some s) => some (filled (str s) path)
  | .text none | .foreign => some (filled foreign path)
  | .closeArr | .closeObj | .comma | .colon => none

def step (place : Place) (token : Token) : Option Place :=
  match place with
  | value path => enter path token
  | opened path =>
    match token with
    | .closeArr => some (filled (arr []) path)
    | _ => enter (.item [] :: path) token
  | key path before =>
    match token, before with
    | .text name, _ => some (colon path before name)
    | .closeObj, [] => some (filled (obj []) path)
    | _, _ => none
  | colon path before name =>
    match token with
    | .colon => some (value (.member before name :: path))
    | _ => none
  | filled j (.item before :: path) =>
    match token with
    | .comma => some (value (.item (j :: before) :: path))
    | .closeArr => some (filled (arr (j :: before).reverse) path)
    | _ => none
  | filled j (.member before name :: path) =>
    match token with
    | .comma => some (key path ((name, j) :: before))
    | .closeObj => some (filled (ofMembers ((name, j) :: before).reverse) path)
    | _ => none
  | filled _ [] => none

/-- The whole value, if nothing is left open. -/
def finish : Place → Option Json
  | filled j [] => some j
  | _ => none

end Place

def ofTokens? (tokens : List Token) : Option Json :=
  (tokens.foldlM Place.step (.value [])).bind Place.finish

/-- Reads a text that holds one value, with blanks around any token. -/
def parse? (s : String) : Option Json := (Token.scan? s.toList).bind ofTokens?

end Json
end ContractLowering
