import ContractLowering.Json.Numeral
import ContractLowering.Json.Text

/-!
Tokens, and the machine that finds them. It reads one character at a time: between tokens, in a
bare word, or in a text. A word goes on until a blank, a mark or a quotation mark, and has to be
a numeral or one of the three names as a whole.
-/

namespace ContractLowering

inductive Token where
  | openArr
  | closeArr
  | openObj
  | closeObj
  | comma
  | colon
  | null
  | nat (n : Nat)
  /-- A text has no value if a half of a character stands alone in it. -/
  | text (value : Option String)
  | foreign
deriving DecidableEq, Repr

namespace Token

def isBlank (c : Char) : Bool := c = ' ' || c = '\n' || c = '\t' || c = '\r'

def ofMark? : Char → Option Token
  | '[' => some openArr
  | ']' => some closeArr
  | '{' => some openObj
  | '}' => some closeObj
  | ',' => some comma
  | ':' => some colon
  | _ => none

def endsWord (c : Char) : Bool := isBlank c || (ofMark? c).isSome || c = '"'

def ofWord? (cs : List Char) : Option Token :=
  if cs = "null".toList then some null
  else if cs = "true".toList || cs = "false".toList then some foreign
  else
    match Numeral.toNat? cs with
    | some n => some (nat n)
    | none => if Numeral.isNumeral cs then some foreign else none

/-- What the machine is in the middle of. Lists have the latest entry first. -/
inductive Mode where
  | between
  | word (chars : List Char)
  | text (codes : List Nat)
  | escape (codes : List Nat)
  | hex (codes : List Nat) (value due : Nat)
deriving DecidableEq, Repr

structure Scan where
  mode : Mode := .between
  tokens : List Token := []
deriving DecidableEq, Repr

namespace Scan

/-- A character that no token is open at. -/
def start (tokens : List Token) (c : Char) : Scan :=
  match ofMark? c with
  | some token => ⟨.between, token :: tokens⟩
  | none =>
    if isBlank c then ⟨.between, tokens⟩
    else if c = '"' then ⟨.text [], tokens⟩
    else ⟨.word [c], tokens⟩

def step (scan : Scan) (c : Char) : Option Scan :=
  match scan.mode with
  | .between => some (start scan.tokens c)
  | .word chars =>
    if endsWord c then (ofWord? chars.reverse).map fun token => start (token :: scan.tokens) c
    else some { scan with mode := .word (c :: chars) }
  | .text codes =>
    if c = '"' then some ⟨.between, text (Text.ofCodes? codes.reverse) :: scan.tokens⟩
    else if c = '\\' then some { scan with mode := .escape codes }
    else if Text.isControl c then none
    else some { scan with mode := .text (c.toNat :: codes) }
  | .escape codes =>
    if c = 'u' then some { scan with mode := .hex codes 0 4 }
    else (Text.escapedCode? c).map fun code => { scan with mode := .text (code :: codes) }
  | .hex codes value due =>
    (Text.hexValue? c).map fun digit =>
      let value := 16 * value + digit
      { scan with mode := if due ≤ 1 then .text (value :: codes) else .hex codes value (due - 1) }

/-- The tokens, if none is left unfinished. -/
def finish (scan : Scan) : Option (List Token) :=
  match scan.mode with
  | .between => some scan.tokens.reverse
  | .word chars => (ofWord? chars.reverse).map fun token => (token :: scan.tokens).reverse
  | .text _ | .escape _ | .hex .. => none

end Scan

def scan? (chars : List Char) : Option (List Token) :=
  (chars.foldlM Scan.step {}).bind Scan.finish

end Token
end ContractLowering
