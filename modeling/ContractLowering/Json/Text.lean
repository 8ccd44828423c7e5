/-!
Text inside quotation marks. An escape may give one half of a character beyond the basic plane,
so text is read as a list of codes first. The text has a value if every half stands in front of
or behind its other half.
-/

namespace ContractLowering
namespace Text

def isHighHalf (code : Nat) : Bool := 0xD800 ≤ code && code < 0xDC00

def isLowHalf (code : Nat) : Bool := 0xDC00 ≤ code && code < 0xE000

def isHalf (code : Nat) : Bool := isHighHalf code || isLowHalf code

def joinHalves (high low : Nat) : Nat := 0x10000 + 0x400 * (high - 0xD800) + (low - 0xDC00)

def charsOfCodes? : List Nat → Option (List Char)
  | [] => some []
  | [code] => if isHalf code then none else some [Char.ofNat code]
  | code :: next :: codes =>
    if isHighHalf code && isLowHalf next then
      (charsOfCodes? codes).map (Char.ofNat (joinHalves code next) :: ·)
    else if isHalf code then none
    else (charsOfCodes? (next :: codes)).map (Char.ofNat code :: ·)

def ofCodes? (codes : List Nat) : Option String := (charsOfCodes? codes).map String.ofList

/-- The code that a single character behind a backslash stands for. -/
def escapedCode? : Char → Option Nat
  | '"' => some 0x22
  | '\\' => some 0x5C
  | '/' => some 0x2F
  | 'b' => some 0x08
  | 'f' => some 0x0C
  | 'n' => some 0x0A
  | 'r' => some 0x0D
  | 't' => some 0x09
  | _ => none

def hexValue? (c : Char) : Option Nat :=
  if '0' ≤ c ∧ c ≤ '9' then some (c.toNat - 0x30)
  else if 'a' ≤ c ∧ c ≤ 'f' then some (c.toNat - 0x61 + 10)
  else if 'A' ≤ c ∧ c ≤ 'F' then some (c.toNat - 0x41 + 10)
  else none

/-- Control characters may not stand in a text as they are. -/
def isControl (c : Char) : Bool := c.toNat < 0x20

/-- A character as it is written. Control characters without a short escape are written by
their code, and every other character stands for itself. -/
def escape (c : Char) : List Char :=
  if c = '"' then ['\\', '"']
  else if c = '\\' then ['\\', '\\']
  else if c = '\x08' then ['\\', 'b']
  else if c = '\x0c' then ['\\', 'f']
  else if c = '\n' then ['\\', 'n']
  else if c = '\r' then ['\\', 'r']
  else if c = '\t' then ['\\', 't']
  else if isControl c then
    ['\\', 'u', '0', '0', (c.toNat / 16).digitChar, (c.toNat % 16).digitChar]
  else [c]

def quote (s : String) : List Char := '"' :: s.toList.flatMap escape ++ ['"']

end Text
end ContractLowering
