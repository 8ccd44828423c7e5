/-!
The grammar of numerals. Only natural numbers without a sign, a fraction or an exponent have a
value here.
-/

namespace ContractLowering
namespace Numeral

def isDigits (cs : List Char) : Bool := !cs.isEmpty && cs.all Char.isDigit

/-- No zero stands in front of other digits. -/
def isWhole (cs : List Char) : Bool := isDigits cs && (cs.head? ≠ some '0' || cs.length = 1)

def dropSign : List Char → List Char
  | '+' :: cs | '-' :: cs => cs
  | cs => cs

def isExponent : List Char → Bool
  | [] => true
  | c :: cs => (c = 'e' || c = 'E') && isDigits (dropSign cs)

def isFraction : List Char → Bool
  | '.' :: cs => isDigits (cs.takeWhile Char.isDigit) && isExponent (cs.dropWhile Char.isDigit)
  | cs => isExponent cs

def isUnsigned (cs : List Char) : Bool :=
  isWhole (cs.takeWhile Char.isDigit) && isFraction (cs.dropWhile Char.isDigit)

def isNumeral : List Char → Bool
  | '-' :: cs => isUnsigned cs
  | cs => isUnsigned cs

def toNat? (cs : List Char) : Option Nat :=
  if isWhole cs then some (Nat.ofDigitChars 10 cs 0) else none

end Numeral
end ContractLowering
