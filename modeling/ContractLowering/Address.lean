import ContractLowering.Sha256

/-!
Addresses of contracts. A contract's address follows from its name alone: a byte for the kind of
address, a zero byte, and the digest of the name.
-/

namespace ContractLowering
namespace Address

/-- The byte that marks the address of a contract. -/
def contractKind : UInt8 := 3

def ofContract (name : String) : List UInt8 :=
  contractKind :: 0 :: Sha256.digest name.toUTF8.data.toList

def hexDigits (byte : UInt8) : List Char :=
  [(byte.toNat / 16).digitChar, (byte.toNat % 16).digitChar]

/-- The address as the source language writes it, in lower-case hexadecimal. -/
def literal (name : String) : String :=
  "0x" ++ String.ofList ((ofContract name).flatMap hexDigits)

end Address
end ContractLowering
