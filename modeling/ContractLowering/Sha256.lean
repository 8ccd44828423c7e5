/-!
The SHA-256 digest of a list of bytes.
-/

namespace ContractLowering
namespace Sha256

structure Working where
  a : UInt32
  b : UInt32
  c : UInt32
  d : UInt32
  e : UInt32
  f : UInt32
  g : UInt32
  h : UInt32
deriving DecidableEq, Repr

namespace Working

def initial : Working :=
  ⟨0x6a09e667, 0xbb67ae85, 0x3c6ef372, 0xa54ff53a, 0x510e527f, 0x9b05688c, 0x1f83d9ab, 0x5be0cd19⟩

def add (v w : Working) : Working :=
  ⟨v.a + w.a, v.b + w.b, v.c + w.c, v.d + w.d, v.e + w.e, v.f + w.f, v.g + w.g, v.h + w.h⟩

def words (v : Working) : List UInt32 := [v.a, v.b, v.c, v.d, v.e, v.f, v.g, v.h]

end Working

def roundConstants : List UInt32 :=
  [0x428a2f98, 0x71374491, 0xb5c0fbcf, 0xe9b5dba5, 0x3956c25b, 0x59f111f1, 0x923f82a4, 0xab1c5ed5,
   0xd807aa98, 0x12835b01, 0x243185be, 0x550c7dc3, 0x72be5d74, 0x80deb1fe, 0x9bdc06a7, 0xc19bf174,
   0xe49b69c1, 0xefbe4786, 0x0fc19dc6, 0x240ca1cc, 0x2de92c6f, 0x4a7484aa, 0x5cb0a9dc, 0x76f988da,
   0x983e5152, 0xa831c66d, 0xb00327c8, 0xbf597fc7, 0xc6e00bf3, 0xd5a79147, 0x06ca6351, 0x14292967,
   0x27b70a85, 0x2e1b2138, 0x4d2c6dfc, 0x53380d13, 0x650a7354, 0x766a0abb, 0x81c2c92e, 0x92722c85,
   0xa2bfe8a1, 0xa81a664b, 0xc24b8b70, 0xc76c51a3, 0xd192e819, 0xd6990624, 0xf40e3585, 0x106aa070,
   0x19a4c116, 0x1e376c08, 0x2748774c, 0x34b0bcb5, 0x391c0cb3, 0x4ed8aa4a, 0x5b9cca4f, 0x682e6ff3,
   0x748f82ee, 0x78a5636f, 0x84c87814, 0x8cc70208, 0x90befffa, 0xa4506ceb, 0xbef9a3f7, 0xc67178f2]

def rotateRight (x amount : UInt32) : UInt32 := (x >>> amount) ||| (x <<< (32 - amount))

/-- The next word of the message schedule, from the words so far with the latest first. -/
def nextWord (words : List UInt32) : UInt32 :=
  let w15 := words.getD 14 0
  let w2 := words.getD 1 0
  let s0 := rotateRight w15 7 ^^^ rotateRight w15 18 ^^^ (w15 >>> 3)
  let s1 := rotateRight w2 17 ^^^ rotateRight w2 19 ^^^ (w2 >>> 10)
  words.getD 15 0 + s0 + words.getD 6 0 + s1

def extend : Nat → List UInt32 → List UInt32
  | 0, words => words
  | n + 1, words => extend n (nextWord words :: words)

/-- The sixteen words of a block, then the forty-eight made of them. -/
def schedule (block : List UInt32) : List UInt32 := (extend 48 block.reverse).reverse

/-- One round with a round constant and a word of the schedule. -/
def round (v : Working) (constant word : UInt32) : Working :=
  let s1 := rotateRight v.e 6 ^^^ rotateRight v.e 11 ^^^ rotateRight v.e 25
  let choice := (v.e &&& v.f) ^^^ (~~~v.e &&& v.g)
  let t1 := v.h + s1 + choice + constant + word
  let s0 := rotateRight v.a 2 ^^^ rotateRight v.a 13 ^^^ rotateRight v.a 22
  let majority := (v.a &&& v.b) ^^^ (v.a &&& v.c) ^^^ (v.b &&& v.c)
  ⟨t1 + (s0 + majority), v.a, v.b, v.c, v.d + t1, v.e, v.f, v.g⟩

def compress (v : Working) (block : List UInt32) : Working :=
  v.add ((roundConstants.zip (schedule block)).foldl (fun w p => round w p.1 p.2) v)

/-- Four bytes to a word, the highest first. -/
def wordsOfBytes : List UInt8 → List UInt32
  | b3 :: b2 :: b1 :: b0 :: bytes =>
    ((b3.toUInt32 <<< 24) ||| (b2.toUInt32 <<< 16) ||| (b1.toUInt32 <<< 8) ||| b0.toUInt32) ::
      wordsOfBytes bytes
  | _ => []

def bytesOfWord (w : UInt32) : List UInt8 :=
  [(w >>> 24).toUInt8, (w >>> 16).toUInt8, (w >>> 8).toUInt8, w.toUInt8]

/-- What follows a message of this many bytes: a mark, zeros up to the last eight bytes of a
block, and the length in bits. -/
def padding (length : Nat) : List UInt8 :=
  let zeros : List UInt8 := List.replicate ((119 - length % 64) % 64) 0
  let bits := (List.range 8).map fun i => UInt8.ofNat ((8 * length) >>> (8 * (7 - i)))
  0x80 :: zeros ++ bits

def absorb : Nat → Working → List UInt32 → Working
  | 0, v, _ => v
  | blocks + 1, v, words => absorb blocks (compress v (words.take 16)) (words.drop 16)

def digest (message : List UInt8) : List UInt8 :=
  let words := wordsOfBytes (message ++ padding message.length)
  (absorb (words.length / 16) .initial words).words.flatMap bytesOfWord

end Sha256
end ContractLowering
