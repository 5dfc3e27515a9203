import Mathlib.Data.List.Basic
import Bqti.Core.Word

/-!
# SHA-256

The hash function of the Secure Hash Standard, FIPS 180-4, over byte strings. The program
takes it from a library, so the models have it as a parameter; this is the function that the
library computes, in a form that evaluates.
-/

namespace Bqti.Core.Sha256

/-- The round constants: fractional parts of the cube roots of the first 64 primes. -/
def roundConstants : List UInt32 := [
  0x428a2f98, 0x71374491, 0xb5c0fbcf, 0xe9b5dba5, 0x3956c25b, 0x59f111f1, 0x923f82a4, 0xab1c5ed5,
  0xd807aa98, 0x12835b01, 0x243185be, 0x550c7dc3, 0x72be5d74, 0x80deb1fe, 0x9bdc06a7, 0xc19bf174,
  0xe49b69c1, 0xefbe4786, 0x0fc19dc6, 0x240ca1cc, 0x2de92c6f, 0x4a7484aa, 0x5cb0a9dc, 0x76f988da,
  0x983e5152, 0xa831c66d, 0xb00327c8, 0xbf597fc7, 0xc6e00bf3, 0xd5a79147, 0x06ca6351, 0x14292967,
  0x27b70a85, 0x2e1b2138, 0x4d2c6dfc, 0x53380d13, 0x650a7354, 0x766a0abb, 0x81c2c92e, 0x92722c85,
  0xa2bfe8a1, 0xa81a664b, 0xc24b8b70, 0xc76c51a3, 0xd192e819, 0xd6990624, 0xf40e3585, 0x106aa070,
  0x19a4c116, 0x1e376c08, 0x2748774c, 0x34b0bcb5, 0x391c0cb3, 0x4ed8aa4a, 0x5b9cca4f, 0x682e6ff3,
  0x748f82ee, 0x78a5636f, 0x84c87814, 0x8cc70208, 0x90befffa, 0xa4506ceb, 0xbef9a3f7, 0xc67178f2]

/-- The initial hash value: fractional parts of the square roots of the first 8 primes. -/
def initialHash : List UInt32 := [
  0x6a09e667, 0xbb67ae85, 0x3c6ef372, 0xa54ff53a, 0x510e527f, 0x9b05688c, 0x1f83d9ab, 0x5be0cd19]

/-- Rotation to the right. -/
def rotr (n x : UInt32) : UInt32 := (x >>> n) ||| (x <<< (32 - n))

/-- The mixing of the word that the round starts with. -/
def bigSigma0 (x : UInt32) : UInt32 := rotr 2 x ^^^ rotr 13 x ^^^ rotr 22 x

/-- The mixing of the fifth word. -/
def bigSigma1 (x : UInt32) : UInt32 := rotr 6 x ^^^ rotr 11 x ^^^ rotr 25 x

/-- The first mixing of the message schedule. -/
def smallSigma0 (x : UInt32) : UInt32 := rotr 7 x ^^^ rotr 18 x ^^^ (x >>> 3)

/-- The second mixing of the message schedule. -/
def smallSigma1 (x : UInt32) : UInt32 := rotr 17 x ^^^ rotr 19 x ^^^ (x >>> 10)

/-- Each bit of the first word chooses between the bits of the other two. -/
def ch (x y z : UInt32) : UInt32 := (x &&& y) ^^^ (~~~x &&& z)

/-- Each bit is the one that most of the three words have. -/
def maj (x y z : UInt32) : UInt32 := (x &&& y) ^^^ (x &&& z) ^^^ (y &&& z)

/-- The eight working variables. -/
structure Working where
  a : UInt32
  b : UInt32
  c : UInt32
  d : UInt32
  e : UInt32
  f : UInt32
  g : UInt32
  h : UInt32

/-- The working variables as words of a hash value. -/
def Working.words (s : Working) : List UInt32 := [s.a, s.b, s.c, s.d, s.e, s.f, s.g, s.h]

/-- Extend the message schedule, which stands latest word first, by some words. -/
def extend : Nat → List UInt32 → List UInt32
  | 0, words => words
  | n + 1, words =>
      let word := smallSigma1 (words.getD 1 0) + words.getD 6 0 + smallSigma0 (words.getD 14 0) +
        words.getD 15 0
      extend n (word :: words)

/-- The rounds, one for each constant and word of the schedule. -/
def rounds : List UInt32 → List UInt32 → Working → Working
  | k :: ks, w :: ws, s =>
      let t1 := s.h + bigSigma1 s.e + ch s.e s.f s.g + k + w
      let t2 := bigSigma0 s.a + maj s.a s.b s.c
      rounds ks ws ⟨t1 + t2, s.a, s.b, s.c, s.d + t1, s.e, s.f, s.g⟩
  | _, _, s => s

/-- The big-endian words of a block. -/
def blockWords (block : Bytes) : List UInt32 :=
  (List.range 16).map fun i => (ofBe32 (block.drop (4 * i))).getD 0

/-- Compress one block into the hash value. -/
def compress (hash : List UInt32) (block : Bytes) : List UInt32 :=
  let start : Working := ⟨hash.getD 0 0, hash.getD 1 0, hash.getD 2 0, hash.getD 3 0,
    hash.getD 4 0, hash.getD 5 0, hash.getD 6 0, hash.getD 7 0⟩
  let schedule := (extend 48 (blockWords block).reverse).reverse
  List.zipWith (· + ·) hash (rounds roundConstants schedule start).words

/-- A one bit, zeros and the length in bits fill the message up to whole blocks. -/
def padded (message : Bytes) : Bytes :=
  message ++ 0x80 :: (List.replicate ((119 - message.length % 64) % 64) 0 ++
    numeralBytes 8 (8 * message.length))

/-- The digest of a message. -/
def digest (message : Bytes) : Vector UInt8 32 :=
  let bytes := padded message
  let blocks := (List.range (bytes.length / 64)).map fun i => (bytes.drop (64 * i)).take 64
  let hash := (blocks.foldl compress initialHash).flatMap be32
  Vector.ofFn fun i => hash.getD i 0

example : ((digest [0x61, 0x62, 0x63]).toList.take 4) = [0xba, 0x78, 0x16, 0xbf] := by
  decide +kernel

end Bqti.Core.Sha256
