import Bqti.Core.Sha256

/-!
# SHA-1

The older hash function of the Secure Hash Standard, FIPS 180-4, over byte strings, in a form
that evaluates; the models have it as a parameter. Messages are padded as for SHA-256.
-/

namespace Bqti.Core.Sha1

/-- Rotation to the left. -/
def rotl (n x : UInt32) : UInt32 := (x <<< n) ||| (x >>> (32 - n))

/-- The five words of a hash value. -/
structure Working where
  a : UInt32
  b : UInt32
  c : UInt32
  d : UInt32
  e : UInt32

/-- The working variables as words. -/
def Working.words (s : Working) : List UInt32 := [s.a, s.b, s.c, s.d, s.e]

/-- The initial hash value. -/
def initialHash : Working := ⟨0x67452301, 0xefcdab89, 0x98badcfe, 0x10325476, 0xc3d2e1f0⟩

/-- The mixing function of a round. -/
def mix (round : Nat) (x y z : UInt32) : UInt32 :=
  if round < 20 then (x &&& y) ^^^ (~~~x &&& z)
  else if 40 ≤ round ∧ round < 60 then (x &&& y) ^^^ (x &&& z) ^^^ (y &&& z)
  else x ^^^ y ^^^ z

/-- The constant of a round. -/
def roundConstant (round : Nat) : UInt32 :=
  if round < 20 then 0x5a827999
  else if round < 40 then 0x6ed9eba1
  else if round < 60 then 0x8f1bbcdc
  else 0xca62c1d6

/-- Extend the message schedule, which stands latest word first, by some words. -/
def extend : Nat → List UInt32 → List UInt32
  | 0, words => words
  | n + 1, words =>
      let word := rotl 1 (words.getD 2 0 ^^^ words.getD 7 0 ^^^ words.getD 13 0 ^^^
        words.getD 15 0)
      extend n (word :: words)

/-- One round. -/
def step (s : Working) (round : Nat) (word : UInt32) : Working :=
  ⟨rotl 5 s.a + mix round s.b s.c s.d + s.e + roundConstant round + word, s.a, rotl 30 s.b, s.c,
    s.d⟩

/-- Take a block into the hash value. -/
def compress (s : Working) (block : Bytes) : Working :=
  let schedule := (extend 64 (Sha256.blockWords block).reverse).reverse
  let out := (schedule.zipIdx).foldl (fun acc entry => step acc entry.2 entry.1) s
  ⟨s.a + out.a, s.b + out.b, s.c + out.c, s.d + out.d, s.e + out.e⟩

/-- The digest of a message. -/
def digest (message : Bytes) : Vector UInt8 20 :=
  let bytes := Sha256.padded message
  let blocks := (List.range (bytes.length / 64)).map fun i => (bytes.drop (64 * i)).take 64
  let hash := (blocks.foldl compress initialHash).words.flatMap be32
  Vector.ofFn fun i => hash.getD i 0

example : ((digest [0x61, 0x62, 0x63]).toList.take 4) = [0xa9, 0x99, 0x3e, 0x36] := by
  decide +kernel

end Bqti.Core.Sha1
