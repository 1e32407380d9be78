/-
A deterministic 64-bit digest of a byte string.

Long inputs are absorbed 32 bytes at a time into four running lanes,
which are then merged; what is left is absorbed in words of eight bytes,
at most one word of four, and single bytes. A last mixing step spreads
every input bit over the whole result. All arithmetic is modulo 2^64,
words are read with the lowest byte first, and the number of stripes and
words is computed from the length of the input, so every recursion below
counts down a number that the input fixes.
-/

namespace StagedResolve

namespace Digest

/-- The first of the five primes that everything is mixed with. -/
def prime1 : UInt64 := 0x9E3779B185EBCA87

/-- The second prime. -/
def prime2 : UInt64 := 0xC2B2AE3D27D4EB4F

/-- The third prime. -/
def prime3 : UInt64 := 0x165667B19E3779F9

/-- The fourth prime. -/
def prime4 : UInt64 := 0x85EBCA77C2B2AE63

/-- The fifth prime. -/
def prime5 : UInt64 := 0x27D4EB2F165667C5

/-- Rotation to the left by `n` bits, for `n` between 1 and 63. -/
def rotate (x n : UInt64) : UInt64 := (x <<< n) ||| (x >>> (64 - n))

/-- The number whose bytes are the given ones, lowest byte first. -/
def word : List UInt8 → UInt64
  | [] => 0
  | b :: rest => b.toUInt64 ||| (word rest <<< 8)

/-- One word enters a lane. -/
def round (lane input : UInt64) : UInt64 := rotate (lane + input * prime2) 31 * prime1

/-- One lane enters the merged state. -/
def merge (state lane : UInt64) : UInt64 := (state ^^^ round 0 lane) * prime1 + prime4

/-- The four running lanes of a long input. -/
structure Lanes where
  first : UInt64
  second : UInt64
  third : UInt64
  fourth : UInt64

/-- The lanes before anything is absorbed. -/
def Lanes.start : Lanes := ⟨prime1 + prime2, prime2, 0, 0 - prime1⟩

/-- One stripe of 32 bytes enters the lanes, one word each. -/
def Lanes.absorb (v : Lanes) (bytes : List UInt8) : Lanes :=
  { first := round v.first (word (bytes.take 8))
    second := round v.second (word ((bytes.drop 8).take 8))
    third := round v.third (word ((bytes.drop 16).take 8))
    fourth := round v.fourth (word ((bytes.drop 24).take 8)) }

/-- The first `n` stripes enter the lanes. -/
def Lanes.absorbStripes : Nat → Lanes → List UInt8 → Lanes
  | 0, v, _ => v
  | n + 1, v, bytes => absorbStripes n (v.absorb bytes) (bytes.drop 32)

/-- The four lanes become one state. -/
def Lanes.merged (v : Lanes) : UInt64 :=
  let mixed := rotate v.first 1 + rotate v.second 7 + rotate v.third 12 + rotate v.fourth 18
  merge (merge (merge (merge mixed v.first) v.second) v.third) v.fourth

/-- The first `n` words of eight bytes enter the state. -/
def absorbWords : Nat → UInt64 → List UInt8 → UInt64
  | 0, h, _ => h
  | n + 1, h, bytes =>
    absorbWords n (rotate (h ^^^ round 0 (word (bytes.take 8))) 27 * prime1 + prime4)
      (bytes.drop 8)

/-- A word of four bytes enters the state. -/
def absorbHalfWord (h : UInt64) (bytes : List UInt8) : UInt64 :=
  rotate (h ^^^ (word (bytes.take 4) * prime1)) 23 * prime2 + prime3

/-- Single bytes enter the state. -/
def absorbBytes : UInt64 → List UInt8 → UInt64
  | h, [] => h
  | h, b :: rest => absorbBytes (rotate (h ^^^ (b.toUInt64 * prime5)) 11 * prime1) rest

/-- What is left after the stripes, fewer than 32 bytes, enters the state. -/
def absorbTail (h : UInt64) (bytes : List UInt8) : UInt64 :=
  let words := bytes.length / 8
  let h := absorbWords words h bytes
  let rest := bytes.drop (8 * words)
  if 4 ≤ rest.length then absorbBytes (absorbHalfWord h rest) (rest.drop 4)
  else absorbBytes h rest

/-- The last mixing step. -/
def finish (h : UInt64) : UInt64 :=
  let h := (h ^^^ (h >>> 33)) * prime2
  let h := (h ^^^ (h >>> 29)) * prime3
  h ^^^ (h >>> 32)

/-- The digest of a list of bytes. -/
def ofBytes (bytes : List UInt8) : UInt64 :=
  let stripes := bytes.length / 32
  let start := if stripes = 0 then prime5 else (Lanes.start.absorbStripes stripes bytes).merged
  finish (absorbTail (start + UInt64.ofNat bytes.length) (bytes.drop (32 * stripes)))

/-- The digest of a text is the digest of its UTF-8 bytes. -/
def ofString (s : String) : UInt64 := ofBytes s.toUTF8.data.toList

/-- Sixteen lower-case hexadecimal digits, highest first. -/
def hex (x : UInt64) : String :=
  String.ofList <| (List.range 16).reverse.map fun i =>
    Nat.digitChar ((x >>> UInt64.ofNat (4 * i)) &&& 15).toNat

end Digest

end StagedResolve
