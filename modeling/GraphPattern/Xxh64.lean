/-!
# The hash XXH64

A hash of 64 bits over a sequence of bytes. Stripes of thirty-two bytes are folded into four
lanes; what is left over is folded in by words of eight, four and one byte, and a final avalanche
mixes the result.
-/

namespace GraphPattern.Xxh64

/-- The first of the five odd multipliers. -/
def prime1 : UInt64 := 11400714785074694791

/-- The second of the five odd multipliers. -/
def prime2 : UInt64 := 14029467366897019727

/-- The third of the five odd multipliers. -/
def prime3 : UInt64 := 1609587929392839161

/-- The fourth of the five odd multipliers. -/
def prime4 : UInt64 := 9650029242287828579

/-- The fifth of the five odd multipliers. -/
def prime5 : UInt64 := 2870177450012600261

/-- Rotate a word to the left. The distance is neither zero nor the whole width. -/
def rotate (x : UInt64) (distance : UInt64) : UInt64 :=
  (x <<< distance) ||| (x >>> (64 - distance))

/-- The word whose lowest byte is the first one. -/
def word (bytes : List UInt8) : UInt64 := bytes.foldr (fun b w => (w <<< 8) ||| b.toUInt64) 0

/-- Fold a word into a lane. -/
def round (lane input : UInt64) : UInt64 := rotate (lane + input * prime2) 31 * prime1

/-- The four lanes. -/
structure Lanes where
  /-- The lane of the first word of each stripe. -/
  first : UInt64
  /-- The lane of the second word of each stripe. -/
  second : UInt64
  /-- The lane of the third word of each stripe. -/
  third : UInt64
  /-- The lane of the fourth word of each stripe. -/
  fourth : UInt64

namespace Lanes

/-- The lanes before any stripe. -/
def initial (seed : UInt64) : Lanes :=
  ⟨seed + prime1 + prime2, seed + prime2, seed, seed - prime1⟩

/-- Fold a stripe into the lanes. -/
def fold (l : Lanes) (stripe : List UInt8) : Lanes :=
  ⟨round l.first (word (stripe.take 8)), round l.second (word ((stripe.drop 8).take 8)),
    round l.third (word ((stripe.drop 16).take 8)), round l.fourth (word ((stripe.drop 24).take 8))⟩

/-- Fold one lane into the joined lanes. -/
def mergeRound (h lane : UInt64) : UInt64 := (h ^^^ round 0 lane) * prime1 + prime4

/-- The four lanes joined into one word. -/
def merge (l : Lanes) : UInt64 :=
  let h := rotate l.first 1 + rotate l.second 7 + rotate l.third 12 + rotate l.fourth 18
  mergeRound (mergeRound (mergeRound (mergeRound h l.first) l.second) l.third) l.fourth

end Lanes

/-- Fold a number of stripes into the lanes and return them with the bytes left over. -/
def foldStripes : Nat → Lanes → List UInt8 → Lanes × List UInt8
  | 0, l, bytes => (l, bytes)
  | n + 1, l, bytes => foldStripes n (l.fold bytes) (bytes.drop 32)

/-- Fold a word of eight bytes. -/
def foldEight (h input : UInt64) : UInt64 := rotate (h ^^^ round 0 input) 27 * prime1 + prime4

/-- Fold a word of four bytes. -/
def foldFour (h input : UInt64) : UInt64 := rotate (h ^^^ (input * prime1)) 23 * prime2 + prime3

/-- Fold a single byte. -/
def foldOne (h : UInt64) (b : UInt8) : UInt64 := rotate (h ^^^ (b.toUInt64 * prime5)) 11 * prime1

/-- Fold a number of words of eight bytes and return the bytes left over. -/
def foldEights : Nat → UInt64 → List UInt8 → UInt64 × List UInt8
  | 0, h, bytes => (h, bytes)
  | n + 1, h, bytes => foldEights n (foldEight h (word (bytes.take 8))) (bytes.drop 8)

/-- Fold fewer than thirty-two bytes. -/
def foldRest (h : UInt64) (bytes : List UInt8) : UInt64 :=
  let (h, bytes) := foldEights (bytes.length / 8) h bytes
  let (h, bytes) :=
    if 4 ≤ bytes.length then (foldFour h (word (bytes.take 4)), bytes.drop 4) else (h, bytes)
  bytes.foldl foldOne h

/-- Mix the bits of a word. -/
def avalanche (h : UInt64) : UInt64 :=
  let h := (h ^^^ (h >>> 33)) * prime2
  let h := (h ^^^ (h >>> 29)) * prime3
  h ^^^ (h >>> 32)

/-- The hash of a sequence of bytes. -/
def hash (seed : UInt64) (bytes : List UInt8) : UInt64 :=
  let stripes := bytes.length / 32
  let (lanes, rest) := foldStripes stripes (Lanes.initial seed) bytes
  let h := if stripes = 0 then seed + prime5 else lanes.merge
  avalanche (foldRest (h + bytes.length.toUInt64) rest)

example : hash 0 [] = 0xef46db3751d8e999 := by decide
example : hash 0 [0x61] = 0xd24ec4f1a98c6e5b := by decide

end GraphPattern.Xxh64
