/-! # The 64-bit digest XXH3

The digest of a byte array with seed zero and the standard secret. Inputs of up to 16, 128 and 240
bytes have short rules of their own; a longer input runs eight accumulators over stripes of 64
bytes, sixteen stripes a block.

All arithmetic is modulo `2 ^ 64`. -/

namespace FlatGraph.Digest

/-! ### Constants -/

/-- The standard secret. -/
def secret : ByteArray :=
  ⟨#[
    0xb8, 0xfe, 0x6c, 0x39, 0x23, 0xa4, 0x4b, 0xbe, 0x7c, 0x01, 0x81, 0x2c, 0xf7, 0x21, 0xad, 0x1c,
    0xde, 0xd4, 0x6d, 0xe9, 0x83, 0x90, 0x97, 0xdb, 0x72, 0x40, 0xa4, 0xa4, 0xb7, 0xb3, 0x67, 0x1f,
    0xcb, 0x79, 0xe6, 0x4e, 0xcc, 0xc0, 0xe5, 0x78, 0x82, 0x5a, 0xd0, 0x7d, 0xcc, 0xff, 0x72, 0x21,
    0xb8, 0x08, 0x46, 0x74, 0xf7, 0x43, 0x24, 0x8e, 0xe0, 0x35, 0x90, 0xe6, 0x81, 0x3a, 0x26, 0x4c,
    0x3c, 0x28, 0x52, 0xbb, 0x91, 0xc3, 0x00, 0xcb, 0x88, 0xd0, 0x65, 0x8b, 0x1b, 0x53, 0x2e, 0xa3,
    0x71, 0x64, 0x48, 0x97, 0xa2, 0x0d, 0xf9, 0x4e, 0x38, 0x19, 0xef, 0x46, 0xa9, 0xde, 0xac, 0xd8,
    0xa8, 0xfa, 0x76, 0x3f, 0xe3, 0x9c, 0x34, 0x3f, 0xf9, 0xdc, 0xbb, 0xc7, 0xc7, 0x0b, 0x4f, 0x1d,
    0x8a, 0x51, 0xe0, 0x4b, 0xcd, 0xb4, 0x59, 0x31, 0xc8, 0x9f, 0x7e, 0xc9, 0xd9, 0x78, 0x73, 0x64,
    0xea, 0xc5, 0xac, 0x83, 0x34, 0xd3, 0xeb, 0xc3, 0xc5, 0x81, 0xa0, 0xff, 0xfa, 0x13, 0x63, 0xeb,
    0x17, 0x0d, 0xdd, 0x51, 0xb7, 0xf0, 0xda, 0x49, 0xd3, 0x16, 0x55, 0x26, 0x29, 0xd4, 0x68, 0x9e,
    0x2b, 0x16, 0xbe, 0x58, 0x7d, 0x47, 0xa1, 0xfc, 0x8f, 0xf8, 0xb8, 0xd1, 0x7a, 0xd0, 0x31, 0xce,
    0x45, 0xcb, 0x3a, 0x8f, 0x95, 0x16, 0x04, 0x28, 0xaf, 0xd7, 0xfb, 0xca, 0xbb, 0x4b, 0x40, 0x7e]⟩

def prime32First : UInt64 := 0x9e3779b1
def prime32Second : UInt64 := 0x85ebca77
def prime32Third : UInt64 := 0xc2b2ae3d
def prime64First : UInt64 := 0x9e3779b185ebca87
def prime64Second : UInt64 := 0xc2b2ae3d27d4eb4f
def prime64Third : UInt64 := 0x165667b19e3779f9
def prime64Fourth : UInt64 := 0x85ebca77c2b2ae63
def prime64Fifth : UInt64 := 0x27d4eb2f165667c5

/-! ### Words and mixing -/

/-- Byte `i` as a word, zero past the end. -/
def byte (b : ByteArray) (i : Nat) : UInt64 := if h : i < b.size then b[i].toUInt64 else 0

/-- The little-endian 32-bit word at byte `i`. -/
def half (b : ByteArray) (i : Nat) : UInt64 :=
  byte b i ||| (byte b (i + 1) <<< 8) ||| (byte b (i + 2) <<< 16) ||| (byte b (i + 3) <<< 24)

/-- The little-endian 64-bit word at byte `i`. -/
def word (b : ByteArray) (i : Nat) : UInt64 := half b i ||| (half b (i + 4) <<< 32)

/-- The bytes of `x` in reverse order. -/
def swapBytes (x : UInt64) : UInt64 :=
  let x := ((x &&& 0x00ff00ff00ff00ff) <<< 8) ||| ((x >>> 8) &&& 0x00ff00ff00ff00ff)
  let x := ((x &&& 0x0000ffff0000ffff) <<< 16) ||| ((x >>> 16) &&& 0x0000ffff0000ffff)
  (x <<< 32) ||| (x >>> 32)

/-- `x` rotated left by `k` bits, `0 < k < 64`. -/
def rotate (x k : UInt64) : UInt64 := (x <<< k) ||| (x >>> (64 - k))

/-- The two halves of the 128-bit product, combined by exclusive or. -/
def foldProduct (x y : UInt64) : UInt64 :=
  let product := x.toNat * y.toNat
  UInt64.ofNat product ^^^ UInt64.ofNat (product >>> 64)

/-- The last mixing step of the long rules. -/
def avalanche (h : UInt64) : UInt64 :=
  let h := (h ^^^ (h >>> 37)) * 0x165667919e3779f9
  h ^^^ (h >>> 32)

/-- The last mixing step of the rule for up to three bytes. -/
def strongAvalanche (h : UInt64) : UInt64 :=
  let h := (h ^^^ (h >>> 33)) * prime64Second
  let h := (h ^^^ (h >>> 29)) * prime64Third
  h ^^^ (h >>> 32)

/-- Sixteen bytes of input at `i` mixed with sixteen bytes of the secret at `s`. -/
def mixSixteen (b : ByteArray) (i s : Nat) : UInt64 :=
  foldProduct (word b i ^^^ word secret s) (word b (i + 8) ^^^ word secret (s + 8))

/-! ### Short inputs -/

/-- The digest of at most three bytes. -/
def upToThree (b : ByteArray) : UInt64 :=
  if b.size = 0 then strongAvalanche (word secret 56 ^^^ word secret 64)
  else
    let combined := (byte b 0 <<< 16) ||| (byte b (b.size / 2) <<< 24) ||| byte b (b.size - 1) |||
      (UInt64.ofNat b.size <<< 8)
    strongAvalanche (combined ^^^ half secret 0 ^^^ half secret 4)

/-- The digest of four to eight bytes. -/
def upToEight (b : ByteArray) : UInt64 :=
  let length := UInt64.ofNat b.size
  let keyed := (half b (b.size - 4) + (half b 0 <<< 32)) ^^^ word secret 8 ^^^ word secret 16
  let h := keyed ^^^ rotate keyed 49 ^^^ rotate keyed 24
  let h := h * 0x9fb21c651e98df25
  let h := (h ^^^ ((h >>> 35) + length)) * 0x9fb21c651e98df25
  h ^^^ (h >>> 28)

/-- The digest of nine to sixteen bytes. -/
def upToSixteen (b : ByteArray) : UInt64 :=
  let low := word b 0 ^^^ word secret 24 ^^^ word secret 32
  let high := word b (b.size - 8) ^^^ word secret 40 ^^^ word secret 48
  avalanche (UInt64.ofNat b.size + swapBytes low + high + foldProduct low high)

/-- The sum of the pairs of sixteen-byte mixes from both ends inwards. -/
def endMixes (b : ByteArray) : (pairs : Nat) → UInt64
  | 0 => 0
  | k + 1 => endMixes b k + mixSixteen b (16 * k) (32 * k) +
      mixSixteen b (b.size - 16 * (k + 1)) (32 * k + 16)

/-- The digest of 17 to 128 bytes. -/
def upToMiddle (b : ByteArray) : UInt64 :=
  avalanche (UInt64.ofNat b.size * prime64First + endMixes b ((b.size - 1) / 32 + 1))

/-- The sum of `count` sixteen-byte mixes from byte `i` of the input and `s` of the secret on. -/
def runMixes (b : ByteArray) (i s : Nat) : (count : Nat) → UInt64
  | 0 => 0
  | k + 1 => mixSixteen b i s + runMixes b (i + 16) (s + 16) k

/-- The digest of 129 to 240 bytes. -/
def upToLarge (b : ByteArray) : UInt64 :=
  let start := avalanche (UInt64.ofNat b.size * prime64First + runMixes b 0 0 8)
  avalanche (start + runMixes b 128 3 (b.size / 16 - 8) + mixSixteen b (b.size - 16) 119)

/-! ### Long inputs -/

/-- The eight accumulators. -/
structure Lanes where
  a : UInt64
  b : UInt64
  c : UInt64
  d : UInt64
  e : UInt64
  f : UInt64
  g : UInt64
  h : UInt64

/-- The accumulators before the first stripe. -/
def Lanes.start : Lanes :=
  ⟨prime32Third, prime64First, prime64Second, prime64Third, prime64Fourth, prime32Second,
    prime64Fifth, prime32First⟩

/-- The product of the two 32-bit halves of a keyed word. -/
def halvesProduct (x : UInt64) : UInt64 := (x &&& (0xffffffff : UInt64)) * (x >>> (32 : UInt64))

/-- Adds the stripe of 64 bytes at `i` under the secret at `s`: each lane takes the product of its
keyed word and the plain word of its neighbour. -/
def Lanes.addStripe (input : ByteArray) (l : Lanes) (i s : Nat) : Lanes :=
  let w0 := word input i
  let w1 := word input (i + 8)
  let w2 := word input (i + 16)
  let w3 := word input (i + 24)
  let w4 := word input (i + 32)
  let w5 := word input (i + 40)
  let w6 := word input (i + 48)
  let w7 := word input (i + 56)
  ⟨l.a + w1 + halvesProduct (w0 ^^^ word secret s),
    l.b + w0 + halvesProduct (w1 ^^^ word secret (s + 8)),
    l.c + w3 + halvesProduct (w2 ^^^ word secret (s + 16)),
    l.d + w2 + halvesProduct (w3 ^^^ word secret (s + 24)),
    l.e + w5 + halvesProduct (w4 ^^^ word secret (s + 32)),
    l.f + w4 + halvesProduct (w5 ^^^ word secret (s + 40)),
    l.g + w7 + halvesProduct (w6 ^^^ word secret (s + 48)),
    l.h + w6 + halvesProduct (w7 ^^^ word secret (s + 56))⟩

/-- One lane scrambled under the secret at `s`. -/
def scrambleLane (x : UInt64) (s : Nat) : UInt64 :=
  (x ^^^ (x >>> 47) ^^^ word secret s) * prime32First

/-- The scramble at the end of a block. -/
def Lanes.scramble (l : Lanes) : Lanes :=
  ⟨scrambleLane l.a 128, scrambleLane l.b 136, scrambleLane l.c 144, scrambleLane l.d 152,
    scrambleLane l.e 160, scrambleLane l.f 168, scrambleLane l.g 176, scrambleLane l.h 184⟩

/-- Adds `count` stripes from byte `i` on, the secret moving on by eight bytes a stripe. -/
def Lanes.addStripes (input : ByteArray) (i s : Nat) : (count : Nat) → Lanes → Lanes
  | 0, l => l
  | k + 1, l => Lanes.addStripes input (i + 64) (s + 8) k (l.addStripe input i s)

/-- Adds `count` blocks of sixteen stripes from byte `i` on. -/
def Lanes.addBlocks (input : ByteArray) (i : Nat) : (count : Nat) → Lanes → Lanes
  | 0, l => l
  | k + 1, l => Lanes.addBlocks input (i + 1024) k (l.addStripes input i 0 16).scramble

/-- The accumulators folded into one word. -/
def Lanes.merge (l : Lanes) (start : UInt64) : UInt64 :=
  avalanche (start +
    foldProduct (l.a ^^^ word secret 11) (l.b ^^^ word secret 19) +
    foldProduct (l.c ^^^ word secret 27) (l.d ^^^ word secret 35) +
    foldProduct (l.e ^^^ word secret 43) (l.f ^^^ word secret 51) +
    foldProduct (l.g ^^^ word secret 59) (l.h ^^^ word secret 67))

/-- The digest of more than 240 bytes. The last stripe ends with the input and may overlap the
stripe before it. -/
def beyondLarge (b : ByteArray) : UInt64 :=
  let blocks := (b.size - 1) / 1024
  let stripes := ((b.size - 1) - 1024 * blocks) / 64
  let lanes := Lanes.start.addBlocks b 0 blocks
  let lanes := lanes.addStripes b (1024 * blocks) 0 stripes
  let lanes := lanes.addStripe b (b.size - 64) 121
  lanes.merge (UInt64.ofNat b.size * prime64First)

/-- **The digest.** -/
def xxh3 (b : ByteArray) : UInt64 :=
  if b.size ≤ 3 then upToThree b
  else if b.size ≤ 8 then upToEight b
  else if b.size ≤ 16 then upToSixteen b
  else if b.size ≤ 128 then upToMiddle b
  else if b.size ≤ 240 then upToLarge b
  else beyondLarge b

end FlatGraph.Digest
