import FlatGraph.Bytes.Word

/-! # Variable-length numbers

A number is written in groups of seven bits, lowest group first, one group a byte; the top bit of a
byte says that another group follows. A 64-bit number takes at most ten bytes.

* `encode` writes a number and `encodedLength` is the number of bytes it takes: `length_encode`.
* `decode` reads a number from the front of a list of bytes. -/

namespace FlatGraph.Varint

/-- The greatest number of bytes that a 64-bit number takes. -/
def maxLength : Nat := 10

/-- The number of bytes that `n` takes. -/
def encodedLength (n : Nat) : Nat := if n < 128 then 1 else encodedLength (n / 128) + 1

/-- The bytes of `n`. -/
def encode (n : Nat) : List UInt8 :=
  if n < 128 then [UInt8.ofNat n] else UInt8.ofNat (n % 128 + 128) :: encode (n / 128)

/-- Reads a number whose bytes are at most `room`, of which the last may hold one bit only when it
is the tenth. Answers the number and how many bytes it took. -/
def decodeWithin : (room : Nat) → List UInt8 → Option (Nat × Nat)
  | 0, _ => none
  | _ + 1, [] => none
  | room + 1, byte :: rest =>
    let chunk := byte.toNat % 128
    if room = 0 ∧ 1 < chunk then none
    else if byte.toNat < 128 then some (chunk, 1)
    else (decodeWithin room rest).map fun (high, used) => (chunk + 128 * high, used + 1)

/-- Reads a number from the front of `bytes`. There is none if the bytes end within the number or
if it does not fit in 64 bits. -/
def decode (bytes : List UInt8) : Option (Nat × Nat) := decodeWithin maxLength bytes

theorem length_encode (n : Nat) : (encode n).length = encodedLength n := by
  fun_induction encode n with
  | case1 n h => rw [encodedLength, if_pos h]; rfl
  | case2 n h ih => rw [encodedLength, if_neg h, List.length_cons, ih]

end FlatGraph.Varint
