/-! # Binary floating-point numbers of 64 bits

Numbers are held as their 64 bits: a sign bit, eleven bits of exponent and 52 bits of fraction.

* `quotient` is the quotient of two counts, rounded to the nearest number, ties to even.
* `sameNumber` compares two numbers by value: the zeros of either sign are equal, and what is not a
  number equals nothing. -/

namespace FlatGraph.Binary64

/-- `num / den` rounded to the nearest whole number, a tie to the even one. -/
def roundedQuotient (num den : Nat) : Nat :=
  let q := num / den
  let rest := 2 * (num % den)
  if rest < den ∨ (rest = den ∧ q % 2 = 0) then q else q + 1

/-- The exponent `e` for which `num / den` is in `[2 ^ e / 2 ^ 64, 2 ^ (e + 1) / 2 ^ 64)`, for
counts below `2 ^ 64`. -/
def scaledExponent (num den : Nat) : Nat :=
  let e := Nat.log2 num + 64 - Nat.log2 den
  if num <<< 64 < den <<< e then e - 1 else e

/-- The quotient of two counts below `2 ^ 32`, zero if the divisor is zero. The fraction is scaled
to 53 bits before it is rounded, so that a carry out of the fraction raises the exponent. -/
def quotient (num den : Nat) : UInt64 :=
  if num = 0 ∨ den = 0 then 0
  else
    let e := scaledExponent num den
    UInt64.ofNat ((e + 958) <<< 52 + roundedQuotient (num <<< 116) (den <<< e))

/-- The number one. -/
def one : UInt64 := 0x3ff0000000000000

/-- The bits are those of no number: all bits of the exponent are set and the fraction is not
zero. -/
def isNaN (x : UInt64) : Bool :=
  0x7ff0000000000000 < x.toNat % 0x8000000000000000

/-- The bits are those of a zero of either sign. -/
def isZero (x : UInt64) : Bool := x.toNat % 0x8000000000000000 == 0

/-- The two numbers have the same value. -/
def sameNumber (x y : UInt64) : Bool := (x == y && !isNaN x) || (isZero x && isZero y)

end FlatGraph.Binary64
