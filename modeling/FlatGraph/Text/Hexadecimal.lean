/-! # Hexadecimal numerals of fixed width

Numbers in messages are written with a fixed count of lower-case hexadecimal digits. -/

namespace FlatGraph.Text

/-- The `width` lowest hexadecimal digits of `n`, most significant first. -/
def hexadecimal : (width : Nat) → (n : Nat) → List Char
  | 0, _ => []
  | width + 1, n => Nat.digitChar ((n >>> (4 * width)) % 16) :: hexadecimal width n

/-- `n` as `0x` and `width` hexadecimal digits. -/
def prefixedHexadecimal (width n : Nat) : String := "0x" ++ String.ofList (hexadecimal width n)

end FlatGraph.Text
