/-! # Little-endian words

Words of a fixed number of bytes, least significant byte first, in a byte array.

* `wordAt` reads a word in place, `wordBytes` writes one: `length_wordBytes`.
* `Record` is a structure of fixed width that is read in place and written as bytes; `Table.readAt`,
  `Table.ofBytes?` and `Table.push` are tables of such records. -/

namespace FlatGraph.Bytes

/-- Byte arrays are equal if their bytes are. -/
instance (priority := 1001) decidableEqBytes : DecidableEq ByteArray := fun b c =>
  decidable_of_iff (b.data = c.data) ByteArray.ext_iff.symm

/-! ### Words -/

/-- Byte `i`, zero past the end. -/
def byteAt (b : ByteArray) (i : Nat) : UInt8 := if h : i < b.size then b[i] else 0

/-- The little-endian word of the given number of bytes that starts at byte `i`. -/
def wordAt (b : ByteArray) (i : Nat) : (width : Nat) → Nat
  | 0 => 0
  | width + 1 => (byteAt b i).toNat + 256 * wordAt b (i + 1) width

/-- The `width` low bytes of `n`, least significant first. -/
def wordBytes : (width : Nat) → (n : Nat) → List UInt8
  | 0, _ => []
  | width + 1, n => UInt8.ofNat n :: wordBytes width (n / 256)

theorem length_wordBytes (width n : Nat) : (wordBytes width n).length = width := by
  induction width generalizing n with
  | zero => rfl
  | succ width ih => rw [wordBytes, List.length_cons, ih]

/-- The 16-bit word at byte `i`. -/
def u16At (b : ByteArray) (i : Nat) : UInt16 := UInt16.ofNat (wordAt b i 2)

/-- The 32-bit word at byte `i`. -/
def u32At (b : ByteArray) (i : Nat) : UInt32 := UInt32.ofNat (wordAt b i 4)

/-- The 64-bit word at byte `i`. -/
def u64At (b : ByteArray) (i : Nat) : UInt64 := UInt64.ofNat (wordAt b i 8)

/-! ### Runs of bytes -/

/-- The `count` bytes from byte `start` on, zero past the end. -/
def run (b : ByteArray) (start : Nat) : (count : Nat) → List UInt8
  | 0 => []
  | count + 1 => byteAt b start :: run b (start + 1) count

/-- Appends the bytes of a list. -/
def append (b : ByteArray) (bytes : List UInt8) : ByteArray := bytes.foldl ByteArray.push b

/-- Appends `count` zero bytes. -/
def appendZeros (b : ByteArray) : (count : Nat) → ByteArray
  | 0 => b
  | count + 1 => appendZeros (b.push 0) count

/-- The first `size` bytes, with zeros past the end. -/
def resize (b : ByteArray) (size : Nat) : ByteArray :=
  appendZeros (b.extract 0 size) (size - b.size)

/-- The least multiple of eight from `n` on. -/
def align (n : Nat) : Nat := (n + 7) / 8 * 8

/-- Appends zeros up to a multiple of eight bytes. -/
def appendAligned (b : ByteArray) : ByteArray := appendZeros b (align b.size - b.size)

theorem length_run (b : ByteArray) (start count : Nat) : (run b start count).length = count := by
  induction count generalizing start with
  | zero => rfl
  | succ count ih => rw [run, List.length_cons, ih]

theorem resize_size (b : ByteArray) : resize b b.size = b := by
  rw [resize, Nat.sub_self, appendZeros, ByteArray.extract_zero_size]

theorem le_align (n : Nat) : n ≤ align n := by unfold align; omega

theorem align_lt (n : Nat) : align n < n + 8 := by unfold align; omega

end FlatGraph.Bytes

namespace FlatGraph

open Bytes

/-! ### Records of fixed width -/

/-- A structure that takes `width` bytes and is read in place. -/
class Record (α : Type) where
  width : Nat
  bytes : α → List UInt8
  readAt : ByteArray → Nat → α

/-- The one record that fills `b`, if `b` has its width. -/
def Record.ofBytes? (α : Type) [Record α] (b : ByteArray) : Option α :=
  if b.size = Record.width α then some (Record.readAt b 0) else none

namespace Table

variable {α : Type} [Record α]

/-- The table of `count` records that starts at byte `start`. -/
def readAt (b : ByteArray) (start count : Nat) : Array α :=
  Array.ofFn fun i : Fin count => Record.readAt b (start + i * Record.width α)

/-- The table that fills `b`, if `b` is a whole number of records. -/
def ofBytes? (α : Type) [Record α] (b : ByteArray) : Option (Array α) :=
  if b.size % Record.width α = 0 then some (readAt b 0 (b.size / Record.width α)) else none

/-- Appends the records of a table in order. -/
def push (b : ByteArray) (records : List α) : ByteArray :=
  records.foldl (fun b r => append b (Record.bytes r)) b

theorem size_readAt (b : ByteArray) (start count : Nat) :
    (readAt b start count : Array α).size = count := Array.size_ofFn

end Table

/-- A slot is a bare 64-bit word. -/
instance : Record UInt64 where
  width := 8
  bytes w := wordBytes 8 w.toNat
  readAt := u64At

end FlatGraph
