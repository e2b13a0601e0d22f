import Mathlib.Algebra.Order.Ring.Nat
import Mathlib.Data.List.Basic
import FlatGraph.Bytes.Word

/-! # Bytes at a place of a file

What is appended to a byte array stays where it was put, and a word, a record or a table that was
put somewhere is read back from there.

* `At b i bytes`: the bytes are in the byte array, from byte `i` on. `At.mono`: appending to it
  leaves them there.
* `LawfulRecord`: a record is read back from its bytes. `At.readAt_table`: so is a table. -/

namespace FlatGraph.Bytes

/-- The bytes of a byte array as a list. -/
abbrev toBytes (b : ByteArray) : List UInt8 := b.data.toList

/-- The bytes are in the byte array, from byte `i` on. -/
def At (b : ByteArray) (i : Nat) (bytes : List UInt8) : Prop := bytes <+: (toBytes b).drop i

variable {b c : ByteArray} {i : Nat}

/-! ### Appending -/

theorem length_toBytes (b : ByteArray) : (toBytes b).length = b.size := rfl

theorem toBytes_push (b : ByteArray) (x : UInt8) : toBytes (b.push x) = toBytes b ++ [x] :=
  Array.toList_push

theorem toBytes_append (b : ByteArray) (bytes : List UInt8) :
    toBytes (append b bytes) = toBytes b ++ bytes := by
  induction bytes generalizing b with
  | nil => exact (List.append_nil _).symm
  | cons x rest ih =>
    show toBytes (append (b.push x) rest) = _
    rw [ih, toBytes_push, List.append_assoc]
    rfl

theorem toBytes_appendZeros (b : ByteArray) (count : Nat) :
    toBytes (appendZeros b count) = toBytes b ++ List.replicate count 0 := by
  induction count generalizing b with
  | zero => exact (List.append_nil _).symm
  | succ count ih =>
    rw [appendZeros, ih, toBytes_push, List.append_assoc]
    rfl

theorem size_append (b : ByteArray) (bytes : List UInt8) :
    (append b bytes).size = b.size + bytes.length := by
  rw [← length_toBytes, toBytes_append, List.length_append, length_toBytes]

theorem size_appendAligned (b : ByteArray) : (appendAligned b).size = align b.size := by
  rw [← length_toBytes, appendAligned, toBytes_appendZeros, List.length_append,
    List.length_replicate, length_toBytes]
  have := le_align b.size
  omega

theorem prefix_appendAligned (b : ByteArray) : toBytes b <+: toBytes (appendAligned b) :=
  ⟨_, (toBytes_appendZeros b _).symm⟩

/-! ### Places -/

theorem At.append_iff {xs ys : List UInt8} :
    At b i (xs ++ ys) ↔ At b i xs ∧ At b (i + xs.length) ys := by
  unfold At
  rw [← List.drop_drop]
  constructor
  · rintro ⟨rest, h⟩
    rw [← h, List.append_assoc]
    exact ⟨⟨_, rfl⟩, ⟨rest, (List.drop_left).symm⟩⟩
  · rintro ⟨⟨rest, h⟩, hy⟩
    rw [← h, List.drop_left] at hy
    rw [← h]
    exact (List.prefix_append_right_inj xs).mpr hy

theorem At.mono {bytes : List UInt8} (h : At b i bytes) (hbc : toBytes b <+: toBytes c) :
    At c i bytes := by
  obtain ⟨more, hc⟩ := hbc
  unfold At
  rw [← hc, List.drop_append]
  exact h.trans (List.prefix_append _ _)

theorem At.of_toBytes_eq {bytes : List UInt8} (h : toBytes c = toBytes b ++ bytes) :
    At c b.size bytes := by
  refine ⟨[], ?_⟩
  rw [h, ← length_toBytes, List.drop_left, List.append_nil]

theorem At.appended (b : ByteArray) (bytes : List UInt8) : At (append b bytes) b.size bytes :=
  .of_toBytes_eq (toBytes_append b bytes)

theorem At.shift {bytes front : List UInt8} (h : At b i bytes)
    (hc : toBytes c = front ++ toBytes b) : At c (front.length + i) bytes := by
  unfold At
  rw [hc, ← List.drop_drop, List.drop_left]
  exact h

/-! ### Reading -/

theorem At.byteAt {x : UInt8} {rest : List UInt8} (h : At b i (x :: rest)) : byteAt b i = x := by
  obtain ⟨more, h⟩ := h
  have hx : (toBytes b)[i]? = some x := by
    rw [← Nat.add_zero i, ← List.getElem?_drop, ← h]
    rfl
  obtain ⟨hi, rfl⟩ := List.getElem?_eq_some_iff.mp hx
  rw [length_toBytes] at hi
  exact dif_pos hi

theorem At.tail {x : UInt8} {rest : List UInt8} (h : At b i (x :: rest)) : At b (i + 1) rest :=
  (At.append_iff.mp (show At b i ([x] ++ rest) from h)).2

theorem At.run {bytes : List UInt8} (h : At b i bytes) : run b i bytes.length = bytes := by
  induction bytes generalizing i with
  | nil => rfl
  | cons x rest ih => rw [List.length_cons, Bytes.run, h.byteAt, ih h.tail]

theorem At.wordAt {width n : Nat} (h : At b i (wordBytes width n)) :
    wordAt b i width = n % 256 ^ width := by
  induction width generalizing i n with
  | zero => rw [Nat.pow_zero, Nat.mod_one]; rfl
  | succ width ih =>
    rw [wordBytes] at h
    rw [Bytes.wordAt, h.byteAt, ih h.tail, Nat.pow_succ', Nat.mod_mul, UInt8.toNat_ofNat']

theorem At.u16At {w : UInt16} (h : At b i (wordBytes 2 w.toNat)) : u16At b i = w := by
  have hlt : w.toNat < 256 ^ 2 := w.toNat_lt
  rw [Bytes.u16At, h.wordAt, Nat.mod_eq_of_lt hlt]
  exact UInt16.ofNat_toNat

theorem At.u32At {w : UInt32} (h : At b i (wordBytes 4 w.toNat)) : u32At b i = w := by
  have hlt : w.toNat < 256 ^ 4 := w.toNat_lt
  rw [Bytes.u32At, h.wordAt, Nat.mod_eq_of_lt hlt]
  exact UInt32.ofNat_toNat

theorem At.u64At {w : UInt64} (h : At b i (wordBytes 8 w.toNat)) : u64At b i = w := by
  have hlt : w.toNat < 256 ^ 8 := w.toNat_lt
  rw [Bytes.u64At, h.wordAt, Nat.mod_eq_of_lt hlt]
  exact UInt64.ofNat_toNat

theorem toBytes_extract (b : ByteArray) (i j : Nat) :
    toBytes (b.extract i j) = ((toBytes b).drop i).take (j - i) := by
  rw [toBytes, ByteArray.data_extract, Array.toList_extract, List.extract_eq_take_drop]

theorem At.of_extract (b : ByteArray) (i j : Nat) : At b i (toBytes (b.extract i j)) := by
  unfold At
  rw [toBytes_extract]
  exact List.take_prefix _ _

theorem At.extract {payload : ByteArray} (h : At b i (toBytes payload)) :
    b.extract i (i + payload.size) = payload := by
  refine ByteArray.ext (Array.toList_inj.mp ?_)
  obtain ⟨more, h⟩ := h
  rw [ByteArray.data_extract, Array.toList_extract, List.extract_eq_take_drop, ← h,
    Nat.add_sub_cancel_left, ← length_toBytes, List.take_left]

/-! ### Records and tables -/

/-- A record takes the bytes of its width, and is read back from them. -/
class LawfulRecord (α : Type) [Record α] : Prop where
  length_bytes : ∀ r : α, (Record.bytes r).length = Record.width α
  readAt_bytes : ∀ {b : ByteArray} {i : Nat} (r : α), At b i (Record.bytes r) →
    Record.readAt b i = r

/-- The bytes of a table. -/
def tableBytes {α : Type} [Record α] (records : List α) : List UInt8 :=
  records.flatMap Record.bytes

section

variable {α : Type} [Record α]

theorem toBytes_table (b : ByteArray) (records : List α) :
    toBytes (Table.push b records) = toBytes b ++ tableBytes records := by
  induction records generalizing b with
  | nil => exact (List.append_nil _).symm
  | cons r rest ih =>
    show toBytes (Table.push (append b (Record.bytes r)) rest) = _
    rw [ih, toBytes_append, List.append_assoc]
    rfl

theorem prefix_table (b : ByteArray) (records : List α) :
    toBytes b <+: toBytes (Table.push b records) := ⟨_, (toBytes_table b records).symm⟩

theorem At.pushed (b : ByteArray) (records : List α) :
    At (Table.push b records) b.size (tableBytes records) :=
  .of_toBytes_eq (toBytes_table b records)

theorem At.getElem (hw : ∀ r : α, (Record.bytes r).length = Record.width α) {records : List α}
    (h : At b i (tableBytes records)) {k : Nat} (hk : k < records.length) :
    At b (i + k * Record.width α) (Record.bytes records[k]) := by
  induction records generalizing i k with
  | nil => exact absurd hk (Nat.not_lt_zero k)
  | cons r rest ih =>
    obtain ⟨hr, hrest⟩ := At.append_iff.mp (show At b i (Record.bytes r ++ tableBytes rest) from h)
    cases k with
    | zero => rwa [Nat.zero_mul, Nat.add_zero]
    | succ k =>
      have hplace : i + (k + 1) * Record.width α =
          i + (Record.bytes r).length + k * Record.width α := by
        rw [hw, Nat.succ_mul]
        omega
      rw [hplace]
      exact ih hrest (Nat.lt_of_succ_lt_succ hk)

theorem length_tableBytes (hw : ∀ r : α, (Record.bytes r).length = Record.width α)
    (records : List α) : (tableBytes records).length = records.length * Record.width α := by
  induction records with
  | nil => exact (Nat.zero_mul _).symm
  | cons r rest ih =>
    rw [tableBytes, List.flatMap_cons, List.length_append, hw, List.length_cons, Nat.succ_mul]
    rw [tableBytes] at ih
    omega

/-- **A table is read back from its bytes.** -/
theorem At.readAt_table [LawfulRecord α] {records : List α} (h : At b i (tableBytes records)) :
    Table.readAt b i records.length = records.toArray := by
  refine Array.ext (by rw [Table.size_readAt, List.size_toArray]) fun k _ hk => ?_
  rw [List.size_toArray] at hk
  simp only [Table.readAt, Array.getElem_ofFn, List.getElem_toArray]
  exact LawfulRecord.readAt_bytes _ (h.getElem LawfulRecord.length_bytes hk)

end

instance : LawfulRecord UInt64 where
  length_bytes w := length_wordBytes 8 w.toNat
  readAt_bytes _ h := h.u64At

end FlatGraph.Bytes
