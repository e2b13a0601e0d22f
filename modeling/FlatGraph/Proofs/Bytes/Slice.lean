import Mathlib.Data.List.GetD
import FlatGraph.Format.Flags
import FlatGraph.Proofs.Bytes.Placement

/-! # Slices of a file, and sums that do not wrap around

A slice is taken by its two ends, and there is none if an end is past the file. A word or a record
is read from a slice as it is from the file, since no other bytes are looked at.

* `checkedAdd`, `checkedMul`: sums and products of 64-bit words, none if they wrap around.
* `slice?`, `sliceFrom?`: the bytes between two places. `byteAt_extract`: those of the file.
* `LocalRecord`: a record is read from the bytes of its width only. `Table.readAt_congr`: so is a
  table. `Table.ofBytes?_slice`: a table is read from its slice.
* `SameOutside`: two files that differ in one place at most. -/

namespace FlatGraph

/-! ### Words that do not wrap around -/

theorem toNat_offset {i : Nat} (h : i < sizeBound) : (UInt64.ofNat i).toNat = i := by
  rw [UInt64.toNat_ofNat']
  exact Nat.mod_eq_of_lt h

/-- The sum of two words, none if it wraps around. -/
def checkedAdd (a b : UInt64) : Option UInt64 :=
  if a.toNat + b.toNat < sizeBound then some (a + b) else none

/-- The product of two words, none if it wraps around. -/
def checkedMul (a b : UInt64) : Option UInt64 :=
  if a.toNat * b.toNat < sizeBound then some (a * b) else none

theorem checkedAdd_eq_some_iff {a b c : UInt64} :
    checkedAdd a b = some c ↔ c.toNat = a.toNat + b.toNat := by
  have hc := c.toNat_lt
  unfold checkedAdd
  split_ifs with h
  · have hsum : (a + b).toNat = a.toNat + b.toNat := by
      rw [UInt64.toNat_add]
      exact Nat.mod_eq_of_lt h
    rw [Option.some.injEq, ← UInt64.toNat_inj, hsum]
    omega
  · have hbound : sizeBound = 2 ^ 64 := rfl
    simp only [false_iff]
    omega

theorem checkedMul_eq_some_iff {a b c : UInt64} :
    checkedMul a b = some c ↔ c.toNat = a.toNat * b.toNat := by
  have hc := c.toNat_lt
  unfold checkedMul
  split_ifs with h
  · have hproduct : (a * b).toNat = a.toNat * b.toNat := by
      rw [UInt64.toNat_mul]
      exact Nat.mod_eq_of_lt h
    rw [Option.some.injEq, ← UInt64.toNat_inj, hproduct]
    omega
  · have hbound : sizeBound = 2 ^ 64 := rfl
    simp only [false_iff]
    omega

namespace Bytes

variable {b c : ByteArray} {i j width : Nat}

/-! ### Slices -/

/-- The bytes from `start` up to `stop`, none if they are not all there. -/
def slice? (b : ByteArray) (start stop : Nat) : Option ByteArray :=
  if start ≤ stop ∧ stop ≤ b.size then some (b.extract start stop) else none

theorem slice?_of_le {start stop : Nat} (h : start ≤ stop) (hb : stop ≤ b.size) :
    slice? b start stop = some (b.extract start stop) := if_pos ⟨h, hb⟩

theorem size_slice (hj : j ≤ b.size) : (b.extract i j).size = j - i := by
  rw [ByteArray.size_extract, Nat.min_eq_left hj]

/-- As many bytes from `start` on as the word says, none if the sum wraps around or if they are not
all there. -/
def sliceFrom? (b : ByteArray) (start length : UInt64) : Option ByteArray :=
  (checkedAdd start length).bind fun stop => slice? b start.toNat stop.toNat

theorem sliceFrom?_eq (hb : b.size < sizeBound) (start length : UInt64) :
    sliceFrom? b start length = if start.toNat + length.toNat ≤ b.size then
      some (b.extract start.toNat (start.toNat + length.toNat)) else none := by
  unfold sliceFrom?
  split_ifs with hfit
  · have hstop := checkedAdd_eq_some_iff.mpr (toNat_offset (hfit.trans_lt hb))
    rw [hstop, Option.bind_some, toNat_offset (hfit.trans_lt hb),
      slice?_of_le (Nat.le_add_right _ _) hfit]
  · refine Option.bind_eq_none_iff.mpr fun stop hstop => if_neg ?_
    rw [checkedAdd_eq_some_iff.mp hstop]
    exact fun h => hfit h.2

theorem byteAt_extract {k : Nat} (h : i + k < j) (hj : j ≤ b.size) :
    byteAt (b.extract i j) k = byteAt b (i + k) := by
  have hk : k < (b.extract i j).size := by
    rw [size_slice hj]
    omega
  rw [byteAt, byteAt, dif_pos hk, dif_pos (by omega), ByteArray.getElem_extract]

theorem eq_of_byteAt (hsize : b.size = c.size) (h : ∀ i < b.size, byteAt b i = byteAt c i) :
    b = c := by
  refine ByteArray.ext_getElem hsize fun i hb hc => ?_
  have hi := h i hb
  rwa [byteAt, byteAt, dif_pos hb, dif_pos hc] at hi

/-! ### Bytes of lists -/

theorem getD_run (b : ByteArray) (start : Nat) {count k : Nat} (hk : k < count) :
    (run b start count).getD k 0 = byteAt b (start + k) := by
  induction count generalizing start k with
  | zero => exact absurd hk (Nat.not_lt_zero k)
  | succ count ih =>
    cases k with
    | zero => rfl
    | succ k =>
      rw [run, List.getD_cons_succ, ih (start + 1) (Nat.lt_of_succ_lt_succ hk), Nat.add_assoc,
        Nat.add_comm 1 k]

theorem getD_toBytes (b : ByteArray) (k : Nat) : (toBytes b).getD k 0 = byteAt b k := by
  unfold byteAt
  split_ifs with hk
  · rw [List.getD_eq_getElem _ _ hk]
    rfl
  · exact List.getD_eq_default _ _ (Nat.le_of_not_lt hk)

/-! ### Words -/

theorem wordAt_congr (h : ∀ k < width, byteAt b (i + k) = byteAt c (j + k)) :
    wordAt b i width = wordAt c j width := by
  induction width generalizing i j with
  | zero => rfl
  | succ width ih =>
    have hfirst := h 0 (Nat.succ_pos width)
    rw [Nat.add_zero, Nat.add_zero] at hfirst
    rw [wordAt, wordAt, hfirst]
    refine congrArg (fun high => _ + 256 * high) (ih fun k hk => ?_)
    rw [Nat.add_assoc, Nat.add_assoc, Nat.add_comm 1 k]
    exact h (k + 1) (Nat.succ_lt_succ hk)

theorem wordAt_within {total : Nat} (h : ∀ k < total, byteAt b (i + k) = byteAt c (j + k))
    (offset width : Nat) (hin : offset + width ≤ total) :
    wordAt b (i + offset) width = wordAt c (j + offset) width :=
  wordAt_congr fun k hk => by
    rw [Nat.add_assoc, Nat.add_assoc]
    exact h _ (by omega)

theorem byteAt_eq_of_wordAt (h : wordAt b i width = wordAt c j width) {k : Nat} (hk : k < width) :
    byteAt b (i + k) = byteAt c (j + k) := by
  induction width generalizing i j k with
  | zero => exact absurd hk (Nat.not_lt_zero k)
  | succ width ih =>
    rw [wordAt, wordAt] at h
    have hb := (byteAt b i).toNat_lt
    have hc := (byteAt c j).toNat_lt
    cases k with
    | zero => exact UInt8.toNat_inj.mp (show (byteAt b i).toNat = (byteAt c j).toNat by omega)
    | succ k =>
      have hrest := ih (i := i + 1) (j := j + 1) (by omega) (Nat.lt_of_succ_lt_succ hk)
      rwa [Nat.add_assoc, Nat.add_assoc, Nat.add_comm 1 k] at hrest

theorem wordAt_lt (b : ByteArray) (i width : Nat) : wordAt b i width < 256 ^ width := by
  induction width generalizing i with
  | zero => exact Nat.one_pos
  | succ width ih =>
    have hbyte := (byteAt b i).toNat_lt
    have hrest := ih (i + 1)
    rw [wordAt, Nat.pow_succ']
    omega

/-! ### Records and tables -/

/-- A record is read from the bytes of its width, wherever they are. -/
class LocalRecord (α : Type) [Record α] : Prop where
  readAt_congr : ∀ {b c : ByteArray} {i j : Nat},
    (∀ k < Record.width α, byteAt b (i + k) = byteAt c (j + k)) →
      (Record.readAt b i : α) = Record.readAt c j

instance : LocalRecord UInt64 where
  readAt_congr h := congrArg UInt64.ofNat (wordAt_congr h)

/-! ### Files that differ in one place -/

/-- **The files differ from byte `start` up to byte `stop` at most.** -/
structure SameOutside (b c : ByteArray) (start stop : Nat) : Prop where
  size : c.size = b.size
  byteAt : ∀ i, i < start ∨ stop ≤ i → byteAt c i = byteAt b i

namespace SameOutside

variable {start stop : Nat} (h : SameOutside b c start stop)
include h

theorem wordAt_eq (hout : i + width ≤ start ∨ stop ≤ i) : wordAt c i width = wordAt b i width :=
  wordAt_congr fun k hk => h.byteAt _ (by omega)

theorem readAt_eq {α : Type} [Record α] [LocalRecord α]
    (hout : i + Record.width α ≤ start ∨ stop ≤ i) :
    (Record.readAt c i : α) = Record.readAt b i :=
  LocalRecord.readAt_congr fun k hk => h.byteAt _ (by omega)

theorem extract_eq (hbehind : stop ≤ i) : c.extract i c.size = b.extract i b.size := by
  rw [h.size]
  refine eq_of_byteAt ?_ fun k hk => ?_
  · rw [ByteArray.size_extract, ByteArray.size_extract, h.size]
  · rw [ByteArray.size_extract, h.size] at hk
    rw [byteAt_extract (by omega) h.size.ge, byteAt_extract (by omega) (Nat.le_refl _)]
    exact h.byteAt _ (by omega)

theorem eq_of_bytes (hin : ∀ i, start ≤ i → i < stop → Bytes.byteAt c i = Bytes.byteAt b i) :
    c = b := by
  refine eq_of_byteAt h.size fun i _ => ?_
  rcases Nat.lt_or_ge i start with hstart | hstart
  · exact h.byteAt i (.inl hstart)
  rcases Nat.lt_or_ge i stop with hstop | hstop
  · exact hin i hstart hstop
  · exact h.byteAt i (.inr hstop)

end SameOutside

theorem sameOutside_of_toBytes {front old new tail : List UInt8}
    (hb : toBytes b = front ++ old ++ tail) (hc : toBytes c = front ++ new ++ tail)
    (hl : old.length = new.length) : SameOutside b c front.length (front.length + new.length) := by
  have hold : (front ++ old).length = front.length + new.length := by
    rw [List.length_append, hl]
  have hnew : (front ++ new).length = front.length + new.length := List.length_append
  constructor
  case size =>
    rw [← length_toBytes, ← length_toBytes, hb, hc, List.length_append, hnew, List.length_append,
      hold]
  case byteAt =>
    intro i hi
    rw [← getD_toBytes, ← getD_toBytes, hb, hc]
    rcases hi with hi | hi
    · rw [List.append_assoc, List.append_assoc, List.getD_append _ _ _ _ hi,
        List.getD_append _ _ _ _ hi]
    · rw [List.getD_append_right _ _ _ _ (hnew.trans_le hi),
        List.getD_append_right _ _ _ _ (hold.trans_le hi), hold, hnew]

end Bytes

namespace Table

open Bytes

variable {α : Type} [Record α] [LocalRecord α] {b c : ByteArray} {i j count : Nat}

theorem readAt_congr
    (h : ∀ k < count * Record.width α, byteAt b (i + k) = byteAt c (j + k)) :
    (readAt b i count : Array α) = readAt c j count := by
  refine Array.ext (by rw [size_readAt, size_readAt]) fun n hn _ => ?_
  rw [size_readAt] at hn
  have hrow : (n + 1) * Record.width α ≤ count * Record.width α := Nat.mul_le_mul_right _ hn
  rw [Nat.succ_mul] at hrow
  simp only [readAt, Array.getElem_ofFn]
  refine LocalRecord.readAt_congr fun k hk => ?_
  rw [Nat.add_assoc, Nat.add_assoc]
  exact h _ (by omega)

/-- **A table is read from its slice** as it is from the file. -/
theorem ofBytes?_slice (hw : 0 < Record.width α)
    (hb : i + count * Record.width α ≤ b.size) :
    (slice? b i (i + count * Record.width α)).bind (ofBytes? α) = some (readAt b i count) := by
  have hsize := size_slice (i := i) hb
  rw [Nat.add_sub_cancel_left] at hsize
  rw [slice?_of_le (Nat.le_add_right _ _) hb, Option.bind_some, ofBytes?, hsize,
    if_pos (Nat.mul_mod_left _ _), Nat.mul_div_cancel _ hw]
  refine congrArg some (readAt_congr fun k hk => ?_)
  rw [Nat.zero_add]
  exact byteAt_extract (by omega) hb

end Table

/-- **A record is read from its slice** as it is from the file. -/
theorem Record.ofBytes?_slice {α : Type} [Record α] [Bytes.LocalRecord α] {b : ByteArray} {i : Nat}
    (hb : i + width α ≤ b.size) :
    (Bytes.slice? b i (i + width α)).bind (ofBytes? α) = some (readAt b i) := by
  have hsize := Bytes.size_slice (i := i) hb
  rw [Nat.add_sub_cancel_left] at hsize
  rw [Bytes.slice?_of_le (Nat.le_add_right _ _) hb, Option.bind_some, ofBytes?, if_pos hsize]
  refine congrArg some (Bytes.LocalRecord.readAt_congr fun k hk => ?_)
  rw [Nat.zero_add]
  exact Bytes.byteAt_extract (by omega) hb

end FlatGraph
