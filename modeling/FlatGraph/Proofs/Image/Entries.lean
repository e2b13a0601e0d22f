import FlatGraph.Image.Basic
import FlatGraph.Proofs.Bytes.Slice
import FlatGraph.Proofs.Bytes.Varint

/-! # Entries of the payload section

A payload stands behind its length. An offset leads to a payload exactly if an entry is there: a
length of at most ten bytes, and as many bytes behind it, all within the section.

* `decode_run_eq_some_iff`: the lengths that are read from a file.
* `HoldsEntry`: there is an entry at an offset.
* `Image.payloadAt_eq_ok_iff`: the payload of an entry is answered, and no other bytes are. -/

namespace FlatGraph

open Bytes

/-! ### Lengths -/

variable {b : ByteArray} {start room value used : Nat}

/-- **A length is read** from a file as far as there is room. -/
theorem decode_run_eq_some_iff :
    Varint.decode (run b start (min Varint.maxLength room)) = some (value, used) ↔
      Varint.Spells (fun k => byteAt b (start + k)) value used ∧ used ≤ Varint.maxLength ∧
        used ≤ room ∧ value < 2 ^ 64 := by
  have hbytes : ∀ k < (run b start (min Varint.maxLength room)).length,
      (run b start (min Varint.maxLength room)).getD k 0 = byteAt b (start + k) :=
    fun k hk => getD_run b start (by rwa [length_run] at hk)
  rw [Varint.decode_eq_some_iff_of_getD hbytes, length_run]
  exact and_congr_right fun _ => by omega

theorem spells_of_at {n : Nat} (h : At b start (Varint.encode n)) (hn : n < 2 ^ 64) :
    Varint.Spells (fun k => byteAt b (start + k)) n (Varint.encodedLength n) := by
  have hdecode := Varint.decode_encode hn []
  rw [List.append_nil] at hdecode
  obtain ⟨hspells, -, hlength, -⟩ := Varint.decode_eq_some_iff.mp hdecode
  refine hspells.congr fun k hk => ?_
  rw [← h.run, getD_run b start (by omega)]

/-! ### Entries -/

/-- **There is an entry** at an offset of a section: a length of at most ten bytes that make up a
64-bit number, and as many bytes behind it, all of it before the section ends. -/
structure HoldsEntry (b : ByteArray) (s : Section) (offset used : Nat) (payload : ByteArray) :
    Prop where
  front : s.start ≤ offset
  length : Varint.Spells (fun k => byteAt b (offset + k)) payload.size used
  short : used ≤ Varint.maxLength
  small : payload.size < 2 ^ 64
  back : offset + used + payload.size ≤ s.stop
  bytes : At b (offset + used) (toBytes payload)

theorem HoldsEntry.decode_eq {s : Section} {i : Nat} {payload : ByteArray}
    (he : HoldsEntry b s i used payload) :
    Varint.decode (run b i (min Varint.maxLength (s.stop - i))) = some (payload.size, used) := by
  have := he.back
  exact decode_run_eq_some_iff.mpr ⟨he.length, he.short, by omega, he.small⟩

namespace Image

variable {image : Image} {offset : UInt64}

theorem payloadAt_of_outside (hout : offset.toNat < image.sections.payloads.start ∨
    image.sections.payloads.stop ≤ offset.toNat) :
    image.payloadAt offset = .error (.payloadOutside offset) := if_pos hout

section

variable (hin : ¬ (offset.toNat < image.sections.payloads.start ∨
  image.sections.payloads.stop ≤ offset.toNat))
include hin

theorem payloadAt_of_none (hd : Varint.decode (run image.bytes offset.toNat
      (min Varint.maxLength (image.sections.payloads.stop - offset.toNat))) = none) :
    image.payloadAt offset = .error (.payloadLength offset) := by
  unfold payloadAt
  simp only [if_neg hin, hd]

theorem payloadAt_of_some (hd : Varint.decode (run image.bytes offset.toNat
      (min Varint.maxLength (image.sections.payloads.stop - offset.toNat))) = some (value, used)) :
    image.payloadAt offset =
      if offset.toNat + used + value ≤ image.sections.payloads.stop then
        .ok (image.bytes.extract (offset.toNat + used) (offset.toNat + used + value))
      else .error (.payloadOverrun offset) := by
  unfold payloadAt
  simp only [if_neg hin, hd]

end

/-- **The payload of an entry is answered.** -/
theorem payloadAt_of_holdsEntry {payload : ByteArray}
    (he : HoldsEntry image.bytes image.sections.payloads offset.toNat used payload) :
    image.payloadAt offset = .ok payload := by
  have hfront := he.front
  have hback := he.back
  have hpos := he.length.positive
  rw [payloadAt_of_some (by omega) he.decode_eq, if_pos hback, he.bytes.extract]

theorem payloadAt_eq_ok_iff (hb : image.sections.payloads.stop ≤ image.bytes.size)
    {payload : ByteArray} : image.payloadAt offset = .ok payload ↔
      ∃ used, HoldsEntry image.bytes image.sections.payloads offset.toNat used payload := by
  refine ⟨fun hread => ?_, fun ⟨used, he⟩ => payloadAt_of_holdsEntry he⟩
  by_cases hout : offset.toNat < image.sections.payloads.start ∨
      image.sections.payloads.stop ≤ offset.toNat
  · rw [payloadAt_of_outside hout] at hread
    cases hread
  cases hd : Varint.decode (run image.bytes offset.toNat
      (min Varint.maxLength (image.sections.payloads.stop - offset.toNat))) with
  | none =>
    rw [payloadAt_of_none hout hd] at hread
    cases hread
  | some found =>
    obtain ⟨length, used⟩ := found
    rw [payloadAt_of_some hout hd] at hread
    split_ifs at hread with hfit
    cases hread
    obtain ⟨hspells, hshort, -, hsmall⟩ := decode_run_eq_some_iff.mp hd
    have hsize : (image.bytes.extract (offset.toNat + used)
        (offset.toNat + used + length)).size = length := by
      rw [size_slice (by omega), Nat.add_sub_cancel_left]
    refine ⟨used, ?_, ?_, hshort, ?_, ?_, At.of_extract _ _ _⟩
    · omega
    · rwa [hsize]
    · rwa [hsize]
    · rwa [hsize]

section

variable {raw : UInt64} {payload : ByteArray} {damage : Damage} (hr : raw ≠ noPayload)
include hr

theorem payloadAt?_of_ok (hp : image.payloadAt raw = .ok payload) :
    image.payloadAt? (payload? raw) = .ok (some payload) := by
  rw [payload?, if_neg hr, payloadAt?, hp]
  rfl

theorem payloadAt?_of_error (hp : image.payloadAt raw = .error damage) :
    image.payloadAt? (payload? raw) = .error (.corrupt damage) := by
  rw [payload?, if_neg hr, payloadAt?, hp]
  rfl

end

end Image

end FlatGraph
