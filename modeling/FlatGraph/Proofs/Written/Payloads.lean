import FlatGraph.Proofs.Image.Entries
import FlatGraph.Written.File

/-! # Payloads are read back

A payload is written with its length in front, and its record holds where.

* `Stores`: a stored offset leads to the payload, and an absent payload has none.
* `stores_payloadOffsets`: the offsets that are laid out lead to the payloads that are written.
* `Stores.payloadAt?_eq`: what an offset leads to is read back. -/

namespace FlatGraph

open Bytes

/-- The bytes of a payload with its length in front, none if it is absent. -/
def payloadBytes : Option ByteArray → List UInt8
  | none => []
  | some payload => Varint.encode payload.size ++ toBytes payload

theorem length_payloadBytes (payload : ByteArray) :
    (payloadBytes (some payload)).length = entrySize payload := by
  rw [payloadBytes, List.length_append, Varint.length_encode, length_toBytes, entrySize]

theorem length_flatMap_payloadBytes (payloads : List (Option ByteArray)) :
    (payloads.flatMap payloadBytes).length = payloadsSize payloads := by
  induction payloads with
  | nil => rfl
  | cons payload rest ih =>
    rw [List.flatMap_cons, List.length_append, ih]
    cases payload with
    | none => exact Nat.zero_add _
    | some payload =>
      rw [length_payloadBytes]
      rfl

theorem toBytes_foldl_pushPayload (b : ByteArray) (payloads : List (Option ByteArray)) :
    toBytes (payloads.foldl Contents.pushPayload b) =
      toBytes b ++ payloads.flatMap payloadBytes := by
  induction payloads generalizing b with
  | nil => exact (List.append_nil _).symm
  | cons payload rest ih =>
    rw [List.foldl_cons, ih, List.flatMap_cons, ← List.append_assoc]
    congr 1
    cases payload with
    | none => exact (List.append_nil _).symm
    | some payload =>
      show (append b (Varint.encode payload.size) ++ payload).data.toList = _
      rw [ByteArray.toList_data_append, ← toBytes, toBytes_append, List.append_assoc]
      rfl

/-- **The stored offset leads to the payload** between two places of a file; an absent payload has
no offset. -/
inductive Stores (b : ByteArray) (start stop : Nat) : Option ByteArray → Option Nat → Prop
  | absent : Stores b start stop none none
  | present {payload : ByteArray} {offset : Nat} (front : start ≤ offset)
      (back : offset + entrySize payload ≤ stop)
      (bytes : At b offset (payloadBytes (some payload))) :
      Stores b start stop (some payload) (some offset)

theorem Stores.mono {b : ByteArray} {start stop start' stop' : Nat} {payload : Option ByteArray}
    {offset : Option Nat} (h : Stores b start stop payload offset) (hstart : start' ≤ start)
    (hstop : stop ≤ stop') : Stores b start' stop' payload offset := by
  cases h with
  | absent => exact .absent
  | present front back bytes => exact .present (by omega) (by omega) bytes

theorem length_payloadOffsets (start : Nat) (payloads : List (Option ByteArray)) :
    (payloadOffsets start payloads).length = payloads.length := by
  fun_induction payloadOffsets start payloads with
  | case1 => rfl
  | case2 start rest ih => exact congrArg (· + 1) ih
  | case3 start payload rest ih => exact congrArg (· + 1) ih

/-- **The offsets that are laid out** lead to the payloads that are written. -/
theorem stores_payloadOffsets {b : ByteArray} {start : Nat} {payloads : List (Option ByteArray)}
    (h : At b start (payloads.flatMap payloadBytes)) {k : Nat} (hk : k < payloads.length) :
    ∃ offset, (payloadOffsets start payloads)[k]? = some offset ∧
      Stores b start (start + payloadsSize payloads) payloads[k] offset := by
  induction payloads generalizing start k with
  | nil => exact absurd hk (Nat.not_lt_zero k)
  | cons payload rest ih =>
    rw [List.flatMap_cons] at h
    obtain ⟨hfirst, hrest⟩ := At.append_iff.mp h
    cases payload with
    | none =>
      cases k with
      | zero => exact ⟨none, rfl, .absent⟩
      | succ k => exact ih hrest (Nat.lt_of_succ_lt_succ hk)
    | some payload =>
      have hsize : payloadsSize (some payload :: rest) =
          entrySize payload + payloadsSize rest := rfl
      rw [length_payloadBytes] at hrest
      cases k with
      | zero =>
        refine ⟨some start, rfl, .present (Nat.le_refl start) ?_ hfirst⟩
        rw [hsize]
        omega
      | succ k =>
        obtain ⟨offset, hoffset, hstores⟩ := ih hrest (Nat.lt_of_succ_lt_succ hk)
        refine ⟨offset, hoffset, hstores.mono (Nat.le_add_right _ _) ?_⟩
        rw [hsize]
        omega

/-! ### Reading -/

theorem payload?_rawPayload (offset : Nat) (h : offset < noPayload.toNat) :
    payload? (rawPayload (some offset)) = some (UInt64.ofNat offset) ∧
      (UInt64.ofNat offset).toNat = offset := by
  have hto : (UInt64.ofNat offset).toNat = offset := by
    rw [UInt64.toNat_ofNat']
    exact Nat.mod_eq_of_lt (Nat.lt_trans h noPayload.toNat_lt)
  refine ⟨if_neg fun heq => ?_, hto⟩
  have heq : UInt64.ofNat offset = noPayload := heq
  rw [heq] at hto
  omega

theorem Stores.holdsEntry {b : ByteArray} {s : Section} {payload : ByteArray} {offset : Nat}
    (h : Stores b s.start s.stop (some payload) (some offset)) (hbound : s.stop < sizeBound) :
    HoldsEntry b s offset (Varint.encodedLength payload.size) payload := by
  obtain _ | ⟨hfront, hback, hbytes⟩ := h
  obtain ⟨hlength, hpayload⟩ := At.append_iff.mp hbytes
  rw [Varint.length_encode] at hpayload
  have hsize : sizeBound = 2 ^ 64 := rfl
  rw [entrySize] at hback
  have hsmall : payload.size < 2 ^ 64 := by omega
  exact ⟨hfront, spells_of_at hlength hsmall, Varint.encodedLength_le_maxLength hsmall, hsmall,
    by omega, hpayload⟩

/-- **A payload is read back** from its stored offset, and an absent one is absent. -/
theorem Stores.payloadAt?_eq (image : Image) {start stop : Nat} {payload : Option ByteArray}
    {offset : Option Nat} (h : Stores image.bytes start stop payload offset)
    (hstart : image.sections.payloads.start = start) (hstop : image.sections.payloads.stop = stop)
    (hbound : stop < sizeBound) :
    image.payloadAt? (payload? (rawPayload offset)) = .ok payload := by
  subst hstart hstop
  cases h with
  | absent => rfl
  | @present payload offset front back bytes =>
    have hnone : noPayload.toNat = sizeBound - 1 := rfl
    have hentry := (Stores.present front back bytes).holdsEntry hbound
    rw [entrySize] at back
    have hpos := Varint.encodedLength_pos payload.size
    obtain ⟨hraw, hto⟩ := payload?_rawPayload offset (by omega)
    rw [← hto] at hentry
    rw [hraw, Image.payloadAt?, Image.payloadAt_of_holdsEntry hentry]
    rfl

end FlatGraph
