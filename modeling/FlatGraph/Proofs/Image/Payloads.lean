import FlatGraph.Proofs.Image.Sections
import FlatGraph.Proofs.Written.RoundTrip

/-! # Payloads of an accepted file

The offset of a payload may be any 64-bit word, and so may the length that stands there: neither is
checked when a file is accepted. Whatever they are, no read leaves the payload section.

* `Image.payloadSteps`: the look-up of a payload with words and slices. `Image.payloadSteps_eq`:
  nothing wraps around and no slice leaves the file.
* `Image.Answers`: what is answered for a stored offset.
* `Image.payloads_of_accepted`: the payloads of every accepted file. -/

namespace FlatGraph

open Bytes

theorem decode_slice {b : ByteArray} {start stop : Nat} (hb : stop ≤ b.size) :
    Varint.decode (toBytes (b.extract start stop)) =
      Varint.decode (run b start (min Varint.maxLength (stop - start))) := by
  have hsize := size_slice (i := start) hb
  have hbytes : ∀ k < (toBytes (b.extract start stop)).length,
      (toBytes (b.extract start stop)).getD k 0 = byteAt b (start + k) := fun k hk => by
    rw [length_toBytes, hsize] at hk
    rw [getD_toBytes, byteAt_extract (by omega) hb]
  refine Option.ext fun ⟨value, used⟩ => ?_
  rw [decode_run_eq_some_iff, Varint.decode_eq_some_iff_of_getD hbytes, length_toBytes, hsize]

namespace Image

variable {b : ByteArray} {image : Image}

/-! ### Words and slices -/

/-- The payload at an offset, looked up with words and slices of the file. None if the bounds of the
payload section wrap around, or if they leave the file. -/
def payloadSteps (image : Image) (offset : UInt64) : Option (Except Damage ByteArray) :=
  (checkedAdd image.metadata.payload image.metadata.payloadLength).bind fun stop =>
    if offset < image.metadata.payload ∨ stop ≤ offset then
      some (.error (.payloadOutside offset))
    else
      (slice? image.bytes offset.toNat stop.toNat).map fun entry =>
        match Varint.decode (toBytes entry) with
        | none => .error (.payloadLength offset)
        | some (length, used) =>
          match sliceFrom? entry (UInt64.ofNat used) (UInt64.ofNat length) with
          | none => .error (.payloadOverrun offset)
          | some payload => .ok payload

/-- **No sum wraps around and no slice leaves the file** when a payload is looked up. -/
theorem payloadSteps_eq (hb : image.bytes.size < sizeBound)
    (hsection : image.sections.payloads =
      ⟨image.metadata.payload.toNat, image.metadata.payloadLength.toNat⟩)
    (hback : image.sections.payloads.stop ≤ image.bytes.size) (offset : UInt64) :
    image.payloadSteps offset = some (image.payloadAt offset) := by
  have hstart : image.sections.payloads.start = image.metadata.payload.toNat := by rw [hsection]
  have hsum : image.sections.payloads.stop =
      image.metadata.payload.toNat + image.metadata.payloadLength.toNat := by rw [hsection]; rfl
  obtain ⟨stop, hstop⟩ : ∃ stop : UInt64, stop.toNat = image.sections.payloads.stop :=
    ⟨_, toNat_offset (hback.trans_lt hb)⟩
  have hwords : (offset < image.metadata.payload ∨ stop ≤ offset) ↔
      (offset.toNat < image.sections.payloads.start ∨
        image.sections.payloads.stop ≤ offset.toNat) := by
    rw [UInt64.lt_iff_toNat_lt, UInt64.le_iff_toNat_le, hstart, hstop]
  rw [payloadSteps, checkedAdd_eq_some_iff.mpr (hstop.trans hsum), Option.bind_some]
  by_cases hout : offset.toNat < image.sections.payloads.start ∨
      image.sections.payloads.stop ≤ offset.toNat
  · rw [if_pos (hwords.mpr hout), payloadAt_of_outside hout]
  have hin : offset.toNat ≤ stop.toNat := by omega
  rw [if_neg (mt hwords.mp hout), slice?_of_le hin (hstop.trans_le hback), Option.map_some, hstop,
    decode_slice hback]
  cases hd : Varint.decode (run image.bytes offset.toNat
      (min Varint.maxLength (image.sections.payloads.stop - offset.toNat))) with
  | none => rw [payloadAt_of_none hout hd]
  | some found =>
    obtain ⟨length, used⟩ := found
    obtain ⟨-, hshort, hroom, hsmall⟩ := decode_run_eq_some_iff.mp hd
    have hentry := size_slice (i := offset.toNat) hback
    have hused : (UInt64.ofNat used).toNat = used := toNat_offset (by omega)
    have hlength : (UInt64.ofNat length).toNat = length := toNat_offset hsmall
    rw [payloadAt_of_some hout hd]
    simp only
    rw [sliceFrom?_eq (by omega), hused, hlength, hentry]
    by_cases hfit : offset.toNat + used + length ≤ image.sections.payloads.stop
    · rw [if_pos hfit, if_pos (by omega), ByteArray.extract_extract, ← Nat.add_assoc,
        Nat.min_eq_left hfit]
    · rw [if_neg hfit, if_neg (by omega)]

/-! ### Accepted files -/

/-- **What is answered for a stored offset**: nothing exactly if there is none, a payload exactly if
its entry is there, and damage in every other case. -/
structure Answers (b : ByteArray) (s : Section) (raw : UInt64)
    (answer : Except Fault (Option ByteArray)) : Prop where
  absent : answer = .ok none ↔ raw = noPayload
  present : ∀ payload, answer = .ok (some payload) ↔
    raw ≠ noPayload ∧ ∃ used, HoldsEntry b s raw.toNat used payload
  damaged : (∃ damage, answer = .error (.corrupt damage)) ↔
    raw ≠ noPayload ∧ ∀ payload used, ¬ HoldsEntry b s raw.toNat used payload

theorem answers_payloadAt? (hb : image.sections.payloads.stop ≤ image.bytes.size) (raw : UInt64) :
    Answers image.bytes image.sections.payloads raw (image.payloadAt? (payload? raw)) := by
  by_cases hr : raw = noPayload
  · subst hr
    rw [show image.payloadAt? (payload? noPayload) = .ok none from rfl]
    exact ⟨by simp, by simp, by simp⟩
  have hread : ∀ payload, image.payloadAt raw = .ok payload ↔
      ∃ used, HoldsEntry image.bytes image.sections.payloads raw.toNat used payload :=
    fun _ => payloadAt_eq_ok_iff hb
  cases hp : image.payloadAt raw with
  | ok payload =>
    rw [payloadAt?_of_ok hr hp]
    refine ⟨by simp [hr], fun other => ?_, ⟨by simp, fun hnone => ?_⟩⟩
    · rw [← hread, hp]
      simp [hr]
    · obtain ⟨used, he⟩ := (hread payload).mp hp
      exact absurd he (hnone.2 payload used)
  | error damage =>
    rw [payloadAt?_of_error hr hp]
    have hnone : ∀ payload used,
        ¬ HoldsEntry image.bytes image.sections.payloads raw.toNat used payload :=
      fun payload used he => by
        have hok := (hread payload).mpr ⟨used, he⟩
        rw [hp] at hok
        cases hok
    refine ⟨by simp [hr], fun payload => ?_, ⟨fun _ => ⟨hr, hnone⟩, fun _ => ⟨damage, rfl⟩⟩⟩
    simp [hnone]

theorem payloads_section_of_parse (hp : parse b = .ok image) :
    image.sections.payloads =
        ⟨image.metadata.payload.toNat, image.metadata.payloadLength.toNat⟩ ∧
      preambleSize ≤ image.sections.payloads.start ∧
      image.sections.payloads.stop ≤ image.bytes.size := by
  obtain ⟨hf, hload⟩ := sections_of_parse hp
  have hsection : image.sections.payloads =
      ⟨image.metadata.payload.toNat, image.metadata.payloadLength.toNat⟩ := by
    rw [hload]
    exact (Section.mk.injEq ..).mpr ⟨rfl, Nat.mul_one _⟩
  have hbytes : image.bytes = b := by rw [hload]; rfl
  obtain ⟨hfront, hback⟩ := hf.payloads
  rw [Nat.mul_one] at hback
  rw [hsection, hbytes]
  exact ⟨rfl, hfront, hback⟩

/-- **Payload reads never leave the payload section.** The section lies behind the preamble of an
accepted file, and within the file. Whatever the record of a node or of an edge holds, there is no
payload exactly if the offset says so, the payload of an entry exactly if the entry is there, and
damage otherwise; an index of offsets changes no answer. In a file whose size is a word, no entry is
where absence is marked, nothing wraps around, and no slice leaves the file. -/
theorem payloads_of_accepted (hp : parse b = .ok image) :
    (image.sections.payloads =
        ⟨image.metadata.payload.toNat, image.metadata.payloadLength.toNat⟩ ∧
      128 ≤ image.sections.payloads.start ∧ image.sections.payloads.stop ≤ b.size) ∧
    (∀ p (hn : p < image.nodes.size),
      Answers b image.sections.payloads image.nodes[p].payload (image.nodePayload p) ∧
        image.nodePayload p = image.payloadAt? (payload? image.nodes[p].payload)) ∧
    (∀ i (he : i < image.edges.size),
      Answers b image.sections.payloads image.edges[i].payload (image.edgePayload i)) ∧
    (b.size < sizeBound →
      (∀ payload used, ¬ HoldsEntry b image.sections.payloads noPayload.toNat used payload) ∧
        ∀ offset, image.payloadSteps offset = some (image.payloadAt offset)) := by
  obtain ⟨hsection, hfront, hback⟩ := payloads_section_of_parse hp
  have hs := Sound.of_parse hp
  have hbytes : image.bytes = b := by
    rw [(sections_of_parse hp).2]
    rfl
  subst hbytes
  refine ⟨⟨hsection, hfront, hback⟩, fun p hn => ?_, fun i he => ?_, fun hsize => ⟨?_, ?_⟩⟩
  · have hrecord := Array.getElem?_eq_getElem hn
    have hanswer : image.nodePayload p = image.payloadAt? (payload? image.nodes[p].payload) := by
      rw [nodePayload_of_node (node_of_getElem? hrecord), hs.nodeOffset?_eq hrecord]
    refine ⟨?_, hanswer⟩
    rw [hanswer]
    exact answers_payloadAt? hback _
  · rw [edgePayload_of_edge (edge_of_lt he)]
    exact answers_payloadAt? hback _
  · intro payload used hentry
    have hnone : noPayload.toNat = sizeBound - 1 := rfl
    have := hentry.back
    have := hentry.length.positive
    omega
  · exact payloadSteps_eq hsize hsection hback

/-- In the file of the small graph the first node has an empty payload, and the second has none. -/
theorem payloads_of_accepted_sample : ∃ b image, parse b = .ok image ∧ b.size < sizeBound ∧
    (∃ hn : 0 < image.nodes.size, ∃ used, HoldsEntry b image.sections.payloads
      image.nodes[0].payload.toNat used ByteArray.empty) ∧
    (∃ hn : 1 < image.nodes.size, image.nodes[1].payload = noPayload) ∧
    ∀ offset, image.payloadSteps offset = some (image.payloadAt offset) := by
  have hw := Graph.writable_sample
  obtain ⟨-, hnodes, -, hsteps⟩ := payloads_of_accepted hw.parse_eq
  have hsize : (Graph.sample.file _ _ _).size < sizeBound := hw.placed.size.trans_lt hw.total
  have hn₀ := (show 0 < Graph.sample.nodes.size by decide).trans_eq hw.renders.nodeCount.symm
  have hn₁ := (show 1 < Graph.sample.nodes.size by decide).trans_eq hw.renders.nodeCount.symm
  have hfirst := hw.nodePayload_eq (p := 0) (by decide)
  have hsecond := hw.nodePayload_eq (p := 1) (by decide)
  exact ⟨_, _, hw.parse_eq, hsize, ⟨hn₀, (((hnodes 0 hn₀).1.present _).mp hfirst).2⟩,
    ⟨hn₁, (hnodes 1 hn₁).1.absent.mp hsecond⟩, (hsteps hsize).2⟩

end Image

end FlatGraph
