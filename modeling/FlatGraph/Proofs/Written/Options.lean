import FlatGraph.Proofs.Bytes.Slice
import FlatGraph.Proofs.Written.Capacity
import FlatGraph.Proofs.Written.RoundTrip
import FlatGraph.Proofs.Written.Statistics

/-! # Options do not interfere

Options turn sections on and off, and every section behind one of them moves. What is answered of
the graph stays: two files of one graph hold the same graph, whatever their options. The option to
compress turns nothing on or off: it is one bit of the flags.

* `Contents.sameOutside_bytes`: two files that differ in the low byte of their flags.
* `Graph.Writable.ids_file`: the index of identifiers depends on the graph only.
* `Graph.options_of_write`: any two options for one graph. -/

namespace FlatGraph

open Bytes

/-! ### The bit of an option -/

/-- The options with the option to compress turned over. -/
def Options.toggleCompress (o : Options) : Options := { o with compress := !o.compress }

/-- The flags of a file with an index of identifiers or without it. -/
def Options.fileFlags (o : Options) (dense : Bool) : UInt16 :=
  o.flags ||| flagIf (!dense) Flag.sparseIds

/-- All flags are in the low byte, and the option to compress is the third bit of it. -/
theorem Options.fileFlags_toggleCompress (o : Options) (dense : Bool) :
    (o.fileFlags dense).toNat / 256 = (o.toggleCompress.fileFlags dense).toNat / 256 ∧
      UInt8.ofNat (o.toggleCompress.fileFlags dense).toNat =
        UInt8.ofNat (o.fileFlags dense).toNat ^^^ 4 := by
  obtain ⟨offsetIndex, weightedEdges, compress, statistics⟩ := o
  revert offsetIndex weightedEdges compress statistics dense
  decide

/-- The bytes of a header in front of its flags. -/
def Header.front (h : Header) : List UInt8 :=
  wordBytes 8 h.magic.toNat ++ wordBytes 2 h.version.toNat

/-- The bytes of a header behind its flags. -/
def Header.back (h : Header) : List UInt8 :=
  wordBytes 4 h.nodeCount.toNat ++ wordBytes 4 h.edgeCount.toNat ++ wordBytes 4 0 ++
    wordBytes 8 h.nodeTable.toNat ++ wordBytes 8 h.edgeTable.toNat ++
    wordBytes 8 h.offsetIndex.toNat ++ wordBytes 8 h.statistics.toNat ++
    wordBytes 8 h.checksum.toNat

theorem Header.bytes_eq (h : Header) : Record.bytes h =
    h.front ++ [UInt8.ofNat h.flags.toNat] ++ (UInt8.ofNat (h.flags.toNat / 256) :: h.back) := by
  simp only [Record.bytes, Header.front, Header.back, wordBytes, List.cons_append,
    List.nil_append]

theorem Header.length_front (h : Header) : h.front.length = 10 := by
  rw [front, List.length_append, length_wordBytes, length_wordBytes]

theorem Header.byteAt_flags {h : Header} {b : ByteArray} (hat : At b 0 (Record.bytes h)) :
    byteAt b 10 = UInt8.ofNat h.flags.toNat := by
  rw [h.bytes_eq, List.append_assoc] at hat
  have hflags := (At.append_iff.mp hat).2
  rw [h.length_front] at hflags
  exact hflags.byteAt

namespace Contents

variable {c d : Contents}

/-- **Files that differ in the low byte of their flags** differ in one byte. -/
theorem sameOutside_bytes (hbody : d.body = c.body)
    (hheader : d.sealed = { c.sealed with flags := d.sealed.flags })
    (hhigh : c.sealed.flags.toNat / 256 = d.sealed.flags.toNat / 256) :
    SameOutside c.bytes d.bytes 10 11 := by
  have hfront : d.sealed.front = c.sealed.front := by
    rw [hheader]
    rfl
  have hback : d.sealed.back = c.sealed.back := by
    rw [hheader]
    rfl
  have hc := c.toBytes_bytes
  have hd := d.toBytes_bytes
  rw [Header.bytes_eq, List.append_assoc] at hc hd
  rw [hfront, hback, hbody, ← hhigh] at hd
  have hsame := sameOutside_of_toBytes hc hd rfl
  rwa [c.sealed.length_front] at hsame

end Contents

/-! ### Files under other options -/

theorem Image.Renders.weight_congr {image other : Image} {g : Graph} {o o' : Options}
    (h : image.Renders g o) (h' : other.Renders g o') (ho : o.weightedEdges = o'.weightedEdges)
    (i : Nat) : image.weight i = other.weight i := by
  have hcount := h.edgeCount
  have hcount' := h'.edgeCount
  rcases Nat.lt_or_ge i g.edges.size with hi | hi
  · rw [h.weight i hi, h'.weight i hi, ho]
  · rw [weight_of_ge (by omega), weight_of_ge (by omega), hcount, hcount']

namespace Graph

variable {g : Graph} {o : Options} {positions : Positions} {ends : List (Nat × Nat)}

/-- What a file holds behind its header is the same with and without the option to compress. -/
theorem body_toggleCompress (g : Graph) (o : Options) (dense : Bool) (ends : List (Nat × Nat)) :
    (g.contents o.toggleCompress dense ends).body = (g.contents o dense ends).body := rfl

theorem sealed_toggleCompress (g : Graph) (o : Options) (dense : Bool) (ends : List (Nat × Nat)) :
    (g.contents o.toggleCompress dense ends).sealed =
      { (g.contents o dense ends).sealed with flags := o.toggleCompress.fileFlags dense } := rfl

theorem byteAt_flags_file (g : Graph) (o : Options) (positions : Positions)
    (ends : List (Nat × Nat)) : byteAt (g.file o positions ends) 10 =
      UInt8.ofNat (o.fileFlags positions.isDense).toNat :=
  Header.byteAt_flags (Contents.at_sealed _)

/-- **The option to compress is one bit** of the file. -/
theorem file_toggleCompress (g : Graph) (o : Options) (positions : Positions)
    (ends : List (Nat × Nat)) :
    SameOutside (g.file o positions ends) (g.file o.toggleCompress positions ends) 10 11 ∧
      byteAt (g.file o.toggleCompress positions ends) 10 =
        byteAt (g.file o positions ends) 10 ^^^ 4 ∧
      (headerOf (g.file o.toggleCompress positions ends)).checksum =
        (headerOf (g.file o positions ends)).checksum := by
  obtain ⟨hhigh, hlow⟩ := o.fileFlags_toggleCompress positions.isDense
  refine ⟨?_, ?_, ?_⟩
  · exact Contents.sameOutside_bytes (body_toggleCompress g o _ ends)
      (sealed_toggleCompress g o _ ends) hhigh
  · rw [byteAt_flags_file, byteAt_flags_file]
    exact hlow
  · rw [headerOf_file, headerOf_file, sealed_toggleCompress]

namespace Writable

variable (h : g.Writable o positions ends)
include h

theorem toggleCompress : g.Writable o.toggleCompress positions ends :=
  ⟨h.nodes, h.edges, h.inhabited, h.positions_eq, h.endpoints_eq, h.total⟩

theorem unique {o' : Options} {others : Positions} {found : List (Nat × Nat)}
    (h' : g.Writable o' others found) : others = positions ∧ found = ends := by
  obtain rfl := Except.ok.inj (h'.positions_eq.symm.trans h.positions_eq)
  exact ⟨rfl, Except.ok.inj (h'.endpoints_eq.symm.trans h.endpoints_eq)⟩

/-- **The index of identifiers** depends on the graph only. -/
theorem ids_file : (Image.ofFile (g.file o positions ends)).ids =
    if positions.isDense then .dense g.nodes.size else .sparse g.idEntries.toArray := by
  have hflag := (hasFlag_file g o positions ends).2.2.2.2
  have hoffset := h.sectionsFit.idIndex.1
  rw [hflag, Bool.not_eq_true'] at hoffset
  rw [Image.ofFile_ids, h.nodeCount]
  cases hd : positions.isDense with
  | true =>
    have hzero : (metadataOf (g.file o positions ends)).idIndex = 0 := by
      simpa [hd] using hoffset
    rw [if_pos hzero]
    rfl
  | false =>
    rw [if_neg (hoffset.mp hd), h.idEntriesOf_file hd]
    rfl

/-- **A graph that is written is written under all options**, unless no machine has room for its
payloads. -/
theorem write_options (o' : Options) :
    (∃ c, g.write o' = .ok c) ∨ (g.write o' = .error .tooLarge ∧ ¬ g.InMemory) :=
  write_or_tooLarge o' h.nodes h.edges (isEmpty_eq_false_iff.mp h.inhabited)
    (fun _ _ hp hq => eq_of_id_eq h.positions_eq hp hq) h.resolved.1
    fun _ hi hi' => Graph.endpoints_eq h.positions_eq h.endpoints_eq hi hi'

end Writable

/-- **Options do not interfere with what a file holds.** A graph that is written under some options
is written under all others, unless no machine has room for its payloads. Both files are accepted
and answer alike; they find identifiers in the same index, and have the same weights or the same
statistics if both have any or neither has. Under the same options but for the one to compress, the
graph is written too, and the files differ in one bit of the flags. -/
theorem options_of_write {b : ByteArray} (hb : g.write o = .ok b) (o' : Options) :
    ((∃ c, g.write o' = .ok c) ∨ (g.write o' = .error .tooLarge ∧ ¬ g.InMemory)) ∧
    (∀ c, g.write o' = .ok c → ∃ image other, Image.parse b = .ok image ∧
      Image.parse c = .ok other ∧ image.Alike other ∧ image.ids = other.ids ∧
      (o.weightedEdges = o'.weightedEdges → ∀ i, image.weight i = other.weight i) ∧
      (o.statistics = o'.statistics → image.statistics = other.statistics)) ∧
    (o' = { o with compress := !o.compress } → ∃ c, g.write o' = .ok c ∧
      SameOutside b c 10 11 ∧ byteAt c 10 = byteAt b 10 ^^^ 4 ∧
      (headerOf c).checksum = (headerOf b).checksum) := by
  obtain ⟨positions, ends, h, rfl⟩ := write_eq_ok_iff.mp hb
  refine ⟨h.write_options o', fun c hc => ?_, ?_⟩
  · obtain ⟨others, found, h', rfl⟩ := write_eq_ok_iff.mp hc
    obtain ⟨rfl, rfl⟩ := h.unique h'
    refine ⟨_, _, h.parse_eq, h'.parse_eq, ?_, ?_, h.renders.weight_congr h'.renders, ?_⟩
    · exact h.renders.content.alike h'.renders.content h.sound_file h'.sound_file
    · rw [h.ids_file, h'.ids_file]
    · intro hs
      rw [h.statistics_eq, h'.statistics_eq, hs]
  · rintro rfl
    exact ⟨_, write_eq_ok_iff.mpr ⟨_, _, h.toggleCompress, rfl⟩,
      file_toggleCompress g o positions ends⟩

/-- The small graph without any index and without weights. -/
theorem options_of_write_sample : ∃ b c image other, sample.write Options.sample = .ok b ∧
    sample.write {} = .ok c ∧ Image.parse b = .ok image ∧ Image.parse c = .ok other ∧
    image.Alike other ∧ image.statistics = other.statistics ∧
    ∃ d, sample.write { Options.sample with compress := true } = .ok d ∧ SameOutside b d 10 11 ∧
      byteAt d 10 = byteAt b 10 ^^^ 4 := by
  have hmemory : sample.InMemory := by
    unfold InMemory
    decide
  obtain ⟨b, hb⟩ := exists_write_sample
  obtain ⟨hwrite, hagree, -⟩ := options_of_write hb {}
  obtain ⟨c, hc⟩ := hwrite.resolve_right fun hlarge => hlarge.2 hmemory
  obtain ⟨image, other, himage, hother, halike, -, -, hstatistics⟩ := hagree c hc
  obtain ⟨d, hd, hsame, hbit, -⟩ :=
    (options_of_write hb { Options.sample with compress := true }).2.2 rfl
  exact ⟨b, c, image, other, hb, hc, himage, hother, halike, hstatistics rfl, d, hd, hsame, hbit⟩

end Graph

end FlatGraph
