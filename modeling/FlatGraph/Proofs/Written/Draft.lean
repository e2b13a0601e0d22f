import FlatGraph.Proofs.Bytes.Slice
import FlatGraph.Proofs.Written.Accepted

/-! # A file written in place

A file can be written into one buffer that starts with a placeholder for the preamble: the sections
go to the offsets that the layout says, and the preamble is patched in at the end. Each step then
has a length or an offset that it relies on.

* `Graph.emit`: the file, written in this way. What a step relies on is checked or taken on trust.
* `Draft.toBytes_of_patch`: a patch that is checked overwrites what it is meant to.
* `Graph.Writable.emit_eq`: nothing is missed, and the file is the one that is built by appending. -/

namespace FlatGraph

open Bytes

/-- What a step relies on and does not find. -/
inductive Slip
  /-- The buffer does not end where a section does. -/
  | length (size offset : Nat)
  /-- The buffer goes past the offset up to which it is to be padded. -/
  | padding (size offset : Nat)
  /-- The buffer ends before the bytes that are to be patched do. -/
  | patch (size offset length : Nat)

namespace Draft

variable (checked : Bool)

/-- Relies on the buffer ending at `offset`. -/
def expect (b : ByteArray) (offset : Nat) : Except Slip Unit :=
  if checked ∧ b.size ≠ offset then .error (.length b.size offset) else .ok ()

/-- Appends zeros up to `offset`. A buffer that goes past it is left alone. -/
def padTo (b : ByteArray) (offset : Nat) : Except Slip ByteArray :=
  if checked ∧ offset < b.size then .error (.padding b.size offset)
  else .ok (appendZeros b (offset - b.size))

/-- Overwrites the bytes from `offset` on. A buffer that does not have them all is left alone. -/
def patch (b : ByteArray) (offset : Nat) (bytes : List UInt8) : Except Slip ByteArray :=
  if offset + bytes.length ≤ b.size then
    .ok (append (b.extract 0 offset) bytes ++ b.extract (offset + bytes.length) b.size)
  else if checked then .error (.patch b.size offset bytes.length)
  else .ok b

/-- Pads up to a section and appends its table, if the section has an offset. -/
def pushAt {α : Type} [Record α] (b : ByteArray) (offset : Option Nat) (records : List α) :
    Except Slip ByteArray :=
  match offset with
  | none => .ok b
  | some offset => do
    let b ← padTo checked b offset
    return Table.push b records

end Draft

namespace Graph

open Draft

/-- The header that is written first, with no offsets. -/
def placeholder (g : Graph) (o : Options) (dense : Bool) : Header where
  flags := o.flags ||| flagIf (!dense) Flag.sparseIds
  nodeCount := UInt32.ofNat g.nodes.size
  edgeCount := UInt32.ofNat g.edges.size

/-- The tables, the weights and the payloads behind a placeholder for the preamble. -/
def draftElements (checked : Bool) (g : Graph) (o : Options) (dense : Bool)
    (ends : List (Nat × Nat)) : Except Slip ByteArray := do
  let layout := g.layout o dense
  let b := append ByteArray.empty (Record.bytes (g.placeholder o dense))
  let b := appendZeros b (Record.width Metadata)
  expect checked b layout.nodeTable
  let b := Table.push b (g.nodeRecords ends layout.payload)
  expect checked b layout.edgeTable
  let b := Table.push b (g.edgeRecords ends layout.payload)
  let b := if layout.weights.isSome then Table.push b (g.edges.toList.map (·.weight)) else b
  expect checked b layout.payload
  let b := g.payloads.foldl Contents.pushPayload b
  expect checked b (layout.payload + layout.payloadLength)
  return b

/-- The sections on multiples of eight bytes behind the payloads, up to the end of the file. -/
def draftIndices (checked : Bool) (g : Graph) (o : Options) (dense : Bool)
    (ends : List (Nat × Nat)) (b : ByteArray) : Except Slip ByteArray := do
  let layout := g.layout o dense
  let b ← pushAt checked b layout.offsetIndex ((g.nodeRecords ends layout.payload).map (·.payload))
  let b ← pushAt checked b layout.idIndex g.idEntries
  let b ← pushAt checked b layout.statistics [Statistics.compute g.nodes.size ends]
  let b ← padTo checked b layout.total
  expect checked b layout.total
  return b

/-- **The file of the graph, written in place**: all sections behind a placeholder for the preamble,
then the metadata block, and last the header with the digest of what follows it. -/
def emit (checked : Bool) (g : Graph) (o : Options) (dense : Bool) (ends : List (Nat × Nat)) :
    Except Slip ByteArray := do
  let layout := g.layout o dense
  let b ← g.draftElements checked o dense ends
  let b ← g.draftIndices checked o dense ends b
  let metadata : Metadata :=
    { payload := UInt64.ofNat layout.payload
      payloadLength := UInt64.ofNat layout.payloadLength
      weights := rawOffset layout.weights
      idIndex := rawOffset layout.idIndex }
  let b ← patch checked b headerSize (Record.bytes metadata)
  let header : Header :=
    { g.placeholder o dense with
      nodeTable := UInt64.ofNat layout.nodeTable
      edgeTable := UInt64.ofNat layout.edgeTable
      offsetIndex := rawOffset layout.offsetIndex
      statistics := rawOffset layout.statistics
      checksum := checksum b }
  patch checked b 0 (Record.bytes header)

end Graph

/-! ### Steps without a slip -/

namespace Draft

variable {b c : ByteArray} {offset : Nat} {bytes : List UInt8}

theorem toBytes_patch (b : ByteArray) (offset : Nat) (bytes : List UInt8) :
    toBytes (append (b.extract 0 offset) bytes ++ b.extract (offset + bytes.length) b.size) =
      (toBytes b).take offset ++ bytes ++ (toBytes b).drop (offset + bytes.length) := by
  have hrest : ((toBytes b).drop (offset + bytes.length)).length ≤
      b.size - (offset + bytes.length) := by
    rw [List.length_drop, length_toBytes]
  rw [toBytes_front, toBytes_append, toBytes_extract, toBytes_extract, List.drop_zero, Nat.sub_zero,
    List.take_of_length_le hrest]

/-- **A patch without a slip** overwrites all the bytes that it is meant to, and no others. -/
theorem toBytes_of_patch (h : patch true b offset bytes = .ok c) :
    offset + bytes.length ≤ b.size ∧
      toBytes c = (toBytes b).take offset ++ bytes ++ (toBytes b).drop (offset + bytes.length) := by
  unfold patch at h
  split_ifs at h with hle htrue
  · cases h
    exact ⟨hle, toBytes_patch b offset bytes⟩
  · exact absurd rfl htrue

theorem sameOutside_of_patch (h : patch true b offset bytes = .ok c) :
    SameOutside b c offset (offset + bytes.length) ∧ At c offset bytes := by
  obtain ⟨hle, hc⟩ := toBytes_of_patch h
  have hsize := length_toBytes b
  have hfront : ((toBytes b).take offset).length = offset := by
    rw [List.length_take]
    omega
  have hold : (((toBytes b).drop offset).take bytes.length).length = bytes.length := by
    rw [List.length_take, List.length_drop]
    omega
  have hb : toBytes b = (toBytes b).take offset ++ ((toBytes b).drop offset).take bytes.length ++
      (toBytes b).drop (offset + bytes.length) := by
    rw [List.append_assoc, ← List.drop_drop, List.take_append_drop, List.take_append_drop]
  have hsame := sameOutside_of_toBytes hb hc hold
  rw [hfront] at hsame
  refine ⟨hsame, (toBytes b).drop (offset + bytes.length), ?_⟩
  rw [hc, List.append_assoc, List.drop_left' hfront]

theorem exists_patch (checked : Bool) {front old tail : List UInt8}
    (hb : toBytes b = front ++ old ++ tail) (hold : old.length = bytes.length) :
    ∃ c, patch checked b front.length bytes = .ok c ∧ toBytes c = front ++ bytes ++ tail := by
  have hsize : b.size = front.length + bytes.length + tail.length := by
    rw [← length_toBytes, hb, List.length_append, List.length_append, hold]
  refine ⟨_, if_pos (by omega), ?_⟩
  rw [toBytes_patch, ← hold, ← List.length_append, hb, List.drop_left, List.append_assoc front,
    List.take_left]

end Draft

/-! ### Buffers and bodies -/

/-- **The buffer drafts the body**: behind the preamble the buffer holds what the body holds behind
its metadata block. -/
def Drafts (m : Metadata) (b body : ByteArray) : Prop :=
  ∃ front tail : List UInt8, front.length = preambleSize ∧ toBytes b = front ++ tail ∧
    toBytes body = Record.bytes m ++ tail

namespace Drafts

variable {m : Metadata} {b body : ByteArray}

theorem size (h : Drafts m b body) : b.size = headerSize + body.size := by
  obtain ⟨front, tail, hfront, hb, hbody⟩ := h
  rw [← length_toBytes, ← length_toBytes, hb, hbody, List.length_append, List.length_append,
    hfront, LawfulRecord.length_bytes, preambleSize, Nat.add_assoc]

theorem append {b' body' : ByteArray} {bytes : List UInt8} (h : Drafts m b body)
    (hb : toBytes b' = toBytes b ++ bytes) (hbody : toBytes body' = toBytes body ++ bytes) :
    Drafts m b' body' := by
  obtain ⟨front, tail, hfront, htail, htail'⟩ := h
  refine ⟨front, tail ++ bytes, hfront, ?_, ?_⟩
  · rw [hb, htail, List.append_assoc]
  · rw [hbody, htail', List.append_assoc]

theorem push {α : Type} [Record α] (h : Drafts m b body) (records : List α) :
    Drafts m (Table.push b records) (Table.push body records) :=
  h.append (toBytes_table b records) (toBytes_table body records)

theorem columns {c : Contents} {wanted : Bool} {weights : List UInt64} (h : Drafts m b c.tables)
    (hw : c.weights = if wanted then some weights else none) :
    Drafts m (if wanted then Table.push b weights else b) c.columns := by
  rw [Contents.columns, hw]
  cases wanted with
  | false => exact h
  | true => exact h.push weights

theorem payloads (h : Drafts m b body) (payloads : List (Option ByteArray)) :
    Drafts m (payloads.foldl Contents.pushPayload b) (payloads.foldl Contents.pushPayload body) :=
  h.append (toBytes_foldl_pushPayload b payloads) (toBytes_foldl_pushPayload body payloads)

theorem padTo (checked : Bool) (h : Drafts m b body) :
    ∃ b', Draft.padTo checked b (align b.size) = .ok b' ∧ b'.size = align b.size ∧
      Drafts m b' (appendAligned body) := by
  have hle := le_align b.size
  have hzeros := toBytes_appendZeros b (align b.size - b.size)
  have hcount : align b.size - b.size = align body.size - body.size := by
    rw [h.size, align_add (by decide), Nat.add_sub_add_left]
  refine ⟨_, if_neg (by omega), ?_, h.append hzeros ?_⟩
  · rw [← length_toBytes, hzeros, List.length_append, List.length_replicate, length_toBytes]
    omega
  · rw [hcount]
    exact toBytes_appendZeros body _

/-- **A section goes to its offset**, which is on the next multiple of eight bytes. -/
theorem pushAt {α : Type} [Record α] (checked : Bool) (h : Drafts m b body)
    (hw : ∀ r : α, (Record.bytes r).length = Record.width α) (wanted : Bool) (records : List α) :
    ∃ b', Draft.pushAt checked b
        (Layout.place b.size wanted (records.length * Record.width α)).1 records = .ok b' ∧
      b'.size = (Layout.place b.size wanted (records.length * Record.width α)).2 ∧
      Drafts m b' (Contents.pushSection body (if wanted then some records else none)) := by
  cases wanted with
  | false => exact ⟨b, rfl, rfl, h⟩
  | true =>
    obtain ⟨padded, hpad, hsize, hdrafts⟩ := h.padTo checked
    refine ⟨Table.push padded records, ?_, ?_, hdrafts.push records⟩
    · show (Draft.padTo checked b (align b.size) >>= _) = _
      rw [hpad]
      rfl
    · rw [size_table hw, hsize]
      rfl

/-- Patching the metadata block in leaves the body behind some first bytes. -/
theorem patch (checked : Bool) (h : Drafts m b body) :
    ∃ b' front, Draft.patch checked b headerSize (Record.bytes m) = .ok b' ∧
      front.length = headerSize ∧ toBytes b' = front ++ toBytes body := by
  obtain ⟨front, tail, hfront, hb, hbody⟩ := h
  have hle : headerSize ≤ front.length := by
    rw [hfront]
    exact Nat.le_add_right _ _
  have htake : (front.take headerSize).length = headerSize := List.length_take_of_le hle
  have hdrop : (front.drop headerSize).length = (Record.bytes m).length := by
    rw [List.length_drop, hfront, LawfulRecord.length_bytes]
    exact Nat.add_sub_cancel_left _ _
  have hsplit : toBytes b = front.take headerSize ++ front.drop headerSize ++ tail := by
    rw [List.take_append_drop, hb]
  obtain ⟨b', hpatch, hb'⟩ := Draft.exists_patch checked hsplit hdrop
  rw [htake] at hpatch
  exact ⟨b', _, hpatch, htake, by rw [hb', hbody, List.append_assoc]⟩

end Drafts

/-! ### The file of a graph -/

theorem ok_bind {ε α β : Type} {x : Except ε α} {a : α} (h : x = .ok a) (f : α → Except ε β) :
    (x >>= f) = f a := by
  rw [h]
  rfl

theorem Draft.expect_eq (checked : Bool) {b : ByteArray} {offset : Nat} (h : b.size = offset) :
    expect checked b offset = .ok () := if_neg fun hne => hne.2 h

theorem drafts_placeholder (m : Metadata) (h : Header) :
    Drafts m (appendZeros (append ByteArray.empty (Record.bytes h)) (Record.width Metadata))
      (append ByteArray.empty (Record.bytes m)) := by
  have hempty : toBytes ByteArray.empty = [] := rfl
  refine ⟨Record.bytes h ++ List.replicate (Record.width Metadata) 0, [], ?_, ?_, ?_⟩
  · rw [List.length_append, LawfulRecord.length_bytes, List.length_replicate]
    rfl
  · rw [toBytes_appendZeros, toBytes_append, hempty, List.nil_append, List.append_nil]
  · rw [toBytes_append, hempty, List.nil_append, List.append_nil]

namespace Graph

variable {g : Graph} {o : Options} {positions : Positions} {ends : List (Nat × Nat)}

theorem exists_draftElements (hends : ends.length = g.edges.size) (checked : Bool) (o : Options)
    (dense : Bool) : ∃ b, g.draftElements checked o dense ends = .ok b ∧
      b.size = Layout.afterPayloads o dense g.nodes.size g.edges.size (payloadsSize g.payloads) ∧
      Drafts (g.contents o dense ends).metadata b (g.contents o dense ends).entries := by
  obtain ⟨-, hpayload⟩ :=
    columns_contents hends (g.contents o dense ends).size_front o dense
  set c := g.contents o dense ends
  have hn : c.nodes.length = g.nodes.size := length_nodeRecords g ends _
  rw [c.size_front] at hpayload
  -- the preamble and the tables
  set b₀ := appendZeros (append ByteArray.empty (Record.bytes (g.placeholder o dense)))
    (Record.width Metadata)
  have hdrafts₀ : Drafts c.metadata b₀ _ := drafts_placeholder c.metadata (g.placeholder o dense)
  have hsize₀ : b₀.size = (g.layout o dense).nodeTable := by
    rw [hdrafts₀.size, size_append, LawfulRecord.length_bytes]
    rfl
  have hsize₁ : (Table.push b₀ c.nodes).size = (g.layout o dense).edgeTable := by
    rw [size_table LawfulRecord.length_bytes, hsize₀, hn]
    rfl
  have hdrafts₁ := (hdrafts₀.push c.nodes).push c.edges
  -- the weights
  have hdrafts₂ : Drafts c.metadata _ c.columns := hdrafts₁.columns rfl
  rw [← (roomy_layout g o dense).weights.isSome] at hdrafts₂
  have hsize₂ := hdrafts₂.size
  rw [← hpayload] at hsize₂
  -- the payloads
  have hdrafts₃ : Drafts c.metadata _ c.entries := hdrafts₂.payloads g.payloads
  have hsize₃ := hdrafts₃.size
  rw [c.size_entries, ← Nat.add_assoc, ← hpayload] at hsize₃
  refine ⟨_, ?_, hsize₃, hdrafts₃⟩
  refine (ok_bind (Draft.expect_eq checked hsize₀) _).trans ?_
  refine (ok_bind (Draft.expect_eq checked hsize₁) _).trans ?_
  refine (ok_bind (Draft.expect_eq checked hsize₂) _).trans ?_
  exact ok_bind (Draft.expect_eq checked hsize₃) _

/-- The sections on multiples of eight bytes go to their offsets, and the buffer is padded up to the
size of the file. -/
theorem exists_draftIndices (checked : Bool) (o : Options) (dense : Bool) {b : ByteArray}
    (hsize : b.size = Layout.afterPayloads o dense g.nodes.size g.edges.size
      (payloadsSize g.payloads))
    (hb : Drafts (g.contents o dense ends).metadata b (g.contents o dense ends).entries) :
    ∃ b', g.draftIndices checked o dense ends b = .ok b' ∧
      Drafts (g.contents o dense ends).metadata b' (g.contents o dense ends).body := by
  set c := g.contents o dense ends
  have hslots : (c.nodes.map NodeRecord.payload).length = g.nodes.size := by
    rw [List.length_map]
    exact length_nodeRecords g ends _
  obtain ⟨b₁, hpush₁, hsize₁, hdrafts₁⟩ := hb.pushAt checked LawfulRecord.length_bytes
    o.offsetIndex (c.nodes.map NodeRecord.payload)
  rw [hslots, hsize] at hpush₁ hsize₁
  obtain ⟨b₂, hpush₂, hsize₂, hdrafts₂⟩ := hdrafts₁.pushAt checked LawfulRecord.length_bytes
    (!dense) g.idEntries
  rw [length_idEntries, hsize₁] at hpush₂ hsize₂
  obtain ⟨b₃, hpush₃, hsize₃, hdrafts₃⟩ := hdrafts₂.pushAt checked Statistics.length_bytes
    o.statistics [Statistics.compute g.nodes.size ends]
  rw [hsize₂] at hpush₃ hsize₃
  obtain ⟨b₄, hpad, hsize₄, hdrafts₄⟩ := hdrafts₃.padTo checked
  rw [hsize₃] at hpad hsize₄
  rw [← idIndex_contents g o dense, ← statistics_contents g o dense] at hdrafts₄
  refine ⟨b₄, ?_, hdrafts₄⟩
  refine (ok_bind hpush₁ _).trans ?_
  refine (ok_bind hpush₂ _).trans ?_
  refine (ok_bind hpush₃ _).trans ?_
  refine (ok_bind hpad _).trans ?_
  exact ok_bind (Draft.expect_eq checked hsize₄) _

/-- **Nothing is missed** when the file is written in place, and it is the file that is built by
appending. -/
theorem Writable.emit_eq (h : g.Writable o positions ends) (checked : Bool) :
    g.emit checked o positions.isDense ends = .ok (g.file o positions ends) := by
  obtain ⟨b, helements, hsize, hdrafts⟩ :=
    exists_draftElements h.resolved.1 checked o positions.isDense
  obtain ⟨b', hindices, hdrafts'⟩ :=
    exists_draftIndices checked o positions.isDense hsize hdrafts
  obtain ⟨patched, front, hpatch, hfront, hbytes⟩ := hdrafts'.patch checked
  set c := g.contents o positions.isDense ends with hc
  have hsum : checksum patched = Digest.xxh3 c.body := checksum_of_toBytes_eq hfront hbytes
  have hsplit : toBytes patched = [] ++ front ++ toBytes c.body := hbytes
  have hlength : front.length = (Record.bytes c.sealed).length := by
    rw [hfront, LawfulRecord.length_bytes]
    rfl
  obtain ⟨b'', hseal, hb''⟩ := Draft.exists_patch checked hsplit hlength
  have hfile : b'' = g.file o positions ends := by
    refine ByteArray.ext (Array.toList_inj.mp (hb''.trans ?_))
    rw [file, ← hc, ← toBytes, c.toBytes_bytes, List.nil_append]
  rw [hfile, Contents.sealed, ← hsum] at hseal
  refine (ok_bind helements _).trans ?_
  refine (ok_bind hindices _).trans ?_
  exact (ok_bind hpatch _).trans hseal

end Graph

end FlatGraph
