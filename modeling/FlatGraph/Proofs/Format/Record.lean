import FlatGraph.Format.Header
import FlatGraph.Proofs.Bytes.Slice
import FlatGraph.Statistics

/-! # Records are read back

The header, the metadata block and the records of the tables are read back from the bytes that they
are written as, and so is a block of statistics whose counts fit (`Statistics.InRange`). All but the
header, of which no slice is taken, are read from the bytes of their width only. -/

namespace FlatGraph

open Bytes

instance : LawfulRecord NodeRecord where
  length_bytes r := by simp only [Record.bytes, List.length_append, length_wordBytes]; rfl
  readAt_bytes r h := by
    simp only [Record.bytes, At.append_iff, List.length_append, length_wordBytes,
      Nat.reduceAdd] at h
    obtain ⟨⟨⟨⟨hid, hkind⟩, hflags⟩, hfirst⟩, hpayload⟩ := h
    simp only [Record.readAt, hid.u64At, hkind.u16At, hflags.u16At, hfirst.u32At, hpayload.u64At]

instance : LawfulRecord EdgeRecord where
  length_bytes r := by simp only [Record.bytes, List.length_append, length_wordBytes]; rfl
  readAt_bytes r h := by
    simp only [Record.bytes, At.append_iff, List.length_append, length_wordBytes,
      Nat.reduceAdd] at h
    obtain ⟨⟨⟨⟨hsource, htarget⟩, hkind⟩, hnext⟩, hpayload⟩ := h
    simp only [Record.readAt, hsource.u32At, htarget.u32At, hkind.u32At, hnext.u32At,
      hpayload.u64At]

instance : LawfulRecord IdEntry where
  length_bytes r := by simp only [Record.bytes, List.length_append, length_wordBytes]; rfl
  readAt_bytes r h := by
    simp only [Record.bytes, At.append_iff, List.length_append, length_wordBytes,
      Nat.reduceAdd] at h
    obtain ⟨⟨hid, hposition⟩, -⟩ := h
    simp only [Record.readAt, hid.u64At, hposition.u32At]

instance : LawfulRecord Header where
  length_bytes h := by simp only [Record.bytes, List.length_append, length_wordBytes]; rfl
  readAt_bytes r h := by
    simp only [Record.bytes, At.append_iff, List.length_append, length_wordBytes,
      Nat.reduceAdd] at h
    obtain ⟨⟨⟨⟨⟨⟨⟨⟨⟨⟨hmagic, hversion⟩, hflags⟩, hnodes⟩, hedges⟩, -⟩, hnodeTable⟩, hedgeTable⟩,
      hoffsets⟩, hstatistics⟩, hchecksum⟩ := h
    simp only [Record.readAt, hmagic.u64At, hversion.u16At, hflags.u16At, hnodes.u32At,
      hedges.u32At, hnodeTable.u64At, hedgeTable.u64At, hoffsets.u64At, hstatistics.u64At,
      hchecksum.u64At]

instance : LawfulRecord Metadata where
  length_bytes m := by simp only [Record.bytes, List.length_append, length_wordBytes]; rfl
  readAt_bytes r h := by
    simp only [Record.bytes, At.append_iff, List.length_append, length_wordBytes,
      Nat.reduceAdd] at h
    obtain ⟨⟨⟨⟨hpayload, hlength⟩, hweights⟩, hids⟩, -⟩ := h
    simp only [Record.readAt, hpayload.u64At, hlength.u64At, hweights.u64At, hids.u64At]

/-! ### Records elsewhere -/

instance : LocalRecord NodeRecord where
  readAt_congr {b c i j} h := by
    have hwords := wordAt_within h
    have hid : wordAt b i 8 = wordAt c j 8 := hwords 0 8 (by decide)
    simp only [Record.readAt, u64At, u32At, u16At, hid, hwords 8 2 (by decide),
      hwords 10 2 (by decide), hwords 12 4 (by decide), hwords 16 8 (by decide)]

instance : LocalRecord EdgeRecord where
  readAt_congr {b c i j} h := by
    have hwords := wordAt_within h
    have hsource : wordAt b i 4 = wordAt c j 4 := hwords 0 4 (by decide)
    simp only [Record.readAt, u64At, u32At, hsource, hwords 4 4 (by decide),
      hwords 8 4 (by decide), hwords 12 4 (by decide), hwords 16 8 (by decide)]

instance : LocalRecord IdEntry where
  readAt_congr {b c i j} h := by
    have hwords := wordAt_within h
    have hid : wordAt b i 8 = wordAt c j 8 := hwords 0 8 (by decide)
    simp only [Record.readAt, u64At, u32At, hid, hwords 8 4 (by decide)]

instance : LocalRecord Metadata where
  readAt_congr {b c i j} h := by
    have hwords := wordAt_within h
    have hpayload : wordAt b i 8 = wordAt c j 8 := hwords 0 8 (by decide)
    simp only [Record.readAt, u64At, hpayload, hwords 8 8 (by decide), hwords 16 8 (by decide),
      hwords 24 8 (by decide)]

instance : LocalRecord Statistics where
  readAt_congr {b c i j} h := by
    have hwords := wordAt_within h
    have hnodes : wordAt b i 4 = wordAt c j 4 := hwords 0 4 (by decide)
    simp only [Record.readAt, u64At, hnodes, hwords 4 4 (by decide), hwords 8 4 (by decide),
      hwords 12 4 (by decide), hwords 16 8 (by decide), hwords 24 4 (by decide),
      hwords 28 4 (by decide), hwords 32 4 (by decide)]

/-! ### Statistics -/

theorem Statistics.length_bytes (s : Statistics) :
    (Record.bytes s).length = Record.width Statistics := by
  simp only [Record.bytes, List.length_append, length_wordBytes]
  rfl

/-- Every count takes at most the 32 bits that a block has for it. -/
structure Statistics.InRange (s : Statistics) : Prop where
  nodes : s.nodes < 256 ^ 4
  edges : s.edges < 256 ^ 4
  minOutDegree : s.minOutDegree < 256 ^ 4
  maxOutDegree : s.maxOutDegree < 256 ^ 4
  weakComponents : s.weakComponents < 256 ^ 4
  isolatedNodes : s.isolatedNodes < 256 ^ 4
  selfLoops : s.selfLoops < 256 ^ 4

theorem Statistics.InRange.readAt_bytes {s : Statistics} (hs : s.InRange) {b : ByteArray} {i : Nat}
    (h : At b i (Record.bytes s)) : Record.readAt b i = s := by
  obtain ⟨hn, he, hl, hg, hw, hi, hsl⟩ := hs
  simp only [Record.bytes, At.append_iff, List.length_append, length_wordBytes,
    Nat.reduceAdd] at h
  obtain ⟨⟨⟨⟨⟨⟨⟨⟨hnodes, hedges⟩, hmin⟩, hmax⟩, hmean⟩, hweak⟩, hisolated⟩, hloops⟩, -⟩ := h
  simp only [Record.readAt, hnodes.wordAt, hedges.wordAt, hmin.wordAt, hmax.wordAt, hmean.u64At,
    hweak.wordAt, hisolated.wordAt, hloops.wordAt, Nat.mod_eq_of_lt hn, Nat.mod_eq_of_lt he,
    Nat.mod_eq_of_lt hl, Nat.mod_eq_of_lt hg, Nat.mod_eq_of_lt hw, Nat.mod_eq_of_lt hi,
    Nat.mod_eq_of_lt hsl]

end FlatGraph
