import FlatGraph.Proofs.Bytes.Slice
import FlatGraph.Proofs.Image.Format
import FlatGraph.Written.Layout

/-! # The layout of a file fits

Every section that a layout places lies behind the preamble and before the end of the file, and the
flags of a written file tell which sections are placed. The file is no larger than its sections, but
for the few bytes that align them. -/

namespace FlatGraph

open Bytes

namespace Layout

/-- An optional section of some bytes lies behind the preamble and before the end of the file, and
is there exactly if it is wanted. -/
structure FitsWanted (total : Nat) (offset : Option Nat) (wanted : Bool) (length : Nat) : Prop where
  isSome : offset.isSome = wanted
  within : ∀ i, offset = some i → preambleSize ≤ i ∧ i + length ≤ total

theorem le_place (cursor : Nat) (wanted : Bool) (length : Nat) :
    cursor ≤ (place cursor wanted length).2 := by
  have := le_align cursor
  cases wanted with
  | false => exact Nat.le_refl cursor
  | true =>
    show cursor ≤ align cursor + length
    omega

theorem place_fits {cursor total length : Nat} {wanted : Bool} (hc : preambleSize ≤ cursor)
    (ht : (place cursor wanted length).2 ≤ total) :
    FitsWanted total (place cursor wanted length).1 wanted length := by
  cases wanted with
  | false => exact ⟨rfl, fun i hi => by cases hi⟩
  | true =>
    refine ⟨rfl, fun i hi => ?_⟩
    cases hi
    exact ⟨hc.trans (le_align cursor), ht⟩

/-! ### Cursors -/

section

variable (o : Options) (dense : Bool) (nodes edges length : Nat)

/-- Where the first of the sections on multiples of eight bytes may start. -/
def afterPayloads : Nat := (plan o dense nodes edges length).payload + length

/-- The cursor behind the index of payload offsets. -/
def afterOffsetIndex : Nat :=
  (place (afterPayloads o dense nodes edges length) o.offsetIndex (nodes * Record.width UInt64)).2

/-- The cursor behind the index of identifiers. -/
def afterIdIndex : Nat :=
  (place (afterOffsetIndex o dense nodes edges length) (!dense) (nodes * Record.width IdEntry)).2

/-- The cursor behind the statistics. -/
def afterStatistics : Nat :=
  (place (afterIdIndex o dense nodes edges length) o.statistics (Record.width Statistics)).2

theorem plan_offsetIndex : (plan o dense nodes edges length).offsetIndex =
    (place (afterPayloads o dense nodes edges length) o.offsetIndex
      (nodes * Record.width UInt64)).1 := rfl

theorem plan_idIndex : (plan o dense nodes edges length).idIndex =
    (place (afterOffsetIndex o dense nodes edges length) (!dense)
      (nodes * Record.width IdEntry)).1 := rfl

theorem plan_statistics : (plan o dense nodes edges length).statistics =
    (place (afterIdIndex o dense nodes edges length) o.statistics
      (Record.width Statistics)).1 := rfl

theorem plan_total : (plan o dense nodes edges length).total =
    align (afterStatistics o dense nodes edges length) := rfl

end

/-! ### Room for all sections -/

/-- **Every section fits** in the file that is laid out. -/
structure Roomy (l : Layout) (o : Options) (dense : Bool) (nodes edges length : Nat) : Prop where
  nodeTable : FlatGraph.Fits l.total l.nodeTable nodes (Record.width NodeRecord)
  edgeTable : FlatGraph.Fits l.total l.edgeTable edges (Record.width EdgeRecord)
  weights : FitsWanted l.total l.weights o.weightedEdges (edges * Record.width UInt64)
  payload : FlatGraph.Fits l.total l.payload length 1
  offsetIndex : FitsWanted l.total l.offsetIndex o.offsetIndex (nodes * Record.width UInt64)
  idIndex : FitsWanted l.total l.idIndex (!dense) (nodes * Record.width IdEntry)
  statistics : FitsWanted l.total l.statistics o.statistics (1 * Record.width Statistics)

theorem roomy_plan (o : Options) (dense : Bool) (nodes edges length : Nat) :
    Roomy (plan o dense nodes edges length) o dense nodes edges length := by
  set l := plan o dense nodes edges length with hl
  have hnodes : l.nodeTable = preambleSize := rfl
  have hedges : l.edgeTable = preambleSize + nodes * Record.width NodeRecord := rfl
  have hpayload : l.payload = if o.weightedEdges then
      l.edgeTable + edges * Record.width EdgeRecord + edges * Record.width UInt64
    else l.edgeTable + edges * Record.width EdgeRecord := rfl
  have hweights : l.weights = if o.weightedEdges then
      some (l.edgeTable + edges * Record.width EdgeRecord) else none := rfl
  have hcursor : afterPayloads o dense nodes edges length = l.payload + length := rfl
  have h₁ : afterPayloads o dense nodes edges length ≤
      afterOffsetIndex o dense nodes edges length := le_place _ _ _
  have h₂ : afterOffsetIndex o dense nodes edges length ≤ afterIdIndex o dense nodes edges length :=
    le_place _ _ _
  have h₃ : afterIdIndex o dense nodes edges length ≤ afterStatistics o dense nodes edges length :=
    le_place _ _ _
  have htotal : afterStatistics o dense nodes edges length ≤ l.total := by
    rw [hl, plan_total]
    exact le_align _
  have hfront : preambleSize ≤ l.edgeTable ∧
      l.edgeTable + edges * Record.width EdgeRecord ≤ l.payload := by
    rw [hpayload]
    split_ifs <;> omega
  have hoffsetIndex : FitsWanted l.total l.offsetIndex o.offsetIndex
      (nodes * Record.width UInt64) := by
    rw [hl, plan_offsetIndex]
    exact place_fits (by omega) (h₂.trans (h₃.trans htotal))
  have hidIndex : FitsWanted l.total l.idIndex (!dense) (nodes * Record.width IdEntry) := by
    rw [hl, plan_idIndex]
    exact place_fits (by omega) (h₃.trans htotal)
  have hstatistics : FitsWanted l.total l.statistics o.statistics (Record.width Statistics) := by
    rw [hl, plan_statistics]
    exact place_fits (by omega) htotal
  constructor
  case nodeTable => exact ⟨Nat.le_of_eq hnodes.symm, by omega⟩
  case edgeTable => exact ⟨hfront.1, by omega⟩
  case weights =>
    constructor
    case isSome =>
      rw [hweights]
      cases o.weightedEdges <;> rfl
    case within =>
      intro i hi
      rw [hweights] at hi
      split_ifs at hi with hw
      cases hi
      rw [if_pos hw] at hpayload
      exact ⟨by omega, by omega⟩
  case payload => exact ⟨by omega, by omega⟩
  case offsetIndex => exact hoffsetIndex
  case idIndex => exact hidIndex
  case statistics =>
    rw [Nat.one_mul]
    exact hstatistics

/-! ### No more room than needed -/

theorem place_le (cursor : Nat) (wanted : Bool) (length : Nat) :
    (place cursor wanted length).2 ≤ cursor + length + 7 := by
  have := align_lt cursor
  cases wanted with
  | false =>
    show cursor ≤ cursor + length + 7
    omega
  | true =>
    show align cursor + length ≤ cursor + length + 7
    omega

/-- **The size of the file** is what its sections take, but for the bytes that align them. -/
theorem total_plan_le (o : Options) (dense : Bool) (nodes edges length : Nat) :
    (plan o dense nodes edges length).total ≤ preambleSize + nodes * 48 + edges * 32 + length +
      (Record.width Statistics + 28) := by
  have hpayload : (plan o dense nodes edges length).payload ≤
      preambleSize + nodes * 24 + edges * 32 := by
    show (if o.weightedEdges then preambleSize + nodes * 24 + edges * 24 + edges * 8
      else preambleSize + nodes * 24 + edges * 24) ≤ _
    split_ifs <;> omega
  have hcursor : afterPayloads o dense nodes edges length =
      (plan o dense nodes edges length).payload + length := rfl
  have h₁ : afterOffsetIndex o dense nodes edges length ≤
      afterPayloads o dense nodes edges length + nodes * 8 + 7 := place_le _ _ _
  have h₂ : afterIdIndex o dense nodes edges length ≤
      afterOffsetIndex o dense nodes edges length + nodes * 16 + 7 := place_le _ _ _
  have h₃ : afterStatistics o dense nodes edges length ≤
      afterIdIndex o dense nodes edges length + Record.width Statistics + 7 := place_le _ _ _
  have h₄ := align_lt (afterStatistics o dense nodes edges length)
  rw [plan_total]
  omega

end Layout

/-! ### Stored offsets -/

theorem toNat_rawOffset {i : Nat} (h : i < sizeBound) : (rawOffset (some i)).toNat = i :=
  toNat_offset h

theorem rawOffset_ne_zero {total length i : Nat} {wanted : Bool}
    (h : Layout.FitsWanted total (some i) wanted length) (ht : total < sizeBound) :
    rawOffset (some i) ≠ 0 := by
  obtain ⟨hfront, hback⟩ := h.within i rfl
  have hto := toNat_rawOffset (show i < sizeBound by omega)
  intro heq
  rw [heq] at hto
  have hpos : 0 < preambleSize := by decide
  have hzero : i = 0 := hto.symm
  omega

theorem Layout.FitsWanted.fitsIf {total count width : Nat} {offset : Option Nat} {wanted : Bool}
    (h : FitsWanted total offset wanted (count * width)) (ht : total < sizeBound) :
    FitsIf total wanted (rawOffset offset) count width := by
  have hwanted := h.isSome
  subst hwanted
  cases offset with
  | none => exact ⟨by simp [rawOffset], fun hne => absurd rfl hne⟩
  | some i =>
    obtain ⟨hfront, hback⟩ := h.within i rfl
    have hne := rawOffset_ne_zero h ht
    refine ⟨by simp [hne], fun _ => ?_⟩
    rw [toNat_rawOffset (by omega)]
    exact ⟨hfront, hback⟩

/-! ### Flags -/

/-- The flags of a written file tell which optional sections it has. -/
theorem Header.hasFlag_written {h : Header} {o : Options} {dense : Bool}
    (hf : h.flags = o.flags ||| flagIf (!dense) Flag.sparseIds) :
    h.flags &&& ~~~Flag.known = 0 ∧ h.hasFlag Flag.offsetIndex = o.offsetIndex ∧
      h.hasFlag Flag.weightedEdges = o.weightedEdges ∧
      h.hasFlag Flag.statistics = o.statistics ∧ h.hasFlag Flag.sparseIds = !dense := by
  unfold hasFlag
  rw [hf]
  clear hf
  obtain ⟨offsetIndex, weightedEdges, compress, statistics⟩ := o
  revert offsetIndex weightedEdges compress statistics dense
  decide

end FlatGraph
