import FlatGraph.Proofs.Image.Threading

/-! # Walks over any table of edges

A walk is made step by step: it keeps the link that it follows next, and a step yields the edge
there and keeps the link of that edge. A link that does not lead forwards is replaced by the
sentinel only when its edge is yielded, and a link past the table is found only by the step after
it. So every walk ends, in any table, even one whose links lead backwards or around.

* `follow`: one step of a walk; `Yields`: all its steps up to the first that yields nothing.
* `yields_iff`: they yield the edges of the chain, and nothing else.
* `Ascends`: a walk ascends along the links, as far as they lead forwards into the table. -/

namespace FlatGraph

/-- **One step of a walk**: the edge at the cursor and the next cursor. There is none at the
sentinel and past the table, where the cursor stays. -/
def follow (edges : Array EdgeRecord) (cursor : UInt32) : Option (EdgeRecord × UInt32) :=
  if cursor = noEdge then none
  else
    match edges[cursor.toNat]? with
    | none => none
    | some edge =>
      some (edge, if edge.next = noEdge ∨ cursor < edge.next then edge.next else noEdge)

/-- **The steps from a cursor on** yield edges of certain numbers, and end. -/
inductive Yields (edges : Array EdgeRecord) : UInt32 → List Nat → List EdgeRecord → Prop
  | done {cursor : UInt32} (h : follow edges cursor = none) : Yields edges cursor [] []
  | edge {cursor next : UInt32} {edge : EdgeRecord} {walk : List Nat} {rest : List EdgeRecord}
      (h : follow edges cursor = some (edge, next)) (hrest : Yields edges next walk rest) :
      Yields edges cursor (cursor.toNat :: walk) (edge :: rest)

/-- A link leads nowhere from edge `i`: it is absent, leads back or to the edge itself, or past the
table. -/
def LeadsNowhere (edges : Array EdgeRecord) (i : Nat) (link : UInt32) : Prop :=
  link = noEdge ∨ link.toNat ≤ i ∨ edges.size ≤ link.toNat

instance (edges : Array EdgeRecord) (i : Nat) (link : UInt32) :
    Decidable (LeadsNowhere edges i link) := by
  unfold LeadsNowhere
  infer_instance

/-- **A walk ascends along the links.** It starts where the first link leads, and goes on behind
every edge exactly if the link of the edge leads somewhere. -/
structure Ascends (edges : Array EdgeRecord) (first : UInt32) (walk : List Nat) : Prop where
  head : walk[0]? =
    if first = noEdge ∨ edges.size ≤ first.toNat then none else some first.toNat
  next : ∀ k i, walk[k]? = some i → ∃ hi : i < edges.size,
    walk[k + 1]? =
      if LeadsNowhere edges i edges[i].next then none else some edges[i].next.toNat
  ascending : walk.Pairwise (· < ·)
  length_le : walk.length ≤ edges.size

variable {edges : Array EdgeRecord}

/-! ### Steps -/

theorem follow_eq_none_iff {cursor : UInt32} :
    follow edges cursor = none ↔ cursor = noEdge ∨ edges.size ≤ cursor.toNat := by
  unfold follow
  split_ifs with hc
  · simp [hc]
  · rcases Nat.lt_or_ge cursor.toNat edges.size with hlt | hge
    · simp [hc, Nat.not_le.mpr hlt, Array.getElem?_eq_getElem hlt]
    · simp [hge]

theorem follow_of_lt {cursor : UInt32} (hc : cursor ≠ noEdge) (h : cursor.toNat < edges.size) :
    follow edges cursor = some (edges[cursor.toNat],
      if cursor < edges[cursor.toNat].next then edges[cursor.toNat].next else noEdge) := by
  unfold follow
  rw [if_neg hc, Array.getElem?_eq_getElem h]
  by_cases hnext : edges[cursor.toNat].next = noEdge
  · simp [hnext]
  · simp [hnext]

/-! ### Chains -/

theorem chain_eq_nil_of {cursor : UInt32} (h : cursor = noEdge ∨ edges.size ≤ cursor.toNat) :
    chain edges cursor.toNat = [] := by
  rcases h with rfl | h
  · exact chain_noEdge edges
  · unfold chain
    rw [dif_neg (Nat.not_lt.mpr h), ite_self]

theorem inside_of_not {cursor : UInt32} (h : ¬ (cursor = noEdge ∨ edges.size ≤ cursor.toNat)) :
    cursor ≠ noEdge ∧ cursor.toNat < edges.size := by
  rwa [not_or, Nat.not_le] at h

theorem chain_of_follow {cursor : UInt32} (hc : cursor ≠ noEdge) (h : cursor.toNat < edges.size) :
    chain edges cursor.toNat = cursor.toNat :: chain edges
      (if cursor < edges[cursor.toNat].next then edges[cursor.toNat].next else noEdge).toNat := by
  have hne : cursor.toNat ≠ noEdge.toNat := mt UInt32.toNat_inj.mp hc
  rw [chain_of_lt hne h]
  simp only [UInt32.lt_iff_toNat_lt]
  split_ifs
  · rfl
  · rw [chain_noEdge]

/-- **Every walk ends**, with the edges of the chain. -/
theorem yields_chain (edges : Array EdgeRecord) (first : UInt32) :
    Yields edges first (chain edges first.toNat) (chainEdges edges first.toNat) := by
  -- on the number of edges from the cursor on, since a step leads forwards or ends the walk
  induction hn : edges.size - first.toNat using Nat.strong_induction_on generalizing first with
  | h n ih =>
    by_cases hend : first = noEdge ∨ edges.size ≤ first.toNat
    · rw [chainEdges, chain_eq_nil_of hend]
      exact .done (follow_eq_none_iff.mpr hend)
    · obtain ⟨hc, hlt⟩ := inside_of_not hend
      rw [chainEdges, chain_of_follow hc hlt,
        List.filterMap_cons_some (Array.getElem?_eq_getElem hlt)]
      refine .edge (follow_of_lt hc hlt) ?_
      split_ifs with hnext
      · have := UInt32.lt_iff_toNat_lt.mp hnext
        exact ih _ (by omega) _ rfl
      · rw [chain_noEdge]
        exact .done (follow_eq_none_iff.mpr (Or.inl rfl))

theorem Yields.unique {cursor : UInt32} {walk walk' : List Nat} {records records' : List EdgeRecord}
    (h : Yields edges cursor walk records) (h' : Yields edges cursor walk' records') :
    walk = walk' ∧ records = records' := by
  induction h generalizing walk' records' with
  | done hf =>
    cases h' with
    | done => exact ⟨rfl, rfl⟩
    | edge hf' _ => rw [hf] at hf'; cases hf'
  | edge hf _ ih =>
    cases h' with
    | done hf' => rw [hf] at hf'; cases hf'
    | edge hf' hrest' =>
      rw [hf] at hf'
      obtain ⟨rfl, rfl⟩ := Prod.mk.inj (Option.some.inj hf')
      obtain ⟨rfl, rfl⟩ := ih hrest'
      exact ⟨rfl, rfl⟩

theorem getElem?_of_follow {cursor next : UInt32} {edge : EdgeRecord}
    (h : follow edges cursor = some (edge, next)) : edges[cursor.toNat]? = some edge := by
  unfold follow at h
  split_ifs at h
  cases hedge : edges[cursor.toNat]? with
  | none => rw [hedge] at h; cases h
  | some record =>
    rw [hedge] at h
    exact congrArg some (Prod.mk.inj (Option.some.inj h)).1

theorem Yields.map_some {cursor : UInt32} {walk : List Nat} {records : List EdgeRecord}
    (h : Yields edges cursor walk records) : records.map some = walk.map fun i => edges[i]? := by
  induction h with
  | done => rfl
  | edge hf _ ih => rw [List.map_cons, List.map_cons, ih, getElem?_of_follow hf]

theorem yields_iff {first : UInt32} {walk : List Nat} {records : List EdgeRecord} :
    Yields edges first walk records ↔
      walk = chain edges first.toNat ∧ records = chainEdges edges first.toNat := by
  constructor
  · intro h
    exact h.unique (yields_chain edges first)
  · rintro ⟨rfl, rfl⟩
    exact yields_chain edges first

/-! ### The way of a walk -/

theorem getElem?_zero_chain (edges : Array EdgeRecord) (first : UInt32) :
    (chain edges first.toNat)[0]? =
      if first = noEdge ∨ edges.size ≤ first.toNat then none else some first.toNat := by
  split_ifs with hend
  · rw [chain_eq_nil_of hend]
    rfl
  · obtain ⟨hc, hlt⟩ := inside_of_not hend
    rw [chain_of_follow hc hlt]
    rfl

theorem length_chain_le (edges : Array EdgeRecord) (cursor : Nat) :
    (chain edges cursor).length ≤ edges.size := by
  have hsub : chain edges cursor ⊆ List.range edges.size := fun i hi =>
    List.mem_range.mpr (chain_lt hi)
  have hle := (List.subperm_of_subset (nodup_chain edges cursor) hsub).length_le
  rwa [List.length_range] at hle

theorem getElem?_succ_chain {first : UInt32} {k i : Nat}
    (h : (chain edges first.toNat)[k]? = some i) : ∃ hi : i < edges.size,
      (chain edges first.toNat)[k + 1]? =
        if LeadsNowhere edges i edges[i].next then none else some edges[i].next.toNat := by
  -- on the steps up to edge `i`
  induction k generalizing first with
  | zero =>
    rw [getElem?_zero_chain] at h
    split_ifs at h with hend
    obtain rfl := Option.some.inj h
    obtain ⟨hc, hlt⟩ := inside_of_not hend
    refine ⟨hlt, ?_⟩
    rw [chain_of_follow hc hlt, List.getElem?_cons_succ, getElem?_zero_chain]
    unfold LeadsNowhere
    by_cases hnext : first < edges[first.toNat].next
    · have hnot := Nat.not_le.mpr (UInt32.lt_iff_toNat_lt.mp hnext)
      simp only [hnext, hnot, if_true, false_or]
    · have hback := Nat.not_lt.mp (mt UInt32.lt_iff_toNat_lt.mpr hnext)
      simp [hnext, hback]
  | succ k ih =>
    by_cases hend : first = noEdge ∨ edges.size ≤ first.toNat
    · rw [chain_eq_nil_of hend] at h
      cases h
    · obtain ⟨hc, hlt⟩ := inside_of_not hend
      rw [chain_of_follow hc hlt, List.getElem?_cons_succ] at h
      rw [chain_of_follow hc hlt, List.getElem?_cons_succ]
      exact ih h

/-- **Walks end on any table**, whatever its links and wherever a walk starts: there is exactly one
way through its steps, with the edges of the chain. Their numbers ascend along the links, so no edge
is yielded twice, and the walk stops exactly at the first link that leads nowhere. -/
theorem walk_ends (edges : Array EdgeRecord) (first : UInt32) :
    (∀ walk records, Yields edges first walk records ↔
      walk = chain edges first.toNat ∧ records = chainEdges edges first.toNat) ∧
    (chainEdges edges first.toNat).map some =
      (chain edges first.toNat).map (fun i => edges[i]?) ∧
    Ascends edges first (chain edges first.toNat) := by
  have hascends : Ascends edges first (chain edges first.toNat) :=
    ⟨getElem?_zero_chain edges first, fun _ _ => getElem?_succ_chain, pairwise_chain edges _,
      length_chain_le edges _⟩
  exact ⟨fun _ _ => yields_iff, (yields_chain edges first).map_some, hascends⟩

/-- A link back is not followed. -/
example : chain #[⟨0, 1, 0, 1, noPayload⟩, ⟨0, 1, 0, 0, noPayload⟩] 0 = [0, 1] := by cbv

end FlatGraph
