import FlatGraph.Proofs.Image.Lookup
import FlatGraph.Proofs.Search.Components
import FlatGraph.Proofs.Search.Tree
import FlatGraph.Proofs.Written.Rewrite
import FlatGraph.Session.Run

/-! # What calls by pointer answer

A question about an open graph that has an answer gets it, and a question that has none gets the
sentinel and a message. No answer is the sentinel, since an accepted file has too few nodes and
edges for that. A buffer is filled at its front and only by a question that has an answer: the
identifiers of a path are all found, so no path is put into the buffer in part.

* `Query.Answers`: which numbers and buffers answer a question.
* `Image.Identifies.putIds`: the path that is put in slot by slot is the whole path.
* `Query.Decided`: an answer, or a complaint for want of one, with a lemma for each question.
* `Image.decided`: every question about an accepted file is decided. -/

namespace FlatGraph

/-! ### What is asked for -/

/-- The node at a position carries the identifier. -/
def Image.Names (image : Image) (id : UInt64) (position : Nat) : Prop :=
  ∃ hp : position < image.nodes.size, image.nodes[position].id = id

/-- The identifiers of the nodes at some positions. -/
def Image.Identifies (image : Image) (positions : List Nat) (ids : List UInt64) : Prop :=
  List.Forall₂ (fun p id => image.Names id p) positions ids

/-- The slots `after` hold the values in front, as many as there are slots, and are those `before`
behind them. -/
def Filled (before values after : List UInt64) : Prop :=
  after.length = before.length ∧
    ∀ i < before.length, after[i]? = if i < values.length then values[i]? else before[i]?

/-- **What answers a question** about an image: a number, and the slots of the buffer as they are
left. The two numbers of components are those of the undirected graph, and those of the nodes that
no node before them reaches. -/
inductive Query.Answers (image : Image) : Query → Nat → Option (List UInt64) → Prop
  | degree {id : UInt64} {p : Nat} (named : image.Names id p) :
    Answers image (.degree id) (image.edgesFrom p).length none
  | neighbors {id : UInt64} {p : Nat} {node : NodeRecord} {ids slots after : List UInt64}
    (named : image.Names id p) (found : image.nodes[p]? = some node)
    (targets : image.Identifies
      ((chainEdges image.edges node.first.toNat).map fun e => e.target.toNat) ids)
    (filled : Filled slots ids after) :
    Answers image (.neighbors id (.slots slots)) (image.edgesFrom p).length (some after)
  | noNeighbors {id : UInt64} {p : Nat} (named : image.Names id p) :
    Answers image (.neighbors id (.null 0)) (image.edgesFrom p).length none
  | reachCount {id : UInt64} {p : Nat} (named : image.Names id p) (reach : Finset Nat)
    (reached : ∀ v, v ∈ reach ↔ image.Reaches p v) :
    Answers image (.reachCount id) reach.card none
  | path {source target : UInt64} {p q : Nat} {path : Path} {ids slots after : List UInt64}
    (source_named : image.Names source p) (target_named : image.Names target q)
    (shortest : path.Shortest image.adjacency p q) (nodes : image.Identifies path.nodes ids)
    (room : path.nodes.length ≤ slots.length) (filled : Filled slots ids after) :
    Answers image (.shortestPath source target (.slots slots)) path.nodes.length (some after)
  | noPath {source target : UInt64} {p q : Nat} {slots : List UInt64}
    (source_named : image.Names source p) (target_named : image.Names target q)
    (apart : ¬ image.Reaches p q) :
    Answers image (.shortestPath source target (.slots slots)) 0 (some slots)
  | weakComponents :
    Answers image (.componentCount 0) (Nat.card image.undirected.ConnectedComponent) none
  | sweeps {roots : Finset Nat}
    (first : ∀ p, p ∈ roots ↔ p < image.nodes.size ∧ ∀ q < p, ¬ image.Reaches q p) :
    Answers image (.componentCount 1) roots.card none

/-- **A question about an image is decided**: an answer is given that is no sentinel, or there is
none, and then a complaint is made and the buffer is as it was. -/
def Query.Decided (image : Image) (q : Query) : Prop :=
  (∃ n after, q.answer (some image) = (.ok n, after) ∧ n < q.sentinel ∧
    q.Answers image n after) ∨
  ∃ complaint, q.answer (some image) = (.error complaint, q.buffer) ∧
    ∀ n after, ¬ q.Answers image n after

/-! ### Buffers -/

theorem filled_fill (before values : List UInt64) :
    Filled before values (Foreign.fill before values) := by
  have hlength : (Foreign.fill before values).length = before.length := by
    simp only [Foreign.fill, List.length_append, List.length_take, List.length_drop]
    omega
  refine ⟨hlength, fun i hi => ?_⟩
  unfold Foreign.fill
  split_ifs with hv
  · rw [List.getElem?_append_left (by rw [List.length_take]; omega), List.getElem?_take_of_lt hi]
  · have htake : (values.take before.length).length = values.length := by
      rw [List.length_take]
      omega
    rw [List.getElem?_append_right (by omega), htake, List.getElem?_drop]
    congr 1
    omega

namespace Image

variable {image : Image}

/-- Positions of nodes are put into the buffer as their identifiers: none is missing. -/
theorem Identifies.putIds {positions : List Nat} {ids : List UInt64}
    (h : image.Identifies positions ids) (slots : List UInt64) :
    Foreign.putIds image slots positions = (.ok (), Foreign.fill slots ids) := by
  unfold Identifies at h
  induction h generalizing slots with
  | nil => cases slots <;> rfl
  | @cons p id positions ids named _ ih =>
    cases slots with
    | nil => rfl
    | cons slot slots =>
      unfold Foreign.putIds
      rw [idOf_eq_ok_iff.mpr named]
      dsimp only
      rw [ih slots]
      rfl

theorem exists_identifies {positions : List Nat} (h : ∀ p ∈ positions, p < image.nodes.size) :
    ∃ ids, positions.mapM image.idOf = .ok ids ∧ image.Identifies positions ids := by
  have hid : ∀ p ∈ positions, ∃ id, image.idOf p = .ok id :=
    fun p hp => ⟨_, idOf_eq_ok_iff.mpr ⟨h p hp, rfl⟩⟩
  obtain ⟨ids, hmapM, hids⟩ := exists_mapM hid
  exact ⟨ids, hmapM, hids.imp fun p id hp => idOf_eq_ok_iff.mp hp⟩

theorem identifies_targetIds {edges : List EdgeRecord}
    (h : ∀ e ∈ edges, e.target.toNat < image.nodes.size) :
    image.Identifies (edges.map fun e => e.target.toNat) (image.targetIds edges) := by
  induction edges with
  | nil => exact .nil
  | cons e rest ih =>
    have he := h e List.mem_cons_self
    rw [targetIds, Array.getElem?_eq_getElem he]
    exact .cons ⟨he, rfl⟩ (ih fun f hf => h f (List.mem_cons_of_mem e hf))

/-! ### Identifiers -/

namespace Sound

variable (hs : image.Sound) {id : UInt64} {p q : Nat}
include hs

theorem positionOf_of_names (h : image.Names id p) : image.positionOf id = .ok p :=
  hs.positionOf_eq_ok_iff.mpr h

theorem names_unique (hp : image.Names id p) (hq : image.Names id q) : p = q := by
  have hfound := hs.positionOf_of_names hp
  rw [hs.positionOf_of_names hq] at hfound
  exact (Except.ok.inj hfound).symm

theorem names_cases (id : UInt64) : (∃ p, image.Names id p) ∨
    (∀ p, ¬ image.Names id p) ∧ ∃ fault, image.positionOf id = .error fault := by
  by_cases hfound : ∃ p, image.Names id p
  · exact Or.inl hfound
  · push Not at hfound
    exact Or.inr ⟨hfound, _, hs.positionOf_of_absent fun p hp hid => hfound p ⟨hp, hid⟩⟩

end Sound

/-! ### Degrees and neighbors -/

theorem answer_neighbors (image : Image) (id : UInt64) {buffer : Buffer}
    (hbuffer : ¬ (buffer.slots?.isNone ∧ 0 < buffer.capacity)) :
    (Query.neighbors id buffer).answer (some image) =
      match image.neighbors id with
      | .error fault => (.error (.fault fault), buffer.slots?)
      | .ok ids => (.ok ids.length, buffer.slots?.map fun slots => Foreign.fill slots ids) := by
  show Foreign.writeNeighbors (some image) id buffer = _
  have hneighbors : Foreign.neighbors (some image) id buffer =
      Foreign.lift (image.neighbors id) >>= fun ids =>
        .ok (ids.length, buffer.slots?.map fun slots => Foreign.fill slots ids) := if_neg hbuffer
  unfold Foreign.writeNeighbors
  rw [hneighbors]
  cases image.neighbors id <;> rfl

theorem answer_neighbors_null (image : Image) (id : UInt64) {capacity : Nat} (hpos : 0 < capacity) :
    (Query.neighbors id (.null capacity)).answer (some image) = (.error .nullBuffer, none) := by
  show Foreign.writeNeighbors (some image) id (.null capacity) = _
  have hneighbors : Foreign.neighbors (some image) id (.null capacity) = .error .nullBuffer :=
    if_pos ⟨rfl, hpos⟩
  unfold Foreign.writeNeighbors
  rw [hneighbors]
  rfl

section

variable {b : ByteArray} (h : parse b = .ok image)
include h

theorem length_edgesFrom_lt (p : Nat) : (image.edgesFrom p).length < Foreign.sentinel32 := by
  have hle : (image.edgesFrom p).length ≤ image.edges.size :=
    (List.length_filter_le _ _).trans_eq Array.length_toList
  have hsize := (size_le_of_parse h).2
  unfold maxElements at hsize
  unfold Foreign.sentinel32
  omega

theorem decided_degree (id : UInt64) : (Query.degree id).Decided image := by
  have hs := Sound.of_parse h
  rcases hs.names_cases id with ⟨p, hp, rfl⟩ | ⟨hnone, fault, hfault⟩
  · have hanswer : (Query.degree image.nodes[p].id).answer (some image) =
        (.ok (image.edgesFrom p).length, none) := by
      show (Foreign.lift (image.degree image.nodes[p].id), none) = _
      rw [hs.degree_eq hp]
      rfl
    exact Or.inl ⟨_, _, hanswer, length_edgesFrom_lt h p, .degree ⟨hp, rfl⟩⟩
  · have hanswer : (Query.degree id).answer (some image) = (.error (.fault fault), none) := by
      show (Foreign.lift (image.positionOf id >>= image.outDegree), none) = _
      rw [hfault]
      rfl
    refine Or.inr ⟨_, hanswer, fun n after hanswers => ?_⟩
    cases hanswers with
    | degree named => exact hnone _ named

theorem answers_neighbors {p : Nat} (hp : p < image.nodes.size) {buffer : Buffer}
    (hbuffer : ¬ (buffer.slots?.isNone ∧ 0 < buffer.capacity)) :
    (Query.neighbors image.nodes[p].id buffer).Answers image (image.edgesFrom p).length
      (buffer.slots?.map fun slots =>
        Foreign.fill slots (image.targetIds (image.edgesFrom p))) := by
  have hs := Sound.of_parse h
  cases buffer with
  | null capacity =>
    obtain rfl : capacity = 0 := by simpa [Buffer.slots?, Buffer.capacity] using hbuffer
    exact .noNeighbors ⟨hp, rfl⟩
  | slots ids =>
    have hids := identifies_targetIds fun e (he : e ∈ image.edgesFrom p) => hs.target_lt he
    have hchain := hs.chainEdges_first hp
    refine .neighbors ⟨hp, rfl⟩ (Array.getElem?_eq_getElem hp) ?_ (filled_fill ids _)
    rw [hchain]
    exact hids

theorem decided_neighbors (id : UInt64) (buffer : Buffer) :
    (Query.neighbors id buffer).Decided image := by
  have hs := Sound.of_parse h
  by_cases hbuffer : buffer.slots?.isNone ∧ 0 < buffer.capacity
  · obtain ⟨hnull, hpos⟩ := hbuffer
    cases buffer with
    | slots => cases hnull
    | null capacity =>
      refine Or.inr ⟨_, answer_neighbors_null image id hpos, fun n after hanswers => ?_⟩
      cases hanswers with
      | noNeighbors => exact absurd hpos (Nat.lt_irrefl 0)
  · have hanswer := answer_neighbors image id hbuffer
    rcases hs.names_cases id with ⟨p, hp, rfl⟩ | ⟨hnone, fault, hfault⟩
    · have htargets : ∀ e ∈ image.edgesFrom p, e.target.toNat < image.nodes.size :=
        fun e he => hs.target_lt he
      rw [hs.neighbors_eq hp] at hanswer
      dsimp only at hanswer
      rw [length_targetIds htargets] at hanswer
      have hlt : (image.edgesFrom p).length < Foreign.sentinel64 :=
        (length_edgesFrom_lt h p).trans (by decide)
      exact Or.inl ⟨_, _, hanswer, hlt, answers_neighbors h hp hbuffer⟩
    · have hneighbors : image.neighbors id = .error fault := by
        unfold neighbors
        rw [hfault]
        rfl
      rw [hneighbors] at hanswer
      refine Or.inr ⟨_, hanswer, fun n after hanswers => ?_⟩
      cases hanswers with
      | neighbors named => exact hnone _ named
      | noNeighbors named => exact hnone _ named

theorem size_nodes_lt : image.nodes.size < Foreign.sentinel32 := by
  have hsize := (size_le_of_parse h).1
  unfold maxElements at hsize
  unfold Foreign.sentinel32
  omega

/-! ### Searches -/

theorem decided_reachCount (id : UInt64) : (Query.reachCount id).Decided image := by
  have hs := Sound.of_parse h
  rcases hs.names_cases id with ⟨p, hp, rfl⟩ | ⟨hnone, fault, hfault⟩
  · obtain ⟨r, reach, hbreadth, hreach, hcard⟩ := hs.exists_reach hp false
    have hanswer : (Query.reachCount image.nodes[p].id).answer (some image) =
        (.ok reach.card, none) := by
      show (Foreign.lift (image.positionOf image.nodes[p].id >>= fun start =>
        image.adjacency.breadthFirst start false >>= fun r => .ok r.reached), none) = _
      rw [hs.positionOf_id hp]
      show (Foreign.lift (image.adjacency.breadthFirst p false >>= fun r => .ok r.reached),
        none) = _
      rw [hbreadth, ← hcard]
      rfl
    have hinside : reach ⊆ Finset.range image.nodes.size := by
      intro v hv
      obtain ⟨k, hk⟩ := hs.reaches_iff.mp ((hreach v).mp hv)
      exact Finset.mem_range.mpr (hk.lt_count hs.closed hp)
    have hle : reach.card ≤ image.nodes.size :=
      (Finset.card_le_card hinside).trans_eq (Finset.card_range _)
    have hlt : reach.card < Foreign.sentinel64 :=
      (hle.trans_lt (size_nodes_lt h)).trans (by decide)
    exact Or.inl ⟨_, _, hanswer, hlt, .reachCount ⟨hp, rfl⟩ reach hreach⟩
  · have hanswer : (Query.reachCount id).answer (some image) = (.error (.fault fault), none) := by
      show (Foreign.lift (image.positionOf id >>= fun start =>
        image.adjacency.breadthFirst start false >>= fun r => .ok r.reached), none) = _
      rw [hfault]
      rfl
    refine Or.inr ⟨_, hanswer, fun n after hanswers => ?_⟩
    cases hanswers with
    | reachCount named => exact hnone _ named

/-- **What is found for two identifiers** if both of them name nodes: a shortest path, whose nodes
all have identifiers, or that edges do not lead from the one to the other. -/
theorem findPath_cases (source target : UInt64) :
    (∃ fault, Foreign.findPath image source target = .error fault ∧
      ((∀ p, ¬ image.Names source p) ∨ ∀ p, ¬ image.Names target p)) ∨
    ∃ p q, image.Names source p ∧ image.Names target q ∧
      ((∃ path ids, Foreign.findPath image source target = .ok (some path) ∧
        path.Shortest image.adjacency p q ∧ path.nodes.mapM image.idOf = .ok ids ∧
        image.Identifies path.nodes ids) ∨
      Foreign.findPath image source target = .ok none ∧ ¬ image.Reaches p q) := by
  have hs := Sound.of_parse h
  rcases hs.names_cases source with ⟨p, hp⟩ | ⟨hnone, fault, hfault⟩
  · have hsource : Foreign.findPath image source target =
        image.positionOf target >>= fun q => image.adjacency.shortestPath p q := by
      unfold Foreign.findPath
      rw [hs.positionOf_of_names hp]
      rfl
    rcases hs.names_cases target with ⟨q, hq⟩ | ⟨hnone, fault, hfault⟩
    · have hfound : Foreign.findPath image source target = image.adjacency.shortestPath p q := by
        rw [hsource, hs.positionOf_of_names hq]
        rfl
      have hclosed := hs.closed
      have hpos : p < image.adjacency.count := hp.choose
      rw [hfound]
      refine Or.inr ⟨p, q, hp, hq, ?_⟩
      rcases Adjacency.shortestPath_cases hclosed hpos hq.choose with
        ⟨path, hpath, hshortest⟩ | ⟨hnopath, hnone⟩
      · obtain ⟨ids, hmapM, hids⟩ := exists_identifies (hshortest.lt_count hclosed hpos)
        exact Or.inl ⟨path, ids, hpath, hshortest, hmapM, hids⟩
      · refine Or.inr ⟨hnopath, fun hreaches => ?_⟩
        obtain ⟨k, hk⟩ := hs.reaches_iff.mp hreaches
        exact hnone k hk
    · exact Or.inl ⟨fault, by rw [hsource, hfault]; rfl, Or.inr hnone⟩
  · refine Or.inl ⟨fault, ?_, Or.inl hnone⟩
    unfold Foreign.findPath
    rw [hfault]
    rfl

theorem decided_path (source target : UInt64) (buffer : Buffer) :
    (Query.shortestPath source target buffer).Decided image := by
  have hs := Sound.of_parse h
  cases buffer with
  | null capacity => exact Or.inr ⟨.nullBuffer, rfl, fun n after hanswers => by cases hanswers⟩
  | slots slots =>
    have hanswer : (Query.shortestPath source target (.slots slots)).answer (some image) =
        Foreign.writePath (some image) source target (.slots slots) := rfl
    unfold Foreign.writePath at hanswer
    dsimp only [Foreign.deref] at hanswer
    rcases findPath_cases h source target with ⟨fault, hfound, hnone⟩ |
      ⟨p, q, hp, hq, ⟨path, ids, hfound, hshortest, -, hids⟩ | ⟨hfound, hapart⟩⟩
    · rw [hfound] at hanswer
      refine Or.inr ⟨_, hanswer, fun n after hanswers => ?_⟩
      have hnamed : ∃ p q, image.Names source p ∧ image.Names target q := by
        cases hanswers with
        | path source_named target_named => exact ⟨_, _, source_named, target_named⟩
        | noPath source_named target_named => exact ⟨_, _, source_named, target_named⟩
      obtain ⟨p, q, hp, hq⟩ := hnamed
      rcases hnone with hnone | hnone
      · exact hnone p hp
      · exact hnone q hq
    · rw [hfound] at hanswer
      dsimp only at hanswer
      split_ifs at hanswer with hroom
      · -- the buffer is too small for this path, so it is for every shortest path
        refine Or.inr ⟨_, hanswer, fun n after hanswers => ?_⟩
        cases hanswers with
        | path source_named target_named shortest _ room =>
          obtain rfl := hs.names_unique source_named hp
          obtain rfl := hs.names_unique target_named hq
          have hlength := shortest.length_eq hshortest
          omega
        | noPath source_named target_named apart =>
          obtain rfl := hs.names_unique source_named hp
          obtain rfl := hs.names_unique target_named hq
          exact apart (hs.reaches_iff.mpr ⟨_, hshortest.hop⟩)
      · rw [hids.putIds slots] at hanswer
        have hle : path.nodes.length ≤ image.nodes.size :=
          hshortest.length_le_count hs.closed hp.choose
        have hlt : path.nodes.length < Foreign.sentinel64 :=
          (hle.trans_lt (size_nodes_lt h)).trans (by decide)
        exact Or.inl ⟨_, _, hanswer, hlt,
          .path hp hq hshortest hids (Nat.le_of_not_lt hroom) (filled_fill slots ids)⟩
    · rw [hfound] at hanswer
      have hlt : 0 < Foreign.sentinel64 := by decide
      exact Or.inl ⟨0, _, hanswer, hlt, .noPath hp hq hapart⟩

/-! ### Components -/

theorem decided_componentCount (number : Int) : (Query.componentCount number).Decided image := by
  have hs := Sound.of_parse h
  have hsize := size_nodes_lt h
  obtain ⟨roots, hroots, hsweeps⟩ :=
    (SweepState.Swept.initial image.adjacency).sweepsFrom hs.closed
  rw [hs.adjacency_reaches] at hroots
  obtain ⟨hweak, hcount⟩ := hs.card_components hroots
  by_cases hzero : number = 0
  · subst hzero
    have hanswer : (Query.componentCount 0).answer (some image) =
        (.ok (Nat.card image.undirected.ConnectedComponent), none) := by
      show (Foreign.lift (image.componentCount .weak), none) = _
      rw [componentCount_weak_eq]
      rfl
    exact Or.inl ⟨_, _, hanswer, (hweak.trans hcount).trans_lt hsize, .weakComponents⟩
  by_cases hone : number = 1
  · subst hone
    have hanswer : (Query.componentCount 1).answer (some image) = (.ok roots.card, none) := by
      show (Foreign.lift image.adjacency.sweeps, none) = _
      have hcounted : image.adjacency.sweeps = .ok roots.card := hsweeps
      rw [hcounted]
      rfl
    exact Or.inl ⟨_, _, hanswer, hcount.trans_lt hsize, .sweeps hroots⟩
  have hanswer : (Query.componentCount number).answer (some image) =
      (.error (.unknownMode number), none) := by
    show (Foreign.mode number >>= fun mode => Foreign.lift (image.componentCount mode), none) = _
    unfold Foreign.mode
    rw [if_neg hzero, if_neg hone]
    rfl
  refine Or.inr ⟨_, hanswer, fun n after hanswers => ?_⟩
  cases hanswers with
  | weakComponents => exact hzero rfl
  | sweeps => exact hone rfl

/-- **Every question about an accepted file is decided**, but for its counts of nodes and edges. -/
theorem decided {q : Query} (hq : q ≠ .nodeCount ∧ q ≠ .edgeCount) : q.Decided image := by
  cases q with
  | nodeCount => exact absurd rfl hq.1
  | edgeCount => exact absurd rfl hq.2
  | degree id => exact decided_degree h id
  | neighbors id buffer => exact decided_neighbors h id buffer
  | reachCount id => exact decided_reachCount h id
  | shortestPath source target buffer => exact decided_path h source target buffer
  | componentCount number => exact decided_componentCount h number

/-- Zero answers that there is no path, since a path has a node. -/
theorem zero_iff_of_answers {source target : UInt64} {buffer : Buffer}
    {after : Option (List UInt64)} {n : Nat}
    (hanswers : (Query.shortestPath source target buffer).Answers image n after) :
    n = 0 ↔ ∃ p q, image.Names source p ∧ image.Names target q ∧ ¬ image.Reaches p q := by
  have hs := Sound.of_parse h
  cases hanswers with
  | path source_named target_named shortest =>
    refine iff_of_false (by rw [shortest.length_eq_succ]; omega) ?_
    rintro ⟨p, q, hp, hq, hapart⟩
    obtain rfl := hs.names_unique source_named hp
    obtain rfl := hs.names_unique target_named hq
    exact hapart (hs.reaches_iff.mpr ⟨_, shortest.hop⟩)
  | noPath source_named target_named apart =>
    exact iff_of_true rfl ⟨_, _, source_named, target_named, apart⟩

end

end Image

end FlatGraph
