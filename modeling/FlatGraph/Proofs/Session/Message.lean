import FlatGraph.Proofs.Session.Answers
import FlatGraph.Proofs.Written.Accepted

/-! # The message of the last call

A call that fails leaves its own message, and one that succeeds leaves none, whatever there was
before. Closing a graph is the exception: it cannot fail, and leaves the message as it is. So a
message outlives any number of closings.

* `Session.ask_of_accepted`: a question to an accepted graph leaves a message exactly if it is
  answered by its sentinel.
* `Session.lastError_perform`: the message after a call.
* `Session.lastError_of_run`: the message after a run that ends in a call and some closings. -/

namespace FlatGraph

namespace Session

variable {s : Session} {on : Option String} {q : Query} {buffer : Option (List UInt64)}

theorem ask_of_ok {n : Nat} (h : q.answer (s.pointer? on) = (.ok n, buffer)) :
    s.ask on q = (⟨n, buffer⟩, { s with lastError := none }) := by
  unfold ask
  rw [h]
  rfl

theorem ask_of_error {complaint : Complaint}
    (h : q.answer (s.pointer? on) = (.error complaint, buffer)) :
    s.ask on q = (⟨q.sentinel, buffer⟩,
      { s with lastError := some (spellNul complaint.message) }) := by
  unfold ask
  rw [h]
  rfl

theorem answer_null (hq : q ≠ .nodeCount ∧ q ≠ .edgeCount) :
    q.answer none = (.error .nullGraph, q.buffer) := by
  cases q with
  | nodeCount => exact absurd rfl hq.1
  | edgeCount => exact absurd rfl hq.2
  | degree | neighbors | reachCount | shortestPath | componentCount => rfl

/-- **A question to an open graph, or to a null pointer.** No answer is past the sentinel. Whatever
message there was before, there is one afterwards exactly if the sentinel is answered, and exactly
if nothing answers the question; the buffer is then as it was. Otherwise what is answered answers
the question, and for a path zero is answered exactly if edges do not lead there. -/
theorem ask_of_accepted (s : Session) (on : Option String) (q : Query)
    (h : ∀ image, s.pointer? on = some image → ∃ b, Image.parse b = .ok image)
    (hq : q ≠ .nodeCount ∧ q ≠ .edgeCount) :
    ∃ reply error, s.ask on q = (reply, { s with lastError := error }) ∧
      reply.value ≤ q.sentinel ∧ (error.isSome ↔ reply.value = q.sentinel) ∧
      (error.isSome ↔
        ∀ image, s.pointer? on = some image → ∀ n after, ¬ q.Answers image n after) ∧
      (error.isSome → reply.buffer = q.buffer) ∧
      (error = none →
        ∃ image, s.pointer? on = some image ∧ q.Answers image reply.value reply.buffer ∧
          (∀ u v, v ∈ image.adjacency.out u ↔ image.Link u v) ∧
          ∀ source target buffer, q = .shortestPath source target buffer →
            (reply.value = 0 ↔ ∃ p r, image.Names source p ∧ image.Names target r ∧
              ¬ image.Reaches p r)) := by
  cases hpointer : s.pointer? on with
  | none =>
    have hanswer := answer_null hq
    rw [← hpointer] at hanswer
    refine ⟨_, _, ask_of_error hanswer, le_rfl, iff_of_true rfl rfl, iff_of_true rfl ?_,
      fun _ => rfl, fun hnone => by cases hnone⟩
    rintro image himage
    cases himage
  | some image =>
    obtain ⟨b, hb⟩ := h image hpointer
    rcases Image.decided hb hq with ⟨n, after, hanswer, hlt, hanswers⟩ | ⟨complaint, hanswer, hnone⟩
    · rw [← hpointer] at hanswer
      have hvalue : n ≠ q.sentinel := Nat.ne_of_lt hlt
      refine ⟨_, _, ask_of_ok hanswer, Nat.le_of_lt hlt, iff_of_false Bool.false_ne_true hvalue,
        iff_of_false Bool.false_ne_true fun hno => hno image rfl n after hanswers,
        fun hsome => absurd hsome Bool.false_ne_true, fun _ => ⟨image, rfl, hanswers,
          fun u v => (Image.Sound.of_parse hb).mem_out_iff, ?_⟩⟩
      rintro source target buffer rfl
      exact Image.zero_iff_of_answers hb hanswers
    · rw [← hpointer] at hanswer
      refine ⟨_, _, ask_of_error hanswer, le_rfl, iff_of_true rfl rfl, iff_of_true rfl ?_,
        fun _ => rfl, fun hnone => by cases hnone⟩
      rintro image' himage'
      cases himage'
      exact hnone

theorem ask_of_accepted_sample : ∃ (s : Session) (image : Image),
    s.pointer? (some "g") = some image ∧
    (s.ask (some "g") (.degree 3)).1.value ≠ Foreign.sentinel32 ∧
    (s.ask (some "g") (.degree 1)).1.value = Foreign.sentinel32 := by
  obtain ⟨b, image, hb, hids⟩ := Graph.exists_parse_sample_ids
  let s : Session := { pointers := [("g", ⟨["g"], image⟩)] }
  have hpointer : s.pointer? (some "g") = some image := rfl
  have haccepted : ∀ i, s.pointer? (some "g") = some i → ∃ b, Image.parse b = .ok i := by
    rintro i hi
    rw [hpointer] at hi
    cases hi
    exact ⟨b, hb⟩
  have hsize : image.nodes.size = 2 := by simpa using congrArg Array.size hids
  have hone : 1 < image.nodes.size := by omega
  refine ⟨s, image, hpointer, ?_, ?_⟩
  · obtain ⟨reply, error, hask, -, hvalue, hnone, -⟩ :=
      ask_of_accepted s (some "g") (.degree 3) haccepted (by simp)
    have hnamed : image.Names 3 1 := ⟨hone, by
      have hat := Image.getElem?_ids hids hone
      exact (Option.some.inj hat).symm⟩
    rw [hask]
    intro hsentinel
    exact hnone.mp (hvalue.mpr hsentinel) image hpointer _ _ (.degree hnamed)
  · obtain ⟨reply, error, hask, -, hvalue, hnone, -⟩ :=
      ask_of_accepted s (some "g") (.degree 1) haccepted (by simp)
    rw [hask]
    refine hvalue.mp (hnone.mpr fun i hi n after hanswers => ?_)
    rw [hpointer] at hi
    cases hi
    cases hanswers with
    | degree named =>
      obtain ⟨hp, hid⟩ := named
      have hat := Image.getElem?_ids hids hp
      rw [hid] at hat
      have hmem := Array.mem_of_getElem? hat
      simp at hmem

/-! ### Calls in a row -/

/-- What a call complains of; nothing if it succeeds. -/
def complaint? (s : Session) : Call → Option Complaint
  | .openGraph path _ reading =>
    match Foreign.path path with
    | .error complaint => some complaint
    | .ok path =>
      match (s.store.openImage path reading).1 with
      | .error fault => some (.fault fault)
      | .ok _ => none
  | .closeGraph _ => none
  | .ask on q =>
    match (q.answer (s.pointer? on)).1 with
    | .error complaint => some complaint
    | .ok _ => none

end Session

/-- The call closes a graph. -/
def Call.closes : Call → Bool
  | .closeGraph _ => true
  | _ => false

/-- What the program sees if the call fails. -/
def Call.Fails : Call → Outcome → Prop
  | .openGraph .., outcome => outcome = .opened false
  | .closeGraph _, _ => False
  | .ask _ q, outcome => ∃ buffer, outcome = .replied ⟨q.sentinel, buffer⟩

namespace Session

/-- **The message after a call** is its own, or none if it succeeds; closing a graph leaves the
message as it is. -/
theorem lastError_perform (s : Session) (c : Call) : (s.perform c).2.lastError =
    if c.closes then s.lastError
    else (s.complaint? c).map fun complaint => spellNul complaint.message := by
  cases c with
  | openGraph path name reading =>
    show _ = (s.complaint? (.openGraph path name reading)).map _
    unfold perform openPointer complaint?
    dsimp only
    cases Foreign.path path with
    | error complaint => rfl
    | ok path =>
      dsimp only
      rcases s.store.openImage path reading with ⟨_ | handle, store⟩ <;> rfl
  | closeGraph name => cases name <;> rfl
  | ask on q =>
    show _ = (s.complaint? (.ask on q)).map _
    cases hanswer : q.answer (s.pointer? on) with
    | mk answer buffer =>
      unfold perform complaint?
      dsimp only
      cases answer with
      | error complaint => rw [ask_of_error hanswer, hanswer]; rfl
      | ok n => rw [ask_of_ok hanswer, hanswer]; rfl

theorem fails_of_complaint {s : Session} {c : Call} (h : (s.complaint? c).isSome) :
    c.Fails (s.perform c).1 := by
  cases c with
  | openGraph path name reading =>
    unfold complaint? at h
    unfold perform openPointer
    dsimp only at h ⊢
    cases hpath : Foreign.path path with
    | error complaint => rfl
    | ok path =>
      rw [hpath] at h
      dsimp only at h ⊢
      cases hopen : s.store.openImage path reading with
      | mk answer store =>
        rw [hopen] at h
        cases answer with
        | error fault => rfl
        | ok handle => exact absurd h Bool.false_ne_true
  | closeGraph name => exact absurd h Bool.false_ne_true
  | ask on q =>
    unfold complaint? at h
    dsimp only at h
    cases hanswer : q.answer (s.pointer? on) with
    | mk answer buffer =>
      rw [hanswer] at h
      cases answer with
      | error complaint =>
        refine ⟨buffer, ?_⟩
        unfold perform
        dsimp only
        rw [ask_of_error hanswer]
      | ok n => exact absurd h Bool.false_ne_true

theorem lastError_run_closes (s : Session) (names : List (Option String)) :
    (s.run (names.map fun name => .call (.closeGraph name))).lastError = s.lastError := by
  induction names generalizing s with
  | nil => rfl
  | cons name names ih =>
    have hclose : (s.perform (.closeGraph name)).2.lastError = s.lastError :=
      lastError_perform s (.closeGraph name)
    exact (ih _).trans hclose

/-- **The message after a run.** After a call, and any graphs that are closed then, the message is
that of the call, or none if it succeeded. If the call itself closes a graph, the message is still
the one from before. A call that complains answers its sentinel. -/
theorem lastError_of_run (s : Session) (before : List Action) (c : Call)
    (names : List (Option String)) :
    (s.run (before ++ .call c :: names.map fun name => .call (.closeGraph name))).lastError =
      (if c.closes then (s.run before).lastError
      else ((s.run before).complaint? c).map fun complaint => spellNul complaint.message) ∧
    (((s.run before).complaint? c).isSome → c.Fails ((s.run before).perform c).1) := by
  refine ⟨?_, fails_of_complaint⟩
  unfold run
  rw [List.foldl_append, List.foldl_cons]
  exact (lastError_run_closes _ names).trans (lastError_perform _ c)

/-- A message outlives a closing that has nothing to complain of: here of a null pointer, after a
question to a null pointer. -/
theorem not_forall_lastError_eq_none_iff :
    ¬ ∀ (s : Session) (before : List Action) (c : Call), s.lastError = none →
      (((s.run before).perform c).2.lastError = none ↔ (s.run before).complaint? c = none) := by
  intro h
  have hclose := h {} [.call (.ask none (.degree 1))] (.closeGraph none) rfl
  have hleft := lastError_perform (({} : Session).run [.call (.ask none (.degree 1))])
    (.closeGraph none)
  rw [hclose.mpr rfl] at hleft
  cases hleft

end Session

end FlatGraph
