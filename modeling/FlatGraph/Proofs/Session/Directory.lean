import FlatGraph.Proofs.Image.Format
import FlatGraph.Session.Directory

/-! # Where paths lead

Where a path leads is told by the working directory and by what is at each location, and by the
directories above all: a path still leads to the same place when files have come or changed.

* `Store.Matches`, with `Store.lookUp_congr` and `Store.claim_congr`: stores with the same at each
  location.
* `Store.follow_mono`: stores that have the same directories, and others.
* `Store.lookUp_eq_ok_iff`, `Store.claim_eq_ok_iff`: the files that a path names, to read or to
  write.
* `Store.lookUp_insert_of_claim`: the file that was written is the file that is read. -/

namespace FlatGraph.Store

variable {s t : Store} {path name : String} {parent child location : Location} {file : File}
  {entry : Option Entry}

/-! ### Stores with the same at each location -/

/-- The stores have the same working directory, and the same at each location. -/
structure Matches (s t : Store) : Prop where
  home : s.home = t.home
  find? : s.find? = t.find?

theorem Matches.refl (s : Store) : s.Matches s := ⟨rfl, rfl⟩

theorem entry?_congr (h : s.find? = t.find?) : s.entry? = t.entry? := by
  funext parent name
  unfold entry?
  rw [h]

theorem enter_congr (h : s.find? = t.find?) : s.enter = t.enter := by
  funext parent step
  cases step with
  | stay => rfl
  | up => rfl
  | down name =>
    unfold enter
    rw [entry?_congr h]

theorem origin_congr (h : s.home = t.home) : s.origin = t.origin := by
  funext p
  unfold origin
  rw [h]

theorem follow_congr (h : s.Matches t) : s.follow = t.follow := by
  funext path
  unfold follow
  rw [enter_congr h.find?, origin_congr h.home]

theorem lookUp_congr (h : s.Matches t) : s.lookUp = t.lookUp := by
  funext path
  unfold lookUp
  rw [follow_congr h, entry?_congr h.find?]

theorem claim_congr (h : s.Matches t) : s.claim = t.claim := by
  funext path
  unfold claim
  rw [follow_congr h, entry?_congr h.find?]

/-! ### Stores with the same directories -/

theorem entry?_eq_ok_iff : s.entry? parent name = .ok entry ↔
    name.utf8ByteSize ≤ Pathname.maxNameSize ∧ s.find? (parent ++ [name]) = entry := by
  unfold entry?
  split
  · next hlong => simp [Nat.not_le.mpr hlong]
  · next hshort => simp [Nat.le_of_not_lt hshort]

theorem enter_down_eq_ok_iff : s.enter parent (.down name) = .ok child ↔
    s.entry? parent name = .ok (some .directory) ∧ child = parent ++ [name] := by
  unfold enter
  rw [bind_eq_ok_iff]
  constructor
  · rintro ⟨_ | _ | _, hentry, hchild⟩
    · cases hchild
    · cases hchild
    · exact ⟨hentry, (Except.ok.inj hchild).symm⟩
  · rintro ⟨hentry, rfl⟩
    exact ⟨_, hentry, rfl⟩

section

variable (h : ∀ l, s.find? l = some .directory → t.find? l = some .directory)
include h

theorem enter_mono {step : Step} (hs : s.enter parent step = .ok child) :
    t.enter parent step = .ok child := by
  cases step with
  | stay => exact hs
  | up => exact hs
  | down name =>
    rw [enter_down_eq_ok_iff, entry?_eq_ok_iff] at hs ⊢
    exact ⟨⟨hs.1.1, h _ hs.1.2⟩, hs.2⟩

theorem foldlM_enter_mono {steps : List Step} (hs : steps.foldlM s.enter parent = .ok child) :
    steps.foldlM t.enter parent = .ok child := by
  induction steps generalizing parent with
  | nil => exact hs
  | cons step steps ih =>
    rw [List.foldlM_cons, bind_eq_ok_iff] at hs ⊢
    obtain ⟨next, hnext, hrest⟩ := hs
    exact ⟨next, enter_mono h hnext, ih hrest⟩

/-- **A path leads to the same place** when no directory has gone. -/
theorem follow_mono (hhome : s.home = t.home) {goal : Goal} (hs : s.follow path = .ok goal) :
    t.follow path = .ok goal := by
  unfold follow at hs ⊢
  rw [← origin_congr hhome]
  rw [bind_eq_ok_iff] at hs ⊢
  obtain ⟨p, hp, hs⟩ := hs
  rw [bind_eq_ok_iff] at hs
  obtain ⟨parent, hparent, hs⟩ := hs
  -- only directories are on the way; a last name is not looked up here
  refine ⟨p, hp, bind_eq_ok_iff.mpr ⟨parent, foldlM_enter_mono h hparent, ?_⟩⟩
  cases hlast : p.steps.getLast? with
  | none =>
    rw [hlast] at hs
    exact hs
  | some step =>
    rw [hlast] at hs
    cases step with
    | down name => exact hs
    | stay => exact hs
    | up => exact hs

end

/-! ### Files -/

theorem lookUp_eq_ok_iff : s.lookUp path = .ok (location, .file file) ↔
    ∃ parent name, s.follow path = .ok (.named parent name false) ∧ location = parent ++ [name] ∧
      s.entry? parent name = .ok (some (.file file)) := by
  unfold lookUp
  rw [bind_eq_ok_iff]
  constructor
  · rintro ⟨⟨parent, name, slashed⟩ | directory, hgoal, hs⟩
    · dsimp only at hs
      rw [bind_eq_ok_iff] at hs
      obtain ⟨_ | _ | _, hentry, hs⟩ := hs
      · cases hs
      · cases slashed with
        | true => cases hs
        | false =>
          cases hs
          exact ⟨parent, name, hgoal, rfl, hentry⟩
      · cases hs
    · cases hs
  · rintro ⟨parent, name, hgoal, rfl, hentry⟩
    refine ⟨_, hgoal, ?_⟩
    dsimp only
    rw [hentry]
    rfl

/-- A path names a file to be written: the one that is there, or an empty one. -/
theorem claim_eq_ok_iff : s.claim path = .ok (location, file) ↔
    ∃ parent name, s.follow path = .ok (.named parent name false) ∧ location = parent ++ [name] ∧
      (s.entry? parent name = .ok (some (.file file)) ∨
        s.entry? parent name = .ok none ∧ file = ⟨ByteArray.empty, .free⟩) := by
  unfold claim
  rw [bind_eq_ok_iff]
  constructor
  · rintro ⟨⟨parent, name, slashed⟩ | directory, hgoal, hs⟩
    · cases slashed with
      | true => cases hs
      | false =>
        dsimp only at hs
        rw [if_neg Bool.false_ne_true, bind_eq_ok_iff] at hs
        obtain ⟨_ | _ | _, hentry, hs⟩ := hs
        · cases hs
          exact ⟨parent, name, hgoal, rfl, Or.inr ⟨hentry, rfl⟩⟩
        · cases hs
          exact ⟨parent, name, hgoal, rfl, Or.inl hentry⟩
        · cases hs
    · cases hs
  · rintro ⟨parent, name, hgoal, rfl, hentry | ⟨hentry, rfl⟩⟩
    all_goals
      refine ⟨_, hgoal, ?_⟩
      dsimp only
      rw [if_neg Bool.false_ne_true, hentry]
      rfl

theorem claim_of_lookUp (h : s.lookUp path = .ok (location, .file file)) :
    s.claim path = .ok (location, file) := by
  obtain ⟨parent, name, hgoal, hlocation, hentry⟩ := lookUp_eq_ok_iff.mp h
  exact claim_eq_ok_iff.mpr ⟨parent, name, hgoal, hlocation, Or.inl hentry⟩

theorem find?_of_lookUp (h : s.lookUp path = .ok (location, .file file)) :
    s.find? location = some (.file file) := by
  obtain ⟨parent, name, -, rfl, hentry⟩ := lookUp_eq_ok_iff.mp h
  exact (entry?_eq_ok_iff.mp hentry).2

theorem find?_of_claim (h : s.claim path = .ok (location, file)) :
    s.find? location = some (.file file) ∨
      s.find? location = none ∧ file = ⟨ByteArray.empty, .free⟩ := by
  obtain ⟨parent, name, -, rfl, hentry | ⟨hentry, hfile⟩⟩ := claim_eq_ok_iff.mp h
  · exact Or.inl (entry?_eq_ok_iff.mp hentry).2
  · exact Or.inr ⟨(entry?_eq_ok_iff.mp hentry).2, hfile⟩

/-! ### Files put into a store -/

theorem find?_insert_of_ne_directory (h : s.find? location ≠ some .directory) (other : Location)
    (entry : Entry) : (s.insert location entry).find? other =
      if other = location then some entry else s.find? other := by
  rw [find?_insert]
  by_cases hhome : other.isPrefixOf s.home
  · have hother : s.find? other = some .directory := if_pos hhome
    have hne : other ≠ location := by
      rintro rfl
      exact h hother
    rw [if_pos hhome, if_neg hne, hother]
  · rw [if_neg hhome]

theorem find?_insert_directory (h : s.find? location ≠ some .directory) (file : File) (l : Location)
    (hl : s.find? l = some .directory) :
    (s.insert location (.file file)).find? l = some .directory := by
  have hne : l ≠ location := by
    rintro rfl
    exact h hl
  rw [find?_insert_of_ne_directory h, if_neg hne, hl]

theorem ne_directory_of_claim (h : s.claim path = .ok (location, file)) :
    s.find? location ≠ some .directory := by
  rcases find?_of_claim h with hfound | ⟨hnone, -⟩
  · rw [hfound]
    simp
  · rw [hnone]
    simp

/-- **The file that is written at a path** is the file that the path names then. -/
theorem lookUp_insert_of_claim (h : s.claim path = .ok (location, file)) (written : File) :
    (s.insert location (.file written)).lookUp path = .ok (location, .file written) := by
  have hdirectory := ne_directory_of_claim h
  obtain ⟨parent, name, hgoal, rfl, hentry⟩ := claim_eq_ok_iff.mp h
  have hshort : name.utf8ByteSize ≤ Pathname.maxNameSize := by
    rcases hentry with hentry | ⟨hentry, -⟩ <;> exact (entry?_eq_ok_iff.mp hentry).1
  refine lookUp_eq_ok_iff.mpr ⟨parent, name,
    follow_mono (find?_insert_directory hdirectory written) rfl hgoal, rfl,
    entry?_eq_ok_iff.mpr ⟨hshort, ?_⟩⟩
  rw [find?_insert_of_ne_directory hdirectory, if_pos rfl]

end FlatGraph.Store
