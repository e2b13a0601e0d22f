import Mathlib.Data.List.Nodup
import FlatGraph.Proofs.Session.Store
import FlatGraph.Session.Run

/-! # What a step does to the files

The graphs that a session has open are held by the program itself or by pointers, each under a name.
Whoever holds them, a step does one of four things: nothing to the files, or it writes, closes or
opens one.

* `Session.held`: the open graphs with their holders.
* `Session.Effect`, `Session.effect_step`: the four kinds of steps.
* `Session.Safe`, `Session.Safe.run`: along a run the files serve the open graphs. -/

namespace FlatGraph

/-! ### Holders -/

/-- Who has a graph open. -/
inductive Holder
  | program (name : String)
  | pointer (name : String)
  deriving DecidableEq

/-- Open graphs with their holders. -/
abbrev Holdings := List (Holder × Store.Handle)

/-- The path of a file to be opened, the holder that it is opened for, and what the system answers. -/
structure Opening where
  path : String
  holder : Holder
  reading : Reading

/-- What a step opens. -/
def Action.opens? : Action → Option Opening
  | .openGraph path name reading => some ⟨path, .program name, reading⟩
  | .call (.openGraph path name reading) =>
    match Foreign.path path with
    | .ok path => some ⟨path, .pointer name, reading⟩
    | .error _ => none
  | _ => none

/-- The holder whose graph a step closes. -/
def Action.closes? : Action → Option Holder
  | .closeGraph name => some (.program name)
  | .call (.closeGraph (some name)) => some (.pointer name)
  | _ => none

theorem opens?_call_eq_some_iff {bytes : Option ByteArray} {name : String} {reading : Reading}
    {opening : Opening} : (Action.call (.openGraph bytes name reading)).opens? = some opening ↔
      Foreign.path bytes = .ok opening.path ∧ opening.holder = .pointer name ∧
        opening.reading = reading := by
  obtain ⟨path, holder, answer⟩ := opening
  unfold Action.opens?
  dsimp only
  cases Foreign.path bytes with
  | error complaint => simp
  | ok other => simp [eq_comm]

/-- A step that opens a graph does so for the program or for a pointer. -/
theorem opens?_cases {a : Action} {opening : Opening} (h : a.opens? = some opening) :
    (∃ name, a = .openGraph opening.path name opening.reading ∧ opening.holder = .program name) ∨
    ∃ bytes name, a = .call (.openGraph bytes name opening.reading) ∧
      Foreign.path bytes = .ok opening.path ∧ opening.holder = .pointer name := by
  cases a with
  | write => cases h
  | closeGraph => cases h
  | openGraph path name reading =>
    cases h
    exact Or.inl ⟨name, rfl, rfl⟩
  | call c =>
    cases c with
    | closeGraph => cases h
    | ask => cases h
    | openGraph bytes name reading =>
      obtain ⟨hpath, hholder, rfl⟩ := opens?_call_eq_some_iff.mp h
      exact Or.inr ⟨bytes, name, rfl, hpath, hholder⟩

/-- The step opens or closes a graph for the holder. -/
def Action.Touches (a : Action) (holder : Holder) : Prop :=
  (∃ opening, a.opens? = some opening ∧ opening.holder = holder) ∨ a.closes? = some holder

namespace Session

/-- All open graphs. -/
def held (s : Session) : Holdings :=
  s.graphs.map (Prod.map .program id) ++ s.pointers.map (Prod.map .pointer id)

/-- The graph of a holder, as it answers now. -/
def image? (s : Session) : Holder → Option Image
  | .program name => s.graph? name
  | .pointer name => s.pointer? (some name)

end Session

/-! ### Names that go -/

/-- The graph of a holder is closed, if there is one, and `left` are the other open graphs. -/
structure Freed (store : Store) (held : Holdings) (holder : Holder) (after : Store)
    (left : Holdings) : Prop where
  left : left = held.filter fun entry => entry.1 ≠ holder
  store : (∃ handle, (holder, handle) ∈ held ∧ after = store.close handle) ∨
    (∀ entry ∈ held, entry.1 ≠ holder) ∧ after = store

theorem mem_of_lookup {κ β : Type} [BEq κ] [LawfulBEq κ] {key : κ} {value : β} {l : List (κ × β)}
    (h : l.lookup key = some value) : (key, value) ∈ l := by
  obtain ⟨front, back, rfl, -⟩ := List.lookup_eq_some_iff.mp h
  simp

theorem ne_of_lookup {κ β : Type} [BEq κ] [LawfulBEq κ] {key : κ} {l : List (κ × β)}
    (h : l.lookup key = none) : ∀ entry ∈ l, entry.1 ≠ key := fun entry hentry =>
  (bne_iff_ne.mp (List.lookup_eq_none_iff.mp h entry hentry)).symm

theorem lookup_eq_some_iff_mem {κ β : Type} [BEq κ] [LawfulBEq κ] {key : κ} {value : β}
    {l : List (κ × β)} (hl : (l.map Prod.fst).Nodup) :
    l.lookup key = some value ↔ (key, value) ∈ l := by
  refine ⟨mem_of_lookup, fun h => ?_⟩
  cases hlookup : l.lookup key with
  | none => exact absurd rfl (ne_of_lookup hlookup _ h)
  | some other =>
    have heq := List.inj_on_of_nodup_map hl (mem_of_lookup hlookup) h rfl
    rw [(Prod.mk.inj heq).2]

theorem filter_ne_eq_self {κ β : Type} [DecidableEq κ] {key : κ} {l : List (κ × β)}
    (h : ∀ entry ∈ l, entry.1 ≠ key) : l.filter (fun entry => entry.1 ≠ key) = l :=
  List.filter_eq_self.mpr fun entry hentry => decide_eq_true (h entry hentry)

theorem perm_cons_filter {κ β : Type} [DecidableEq κ] {key : κ} {value : β} {l : List (κ × β)}
    (hl : (l.map Prod.fst).Nodup) (h : (key, value) ∈ l) :
    l.Perm ((key, value) :: l.filter fun entry => entry.1 ≠ key) := by
  induction l with
  | nil => cases h
  | cons first l ih =>
    rw [List.map_cons, List.nodup_cons] at hl
    obtain ⟨hfirst, hl⟩ := hl
    rcases List.mem_cons.mp h with rfl | h
    · have hrest : ∀ entry ∈ l, entry.1 ≠ key := by
        intro entry hentry hkey
        have hmem : entry.1 ∈ l.map Prod.fst := List.mem_map_of_mem hentry
        rw [hkey] at hmem
        exact hfirst hmem
      rw [List.filter_cons_of_neg (by simp), filter_ne_eq_self hrest]
    · have hne : first.1 ≠ key := by
        intro hkey
        have hmem : (key, value).1 ∈ l.map Prod.fst := List.mem_map_of_mem h
        rw [hkey] at hfirst
        exact hfirst hmem
      rw [List.filter_cons_of_pos (by simpa using hne)]
      exact (List.Perm.cons first (ih hl h)).trans (List.Perm.swap _ _ _)

theorem Session.drop_cases (store : Store) (handles : Handles) (name : String) :
    (∃ handle, (name, handle) ∈ handles ∧ drop store handles name =
      (store.close handle, handles.filter fun entry => entry.1 ≠ name)) ∨
    (∀ entry ∈ handles, entry.1 ≠ name) ∧ drop store handles name = (store, handles) := by
  unfold drop
  cases hlookup : handles.lookup name with
  | some handle => exact Or.inl ⟨handle, mem_of_lookup hlookup, rfl⟩
  | none => exact Or.inr ⟨ne_of_lookup hlookup, rfl⟩

/-- Dropping a name frees its holder, which is none of those in front or behind. -/
theorem freed_drop {holder : String → Holder} (hinj : Function.Injective holder) (store : Store)
    (handles : Handles) (name : String) (front back : Holdings)
    (hfront : ∀ entry ∈ front, entry.1 ≠ holder name)
    (hback : ∀ entry ∈ back, entry.1 ≠ holder name) :
    Freed store (front ++ handles.map (Prod.map holder id) ++ back) (holder name)
      (Session.drop store handles name).1
      (front ++ (Session.drop store handles name).2.map (Prod.map holder id) ++ back) := by
  have hfilter : (front ++ handles.map (Prod.map holder id) ++ back).filter
      (fun entry => entry.1 ≠ holder name) =
      front ++ (handles.filter fun entry => entry.1 ≠ name).map (Prod.map holder id) ++ back := by
    have hnames : (handles.map (Prod.map holder id)).filter (fun entry => entry.1 ≠ holder name) =
        (handles.filter fun entry => entry.1 ≠ name).map (Prod.map holder id) := by
      rw [List.filter_map]
      refine congrArg _ (List.filter_congr fun entry _ => ?_)
      exact decide_eq_decide.mpr hinj.ne_iff
    rw [List.filter_append, List.filter_append, hnames, filter_ne_eq_self hfront,
      filter_ne_eq_self hback]
  rcases Session.drop_cases store handles name with ⟨handle, hmem, hdrop⟩ | ⟨hnone, hdrop⟩
  · rw [hdrop]
    refine ⟨hfilter.symm, Or.inl ⟨handle, ?_, rfl⟩⟩
    have hentry := List.mem_map_of_mem (f := Prod.map holder id) hmem
    exact List.mem_append_left _ (List.mem_append_right _ hentry)
  · rw [hdrop]
    rw [filter_ne_eq_self hnone] at hfilter
    refine ⟨hfilter.symm, Or.inr ⟨fun entry hentry => ?_, rfl⟩⟩
    rcases List.mem_append.mp hentry with hentry | hentry
    · rcases List.mem_append.mp hentry with hentry | hentry
      · exact hfront entry hentry
      · obtain ⟨other, hother, rfl⟩ := List.mem_map.mp hentry
        exact fun heq => hnone other hother (hinj heq)
    · exact hback entry hentry

namespace Freed

variable {store after : Store} {held left : Holdings} {holder : Holder}
  {entry : Holder × Store.Handle}

theorem bytes? (h : Freed store held holder after left) : after.bytes? = store.bytes? := by
  rcases h.store with ⟨handle, -, rfl⟩ | ⟨-, rfl⟩
  · exact Store.bytes?_close store handle
  · rfl

theorem mem_left_iff (h : Freed store held holder after left) :
    entry ∈ left ↔ entry ∈ held ∧ entry.1 ≠ holder := by
  rw [h.left, List.mem_filter]
  simp

theorem nodup (h : Freed store held holder after left) (hheld : (held.map Prod.fst).Nodup) :
    (left.map Prod.fst).Nodup := by
  rw [h.left]
  exact (List.filter_sublist.map _).nodup hheld

theorem serves (h : Freed store held holder after left) (extra : List Store.Handle)
    (hheld : (held.map Prod.fst).Nodup) (hs : store.Serves (extra ++ held.map Prod.snd)) :
    after.Serves (extra ++ left.map Prod.snd) := by
  rcases h.store with ⟨handle, hmem, rfl⟩ | ⟨hnone, rfl⟩
  · have hperm := (perm_cons_filter hheld hmem).map Prod.snd
    rw [← h.left, List.map_cons] at hperm
    exact (hs.perm ((hperm.append_left extra).trans List.perm_middle)).close
  · rw [h.left, filter_ne_eq_self hnone]
    exact hs

end Freed

/-! ### Steps -/

namespace Session

variable {s t : Session} {a : Action} {location : Location} {holder : Holder}
  {handle : Store.Handle}

/-- **What a step does** to the files and to the open graphs. A file that is written to holds all of
a graph afterwards, or what the system came to. A graph that is opened comes before the older one of
its holder is closed. -/
inductive Effect (s : Session) (a : Action) (t : Session) : Prop
  | idle (files : t.store.Matches s.store) (held : t.held = s.held)
  | written {path : String} {location : Location} {file : File} {left : ByteArray}
    (claimed : s.store.claim path = .ok (location, file)) (free : file.lock = .free)
    (store : t.store = s.store.insert location (.file ⟨left, .free⟩)) (held : t.held = s.held)
  | closed {holder : Holder} (closes : a.closes? = some holder)
    (freed : Freed s.store s.held holder t.store t.held)
  | opened {opening : Opening} {location : Location} {file : File} {lock : Lock} {image : Image}
    {left : Holdings} (opens : a.opens? = some opening)
    (found : s.store.lookUp opening.path = .ok (location, .file file))
    (locked : file.lock.tryShared? = some lock) (parsed : Image.parse file.bytes = .ok image)
    (freed : Freed (s.store.insert location (.file { file with lock })) s.held opening.holder
      t.store left)
    (held : t.held.Perm ((opening.holder, ⟨location, image⟩) :: left))

theorem freed_graphs (s : Session) (store : Store) (name : String) :
    Freed store s.held (.program name) (drop store s.graphs name).1
      ((drop store s.graphs name).2.map (Prod.map .program id) ++
        s.pointers.map (Prod.map .pointer id)) := by
  have hback : ∀ entry ∈ s.pointers.map (Prod.map Holder.pointer id), entry.1 ≠ .program name := by
    intro entry hentry
    obtain ⟨other, -, rfl⟩ := List.mem_map.mp hentry
    exact Holder.noConfusion
  exact freed_drop (fun m n h => Holder.program.inj h) store s.graphs name [] _
    (fun entry hentry => absurd hentry List.not_mem_nil) hback

theorem freed_pointers (s : Session) (store : Store) (name : String) :
    Freed store s.held (.pointer name) (drop store s.pointers name).1
      (s.graphs.map (Prod.map .program id) ++
        (drop store s.pointers name).2.map (Prod.map .pointer id)) := by
  have hfront : ∀ entry ∈ s.graphs.map (Prod.map Holder.program id), entry.1 ≠ .pointer name := by
    intro entry hentry
    obtain ⟨other, -, rfl⟩ := List.mem_map.mp hentry
    exact Holder.noConfusion
  have hfreed := freed_drop (fun m n h => Holder.pointer.inj h) store s.pointers name _ []
    hfront fun entry hentry => absurd hentry List.not_mem_nil
  rw [List.append_nil, List.append_nil] at hfreed
  exact hfreed

/-- The program is told that a step opens a graph. -/
def admits (s : Session) : Action → Bool
  | .openGraph path name reading => (s.openGraph path name reading).1.isOk
  | .call (.openGraph path name reading) => (s.openPointer path name reading).1
  | _ => false

theorem admits_eq {opening : Opening} (ho : a.opens? = some opening) :
    s.admits a = (s.store.openImage opening.path opening.reading).1.isOk := by
  obtain ⟨path, holder, reading⟩ := opening
  rcases opens?_cases ho with ⟨name, rfl, rfl⟩ | ⟨bytes, name, rfl, hpath, rfl⟩
  · show (s.openGraph path name reading).1.isOk = _
    unfold openGraph
    rcases s.store.openImage path reading with ⟨_ | handle, store⟩ <;> rfl
  · show (s.openPointer bytes name reading).1 = _
    unfold openPointer
    rw [hpath]
    dsimp only
    rcases s.store.openImage path reading with ⟨_ | handle, store⟩ <;> rfl

theorem step_of_opens_error {opening : Opening} {fault : Fault} {store : Store}
    (ho : a.opens? = some opening)
    (h : s.store.openImage opening.path opening.reading = (.error fault, store)) :
    (s.step a).store = store ∧ (s.step a).held = s.held := by
  obtain ⟨path, holder, reading⟩ := opening
  rcases opens?_cases ho with ⟨name, rfl, rfl⟩ | ⟨bytes, name, rfl, hpath, rfl⟩
  · have hstep : s.step (.openGraph path name reading) = { s with store } := by
      show (s.openGraph path name reading).2 = _
      unfold openGraph
      rw [h]
    rw [hstep]
    exact ⟨rfl, rfl⟩
  · have hstep : s.step (.call (.openGraph bytes name reading)) = { s with
        store, lastError := some (spellNul (Complaint.fault fault).message) } := by
      show (s.openPointer bytes name reading).2 = _
      unfold openPointer
      rw [hpath]
      dsimp only
      rw [h]
      rfl
    rw [hstep]
    exact ⟨rfl, rfl⟩

/-- A graph that is opened takes the place of the older one of its holder. -/
theorem step_of_opens_ok {opening : Opening} {store : Store} (ho : a.opens? = some opening)
    (h : s.store.openImage opening.path opening.reading = (.ok handle, store)) :
    ∃ left, Freed store s.held opening.holder (s.step a).store left ∧
      (s.step a).held.Perm ((opening.holder, handle) :: left) := by
  obtain ⟨path, holder, reading⟩ := opening
  rcases opens?_cases ho with ⟨name, rfl, rfl⟩ | ⟨bytes, name, rfl, hpath, rfl⟩
  · have hstep : s.step (.openGraph path name reading) =
        { s with store := (drop store s.graphs name).1,
                 graphs := (name, handle) :: (drop store s.graphs name).2 } := by
      show (s.openGraph path name reading).2 = _
      unfold openGraph
      rw [h]
      rfl
    rw [hstep]
    exact ⟨_, s.freed_graphs store name, List.Perm.refl _⟩
  · have hstep : s.step (.call (.openGraph bytes name reading)) =
        { s with store := (drop store s.pointers name).1,
                 pointers := (name, handle) :: (drop store s.pointers name).2,
                 lastError := none } := by
      show (s.openPointer bytes name reading).2 = _
      unfold openPointer
      rw [hpath]
      dsimp only
      rw [h]
      rfl
    rw [hstep]
    exact ⟨_, s.freed_pointers store name, List.perm_middle⟩

theorem freed_step (s : Session) (hc : a.closes? = some holder) :
    Freed s.store s.held holder (s.step a).store (s.step a).held := by
  cases a with
  | write => cases hc
  | openGraph => cases hc
  | closeGraph name =>
    cases hc
    exact s.freed_graphs s.store name
  | call c =>
    cases c with
    | openGraph => cases hc
    | ask => cases hc
    | closeGraph name =>
      cases name with
      | none => cases hc
      | some name =>
        cases hc
        exact s.freed_pointers s.store name

theorem effect_step (s : Session) (a : Action) : Effect s a (s.step a) := by
  -- opening is one case for all holders
  cases hopens : a.opens? with
  | some opening =>
    rcases s.store.openImage_cases opening.path opening.reading with ⟨fault, store, hopen, hfind⟩ |
      ⟨location, file, lock, image, -, hlookUp, hlock, hparse, hopen⟩
    · obtain ⟨hstore, hheld⟩ := step_of_opens_error hopens hopen
      exact .idle (by rw [hstore]; exact hfind) hheld
    · obtain ⟨left, hfreed, hheld⟩ := step_of_opens_ok hopens hopen
      exact .opened hopens hlookUp hlock hparse hfreed hheld
  | none =>
    cases a with
    | openGraph => cases hopens
    | write path g o writing =>
      show Effect s _ (s.write path g o writing).2
      unfold write
      rcases s.store.write_cases path g o writing with ⟨fault, hwrite⟩ |
        ⟨bytes, location, file, replacing, rfl, hbytes, hclaim, hfree⟩
      · rw [hwrite]
        exact .idle (.refl _) rfl
      · rcases replacing.eq_done_or_breaks file.bytes bytes with rfl | ⟨complaint, left, hbreaks⟩
        · rw [Store.write_done hbytes hclaim hfree]
          exact .written hclaim hfree rfl rfl
        · rw [Store.write_of_breaks hbytes hclaim hfree hbreaks]
          exact .written hclaim hfree rfl rfl
    | closeGraph name => exact .closed rfl (s.freed_step rfl)
    | call c =>
      cases c with
      | ask on q => exact .idle (.refl _) rfl
      | closeGraph name =>
        cases name with
        | none => exact .idle (.refl _) rfl
        | some name => exact .closed rfl (s.freed_step rfl)
      | openGraph bytes name reading =>
        show Effect s _ (s.openPointer bytes name reading).2
        unfold openPointer
        cases hpath : Foreign.path bytes with
        | error complaint => exact .idle (.refl _) rfl
        | ok path =>
          have hopening : (Action.call (.openGraph bytes name reading)).opens? =
              some ⟨path, .pointer name, reading⟩ :=
            opens?_call_eq_some_iff.mpr ⟨hpath, rfl, rfl⟩
          rw [hopening] at hopens
          cases hopens

/-! ### Runs -/

/-- A graph is open on the file at a location. -/
def OpenOn (s : Session) (location : Location) : Prop :=
  ∃ entry ∈ s.held, entry.2.location = location

/-- **The files serve the open graphs**, and no holder has two. -/
structure Safe (s : Session) : Prop where
  holders : (s.held.map Prod.fst).Nodup
  serves : s.store.Serves (s.held.map Prod.snd)

/-- A session with no open graph, and no lock held on a file. -/
structure Fresh (s : Session) : Prop where
  graphs : s.graphs = []
  pointers : s.pointers = []
  locks : ∀ location file, s.store.find? location = some (.file file) → file.lock = .free

theorem Fresh.safe (h : s.Fresh) : s.Safe := by
  have hheld : s.held = [] := by
    unfold held
    rw [h.graphs, h.pointers]
    rfl
  refine ⟨?_, fun location file hfile => ?_, ?_⟩
  · rw [hheld]
    exact List.nodup_nil
  · rw [hheld]
    exact h.locks location file hfile
  · rw [hheld]
    simp

theorem openOn_iff : s.OpenOn location ↔ 0 < Store.readers (s.held.map Prod.snd) location := by
  rw [Store.readers_pos_iff]
  constructor
  · rintro ⟨entry, hentry, hlocation⟩
    exact ⟨entry.2, List.mem_map_of_mem hentry, hlocation⟩
  · rintro ⟨handle, hhandle, hlocation⟩
    obtain ⟨entry, hentry, rfl⟩ := List.mem_map.mp hhandle
    exact ⟨entry, hentry, hlocation⟩

/-- **A step keeps the files serving** the open graphs. -/
theorem Safe.of_effect (h : s.Safe) (he : Effect s a t) : t.Safe := by
  cases he with
  | idle files held =>
    refine ⟨by rw [held]; exact h.holders, ?_⟩
    rw [held]
    exact h.serves.congr files.find?
  | written claimed free store held =>
    refine ⟨by rw [held]; exact h.holders, ?_⟩
    rw [held, store]
    exact h.serves.write claimed free _
  | closed closes freed => exact ⟨freed.nodup h.holders, freed.serves [] h.holders h.serves⟩
  | @opened opening location file lock image left opens found locked parsed freed held =>
    have hopened := h.serves.openImage (Store.find?_of_lookUp found) locked parsed
    have hserves := freed.serves [⟨location, image⟩] h.holders hopened
    refine ⟨(held.map Prod.fst).nodup_iff.mpr ?_, hserves.perm (held.map Prod.snd).symm⟩
    rw [List.map_cons, List.nodup_cons]
    refine ⟨fun hmem => ?_, freed.nodup h.holders⟩
    obtain ⟨entry, hentry, hholder⟩ := List.mem_map.mp hmem
    exact (freed.mem_left_iff.mp hentry).2 hholder

theorem Safe.step (h : s.Safe) (a : Action) : (s.step a).Safe := h.of_effect (s.effect_step a)

/-- **Along a run** the files serve the open graphs. -/
theorem Safe.run (h : s.Safe) (actions : List Action) : (s.run actions).Safe := by
  induction actions generalizing s with
  | nil => exact h
  | cons a actions ih => exact ih (h.step a)

end Session

end FlatGraph
