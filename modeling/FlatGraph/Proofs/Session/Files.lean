import Mathlib
import FlatGraph.Proofs.Session.Steps
import FlatGraph.Proofs.Written.Accepted

/-! # Files along a run of a session

Readers are safe, whatever the system answers. As long as a graph is open on a file, nobody writes
to that file, and the graph answers as it did when it was opened. Writing that is barred, by the
graph, the path, the system or an open graph, changes no file. Writing that is not barred puts the
whole graph into one file; if the system fails halfway, this file alone is spoiled, and it is free.

Two paths are taken to name the same file only if they lead to the same location, so a file with
several links is out of what is said here.

* `Session.Safe.bytes?_run`: a file on which a graph is open keeps its bytes.
* `Session.Safe.image?_run`: a graph stays with its holder.
* `Session.Barred`, `Session.Broken`: why writing fails.
* `Session.Reliable`, `Session.reliable_run`: what holds after every run. -/

namespace FlatGraph

theorem Graph.exists_parse_of_write {g : Graph} {o : Options} {b : ByteArray}
    (h : g.write o = .ok b) : ∃ image, Image.parse b = .ok image := by
  obtain ⟨positions, ends, hwritable, rfl⟩ := write_eq_ok_iff.mp h
  exact ⟨_, hwritable.parse_eq⟩

namespace Session

variable {s t : Session} {a : Action} {path : String} {location : Location} {holder : Holder}
  {handle : Store.Handle} {file : File} {image : Image}

/-! ### One step -/

/-- **A file on which a graph is open** keeps its bytes in every step. -/
theorem Safe.bytes?_of_effect (h : s.Safe) (he : Effect s a t) (ho : s.OpenOn location) :
    t.store.bytes? location = s.store.bytes? location := by
  cases he with
  | idle files => rw [Store.bytes?_congr files.find?]
  | @written path written file left claimed free store =>
    have hne : location ≠ written := by
      rintro rfl
      have hpos := openOn_iff.mp ho
      have hzero := h.serves.readers_of_claim claimed free
      omega
    rw [store, Store.bytes?_insert_file (Store.ne_directory_of_claim claimed), if_neg hne]
  | closed closes freed => rw [freed.bytes?]
  | opened opens found locked parsed freed =>
    rw [freed.bytes?, Store.bytes?_insert_lock (Store.find?_of_lookUp found)]

/-- An open graph stays with its holder in every step that does not touch this one. -/
theorem Effect.mem_held (he : Effect s a t) (hnot : ¬ a.Touches holder)
    (hheld : (holder, handle) ∈ s.held) : (holder, handle) ∈ t.held := by
  cases he with
  | idle files held => rwa [held]
  | written claimed free store held => rwa [held]
  | closed closes freed =>
    refine freed.mem_left_iff.mpr ⟨hheld, ?_⟩
    rintro rfl
    exact hnot (Or.inr closes)
  | opened opens found locked parsed freed held =>
    refine held.mem_iff.mpr (List.mem_cons_of_mem _ (freed.mem_left_iff.mpr ⟨hheld, ?_⟩))
    rintro rfl
    exact hnot (Or.inl ⟨_, opens, rfl⟩)

/-! ### Runs -/

theorem Safe.bytes?_run (h : s.Safe) (actions : List Action)
    (ho : ∀ n < actions.length, (s.run (actions.take n)).OpenOn location) :
    (s.run actions).store.bytes? location = s.store.bytes? location := by
  induction actions generalizing s with
  | nil => rfl
  | cons a actions ih =>
    -- the graph is open when the step is taken, so it may be the one that closes it
    have hfirst : s.OpenOn location := ho 0 (by simp)
    have hrest : ∀ n < actions.length, ((s.step a).run (actions.take n)).OpenOn location := by
      intro n hn
      have hnext := ho (n + 1) (by rw [List.length_cons]; omega)
      rwa [List.take_succ_cons] at hnext
    exact (ih (h.step a) hrest).trans (h.bytes?_of_effect (s.effect_step a) hfirst)

theorem mem_held_run (hheld : (holder, handle) ∈ s.held) {actions : List Action}
    (hnot : ∀ a ∈ actions, ¬ a.Touches holder) : (holder, handle) ∈ (s.run actions).held := by
  induction actions generalizing s with
  | nil => exact hheld
  | cons a actions ih =>
    have hnext := (s.effect_step a).mem_held (hnot a List.mem_cons_self) hheld
    exact ih hnext fun c hc => hnot c (List.mem_cons_of_mem a hc)

/-! ### Open graphs -/

theorem mem_held_program {name : String} :
    (.program name, handle) ∈ s.held ↔ (name, handle) ∈ s.graphs := by
  simp [held]

theorem mem_held_pointer {name : String} :
    (.pointer name, handle) ∈ s.held ↔ (name, handle) ∈ s.pointers := by
  simp [held]

theorem Safe.nodup_names (h : s.Safe) :
    (s.graphs.map Prod.fst).Nodup ∧ (s.pointers.map Prod.fst).Nodup := by
  have hholders := h.holders
  have hnames : s.held.map Prod.fst =
      (s.graphs.map Prod.fst).map .program ++ (s.pointers.map Prod.fst).map .pointer := by
    simp [held, Function.comp_def]
  rw [hnames, List.nodup_append] at hholders
  exact ⟨hholders.1.of_map, hholders.2.1.of_map⟩

theorem Safe.image?_eq_some_iff (h : s.Safe) : s.image? holder = some image ↔
    ∃ handle, (holder, handle) ∈ s.held ∧ handle.image = image := by
  have hanswers : ∀ handle, (holder, handle) ∈ s.held → s.store.image handle = handle.image :=
    fun handle hheld => h.serves.image_eq (List.mem_map_of_mem hheld)
  have hlookup : s.image? holder = some image ↔
      ∃ handle, (holder, handle) ∈ s.held ∧ s.store.image handle = image := by
    cases holder with
    | program name =>
      show (s.graphs.lookup name).map s.store.image = some image ↔ _
      simp only [Option.map_eq_some_iff, lookup_eq_some_iff_mem h.nodup_names.1, mem_held_program]
    | pointer name =>
      show (s.pointers.lookup name).map s.store.image = some image ↔ _
      simp only [Option.map_eq_some_iff, lookup_eq_some_iff_mem h.nodup_names.2, mem_held_pointer]
  rw [hlookup]
  refine exists_congr fun handle => and_congr_right fun hheld => ?_
  rw [hanswers handle hheld]

/-- **A graph stays with its holder**, and answers as it did, until a step touches it. -/
theorem Safe.image?_run (h : s.Safe) (hheld : (holder, handle) ∈ s.held) {actions : List Action}
    (hnot : ∀ a ∈ actions, ¬ a.Touches holder) :
    (s.run actions).image? holder = some handle.image :=
  (h.run actions).image?_eq_some_iff.mpr ⟨handle, mem_held_run hheld hnot, rfl⟩

theorem Safe.bytes?_run_of_held (h : s.Safe) (hheld : (holder, handle) ∈ s.held)
    {actions : List Action} (hnot : ∀ a ∈ actions, ¬ a.Touches holder) :
    (s.run actions).store.bytes? handle.location = s.store.bytes? handle.location := by
  refine h.bytes?_run actions fun n hn => ?_
  have hfew : ∀ a ∈ actions.take n, ¬ a.Touches holder :=
    fun a ha => hnot a (List.mem_of_mem_take ha)
  exact ⟨_, mem_held_run hheld hfew, rfl⟩

/-! ### Opening and writing -/

/-- **A graph file is opened**, whoever else has it open, if the system maps it. -/
theorem Safe.exists_openImage (h : s.Safe) (hl : s.store.lookUp path = .ok (location, .file file))
    (hp : Image.parse file.bytes = .ok image) :
    ∃ store, s.store.openImage path (.opened .done) = (.ok ⟨location, image⟩, store) ∧
      store.bytes? = s.store.bytes? := by
  have hshared := h.serves.tryShared? (Store.find?_of_lookUp hl)
  have hopen := Store.openImage_of_parse hl hshared hp
  have hbytes := s.store.bytes?_openImage path (.opened .done)
  rw [hopen] at hbytes
  exact ⟨_, hopen, hbytes⟩

theorem Safe.lock_eq_free_iff (h : s.Safe) (hc : s.store.claim path = .ok (location, file)) :
    file.lock = .free ↔ ¬ s.OpenOn location := by
  rw [openOn_iff, Nat.pos_iff_ne_zero, not_not]
  constructor
  · exact h.serves.readers_of_claim hc
  · intro hzero
    rcases Store.find?_of_claim hc with hfile | ⟨-, rfl⟩
    · rw [h.serves.locks location file hfile, hzero]
      rfl
    · rfl

/-- **Writing is barred** before it touches a file, with the fault that tells why: by the graph, by
the path, by the system that does not open the file, or by a graph that is open on it. -/
inductive Barred (s : Session) (path : String) (g : Graph) (o : Options) : Writing → Fault → Prop
  | graph {writing : Writing} {cause : Misuse} (unwritable : g.write o = .error cause) :
    Barred s path g o writing (.invalidArgument cause)
  | path {writing : Writing} {bytes : ByteArray} {refusal : Refusal}
    (writable : g.write o = .ok bytes) (refused : s.store.claim path = .error refusal) :
    Barred s path g o writing (.io ("failed to create graph file " ++ path) refusal.message)
  | system {complaint : String} {bytes : ByteArray} {location : Location} {file : File}
    (writable : g.write o = .ok bytes) (claimed : s.store.claim path = .ok (location, file)) :
    Barred s path g o (.unopened complaint) (.io ("failed to create graph file " ++ path) complaint)
  | busy {replacing : Replacing} {bytes : ByteArray} {location : Location} {file : File}
    (writable : g.write o = .ok bytes) (claimed : s.store.claim path = .ok (location, file))
    (opened : s.OpenOn location) :
    Barred s path g o (.opened replacing)
      (.io ("graph file " ++ path ++ " is open by another process") Refusal.unavailable.message)

/-- **Writing breaks off** in the file at a location, on which no graph is open: the system fails,
and `left` is what it leaves there. -/
inductive Broken (s : Session) (path : String) (g : Graph) (o : Options) :
    Writing → Fault → Location → ByteArray → Prop
  | intro {replacing : Replacing} {bytes left : ByteArray} {location : Location} {file : File}
    {complaint : String} (writable : g.write o = .ok bytes)
    (claimed : s.store.claim path = .ok (location, file)) (unopened : ¬ s.OpenOn location)
    (breaks : replacing.Breaks file.bytes bytes complaint left) :
    Broken s path g o (.opened replacing) (.io ("failed to write graph file " ++ path) complaint)
      location left

/-- Writing is barred, or it reaches a file on which no graph is open. -/
theorem barred_or_claimed (s : Session) (path : String) (g : Graph) (o : Options)
    (writing : Writing) : (∃ fault, s.Barred path g o writing fault) ∨
    ∃ replacing bytes location file, writing = .opened replacing ∧ g.write o = .ok bytes ∧
      s.store.claim path = .ok (location, file) ∧ ¬ s.OpenOn location := by
  cases hg : g.write o with
  | error cause => exact Or.inl ⟨_, .graph hg⟩
  | ok bytes =>
    rcases hclaim : s.store.claim path with refusal | ⟨location, file⟩
    · exact Or.inl ⟨_, .path hg hclaim⟩
    cases writing with
    | unopened complaint => exact Or.inl ⟨_, .system hg hclaim⟩
    | opened replacing =>
      by_cases hopen : s.OpenOn location
      · exact Or.inl ⟨_, .busy hg hclaim hopen⟩
      · exact Or.inr ⟨replacing, bytes, location, file, rfl, rfl, rfl, hopen⟩

/-! ### What a program may rely on -/

/-- **What holds after every run**: what a program may rely on from then on. -/
structure Reliable (s : Session) : Prop where
  /-- An open graph is that of its file. -/
  image : ∀ holder image, s.image? holder = some image → ∃ handle, (holder, handle) ∈ s.held ∧
    ∃ b, s.store.bytes? handle.location = some b ∧ Image.parse b = .ok image
  /-- While a graph is open on a file, the bytes of the file do not change. -/
  bytes : ∀ location later,
    (∀ n < later.length, (s.run (later.take n)).OpenOn location) →
      (s.run later).store.bytes? location = s.store.bytes? location
  /-- Exactly the graph files are opened, if the system maps them. -/
  opens : ∀ a opening, a.opens? = some opening → (s.admits a = true ↔
    opening.reading = .opened .done ∧ ∃ location file image,
      s.store.lookUp opening.path = .ok (location, .file file) ∧ Image.parse file.bytes = .ok image)
  /-- A graph that is opened answers by the bytes of that moment, and they stay in its file, until
  its holder closes it or opens another. -/
  opened : ∀ a opening location file image, a.opens? = some opening →
    opening.reading = .opened .done →
    s.store.lookUp opening.path = .ok (location, .file file) → Image.parse file.bytes = .ok image →
    ∀ later, (∀ c ∈ later, ¬ c.Touches opening.holder) →
      ((s.step a).run later).image? opening.holder = some image ∧
      ((s.step a).run later).store.bytes? location = some file.bytes
  /-- Opening that fails, for whatever reason, changes no file and no lock, and leaves the open
  graphs: whatever can be written or opened before can be written or opened afterwards. -/
  refused : ∀ a opening, a.opens? = some opening → s.admits a = false →
    (s.step a).store.Matches s.store ∧ (s.step a).held = s.held ∧
    (∀ path g o writing, ((s.step a).write path g o writing).1 = (s.write path g o writing).1) ∧
    ∀ c opening, c.opens? = some opening → (s.step a).admits c = s.admits c
  /-- Closing takes away the graph of the holder, and no other. -/
  closed : ∀ a holder, a.closes? = some holder →
    (s.step a).held = (s.held.filter fun entry => entry.1 ≠ holder) ∧
    (s.step a).store.bytes? = s.store.bytes?
  /-- A file that is no graph file is refused for its damage. -/
  corrupt : ∀ path name location file damage, s.store.lookUp path = .ok (location, .file file) →
    Image.parse file.bytes = .error damage →
    (s.openGraph path name (.opened .done)).1 = .error (.corrupt damage)
  /-- A graph is written exactly if it can be, to a path that permits it, on which no graph is
  open, and the system does it. -/
  writes : ∀ path g o writing, (∃ n, (s.write path g o writing).1 = .ok n) ↔
    writing = .opened .done ∧ (∃ bytes, g.write o = .ok bytes) ∧
    ∃ location file, s.store.claim path = .ok (location, file) ∧ ¬ s.OpenOn location
  /-- Writing fails only if it is barred, or breaks off. -/
  fails : ∀ path g o writing fault, (s.write path g o writing).1 = .error fault →
    s.Barred path g o writing fault ∨ ∃ location left, s.Broken path g o writing fault location left
  /-- A file on which a graph is open is not written to. -/
  busy : ∀ path g o writing bytes location file, g.write o = .ok bytes →
    s.store.lookUp path = .ok (location, .file file) → s.OpenOn location →
    ∃ context complaint, s.write path g o writing = (.error (.io context complaint), s)
  /-- Writing that is barred fails and changes nothing. -/
  unwritten : ∀ path g o writing fault, s.Barred path g o writing fault →
    s.write path g o writing = (.error fault, s)
  /-- Writing that breaks off fails. It changes no other file, and leaves its own file free. -/
  broken : ∀ path g o writing fault location left,
    s.Broken path g o writing fault location left → ∃ store,
      s.write path g o writing = (.error fault, { s with store }) ∧
      store.lookUp path = .ok (location, .file ⟨left, .free⟩) ∧
      ∀ other ≠ location, store.bytes? other = s.store.bytes? other
  /-- Writing that succeeds leaves exactly the bytes of the graph in the file, answers their number,
  changes no other file, and the file can be opened. -/
  written : ∀ path g o writing n, (s.write path g o writing).1 = .ok n → ∃ bytes location store,
    g.write o = .ok bytes ∧ s.write path g o writing = (.ok bytes.size, { s with store }) ∧
    n = bytes.size ∧ store.lookUp path = .ok (location, .file ⟨bytes, .free⟩) ∧
    store.bytes? location = some bytes ∧
    (∀ other ≠ location, store.bytes? other = s.store.bytes? other) ∧
    ∀ a opening, a.opens? = some opening → opening.path = path → opening.reading = .opened .done →
      ({ s with store } : Session).admits a = true

theorem Safe.admits_iff (h : s.Safe) {opening : Opening} (ho : a.opens? = some opening) :
    s.admits a = true ↔ opening.reading = .opened .done ∧ ∃ location file image,
      s.store.lookUp opening.path = .ok (location, .file file) ∧
      Image.parse file.bytes = .ok image := by
  rw [admits_eq ho]
  constructor
  · intro hadmits
    rcases s.store.openImage_cases opening.path opening.reading with ⟨fault, store, hopen, -⟩ |
      ⟨location, file, lock, image, hreading, hlookUp, -, hparse, -⟩
    · rw [hopen] at hadmits
      cases hadmits
    · exact ⟨hreading, location, file, image, hlookUp, hparse⟩
  · rintro ⟨hreading, location, file, image, hlookUp, hparse⟩
    obtain ⟨store, hopen, -⟩ := h.exists_openImage hlookUp hparse
    rw [hreading, hopen]
    rfl

section

variable {opening : Opening} (h : s.Safe) (ho : a.opens? = some opening)
  (hr : opening.reading = .opened .done)
  (hl : s.store.lookUp opening.path = .ok (location, .file file))
  (hp : Image.parse file.bytes = .ok image)
include h ho hr hl hp

theorem Safe.mem_held_of_opens : (opening.holder, ⟨location, image⟩) ∈ (s.step a).held := by
  obtain ⟨store, hopen, -⟩ := h.exists_openImage hl hp
  rw [← hr] at hopen
  obtain ⟨left, -, hheld⟩ := step_of_opens_ok ho hopen
  exact hheld.mem_iff.mpr List.mem_cons_self

theorem Safe.bytes?_of_opens : (s.step a).store.bytes? location = some file.bytes := by
  obtain ⟨store, hopen, hbytes⟩ := h.exists_openImage hl hp
  rw [← hr] at hopen
  obtain ⟨left, hfreed, -⟩ := step_of_opens_ok ho hopen
  rw [hfreed.bytes?, hbytes]
  exact Store.bytes?_eq_some_iff.mpr ⟨file, Store.find?_of_lookUp hl, rfl⟩

end

section

variable {g : Graph} {o : Options} {writing : Writing} {replacing : Replacing} {fault : Fault}
  {bytes left : ByteArray}

theorem write_eq_of_store {answer : Except Fault Nat} {store : Store}
    (h : s.store.write path g o writing = (answer, store)) :
    s.write path g o writing = (answer, { s with store }) := by
  unfold write
  rw [h]

theorem Safe.write_of_barred (h : s.Safe) (hbarred : s.Barred path g o writing fault) :
    s.write path g o writing = (.error fault, s) := by
  cases hbarred with
  | graph unwritable => exact write_eq_of_store (Store.write_of_misuse unwritable)
  | path writable refused => exact write_eq_of_store (Store.write_of_refusal writable refused)
  | system writable claimed => exact write_eq_of_store (Store.write_unopened writable claimed _)
  | busy writable claimed opened =>
    have hlock := mt (h.lock_eq_free_iff claimed).mp (not_not_intro opened)
    exact write_eq_of_store (Store.write_of_not_free writable claimed hlock)

theorem Safe.write_of_broken (h : s.Safe) (hbroken : s.Broken path g o writing fault location left) :
    s.write path g o writing = (.error fault,
      { s with store := s.store.insert location (.file ⟨left, .free⟩) }) ∧
    ∃ file, s.store.claim path = .ok (location, file) := by
  cases hbroken with
  | intro writable claimed unopened breaks =>
    have hfree := (h.lock_eq_free_iff claimed).mpr unopened
    exact ⟨write_eq_of_store (Store.write_of_breaks writable claimed hfree breaks), _, claimed⟩

theorem Safe.write_done (h : s.Safe) (hg : g.write o = .ok bytes)
    (hc : s.store.claim path = .ok (location, file)) (hnot : ¬ s.OpenOn location) :
    s.write path g o (.opened .done) = (.ok bytes.size,
      { s with store := s.store.insert location (.file ⟨bytes, .free⟩) }) :=
  write_eq_of_store (Store.write_done hg hc ((h.lock_eq_free_iff hc).mpr hnot))

/-- **Writing is barred, breaks off, or is done.** -/
theorem Safe.write_trichotomy (h : s.Safe) (path : String) (g : Graph) (o : Options)
    (writing : Writing) :
    (∃ fault, s.Barred path g o writing fault ∧ s.write path g o writing = (.error fault, s)) ∨
    (∃ fault location left store, s.Broken path g o writing fault location left ∧
      s.write path g o writing = (.error fault, { s with store })) ∨
    ∃ bytes location file, writing = .opened .done ∧ g.write o = .ok bytes ∧
      s.store.claim path = .ok (location, file) ∧ ¬ s.OpenOn location ∧
      s.write path g o writing = (.ok bytes.size,
        { s with store := s.store.insert location (.file ⟨bytes, .free⟩) }) := by
  rcases s.barred_or_claimed path g o writing with ⟨fault, hbarred⟩ |
    ⟨replacing, bytes, location, file, rfl, hg, hclaim, hnot⟩
  · exact Or.inl ⟨fault, hbarred, h.write_of_barred hbarred⟩
  rcases replacing.eq_done_or_breaks file.bytes bytes with rfl | ⟨complaint, left, hbreaks⟩
  · exact Or.inr (Or.inr ⟨bytes, location, file, rfl, hg, hclaim, hnot, h.write_done hg hclaim hnot⟩)
  · have hbroken := Broken.intro hg hclaim hnot hbreaks
    exact Or.inr (Or.inl ⟨_, location, left, _, hbroken, (h.write_of_broken hbroken).1⟩)

theorem Safe.write_ok_iff (h : s.Safe) (path : String) (g : Graph) (o : Options)
    (writing : Writing) : (∃ n, (s.write path g o writing).1 = .ok n) ↔
      writing = .opened .done ∧ (∃ bytes, g.write o = .ok bytes) ∧
      ∃ location file, s.store.claim path = .ok (location, file) ∧ ¬ s.OpenOn location := by
  constructor
  · rintro ⟨n, hn⟩
    rcases h.write_trichotomy path g o writing with ⟨fault, -, hwrite⟩ |
      ⟨fault, location, left, store, -, hwrite⟩ |
      ⟨bytes, location, file, hwriting, hg, hclaim, hnot, -⟩
    · rw [hwrite] at hn
      cases hn
    · rw [hwrite] at hn
      cases hn
    · exact ⟨hwriting, ⟨bytes, hg⟩, location, file, hclaim, hnot⟩
  · rintro ⟨rfl, ⟨bytes, hg⟩, location, file, hclaim, hnot⟩
    rw [h.write_done hg hclaim hnot]
    exact ⟨_, rfl⟩

end

theorem Safe.reliable (h : s.Safe) : s.Reliable where
  image holder image himage := by
    obtain ⟨handle, hheld, rfl⟩ := h.image?_eq_some_iff.mp himage
    exact ⟨handle, hheld, h.serves.held handle (List.mem_map_of_mem hheld)⟩
  bytes location later := h.bytes?_run later
  opens a opening := h.admits_iff
  opened a opening location file image ho hr hl hp later hnot := by
    have hheld := h.mem_held_of_opens ho hr hl hp
    refine ⟨(h.step a).image?_run hheld hnot, ?_⟩
    exact ((h.step a).bytes?_run_of_held hheld hnot).trans (h.bytes?_of_opens ho hr hl hp)
  refused a opening ho hfails := by
    rw [admits_eq ho] at hfails
    rcases s.store.openImage_cases opening.path opening.reading with
      ⟨fault, store, hopen, hmatches⟩ | ⟨location, file, lock, image, -, -, -, -, hopen⟩
    · obtain ⟨hstore, hheld⟩ := step_of_opens_error ho hopen
      rw [← hstore] at hmatches
      refine ⟨hmatches, hheld, Store.fst_write_congr hmatches, fun c other hc => ?_⟩
      rw [admits_eq hc, admits_eq hc, Store.fst_openImage_congr hmatches]
    · rw [hopen] at hfails
      cases hfails
  closed a holder hcloses := by
    have hfreed := s.freed_step hcloses
    exact ⟨hfreed.left, hfreed.bytes?⟩
  corrupt path name location file damage hl hp := by
    have hshared := h.serves.tryShared? (Store.find?_of_lookUp hl)
    have hdamage := Store.openImage_of_damage hl hshared hp
    unfold openGraph
    cases hopen : s.store.openImage path (.opened .done) with
    | mk answer store =>
      rw [hopen] at hdamage
      dsimp only at hdamage
      rw [hdamage]
  writes := h.write_ok_iff
  fails path g o writing fault hfails := by
    rcases h.write_trichotomy path g o writing with ⟨cause, hbarred, hwrite⟩ |
      ⟨cause, location, left, store, hbroken, hwrite⟩ | ⟨bytes, location, file, -, -, -, -, hwrite⟩
    all_goals
      rw [hwrite] at hfails
      cases hfails
    · exact Or.inl hbarred
    · exact Or.inr ⟨location, left, hbroken⟩
  busy path g o writing bytes location file hg hl ho := by
    have hclaim := Store.claim_of_lookUp hl
    cases writing with
    | unopened complaint => exact ⟨_, _, h.write_of_barred (.system hg hclaim)⟩
    | opened replacing => exact ⟨_, _, h.write_of_barred (.busy hg hclaim ho)⟩
  unwritten path g o writing fault := h.write_of_barred
  broken path g o writing fault location left hbroken := by
    obtain ⟨hwrite, file, hclaim⟩ := h.write_of_broken hbroken
    refine ⟨_, hwrite, Store.lookUp_insert_of_claim hclaim _, fun other hne => ?_⟩
    rw [Store.bytes?_insert_file (Store.ne_directory_of_claim hclaim), if_neg hne]
  written path g o writing n hn := by
    obtain ⟨rfl, ⟨bytes, hg⟩, location, file, hclaim, hnot⟩ :=
      (h.write_ok_iff path g o writing).mp ⟨n, hn⟩
    have hwrite := h.write_done hg hclaim hnot
    have hdirectory := Store.ne_directory_of_claim hclaim
    have hlookUp := Store.lookUp_insert_of_claim hclaim ⟨bytes, .free⟩
    rw [hwrite] at hn
    refine ⟨bytes, location, _, hg, hwrite, (Except.ok.inj hn).symm, hlookUp, ?_,
      fun other hne => ?_, fun a opening ho hpath hreading => ?_⟩
    · rw [Store.bytes?_insert_file hdirectory, if_pos rfl]
    · rw [Store.bytes?_insert_file hdirectory, if_neg hne]
    · obtain ⟨image, himage⟩ := Graph.exists_parse_of_write hg
      have hsafe := h.step (.write path g o (.opened .done))
      have hstep : s.step (.write path g o (.opened .done)) =
          { s with store := s.store.insert location (.file ⟨bytes, .free⟩) } :=
        congrArg Prod.snd hwrite
      rw [hstep] at hsafe
      rw [← hpath] at hlookUp
      exact (hsafe.admits_iff ho).mpr ⟨hreading, location, _, image, hlookUp, himage⟩

/-- **After every run** that starts with no open graph and no lock, whatever the files hold and
whatever the system answers, a program may rely on its open graphs and on its writes. -/
theorem reliable_run (h : s.Fresh) (actions : List Action) : (s.run actions).Reliable :=
  (h.safe.run actions).reliable

theorem fresh_empty : ({} : Session).Fresh where
  graphs := rfl
  pointers := rfl
  locks location file hfile := by
    have hfind : ({} : Session).store.find? location =
        if location.isPrefixOf ["", ""] then some .directory else none := rfl
    rw [hfind] at hfile
    split_ifs at hfile
    cases hfile

theorem run_append (s : Session) (before after : List Action) :
    s.run (before ++ after) = (s.run before).run after := List.foldl_append

/-- A disk that is full breaks off the first writing, the second one is done, and a third finds the
graph open. -/
theorem reliable_run_sample : ∃ bytes image s,
    s = ({} : Session).run
      [.write "f" Graph.sample Options.sample (.opened (.partly 9 "No space")),
        .write "f" Graph.sample Options.sample (.opened .done),
        .openGraph "f" "g" (.opened .done)] ∧
    Graph.sample.write Options.sample = .ok bytes ∧ Image.parse bytes = .ok image ∧
    (({} : Session).write "f" Graph.sample Options.sample (.opened (.partly 9 "No space"))).1 =
      .error (.io ("failed to write graph file " ++ "f") "No space") ∧
    s.image? (.program "g") = some image ∧
    (s.write "f" Graph.sample Options.sample (.opened .done)).1 =
      .error (.io ("graph file " ++ "f" ++ " is open by another process")
        Refusal.unavailable.message) := by
  obtain ⟨bytes, hbytes⟩ := Graph.exists_write_sample
  obtain ⟨image, himage⟩ := Graph.exists_parse_of_write hbytes
  have hclaim : ({} : Session).store.claim "f" =
      .ok (["", "", "f"], ⟨ByteArray.empty, .free⟩) := by cbv
  have hnone : ∀ {store location}, ¬ ({ store } : Session).OpenOn location := by
    rintro store location ⟨entry, hentry, -⟩
    cases hentry
  have hstart : ({} : Session).Reliable := reliable_run fresh_empty []
  obtain ⟨spoiled, hspoiled, hleft, -⟩ := hstart.broken "f" Graph.sample Options.sample _ _ _ _
    (.intro hbytes hclaim hnone (.partly 9 "No space"))
  -- the file that is spoiled is written again
  have hfirst : ({} : Session).run
      [.write "f" Graph.sample Options.sample (.opened (.partly 9 "No space"))] =
        { store := spoiled } := congrArg Prod.snd hspoiled
  have hagain : ({ store := spoiled } : Session).Reliable := by
    rw [← hfirst]
    exact reliable_run fresh_empty _
  obtain ⟨n, hn⟩ := (hagain.writes "f" Graph.sample Options.sample (.opened .done)).mpr
    ⟨rfl, ⟨bytes, hbytes⟩, _, _, Store.claim_of_lookUp hleft, hnone⟩
  obtain ⟨written, location, whole, hwritten, hwhole, -, hlookUp, -⟩ :=
    hagain.written _ _ _ _ _ hn
  obtain rfl : bytes = written := Except.ok.inj (hbytes.symm.trans hwritten)
  have hopen := Store.openImage_of_parse hlookUp rfl himage
  have hrun : ({} : Session).run
      [.write "f" Graph.sample Options.sample (.opened (.partly 9 "No space")),
        .write "f" Graph.sample Options.sample (.opened .done),
        .openGraph "f" "g" (.opened .done)] =
      { store := whole.insert location (.file ⟨bytes, .shared 0⟩),
        graphs := [("g", ⟨location, image⟩)] } := by
    refine (run_append _ [_] [_, _]).trans ?_
    rw [hfirst]
    refine (run_append _ [_] [_]).trans ?_
    have hsecond : ({ store := spoiled } : Session).run
        [.write "f" Graph.sample Options.sample (.opened .done)] = { store := whole } :=
      congrArg Prod.snd hwhole
    rw [hsecond]
    show (({ store := whole } : Session).openGraph "f" "g" (.opened .done)).2 = _
    unfold openGraph
    rw [hopen]
    rfl
  have hsafe := fresh_empty.safe.run
    [.write "f" Graph.sample Options.sample (.opened (.partly 9 "No space")),
      .write "f" Graph.sample Options.sample (.opened .done), .openGraph "f" "g" (.opened .done)]
  have hlast := reliable_run fresh_empty
    [.write "f" Graph.sample Options.sample (.opened (.partly 9 "No space")),
      .write "f" Graph.sample Options.sample (.opened .done), .openGraph "f" "g" (.opened .done)]
  rw [hrun] at hsafe hlast
  have hreads := Store.lookUp_insert_of_claim (Store.claim_of_lookUp hlookUp) ⟨bytes, .shared 0⟩
  have hbusy := hlast.unwritten "f" Graph.sample Options.sample (.opened .done) _
    (.busy hbytes (Store.claim_of_lookUp hreads) ⟨_, List.mem_cons_self, rfl⟩)
  exact ⟨bytes, image, _, hrun.symm, hbytes, himage, congrArg Prod.fst hspoiled,
    hsafe.image?_eq_some_iff.mpr ⟨_, List.mem_cons_self, rfl⟩, congrArg Prod.fst hbusy⟩

end Session

end FlatGraph
