import FlatGraph.Proofs.Session.Directory
import FlatGraph.Session.Store

/-! # Locks and open graph files

A store serves some open graphs if the lock of every file counts the graphs that are open on it, and
every open graph is what its file holds. Opening, closing and writing keep to this: a graph is only
written to a file on which no graph is open.

* `Replacing.Breaks`: what is left in a file when the system fails.
* `Store.openImage_cases`, `Store.write_cases`: what opening and writing do.
* `Store.Serves`, with `Store.Serves.openImage`, `Store.Serves.close`, `Store.Serves.write` and
  `Store.Serves.image_eq`: an open graph answers as it did when it was opened. -/

namespace FlatGraph

/-! ### Locks that are shared -/

/-- The lock of a file with some readers. -/
def Lock.heldBy : Nat → Lock
  | 0 => .free
  | others + 1 => .shared others

namespace Lock

theorem tryShared?_heldBy (readers : Nat) :
    (heldBy readers).tryShared? = some (heldBy (readers + 1)) := by
  cases readers <;> rfl

theorem release_heldBy (readers : Nat) : (heldBy (readers + 1)).release = heldBy readers := by
  cases readers <;> rfl

theorem heldBy_eq_free_iff {readers : Nat} : heldBy readers = .free ↔ readers = 0 := by
  cases readers <;> simp [heldBy]

theorem tryExclusive?_eq_none_iff {lock : Lock} : lock.tryExclusive? = none ↔ lock ≠ .free := by
  cases lock <;> simp [tryExclusive?]

end Lock

/-! ### Contents -/

theorem Bytes.resize_zero (b : ByteArray) : resize b 0 = ByteArray.empty := by
  unfold resize
  rw [Nat.zero_sub]
  exact ByteArray.extract_same

/-- What is left in a file if the system complains while the bytes are replaced: those from before,
the new ones as far as they came, or all the new ones. -/
inductive Replacing.Breaks (before bytes : ByteArray) : Replacing → String → ByteArray → Prop
  | uncut (complaint : String) : Breaks before bytes (.uncut complaint) complaint before
  | partly (count : Nat) (complaint : String) :
    Breaks before bytes (.partly count complaint) complaint (bytes.extract 0 count)
  | unsynced (complaint : String) : Breaks before bytes (.unsynced complaint) complaint bytes

theorem Replacing.eq_done_or_breaks (replacing : Replacing) (before bytes : ByteArray) :
    replacing = .done ∨ ∃ complaint left, replacing.Breaks before bytes complaint left := by
  cases replacing with
  | uncut complaint => exact Or.inr ⟨_, _, .uncut complaint⟩
  | partly count complaint => exact Or.inr ⟨_, _, .partly count complaint⟩
  | unsynced complaint => exact Or.inr ⟨_, _, .unsynced complaint⟩
  | done => exact Or.inl rfl

namespace File

/-- Nothing of the former contents is left, however long they were. -/
theorem writeFront_cut (file : File) (bytes : ByteArray) :
    (replace.cut file).writeFront bytes = { file with bytes } := by
  have hcut : (Bytes.resize file.bytes 0).extract bytes.size (Bytes.resize file.bytes 0).size =
      ByteArray.empty := by
    rw [Bytes.resize_zero]
    exact ByteArray.extract_eq_empty_iff.mpr (Nat.zero_le _)
  unfold writeFront replace.cut
  dsimp only
  rw [hcut, ByteArray.append_empty]

theorem replace_done (file : File) (bytes : ByteArray) :
    file.replace bytes .done = (.ok (), { file with bytes }) := by
  show (_, (replace.cut file).writeFront bytes) = _
  rw [writeFront_cut]

theorem replace_of_breaks {file : File} {bytes left : ByteArray} {replacing : Replacing}
    {complaint : String} (h : replacing.Breaks file.bytes bytes complaint left) :
    file.replace bytes replacing = (.error complaint, { file with bytes := left }) := by
  cases h with
  | uncut => rfl
  | partly count =>
    show (_, (replace.cut file).writeFront (bytes.extract 0 count)) = _
    rw [writeFront_cut]
  | unsynced =>
    show (_, (replace.cut file).writeFront bytes) = _
    rw [writeFront_cut]

end File

namespace Store

/-- The bytes of the file at a location. -/
def bytes? (s : Store) (location : Location) : Option ByteArray :=
  match s.find? location with
  | some (.file file) => some file.bytes
  | _ => none

variable {s t : Store} {path : String} {location : Location} {file : File} {held : Lock}
  {handle : Handle} {handles others : List Handle} {image : Image}

theorem bytes?_eq_some_iff {b : ByteArray} : s.bytes? location = some b ↔
    ∃ file, s.find? location = some (.file file) ∧ file.bytes = b := by
  unfold bytes?
  split
  · next file hfound => simp [hfound]
  · next hnone =>
    simp only [reduceCtorEq, false_iff]
    rintro ⟨file, hfound, -⟩
    exact hnone file hfound

theorem bytes?_congr (h : t.find? = s.find?) : t.bytes? = s.bytes? := by
  funext location
  unfold bytes?
  rw [h]

theorem bytes?_insert_lock (h : s.find? location = some (.file file)) (held : Lock)
    (other : Location) :
    (s.insert location (.file { file with lock := held })).bytes? other = s.bytes? other := by
  have hdirectory : s.find? location ≠ some .directory := by simp [h]
  unfold bytes?
  rw [find?_insert_of_ne_directory hdirectory]
  split_ifs with hother
  · rw [hother, h]
  · rfl

theorem bytes?_insert_file (h : s.find? location ≠ some .directory) (written : File)
    (other : Location) : (s.insert location (.file written)).bytes? other =
      if other = location then some written.bytes else s.bytes? other := by
  unfold bytes?
  rw [find?_insert_of_ne_directory h]
  split_ifs <;> rfl

/-! ### Opening, closing and writing -/

theorem mapFile_done (path : String) (b : ByteArray) :
    mapFile path b .done = (Image.parse b).mapError .corrupt := by
  unfold mapFile checkSize
  by_cases hsize : b.size < preambleSize
  · have hparse : Image.parse b = .error (.truncated b.size preambleSize) := if_pos hsize
    rw [hparse, if_pos hsize]
    rfl
  · rw [if_neg hsize]
    rfl

theorem mapFile_eq_ok_iff {b : ByteArray} {mapping : Mapping} :
    mapFile path b mapping = .ok image ↔ mapping = .done ∧ Image.parse b = .ok image := by
  cases mapping with
  | unmeasured complaint => simp [mapFile]
  | unmapped complaint =>
    unfold mapFile checkSize
    split_ifs <;> simp [bind, Except.bind]
  | done =>
    rw [mapFile_done]
    cases Image.parse b <;> simp [Except.mapError]

theorem openImage_of_parse (h : s.lookUp path = .ok (location, .file file))
    (hl : file.lock.tryShared? = some held) (hp : Image.parse file.bytes = .ok image) :
    s.openImage path (.opened .done) =
      (.ok ⟨location, image⟩, s.insert location (.file { file with lock := held })) := by
  have hmap : mapFile path file.bytes .done = .ok image := mapFile_eq_ok_iff.mpr ⟨rfl, hp⟩
  unfold openImage
  rw [h]
  dsimp only
  rw [hl]
  dsimp only
  rw [hmap]

theorem openImage_of_damage (h : s.lookUp path = .ok (location, .file file))
    (hl : file.lock.tryShared? = some held) {damage : Damage}
    (hp : Image.parse file.bytes = .error damage) :
    (s.openImage path (.opened .done)).1 = .error (.corrupt damage) := by
  have hmap : mapFile path file.bytes .done = .error (.corrupt damage) := by
    rw [mapFile_done, hp]
    rfl
  unfold openImage
  rw [h]
  dsimp only
  rw [hl]
  dsimp only
  rw [hmap]

/-- Opening fails, and then there is at each location what was there, or the file is a graph file
and gets one reader more. -/
theorem openImage_cases (s : Store) (path : String) (reading : Reading) :
    (∃ fault t, s.openImage path reading = (.error fault, t) ∧ t.Matches s) ∨
    ∃ location file held image, reading = .opened .done ∧
      s.lookUp path = .ok (location, .file file) ∧ file.lock.tryShared? = some held ∧
      Image.parse file.bytes = .ok image ∧ s.openImage path reading =
        (.ok ⟨location, image⟩, s.insert location (.file { file with lock := held })) := by
  unfold openImage
  rcases hlookUp : s.lookUp path with refusal | ⟨location, entry⟩
  · exact Or.inl ⟨_, _, rfl, .refl s⟩
  cases reading with
  | unopened complaint => exact Or.inl ⟨_, _, rfl, .refl s⟩
  | opened mapping =>
    cases entry with
    | directory => exact Or.inl ⟨_, _, rfl, .refl s⟩
    | file file =>
      dsimp only
      cases hshared : file.lock.tryShared? with
      | none => exact Or.inl ⟨_, _, rfl, .refl s⟩
      | some held =>
        dsimp only
        cases hmap : mapFile path file.bytes mapping with
        | error cause =>
          have hfind := find?_of_lookUp hlookUp
          refine Or.inl ⟨_, _, rfl, rfl, funext fun other => ?_⟩
          -- the lock was taken and is given back
          rw [find?_insert_of_ne_directory (by simp [hfind]), Lock.release_of_tryShared hshared]
          split_ifs with hother
          · rw [hother, hfind]
          · rfl
        | ok image =>
          obtain ⟨rfl, hparse⟩ := mapFile_eq_ok_iff.mp hmap
          exact Or.inr ⟨location, file, held, image, rfl, rfl, hshared, hparse, rfl⟩

theorem fst_openImage_congr (h : t.Matches s) (path : String) (reading : Reading) :
    (t.openImage path reading).1 = (s.openImage path reading).1 := by
  unfold openImage
  rw [lookUp_congr h]
  rcases s.lookUp path with refusal | ⟨location, file | _⟩
  · rfl
  · cases reading with
    | unopened complaint => rfl
    | opened mapping =>
      dsimp only
      cases file.lock.tryShared? with
      | none => rfl
      | some held =>
        dsimp only
        cases mapFile path file.bytes mapping <;> rfl
  · cases reading <;> rfl

section

variable {g : Graph} {o : Options} {bytes : ByteArray} {writing : Writing} {replacing : Replacing}

theorem write_of_misuse {cause : Misuse} (hg : g.write o = .error cause) :
    s.write path g o writing = (.error (.invalidArgument cause), s) := by
  unfold write
  rw [hg]

theorem write_of_refusal (hg : g.write o = .ok bytes) {refusal : Refusal}
    (hc : s.claim path = .error refusal) : s.write path g o writing =
      (.error (fault "failed to create graph file " path refusal), s) := by
  unfold write
  rw [hg]
  dsimp only
  rw [hc]

theorem write_unopened (hg : g.write o = .ok bytes) (hc : s.claim path = .ok (location, file))
    (complaint : String) : s.write path g o (.unopened complaint) =
      (.error (.io ("failed to create graph file " ++ path) complaint), s) := by
  unfold write
  rw [hg]
  dsimp only
  rw [hc]

theorem write_of_not_free (hg : g.write o = .ok bytes) (hc : s.claim path = .ok (location, file))
    (hl : file.lock ≠ .free) : s.write path g o (.opened replacing) =
      (.error (.io ("graph file " ++ path ++ " is open by another process")
        Refusal.unavailable.message), s) := by
  unfold write
  rw [hg]
  dsimp only
  rw [hc]
  dsimp only
  rw [Lock.tryExclusive?_eq_none_iff.mpr hl]

/-- A file that is free is free again when its bytes have been replaced, however far. -/
theorem write_of_free (hg : g.write o = .ok bytes) (hc : s.claim path = .ok (location, file))
    (hl : file.lock = .free) {answer : Except String Unit} {left : ByteArray}
    (hr : File.replace { file with lock := .exclusive } bytes replacing =
      (answer, ⟨left, .exclusive⟩)) :
    s.write path g o (.opened replacing) =
      ((answer.mapError (Fault.io ("failed to write graph file " ++ path))).map fun _ => bytes.size,
        s.insert location (.file ⟨left, .free⟩)) := by
  have hexclusive : file.lock.tryExclusive? = some .exclusive := by rw [hl]; rfl
  unfold write
  rw [hg]
  dsimp only
  rw [hc]
  dsimp only
  rw [hexclusive]
  dsimp only
  rw [hr]
  dsimp only
  rw [Lock.release_of_tryExclusive hexclusive, hl]
  cases answer <;> rfl

theorem write_done (hg : g.write o = .ok bytes) (hc : s.claim path = .ok (location, file))
    (hl : file.lock = .free) : s.write path g o (.opened .done) =
      (.ok bytes.size, s.insert location (.file ⟨bytes, .free⟩)) :=
  write_of_free hg hc hl (File.replace_done _ bytes)

theorem write_of_breaks {complaint : String} {left : ByteArray} (hg : g.write o = .ok bytes)
    (hc : s.claim path = .ok (location, file)) (hl : file.lock = .free)
    (hb : replacing.Breaks file.bytes bytes complaint left) :
    s.write path g o (.opened replacing) =
      (.error (.io ("failed to write graph file " ++ path) complaint),
        s.insert location (.file ⟨left, .free⟩)) :=
  write_of_free hg hc hl (File.replace_of_breaks hb)

/-- Writing fails and changes nothing, or the file was free and is written to. -/
theorem write_cases (s : Store) (path : String) (g : Graph) (o : Options) (writing : Writing) :
    (∃ fault, s.write path g o writing = (.error fault, s)) ∨
    ∃ bytes location file replacing, writing = .opened replacing ∧ g.write o = .ok bytes ∧
      s.claim path = .ok (location, file) ∧ file.lock = .free := by
  cases hwrite : g.write o with
  | error cause => exact Or.inl ⟨_, write_of_misuse hwrite⟩
  | ok bytes =>
    rcases hclaim : s.claim path with refusal | ⟨location, file⟩
    · exact Or.inl ⟨_, write_of_refusal hwrite hclaim⟩
    cases writing with
    | unopened complaint => exact Or.inl ⟨_, write_unopened hwrite hclaim complaint⟩
    | opened replacing =>
      by_cases hfree : file.lock = .free
      · exact Or.inr ⟨bytes, location, file, replacing, rfl, rfl, rfl, hfree⟩
      · exact Or.inl ⟨_, write_of_not_free hwrite hclaim hfree⟩

theorem fst_write_congr (h : t.Matches s) (path : String) (g : Graph) (o : Options)
    (writing : Writing) : (t.write path g o writing).1 = (s.write path g o writing).1 := by
  unfold write
  rw [claim_congr h]
  cases g.write o with
  | error cause => rfl
  | ok bytes =>
    rcases s.claim path with refusal | ⟨location, file⟩
    · rfl
    cases writing with
    | unopened complaint => rfl
    | opened replacing =>
      dsimp only
      cases file.lock.tryExclusive? with
      | none => rfl
      | some held =>
        dsimp only
        rcases File.replace { file with lock := held } bytes replacing with
          ⟨complaint | _, written⟩ <;> rfl

end

theorem bytes?_openImage (s : Store) (path : String) (reading : Reading) :
    (s.openImage path reading).2.bytes? = s.bytes? := by
  rcases s.openImage_cases path reading with ⟨fault, t, hopen, hmatches⟩ |
    ⟨location, file, held, image, -, hlookUp, -, -, hopen⟩
  · rw [hopen]
    exact bytes?_congr hmatches.find?
  · rw [hopen]
    exact funext fun other => bytes?_insert_lock (find?_of_lookUp hlookUp) held other

theorem bytes?_close (s : Store) (handle : Handle) : (s.close handle).bytes? = s.bytes? := by
  unfold close
  split
  · next file hfind => exact funext fun other => bytes?_insert_lock hfind _ other
  · rfl

/-! ### Open graphs -/

/-- The number of graphs that are open on the file at a location. -/
def readers (handles : List Handle) (location : Location) : Nat :=
  handles.countP fun handle => handle.location = location

/-- **The store serves the open graphs**: the lock of each file counts its readers, and each graph
is what its file holds. -/
structure Serves (s : Store) (handles : List Handle) : Prop where
  locks : ∀ location file, s.find? location = some (.file file) →
    file.lock = Lock.heldBy (readers handles location)
  held : ∀ handle ∈ handles, ∃ b, s.bytes? handle.location = some b ∧
    Image.parse b = .ok handle.image

theorem readers_cons (handle : Handle) (handles : List Handle) (location : Location) :
    readers (handle :: handles) location =
      readers handles location + if handle.location = location then 1 else 0 := by
  unfold readers
  rw [List.countP_cons]
  simp

theorem readers_pos_iff : 0 < readers handles location ↔
    ∃ handle ∈ handles, handle.location = location := by
  unfold readers
  simp [List.countP_pos_iff]

namespace Serves

theorem perm (h : s.Serves handles) (hp : handles.Perm others) : s.Serves others where
  locks location file hfile := by
    have hcount : readers others location = readers handles location := (hp.countP_eq _).symm
    rw [hcount]
    exact h.locks location file hfile
  held handle hhandle := h.held handle (hp.mem_iff.mpr hhandle)

theorem congr (h : s.Serves handles) (ht : t.find? = s.find?) : t.Serves handles where
  locks location file hfile := by
    rw [ht] at hfile
    exact h.locks location file hfile
  held handle hhandle := by
    rw [bytes?_congr ht]
    exact h.held handle hhandle

theorem tryShared? (h : s.Serves handles) (hfile : s.find? location = some (.file file)) :
    file.lock.tryShared? = some (Lock.heldBy (readers handles location + 1)) := by
  rw [h.locks location file hfile, Lock.tryShared?_heldBy]

theorem lock_ne_free (h : s.Serves handles) (hhandle : handle ∈ handles)
    (hfile : s.find? handle.location = some (.file file)) : file.lock ≠ .free := by
  have hpos : 0 < readers handles handle.location := readers_pos_iff.mpr ⟨handle, hhandle, rfl⟩
  rw [h.locks _ file hfile]
  intro hfree
  have hzero := Lock.heldBy_eq_free_iff.mp hfree
  omega

/-- **Opening a graph file** adds its graph. -/
theorem openImage (h : s.Serves handles) (hfile : s.find? location = some (.file file))
    (hl : file.lock.tryShared? = some held) (hp : Image.parse file.bytes = .ok image) :
    (s.insert location (.file { file with lock := held })).Serves (⟨location, image⟩ :: handles)
    where
  locks other found hfound := by
    have hdirectory : s.find? location ≠ some .directory := by simp [hfile]
    rw [find?_insert_of_ne_directory hdirectory] at hfound
    rw [readers_cons]
    split_ifs at hfound with hother
    · subst hother
      cases hfound
      rw [h.tryShared? hfile] at hl
      rw [if_pos rfl]
      exact (Option.some.inj hl).symm
    · rw [if_neg (Ne.symm hother)]
      exact h.locks other found hfound
  held opened hopened := by
    rw [bytes?_insert_lock hfile]
    rcases List.mem_cons.mp hopened with rfl | hopened
    · exact ⟨file.bytes, bytes?_eq_some_iff.mpr ⟨file, hfile, rfl⟩, hp⟩
    · exact h.held opened hopened

/-- **Closing a graph file** takes its graph away. -/
theorem close (h : s.Serves (handle :: handles)) : (s.close handle).Serves handles where
  locks other found hfound := by
    obtain ⟨b, hb, -⟩ := h.held handle List.mem_cons_self
    obtain ⟨file, hfile, -⟩ := bytes?_eq_some_iff.mp hb
    have hdirectory : s.find? handle.location ≠ some .directory := by simp [hfile]
    unfold Store.close at hfound
    rw [hfile] at hfound
    dsimp only at hfound
    rw [find?_insert_of_ne_directory hdirectory] at hfound
    split_ifs at hfound with hother
    · subst hother
      cases hfound
      have hlock := h.locks _ file hfile
      rw [readers_cons, if_pos rfl] at hlock
      dsimp only
      rw [hlock, Lock.release_heldBy]
    · have hlock := h.locks other found hfound
      rw [readers_cons, if_neg (Ne.symm hother), Nat.add_zero] at hlock
      exact hlock
  held opened hopened := by
    rw [bytes?_close]
    exact h.held opened (List.mem_cons_of_mem handle hopened)

theorem readers_of_claim (h : s.Serves handles) (hc : s.claim path = .ok (location, file))
    (hl : file.lock = .free) : readers handles location = 0 := by
  by_contra hne
  obtain ⟨handle, hhandle, rfl⟩ := readers_pos_iff.mp (Nat.pos_of_ne_zero hne)
  obtain ⟨b, hb, -⟩ := h.held handle hhandle
  obtain ⟨found, hfound, -⟩ := bytes?_eq_some_iff.mp hb
  rcases find?_of_claim hc with hfile | ⟨hnone, -⟩
  · exact h.lock_ne_free hhandle hfile hl
  · rw [hnone] at hfound
    cases hfound

/-- **Writing to a free file** leaves the open graphs, none of which is on that file. -/
theorem write (h : s.Serves handles) (hc : s.claim path = .ok (location, file))
    (hl : file.lock = .free) (bytes : ByteArray) :
    (s.insert location (.file ⟨bytes, .free⟩)).Serves handles where
  locks other found hfound := by
    rw [find?_insert_of_ne_directory (ne_directory_of_claim hc)] at hfound
    split_ifs at hfound with hother
    · subst hother
      cases hfound
      rw [h.readers_of_claim hc hl]
      rfl
    · exact h.locks other found hfound
  held handle hhandle := by
    have hne : handle.location ≠ location := by
      rintro rfl
      have hpos : 0 < readers handles handle.location := readers_pos_iff.mpr ⟨handle, hhandle, rfl⟩
      have hzero := h.readers_of_claim hc hl
      omega
    rw [bytes?_insert_file (ne_directory_of_claim hc), if_neg hne]
    exact h.held handle hhandle

/-- **An open graph answers** as it did when it was opened. -/
theorem image_eq (h : s.Serves handles) (hhandle : handle ∈ handles) :
    s.image handle = handle.image := by
  obtain ⟨b, hb, hp⟩ := h.held handle hhandle
  obtain ⟨file, hfile, rfl⟩ := bytes?_eq_some_iff.mp hb
  obtain ⟨-, himage⟩ := Image.parse_eq_ok_iff.mp hp
  unfold Store.image
  rw [hfile]
  dsimp only
  rw [himage]
  exact Image.reload_load _ _ _ _

end Serves

end Store

end FlatGraph
