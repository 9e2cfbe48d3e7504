import Provision.Proofs.Outcome
import Provision.Proofs.Paths

/-! What an operation adds to a disk.

Making a store takes nothing away: what was there stays, the files that were there keep what
they hold, and there is at most one new file, at a place that is known before (`GrowsAt`). A
path that led somewhere leads to the same place on a disk that has grown: `GrowsAt.locate`. -/
namespace Provision.Disk

variable {disk disk' : Disk}

/-! ### What is at a location -/

theorem entry?_def (disk : Disk) (location : Location) : disk.entry? location =
    if location = [] ∨ location.isDetached then some .directory else disk.tree.find? location :=
  rfl

theorem entry?_append (directory : Location) {name : Name} (h : name ≠ []) :
    disk.entry? (directory ++ [name]) = disk.tree.find? (directory ++ [name]) := by
  rw [entry?_def, if_neg]
  simp [Location.isDetached, h]

theorem entry?_put (directory location : Location) {name : Name} (h : name ≠ []) (entry : Entry) :
    Disk.entry? (disk.put (directory ++ [name]) entry) location =
      if directory ++ [name] = location then some entry else disk.entry? location := by
  rw [entry?_def]
  split
  · next hroot =>
    have hne : directory ++ [name] ≠ location := by
      rintro rfl
      simp [Location.isDetached, h] at hroot
    rw [if_neg hne, entry?_def, if_pos hroot]
  · next hroot => rw [put, Dictionary.find?_insert, entry?_def, if_neg hroot]

theorem ne_nil_of_mem_names {path : Path} {name : Name} (h : name ∈ Path.names path) :
    name ≠ [] := by
  intro hname
  have hfilter := (List.mem_filter.mp h).2
  rw [hname] at hfilter
  cases hfilter

/-! ### Following a path -/

/-- Only a directory can be entered, and what a name leads to has to be there. -/
theorem enter_eq_ok_iff {location next : Location} {name : Name} :
    disk.enter location name = .ok next ↔
      disk.entry? location = some .directory ∧ location.next name = next ∧
        (name = Path.here ∨ name = Path.above ∨
          location.isDetached = false ∧ Text.Utf8.length name ≤ mostNameBytes ∧
            (disk.entry? (location ++ [name])).isSome) := by
  unfold enter
  cases hl : disk.entry? location with
  | none => simp
  | some entry =>
    cases entry with
    | file id => simp
    | directory =>
      by_cases hhere : name = Path.here
      · simp [hhere, Location.next]
      by_cases habove : name = Path.above
      · simp [habove, Location.next, show Path.above ≠ Path.here by decide]
      by_cases hdetached : location.isDetached
      · simp [hhere, habove, hdetached]
      by_cases hlong : mostNameBytes < Text.Utf8.length name
      · simp [hhere, habove, hdetached, hlong, Nat.not_le.mpr hlong]
      cases disk.entry? (location ++ [name]) <;>
        simp [hhere, habove, hdetached, hlong, Location.next, Nat.not_lt.mp hlong]

theorem walk_append (location : Location) (names others : List Name) :
    disk.walk location (names ++ others) =
      disk.walk location names >>= fun next => disk.walk next others := by
  induction names generalizing location with
  | nil => rfl
  | cons name names ih =>
    rw [List.cons_append, walk, walk]
    cases disk.enter location name with
    | error e => rfl
    | ok next => exact ih next

/-- Where a path leads, its names say. -/
theorem walk_eq_ok {location target : Location} {names : List Name}
    (h : disk.walk location names = .ok target) : target = location.follow names := by
  induction names generalizing location with
  | nil => cases h; rfl
  | cons name names ih =>
    obtain ⟨next, hn, h⟩ := bind_eq_ok_iff.mp h
    rw [ih h, ← (enter_eq_ok_iff.mp hn).2.1]
    rfl

theorem locate_eq_ok_iff {path : Path} {target : Location} :
    disk.locate path = .ok target ↔
      checkPath path = .ok () ∧ disk.walk (disk.start path) (Path.names path) = .ok target ∧
        ∃ entry, disk.entry? target = some entry ∧
          (entry = .directory ∨ Path.endsInSlash path = false) := by
  simp only [locate, bind_eq_ok_iff]
  constructor
  · rintro ⟨⟨⟩, hcheck, location, hwalk, h⟩
    cases he : disk.entry? location with
    | none => simp [he] at h
    | some entry =>
      cases entry with
      | directory =>
        simp only [he] at h
        cases h
        exact ⟨hcheck, hwalk, .directory, he, .inl rfl⟩
      | file id =>
        cases hslash : Path.endsInSlash path with
        | true => simp [he, hslash] at h
        | false =>
          simp only [he, hslash] at h
          cases h
          exact ⟨hcheck, hwalk, .file id, he, .inr rfl⟩
  · rintro ⟨hcheck, hwalk, entry, he, hslash⟩
    refine ⟨(), hcheck, target, hwalk, ?_⟩
    cases entry with
    | directory => rw [he]; rfl
    | file id =>
      rw [he, hslash.resolve_left (by simp)]
      rfl

theorem directoryOf_eq_ok_iff {path : Path} {directory : Location} :
    disk.directoryOf path = .ok directory ↔
      checkPath path = .ok () ∧
        disk.walk (disk.start path) (Path.names path).dropLast = .ok directory ∧
          disk.entry? directory = some .directory := by
  simp only [directoryOf, bind_eq_ok_iff]
  constructor
  · rintro ⟨⟨⟩, hcheck, location, hwalk, h⟩
    cases he : disk.entry? location with
    | none => simp [he] at h
    | some entry =>
      cases entry with
      | directory =>
        simp only [he] at h
        cases h
        exact ⟨hcheck, hwalk, he⟩
      | file id => simp [he] at h
  · rintro ⟨hcheck, hwalk, he⟩
    refine ⟨(), hcheck, directory, hwalk, ?_⟩
    rw [he]
    rfl

/-- The last name of a path, which can stand in this directory. -/
structure Names (disk : Disk) (path : Path) (directory : Location) (name : Name) : Prop where
  looked : disk.directoryOf path = .ok directory
  last : (Path.names path).getLast? = some name
  notHere : name ≠ Path.here
  notAbove : name ≠ Path.above
  attached : directory.isDetached = false
  short : Text.Utf8.length name ≤ mostNameBytes

theorem Names.ne_nil {path : Path} {directory : Location} {name : Name}
    (h : disk.Names path directory name) : name ≠ [] :=
  ne_nil_of_mem_names (List.mem_of_getLast? h.last)

theorem place_eq_ok {α : Type} {path : Path} {new : Location → Except FileError α}
    {existing : Location → Entry → Except FileError α} {special : FileError} {result : α}
    (h : disk.place path new existing special = .ok result) :
    ∃ directory name, disk.Names path directory name ∧
      (disk.entry? (directory ++ [name]) = none ∧ new (directory ++ [name]) = .ok result ∨
        ∃ entry, disk.entry? (directory ++ [name]) = some entry ∧
          existing (directory ++ [name]) entry = .ok result) := by
  simp only [place, bind_eq_ok_iff] at h
  obtain ⟨directory, hdirectory, h⟩ := h
  cases hlast : (Path.names path).getLast? with
  | none => simp [hlast] at h
  | some name =>
    simp only [hlast] at h
    split at h
    · cases h
    next hspecial =>
    split at h
    · cases h
    next hdetached =>
    split at h
    · cases h
    next hlong =>
    obtain ⟨hhere, habove⟩ := not_or.mp hspecial
    have hattached : directory.isDetached = false := Bool.eq_false_iff.mpr hdetached
    refine ⟨directory, name,
      ⟨hdirectory, hlast, hhere, habove, hattached, Nat.not_lt.mp hlong⟩, ?_⟩
    split at h
    · next hnone => exact .inl ⟨hnone, h⟩
    · next entry hsome => exact .inr ⟨entry, hsome, h⟩

/-! ### Growing -/

/-- Everything stays where it is. -/
structure Extends (disk disk' : Disk) : Prop where
  kept : ∀ location entry, disk.entry? location = some entry →
    disk'.entry? location = some entry
  workingDirectory : disk'.workingDirectory = disk.workingDirectory

namespace Extends

theorem refl (disk : Disk) : Extends disk disk :=
  ⟨fun _ _ h => h, rfl⟩

theorem trans {disk'' : Disk} (h : Extends disk disk') (h' : Extends disk' disk'') :
    Extends disk disk'' :=
  ⟨fun location entry he => h'.kept location entry (h.kept location entry he),
    h'.workingDirectory.trans h.workingDirectory⟩

theorem put {directory : Location} {name : Name} (hname : name ≠ [])
    (absent : disk.entry? (directory ++ [name]) = none) (entry : Entry) :
    Extends disk (disk.put (directory ++ [name]) entry) where
  kept := fun location other he => by
    rw [entry?_put directory location hname, if_neg]
    · exact he
    · rintro rfl
      rw [absent] at he
      cases he
  workingDirectory := rfl

theorem enter (h : Extends disk disk') {location next : Location} {name : Name}
    (he : disk.enter location name = .ok next) : disk'.enter location name = .ok next := by
  obtain ⟨hdirectory, hnext, hname⟩ := enter_eq_ok_iff.mp he
  refine enter_eq_ok_iff.mpr ⟨h.kept _ _ hdirectory, hnext, ?_⟩
  rcases hname with hhere | habove | ⟨hdetached, hshort, hsome⟩
  · exact .inl hhere
  · exact .inr (.inl habove)
  · obtain ⟨entry, hentry⟩ := Option.isSome_iff_exists.mp hsome
    have hkept := h.kept _ entry hentry
    exact .inr (.inr ⟨hdetached, hshort, by rw [hkept]; rfl⟩)

theorem walk (h : Extends disk disk') {location target : Location} {names : List Name}
    (hw : disk.walk location names = .ok target) : disk'.walk location names = .ok target := by
  induction names generalizing location with
  | nil => exact hw
  | cons name names ih =>
    obtain ⟨next, hn, hw⟩ := bind_eq_ok_iff.mp hw
    exact bind_eq_ok_iff.mpr ⟨next, h.enter hn, ih hw⟩

theorem start (h : Extends disk disk') (path : Path) :
    disk'.start path = disk.start path := by
  rw [Disk.start, Disk.start, h.workingDirectory]

/-- A path goes on to lead where it led. -/
theorem locate (h : Extends disk disk') {path : Path} {target : Location}
    (hl : disk.locate path = .ok target) : disk'.locate path = .ok target := by
  obtain ⟨hcheck, hwalk, entry, hentry, hslash⟩ := locate_eq_ok_iff.mp hl
  rw [← h.start path] at hwalk
  exact locate_eq_ok_iff.mpr ⟨hcheck, h.walk hwalk, entry, h.kept _ _ hentry, hslash⟩

end Extends

/-! ### Growing by directories -/

/-- Nothing has changed but that there are new directories. -/
structure AddsDirectories (disk disk' : Disk) : Prop where
  kept : ∀ location entry, disk.entry? location = some entry →
    disk'.entry? location = some entry
  files : ∀ location id, disk'.entry? location = some (.file id) →
    disk.entry? location = some (.file id)
  rest : ∃ tree, disk' = { disk with tree }

namespace AddsDirectories

theorem refl (disk : Disk) : AddsDirectories disk disk where
  kept := fun _ _ h => h
  files := fun _ _ h => h
  rest := ⟨disk.tree, rfl⟩

theorem trans {disk'' : Disk} (h : AddsDirectories disk disk')
    (h' : AddsDirectories disk' disk'') : AddsDirectories disk disk'' where
  kept := fun location entry he => h'.kept location entry (h.kept location entry he)
  files := fun location id he => h.files location id (h'.files location id he)
  rest := by
    obtain ⟨tree, rfl⟩ := h.rest
    obtain ⟨tree', rfl⟩ := h'.rest
    exact ⟨tree', rfl⟩

theorem nextFile (h : AddsDirectories disk disk') : disk'.nextFile = disk.nextFile := by
  obtain ⟨tree, rfl⟩ := h.rest
  rfl

theorem allowance (h : AddsDirectories disk disk') : disk'.allowance = disk.allowance := by
  obtain ⟨tree, rfl⟩ := h.rest
  rfl

theorem contents (h : AddsDirectories disk disk') : disk'.contents = disk.contents := by
  obtain ⟨tree, rfl⟩ := h.rest
  rfl

theorem held (h : AddsDirectories disk disk') : disk'.held = disk.held := by
  obtain ⟨tree, rfl⟩ := h.rest
  rfl

theorem toExtends (h : AddsDirectories disk disk') : Extends disk disk' where
  kept := h.kept
  workingDirectory := by
    obtain ⟨tree, rfl⟩ := h.rest
    rfl

/-- A new directory stands where nothing was. -/
theorem put {directory : Location} {name : Name} (hname : name ≠ [])
    (absent : disk.entry? (directory ++ [name]) = none) :
    AddsDirectories disk (disk.put (directory ++ [name]) .directory) where
  kept := (Extends.put hname absent .directory).kept
  files := fun location id he => by
    rw [entry?_put directory location hname] at he
    split at he
    · cases he
    · exact he
  rest := ⟨_, rfl⟩

theorem makeDirectory {path : Path} (h : disk.makeDirectory path = .ok disk') :
    AddsDirectories disk disk' := by
  obtain ⟨directory, name, hnames, ⟨habsent, hnew⟩ | ⟨entry, -, hexisting⟩⟩ := place_eq_ok h
  · cases hnew
    exact put hnames.ne_nil habsent
  · cases hexisting

end AddsDirectories

/-! ### Growing by one file -/

/-- Everything stays as it is but for one file, and what is new are directories and this file at
this place. -/
structure GrowsAt (place : Location) (id : Nat) (disk disk' : Disk) : Prop
    extends Extends disk disk' where
  files : ∀ location other, disk'.entry? location = some (.file other) →
    disk.entry? location = some (.file other) ∨ location = place ∧ other = id
  contents : ∀ other, other ≠ id → disk'.contents.find? other = disk.contents.find? other
  nextFile : disk.nextFile ≤ disk'.nextFile

namespace GrowsAt

variable {place : Location} {id : Nat}

theorem trans {disk'' : Disk} (h : GrowsAt place id disk disk')
    (h' : GrowsAt place id disk' disk'') : GrowsAt place id disk disk'' where
  toExtends := h.toExtends.trans h'.toExtends
  files := fun location other he => by
    rcases h'.files location other he with he | he
    · exact h.files location other he
    · exact .inr he
  contents := fun other hother => (h'.contents other hother).trans (h.contents other hother)
  nextFile := Nat.le_trans h.nextFile h'.nextFile

theorem ofDirectories (h : AddsDirectories disk disk') (place : Location) (id : Nat) :
    GrowsAt place id disk disk' where
  toExtends := h.toExtends
  files := fun location other he => .inl (h.files location other he)
  contents := fun _ _ => by rw [h.contents]
  nextFile := Nat.le_of_eq h.nextFile.symm

theorem addFile {directory : Location} {name : Name} (hname : name ≠ [])
    (absent : disk.entry? (directory ++ [name]) = none) (content : Content) :
    GrowsAt (directory ++ [name]) disk.nextFile disk
      (disk.addFile (directory ++ [name]) content) where
  kept := (Extends.put hname absent (.file disk.nextFile)).kept
  workingDirectory := rfl
  files := fun location other he => by
    change Disk.entry? (disk.put (directory ++ [name]) (.file disk.nextFile)) location = _ at he
    rw [entry?_put directory location hname] at he
    split at he
    · next hplace =>
      cases he
      exact .inr ⟨hplace.symm, rfl⟩
    · exact .inl he
  contents := fun other hother => Dictionary.find?_insert_of_ne (Ne.symm hother) _ _
  nextFile := Nat.le_succ _

/-- The file may be written, held and released. -/
theorem setContent (h : GrowsAt place id disk disk') (content : Content) (held : List Nat)
    (allowance : Allowance) :
    GrowsAt place id disk { disk'.setContent id content with held, allowance } where
  kept := h.kept
  workingDirectory := h.workingDirectory
  files := h.files
  contents := fun other hother => by
    rw [← h.contents other hother]
    exact Dictionary.find?_insert_of_ne (Ne.symm hother) _ _
  nextFile := h.nextFile

end GrowsAt

/-! ### A file with this content -/

/-- A database with a table can be read. -/
theorem store_of_database {disk : Disk} {id : Nat} {table : Table}
    (h : disk.contents.find? id = some (.database table)) :
    disk.store id = { table, allowance := disk.allowance } := by
  simp only [Disk.store, Disk.table, h]
  rfl

/-- One without a table cannot. -/
theorem readError?_of_shell {disk : Disk} {id : Nat} (h : disk.contents.find? id = some .shell) :
    (disk.store id).readError? = some .notDatabase := by
  rw [Disk.store, h]
  rfl

/-- The disk has grown by a file at this place, or it was there, and now it has this content. -/
structure Holds (place : Location) (id : Nat) (content : Content) (disk disk' : Disk) : Prop where
  grows : GrowsAt place id disk disk'
  entry : disk'.entry? place = some (.file id)
  content : disk'.contents.find? id = some content
  next : id < disk'.nextFile

namespace Holds

variable {place : Location} {id : Nat} {content : Content}

theorem addFile {directory : Location} {name : Name} (hname : name ≠ [])
    (absent : disk.entry? (directory ++ [name]) = none) (content : Content) :
    Holds (directory ++ [name]) disk.nextFile content disk
      (disk.addFile (directory ++ [name]) content) where
  grows := .addFile hname absent content
  entry := by
    show Disk.entry? (disk.put (directory ++ [name]) (.file disk.nextFile)) _ = _
    rw [entry?_put directory _ hname, if_pos rfl]
  content := Dictionary.find?_insert_self ..
  next := Nat.lt_succ_self _

theorem afterDirectories {after : Disk} (h : Holds place id content disk' after)
    (adds : AddsDirectories disk disk') : Holds place id content disk after :=
  ⟨(GrowsAt.ofDirectories adds place id).trans h.grows, h.entry, h.content, h.next⟩

/-- What happens to the file later happens to it on the disk as it is now. -/
theorem restart (h : Holds place id content disk disk') : Holds place id content disk' disk' :=
  ⟨.ofDirectories (.refl disk') place id, h.entry, h.content, h.next⟩

theorem trans {disk'' : Disk} {after : Content} (h : Holds place id content disk disk')
    (h' : Holds place id after disk' disk'') : Holds place id after disk disk'' :=
  ⟨h.grows.trans h'.grows, h'.entry, h'.content, h'.next⟩

theorem setContent (h : Holds place id content disk disk') (after : Content) (held : List Nat)
    (allowance : Allowance) :
    Holds place id after disk { disk'.setContent id after with held, allowance } where
  grows := h.grows.setContent after held allowance
  entry := h.entry
  content := Dictionary.find?_insert_self ..
  next := h.next

theorem close (h : Holds place id content disk disk') (handle : Handle) :
    Holds place id content disk (disk'.close handle) :=
  ⟨⟨⟨h.grows.kept, h.grows.workingDirectory⟩, h.grows.files, h.grows.contents, h.grows.nextFile⟩,
    h.entry, h.content, h.next⟩

/-- An action on the store writes what it has made of it. -/
theorem act {α : Type} (h : Holds place id content disk disk') (action : Store → α × Store)
    {result : α} {store : Store} (ha : action (disk'.store id) = (result, store)) :
    ∃ after, disk'.withStore id action = (result, after) ∧
      Holds place id store.content disk after ∧ after.held = disk'.held ∧
        after.allowance = store.allowance := by
  rw [Disk.withStore, ha]
  exact ⟨_, rfl, h.setContent _ disk'.held _, rfl, rfl⟩

/-- An action that leaves a table writes what it has made of the one that was there. -/
theorem withStore {α : Type} {table : Table} (h : Holds place id (.database table) disk disk')
    (action : Store → α × Store) {result : α} {store : Store}
    (ha : action { table, allowance := disk'.allowance } = (result, store))
    (hasTable : store.hasTable = true) :
    ∃ after, disk'.withStore id action = (result, after) ∧
      Holds place id (.database store.table) disk after ∧ after.held = disk'.held ∧
        after.allowance = store.allowance := by
  have hcontent : store.content = .database store.table := by
    rw [Store.content, if_pos hasTable]
  rw [← store_of_database h.content] at ha
  rw [← hcontent]
  exact h.act action ha

end Holds
end Provision.Disk
