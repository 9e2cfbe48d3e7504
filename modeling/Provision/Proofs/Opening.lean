import Provision.Proofs.Setup
import Provision.Proofs.Stages

/-! Making a store where there is none.

Opening it first makes directories and nothing else, `makeDirectoriesStages_adds`. Then there
is one new file, which is empty until the first transaction makes it a database
with no entries: `openStoreStages_cases` says so of every stage, and `openStore_ok` what is
there if all went well. -/
namespace Provision.Disk

variable {disk disk' : Disk} {place : Location}

/-! ### Directories -/

theorem makeAllStages_adds (disk : Disk) (paths : List Path) :
    ∀ stage ∈ disk :: disk.makeAllStages paths, AddsDirectories disk stage :=
  (makeAllStages_makes disk paths).invariant (.refl disk)
    fun _ _ h ⟨_, hm⟩ => h.trans (.makeDirectory hm)

theorem makeDirectoriesStages_adds (disk : Disk) (path : Path) :
    ∀ stage ∈ disk.makeDirectoriesStages path, AddsDirectories disk stage :=
  fun stage hs => makeAllStages_adds disk _ stage (List.mem_cons_of_mem _ hs)

theorem makeDirectories_adds (disk : Disk) (path : Path) :
    AddsDirectories disk (disk.makeDirectories path).2 := by
  rw [← makeDirectoriesStages_last]
  exact makeAllStages_adds disk _ _ (last_mem disk _)

/-! ### Opening -/

theorem openStore_eq_ok {root : Path} {name : Name} {cache : UInt64} {handle : Handle}
    (h : disk.openStore root name cache = (.ok handle, disk')) :
    ∃ made, disk.makeDirectories (Path.join root name) = (.ok (), made) ∧
      made.openDatabase (databasePath root name) = (.ok handle.file, disk') := by
  rw [openStore] at h
  -- The product in the cache is kept from being computed.
  generalize Cache.bytes? cache = bytes at h
  rcases hm : disk.makeDirectories (Path.join root name) with ⟨_ | _, made⟩
  · simp [hm] at h
  · cases bytes with
    | none => simp [hm] at h
    | some bytes =>
      rcases ho : made.openDatabase (databasePath root name) with ⟨_ | id, opened⟩
      · simp [hm, ho] at h
      · simp only [hm, ho, Prod.mk.injEq, Except.ok.injEq] at h
        obtain ⟨rfl, rfl⟩ := h
        exact ⟨made, rfl, ho⟩

theorem Names.split {path : Path} {directory : Location} {name : Name}
    (h : disk.Names path directory name) :
    Path.names path = (Path.names path).dropLast ++ [name] := by
  obtain ⟨front, hfront⟩ := List.getLast?_eq_some_iff.mp h.last
  rw [hfront, List.dropLast_concat]

theorem Names.follow {path : Path} {directory : Location} {name : Name}
    (h : disk.Names path directory name) :
    (disk.start path).follow (Path.names path) = directory ++ [name] := by
  obtain ⟨hcheck, hwalk, -⟩ := directoryOf_eq_ok_iff.mp h.looked
  rw [h.split, Location.follow_append, ← walk_eq_ok hwalk]
  exact Location.next_of_plain h.notHere h.notAbove

/-- Once there is something under the last name of a path, the path leads to it. -/
theorem Names.locate_entry {path : Path} {directory : Location} {name : Name} {entry : Entry}
    (h : disk.Names path directory name) (grows : Extends disk disk')
    (there : disk'.entry? (directory ++ [name]) = some entry)
    (fits : entry = .directory ∨ Path.endsInSlash path = false) :
    disk'.locate path = .ok (directory ++ [name]) := by
  obtain ⟨hcheck, hwalk, hdirectory⟩ := directoryOf_eq_ok_iff.mp h.looked
  refine locate_eq_ok_iff.mpr ⟨hcheck, ?_, entry, there, fits⟩
  rw [grows.start, h.split, walk_append]
  refine bind_eq_ok_iff.mpr ⟨directory, grows.walk hwalk, bind_eq_ok_iff.mpr
    ⟨directory ++ [name], enter_eq_ok_iff.mpr ⟨grows.kept _ _ hdirectory, ?_, ?_⟩, rfl⟩⟩
  · exact Location.next_of_plain h.notHere h.notAbove
  · exact .inr (.inr ⟨h.attached, h.short, by rw [there]; rfl⟩)

/-- Once there is a file under the last name of a path, the path leads to it. -/
theorem Names.locate {path : Path} {directory : Location} {name : Name} {id : Nat}
    (h : disk.Names path directory name) (hslash : Path.endsInSlash path = false)
    (grows : Extends disk disk') (entry : disk'.entry? (directory ++ [name]) = some (.file id)) :
    disk'.locate path = .ok (directory ++ [name]) :=
  h.locate_entry grows entry (.inr hslash)

/-- The transaction that makes the new file a database. -/
theorem Holds.openTable_cases {id : Nat} {content : Content}
    (h : Holds place id content disk disk') (table : Table) :
    disk'.openTable id table = (.error (.file .writeRefused), disk') ∨
      ∃ after, disk'.openTable id table = (.ok id, after) ∧
        Holds place id (.database table) disk after ∧ after.held = id :: disk'.held ∧
          disk'.allowance.spend? = some after.allowance := by
  rw [openTable]
  cases disk'.allowance.spend? with
  | none => exact .inl rfl
  | some left =>
    exact .inr ⟨_, rfl, h.setContent (.database table) (id :: disk'.held) left, rfl, rfl⟩

/-- A file has become an open database: one that is new and has nothing in it, or one that was
there and keeps what it has. -/
structure Opened (file : Path) (place : Location) (id : Nat) (table : Table)
    (disk disk' : Disk) : Prop where
  holds : Holds place id (.database table) disk disk'
  held : disk'.held = id :: disk.held
  located : disk'.locate file = .ok place
  allowance : disk.allowance.spend? = some disk'.allowance
  was : disk.entry? place = none ∧ id = disk.nextFile ∧ table = [] ∨
    disk.entry? place = some (.file id) ∧ id ∉ disk.held ∧ table = disk.table id

theorem Opened.afterDirectories {file : Path} {id : Nat} {table : Table} {after : Disk}
    (h : Opened file place id table disk' after) (adds : AddsDirectories disk disk') :
    Opened file place id table disk after where
  holds := h.holds.afterDirectories adds
  held := by
    rw [h.held, adds.held]
  located := h.located
  allowance := by
    rw [← adds.allowance]
    exact h.allowance
  was := by
    rcases h.was with ⟨habsent, hid, htable⟩ | ⟨hentry, hheld, htable⟩
    · refine .inl ⟨?_, hid.trans adds.nextFile, htable⟩
      cases he : disk.entry? place with
      | none => rfl
      | some entry =>
        rw [adds.kept place entry he] at habsent
        cases habsent
    · refine .inr ⟨adds.files place id hentry, ?_, ?_⟩
      · rw [← adds.held]
        exact hheld
      · rw [htable, Disk.table, Disk.table, adds.contents]

/-! ### Opening a database that is there -/

theorem openFile_ok {file : Path} {id opened : Nat} {after : Disk}
    (h : disk.openFile file id = (.ok opened, after)) :
    opened = id ∧ id ∉ disk.held ∧ (∃ content, disk.contents.find? id = some content) ∧
      disk.openTable id (disk.table id) = (.ok id, after) := by
  rw [openFile] at h
  split at h
  · cases h
  next hheld =>
  have hopened : ∀ table, disk.openTable id table = (.ok opened, after) → opened = id := by
    intro table ho
    rw [openTable] at ho
    split at ho <;> cases ho
    rfl
  have hkeeps : ∀ table content, disk.contents.find? id = some content →
      disk.table id = table → disk.openTable id table = (.ok opened, after) →
        opened = id ∧ id ∉ disk.held ∧ (∃ content, disk.contents.find? id = some content) ∧
          disk.openTable id (disk.table id) = (.ok id, after) := by
    rintro table content hc rfl ho
    obtain rfl := hopened _ ho
    exact ⟨rfl, hheld, ⟨content, hc⟩, ho⟩
  split at h
  · next hc => exact hkeeps _ _ hc (by rw [Disk.table, hc]) h
  · next hc => exact hkeeps _ _ hc (by rw [Disk.table, hc]) h
  · next hc => exact hkeeps _ _ hc (by rw [Disk.table, hc]) h
  · cases h

section Success

variable {file : Path} (follow : (disk.start file).follow (Path.names file) = place)
  (fresh : ∀ id, disk.entry? place = some (.file id) → id < disk.nextFile)

include follow fresh

/-- What is there once a database is open. -/
theorem openDatabase_ok {id : Nat} {after : Disk} (hslash : Path.endsInSlash file = false)
    (h : disk.openDatabase file = (.ok id, after)) :
    ∃ table, Opened file place id table disk after := by
  rw [openDatabase] at h
  cases hspot : disk.databaseSpot file with
  | error e => rw [hspot] at h; cases h
  | ok spot =>
    obtain ⟨directory, name, hnames, hcases⟩ := place_eq_ok hspot
    have hplace := hnames.follow
    rw [follow] at hplace
    subst hplace
    rcases hcases with ⟨habsent, hnew⟩ | ⟨entry, hentry, hexisting⟩
    · cases hnew
      rw [hspot] at h
      have hmade := Holds.addFile hnames.ne_nil habsent (.text [])
      rcases hmade.openTable_cases [] with hopen | ⟨opened, hopen, hopened, hheld, hleft⟩
      · simp only [hopen] at h
        cases h
      · simp only [hopen] at h
        cases h
        have hlocated := hnames.locate hslash hopened.grows.toExtends hopened.entry
        exact ⟨[], hopened, hheld, hlocated, hleft, .inl ⟨habsent, rfl, rfl⟩⟩
    · cases entry with
      | directory => cases hexisting
      | file existing =>
        cases hexisting
        rw [hspot] at h
        obtain ⟨rfl, hheld, ⟨content, hcontent⟩, hopen⟩ := openFile_ok h
        have hthere : Holds (directory ++ [name]) id content disk disk :=
          ⟨.ofDirectories (.refl disk) _ _, hentry, hcontent, fresh id hentry⟩
        rcases hthere.openTable_cases (disk.table id) with
          hopen' | ⟨opened, hopen', hopened, hheld', hleft⟩
        · rw [hopen'] at hopen
          cases hopen
        · rw [hopen'] at hopen
          cases hopen
          have hlocated := hnames.locate hslash hopened.grows.toExtends hopened.entry
          exact ⟨_, hopened, hheld', hlocated, hleft, .inr ⟨hentry, hheld, rfl⟩⟩

end Success

/-- What is there once a store is open. -/
theorem openStore_ok {root : Path} {name : Name} {cache : UInt64} {handle : Handle}
    (follow : (disk.start (databasePath root name)).follow (Path.names (databasePath root name)) =
      place)
    (fresh : ∀ id, disk.entry? place = some (.file id) → id < disk.nextFile)
    (h : disk.openStore root name cache = (.ok handle, disk')) :
    ∃ table, Opened (databasePath root name) place handle.file table disk disk' := by
  obtain ⟨made, hmade, hopened⟩ := openStore_eq_ok h
  have hadds := makeDirectories_adds disk (Path.join root name)
  rw [hmade] at hadds
  have hstart := hadds.toExtends.start (databasePath root name)
  rw [← hstart] at follow
  have hfresh : ∀ id, made.entry? place = some (.file id) → id < made.nextFile := by
    intro id he
    rw [hadds.nextFile]
    exact fresh id (hadds.files place id he)
  obtain ⟨table, ho⟩ :=
    openDatabase_ok follow hfresh (endsInSlash_databasePath root name) hopened
  exact ⟨table, ho.afterDirectories hadds⟩

/-! ### Where there is no file yet -/

/-- A path leads to this place if it leads anywhere, and no file is there. -/
structure Vacant (disk : Disk) (file : Path) (place : Location) : Prop where
  absent : ∀ id, disk.entry? place ≠ some (.file id)
  follow : (disk.start file).follow (Path.names file) = place

namespace Vacant

variable {file : Path}

theorem afterDirectories (h : disk.Vacant file place) (adds : AddsDirectories disk disk') :
    disk'.Vacant file place where
  absent := fun id he => h.absent id (adds.files place id he)
  follow := by
    rw [adds.toExtends.start]
    exact h.follow

/-- A database that is opened there is new. -/
theorem opened (h : disk.Vacant file place) {id : Nat} {table : Table}
    (ho : Opened file place id table disk disk') : id = disk.nextFile ∧ table = [] := by
  rcases ho.was with ⟨-, hid, htable⟩ | ⟨hentry, -, -⟩
  · exact ⟨hid, htable⟩
  · exact absurd hentry (h.absent id)

/-- Where no file is, a database can only be made. -/
theorem databaseSpot_cases (h : disk.Vacant file place) :
    (∃ e, disk.databaseSpot file = .error e) ∨
      ∃ directory name, disk.Names file directory name ∧ place = directory ++ [name] ∧
        disk.entry? place = none ∧ disk.databaseSpot file = .ok (place, none) := by
  cases hspot : disk.databaseSpot file with
  | error e => exact .inl ⟨e, rfl⟩
  | ok spot =>
    obtain ⟨directory, name, hnames, hcases⟩ := place_eq_ok hspot
    have hfollow := hnames.follow
    rw [h.follow] at hfollow
    rw [← hfollow] at hcases
    rcases hcases with ⟨habsent, hnew⟩ | ⟨entry, hentry, hexisting⟩
    · cases hnew
      exact .inr ⟨directory, name, hnames, hfollow, habsent, rfl⟩
    · cases entry with
      | directory => cases hexisting
      | file id => exact absurd hentry (h.absent id)

end Vacant
end Provision.Disk
