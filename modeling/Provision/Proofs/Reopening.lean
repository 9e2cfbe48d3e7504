import Provision.Proofs.Inspecting
import Provision.Proofs.Reaching

/-! Opening a store that may be there.

A path that leads to a database goes through the directory of the store, which need not be made
then (`makeDirectories_of_locate_join`), so the file is found and opened unless someone has it open
(`openStore_of_file?`). Opening comes to one of three things, `Opening`, and whichever it is, no
database changes by it (`Opening.tableAt`). -/
namespace Provision

/-! ### The directory of a database -/

namespace Path

theorem exists_join_eq_append {name : Name} (plain : name.IsPlain) (base : Path) :
    ∃ rest, join base name = base ++ rest := by
  rw [join, plain.isAbsolute, if_neg Bool.false_ne_true]
  split
  · exact ⟨name, rfl⟩
  · exact ⟨'/' :: name, rfl⟩

theorem isAbsolute_append_of_ne_nil {base : Path} (hne : base ≠ []) (rest : Path) :
    isAbsolute (base ++ rest) = isAbsolute base := by
  cases base with
  | nil => exact absurd rfl hne
  | cons c base => rfl

end Path

namespace Disk

variable {disk disk' : Disk} {place : Location} {id : Nat}

/-- The location that the names of a path spell out. -/
def placeOf (disk : Disk) (path : Path) : Location :=
  (disk.start path).follow (Path.names path)

theorem eq_placeOf_of_locate {path : Path} (h : disk.locate path = .ok place) :
    place = disk.placeOf path :=
  walk_eq_ok (locate_eq_ok_iff.mp h).2.1

theorem Extends.placeOf (h : Extends disk disk') (path : Path) :
    disk'.placeOf path = disk.placeOf path := by
  rw [Disk.placeOf, Disk.placeOf, h.start]

theorem file?_eq_some_iff {path : Path} : disk.file? path = some id ↔
    ∃ place, disk.locate path = .ok place ∧ disk.entry? place = some (.file id) := by
  rw [file?]
  cases disk.locate path with
  | error e => simp
  | ok place =>
    dsimp only
    split <;> simp_all

/-- A path on which there is something more leads to a directory. -/
theorem isDirectory_of_locate_join {base : Path} {name : Name} (plain : name.IsPlain)
    (hne : base ≠ []) (h : disk.locate (Path.join base name) = .ok place) :
    disk.isDirectory base = true := by
  obtain ⟨rest, hrest⟩ := Path.exists_join_eq_append plain base
  obtain ⟨hcheck, hwalk, -⟩ := locate_eq_ok_iff.mp h
  have hstart : disk.start (Path.join base name) = disk.start base := by
    rw [start, start, hrest, Path.isAbsolute_append_of_ne_nil hne]
  rw [hstart, plain.names_join, walk_append] at hwalk
  obtain ⟨directory, hfront, hlast⟩ := bind_eq_ok_iff.mp hwalk
  have hdirectory := directory_of_walk (List.cons_ne_nil _ _) hlast
  have hbase : checkPath base = .ok () := by
    rw [checkPath_eq_ok_iff, hrest] at hcheck
    obtain ⟨hzero, -, hshort⟩ := hcheck
    refine checkPath_eq_ok_iff.mpr ⟨fun hz => hzero (List.mem_append_left _ hz), hne, ?_⟩
    rw [Text.Utf8.length_append] at hshort
    omega
  exact isDirectory_iff.mpr ⟨directory, locate_eq_ok_iff.mpr
    ⟨hbase, hfront, .directory, hdirectory, .inl rfl⟩, hdirectory⟩

theorem makeDirectory_of_isDirectory {path : Path} (h : disk.isDirectory path = true) :
    disk.makeDirectory path = .error .exists := by
  obtain ⟨location, hlocate, hentry⟩ := isDirectory_iff.mp h
  obtain ⟨hcheck, hwalk, -⟩ := locate_eq_ok_iff.mp hlocate
  rcases List.eq_nil_or_concat (Path.names path) with hnil | ⟨front, name, hnames⟩
  · have hlooked : disk.directoryOf path = .ok location := by
      refine directoryOf_eq_ok_iff.mpr ⟨hcheck, ?_, hentry⟩
      rw [hnil] at hwalk ⊢
      exact hwalk
    rw [makeDirectory, Disk.place, hlooked, hnil]
    rfl
  · rw [List.concat_eq_append] at hnames
    rw [hnames, walk_append] at hwalk
    obtain ⟨directory, hfront, hlast⟩ := bind_eq_ok_iff.mp hwalk
    obtain ⟨next, henter, ⟨⟩⟩ := bind_eq_ok_iff.mp hlast
    obtain ⟨hdirectory, hnext, hentered⟩ := enter_eq_ok_iff.mp henter
    have hlooked : disk.directoryOf path = .ok directory := by
      refine directoryOf_eq_ok_iff.mpr ⟨hcheck, ?_, hdirectory⟩
      rw [hnames, List.dropLast_concat]
      exact hfront
    rw [makeDirectory, Disk.place, hlooked, hnames, List.getLast?_concat]
    show (if name = Path.here ∨ name = Path.above then _ else _) = _
    by_cases hspecial : name = Path.here ∨ name = Path.above
    · rw [if_pos hspecial]
    · obtain ⟨hattached, hshort, hsome⟩ :=
        (hentered.resolve_left (not_or.mp hspecial).1).resolve_left (not_or.mp hspecial).2
      obtain ⟨entry, hthere⟩ := Option.isSome_iff_exists.mp hsome
      rw [if_neg hspecial, hattached, if_neg Bool.false_ne_true,
        if_neg (Nat.not_lt.mpr hshort), hthere]

/-- A directory that is there need not be made. -/
theorem makeDirectories_of_isDirectory {path : Path} (h : disk.isDirectory path = true) :
    disk.makeDirectories path = (.ok (), disk) := by
  obtain ⟨parents, hparents⟩ : ∃ parents, Path.ancestors path = path :: parents := ⟨_, rfl⟩
  rw [makeDirectories, hparents, makeAll]
  split
  · rfl
  · simp [makeDirectory_of_isDirectory h]

/-- Nor need the directory of something that is there. -/
theorem makeDirectories_of_locate_join {base : Path} {name : Name} (plain : name.IsPlain)
    (h : disk.locate (Path.join base name) = .ok place) :
    disk.makeDirectories base = (.ok (), disk) := by
  by_cases hne : base = []
  · subst hne
    rfl
  · exact makeDirectories_of_isDirectory (isDirectory_of_locate_join plain hne h)

/-! ### A store that is found -/

/-- Where something stands at the end of a path, there is no room for anything new. -/
theorem place_of_located {α : Type} {path : Path} {front : List Name} {name : Name}
    (named : Path.names path = front ++ [name]) (plain : name.IsPlain) {target : Location}
    {entry : Entry} (h : disk.locate path = .ok target) (he : disk.entry? target = some entry)
    {new : Location → Except FileError α} {existing : Location → Entry → Except FileError α}
    {special : FileError} :
    disk.place path new existing special = existing target entry := by
  obtain ⟨hcheck, hwalk, -⟩ := locate_eq_ok_iff.mp h
  rw [named, walk_append] at hwalk
  obtain ⟨directory, hfront, hwalk⟩ := bind_eq_ok_iff.mp hwalk
  obtain ⟨next, henter, ⟨⟩⟩ := bind_eq_ok_iff.mp hwalk
  obtain ⟨hdirectory, hnext, hentered⟩ := enter_eq_ok_iff.mp henter
  rw [plain.next] at hnext
  subst hnext
  obtain ⟨hattached, hshort, -⟩ := (hentered.resolve_left plain.notHere).resolve_left plain.notAbove
  have hlooked : disk.directoryOf path = .ok directory := by
    refine directoryOf_eq_ok_iff.mpr ⟨hcheck, ?_, hdirectory⟩
    rw [named, List.dropLast_concat]
    exact hfront
  rw [place, hlooked, named, List.getLast?_concat]
  have hspecial : ¬ (name = Path.here ∨ name = Path.above) :=
    not_or.mpr ⟨plain.notHere, plain.notAbove⟩
  show (if name = Path.here ∨ name = Path.above then _ else _) = _
  rw [if_neg hspecial, hattached, if_neg Bool.false_ne_true, if_neg (Nat.not_lt.mpr hshort), he]

/-- The file is a database, with a table or without one. -/
inductive IsDatabase (disk : Disk) (id : Nat) : Prop
  | table {table : Table} (content : disk.contents.find? id = some (.database table))
  | shell (content : disk.contents.find? id = some .shell)

theorem IsDatabase.of_find? (h : disk.IsDatabase id)
    (same : disk'.contents.find? id = disk.contents.find? id) : disk'.IsDatabase id := by
  cases h with
  | table content => exact .table (same.trans content)
  | shell content => exact .shell (same.trans content)

/-- Every database has its table. -/
def HasTables (disk : Disk) : Prop := ∀ id, disk.contents.find? id ≠ some .shell

theorem HasTables.of_contents (tables : disk.HasTables)
    (same : ∀ id, disk'.contents.find? id = disk.contents.find? id) : disk'.HasTables :=
  fun id hshell => tables id ((same id).symm.trans hshell)

theorem Holds.hasTables {content : Content} (h : Holds place id content disk disk')
    (hcontent : content ≠ .shell) (tables : disk.HasTables) : disk'.HasTables := by
  intro other
  by_cases he : other = id
  · rw [he, h.content]
    exact fun hshell => hcontent (Option.some.inj hshell)
  · rw [h.grows.contents other he]
    exact tables other

/-- What is left of a store on which nothing was done is what was there. -/
theorem IsDatabase.store_content (h : disk.IsDatabase id) :
    disk.contents.find? id = some (disk.store id).content := by
  cases h with
  | table content => rw [store_of_database content, content, Store.content, if_pos rfl]
  | shell content =>
    have htable : (disk.store id).hasTable = false := by
      rw [Disk.store, content]
      rfl
    rw [content, Store.content, htable, if_neg Bool.false_ne_true]

section Found

variable {root : Path} {name : Name} {cache : UInt64}
  (found : disk.file? (databasePath root name) = some id)

include found

/-- A store that is found is opened as it is. -/
theorem openStore_of_file? : disk.openStore root name cache =
    match Cache.bytes? cache with
    | none => (.error .overflow, disk)
    | some _ =>
      match disk.openFile (databasePath root name) id with
      | (.error e, disk) => (.error (.failed e), disk)
      | (.ok id, disk) => (.ok ⟨name, Path.join root name, id⟩, disk) := by
  obtain ⟨place, hlocate, hentry⟩ := file?_eq_some_iff.mp found
  have hmake : disk.makeDirectories (Path.join root name) = (.ok (), disk) :=
    makeDirectories_of_locate_join databaseName_isPlain hlocate
  have hspot : disk.databaseSpot (databasePath root name) = .ok (place, some id) :=
    place_of_located (databaseName_isPlain.names_join _) databaseName_isPlain hlocate hentry
  -- The product in the cache is kept from being computed, here and below.
  rw [openStore]
  generalize Cache.bytes? cache = bytes
  cases bytes with
  | none => simp only [hmake]
  | some bytes =>
    rcases hopen : disk.openFile (databasePath root name) id with ⟨_ | _, _⟩ <;>
      simp only [hmake, openDatabase, hspot, hopen]

theorem openExisting_of_file? : disk.openExisting root name cache =
    match Cache.bytes? cache with
    | none => (.error .overflow, disk)
    | some _ =>
      match disk.reopen root name id with
      | (.error e, disk) => (.error (.failed e), disk)
      | (.ok handle, disk) => (.ok handle, disk) := by
  rw [openExisting]
  generalize Cache.bytes? cache = bytes
  cases bytes with
  | none => simp only [findStore, found]
  | some bytes =>
    rcases hreopen : disk.reopen root name id with ⟨_ | _, _⟩ <;>
      simp only [findStore, found, hreopen]

/-- A database that nobody holds can be opened, in a transaction or without one. -/
theorem opening_free (database : disk.IsDatabase id) (free : id ∉ disk.held)
    (room : (Cache.bytes? cache).isSome) :
    (disk.allowance.spend?.isSome →
      (disk.openStore root name cache).1 = .ok ⟨name, Path.join root name, id⟩) ∧
        (disk.openExisting root name cache).1 = .ok ⟨name, Path.join root name, id⟩ := by
  rw [openStore_of_file? found, openExisting_of_file? found]
  generalize Cache.bytes? cache = bytes at room
  cases bytes with
  | none => cases room
  | some bytes =>
    cases database with
    | table content | shell content =>
      simp only [openFile, reopen, if_neg free, content, openTable]
      cases disk.allowance.spend? <;> simp

end Found

theorem Holds.tableAt {disk' : Disk} {place : Location} {id : Nat} {table : Table}
    (h : Holds place id (.database table) disk disk') : disk'.tableAt place = table := by
  rw [Disk.tableAt, h.entry]
  show disk'.table id = table
  rw [Disk.table, h.content]

/-- What has been opened was there before, or nothing was. -/
theorem Opened.tableAt {file : Path} {disk' : Disk} {place : Location} {id : Nat} {table : Table}
    (h : Opened file place id table disk disk') : disk.tableAt place = table := by
  rw [Disk.tableAt]
  rcases h.was with ⟨hentry, -, rfl⟩ | ⟨hentry, -, rfl⟩ <;> rw [hentry]

theorem Opened.free {file : Path} {disk' : Disk} {place : Location} {id : Nat} {table : Table}
    (h : Opened file place id table disk disk') (held : ∀ id ∈ disk.held, id < disk.nextFile) :
    id ∉ disk.held := by
  rcases h.was with ⟨-, rfl, -⟩ | ⟨-, hfree, -⟩
  · exact fun hid => absurd (held _ hid) (Nat.lt_irrefl _)
  · exact hfree

/-- A file that is there, on the disk as it is. -/
theorem Coherent.holds (coherent : disk.Coherent) {content : Content}
    (hentry : disk.entry? place = some (.file id))
    (hcontent : disk.contents.find? id = some content) : Holds place id content disk disk :=
  ⟨.ofDirectories (.refl disk) place id, hentry, hcontent, coherent.lt_nextFile hentry⟩

/-- The databases at other places hold what they held. -/
theorem Holds.tableAt_of_ne {content : Content} (h : Holds place id content disk disk')
    (coherent : disk'.Coherent) {other : Location} (ho : other ≠ place) :
    disk'.tableAt other = disk.tableAt other := by
  -- Who holds a file has no part in it.
  have hspares : Spares [place] { disk with held := disk'.held } disk' :=
    Holds.spares ⟨⟨⟨h.grows.kept, h.grows.workingDirectory⟩, h.grows.files, h.grows.contents,
      h.grows.nextFile⟩, h.entry, h.content, h.next⟩ coherent rfl
  exact hspares.tableAt fun hm => ho (List.mem_singleton.mp hm)

/-- Everything stays where it is, and databases stay databases. -/
structure Carries (disk disk' : Disk) : Prop extends Extends disk disk' where
  databases : ∀ place id, disk.entry? place = some (.file id) → disk.IsDatabase id →
    disk'.IsDatabase id

/-- Who holds the files has no part in it, nor what is allowed. -/
theorem Carries.ofHeld (disk : Disk) (held : List Nat) (allowance : Allowance) :
    Carries disk { disk with held, allowance } where
  kept := fun _ _ h => h
  workingDirectory := rfl
  databases := fun _ _ _ h => h.of_find? rfl

theorem isDatabase_withStore {α : Type} (disk : Disk) (id : Nat) (action : Store → α × Store) :
    (disk.withStore id action).2.IsDatabase id := by
  have hcontent : (disk.withStore id action).2.contents.find? id =
      some (action (disk.store id)).2.content := Dictionary.find?_insert_self ..
  cases htable : (action (disk.store id)).2.hasTable with
  | true =>
    rw [Store.content, htable, if_pos rfl] at hcontent
    exact .table hcontent
  | false =>
    rw [Store.content, htable, if_neg Bool.false_ne_true] at hcontent
    exact .shell hcontent

theorem Carries.withStore {α : Type} (disk : Disk) (id : Nat) (action : Store → α × Store) :
    Carries disk (disk.withStore id action).2 where
  kept := fun _ _ h => h
  workingDirectory := rfl
  databases := fun _ other _ h => by
    by_cases he : id = other
    · exact he ▸ disk.isDatabase_withStore id action
    · exact h.of_find? (Dictionary.find?_insert_of_ne he _ _)

theorem AddsDirectories.carries (h : AddsDirectories disk disk') : Carries disk disk' where
  toExtends := h.toExtends
  databases := fun _ id _ hdatabase => hdatabase.of_find? (by rw [h.contents])

theorem Holds.carries {table : Table} (h : Holds place id (.database table) disk disk') :
    Carries disk disk' where
  toExtends := h.grows.toExtends
  databases := fun _ other _ hdatabase => by
    by_cases he : other = id
    · subst he
      exact .table h.content
    · exact hdatabase.of_find? (h.grows.contents other he)

/-! ### A transaction -/

/-- What is where, what the files hold and who has them open: nothing of it has changed. -/
structure Untouched (disk disk' : Disk) : Prop where
  entries : ∀ location, disk'.entry? location = disk.entry? location
  contents : ∀ id, disk'.contents.find? id = disk.contents.find? id
  held : disk'.held = disk.held

theorem Untouched.tableAt (h : Untouched disk disk') (place : Location) :
    disk'.tableAt place = disk.tableAt place := by
  rw [Disk.tableAt, Disk.tableAt, h.entries]
  split
  · rw [Disk.table, Disk.table, h.contents]
  · rfl

/-- A transaction on a database that is there is refused and leaves everything as it is, or it sets
its entries one after the other. -/
theorem Coherent.commit_cases (coherent : disk.Coherent)
    (hentry : disk.entry? place = some (.file id)) (database : disk.IsDatabase id)
    (transaction : Transaction) :
    let written := disk.withStore id fun s => s.commit transaction
    (disk.allowance.spend? = none ∧ written.1 = .error (.file .writeRefused) ∧
        Untouched disk written.2) ∨
      disk.allowance.spend?.isSome ∧ written.1 = .ok () ∧
        Holds place id (.database ((disk.table id).insertAll transaction.entries)) disk
          written.2 := by
  intro written
  have hcontent := database.store_content
  have hthere := coherent.holds hentry hcontent
  cases hs : disk.allowance.spend? with
  | none =>
    obtain ⟨after, hw, hafter, -, -⟩ := hthere.act (fun s => s.commit transaction)
      (@Store.commit_refused (disk.store id) hs transaction)
    obtain rfl : written.2 = after := congrArg Prod.snd hw
    refine .inl ⟨rfl, congrArg Prod.fst hw, fun _ => rfl, fun other => ?_, rfl⟩
    by_cases he : other = id
    · rw [he, hafter.content, hcontent]
    · exact hafter.grows.contents other he
  | some left =>
    obtain ⟨after, hw, hafter, -, -⟩ := hthere.act (fun s => s.commit transaction)
      (@Store.commit_accepted (disk.store id) left hs transaction)
    obtain rfl : written.2 = after := congrArg Prod.snd hw
    exact .inr ⟨rfl, congrArg Prod.fst hw, hafter⟩

/-! ### What comes of opening -/

/-- What opening a database may come to: it is open; or the file has been made, and the transaction
that makes it a database is refused; or nothing but directories has been made. -/
inductive Opening (disk : Disk) (file : Path) : Except (Halt StoreError) Handle × Disk → Prop
  | opened {handle : Handle} {table : Table} {after : Disk} :
    Opened file (disk.placeOf file) handle.file table disk after →
      Opening disk file (.ok handle, after)
  | made {after : Disk} : disk.entry? (disk.placeOf file) = none →
    Holds (disk.placeOf file) disk.nextFile (.text []) disk after → after.held = disk.held →
      Opening disk file (.error (.failed (.file .writeRefused)), after)
  | refused {error : Halt StoreError} {after : Disk} : AddsDirectories disk after →
    Opening disk file (.error error, after)

theorem openFile_error {file : Path} {e : StoreError} {after : Disk}
    (h : disk.openFile file id = (.error e, after)) : after = disk := by
  have hopen : ∀ table, disk.openTable id table = (.error e, after) → after = disk := by
    intro table ho
    rw [openTable] at ho
    split at ho <;> cases ho
    rfl
  rw [openFile] at h
  split at h
  · cases h
    rfl
  split at h
  · exact hopen _ h
  · exact hopen _ h
  · exact hopen _ h
  · cases h
    rfl

theorem openDatabase_error {file : Path} {e : StoreError} {after : Disk}
    (h : disk.openDatabase file = (.error e, after)) :
    after = disk ∨ e = .file .writeRefused ∧ disk.entry? (disk.placeOf file) = none ∧
      Holds (disk.placeOf file) disk.nextFile (.text []) disk after ∧ after.held = disk.held := by
  rw [openDatabase] at h
  cases hspot : disk.databaseSpot file with
  | error _ =>
    rw [hspot] at h
    cases h
    exact .inl rfl
  | ok spot =>
    obtain ⟨directory, name, hnames, hcases⟩ := place_eq_ok hspot
    have hplace : disk.placeOf file = directory ++ [name] := hnames.follow
    rcases hcases with ⟨habsent, hnew⟩ | ⟨entry, -, hexisting⟩
    · cases hnew
      rw [hspot] at h
      have hmade := Holds.addFile hnames.ne_nil habsent (.text [])
      rcases hmade.openTable_cases [] with hopen | ⟨opened, hopen, -⟩
      · simp only [hopen] at h
        cases h
        rw [hplace]
        exact .inr ⟨rfl, habsent, hmade, rfl⟩
      · simp only [hopen] at h
        cases h
    · cases entry with
      | directory => cases hexisting
      | file existing =>
        cases hexisting
        rw [hspot] at h
        exact .inl (openFile_error h)

theorem openStore_opening (coherent : disk.Coherent) (root : Path) (name : Name) (cache : UInt64) :
    Opening disk (databasePath root name) (disk.openStore root name cache) := by
  rcases ho : disk.openStore root name cache with ⟨e | handle, after⟩
  · have hadds := makeDirectories_adds disk (Path.join root name)
    rw [openStore] at ho
    generalize Cache.bytes? cache = bytes at ho
    rcases hm : disk.makeDirectories (Path.join root name) with ⟨_ | _, made⟩
    · simp only [hm] at ho
      cases ho
      rw [hm] at hadds
      exact .refused hadds
    rw [hm] at hadds
    cases bytes with
    | none =>
      simp only [hm] at ho
      cases ho
      exact .refused hadds
    | some bytes =>
      rcases hd : made.openDatabase (databasePath root name) with ⟨_ | id, opened⟩
      · simp only [hm, hd] at ho
        cases ho
        rcases openDatabase_error hd with rfl | ⟨rfl, habsent, hholds, hheld⟩
        · exact .refused hadds
        · rw [hadds.toExtends.placeOf] at habsent hholds
          rw [hadds.nextFile] at hholds
          refine .made ?_ (hholds.afterDirectories hadds) (hheld.trans hadds.held)
          cases he : disk.entry? (disk.placeOf (databasePath root name)) with
          | none => rfl
          | some entry =>
            rw [hadds.kept _ entry he] at habsent
            cases habsent
      · simp [hm, hd] at ho
  · obtain ⟨table, hopened⟩ := openStore_ok rfl (fun _ he => coherent.lt_nextFile he) ho
    exact .opened hopened

/-- A handle has the path of the directory that it was opened by. -/
theorem openStore_path {root : Path} {name : Name} {cache : UInt64} {handle : Handle}
    (h : disk.openStore root name cache = (.ok handle, disk')) :
    handle.path = Path.join root name := by
  rw [openStore] at h
  generalize Cache.bytes? cache = bytes at h
  rcases hm : disk.makeDirectories (Path.join root name) with ⟨_ | _, made⟩
  · simp [hm] at h
  cases bytes with
  | none => simp [hm] at h
  | some bytes =>
    rcases hd : made.openDatabase (databasePath root name) with ⟨_ | id, opened⟩
    · simp [hm, hd] at h
    · simp only [hm, hd, Prod.mk.injEq, Except.ok.injEq] at h
      rw [← h.1]

/-- Opening a store that is there changes nothing, or takes hold of a database that nobody has. -/
theorem openExisting_cases (disk : Disk) (root : Path) (name : Name) (cache : UInt64) :
    (∃ halt, disk.openExisting root name cache = (.error halt, disk)) ∨
      ∃ id, disk.openExisting root name cache =
          (.ok ⟨name, Path.join root name, id⟩, disk.hold id) ∧
        disk.file? (databasePath root name) = some id ∧ id ∉ disk.held ∧
          disk.IsDatabase id := by
  cases found : disk.file? (databasePath root name) with
  | none => exact .inl ⟨_, by simp only [openExisting, findStore, found]; rfl⟩
  | some id =>
    rw [openExisting_of_file? found]
    generalize Cache.bytes? cache = bytes
    cases bytes with
    | none => exact .inl ⟨_, rfl⟩
    | some bytes =>
      by_cases hheld : id ∈ disk.held
      · exact .inl ⟨_, by simp only [reopen, if_pos hheld]; rfl⟩
      · simp only [reopen, if_neg hheld]
        cases hcontent : disk.contents.find? id with
        | none => exact .inl ⟨_, rfl⟩
        | some content =>
          cases content with
          | text chars => exact .inl ⟨_, rfl⟩
          | database table => exact .inr ⟨id, rfl, rfl, hheld, .table hcontent⟩
          | shell => exact .inr ⟨id, rfl, rfl, hheld, .shell hcontent⟩

theorem Coherent.openStore (h : disk.Coherent) (root : Path) (name : Name) (cache : UInt64) :
    Coherent (disk.openStore root name cache).2 := by
  rw [← openStoreStages_last]
  exact (openStoreStages_passes disk root name cache).invariant h (fun _ _ hc hs => hc.step hs) _
    (last_mem disk _)

namespace Opening

variable {file : Path} {outcome : Except (Halt StoreError) Handle × Disk}

theorem carries (h : Opening disk file outcome) (coherent : disk.Coherent) :
    Carries disk outcome.2 := by
  cases h with
  | opened hopened => exact hopened.holds.carries
  | made _ hholds _ =>
    refine ⟨hholds.grows.toExtends, fun _ id hentry hdatabase => ?_⟩
    exact hdatabase.of_find?
      (hholds.grows.contents id (Nat.ne_of_lt (coherent.lt_nextFile hentry)))
  | refused hadds => exact hadds.carries

/-- No table is missing once a store has been opened, if none was. -/
theorem hasTables (h : Opening disk file outcome) (tables : disk.HasTables) :
    outcome.2.HasTables := by
  cases h with
  | opened hopened => exact hopened.holds.hasTables nofun tables
  | made _ hholds _ => exact hholds.hasTables nofun tables
  | refused hadds => exact tables.of_contents fun id => by rw [hadds.contents]

/-- No database changes when one is opened. -/
theorem tableAt (h : Opening disk file outcome) (coherent : outcome.2.Coherent) (place : Location) :
    outcome.2.tableAt place = disk.tableAt place := by
  cases h with
  | opened hopened =>
    by_cases hplace : place = disk.placeOf file
    · rw [hplace, hopened.tableAt]
      exact hopened.holds.tableAt
    · exact hopened.holds.tableAt_of_ne coherent hplace
  | made habsent hholds _ =>
    by_cases hplace : place = disk.placeOf file
    · rw [hplace, Disk.tableAt, Disk.tableAt, habsent, hholds.entry]
      show Disk.table _ _ = []
      rw [Disk.table, hholds.content]
    · exact hholds.tableAt_of_ne coherent hplace
  | refused hadds => exact (Spares.ofDirectories hadds []).tableAt List.not_mem_nil

/-- A file that is new stands at the end of the path, and there is one only if the database has
been opened or the transaction has been refused. -/
theorem files (h : Opening disk file outcome) (place : Location) (id : Nat)
    (hentry : Disk.entry? outcome.2 place = some (.file id)) :
    disk.entry? place = some (.file id) ∨ place = disk.placeOf file ∧
      ((∃ handle, outcome.1 = .ok handle) ∨
        outcome.1 = .error (.failed (.file .writeRefused))) := by
  cases h with
  | opened hopened =>
    exact (hopened.holds.grows.files place id hentry).imp_right
      fun hnew => ⟨hnew.1, .inl ⟨_, rfl⟩⟩
  | made _ hholds _ =>
    exact (hholds.grows.files place id hentry).imp_right fun hnew => ⟨hnew.1, .inr rfl⟩
  | refused hadds => exact .inl (hadds.files place id hentry)

end Opening

end Disk
end Provision
