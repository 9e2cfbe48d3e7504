import Provision.Proofs.Reaching

/-! Which files a run gets hold of.

A run goes one of five ways, `run_course`, and only on the last of them does it try to open
stores: its `attempts`. Each attempt makes a file, or opens one that it finds. A file that was
there before the run and that no attempt finds keeps what it has at every stage,
`stages_keeps`. -/
namespace Provision

namespace Disk

variable {disk disk' : Disk} {place : Location} {id : Nat}

/-! ### Growing by a file that is opened -/

namespace GrowsAt

theorem openTable (h : GrowsAt place id disk disk') (table : Table) :
    GrowsAt place id disk (disk'.openTable id table).2 := by
  rw [Disk.openTable]
  split
  · exact h
  · exact h.setContent _ (id :: disk'.held) _

theorem openFile (h : GrowsAt place id disk disk') (file : Path) :
    GrowsAt place id disk (disk'.openFile file id).2 := by
  rw [Disk.openFile]
  split
  · exact h
  · split
    · exact h.openTable _
    · exact h.openTable _
    · exact h.openTable _
    · exact h

theorem withStore (h : GrowsAt place id disk disk') {α : Type} (action : Store → α × Store) :
    GrowsAt place id disk (disk'.withStore id action).2 :=
  h.setContent _ disk'.held _

theorem close (h : GrowsAt place id disk disk') (handle : Handle) :
    GrowsAt place id disk (disk'.close handle) :=
  ⟨⟨h.kept, h.workingDirectory⟩, h.files, h.contents, h.nextFile⟩

end GrowsAt

/-- Opening a database touches one file: the one that is there, or a new one. -/
theorem openDatabase_grows (disk : Disk) (file : Path) :
    ∃ place id,
      (id = disk.nextFile ∨ ∃ location, disk.databaseSpot file = .ok (location, some id)) ∧
      (∀ stage ∈ disk.openDatabaseStages file, GrowsAt place id disk stage) ∧
        ∀ opened after, disk.openDatabase file = (.ok opened, after) →
          opened = id ∧ GrowsAt place id disk after := by
  have hsame : ∀ id, GrowsAt [] id disk disk := fun id => .ofDirectories (.refl disk) [] id
  rw [openDatabaseStages, openDatabase]
  cases hspot : disk.databaseSpot file with
  | error e =>
    refine ⟨[], disk.nextFile, .inl rfl, ?_, ?_⟩
    · intro stage hs
      cases hs
    · intro opened after ho
      cases ho
  | ok spot =>
    obtain ⟨location, _ | found⟩ := spot
    · obtain ⟨directory, name, hnames, ⟨habsent, hnew⟩ | ⟨entry, -, hexisting⟩⟩ :=
        place_eq_ok hspot
      · cases hnew
        have hmade := GrowsAt.addFile hnames.ne_nil habsent (.text [])
        have hopened := hmade.openTable []
        refine ⟨directory ++ [name], disk.nextFile, .inl rfl, ?_, ?_⟩
        · intro stage hs
          simp only [List.mem_cons, List.not_mem_nil, or_false] at hs
          rcases hs with rfl | rfl
          · exact hmade
          · exact hopened
        · intro opened after ho
          simp only at ho
          rw [ho] at hopened
          refine ⟨?_, hopened⟩
          rw [openTable] at ho
          split at ho <;> cases ho
          rfl
      · cases entry <;> cases hexisting
    · refine ⟨[], found, .inr ⟨location, rfl⟩, ?_, ?_⟩
      · intro stage hs
        rw [List.mem_singleton.mp hs]
        exact (hsame found).openFile file
      · intro opened after ho
        have hopened := (hsame found).openFile file
        simp only at ho
        rw [ho] at hopened
        exact ⟨(openFile_ok ho).1, hopened⟩

/-- The file that is there under the path of the database when a store is opened. -/
def foundOnOpening? (disk : Disk) (root : Path) (name : Name) (cache : UInt64) : Option Nat :=
  match disk.makeDirectories (Path.join root name), Cache.bytes? cache with
  | (.ok (), made), some _ =>
    match made.databaseSpot (databasePath root name) with
    | .ok (_, found) => found
    | .error _ => none
  | _, _ => none

/-- A file that is found when a store is opened was there. -/
theorem Coherent.foundOnOpening?_lt (coherent : disk.Coherent) {root : Path} {name : Name}
    {cache : UInt64} (h : disk.foundOnOpening? root name cache = some id) :
    id < disk.nextFile := by
  have hadds := makeDirectories_adds disk (Path.join root name)
  have hcoherent := coherent.makeDirectories (Path.join root name)
  rw [foundOnOpening?] at h
  -- The product in the cache is kept from being computed.
  generalize Cache.bytes? cache = bytes at h
  rcases hm : disk.makeDirectories (Path.join root name) with ⟨_ | _, made⟩
  · simp [hm] at h
  cases bytes with
  | none => simp [hm] at h
  | some bytes =>
    rw [hm] at hadds hcoherent
    cases hspot : made.databaseSpot (databasePath root name) with
    | error e => simp [hm, hspot] at h
    | ok spot =>
      obtain ⟨location, found⟩ := spot
      simp only [hm, hspot] at h
      obtain ⟨directory, last, -, ⟨-, hnew⟩ | ⟨entry, hentry, hexisting⟩⟩ := place_eq_ok hspot
      · cases hnew
        cases h
      · cases entry with
        | directory => cases hexisting
        | file existing =>
          cases hexisting
          cases h
          exact hadds.nextFile ▸ hcoherent.lt_nextFile hentry

/-- Opening a store touches one file: the one that is found, or a new one. -/
theorem openStore_grows (disk : Disk) (root : Path) (name : Name) (cache : UInt64) :
    ∃ place id, (id = disk.nextFile ∨ disk.foundOnOpening? root name cache = some id) ∧
      (∀ stage ∈ disk.openStoreStages root name cache, GrowsAt place id disk stage) ∧
        ∀ handle opened, disk.openStore root name cache = (.ok handle, opened) →
          handle.file = id ∧ GrowsAt place id disk opened := by
  have hadds := makeDirectories_adds disk (Path.join root name)
  have hdirectories : ∀ place id, ∀ stage ∈ disk.makeDirectoriesStages (Path.join root name),
      GrowsAt place id disk stage :=
    fun place id stage hs => .ofDirectories (makeDirectoriesStages_adds disk _ stage hs) place id
  rw [foundOnOpening?, openStoreStages, openStore]
  -- The product in the cache is kept from being computed.
  generalize Cache.bytes? cache = bytes
  rcases hm : disk.makeDirectories (Path.join root name) with ⟨_ | _, made⟩
  · refine ⟨[], disk.nextFile, .inl rfl, by simpa using hdirectories _ _, ?_⟩
    intro handle opened ho
    cases ho
  cases bytes with
  | none =>
    refine ⟨[], disk.nextFile, .inl rfl, by simpa using hdirectories _ _, ?_⟩
    intro handle opened ho
    cases ho
  | some bytes =>
    rw [hm] at hadds
    obtain ⟨place, id, hid, hstages, hopened⟩ := made.openDatabase_grows (databasePath root name)
    have hbefore : GrowsAt place id disk made := .ofDirectories hadds place id
    refine ⟨place, id, ?_, ?_, ?_⟩
    · rcases hid with hid | ⟨location, hspot⟩
      · exact .inl (hid.trans hadds.nextFile)
      · exact .inr (by simp only [hspot])
    · intro stage hs
      rcases List.mem_append.mp hs with hs | hs
      · exact hdirectories place id stage hs
      · exact hbefore.trans (hstages stage hs)
    · intro handle opened ho
      rcases hd : made.openDatabase (databasePath root name) with ⟨_ | file, after⟩
      · simp only [hd] at ho
        cases ho
      · simp only [hd] at ho
        cases ho
        obtain ⟨rfl, hafter⟩ := hopened _ _ hd
        exact ⟨rfl, hbefore.trans hafter⟩

/-- What is kept goes on to be kept if only a new file is touched. -/
theorem Keeps.afterGrowth {disk'' : Disk} (h : Keeps disk disk')
    (h' : GrowsAt place id disk' disk'') (new : disk.nextFile ≤ id) : Keeps disk disk'' where
  toExtends := h.toExtends.trans h'.toExtends
  contents := fun other hother => by
    rw [h'.contents other (Nat.ne_of_lt (Nat.lt_of_lt_of_le hother new)), h.contents other hother]
  nextFile := Nat.le_trans h.nextFile h'.nextFile

end Disk

namespace Instance

variable {disk made : Disk} {request : Request} {parsed : ParsedGenesis}

/-! ### Attempts -/

/-- An attempt to open a store, with the disk as it finds it. -/
structure Attempt where
  disk : Disk
  directory : Path
  store : Name
  cache : UInt64

namespace Attempt

/-- The file that the attempt finds and opens. -/
def found? (attempt : Attempt) : Option Nat :=
  attempt.disk.foundOnOpening? attempt.directory attempt.store attempt.cache

/-- Is the store open afterwards? -/
def succeeds (attempt : Attempt) : Bool :=
  (attempt.disk.openStore attempt.directory attempt.store attempt.cache).1.isOk

/-- Setting the store up touches one file: the one that the attempt finds, or a new one. -/
theorem setupStore_grows (attempt : Attempt) (parsed : ParsedGenesis) :
    ∃ place id, (id = attempt.disk.nextFile ∨ attempt.found? = some id) ∧
      ∀ stage ∈ setupStoreStages attempt.directory parsed attempt.cache attempt.disk attempt.store,
        Disk.GrowsAt place id attempt.disk stage := by
  obtain ⟨place, id, hid, hstages, hopened⟩ :=
    attempt.disk.openStore_grows attempt.directory attempt.store attempt.cache
  refine ⟨place, id, hid, ?_⟩
  intro stage hs
  rw [setupStoreStages, List.mem_append] at hs
  rcases hs with hs | hs
  · exact hstages stage hs
  rcases ho : attempt.disk.openStore attempt.directory attempt.store attempt.cache with
    ⟨_ | handle, opened⟩
  · rw [ho] at hs
    cases hs
  obtain ⟨rfl, hopen⟩ := hopened _ _ ho
  have hblock := hopen.withStore fun s => s.setup parsed.genesis
  simp only [ho] at hs
  rcases hw : opened.withStore handle.file fun s => s.setup parsed.genesis with
    ⟨_ | ⟨config, hash⟩, written⟩
  · rw [hw] at hblock
    simp only [hw, List.mem_cons, List.not_mem_nil, or_false] at hs
    rcases hs with rfl | rfl
    · exact hblock
    · exact hblock.close handle
  · rw [hw] at hblock
    have hrecord := hblock.withStore fun s =>
      persistMerged s attempt.store hash config parsed.override
    simp only [hw, List.mem_cons, List.not_mem_nil, or_false] at hs
    rcases hs with rfl | rfl | rfl
    · exact hblock
    · exact hrecord
    · exact hrecord.close handle

/-- Where no file is, none is found. -/
theorem found?_of_vacant {attempt : Attempt} {place : Location}
    (h : attempt.disk.Vacant (databasePath attempt.directory attempt.store) place) :
    attempt.found? = none := by
  have hadds := Disk.makeDirectories_adds attempt.disk
    (Path.join attempt.directory attempt.store)
  rw [found?, Disk.foundOnOpening?]
  generalize Cache.bytes? attempt.cache = bytes
  rcases hm : attempt.disk.makeDirectories (Path.join attempt.directory attempt.store) with
    ⟨_ | _, made⟩
  · rfl
  cases bytes with
  | none => rfl
  | some bytes =>
    rw [hm] at hadds
    rcases (h.afterDirectories hadds).databaseSpot_cases with
      ⟨e, hspot⟩ | ⟨directory, name, -, -, -, hspot⟩
    · change made.databaseSpot (databasePath attempt.directory attempt.store) = _ at hspot
      simp only [hspot]
    · change made.databaseSpot (databasePath attempt.directory attempt.store) = _ at hspot
      simp only [hspot]

end Attempt

/-- The attempts to open stores one after the other, until one of the stores cannot be set up. -/
def attemptsOn (directory : Path) (parsed : ParsedGenesis) (cache : UInt64) :
    Disk → List Name → List Attempt
  | _, [] => []
  | disk, store :: rest =>
    ⟨disk, directory, store, cache⟩ ::
      match setupStore disk directory parsed cache store with
      | (.error _, _) => []
      | (.ok (), disk) => attemptsOn directory parsed cache disk rest

/-- The attempts of a run. -/
def attempts (disk : Disk) (request : Request) : List Attempt :=
  match resolveDirectory disk request.dataDirectory with
  | (.error _, _) => []
  | (.ok dataDirectory, disk) =>
    let directory := Path.join dataDirectory request.name
    match isVacant disk directory, ParsedGenesis.parse request.genesis with
    | .ok true, .ok parsed => attemptsOn directory parsed request.cache disk storeNames
    | _, _ => []

/-- Where none of the stores is there, no attempt finds a file. -/
theorem attemptsOn_found? {directory : Path} {cache : UInt64}
    (absolute : Path.isAbsolute directory) (coherent : disk.Coherent) {stores : List Name}
    (plain : ∀ store ∈ stores, store.IsPlain) (distinct : stores.Nodup)
    (absent : ∀ store ∈ stores, disk.NoFile (storePlace directory store)) :
    ∀ attempt ∈ attemptsOn directory parsed cache disk stores, attempt.found? = none := by
  induction stores generalizing disk with
  | nil => intro attempt ha; cases ha
  | cons store rest ih =>
    have hplain := plain store (List.mem_cons_self ..)
    have hnone := absent store (List.mem_cons_self ..)
    obtain ⟨hstore, hrest⟩ := List.nodup_cons.mp distinct
    intro attempt ha
    rw [attemptsOn] at ha
    rcases List.mem_cons.mp ha with rfl | ha
    · exact Attempt.found?_of_vacant (vacant_of_noFile absolute hplain hnone)
    · rcases ho : setupStore disk directory parsed cache store with ⟨_ | _, after⟩
      · rw [ho] at ha
        cases ha
      · rw [ho] at ha
        obtain ⟨hcoherent, -, -, -, hothers⟩ :=
          setupStore_leaves absolute coherent hplain hnone ho
        exact ih hcoherent (fun other hm => plain other (List.mem_cons_of_mem _ hm)) hrest
          (fun other hm => hothers other (fun he => hstore (he ▸ hm))
            (absent other (List.mem_cons_of_mem _ hm))) attempt ha

/-- Stores may be set up without harm to anything that was there, if every file that is found on
the way is a new one. -/
theorem setupStoresStages_keeps {directory : Path} {cache : UInt64} {before : Disk}
    (hkeeps : Disk.Keeps before disk) {stores : List Name}
    (new : ∀ attempt ∈ attemptsOn directory parsed cache disk stores, ∀ id,
      attempt.found? = some id → before.nextFile ≤ id) :
    ∀ stage ∈ setupStoresStages directory parsed cache disk stores, Disk.Keeps before stage := by
  induction stores generalizing disk with
  | nil => intro stage hs; cases hs
  | cons store rest ih =>
    rw [attemptsOn, List.forall_mem_cons] at new
    obtain ⟨hfirst, hlater⟩ := new
    obtain ⟨place, id, hid, hgrows⟩ :=
      Attempt.setupStore_grows ⟨disk, directory, store, cache⟩ parsed
    have hnew : before.nextFile ≤ id := by
      rcases hid with hid | hid
      · exact Nat.le_trans hkeeps.nextFile (Nat.le_of_eq hid.symm)
      · exact hfirst id hid
    have hstages := fun stage hs => hkeeps.afterGrowth (hgrows stage hs) hnew
    intro stage hs
    rw [setupStoresStages, List.mem_append] at hs
    rcases hs with hs | hs
    · exact hstages stage hs
    · rcases ho : setupStore disk directory parsed cache store with ⟨_ | _, after⟩
      · rw [ho] at hs
        cases hs
      · rw [ho] at hs hlater
        have hafter : Disk.Keeps before after := by
          have hlast : disk.last (setupStoreStages directory parsed cache disk store) = after := by
            rw [setupStoreStages_last, ho]
          rw [← hlast]
          exact List.forall_mem_cons.mpr ⟨hkeeps, hstages⟩ _ (Disk.last_mem _ _)
        exact ih hafter hlater stage hs

/-! ### The course of a run -/

/-- A run that is refused before it tries to open a store. All that it has made is the data
directory. -/
structure Refused (disk : Disk) (request : Request) (made : Disk) (error : InstanceError) :
    Prop where
  outcome : provision disk request = (.error (.failed error), made)
  attempts_eq : attempts disk request = []
  stages_eq : stages disk request = disk.makeDirectoriesStages request.dataDirectory

/-- A run that goes on to set up the stores in a directory. -/
structure Proceeds (disk : Disk) (request : Request) (made : Disk) (whole directory : Path)
    (parsed : ParsedGenesis) : Prop where
  outcome : provision disk request =
    ((setupStores made directory parsed request.cache storeNames).1.map fun _ => whole,
      (setupStores made directory parsed request.cache storeNames).2)
  attempts_eq : attempts disk request = attemptsOn directory parsed request.cache made storeNames
  stages_eq : stages disk request = disk.makeDirectoriesStages request.dataDirectory ++
    setupStoresStages directory parsed request.cache made storeNames

/-- The five ways in which a run goes. -/
inductive Course (disk : Disk) (request : Request) : Prop
  | unresolved {made : Disk} {error : InstanceError} :
    resolveDirectory disk request.dataDirectory = (.error error, made) →
      Refused disk request made error → Course disk request
  | unusable {made : Disk} {whole : Path} {error : InstanceError} :
    resolveDirectory disk request.dataDirectory = (.ok whole, made) →
      isVacant made (Path.join whole request.name) = .error error →
        Refused disk request made error → Course disk request
  | occupied {made : Disk} {whole : Path} :
    resolveDirectory disk request.dataDirectory = (.ok whole, made) →
      isVacant made (Path.join whole request.name) = .ok false →
        Refused disk request made (.notEmpty (Path.join whole request.name)) →
          Course disk request
  | invalid {made : Disk} {whole : Path} {error : Json.Error} :
    resolveDirectory disk request.dataDirectory = (.ok whole, made) →
      isVacant made (Path.join whole request.name) = .ok true →
        ParsedGenesis.parse request.genesis = .error error →
          Refused disk request made (.invalidGenesis error) → Course disk request
  | proceeds {made : Disk} {whole : Path} {parsed : ParsedGenesis} :
    resolveDirectory disk request.dataDirectory = (.ok whole, made) →
      isVacant made (Path.join whole request.name) = .ok true →
        ParsedGenesis.parse request.genesis = .ok parsed →
          Proceeds disk request made whole (Path.join whole request.name) parsed →
            Course disk request

theorem run_course (disk : Disk) (request : Request) : Course disk request := by
  rcases hr : resolveDirectory disk request.dataDirectory with ⟨error | whole, made⟩
  · exact .unresolved hr (by constructor <;> simp [provision, attempts, stages, hr])
  cases hv : isVacant made (Path.join whole request.name) with
  | error error =>
    exact .unusable hr hv (by constructor <;> simp [provision, attempts, stages, hr, hv])
  | ok vacant =>
    cases vacant with
    | false =>
      exact .occupied hr hv (by constructor <;> simp [provision, attempts, stages, hr, hv])
    | true =>
      cases hp : ParsedGenesis.parse request.genesis with
      | error error =>
        exact .invalid hr hv hp
          (by constructor <;> simp [provision, attempts, stages, hr, hv, hp])
      | ok parsed =>
        exact .proceeds hr hv hp
          (by constructor <;> simp [provision, attempts, stages, hr, hv, hp])

/-- In short, a run is refused, or it goes on to the stores. -/
theorem refused_or_proceeds (disk : Disk) (request : Request) :
    (∃ made error, Refused disk request made error) ∨
      ∃ made whole parsed, resolveDirectory disk request.dataDirectory = (.ok whole, made) ∧
        isVacant made (Path.join whole request.name) = .ok true ∧
          ParsedGenesis.parse request.genesis = .ok parsed ∧
            Proceeds disk request made whole (Path.join whole request.name) parsed := by
  cases run_course disk request with
  | unresolved _ hrefused => exact .inl ⟨_, _, hrefused⟩
  | unusable _ _ hrefused => exact .inl ⟨_, _, hrefused⟩
  | occupied _ _ hrefused => exact .inl ⟨_, _, hrefused⟩
  | invalid _ _ _ hrefused => exact .inl ⟨_, _, hrefused⟩
  | proceeds hr hv hg hproceeds => exact .inr ⟨_, _, _, hr, hv, hg, hproceeds⟩

/-- A run that is refused makes nothing but directories. -/
theorem Refused.adds {error : InstanceError} (h : Refused disk request made error) :
    ∀ stage ∈ stages disk request, Disk.AddsDirectories disk stage := by
  rw [h.stages_eq]
  exact Disk.makeDirectoriesStages_adds disk request.dataDirectory

/-- **What was there stays as it is at every stage of a run, if every file that the run finds is
a new one.** -/
theorem stages_keeps (new : ∀ attempt ∈ attempts disk request, ∀ id,
    attempt.found? = some id → disk.nextFile ≤ id) :
    ∀ stage ∈ stages disk request, Disk.Keeps disk stage := by
  intro stage hs
  rcases refused_or_proceeds disk request with ⟨_, _, h⟩ | ⟨_, _, _, hr, -, -, h⟩
  · exact .ofDirectories (h.adds stage hs)
  · rw [h.stages_eq] at hs
    rcases List.mem_append.mp hs with hs | hs
    · exact .ofDirectories (Disk.makeDirectoriesStages_adds disk _ stage hs)
    · have hadds := Disk.makeDirectories_adds disk request.dataDirectory
      rw [← resolveDirectory_disk, hr] at hadds
      rw [h.attempts_eq] at new
      exact setupStoresStages_keeps (.ofDirectories hadds) new stage hs

/-! ### The outcome of making an instance -/

theorem create_outcome (host : Host) (clock : Int) (request : Request) :
    (create host clock request).1 = (provision host.disk request).1.map fun dataDirectory =>
      ⟨dataDirectory,
        Numeral.decimal (Identifier.next (Identifier.ofClock clock) host.lastId).toNat⟩ := by
  rw [create]
  rcases provision host.disk request with ⟨_ | _, after⟩ <;> rfl

theorem create_eq_error_iff {clock : Int} {error : Halt InstanceError} :
    (create host clock request).1 = .error error ↔
      (provision host.disk request).1 = .error error := by
  rw [create_outcome, map_eq_error_iff]

theorem create_coherent {host : Host} (coherent : host.disk.Coherent) (clock : Int)
    (request : Request) :
    (create host clock request).2.disk.Coherent := by
  rw [create_disk]
  exact stages_coherent coherent request _ (Disk.last_mem _ _)

/-- The host on which the least request has been carried out. -/
def leastHost : Host := (create ⟨{}, 0⟩ 0 leastRequest).2

theorem leastHost_coherent : leastHost.disk.Coherent :=
  create_coherent Disk.coherent_empty 0 leastRequest

end Instance
end Provision
