import Provision.Instance.Basic
import Provision.Proofs.Growth

/-! The disks that a run passes through.

A run may stop before its end: because the next thing it tries fails, or because the process
dies. What it leaves behind then is one of its stages, which stand here in order: one after
each directory and each file that is made, each transaction that is tried, and each release of
a database. `stages_passes` says that none is missing: from each to the next there is one
`Step`. `provision_disk` says that the last one is the disk with which the run ends. -/
namespace Provision

/-! ### Steps -/

namespace Disk

/-- What cannot be cut short. Each of these writes one directory, one file or one transaction,
if it writes anything. -/
inductive Step : Disk → Disk → Prop
  | idle (disk : Disk) : Step disk disk
  | directory {disk disk' : Disk} {path : Path} : disk.makeDirectory path = .ok disk' →
    Step disk disk'
  | file {disk : Disk} {path : Path} {directory : Location} {name : Name} :
    disk.Names path directory name → disk.entry? (directory ++ [name]) = none →
      Step disk (disk.addFile (directory ++ [name]) (.text []))
  | openTable {disk : Disk} {location : Location} {id : Nat} (table : Table) :
    disk.entry? location = some (.file id) → Step disk (disk.openTable id table).2
  | genesisBlock (disk : Disk) (id : Nat) (genesis : Genesis) :
    Step disk (disk.withStore id fun s => s.setup genesis).2
  | configRecord (disk : Disk) (id : Nat) (store : Name) (hash : Hash) (config : ChainConfig)
    (override : Json.Fields) :
    Step disk (disk.withStore id fun s =>
      Instance.persistMerged s store hash config override).2
  | close (disk : Disk) (handle : Handle) : Step disk (disk.close handle)

/-- From a disk through stages, one step of a kind at a time. -/
inductive Passes (step : Disk → Disk → Prop) : Disk → List Disk → Prop
  | nil (disk : Disk) : Passes step disk []
  | cons {disk stage : Disk} {rest : List Disk} : step disk stage → Passes step stage rest →
    Passes step disk (stage :: rest)

/-- What is there after the last stage, and at first if there is none. -/
def last (disk : Disk) (stages : List Disk) : Disk :=
  stages.getLastD disk

theorem last_cons (disk stage : Disk) (rest : List Disk) :
    disk.last (stage :: rest) = stage.last rest := by
  cases rest <;> rfl

theorem last_append (disk : Disk) (stages others : List Disk) :
    disk.last (stages ++ others) = (disk.last stages).last others := by
  induction stages generalizing disk with
  | nil => rfl
  | cons stage rest ih => rw [List.cons_append, last_cons, ih, last_cons]

theorem last_mem (disk : Disk) (stages : List Disk) : disk.last stages ∈ disk :: stages := by
  induction stages generalizing disk with
  | nil => exact List.mem_singleton.mpr rfl
  | cons stage rest ih =>
    rw [last_cons]
    exact List.mem_cons_of_mem _ (ih stage)

namespace Passes

variable {step : Disk → Disk → Prop} {disk : Disk} {stages others : List Disk}

theorem one {stage : Disk} (h : step disk stage) : Passes step disk [stage] :=
  .cons h (.nil stage)

theorem append (h : Passes step disk stages) (ho : Passes step (disk.last stages) others) :
    Passes step disk (stages ++ others) := by
  induction h with
  | nil => exact ho
  | cons hs _ ih =>
    rw [last_cons] at ho
    exact .cons hs (ih ho)

theorem mono {other : Disk → Disk → Prop} (h : Passes step disk stages)
    (hstep : ∀ before after, step before after → other before after) :
    Passes other disk stages := by
  induction h with
  | nil => exact .nil _
  | cons hs _ ih => exact .cons (hstep _ _ hs) ih

/-- What every step keeps is so at every stage. -/
theorem invariant {P : Disk → Prop} (h : Passes step disk stages) (start : P disk)
    (kept : ∀ before after, P before → step before after → P after) :
    ∀ stage ∈ disk :: stages, P stage := by
  induction h with
  | nil =>
    intro stage hmem
    rw [List.mem_singleton.mp hmem]
    exact start
  | cons hs _ ih =>
    intro stage hmem
    rcases List.mem_cons.mp hmem with rfl | hmem
    · exact start
    · exact ih (kept _ _ start hs) stage hmem

end Passes

/-! ### Making directories -/

/-- The disks after each of the directories that are made. -/
def makeAllStages (disk : Disk) : List Path → List Disk
  | [] => []
  | path :: parents =>
    if path.isEmpty then []
    else
      match disk.makeDirectory path with
      | .ok disk => [disk]
      | .error .notFound =>
        disk.makeAllStages parents ++
          match disk.makeAll parents with
          | (.error _, _) => []
          | (.ok (), disk) => (disk.makeDirectory path).toOption.toList
      | .error _ => []

def makeDirectoriesStages (disk : Disk) (path : Path) : List Disk :=
  disk.makeAllStages (Path.ancestors path)

theorem makeAllStages_last (disk : Disk) (paths : List Path) :
    disk.last (disk.makeAllStages paths) = (disk.makeAll paths).2 := by
  induction paths with
  | nil => rfl
  | cons path parents ih =>
    rw [makeAllStages, makeAll]
    split
    · rfl
    · cases disk.makeDirectory path with
      | ok made => rfl
      | error e =>
        by_cases he : e = .notFound
        · subst he
          simp only [last_append, ih]
          rcases disk.makeAll parents with ⟨_ | _, between⟩
          · rfl
          · simp only
            cases between.makeDirectory path with
            | ok after => rfl
            | error e =>
              simp only
              split <;> rfl
        · simp only
          split <;> rfl

/-- One directory is made. -/
def MakesDirectory (disk disk' : Disk) : Prop :=
  ∃ path, disk.makeDirectory path = .ok disk'

/-- One of several directories is made. -/
def MakesOneOf (paths : List Path) (disk disk' : Disk) : Prop :=
  ∃ path ∈ paths, disk.makeDirectory path = .ok disk'

theorem makeAllStages_makesOneOf (disk : Disk) (paths : List Path) :
    Passes (MakesOneOf paths) disk (disk.makeAllStages paths) := by
  induction paths with
  | nil => exact .nil disk
  | cons path parents ih =>
    have hhere : path ∈ path :: parents := List.mem_cons_self ..
    rw [makeAllStages]
    split
    · exact .nil disk
    · split
      · next made hm => exact .one ⟨path, hhere, hm⟩
      · have hparents : Passes (MakesOneOf (path :: parents)) disk (disk.makeAllStages parents) :=
          ih.mono fun _ _ ⟨parent, hp, hm⟩ => ⟨parent, List.mem_cons_of_mem _ hp, hm⟩
        refine hparents.append ?_
        rw [makeAllStages_last]
        rcases disk.makeAll parents with ⟨_ | _, between⟩
        · exact .nil between
        · simp only
          cases hd : between.makeDirectory path with
          | error e => exact .nil between
          | ok after => exact .one ⟨path, hhere, hd⟩
      · exact .nil disk

theorem makeAllStages_makes (disk : Disk) (paths : List Path) :
    Passes MakesDirectory disk (disk.makeAllStages paths) :=
  (makeAllStages_makesOneOf disk paths).mono fun _ _ ⟨path, _, hm⟩ => ⟨path, hm⟩

theorem makeDirectoriesStages_passes (disk : Disk) (path : Path) :
    Passes Step disk (disk.makeDirectoriesStages path) :=
  (makeAllStages_makes disk _).mono fun _ _ ⟨_, hm⟩ => .directory hm

theorem makeDirectoriesStages_last (disk : Disk) (path : Path) :
    disk.last (disk.makeDirectoriesStages path) = (disk.makeDirectories path).2 :=
  makeAllStages_last disk _

/-! ### Opening a store -/

/-- The disks after the file is made, if it is, and after the transaction that opens it. -/
def openDatabaseStages (disk : Disk) (file : Path) : List Disk :=
  match disk.databaseSpot file with
  | .error _ => []
  | .ok (_, some id) => [(disk.openFile file id).2]
  | .ok (location, none) =>
    let made := disk.addFile location (.text [])
    [made, (made.openTable disk.nextFile []).2]

theorem openDatabaseStages_last (disk : Disk) (file : Path) :
    disk.last (disk.openDatabaseStages file) = (disk.openDatabase file).2 := by
  rw [openDatabaseStages, openDatabase]
  rcases disk.databaseSpot file with _ | ⟨_, _ | _⟩ <;> rfl

theorem openDatabaseStages_passes (disk : Disk) (file : Path) :
    Passes Step disk (disk.openDatabaseStages file) := by
  rw [openDatabaseStages]
  cases hspot : disk.databaseSpot file with
  | error e => exact .nil disk
  | ok spot =>
    obtain ⟨directory, name, hnames, ⟨habsent, hnew⟩ | ⟨entry, hentry, hexisting⟩⟩ :=
      place_eq_ok hspot
    · cases hnew
      have hmade := (Holds.addFile hnames.ne_nil habsent (.text [])).entry
      exact .cons (.file hnames habsent) (.one (.openTable [] hmade))
    · cases entry with
      | directory => cases hexisting
      | file id =>
        cases hexisting
        refine .one ?_
        rw [openFile]
        split
        · exact .idle disk
        · split
          · exact .openTable _ hentry
          · exact .openTable _ hentry
          · exact .openTable _ hentry
          · exact .idle disk

def openStoreStages (disk : Disk) (root : Path) (name : Name) (cache : UInt64) : List Disk :=
  disk.makeDirectoriesStages (Path.join root name) ++
    match disk.makeDirectories (Path.join root name), Cache.bytes? cache with
    | (.ok (), disk), some _ => disk.openDatabaseStages (databasePath root name)
    | _, _ => []

theorem openStoreStages_last (disk : Disk) (root : Path) (name : Name) (cache : UInt64) :
    disk.last (disk.openStoreStages root name cache) = (disk.openStore root name cache).2 := by
  rw [openStoreStages, openStore, last_append, makeDirectoriesStages_last]
  rcases disk.makeDirectories (Path.join root name) with ⟨_ | _, made⟩
  · rfl
  · cases Cache.bytes? cache with
    | none => rfl
    | some bytes =>
      simp only [openDatabaseStages_last]
      rcases made.openDatabase (databasePath root name) with ⟨_ | _, opened⟩ <;> rfl

theorem openStoreStages_passes (disk : Disk) (root : Path) (name : Name) (cache : UInt64) :
    Passes Step disk (disk.openStoreStages root name cache) := by
  refine (makeDirectoriesStages_passes disk _).append ?_
  rw [makeDirectoriesStages_last]
  generalize Cache.bytes? cache = bytes
  rcases disk.makeDirectories (Path.join root name) with ⟨_ | _, made⟩
  · exact .nil made
  · cases bytes with
    | none => exact .nil made
    | some bytes => exact openDatabaseStages_passes made _

end Disk

/-! ### Setting up stores -/

namespace Instance

variable (directory : Path) (parsed : ParsedGenesis) (cache : UInt64)

/-- The disks after each step of one store: until it is open, after its genesis block, after
its configuration record, and when it is closed. -/
def setupStoreStages (disk : Disk) (store : Name) : List Disk :=
  disk.openStoreStages directory store cache ++
    match disk.openStore directory store cache with
    | (.error _, _) => []
    | (.ok handle, disk) =>
      match disk.withStore handle.file fun s => s.setup parsed.genesis with
      | (.error _, disk) => [disk, disk.close handle]
      | (.ok (config, hash), disk) =>
        let written := (disk.withStore handle.file fun s =>
          persistMerged s store hash config parsed.override).2
        [disk, written, written.close handle]

theorem setupStoreStages_last (disk : Disk) (store : Name) :
    disk.last (setupStoreStages directory parsed cache disk store) =
      (setupStore disk directory parsed cache store).2 := by
  rw [setupStoreStages, setupStore, initStore, Disk.last_append, Disk.openStoreStages_last]
  rcases disk.openStore directory store cache with ⟨_ | handle, opened⟩
  · rfl
  · simp only
    rcases opened.withStore handle.file fun s => s.setup parsed.genesis with ⟨_ | _, written⟩
    · rfl
    · rfl

theorem setupStoreStages_passes (disk : Disk) (store : Name) :
    Disk.Passes Disk.Step disk (setupStoreStages directory parsed cache disk store) := by
  refine (Disk.openStoreStages_passes disk directory store cache).append ?_
  rw [Disk.openStoreStages_last]
  rcases disk.openStore directory store cache with ⟨_ | handle, opened⟩
  · exact .nil opened
  · have hblock := Disk.Step.genesisBlock opened handle.file parsed.genesis
    simp only
    rcases hw : opened.withStore handle.file fun s => s.setup parsed.genesis with
      ⟨_ | ⟨config, hash⟩, written⟩
    · rw [hw] at hblock
      exact .cons hblock (.one (.close written handle))
    · rw [hw] at hblock
      exact .cons hblock (.cons (.configRecord written handle.file store hash config
        parsed.override) (.one (.close _ handle)))

/-- The disks of the stores one after the other. -/
def setupStoresStages (disk : Disk) : List Name → List Disk
  | [] => []
  | store :: rest =>
    setupStoreStages directory parsed cache disk store ++
      match setupStore disk directory parsed cache store with
      | (.error _, _) => []
      | (.ok (), disk) => setupStoresStages disk rest

theorem setupStoresStages_last (disk : Disk) (stores : List Name) :
    disk.last (setupStoresStages directory parsed cache disk stores) =
      (setupStores disk directory parsed cache stores).2 := by
  induction stores generalizing disk with
  | nil => rfl
  | cons store rest ih =>
    rw [setupStoresStages, setupStores, Disk.last_append, setupStoreStages_last]
    rcases setupStore disk directory parsed cache store with ⟨_ | _, after⟩
    · rfl
    · exact ih after

theorem setupStoresStages_passes (disk : Disk) (stores : List Name) :
    Disk.Passes Disk.Step disk (setupStoresStages directory parsed cache disk stores) := by
  induction stores generalizing disk with
  | nil => exact .nil disk
  | cons store rest ih =>
    refine (setupStoreStages_passes directory parsed cache disk store).append ?_
    rw [setupStoreStages_last]
    rcases setupStore disk directory parsed cache store with ⟨_ | _, after⟩
    · exact .nil after
    · exact ih after

/-! ### A whole run -/

/-- The disks that a run passes through after the one that it finds, to the one that it
leaves. -/
def stages (disk : Disk) (request : Request) : List Disk :=
  disk.makeDirectoriesStages request.dataDirectory ++
    match resolveDirectory disk request.dataDirectory with
    | (.error _, _) => []
    | (.ok dataDirectory, disk) =>
      let directory := Path.join dataDirectory request.name
      match isVacant disk directory, ParsedGenesis.parse request.genesis with
      | .ok true, .ok parsed =>
        setupStoresStages directory parsed request.cache disk storeNames
      | _, _ => []

theorem resolveDirectory_disk (disk : Disk) (path : Path) :
    (resolveDirectory disk path).2 = (disk.makeDirectories path).2 := by
  rw [resolveDirectory]
  split <;> next h => rw [h]

theorem provision_disk (disk : Disk) (request : Request) :
    (provision disk request).2 = disk.last (stages disk request) := by
  rw [stages, Disk.last_append, Disk.makeDirectoriesStages_last, provision,
    ← resolveDirectory_disk]
  rcases resolveDirectory disk request.dataDirectory with ⟨_ | dataDirectory, resolved⟩
  · rfl
  · simp only
    rcases isVacant resolved (Path.join dataDirectory request.name) with _ | _ | _
    · rfl
    · rfl
    · cases ParsedGenesis.parse request.genesis with
      | error e => rfl
      | ok parsed => simp only [setupStoresStages_last]

/-- **A run goes from stage to stage in single steps.** -/
theorem stages_passes (disk : Disk) (request : Request) :
    Disk.Passes Disk.Step disk (stages disk request) := by
  refine (Disk.makeDirectoriesStages_passes disk _).append ?_
  rw [Disk.makeDirectoriesStages_last, ← resolveDirectory_disk]
  rcases resolveDirectory disk request.dataDirectory with ⟨_ | dataDirectory, resolved⟩
  · exact .nil resolved
  · simp only
    rcases isVacant resolved (Path.join dataDirectory request.name) with _ | _ | _
    · exact .nil resolved
    · exact .nil resolved
    · cases ParsedGenesis.parse request.genesis with
      | error e => exact .nil resolved
      | ok parsed => exact setupStoresStages_passes _ parsed request.cache resolved storeNames

end Instance
end Provision
