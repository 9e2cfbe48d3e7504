import Provision.Proofs.Detours

/-! How runs occupy the directories of instances.

Once a run has opened a store, the directory of the store is in that of the instance,
`entry?_of_attempt`, and as long as anything is in there, a run for the same instance is refused,
`create_occupied`. Here the name of the instance is one name, so that no run misses what is
there: none changes it, `create_keeps`, and one that goes through has found nothing,
`noEntries_of_create`. -/
namespace Provision

namespace Disk

variable {disk disk' : Disk}

theorem entry?_of_tree (h : disk'.tree = disk.tree) (location : Location) :
    disk'.entry? location = disk.entry? location := by
  rw [entry?_def, entry?_def, h]

theorem hasEntries_of_entry? {location : Location} {name : Name} {entry : Entry}
    (hname : name ≠ []) (h : disk.entry? (location ++ [name]) = some entry) :
    disk.hasEntries location := by
  rw [entry?_append location hname] at h
  exact hasEntries_iff.mpr ⟨name, entry, h⟩

end Disk

namespace Instance

variable {host : Host} {disk made : Disk} {request : Request} {parsed : ParsedGenesis}
  {directory : Path} {cache : UInt64}

/-! ### What an attempt leaves -/

/-- After a store has been opened, nothing is made. -/
theorem setupStore_tree (disk : Disk) (directory : Path) (parsed : ParsedGenesis)
    (cache : UInt64) (store : Name) : (setupStore disk directory parsed cache store).2.tree =
      (disk.openStore directory store cache).2.tree := by
  rw [setupStore, initStore]
  rcases disk.openStore directory store cache with ⟨_ | handle, opened⟩
  · rfl
  · simp only
    rcases hw : opened.withStore handle.file fun s => s.setup parsed.genesis with
      ⟨_ | ⟨config, hash⟩, written⟩
    all_goals
      have htree : written.tree = opened.tree := congrArg (fun r => r.2.tree) hw.symm
      exact htree

theorem setupStore_extends (disk : Disk) (directory : Path) (parsed : ParsedGenesis)
    (cache : UInt64) (store : Name) :
    Disk.Extends disk (setupStore disk directory parsed cache store).2 := by
  obtain ⟨place, id, -, hgrows⟩ := Attempt.setupStore_grows ⟨disk, directory, store, cache⟩ parsed
  have hstages := fun stage hs => (hgrows stage hs).toExtends
  rw [← setupStoreStages_last]
  exact List.forall_mem_cons.mpr ⟨.refl disk, hstages⟩ _ (Disk.last_mem _ _)

theorem setupStores_extends (disk : Disk) (directory : Path) (parsed : ParsedGenesis)
    (cache : UInt64) (stores : List Name) :
    Disk.Extends disk (setupStores disk directory parsed cache stores).2 := by
  induction stores generalizing disk with
  | nil => exact .refl disk
  | cons store rest ih =>
    have hstore := setupStore_extends disk directory parsed cache store
    rw [setupStores]
    rcases ho : setupStore disk directory parsed cache store with ⟨_ | _, after⟩
    · rw [ho] at hstore
      exact hstore
    · rw [ho] at hstore
      exact hstore.trans (ih after)

/-- A store that has been opened has its database in its place. -/
theorem Attempt.entry?_of_succeeds {attempt : Attempt} (h : attempt.succeeds)
    (absolute : Path.isAbsolute attempt.directory) (coherent : attempt.disk.Coherent)
    (plain : attempt.store.IsPlain) :
    ∃ id, Disk.entry? (attempt.disk.openStore attempt.directory attempt.store attempt.cache).2
      (storePlace attempt.directory attempt.store) = some (.file id) := by
  obtain ⟨handle, hok⟩ := exists_ok_of_isOk h
  rcases ho : attempt.disk.openStore attempt.directory attempt.store attempt.cache with
    ⟨outcome, opened⟩
  rw [ho] at hok
  change outcome = _ at hok
  subst hok
  obtain ⟨table, hopened⟩ := Disk.openStore_ok (follow_databasePath absolute plain)
    (fun id he => coherent.lt_nextFile he) ho
  exact ⟨handle.file, hopened.holds.entry⟩

/-- So it is at the end, whatever becomes of the store and of those after it. -/
theorem attemptsOn_leave (absolute : Path.isAbsolute directory) (coherent : disk.Coherent)
    {stores : List Name} (plain : ∀ store ∈ stores, store.IsPlain) :
    ∀ attempt ∈ attemptsOn directory parsed cache disk stores, attempt.succeeds →
      ∃ id, Disk.entry? (setupStores disk directory parsed cache stores).2
        (storePlace directory attempt.store) = some (.file id) := by
  induction stores generalizing disk with
  | nil => intro attempt ha; cases ha
  | cons store rest ih =>
    have hplain := plain store (List.mem_cons_self ..)
    have htree := setupStore_tree disk directory parsed cache store
    intro attempt ha hopens
    rw [attemptsOn] at ha
    rw [setupStores]
    rcases List.mem_cons.mp ha with rfl | ha
    · obtain ⟨id, hentry⟩ := Attempt.entry?_of_succeeds hopens absolute coherent hplain
      rw [← Disk.entry?_of_tree htree] at hentry
      refine ⟨id, ?_⟩
      rcases ho : setupStore disk directory parsed cache store with ⟨_ | _, after⟩
      · rw [ho] at hentry
        exact hentry
      · rw [ho] at hentry
        exact (setupStores_extends after directory parsed cache rest).kept _ _ hentry
    · rcases ho : setupStore disk directory parsed cache store with ⟨_ | _, after⟩
      · rw [ho] at ha
        cases ha
      · rw [ho] at ha
        exact ih (setupStore_coherent coherent ho)
          (fun other hm => plain other (List.mem_cons_of_mem _ hm)) attempt ha hopens

/-- If all stores have been set up, each of them has been opened. -/
theorem exists_attempt_of_ok {stores : List Name} {after : Disk}
    (h : setupStores disk directory parsed cache stores = (.ok (), after)) :
    ∀ store ∈ stores, ∃ attempt ∈ attemptsOn directory parsed cache disk stores,
      attempt.store = store ∧ attempt.succeeds := by
  induction stores generalizing disk with
  | nil => intro store hs; cases hs
  | cons first rest ih =>
    rw [setupStores] at h
    rcases ho : setupStore disk directory parsed cache first with ⟨_ | _, between⟩
    · rw [ho] at h
      cases h
    · rw [ho] at h
      obtain ⟨handle, opened, _, _, _, hopen, -⟩ := setupStore_eq_ok ho
      intro store hs
      rw [attemptsOn, ho]
      rcases List.mem_cons.mp hs with rfl | hs
      · refine ⟨_, List.mem_cons_self .., rfl, ?_⟩
        rw [Attempt.succeeds, hopen]
        rfl
      · obtain ⟨attempt, ha, hattempt⟩ := ih h store hs
        exact ⟨attempt, List.mem_cons_of_mem _ ha, hattempt⟩

/-! ### Runs for one instance -/

/-- The directory of the instance of a request, if its data directory can be made. -/
def directory? (disk : Disk) (request : Request) : Option Path :=
  match resolveDirectory disk request.dataDirectory with
  | (.ok whole, _) => some (Path.join whole request.name)
  | (.error _, _) => none

theorem directory?_eq_some_iff : directory? disk request = some directory ↔
    ∃ whole made, resolveDirectory disk request.dataDirectory = (.ok whole, made) ∧
      Path.join whole request.name = directory := by
  rw [directory?]
  rcases resolveDirectory disk request.dataDirectory with ⟨_ | whole, made⟩ <;> simp

/-- What a run into a directory ends with if there is something in it. The path of the directory
may be one that the operating system refuses, though a shorter path to it is none. -/
def occupiedError (directory : Path) : InstanceError :=
  match Disk.checkPath directory with
  | .ok _ => .notEmpty directory
  | .error e => .directory directory e

/-- **A run into a directory with something in it is refused.** -/
theorem create_occupied (coherent : host.disk.Coherent) (clock : Int)
    (plain : request.name.IsPlain) (named : directory? host.disk request = some directory)
    (full : host.disk.hasEntries (directoryPlace directory)) :
    (create host clock request).1 = .error (.failed (occupiedError directory)) := by
  obtain ⟨whole, made, hr, rfl⟩ := directory?_eq_some_iff.mp named
  have hresolved := resolveDirectory_ok coherent hr
  have hvacant := hresolved.isVacant_of_hasEntries (above_notMem_of_isPlain plain)
    (hresolved.adds.toExtends.hasEntries coherent full)
  rw [create_eq_error_iff, occupiedError]
  cases hcheck : Disk.checkPath (Path.join whole request.name) <;>
    simp [provision, hr, hvacant, hcheck, Except.mapError, Except.map]

theorem noEntries_of_create (coherent : host.disk.Coherent) {clock : Int}
    (plain : request.name.IsPlain) (named : directory? host.disk request = some directory)
    {receipt : Receipt} (h : (create host clock request).1 = .ok receipt) :
    host.disk.hasEntries (directoryPlace directory) = false := by
  rw [Bool.eq_false_iff]
  intro full
  rw [create_occupied coherent clock plain named full] at h
  cases h

/-- A run changes no file that was there. -/
theorem create_keeps (coherent : host.disk.Coherent) (clock : Int)
    (plain : request.name.IsPlain) :
    Disk.Keeps host.disk (create host clock request).2.disk := by
  have hmisses := not_misses_of_level coherent (above_notMem_of_isPlain plain)
  have hkeeps := stages_keeps fun attempt ha id hid => by
    rw [found?_of_not_misses coherent hmisses attempt ha] at hid
    cases hid
  rw [create_disk]
  exact List.forall_mem_cons.mpr ⟨.ofDirectories (.refl _), hkeeps⟩ _ (Disk.last_mem _ _)

/-- Only a run that goes on to the stores tries to open any. -/
theorem proceeds_of_attempt (named : directory? disk request = some directory)
    {attempt : Attempt} (ha : attempt ∈ attempts disk request) :
    ∃ whole made parsed, resolveDirectory disk request.dataDirectory = (.ok whole, made) ∧
      Path.join whole request.name = directory ∧
        Proceeds disk request made whole directory parsed := by
  obtain ⟨whole, made, hr, rfl⟩ := directory?_eq_some_iff.mp named
  rcases refused_or_proceeds disk request with
    ⟨_, _, hrefused⟩ | ⟨_, _, parsed, hr', -, -, hproceeds⟩
  · rw [hrefused.attempts_eq] at ha
    cases ha
  · rw [hr] at hr'
    cases hr'
    exact ⟨whole, made, parsed, hr, rfl, hproceeds⟩

/-- **A store that a run has opened has its directory in that of the instance.** -/
theorem entry?_of_attempt (coherent : host.disk.Coherent) (clock : Int)
    (named : directory? host.disk request = some directory) {attempt : Attempt}
    (ha : attempt ∈ attempts host.disk request) (opens : attempt.succeeds) :
    Disk.entry? (create host clock request).2.disk (directoryPlace directory ++ [attempt.store]) =
      some .directory := by
  obtain ⟨whole, made, parsed, hr, rfl, hproceeds⟩ := proceeds_of_attempt named ha
  have hresolved := resolveDirectory_ok coherent hr
  rw [hproceeds.attempts_eq] at ha
  obtain ⟨id, hentry⟩ := attemptsOn_leave (Path.isAbsolute_join hresolved.absolute _)
    hresolved.coherent storeNames_plain attempt ha opens
  have hfinal := create_coherent coherent clock request
  have hdisk : (create host clock request).2.disk = (setupStores made
      (Path.join whole request.name) parsed request.cache storeNames).2 := by
    rw [create_disk, ← provision_disk, hproceeds.outcome]
  rw [hdisk] at hfinal ⊢
  rw [storePlace_eq, Disk.entry?_append _ databaseName_isPlain.nonempty] at hentry
  have hinside := (hfinal.placed _ _ hentry).inside
  rw [List.dropLast_concat] at hinside
  exact hinside

/-- A run that goes through has opened every store. -/
theorem attempt_of_create {clock : Int} {receipt : Receipt}
    (h : (create host clock request).1 = .ok receipt) :
    ∀ store ∈ storeNames, ∃ attempt ∈ attempts host.disk request,
      attempt.store = store ∧ attempt.succeeds := by
  rw [create_outcome, map_eq_ok_iff] at h
  obtain ⟨_, h, -⟩ := h
  rcases refused_or_proceeds host.disk request with
    ⟨_, _, hrefused⟩ | ⟨_, _, parsed, -, -, -, hproceeds⟩
  · rw [hrefused.outcome] at h
    cases h
  · rw [hproceeds.outcome, map_eq_ok_iff] at h
    obtain ⟨⟨⟩, h, -⟩ := h
    rw [hproceeds.attempts_eq]
    exact exists_attempt_of_ok (Prod.ext h rfl)

end Instance
end Provision
