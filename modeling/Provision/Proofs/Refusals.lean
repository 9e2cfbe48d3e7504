import Provision.Proofs.Attempts

/-! Runs that are refused.

A run is refused before it comes to its stores: a directory is of no use, there is something in
the directory of the instance, or the document is invalid. By then it has made nothing but the
data directory and parents of it. If there are several grounds, the run ends with the first of
them, in this order. `create_refusals` says both. -/
namespace Provision

namespace Disk

variable {disk disk' : Disk} {path : Path}

/-- Nothing has changed but that a directory and its parents, as a path names them, may be there
now. -/
structure MakesOnly (path : Path) (disk disk' : Disk) : Prop
    extends AddsDirectories disk disk' where
  named : ∀ location entry, disk'.entry? location = some entry →
    disk.entry? location = some entry ∨
      ∃ directory ∈ Path.ancestors path, disk'.locate directory = .ok location

namespace MakesOnly

theorem refl (path : Path) (disk : Disk) : MakesOnly path disk disk where
  toAddsDirectories := .refl disk
  named := fun _ _ he => .inl he

theorem makeDirectory {disk'' : Disk} (h : MakesOnly path disk disk') {directory : Path}
    (named : directory ∈ Path.ancestors path) (hm : disk'.makeDirectory directory = .ok disk'') :
    MakesOnly path disk disk'' where
  toAddsDirectories := h.toAddsDirectories.trans (.makeDirectory hm)
  named := fun location entry he => by
    obtain ⟨place, hlocate, -, hothers⟩ := makeDirectory_ok hm
    by_cases hplace : location = place
    · subst hplace
      exact .inr ⟨directory, named, hlocate⟩
    · rw [hothers location hplace] at he
      rcases h.named location entry he with he | ⟨parent, hp, hl⟩
      · exact .inl he
      · exact .inr ⟨parent, hp, (AddsDirectories.makeDirectory hm).toExtends.locate hl⟩

end MakesOnly

theorem makeDirectoriesStages_makesOnly (disk : Disk) (path : Path) :
    ∀ stage ∈ disk :: disk.makeDirectoriesStages path, MakesOnly path disk stage :=
  (makeAllStages_makesOneOf disk (Path.ancestors path)).invariant (.refl path disk)
    fun _ _ h ⟨_, hnamed, hm⟩ => h.makeDirectory hnamed hm

end Disk

/-- Does a run that ends with this error end before it comes to its stores? -/
def InstanceError.IsRefusal : InstanceError → Prop
  | .directory _ _ | .notEmpty _ | .invalidGenesis _ => True
  | .storeOpen _ _ | .genesisSetup _ _ | .storeWrite _ _ | .teardown _ _ => False

namespace Instance

variable {disk made : Disk} {request : Request} {whole directory path : Path}
  {error : InstanceError} {fileError : FileError} {α β : Type}

/-- An outcome that is a refusal. -/
def Refuses (outcome : Except (Halt InstanceError) α) : Prop :=
  ∃ error : InstanceError, error.IsRefusal ∧ outcome = .error (.failed error)

theorem refuses_map {outcome : Except (Halt InstanceError) α} {f : α → β} :
    Refuses (outcome.map f) ↔ Refuses outcome := by
  simp only [Refuses, map_eq_error_iff]

/-! ### What a store can fail with -/

theorem setupStore_not_refuses (disk : Disk) (directory : Path) (parsed : ParsedGenesis)
    (cache : UInt64) (store : Name) :
    ¬ Refuses (setupStore disk directory parsed cache store).1 := by
  rintro ⟨error, hrefusal, herror⟩
  rw [setupStore, initStore] at herror
  rcases ho : disk.openStore directory store cache with ⟨e | handle, opened⟩
  · cases e <;> simp only [ho, Halt.map] at herror <;> cases herror
    exact hrefusal
  rcases hw : opened.withStore handle.file fun s => s.setup parsed.genesis with
    ⟨e | ⟨config, hash⟩, written⟩
  · simp only [ho, hw] at herror
    cases herror
    exact hrefusal
  rcases hp : written.withStore handle.file fun s =>
    persistMerged s store hash config parsed.override with ⟨e | _, last⟩
  · have he : ∃ e', e = .storeWrite store e' := by
      have hresult : (persistMerged (written.store handle.file) store hash config
          parsed.override).1 = .error e := congrArg Prod.fst hp
      rw [persistMerged] at hresult
      split at hresult <;> cases hresult
      exact ⟨_, rfl⟩
    obtain ⟨e', rfl⟩ := he
    simp only [ho, hw, hp, Except.mapError] at herror
    cases herror
    exact hrefusal
  · simp only [ho, hw, hp, Except.mapError] at herror
    cases herror

theorem setupStores_not_refuses (disk : Disk) (directory : Path) (parsed : ParsedGenesis)
    (cache : UInt64) (stores : List Name) :
    ¬ Refuses (setupStores disk directory parsed cache stores).1 := by
  induction stores generalizing disk with
  | nil =>
    rintro ⟨error, -, herror⟩
    cases herror
  | cons store rest ih =>
    have hstore := setupStore_not_refuses disk directory parsed cache store
    rw [setupStores]
    rcases ho : setupStore disk directory parsed cache store with ⟨e | _, after⟩
    · rw [ho] at hstore
      exact hstore
    · exact ih after

/-! ### The grounds of a refusal -/

/-- The data directory can be made, and this is its absolute path. -/
structure Based (disk : Disk) (request : Request) (made : Disk) (whole : Path) : Prop where
  made : disk.makeDirectories request.dataDirectory = (.ok (), made)
  named : Path.absolute disk.workingDirectory request.dataDirectory = .ok whole

/-- A directory is of no use: the data directory cannot be made or has no absolute path, or that
of the instance cannot be looked up, or is something else. -/
inductive Unusable (disk : Disk) (request : Request) : Path → FileError → Prop
  | unmade {made : Disk} {e : FileError} :
    disk.makeDirectories request.dataDirectory = (.error e, made) →
      Unusable disk request request.dataDirectory e
  | unnamed {made : Disk} {e : FileError} :
    disk.makeDirectories request.dataDirectory = (.ok (), made) →
      Path.absolute disk.workingDirectory request.dataDirectory = .error e →
        Unusable disk request request.dataDirectory e
  | unreachable {made : Disk} {whole : Path} {e : FileError} : Based disk request made whole →
    made.locate (Path.join whole request.name) = .error e → e ≠ .notFound →
      Unusable disk request (Path.join whole request.name) e
  | notDirectory {made : Disk} {whole : Path} {location : Location} :
    Based disk request made whole →
      made.locate (Path.join whole request.name) = .ok location →
        made.entry? location ≠ some .directory →
          Unusable disk request (Path.join whole request.name) .notDirectory

/-- There is something in the directory of the instance. -/
inductive Occupied (disk : Disk) (request : Request) : Path → Prop
  | intro {made : Disk} {whole : Path} {location : Location} : Based disk request made whole →
    made.locate (Path.join whole request.name) = .ok location →
      made.entry? location = some .directory → made.hasEntries location →
        Occupied disk request (Path.join whole request.name)

theorem isVacant_eq_error_iff : isVacant made directory = .error error ↔
    (∃ e, made.locate directory = .error e ∧ e ≠ .notFound ∧ .directory directory e = error) ∨
      ∃ location, made.locate directory = .ok location ∧
        made.entry? location ≠ some .directory ∧ .directory directory .notDirectory = error := by
  rw [isVacant, Disk.isEmptyOrMissing]
  cases hl : made.locate directory with
  | error e => cases e <;> simp [Except.mapError]
  | ok location =>
    by_cases hd : made.entry? location = some .directory <;>
      simp [Disk.isDirectoryAt, hd, Except.mapError]

theorem isVacant_eq_false_iff : isVacant made directory = .ok false ↔
    ∃ location, made.locate directory = .ok location ∧
      made.entry? location = some .directory ∧ made.hasEntries location := by
  rw [isVacant, Disk.isEmptyOrMissing]
  cases hl : made.locate directory with
  | error e => cases e <;> simp [Except.mapError]
  | ok location =>
    by_cases hd : made.entry? location = some .directory <;>
      simp [Disk.isDirectoryAt, hd, Except.mapError]

/-- The working directory is the same before and after the data directory is made. -/
theorem resolveDirectory_eq (disk : Disk) (path : Path) : resolveDirectory disk path =
    match disk.makeDirectories path with
    | (.error e, made) => (.error (.directory path e), made)
    | (.ok (), made) =>
      ((Path.absolute disk.workingDirectory path).mapError (.directory path), made) := by
  have hadds := Disk.makeDirectories_adds disk path
  rw [resolveDirectory]
  rcases hm : disk.makeDirectories path with ⟨e | _, after⟩
  · rfl
  · rw [hm] at hadds
    have hdirectory : after.workingDirectory = disk.workingDirectory :=
      hadds.toExtends.workingDirectory
    simp only [hdirectory]

theorem resolveDirectory_eq_error_iff : resolveDirectory disk path = (.error error, made) ↔
    ∃ e, .directory path e = error ∧ (disk.makeDirectories path = (.error e, made) ∨
      disk.makeDirectories path = (.ok (), made) ∧
        Path.absolute disk.workingDirectory path = .error e) := by
  rw [resolveDirectory_eq]
  rcases hm : disk.makeDirectories path with ⟨e | _, after⟩
  · simp
  · cases hnamed : Path.absolute disk.workingDirectory path <;> simp [Except.mapError, and_comm]

theorem based_iff : Based disk request made whole ↔
    resolveDirectory disk request.dataDirectory = (.ok whole, made) := by
  rw [resolveDirectory_eq]
  constructor
  · rintro ⟨hmade, hnamed⟩
    rw [hmade, hnamed]
    rfl
  · intro h
    rcases hm : disk.makeDirectories request.dataDirectory with ⟨e | _, after⟩
    · rw [hm] at h
      cases h
    · cases hnamed : Path.absolute disk.workingDirectory request.dataDirectory <;>
        simp only [hm, hnamed, Except.mapError] at h <;> cases h
      exact ⟨hm, hnamed⟩

/-- If the data directory is of no use, that is the only ground. -/
theorem unusable_iff_of_unresolved
    (h : resolveDirectory disk request.dataDirectory = (.error error, made)) :
    Unusable disk request path fileError ↔ error = .directory path fileError := by
  have hbased : ∀ {made whole}, ¬ Based disk request made whole := by
    intro made whole hbased
    rw [based_iff.mp hbased] at h
    cases h
  constructor
  · rintro (hmade | ⟨hmade, hnamed⟩ | ⟨hthere, -, -⟩ | ⟨hthere, -, -⟩)
    · rw [resolveDirectory_eq_error_iff.mpr ⟨_, rfl, .inl hmade⟩] at h
      cases h
      rfl
    · rw [resolveDirectory_eq_error_iff.mpr ⟨_, rfl, .inr ⟨hmade, hnamed⟩⟩] at h
      cases h
      rfl
    · exact absurd hthere hbased
    · exact absurd hthere hbased
  · rintro rfl
    obtain ⟨e, ⟨⟩, hmade | ⟨hmade, hnamed⟩⟩ := resolveDirectory_eq_error_iff.mp h
    · exact .unmade hmade
    · exact .unnamed hmade hnamed

theorem unusable_iff_of_resolved
    (h : resolveDirectory disk request.dataDirectory = (.ok whole, made)) :
    Unusable disk request path fileError ↔
      isVacant made (Path.join whole request.name) = .error (.directory path fileError) := by
  have hbased := based_iff.mpr h
  rw [isVacant_eq_error_iff]
  constructor
  · rintro (hmade | ⟨hmade, hnamed⟩ | ⟨hthere, hlocate, hfound⟩ | ⟨hthere, hlocate, hother⟩)
    · rw [hbased.made] at hmade
      cases hmade
    · rw [hbased.named] at hnamed
      cases hnamed
    · rw [based_iff.mp hthere] at h
      cases h
      exact .inl ⟨_, hlocate, hfound, rfl⟩
    · rw [based_iff.mp hthere] at h
      cases h
      exact .inr ⟨_, hlocate, hother, rfl⟩
  · rintro (⟨e, hlocate, hfound, herror⟩ | ⟨location, hlocate, hother, herror⟩)
    · cases herror
      exact .unreachable hbased hlocate hfound
    · cases herror
      exact .notDirectory hbased hlocate hother

theorem occupied_iff_of_resolved
    (h : resolveDirectory disk request.dataDirectory = (.ok whole, made)) :
    Occupied disk request path ↔
      Path.join whole request.name = path ∧
        isVacant made (Path.join whole request.name) = .ok false := by
  constructor
  · rintro ⟨hbased, hlocate, hdirectory, hfull⟩
    rw [based_iff.mp hbased] at h
    cases h
    exact ⟨rfl, isVacant_eq_false_iff.mpr ⟨_, hlocate, hdirectory, hfull⟩⟩
  · rintro ⟨rfl, hvacant⟩
    obtain ⟨location, hlocate, hdirectory, hfull⟩ := isVacant_eq_false_iff.mp hvacant
    exact .intro (based_iff.mpr h) hlocate hdirectory hfull

/-! ### What a refused run leaves -/

/-- A refused run tries to open no store and makes only the data directory. -/
theorem untouched_of_refuses (h : Refuses (provision disk request).1) :
    attempts disk request = [] ∧
      ∀ stage ∈ disk :: stages disk request, Disk.MakesOnly request.dataDirectory disk stage := by
  rcases refused_or_proceeds disk request with
    ⟨_, _, hrefused⟩ | ⟨_, _, _, -, -, -, hproceeds⟩
  · rw [hrefused.stages_eq]
    exact ⟨hrefused.attempts_eq, Disk.makeDirectoriesStages_makesOnly disk _⟩
  · rw [hproceeds.outcome, refuses_map] at h
    exact (setupStores_not_refuses _ _ _ _ _ h).elim

/-! ### The order of the grounds -/

/-- The first ground to refuse a run: a directory of no use, or else something in the directory of
the instance, or else an invalid document. -/
def Ground (disk : Disk) (request : Request) : InstanceError → Prop
  | .directory path e => Unusable disk request path e
  | .notEmpty path => (∀ path e, ¬ Unusable disk request path e) ∧ Occupied disk request path
  | .invalidGenesis e =>
    (∀ path e, ¬ Unusable disk request path e) ∧ (∀ path, ¬ Occupied disk request path) ∧
      ParsedGenesis.parse request.genesis = .error e
  | .storeOpen _ _ | .genesisSetup _ _ | .storeWrite _ _ | .teardown _ _ => False

theorem ground_iff_of_unresolved
    (h : resolveDirectory disk request.dataDirectory = (.error error, made))
    (other : InstanceError) : Ground disk request other ↔ error = other := by
  have hunusable := fun p e => @unusable_iff_of_unresolved disk made request p error e h
  obtain ⟨e, rfl, -⟩ := resolveDirectory_eq_error_iff.mp h
  cases other <;> simp [Ground, hunusable]

theorem ground_iff_of_unusable
    (h : resolveDirectory disk request.dataDirectory = (.ok whole, made))
    (hv : isVacant made (Path.join whole request.name) = .error error)
    (other : InstanceError) : Ground disk request other ↔ error = other := by
  have hunusable := fun p e => @unusable_iff_of_resolved disk made request whole p e h
  obtain ⟨path, e, rfl⟩ : ∃ path e, error = .directory path e := by
    rcases isVacant_eq_error_iff.mp hv with ⟨e, -, -, he⟩ | ⟨-, -, -, he⟩
    · exact ⟨_, _, he.symm⟩
    · exact ⟨_, _, he.symm⟩
  cases other <;> simp [Ground, hunusable, hv]

theorem ground_iff_of_occupied
    (h : resolveDirectory disk request.dataDirectory = (.ok whole, made))
    (hv : isVacant made (Path.join whole request.name) = .ok false) (other : InstanceError) :
    Ground disk request other ↔ .notEmpty (Path.join whole request.name) = other := by
  have hunusable := fun p e => @unusable_iff_of_resolved disk made request whole p e h
  have hoccupied := fun p => @occupied_iff_of_resolved disk made request whole p h
  cases other <;> simp [Ground, hunusable, hoccupied, hv]

theorem ground_iff_of_vacant
    (h : resolveDirectory disk request.dataDirectory = (.ok whole, made))
    (hv : isVacant made (Path.join whole request.name) = .ok true) (other : InstanceError) :
    Ground disk request other ↔
      ∃ e, .invalidGenesis e = other ∧ ParsedGenesis.parse request.genesis = .error e := by
  have hunusable := fun p e => @unusable_iff_of_resolved disk made request whole p e h
  have hoccupied := fun p => @occupied_iff_of_resolved disk made request whole p h
  cases other <;> simp [Ground, hunusable, hoccupied, hv]

theorem Ground.isRefusal (h : Ground disk request error) : error.IsRefusal := by
  cases error <;> trivial

/-- A run is refused with the first ground that there is. -/
theorem ground_iff (disk : Disk) (request : Request) (other : InstanceError) :
    Ground disk request other ↔
      other.IsRefusal ∧ (provision disk request).1 = .error (.failed other) := by
  have hends : ∀ {made error}, Refused disk request made error →
      (∀ other, Ground disk request other ↔ error = other) →
        (Ground disk request other ↔
          other.IsRefusal ∧ (provision disk request).1 = .error (.failed other)) := by
    intro made error hrefused hiff
    rw [hiff, hrefused.outcome]
    constructor
    · rintro rfl
      exact ⟨((hiff _).mpr rfl).isRefusal, rfl⟩
    · rintro ⟨-, h⟩
      cases h
      rfl
  cases run_course disk request with
  | unresolved hr hrefused => exact hends hrefused (ground_iff_of_unresolved hr)
  | unusable hr hv hrefused => exact hends hrefused (ground_iff_of_unusable hr hv)
  | occupied hr hv hrefused => exact hends hrefused (ground_iff_of_occupied hr hv)
  | invalid hr hv hg hrefused =>
    exact hends hrefused fun other => by simp [ground_iff_of_vacant hr hv, hg]
  | proceeds hr hv hg hproceeds =>
    have hbeyond : ¬ Refuses (provision disk request).1 := by
      rw [hproceeds.outcome, refuses_map]
      exact setupStores_not_refuses _ _ _ _ _
    have hnone : ¬ Ground disk request other := by simp [ground_iff_of_vacant hr hv, hg]
    exact iff_of_false hnone fun ⟨hrefusal, h⟩ => hbeyond ⟨other, hrefusal, h⟩

/-- There is no ground exactly if the directories are of use, that of the instance is empty or
missing, and the document is accepted. -/
theorem forall_not_ground_iff : (∀ error, ¬ Ground disk request error) ↔
    (∀ path e, ¬ Unusable disk request path e) ∧ (∀ path, ¬ Occupied disk request path) ∧
      ∃ parsed, ParsedGenesis.parse request.genesis = .ok parsed := by
  constructor
  · intro hnone
    have husable : ∀ path e, ¬ Unusable disk request path e :=
      fun path e hunusable => hnone (.directory path e) hunusable
    have hempty : ∀ path, ¬ Occupied disk request path :=
      fun path hoccupied => hnone (.notEmpty path) ⟨husable, hoccupied⟩
    refine ⟨husable, hempty, ?_⟩
    cases hp : ParsedGenesis.parse request.genesis with
    | error e => exact absurd ⟨husable, hempty, hp⟩ (hnone (.invalidGenesis e))
    | ok parsed => exact ⟨parsed, rfl⟩
  · rintro ⟨husable, hempty, parsed, hp⟩ error hground
    cases error with
    | directory path e => exact husable path e hground
    | notEmpty path => exact hempty path hground.2
    | invalidGenesis e =>
      have hinvalid := hground.2.2
      rw [hp] at hinvalid
      cases hinvalid
    | _ => exact hground

/-- **A run that is refused leaves nothing but the data directory and parents of it, and it is
refused with the first ground that there is.** It ends in another way, and so with an error of a
store, only if there is none. -/
theorem create_refusals (host : Host) (clock : Int) (request : Request) :
    (Refuses (create host clock request).1 →
      attempts host.disk request = [] ∧
        (∀ stage ∈ host.disk :: stages host.disk request,
          Disk.MakesOnly request.dataDirectory host.disk stage) ∧
        Disk.MakesOnly request.dataDirectory host.disk (create host clock request).2.disk) ∧
      (∀ error : InstanceError, Ground host.disk request error ↔
        error.IsRefusal ∧ (create host clock request).1 = .error (.failed error)) ∧
      (¬ Refuses (create host clock request).1 ↔
        (∀ path e, ¬ Unusable host.disk request path e) ∧
          (∀ path, ¬ Occupied host.disk request path) ∧
            ∃ parsed, ParsedGenesis.parse request.genesis = .ok parsed) := by
  have hgrounds : ∀ error : InstanceError, Ground host.disk request error ↔
      error.IsRefusal ∧ (create host clock request).1 = .error (.failed error) := by
    intro error
    rw [create_eq_error_iff]
    exact ground_iff host.disk request error
  refine ⟨?_, hgrounds, ?_⟩
  · intro h
    rw [create_outcome, refuses_map] at h
    obtain ⟨hunopened, hstages⟩ := untouched_of_refuses h
    refine ⟨hunopened, hstages, ?_⟩
    rw [create_disk]
    exact hstages _ (Disk.last_mem _ _)
  · rw [← forall_not_ground_iff, Refuses, not_exists]
    exact forall_congr' fun error => not_congr (hgrounds error).symm

/-- A second run with the same request is refused. -/
theorem create_refusals_again : attempts leastHost.disk leastRequest = [] ∧
    Ground leastHost.disk leastRequest (.notEmpty ['/', 'd', '/', 'g', 'e', 't', 'h']) := by
  have hagain : (create leastHost 0 leastRequest).1 =
      .error (.failed (.notEmpty ['/', 'd', '/', 'g', 'e', 't', 'h'])) := by
    decide +kernel
  obtain ⟨huntouched, hground, -⟩ := create_refusals leastHost 0 leastRequest
  exact ⟨(huntouched ⟨.notEmpty _, trivial, hagain⟩).1, (hground _).mpr ⟨trivial, hagain⟩⟩

end Instance
end Provision
