import Provision.Proofs.Attempts

/-! Runs that miss what is in their directory.

Before a run writes anything it looks whether there is something in the directory of the
instance. A path that goes through a directory which is not there, and up again, is not found;
but setting up the first store makes that directory, and then the path leads to a place that may
have something in it. A run that misses nothing in this way is careful, `careful_of_not_misses`,
and the files that were there are safe exactly as long as no run misses them and still comes
through, `careful_iff`: as it does if the first store is found at last, `not_careful_of_found`. An
instance whose name goes up nowhere is never missed, `not_misses_of_level`. -/
namespace Provision.Instance

variable {host : Host} {disk : Disk} {request : Request}

/-! ### Care -/

/-- What a run owes to what is there: it opens no file that was there, it changes nothing, and
it ends in an error if there is something in the directory of the instance. -/
structure Careful (host : Host) (clock : Int) (request : Request) : Prop where
  unopened : ∀ attempt ∈ attempts host.disk request, ∀ id, attempt.found? = some id →
    host.disk.nextFile ≤ id
  unchanged : ∀ stage ∈ stages host.disk request, Disk.Keeps host.disk stage
  refused : ∀ whole made, resolveDirectory host.disk request.dataDirectory = (.ok whole, made) →
    made.hasEntries (directoryPlace (Path.join whole request.name)) →
      ∃ error, (create host clock request).1 = .error error

/-- The directory of the instance is not found, though there is something in the place that its
path means, and the document is accepted. -/
def Misses (disk : Disk) (request : Request) : Prop :=
  ∃ whole made parsed, resolveDirectory disk request.dataDirectory = (.ok whole, made) ∧
    made.locate (Path.join whole request.name) = .error .notFound ∧
    made.hasEntries (directoryPlace (Path.join whole request.name)) ∧
    ParsedGenesis.parse request.genesis = .ok parsed

/-- The run comes as far as a file that was there, or to its end. -/
def ComesThrough (host : Host) (clock : Int) (request : Request) : Prop :=
  (∃ receipt, (create host clock request).1 = .ok receipt) ∨
    ∃ attempt ∈ attempts host.disk request, ∃ id < host.disk.nextFile, attempt.found? = some id

/-- A name that goes up nowhere leads past nothing. -/
theorem not_misses_of_level (coherent : disk.Coherent)
    (level : Path.above ∉ Path.names request.name) : ¬ Misses disk request := by
  rintro ⟨whole, made, parsed, hr, hl, hfull, -⟩
  have hresolved := resolveDirectory_ok coherent hr
  have hvacant : isVacant made (Path.join whole request.name) = .ok true :=
    (isVacant_eq_ok_iff (Path.isAbsolute_join hresolved.absolute _)).mpr (.inl ⟨hl, rfl⟩)
  rw [hresolved.noEntries_of_isVacant level hvacant] at hfull
  cases hfull

/-- A run that misses nothing and is not refused finds a directory without entries. -/
theorem noEntries_of_not_misses (coherent : disk.Coherent) (h : ¬ Misses disk request)
    {made : Disk} {whole : Path} {parsed : ParsedGenesis}
    (resolved : resolveDirectory disk request.dataDirectory = (.ok whole, made))
    (vacant : isVacant made (Path.join whole request.name) = .ok true)
    (accepted : ParsedGenesis.parse request.genesis = .ok parsed) :
    made.hasEntries (directoryPlace (Path.join whole request.name)) = false := by
  have hresolved := resolveDirectory_ok coherent resolved
  rcases (isVacant_eq_ok_iff (Path.isAbsolute_join hresolved.absolute _)).mp vacant with
    ⟨hl, -⟩ | ⟨-, -, hempty⟩
  · rw [Bool.eq_false_iff]
    exact fun hfull => h ⟨whole, made, parsed, resolved, hl, hfull, accepted⟩
  · simpa using hempty

/-- A run that misses nothing finds no file. -/
theorem found?_of_not_misses (coherent : disk.Coherent) (h : ¬ Misses disk request) :
    ∀ attempt ∈ attempts disk request, attempt.found? = none := by
  intro attempt ha
  rcases refused_or_proceeds disk request with
    ⟨_, _, hrefused⟩ | ⟨_, _, _, hr, hv, hg, hproceeds⟩
  · rw [hrefused.attempts_eq] at ha
    cases ha
  · rw [hproceeds.attempts_eq] at ha
    have hresolved := resolveDirectory_ok coherent hr
    have hempty := noEntries_of_not_misses coherent h hr hv hg
    exact attemptsOn_found? (Path.isAbsolute_join hresolved.absolute _) hresolved.coherent
      storeNames_plain storeNames_nodup
      (fun store hs => noFile_of_vacant hresolved.coherent hempty (storeNames_plain store hs))
      attempt ha

/-- What is not missed has a run end in an error, if there is something in it. -/
theorem refused_of_not_misses (coherent : disk.Coherent) (h : ¬ Misses disk request)
    {made : Disk} {whole : Path}
    (resolved : resolveDirectory disk request.dataDirectory = (.ok whole, made))
    (full : made.hasEntries (directoryPlace (Path.join whole request.name))) :
    ∃ error, (provision disk request).1 = .error error := by
  rcases refused_or_proceeds disk request with
    ⟨_, _, hrefused⟩ | ⟨_, _, _, hr, hv, hg, -⟩
  · exact ⟨_, by rw [hrefused.outcome]⟩
  · have hempty := noEntries_of_not_misses coherent h hr hv hg
    rw [resolved] at hr
    cases hr
    rw [full] at hempty
    cases hempty

/-- **A run that misses nothing is careful.** -/
theorem careful_of_not_misses (coherent : host.disk.Coherent) (clock : Int)
    (h : ¬ Misses host.disk request) : Careful host clock request := by
  have hnone := found?_of_not_misses coherent h
  have hunopened : ∀ attempt ∈ attempts host.disk request, ∀ id, attempt.found? = some id →
      host.disk.nextFile ≤ id := by
    intro attempt ha id hfound
    rw [hnone attempt ha] at hfound
    cases hfound
  refine ⟨hunopened, stages_keeps hunopened, ?_⟩
  intro whole made hr hfull
  obtain ⟨error, herror⟩ := refused_of_not_misses coherent h hr hfull
  exact ⟨error, create_eq_error_iff.mpr herror⟩

/-- A run that misses something is still careful if it does not come through. -/
theorem careful_of_not_comesThrough {clock : Int} (h : ¬ ComesThrough host clock request) :
    Careful host clock request := by
  obtain ⟨hstops, hnew⟩ := not_or.mp h
  have hunopened : ∀ attempt ∈ attempts host.disk request, ∀ id, attempt.found? = some id →
      host.disk.nextFile ≤ id :=
    fun attempt ha id hfound => Nat.le_of_not_lt fun hid => hnew ⟨attempt, ha, id, hid, hfound⟩
  refine ⟨hunopened, stages_keeps hunopened, fun _ _ _ _ => ?_⟩
  cases houtcome : (create host clock request).1 with
  | error error => exact ⟨error, rfl⟩
  | ok receipt => exact absurd ⟨receipt, houtcome⟩ hstops

/-- **A run is careful exactly if it does not come through a directory that it misses**: one that
is not found, because a directory on the way to it is still missing, and has something in it. -/
theorem careful_iff (coherent : host.disk.Coherent) (clock : Int) (request : Request) :
    Careful host clock request ↔
      ¬ (Misses host.disk request ∧ ComesThrough host clock request) := by
  constructor
  · rintro hcareful ⟨⟨whole, made, parsed, hr, -, hfull, -⟩, hcomes⟩
    rcases hcomes with ⟨receipt, hok⟩ | ⟨attempt, ha, id, hid, hfound⟩
    · obtain ⟨error, herror⟩ := hcareful.refused whole made hr hfull
      rw [hok] at herror
      cases herror
    · exact absurd (hcareful.unopened attempt ha id hfound) (Nat.not_le.mpr hid)
  · intro hsafe
    by_cases hmisses : Misses host.disk request
    · exact careful_of_not_comesThrough fun hcomes => hsafe ⟨hmisses, hcomes⟩
    · exact careful_of_not_misses coherent clock hmisses

/-- If the first store is found at last, on a way that was missing, a run is not careful. -/
theorem not_careful_of_found (coherent : host.disk.Coherent) (clock : Int) {whole : Path}
    {made : Disk} {parsed : ParsedGenesis} {id : Nat}
    (resolved : resolveDirectory host.disk request.dataDirectory = (.ok whole, made))
    (missed : made.locate (Path.join whole request.name) = .error .notFound)
    (accepted : ParsedGenesis.parse request.genesis = .ok parsed)
    (found : made.foundOnOpening? (Path.join whole request.name) fullStore request.cache =
      some id) : ¬ Careful host clock request := by
  intro hcareful
  have hresolved := resolveDirectory_ok coherent resolved
  have hvacant : isVacant made (Path.join whole request.name) = .ok true :=
    (isVacant_eq_ok_iff (Path.isAbsolute_join hresolved.absolute _)).mpr (.inl ⟨missed, rfl⟩)
  have hfirst : ⟨made, Path.join whole request.name, fullStore, request.cache⟩ ∈
      attempts host.disk request := by
    simp only [attempts, resolved, hvacant, accepted, storeNames, attemptsOn]
    exact List.mem_cons_self
  have hnew := hcareful.unopened _ hfirst id found
  have hold := hresolved.coherent.foundOnOpening?_lt found
  rw [hresolved.adds.nextFile] at hold
  omega

/-- A document with the block of the least one and another configuration. -/
@[irreducible]
def londonDocument : List Char := r#"{"difficulty":0,"config":{"londonBlock":0}}"#.toList

/-- A request for the same instance by way of a directory that is not there. -/
def detourRequest : Request where
  dataDirectory := leastRequest.dataDirectory
  name := ['x', '/', '.', '.', '/'] ++ leastRequest.name
  genesis := londonDocument

/-- On this host the detour is what decides whether a run is careful. -/
theorem careful_iff_detour : leastHost.disk.Coherent ∧ (Careful leastHost 0 detourRequest ↔
    ¬ (Misses leastHost.disk detourRequest ∧ ComesThrough leastHost 0 detourRequest)) :=
  ⟨leastHost_coherent, careful_iff leastHost_coherent 0 detourRequest⟩

/-- The detour leads a run into the stores that are there. -/
theorem not_careful_detour : (create ⟨{}, 0⟩ 0 leastRequest).1.isOk ∧
    (create leastHost 0 detourRequest).1.isOk ∧
      (create leastHost 0 detourRequest).2.disk.table 0 ≠ leastHost.disk.table 0 ∧
        ¬ Careful leastHost 0 detourRequest := by
  have hmade : (create ⟨{}, 0⟩ 0 leastRequest).1.isOk := by decide +kernel
  have hchanged : (create leastHost 0 detourRequest).1.isOk ∧
      (create leastHost 0 detourRequest).2.disk.table 0 ≠ leastHost.disk.table 0 := by
    decide +kernel
  refine ⟨hmade, hchanged.1, hchanged.2, ?_⟩
  obtain ⟨parsed, accepted⟩ := @accepted_of_isOk londonDocument (by decide +kernel)
  let made := (resolveDirectory leastHost.disk detourRequest.dataDirectory).2
  have hresolved : (resolveDirectory leastHost.disk detourRequest.dataDirectory).1 =
      .ok ['/', 'd'] := by
    decide +kernel
  have hmissed : made.locate (Path.join ['/', 'd'] detourRequest.name) = .error .notFound := by
    decide +kernel
  have hfound : made.foundOnOpening? (Path.join ['/', 'd'] detourRequest.name) fullStore
      detourRequest.cache = some 0 := by
    decide +kernel
  exact not_careful_of_found leastHost_coherent 0 (Prod.ext hresolved rfl) hmissed accepted hfound

end Provision.Instance
