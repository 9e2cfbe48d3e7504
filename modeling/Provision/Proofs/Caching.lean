import Provision.Proofs.Occupying
import Provision.Proofs.Refusals
import Provision.Proofs.Resuming

/-! Caches that have no room.

The bytes of a cache are counted in 64 bits, and from 2 ^ 44 units on there are too many of them:
`bytes?_eq_none_iff`. They are counted when the directory of a store has been made, so a run with
such a cache stops there, `create_overflow_iff`, and the directory that it leaves behind has every
later run for the instance refused, `Reaches.retry`. `bears_iff` says both. -/
namespace Provision

namespace Cache

variable {units bytes : UInt64}

theorem toNat_max_leastUnits : (max units leastUnits).toNat = max units.toNat 16 := by
  show (if units ≤ leastUnits then leastUnits else units).toNat = _
  by_cases h : units ≤ leastUnits
  · rw [if_pos h]
    exact (Nat.max_eq_right (UInt64.le_iff_toNat_le.mp h)).symm
  · rw [if_neg h]
    exact (Nat.max_eq_left (Nat.le_of_not_le fun hle => h (UInt64.le_iff_toNat_le.mpr hle))).symm

theorem bytes?_eq_some_iff :
    bytes? units = some bytes ↔ bytes.toNat = max units.toNat 16 * 2 ^ 20 := by
  have hbytes := bytes.toNat_lt_size
  show (if (max units leastUnits).toNat * 2 ^ 20 < UInt64.size then
    some (UInt64.ofNat ((max units leastUnits).toNat * 2 ^ 20)) else none) = some bytes ↔ _
  rw [toNat_max_leastUnits]
  by_cases hroom : max units.toNat 16 * 2 ^ 20 < UInt64.size
  · have hexact := UInt64.toNat_ofNat_of_lt' hroom
    rw [if_pos hroom, Option.some.injEq, ← UInt64.toNat_inj, hexact]
    exact eq_comm
  · rw [if_neg hroom]
    constructor
    · intro h
      cases h
    · intro h
      omega

/-- There is no room for the bytes exactly from 2 ^ 44 units on. -/
theorem bytes?_eq_none_iff : bytes? units = none ↔ 2 ^ 44 ≤ units.toNat := by
  rw [Option.eq_none_iff_forall_ne_some]
  constructor
  · intro hnone
    by_contra hroom
    have hlt : max units.toNat 16 * 2 ^ 20 < UInt64.size := by
      show _ < 2 ^ 64
      omega
    exact hnone _ (bytes?_eq_some_iff.mpr (UInt64.toNat_ofNat_of_lt' hlt))
  · intro hmany bytes hsome
    have hbytes : bytes.toNat < 2 ^ 64 := bytes.toNat_lt_size
    have hcounted := bytes?_eq_some_iff.mp hsome
    omega

/-- The bytes of more units are more, as long as there is room for them. -/
theorem bytes?_mono {fewer : UInt64} (h : fewer ≤ units) (room : bytes? units = some bytes) :
    ∃ less, bytes? fewer = some less ∧ less ≤ bytes := by
  rw [UInt64.le_iff_toNat_le] at h
  cases hless : bytes? fewer with
  | none =>
    have hmany := bytes?_eq_none_iff.mp hless
    have hnone := bytes?_eq_none_iff.mpr (Nat.le_trans hmany h)
    rw [room] at hnone
    cases hnone
  | some less =>
    refine ⟨less, rfl, ?_⟩
    rw [UInt64.le_iff_toNat_le, bytes?_eq_some_iff.mp hless, bytes?_eq_some_iff.mp room]
    omega

end Cache

namespace Disk

variable {disk disk' : Disk}

/-- Opening a store overflows once its directory has been made. -/
theorem openStore_overflow_iff {root : Path} {name : Name} {cache : UInt64} :
    disk.openStore root name cache = (.error .overflow, disk') ↔
      Cache.bytes? cache = none ∧
        disk.makeDirectories (Path.join root name) = (.ok (), disk') := by
  rw [openStore]
  -- The product in the cache is kept from being computed.
  generalize Cache.bytes? cache = bytes
  rcases hm : disk.makeDirectories (Path.join root name) with ⟨e | _, made⟩
  · simp
  · cases bytes with
    | none => simp
    | some bytes =>
      rcases ho : made.openDatabase (databasePath root name) with ⟨e | id, opened⟩ <;> simp [ho]

end Disk

namespace Instance

variable {host host' : Host} {disk last : Disk} {request : Request} {directory : Path}
  {parsed : ParsedGenesis} {cache : UInt64} {store : Name}

/-! ### Stores -/

/-- Nothing but the opening of a store overflows. -/
theorem setupStore_overflow_iff :
    setupStore disk directory parsed cache store = (.error .overflow, last) ↔
      disk.openStore directory store cache = (.error .overflow, last) := by
  rw [setupStore, initStore]
  rcases ho : disk.openStore directory store cache with ⟨e | handle, opened⟩
  · cases e <;> simp [Halt.map]
  rcases hw : opened.withStore handle.file fun s => s.setup parsed.genesis with
    ⟨e | ⟨config, hash⟩, written⟩
  · simp [hw]
  rcases hp : written.withStore handle.file fun s =>
    persistMerged s store hash config parsed.override with ⟨e | _, after⟩ <;>
    simp [hw, hp, Except.mapError]

theorem setupStores_not_overflow {bytes : UInt64} (room : Cache.bytes? cache = some bytes)
    {stores : List Name} :
    setupStores disk directory parsed cache stores ≠ (.error .overflow, last) := by
  induction stores generalizing disk with
  | nil =>
    intro h
    cases h
  | cons store rest ih =>
    intro h
    rw [setupStores] at h
    rcases hs : setupStore disk directory parsed cache store with ⟨e | _, after⟩
    · rw [hs] at h
      cases h
      have hopen := Disk.openStore_overflow_iff.mp (setupStore_overflow_iff.mp hs)
      rw [room] at hopen
      cases hopen.1
    · rw [hs] at h
      exact ih h

/-- The first of several stores decides. -/
theorem setupStores_overflow_iff {rest : List Name} :
    setupStores disk directory parsed cache (store :: rest) = (.error .overflow, last) ↔
      Cache.bytes? cache = none ∧
        disk.makeDirectories (Path.join directory store) = (.ok (), last) := by
  cases hbytes : Cache.bytes? cache with
  | some bytes => simp [setupStores_not_overflow hbytes]
  | none =>
    have hstore : setupStore disk directory parsed cache store = (.error .overflow, last) ↔
        Cache.bytes? cache = none ∧
          disk.makeDirectories (Path.join directory store) = (.ok (), last) :=
      setupStore_overflow_iff.trans Disk.openStore_overflow_iff
    rw [setupStores]
    rcases hs : setupStore disk directory parsed cache store with ⟨e | _, after⟩
    · rw [hbytes, hs] at hstore
      exact hstore
    · obtain ⟨handle, opened, _, _, _, hopen, -⟩ := setupStore_eq_ok hs
      have hroom : (Cache.bytes? cache).isSome := bytes?_of_openStore (by rw [hopen]; rfl)
      rw [hbytes] at hroom
      cases hroom

/-! ### Runs -/

/-- A run comes to its stores, and the directory of the first one is made. -/
structure Reaches (disk : Disk) (request : Request) (directory : Path) (last : Disk) : Prop where
  comes : ∃ whole made, resolveDirectory disk request.dataDirectory = (.ok whole, made) ∧
    Path.join whole request.name = directory ∧ isVacant made directory = .ok true ∧
      made.makeDirectories (Path.join directory fullStore) = (.ok (), last)
  accepted : ∃ parsed, ParsedGenesis.parse request.genesis = .ok parsed

theorem provision_overflow_iff : provision disk request = (.error .overflow, last) ↔
    Cache.bytes? request.cache = none ∧ ∃ directory, Reaches disk request directory last := by
  constructor
  · intro h
    rcases refused_or_proceeds disk request with
      ⟨made, error, hrefused⟩ | ⟨made, whole, parsed, hr, hv, hp, hproceeds⟩
    · rw [hrefused.outcome] at h
      cases h
    · rw [hproceeds.outcome] at h
      have hstores : setupStores made (Path.join whole request.name) parsed request.cache
          storeNames = (.error .overflow, last) :=
        Prod.ext (map_eq_error_iff.mp (congrArg Prod.fst h)) (congrArg (fun r => r.2) h)
      obtain ⟨hbytes, hmade⟩ := setupStores_overflow_iff.mp hstores
      exact ⟨hbytes, _, ⟨whole, made, hr, rfl, hv, hmade⟩, parsed, hp⟩
  · rintro ⟨hbytes, directory, ⟨whole, made, hr, rfl, hv, hmade⟩, parsed, hp⟩
    have hstores : setupStores made (Path.join whole request.name) parsed request.cache
        storeNames = (.error .overflow, last) := setupStores_overflow_iff.mpr ⟨hbytes, hmade⟩
    simp only [provision, hr, hv, hp, hstores]
    rfl

theorem create_overflow_iff {clock : Int} :
    create host clock request = (.error .overflow, host') ↔
      Cache.bytes? request.cache = none ∧ ∃ directory last,
        Reaches host.disk request directory last ∧ host' = { host with disk := last } := by
  have hrun := fun last => @provision_overflow_iff host.disk last request
  rw [create]
  constructor
  · intro h
    rcases hp : provision host.disk request with ⟨error | whole, last⟩
    · rw [hp] at h
      cases h
      obtain ⟨hbytes, directory, hreaches⟩ := (hrun last).mp hp
      exact ⟨hbytes, directory, last, hreaches, rfl⟩
    · rw [hp] at h
      cases h
  · rintro ⟨hbytes, directory, last, hreaches, rfl⟩
    rw [(hrun last).mpr ⟨hbytes, directory, hreaches⟩]

/-- How far a run comes does not depend on the cache. -/
theorem reaches_cache_iff :
    Reaches disk { request with cache } directory last ↔ Reaches disk request directory last :=
  ⟨fun ⟨comes, accepted⟩ => ⟨comes, accepted⟩, fun ⟨comes, accepted⟩ => ⟨comes, accepted⟩⟩

namespace Reaches

variable (h : Reaches disk request directory last)

include h

/-- What a run has made is something in the directory of the instance. -/
theorem isVacant_eq_false : isVacant last directory = .ok false := by
  obtain ⟨⟨whole, made, hr, hjoin, -, hmade⟩, -⟩ := h
  have habsolute : Path.isAbsolute directory := by
    rw [← hjoin]
    exact Path.isAbsolute_join (Path.isAbsolute_absolute (based_iff.mpr hr).named) _
  have hne := Path.ne_nil_of_isAbsolute habsolute
  have hplain : fullStore.IsPlain := storeNames_plain fullStore (List.mem_cons_self ..)
  have hstore : Path.join directory fullStore ≠ [] := Path.join_ne_nil hne hplain.isAbsolute
  obtain ⟨place, hlocate, hentry⟩ :=
    Disk.isDirectory_iff.mp (Disk.isDirectory_of_makeDirectories hstore hmade)
  obtain ⟨location, hdirectory, hthere⟩ :=
    Disk.isDirectory_iff.mp (Disk.isDirectory_of_locate_join hplain hne hlocate)
  have hplace : place = location ++ [fullStore] := by
    rw [location_eq_directoryPlace (Path.isAbsolute_join habsolute _) hlocate,
      location_eq_directoryPlace habsolute hdirectory, directoryPlace_join hplain]
  rw [hplace] at hentry
  exact isVacant_eq_false_iff.mpr
    ⟨location, hdirectory, hthere, Disk.hasEntries_of_entry? (by decide) hentry⟩

/-- The data directory is found again. -/
theorem resolveDirectory_eq : ∃ whole, Path.join whole request.name = directory ∧
    resolveDirectory last request.dataDirectory = (.ok whole, last) := by
  obtain ⟨⟨whole, made, hr, hjoin, -, hmade⟩, -⟩ := h
  have hbased := based_iff.mpr hr
  have hfirst := Disk.makeDirectories_adds disk request.dataDirectory
  have hsecond := Disk.makeDirectories_adds made (Path.join directory fullStore)
  rw [hbased.made] at hfirst
  rw [hmade] at hsecond
  have hne : request.dataDirectory ≠ [] := Path.ne_nil_of_absolute hbased.named
  obtain ⟨location, hlocate, hthere⟩ :=
    Disk.isDirectory_iff.mp (Disk.isDirectory_of_makeDirectories hne hbased.made)
  have hagain : last.isDirectory request.dataDirectory := Disk.isDirectory_iff.mpr
    ⟨location, hsecond.toExtends.locate hlocate, hsecond.toExtends.kept _ _ hthere⟩
  have hworking : last.workingDirectory = disk.workingDirectory :=
    hsecond.toExtends.workingDirectory.trans hfirst.toExtends.workingDirectory
  refine ⟨whole, hjoin, ?_⟩
  rw [Instance.resolveDirectory_eq, Disk.makeDirectories_of_isDirectory hagain, hworking,
    hbased.named]
  rfl

/-- **What a run has made in the directory of the instance has every later run for the instance
refused.** -/
theorem retry {again : Request} (sameDirectory : again.dataDirectory = request.dataDirectory)
    (sameName : again.name = request.name) (lastId : UInt64) (clock : Int) :
    create ⟨last, lastId⟩ clock again =
      (.error (.failed (.notEmpty directory)), ⟨last, lastId⟩) := by
  obtain ⟨whole, hjoin, hresolve⟩ := h.resolveDirectory_eq
  simp only [create, provision, sameDirectory, hresolve, sameName, hjoin, h.isVacant_eq_false]

end Reaches

/-! ### Caches that are borne -/

/-- The bytes of a cache can be counted, they are no fewer than those of the least cache or of any
smaller one, and a run with the cache ends: it succeeds or has an error to report. -/
structure Bears (units : UInt64) : Prop where
  counted : ∃ bytes, Cache.bytes? units = some bytes ∧
    bytes.toNat = max units.toNat 16 * 2 ^ 20 ∧ 16 * 2 ^ 20 ≤ bytes.toNat
  ascends : ∀ fewer bytes, fewer ≤ units → Cache.bytes? units = some bytes →
    ∃ less, Cache.bytes? fewer = some less ∧ less ≤ bytes
  ends : ∀ (host : Host) (clock : Int) (request : Request),
    ∃ outcome : Except InstanceError Receipt,
      (create host clock { request with cache := units }).1 = outcome.mapError .failed

theorem bears_of_counted {units bytes : UInt64} (room : Cache.bytes? units = some bytes) :
    Bears units where
  counted := by
    have hbytes := Cache.bytes?_eq_some_iff.mp room
    exact ⟨bytes, room, hbytes, by omega⟩
  ascends := fun _ _ hfewer hbytes => Cache.bytes?_mono hfewer hbytes
  ends := fun host clock request => by
    rcases hc : create host clock { request with cache := units } with
      ⟨(error | _) | receipt, after⟩
    · exact ⟨.error error, rfl⟩
    · obtain ⟨hnone, -⟩ := create_overflow_iff.mp hc
      rw [room] at hnone
      cases hnone
    · exact ⟨.ok receipt, rfl⟩

/-- **The caches below 2 ^ 44 units are borne. With any other, a run overflows exactly if it comes
to its stores; it leaves the directory of the first one, and every later run for the instance,
whatever its cache and its document, is refused.** -/
theorem bears_iff (units : UInt64) :
    (Bears units ↔ units.toNat < 2 ^ 44) ∧
      ∀ (host : Host) (clock : Int) (request : Request),
        (∀ host', create host clock { request with cache := units } = (.error .overflow, host') ↔
          2 ^ 44 ≤ units.toNat ∧ ∃ directory last,
            Reaches host.disk request directory last ∧ host' = { host with disk := last }) ∧
        ∀ directory last, Reaches host.disk request directory last →
          ∀ (again : Request) (lastId : UInt64) (later : Int),
            again.dataDirectory = request.dataDirectory → again.name = request.name →
              create ⟨last, lastId⟩ later again =
                (.error (.failed (.notEmpty directory)), ⟨last, lastId⟩) := by
  refine ⟨?_, fun host clock request => ⟨fun host' => ?_, ?_⟩⟩
  · constructor
    · rintro ⟨⟨bytes, hroom, -⟩, -, -⟩
      by_contra hmany
      rw [Cache.bytes?_eq_none_iff.mpr (Nat.not_lt.mp hmany)] at hroom
      cases hroom
    · intro hfew
      cases hbytes : Cache.bytes? units with
      | none => exact absurd (Cache.bytes?_eq_none_iff.mp hbytes) (Nat.not_le.mpr hfew)
      | some bytes => exact bears_of_counted hbytes
  · simp only [create_overflow_iff, Cache.bytes?_eq_none_iff, reaches_cache_iff]
  · intro directory last h again lastId later sameDirectory sameName
    exact h.retry sameDirectory sameName lastId later

/-! ### A cache without room -/

/-- The least cache that has no room. -/
def uncounted : UInt64 := 17592186044416

/-- The least request comes to its stores on an empty disk. -/
theorem reaches_least : ∃ last, Reaches {} leastRequest ['/', 'd', '/', 'g', 'e', 't', 'h'] last :=
  ⟨_, ⟨_, _, rfl, rfl, rfl, rfl⟩, leastRequest_accepted⟩

theorem bears_iff_uncounted : ¬ Bears uncounted ∧
    ∃ last, create ⟨{}, 0⟩ 0 { leastRequest with cache := uncounted } =
        (.error .overflow, ⟨last, 0⟩) ∧
      create ⟨last, 0⟩ 0 leastRequest =
        (.error (.failed (.notEmpty ['/', 'd', '/', 'g', 'e', 't', 'h'])), ⟨last, 0⟩) := by
  obtain ⟨hbears, hruns⟩ := bears_iff uncounted
  obtain ⟨hoverflow, hretry⟩ := hruns ⟨{}, 0⟩ 0 leastRequest
  obtain ⟨last, hreaches⟩ := reaches_least
  refine ⟨fun h => absurd (hbears.mp h) (by decide), last, ?_, ?_⟩
  · exact (hoverflow _).mpr ⟨by decide, _, last, hreaches, rfl⟩
  · exact hretry _ last hreaches leastRequest 0 0 rfl rfl

/-- So it is not every cache that is borne: the run overflows, and the one after it is refused. -/
theorem not_bears_uncounted :
    ∃ last, create ⟨{}, 0⟩ 0 { leastRequest with cache := uncounted } =
        (.error .overflow, ⟨last, 0⟩) ∧
      create ⟨last, 0⟩ 0 leastRequest =
        (.error (.failed (.notEmpty ['/', 'd', '/', 'g', 'e', 't', 'h'])), ⟨last, 0⟩) ∧
        ¬ Bears uncounted := by
  obtain ⟨last, hreaches⟩ := reaches_least
  have hnone : Cache.bytes? uncounted = none := Cache.bytes?_eq_none_iff.mpr (by decide)
  refine ⟨last, ?_, hreaches.retry rfl rfl 0 0, ?_⟩
  · exact create_overflow_iff.mpr ⟨hnone, _, last, reaches_cache_iff.mpr hreaches, rfl⟩
  · rintro ⟨⟨bytes, hroom, -⟩, -, -⟩
    rw [hnone] at hroom
    cases hroom

end Instance
end Provision
