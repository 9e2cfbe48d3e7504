import Provision.Proofs.Refusals

/-! What checking a document promises.

To check a document is to read it and nothing else. That decides what becomes of a run into a
directory without entries: with a document that is refused the run ends with the same error and
has opened nothing, and with one that is accepted it ends well, unless a store cannot be opened.
Everything that is done with an accepted document goes well: `create_isOk_iff_validate`. -/
namespace Provision

/-! ### The configuration as a map -/

namespace Json

/-- What a value is, for a message about it. -/
def found : Json → Found
  | .null => .null
  | .bool value => .bool value
  | .number value => .number value
  | .string value => .string value
  | .array _ => .sequence
  | .object _ => .map

/-- Reads a value as a map. -/
def asFields : Json → Except Mismatch Fields
  | .object fields => .ok fields
  | value => .error (.invalidType value.found "a map")

end Json

namespace ChainConfig

/-- The merged configuration record, step by step: the configuration is written as a value, the
value is read as a map, and the members of the document are merged over it. -/
def remergedBytes (config : ChainConfig) (override : Json.Fields) :
    Except Json.Mismatch Bytes := do
  let base ← (Json.sorted (codec.write config)).asFields
  return Text.Utf8.ofChars (Json.object (Json.mergeFields base override)).print

/-- A configuration is written as an object, so the reading goes well. -/
theorem remergedBytes_eq (config : ChainConfig) (override : Json.Fields) :
    config.remergedBytes override = .ok (config.mergedBytes override) := by
  have hobject : Json.sorted (codec.write config) = .object config.fields := by
    rw [codec, Json.Record.codec, Json.sorted]
    rfl
  rw [remergedBytes, hobject]
  rfl

end ChainConfig

namespace Instance

variable {disk made : Disk} {request : Request} {parsed : ParsedGenesis}

/-! ### What can go wrong with an accepted document -/

/-- A store could not be opened. -/
def FailsToOpen (halt : Halt InstanceError) : Prop :=
  halt = .overflow ∨ ∃ store e, halt = .failed (.storeOpen store e)

section Stores

variable {directory : Path} {cache : UInt64}

/-- If nothing is refused, a new store is set up, unless it cannot be opened. -/
theorem setupStore_unlimited {store : Name} {place : Location}
    (vacant : disk.Vacant (databasePath directory store) place)
    (unlimited : disk.allowance = none) :
    (∃ halt after, setupStore disk directory parsed cache store = (.error halt, after) ∧
        FailsToOpen halt) ∨
      ∃ after, setupStore disk directory parsed cache store = (.ok (), after) ∧
        after.allowance = none := by
  rcases ho : disk.openStore directory store cache with ⟨e | handle, opened⟩
  · refine .inl ⟨e.map (.storeOpen store), opened, ?_, ?_⟩
    · rw [setupStore, initStore, ho]
    · cases e with
      | failed e => exact .inr ⟨store, e, rfl⟩
      | overflow => exact .inl rfl
  · exact .inr (setupStore_of_opened parsed vacant unlimited ho)

/-- The same holds for one store after the other. -/
theorem setupStores_unlimited (absolute : Path.isAbsolute directory) (coherent : disk.Coherent)
    {stores : List Name} (plain : ∀ store ∈ stores, store.IsPlain) (distinct : stores.Nodup)
    (vacant : ∀ store ∈ stores, disk.NoFile (storePlace directory store))
    (unlimited : disk.allowance = none) {halt : Halt InstanceError}
    (h : (setupStores disk directory parsed cache stores).1 = .error halt) :
    FailsToOpen halt := by
  induction stores generalizing disk with
  | nil => cases h
  | cons store rest ih =>
    have hplain := plain store (List.mem_cons_self ..)
    have hnone := vacant store (List.mem_cons_self ..)
    obtain ⟨hstore, hrest⟩ := List.nodup_cons.mp distinct
    rw [setupStores] at h
    rcases @setupStore_unlimited disk parsed directory cache _ _
        (vacant_of_noFile absolute hplain hnone) unlimited with
      ⟨halt', after, hs, hfails⟩ | ⟨after, hs, hfree⟩
    · rw [hs] at h
      cases h
      exact hfails
    · obtain ⟨hcoherent, -, -, -, hothers⟩ := setupStore_leaves absolute coherent hplain hnone hs
      rw [hs] at h
      exact ih hcoherent (fun other hm => plain other (List.mem_cons_of_mem _ hm)) hrest
        (fun other hm => hothers other (fun he => hstore (he ▸ hm))
          (vacant other (List.mem_cons_of_mem _ hm))) hfree h

end Stores

/-! ### The dry run and the run -/

theorem validate_eq_error_iff {text : List Char} {error : Json.Error} :
    ParsedGenesis.validate text = .error error ↔ ParsedGenesis.parse text = .error error :=
  map_eq_error_iff

theorem validate_isOk_iff {text : List Char} :
    (ParsedGenesis.validate text).isOk ↔ ∃ parsed, ParsedGenesis.parse text = .ok parsed := by
  rw [ParsedGenesis.validate]
  cases ParsedGenesis.parse text <;> simp [Except.map, Except.isOk, Except.toBool]

/-- A run into a vacant directory is refused for its document, or goes on to the stores. -/
theorem course_of_vacant {whole : Path}
    (resolved : resolveDirectory disk request.dataDirectory = (.ok whole, made))
    (vacant : isVacant made (Path.join whole request.name) = .ok true) :
    (∃ error, ParsedGenesis.parse request.genesis = .error error ∧
        Refused disk request made (.invalidGenesis error)) ∨
      ∃ parsed, ParsedGenesis.parse request.genesis = .ok parsed ∧
        Proceeds disk request made whole (Path.join whole request.name) parsed := by
  cases hp : ParsedGenesis.parse request.genesis with
  | error error =>
    refine .inl ⟨error, rfl, ?_⟩
    constructor <;> simp [provision, attempts, stages, resolved, vacant, hp]
  | ok parsed =>
    refine .inr ⟨parsed, rfl, ?_⟩
    constructor <;> simp [provision, attempts, stages, resolved, vacant, hp]

/-- **The dry run decides the run into a directory without entries.** If it refuses the document,
the run ends with the same error and has tried to open nothing. If it accepts the document, all
that the run can end with is that a store cannot be opened, and the merged configuration can be
made; and if the stores can be opened, the run goes through exactly if the dry run accepts. -/
theorem create_isOk_iff_validate {host : Host} (coherent : host.disk.Coherent) (clock : Int)
    {dataDirectory : Path} {vacant : Bool} (unlimited : host.disk.allowance = none)
    (resolved : resolveDirectory host.disk request.dataDirectory = (.ok dataDirectory, made))
    (looked : isVacant made (Path.join dataDirectory request.name) = .ok vacant)
    (nothing : made.hasEntries
      (directoryPlace (Path.join dataDirectory request.name)) = false) :
    (∀ error, ParsedGenesis.validate request.genesis = .error error →
      create host clock request =
          (.error (.failed (.invalidGenesis error)), { host with disk := made }) ∧
        attempts host.disk request = []) ∧
    (∀ parsed, ParsedGenesis.parse request.genesis = .ok parsed →
      parsed.genesis.chainConfig.remergedBytes parsed.override =
          .ok (parsed.genesis.chainConfig.mergedBytes parsed.override) ∧
        ∀ halt, (create host clock request).1 = .error halt → FailsToOpen halt) ∧
    ((∀ parsed, ParsedGenesis.parse request.genesis = .ok parsed →
        canOpen (Path.join dataDirectory request.name) parsed request.cache made storeNames) →
      ((create host clock request).1.isOk ↔
        (ParsedGenesis.validate request.genesis).isOk)) := by
  have hresolved := resolveDirectory_ok coherent resolved
  have habsolute := Path.isAbsolute_join hresolved.absolute request.name
  have hvacant := isVacant_eq_true habsolute looked nothing
  have hfree := hresolved.adds.allowance.trans unlimited
  refine ⟨?_, ?_, ?_⟩
  · intro error hvalidate
    rw [validate_eq_error_iff] at hvalidate
    rcases course_of_vacant resolved hvacant with ⟨e, he, hrefused⟩ | ⟨parsed, hp, -⟩
    · rw [hvalidate] at he
      cases he
      refine ⟨?_, hrefused.attempts_eq⟩
      rw [create, hrefused.outcome]
    · rw [hvalidate] at hp
      cases hp
  · intro parsed accepted
    refine ⟨ChainConfig.remergedBytes_eq _ _, ?_⟩
    intro halt hhalt
    rw [create_eq_error_iff] at hhalt
    rcases course_of_vacant resolved hvacant with ⟨e, he, -⟩ | ⟨parsed', -, hproceeds⟩
    · rw [accepted] at he
      cases he
    · rw [hproceeds.outcome] at hhalt
      exact setupStores_unlimited habsolute hresolved.coherent storeNames_plain storeNames_nodup
        (fun store hs => noFile_of_vacant hresolved.coherent nothing (storeNames_plain store hs))
        hfree (map_eq_error_iff.mp hhalt)
  · intro opens
    rw [validate_isOk_iff]
    constructor
    · intro hok
      rcases course_of_vacant resolved hvacant with ⟨e, -, hrefused⟩ | ⟨parsed, hp, -⟩
      · rw [create_outcome, hrefused.outcome] at hok
        cases hok
      · exact ⟨parsed, hp⟩
    · rintro ⟨parsed, accepted⟩
      obtain ⟨after, hdone, -⟩ := provision_done coherent unlimited resolved looked nothing
        accepted (opens parsed accepted)
      rw [create_outcome, hdone]
      rfl

/-- The least document is accepted, and so is the run with it on an empty disk. -/
theorem create_isOk_iff_validate_least :
    (create ⟨{}, 0⟩ 0 leastRequest).1.isOk ∧
      (ParsedGenesis.validate leastRequest.genesis).isOk := by
  have hdecides := @create_isOk_iff_validate { tree := [([['d']], .directory)] } leastRequest
    ⟨{}, 0⟩ Disk.coherent_empty 0 ['/', 'd'] true rfl rfl rfl rfl
  have haccepted : (ParsedGenesis.validate leastRequest.genesis).isOk := by decide +kernel
  exact ⟨(hdecides.2.2 fun _ _ => rfl).mpr haccepted, haccepted⟩

end Instance
end Provision
