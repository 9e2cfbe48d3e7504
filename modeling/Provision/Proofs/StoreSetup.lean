import Provision.Proofs.Opening

/-! Setting up one store of an instance, where there is none.

The store gets three transactions: the one that opens it, the genesis block, and the
configuration record. `setupStoreStages_cases` says what may be there in between, and
`setupStore_ok` what is there if all went well. -/
namespace Provision

namespace ParsedGenesis

/-- The genesis block as it is written first, with the configuration that the library knows. -/
def plainTable (parsed : ParsedGenesis) : Table :=
  parsed.genesis.blockTable parsed.genesis.chainConfig.bytes

/-- The genesis block with the configuration of the document merged over the one that the
library knows. -/
def mergedTable (parsed : ParsedGenesis) : Table :=
  parsed.genesis.blockTable (parsed.genesis.chainConfig.mergedBytes parsed.override)

/-- Of a table has become one with the genesis block and the merged configuration: the block has
been written, unless it stood under number zero. -/
def Turns (parsed : ParsedGenesis) (before after : Table) : Prop :=
  let config := (Key.config parsed.genesis.hash).encode
  let merged := parsed.genesis.chainConfig.mergedBytes parsed.override
  before.find? (Key.canonicalHash 0).encode = none ∧
      after = (before.insertAll parsed.genesis.entries).insert config merged ∨
    before.find? (Key.canonicalHash 0).encode = some parsed.genesis.hash.bytes ∧
      after = before.insert config merged

theorem Turns.ofEmpty {parsed : ParsedGenesis} {after : Table} (h : parsed.Turns [] after) :
    after = parsed.mergedTable := by
  rcases h with ⟨-, h⟩ | ⟨hanchor, -⟩
  · rw [h, mergedTable, ← Genesis.insert_config _ parsed.genesis.chainConfig.bytes,
      Genesis.entries_eq, Genesis.blockTable, Dictionary.ofList]
  · rw [Dictionary.find?_nil] at hanchor
    cases hanchor

/-- What a new store may have in it while it is set up. -/
inductive MayHold (parsed : ParsedGenesis) : Content → Prop
  | nothing : parsed.MayHold (.text [])
  | empty : parsed.MayHold (.database [])
  | plain : parsed.MayHold (.database parsed.plainTable)
  | merged : parsed.MayHold (.database parsed.mergedTable)

end ParsedGenesis

namespace Instance
open Disk

variable {disk between : Disk} {place : Location} {id : Nat} {table : Table}

/-! ### The transactions -/

/-- The genesis block is written wholly or not at all. -/
theorem genesisBlock_cases (h : Holds place id (.database []) disk between) (genesis : Genesis) :
    (∃ e after, between.withStore id (fun s => s.setup genesis) = (.error e, after) ∧
        between.allowance.spend? = none ∧ Holds place id (.database []) disk after) ∨
      ∃ after, between.withStore id (fun s => s.setup genesis) =
          (.ok (genesis.chainConfig, genesis.hash), after) ∧
        between.allowance.spend? = some after.allowance ∧
          Holds place id (.database (genesis.blockTable genesis.chainConfig.bytes)) disk after := by
  let store : Store := { allowance := between.allowance }
  rcases @Store.setup_absent_cases store genesis rfl rfl with ⟨hnone, hs⟩ | ⟨left, hleft, hs⟩
  · obtain ⟨after, hw, hafter, -, -⟩ := h.withStore (fun s => s.setup genesis) hs rfl
    exact .inl ⟨_, after, hw, hnone, hafter⟩
  · obtain ⟨after, hw, hafter, -, hallowance⟩ := h.withStore (fun s => s.setup genesis) hs rfl
    rw [Store.written_batch_table, Genesis.entries_eq] at hafter
    refine .inr ⟨after, hw, ?_, hafter⟩
    rw [hallowance]
    exact hleft

/-- So is the configuration record. -/
theorem configRecord_cases (h : Holds place id (.database table) disk between) (store : Name)
    (hash : Hash) (config : ChainConfig) (override : Json.Fields) :
    (∃ e after, between.withStore id (fun s => persistMerged s store hash config override) =
          (.error e, after) ∧
        between.allowance.spend? = none ∧ Holds place id (.database table) disk after) ∨
      ∃ after, between.withStore id (fun s => persistMerged s store hash config override) =
          (.ok (), after) ∧
        between.allowance.spend? = some after.allowance ∧ after.held = between.held ∧
          Holds place id (.database (table.insert (Key.config hash).encode
            (config.mergedBytes override))) disk after := by
  let opened : Store := { table, allowance := between.allowance }
  cases hleft : between.allowance.spend? with
  | none =>
    have hs : persistMerged opened store hash config override =
        (.error (.storeWrite store (.file .writeRefused)), opened) := by
      rw [persistMerged, Store.persistMerged, Store.put, Store.commit_refused hleft]
    obtain ⟨after, hw, hafter, -, -⟩ :=
      h.withStore (fun s => persistMerged s store hash config override) hs rfl
    exact .inl ⟨_, after, hw, rfl, hafter⟩
  | some left =>
    have hs : persistMerged opened store hash config override =
        (.ok (), opened.written left
          (.put (Key.config hash).encode (config.mergedBytes override))) := by
      rw [persistMerged, Store.persistMerged, Store.put, Store.commit_accepted hleft]
    obtain ⟨after, hw, hafter, hheld, hallowance⟩ :=
      h.withStore (fun s => persistMerged s store hash config override) hs rfl
    refine .inr ⟨after, hw, ?_, hheld, hafter⟩
    rw [hallowance]
    rfl

/-! ### One store -/

variable {directory : Path} {parsed : ParsedGenesis} {cache : UInt64} {store : Name}

theorem setupStore_eq_ok {after : Disk}
    (h : setupStore disk directory parsed cache store = (.ok (), after)) :
    ∃ handle opened result written last,
      disk.openStore directory store cache = (.ok handle, opened) ∧
        opened.withStore handle.file (fun s => s.setup parsed.genesis) = (.ok result, written) ∧
          written.withStore handle.file (fun s =>
              persistMerged s store result.2 result.1 parsed.override) = (.ok (), last) ∧
            after = last.close handle := by
  rw [setupStore, initStore] at h
  rcases ho : disk.openStore directory store cache with ⟨_ | handle, opened⟩
  · simp [ho] at h
  · rcases hw : opened.withStore handle.file fun s => s.setup parsed.genesis with
      ⟨_ | ⟨config, hash⟩, written⟩
    · simp [ho, hw] at h
    · rcases hp : written.withStore handle.file fun s =>
        persistMerged s store hash config parsed.override with ⟨_ | _, last⟩
      · simp [ho, hw, hp, Except.mapError] at h
      · simp only [ho, hw, hp, Prod.mk.injEq] at h
        exact ⟨handle, opened, (config, hash), written, last, rfl, hw, hp, h.2.symm⟩

/-- What is there once a store has been set up. -/
theorem setupStore_ok {after : Disk}
    (follow : (disk.start (databasePath directory store)).follow
      (Path.names (databasePath directory store)) = place)
    (fresh : ∀ id, disk.entry? place = some (.file id) → id < disk.nextFile)
    (h : setupStore disk directory parsed cache store = (.ok (), after)) :
    ∃ id before opened written,
      Opened (databasePath directory store) place id before disk opened ∧
        parsed.Turns before written ∧ Holds place id (.database written) disk after ∧
          after.held = disk.held ∧ after.locate (databasePath directory store) = .ok place := by
  obtain ⟨handle, opened, result, between, last, ho, hw, hp, rfl⟩ := setupStore_eq_ok h
  obtain ⟨table, hopened⟩ := openStore_ok follow fresh ho
  let store' : Store := { table, allowance := opened.allowance }
  have htable := @Store.setup_hasTable store' parsed.genesis rfl
  rcases hs : store'.setup parsed.genesis with ⟨outcome, stored⟩
  rw [hs] at htable
  obtain ⟨_, hw', hbetween, hheld, -⟩ :=
    hopened.holds.restart.withStore (fun s => s.setup parsed.genesis) hs htable
  rw [hw] at hw'
  cases hw'
  obtain ⟨rfl, left, hcases⟩ := Store.setup_ok parsed.genesis hs
  rcases configRecord_cases hbetween store parsed.genesis.hash parsed.genesis.chainConfig
    parsed.override with ⟨e, _, hp', -, -⟩ | ⟨_, hp', -, hheld', hlast⟩
  · rw [hp] at hp'
    cases hp'
  rw [hp] at hp'
  cases hp'
  have hclosed := hlast.close handle
  refine ⟨handle.file, table, opened, _, hopened, ?_, hopened.holds.trans hclosed, ?_, ?_⟩
  · rcases hcases with ⟨hanchor, rfl⟩ | ⟨hanchor, rfl⟩
    · exact .inl ⟨hanchor, rfl⟩
    · refine .inr ⟨hanchor, ?_⟩
      rw [Store.written_put_table, Dictionary.insert_insert]
  · show last.held.erase handle.file = disk.held
    rw [hheld', hheld, hopened.held, List.erase_cons_head]
  · exact hclosed.grows.toExtends.locate hopened.located

/-- A new store that has been set up holds the merged block. -/
theorem setupStore_new (h : disk.Vacant (databasePath directory store) place) {after : Disk}
    (ho : setupStore disk directory parsed cache store = (.ok (), after)) :
    Holds place disk.nextFile (.database parsed.mergedTable) disk after ∧
      after.locate (databasePath directory store) = .ok place := by
  obtain ⟨id, before, opened, written, hopened, hturns, hholds, -, hlocated⟩ :=
    setupStore_ok h.follow (fun id he => absurd he (h.absent id)) ho
  obtain ⟨rfl, rfl⟩ := h.opened hopened
  rw [hturns.ofEmpty] at hholds
  exact ⟨hholds, hlocated⟩

/-- If a new store can be opened and nothing is refused, it is set up. -/
theorem setupStore_of_opened (parsed : ParsedGenesis)
    (h : disk.Vacant (databasePath directory store) place) (unlimited : disk.allowance = none)
    {handle : Handle} {opened : Disk}
    (ho : disk.openStore directory store cache = (.ok handle, opened)) :
    ∃ after, setupStore disk directory parsed cache store = (.ok (), after) ∧
      after.allowance = none := by
  obtain ⟨table, hopened⟩ := openStore_ok h.follow (fun id he => absurd he (h.absent id)) ho
  obtain ⟨-, rfl⟩ := h.opened hopened
  have hfree : ∀ {allowance : Allowance}, Allowance.spend? none = some allowance →
      allowance = none := fun h => (Option.some.inj h).symm
  have hallowance := hopened.allowance
  rw [unlimited] at hallowance
  have hopenedFree := hfree hallowance
  rcases genesisBlock_cases hopened.holds parsed.genesis with
    ⟨e, written, hw, hnone, -⟩ | ⟨written, hw, hleft, hwritten⟩
  · rw [hopenedFree] at hnone
    cases hnone
  rw [hopenedFree] at hleft
  have hwrittenFree := hfree hleft
  rcases configRecord_cases hwritten store parsed.genesis.hash parsed.genesis.chainConfig
    parsed.override with ⟨e, last, hp, hnone, -⟩ | ⟨last, hp, hleft', -, -⟩
  · rw [hwrittenFree] at hnone
    cases hnone
  rw [hwrittenFree] at hleft'
  refine ⟨last.close handle, ?_, hfree hleft'⟩
  simp only [setupStore, initStore, ho, hw, hp, Except.mapError]

end Instance
end Provision
