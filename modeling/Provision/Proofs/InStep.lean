import Provision.Proofs.Opening

/-! Two runs side by side that write different configuration records.

Nothing that sets up a store asks what its configuration record is. So two runs from the same
genesis block go the same way, whatever each writes for the record, and end on disks that are the
same but for the record: `Instance.setupStores_matches`, `Instance.create_matches`. -/
namespace Provision

/-- Two runs with one result. The states in which they end are related. -/
structure InStep {α σ : Type} (related : σ → σ → Prop) (first second : α × σ) : Prop where
  result : second.1 = first.1
  state : related first.2 second.2

theorem InStep.elim {α σ : Type} {related : σ → σ → Prop} {first second : α × σ}
    (h : InStep related first second) : ∃ result state state', first = (result, state) ∧
      second = (result, state') ∧ related state state' :=
  ⟨first.1, first.2, second.2, rfl, Prod.ext h.result rfl, h.state⟩

/-- Tables that hold the same but for what is under one key. -/
def AgreeApart (key : Bytes) (table other : Table) : Prop :=
  ∀ k ≠ key, table.find? k = other.find? k

theorem AgreeApart.insertAll {key : Bytes} {table other : Table} (h : AgreeApart key table other)
    {entries others : List (Bytes × Bytes)}
    (same : AgreeApart key entries.reverse others.reverse) :
    AgreeApart key (table.insertAll entries) (other.insertAll others) := by
  intro k hk
  rw [Dictionary.find?_insertAll, Dictionary.find?_insertAll, h k hk, same k hk]

/-! ### Stores -/

namespace Store

/-- Stores that are the same but for what is under one key, and for their journals. -/
structure Matches (key : Bytes) (store other : Store) : Prop where
  table : AgreeApart key store.table other.table
  allowance : other.allowance = store.allowance
  readable : other.readable = store.readable
  hasTable : other.hasTable = store.hasTable

variable {key : Bytes} {store other : Store}

theorem Matches.readError? (h : store.Matches key other) :
    other.readError? = store.readError? := by
  rw [Store.readError?, Store.readError?, h.readable, h.hasTable]

theorem Matches.commit (h : store.Matches key other) {transaction transaction' : Transaction}
    (same : AgreeApart key transaction.entries.reverse transaction'.entries.reverse) :
    InStep (Matches key) (store.commit transaction) (other.commit transaction') := by
  rw [Store.commit, Store.commit, h.allowance]
  cases store.allowance.spend? with
  | none => exact ⟨rfl, h⟩
  | some left => exact ⟨rfl, h.table.insertAll same, rfl, h.readable, rfl⟩

/-- Both write the same. -/
theorem Matches.again (h : store.Matches key other) (transaction : Transaction) :
    InStep (Matches key) (store.commit transaction) (other.commit transaction) :=
  h.commit fun _ _ => rfl

theorem Matches.put (h : store.Matches key other) (value value' : Bytes) :
    InStep (Matches key) (store.put key value) (other.put key value') := by
  refine h.commit fun k hk => ?_
  simp [Transaction.entries, Dictionary.find?_cons, hk.symm]

theorem Matches.canonicalHash {hash : Hash} (h : store.Matches (Key.config hash).encode other)
    (block : UInt64) : other.canonicalHash block = store.canonicalHash block := by
  have hne : (Key.canonicalHash block).encode ≠ (Key.config hash).encode :=
    Key.encode_injective.ne (by simp)
  rw [Store.canonicalHash, Store.canonicalHash, get, get, h.readError?, h.table _ hne]

theorem Matches.commitGenesis (h : store.Matches key other) (genesis : Genesis) :
    InStep (Matches key) (store.commitGenesis genesis) (other.commitGenesis genesis) := by
  obtain ⟨result, after, after', hw, hw', hafter⟩ := (h.again (.batch genesis.entries)).elim
  rw [Store.commitGenesis, Store.commitGenesis, writeBatch, writeBatch, hw, hw']
  cases result <;> exact ⟨rfl, hafter⟩

theorem Matches.writeConfig (h : store.Matches key other) (hash : Hash) (config : ChainConfig) :
    InStep (Matches key) (store.writeConfig hash config) (other.writeConfig hash config) := by
  obtain ⟨result, after, after', hw, hw', hafter⟩ :=
    (h.again (.put (Key.config hash).encode config.bytes)).elim
  rw [Store.writeConfig, Store.writeConfig, Store.put, Store.put, hw, hw']
  cases result <;> exact ⟨rfl, hafter⟩

/-- Setting up does not ask for the configuration record. -/
theorem Matches.setup {hash : Hash} (h : store.Matches (Key.config hash).encode other)
    (genesis : Genesis) :
    InStep (Matches (Key.config hash).encode) (store.setup genesis) (other.setup genesis) := by
  rw [Store.setup, Store.setup, h.canonicalHash 0]
  cases store.canonicalHash 0 with
  | error e => exact ⟨rfl, h⟩
  | ok stored? =>
    cases stored? with
    | none =>
      obtain ⟨hresult, hafter⟩ := h.commitGenesis genesis
      exact ⟨congrArg (Except.map _) hresult, hafter⟩
    | some stored =>
      dsimp only
      split
      · obtain ⟨hresult, hafter⟩ := h.writeConfig stored genesis.chainConfig
        exact ⟨congrArg (Except.map _) hresult, hafter⟩
      · exact ⟨rfl, h⟩

end Store

/-! ### Disks -/

/-- Files that are the same, or databases that are the same but for what is under one key. -/
inductive Content.Matches (key : Bytes) : Content → Content → Prop
  | text (chars : List Char) : Matches key (.text chars) (.text chars)
  | database {table other : Table} (agree : AgreeApart key table other) :
    Matches key (.database table) (.database other)
  | shell : Matches key .shell .shell

/-- What is written for stores that match. -/
theorem Store.Matches.content {key : Bytes} {store other : Store} (h : store.Matches key other) :
    Content.Matches key store.content other.content := by
  rw [Store.content, Store.content, h.hasTable]
  split
  · exact .database h.table
  · exact .shell

namespace Disk

/-- Disks that are the same but for what databases have under one key. -/
inductive Matches (key : Bytes) (disk : Disk) : Disk → Prop
  | intro (contents : Dictionary Nat Content)
    (each : ∀ id, Option.Rel (Content.Matches key) (disk.contents.find? id) (contents.find? id)) :
    Matches key disk { disk with contents }

variable {key : Bytes} {disk other : Disk}

theorem Matches.refl (key : Bytes) (disk : Disk) : disk.Matches key disk := by
  refine .intro disk.contents fun id => ?_
  cases disk.contents.find? id with
  | none => exact .none
  | some content =>
    cases content with
    | text chars => exact .some (.text chars)
    | database table => exact .some (.database fun _ _ => rfl)
    | shell => exact .some .shell

/-! Where a path leads does not depend on what is in the files. -/

section Paths

variable (disk) (contents : Dictionary Nat Content)

theorem walk_contents (location : Location) (names : List Name) :
    walk { disk with contents } location names = disk.walk location names := by
  induction names generalizing location with
  | nil => rfl
  | cons name rest ih =>
    have henter : enter { disk with contents } location name = disk.enter location name := rfl
    rw [walk, walk, henter]
    simp only [ih]

theorem directoryOf_contents (path : Path) :
    directoryOf { disk with contents } path = disk.directoryOf path := by
  unfold directoryOf
  rw [walk_contents]
  rfl

theorem isDirectory_contents (path : Path) :
    isDirectory { disk with contents } path = disk.isDirectory path := by
  unfold isDirectory locate
  rw [walk_contents]
  rfl

theorem place_contents {α : Type} (path : Path) (new : Location → Except FileError α)
    (existing : Location → Entry → Except FileError α) (special : FileError) :
    place { disk with contents } path new existing special =
      disk.place path new existing special := by
  unfold place
  rw [directoryOf_contents]
  rfl

theorem makeDirectory_contents (path : Path) :
    makeDirectory { disk with contents } path =
      (disk.makeDirectory path).map ({ · with contents }) := by
  rw [makeDirectory, place_contents, makeDirectory, place, place]
  cases disk.directoryOf path with
  | error e => rfl
  | ok directory =>
    cases (Path.names path).getLast? with
    | none => rfl
    | some name =>
      simp only [bind, Except.bind]
      cases disk.entry? (directory ++ [name]) <;> split_ifs <;> rfl

theorem makeAll_contents (paths : List Path) :
    makeAll { disk with contents } paths =
      ((disk.makeAll paths).1, { (disk.makeAll paths).2 with contents }) := by
  induction paths with
  | nil => rfl
  | cons path parents ih =>
    rw [makeAll, makeAll, makeDirectory_contents, ih, isDirectory_contents]
    split
    · rfl
    cases disk.makeDirectory path with
    | ok made => rfl
    | error e =>
      by_cases he : e = .notFound
      · subst he
        rcases disk.makeAll parents with ⟨_ | _, made⟩
        · rfl
        · simp only [Except.map, makeDirectory_contents, isDirectory_contents]
          cases made.makeDirectory path with
          | ok _ => rfl
          | error e =>
            dsimp only
            split <;> rfl
      · simp only [Except.map]
        split <;> rfl

end Paths

theorem Matches.find? (h : disk.Matches key other) (id : Nat) :
    Option.Rel (Content.Matches key) (disk.contents.find? id) (other.contents.find? id) := by
  obtain ⟨contents, each⟩ := h
  exact each id

theorem Matches.makeDirectories (h : disk.Matches key other) (path : Path) :
    InStep (Matches key) (disk.makeDirectories path) (other.makeDirectories path) := by
  have hsame := (makeDirectories_adds disk path).contents
  obtain ⟨contents, each⟩ := h
  rw [Disk.makeDirectories] at hsame ⊢
  rw [Disk.makeDirectories, makeAll_contents disk contents]
  refine ⟨rfl, .intro contents fun id => ?_⟩
  rw [hsame]
  exact each id

/-! ### Opening, writing and closing -/

theorem Matches.setContent (h : disk.Matches key other) (id : Nat) {content content' : Content}
    (same : content.Matches key content') :
    (disk.setContent id content).Matches key (other.setContent id content') := by
  obtain ⟨contents, each⟩ := h
  refine .intro (contents.insert id content') fun id' => ?_
  show Option.Rel _ ((disk.contents.insert id content).find? id') _
  rw [Dictionary.find?_insert, Dictionary.find?_insert]
  split
  · exact .some same
  · exact each id'

theorem Matches.addFile (h : disk.Matches key other) (location : Location) (content : Content)
    (same : content.Matches key content) :
    (disk.addFile location content).Matches key (other.addFile location content) := by
  have hfind := (h.setContent disk.nextFile same).find?
  obtain ⟨contents, each⟩ := h
  exact .intro (contents.insert disk.nextFile content) hfind

theorem Matches.spend (h : disk.Matches key other) {left left' : Allowance} (same : left' = left) :
    Matches key { disk with allowance := left } { other with allowance := left' } := by
  obtain ⟨contents, each⟩ := h
  subst same
  exact .intro contents each

theorem Matches.hold (h : disk.Matches key other) (id : Nat) :
    (disk.hold id).Matches key (other.hold id) := by
  obtain ⟨contents, each⟩ := h
  exact .intro contents each

theorem Matches.close (h : disk.Matches key other) (handle : Handle) :
    (disk.close handle).Matches key (other.close handle) := by
  obtain ⟨contents, each⟩ := h
  exact .intro contents each

theorem Matches.store (h : disk.Matches key other) (id : Nat) :
    (disk.store id).Matches key (other.store id) := by
  have hfind := h.find? id
  have hallowance : other.allowance = disk.allowance := by
    obtain ⟨contents, each⟩ := h
    rfl
  rw [Disk.store, Disk.store, Disk.table, Disk.table, hallowance]
  revert hfind
  cases disk.contents.find? id <;> cases other.contents.find? id <;> rintro (hsame | _)
  · exact ⟨fun _ _ => rfl, rfl, rfl, rfl⟩
  · cases hsame with
    | text chars => exact ⟨fun _ _ => rfl, rfl, rfl, rfl⟩
    | database agree => exact ⟨agree, rfl, rfl, rfl⟩
    | shell => exact ⟨fun _ _ => rfl, rfl, rfl, rfl⟩

theorem Matches.withStore (h : disk.Matches key other) {α : Type} (id : Nat)
    {action action' : Store → α × Store}
    (same : ∀ store other, store.Matches key other →
      InStep (Store.Matches key) (action store) (action' other)) :
    InStep (Matches key) (disk.withStore id action) (other.withStore id action') := by
  obtain ⟨result, after, after', hw, hw', hafter⟩ := (same _ _ (h.store id)).elim
  rw [Disk.withStore, Disk.withStore, hw, hw']
  exact ⟨rfl, (h.setContent id hafter.content).spend hafter.allowance⟩

theorem Matches.openTable (h : disk.Matches key other) (id : Nat) {table table' : Table}
    (agree : AgreeApart key table table') :
    InStep (Matches key) (disk.openTable id table) (other.openTable id table') := by
  have hallowance : other.allowance = disk.allowance := by
    obtain ⟨contents, each⟩ := h
    rfl
  rw [Disk.openTable, Disk.openTable, hallowance]
  cases disk.allowance.spend? with
  | none => exact ⟨rfl, h⟩
  | some left => exact ⟨rfl, ((h.setContent id (.database agree)).hold id).spend rfl⟩

theorem Matches.openFile (h : disk.Matches key other) (file : Path) (id : Nat) :
    InStep (Matches key) (disk.openFile file id) (other.openFile file id) := by
  have hheld : other.held = disk.held := by
    obtain ⟨contents, each⟩ := h
    rfl
  have hfind := h.find? id
  rw [Disk.openFile, Disk.openFile, hheld]
  split
  · exact ⟨rfl, h⟩
  revert hfind
  cases disk.contents.find? id <;> cases other.contents.find? id <;> rintro (hsame | _)
  · exact ⟨rfl, h⟩
  · cases hsame with
    | text chars =>
      cases chars with
      | nil => exact h.openTable id fun _ _ => rfl
      | cons _ _ => exact ⟨rfl, h⟩
    | database agree => exact h.openTable id agree
    | shell => exact h.openTable id fun _ _ => rfl

theorem Matches.openDatabase (h : disk.Matches key other) (file : Path) :
    InStep (Matches key) (disk.openDatabase file) (other.openDatabase file) := by
  have hspot : other.databaseSpot file = disk.databaseSpot file := by
    obtain ⟨contents, each⟩ := h
    exact place_contents ..
  have hnext : other.nextFile = disk.nextFile := by
    obtain ⟨contents, each⟩ := h
    rfl
  rw [Disk.openDatabase, Disk.openDatabase, hspot, hnext]
  split
  · exact ⟨rfl, h⟩
  · exact h.openFile file _
  · exact (h.addFile _ _ (.text [])).openTable _ fun _ _ => rfl

theorem Matches.openStore (h : disk.Matches key other) (root : Path) (name : Name)
    (cache : UInt64) :
    InStep (Matches key) (disk.openStore root name cache) (other.openStore root name cache) := by
  obtain ⟨result, made, made', hm, hm', hmade⟩ := (h.makeDirectories (Path.join root name)).elim
  rw [Disk.openStore, Disk.openStore, hm, hm']
  cases result with
  | error e => exact ⟨rfl, hmade⟩
  | ok _ =>
    cases Cache.bytes? cache with
    | none => exact ⟨rfl, hmade⟩
    | some _ =>
      obtain ⟨result, opened, opened', ho, ho', hopened⟩ :=
        (hmade.openDatabase (databasePath root name)).elim
      simp only [ho, ho']
      cases result <;> exact ⟨rfl, hopened⟩

end Disk

/-! ### Instances -/

/-- Hosts that have given out the same identifiers, with disks that match. -/
structure Host.Matches (key : Bytes) (host other : Host) : Prop where
  lastId : other.lastId = host.lastId
  disk : host.disk.Matches key other.disk

namespace Instance
open Disk (Matches)

variable {disk other : Disk} {genesis : Genesis} {hash : Hash}

theorem persistMerged_matches {store other : Store}
    (h : store.Matches (Key.config hash).encode other) (name : Name) (config : ChainConfig)
    (override override' : Json.Fields) :
    InStep (Store.Matches (Key.config hash).encode) (persistMerged store name hash config override)
      (persistMerged other name hash config override') := by
  obtain ⟨result, after, after', hp, hp', hafter⟩ :=
    (h.put (config.mergedBytes override) (config.mergedBytes override')).elim
  rw [persistMerged, persistMerged, Store.persistMerged, Store.persistMerged, hp, hp']
  cases result <;> exact ⟨rfl, hafter⟩

theorem initStore_matches (h : disk.Matches (Key.config hash).encode other) (directory : Path)
    (store : Name) (genesis : Genesis) (cache : UInt64) :
    InStep (Matches (Key.config hash).encode) (initStore disk directory store genesis cache)
      (initStore other directory store genesis cache) := by
  obtain ⟨result, opened, opened', ho, ho', hopened⟩ := (h.openStore directory store cache).elim
  rw [initStore, initStore, ho, ho']
  cases result with
  | error e => exact ⟨rfl, hopened⟩
  | ok handle =>
    obtain ⟨result, written, written', hw, hw', hwritten⟩ :=
      (hopened.withStore handle.file fun _ _ hs => hs.setup genesis).elim
    simp only [hw, hw']
    cases result with
    | error e => exact ⟨rfl, hwritten.close handle⟩
    | ok _ => exact ⟨rfl, hwritten⟩

theorem hash_of_initStore {after : Disk} {directory : Path} {store : Name} {cache : UInt64}
    {opened : InitializedStore}
    (h : initStore disk directory store genesis cache = (.ok opened, after)) :
    opened.hash = genesis.hash := by
  rw [initStore] at h
  rcases ho : disk.openStore directory store cache with ⟨_ | handle, disk'⟩
  · simp [ho] at h
  rcases hw : disk'.withStore handle.file fun s => s.setup genesis with ⟨_ | result, written⟩
  · simp [ho, hw] at h
  · have hs : ((disk'.store handle.file).setup genesis).1 = .ok result := congrArg Prod.fst hw
    simp only [ho, hw, Prod.mk.injEq, Except.ok.injEq] at h
    rw [← h.1]
    exact congrArg Prod.snd (Store.setup_ok genesis (Prod.ext hs rfl)).1

/-- Whatever the two write for the configuration record. -/
theorem setupStore_matches (h : disk.Matches (Key.config genesis.hash).encode other)
    (directory : Path) (override override' : Json.Fields) (cache : UInt64) (store : Name) :
    InStep (Matches (Key.config genesis.hash).encode)
      (setupStore disk directory ⟨genesis, override⟩ cache store)
      (setupStore other directory ⟨genesis, override'⟩ cache store) := by
  obtain ⟨result, after, after', hi, hi', hafter⟩ :=
    (initStore_matches h directory store genesis cache).elim
  rw [setupStore, setupStore, hi, hi']
  cases result with
  | error e => exact ⟨rfl, hafter⟩
  | ok opened =>
    have hhash := hash_of_initStore hi
    obtain ⟨result, last, last', hp, hp', hlast⟩ :=
      (hafter.withStore opened.handle.file fun _ _ hs =>
        persistMerged_matches hs store opened.config override override').elim
    simp only [hhash, hp, hp']
    exact ⟨rfl, hlast.close opened.handle⟩

theorem setupStores_matches (h : disk.Matches (Key.config genesis.hash).encode other)
    (directory : Path) (override override' : Json.Fields) (cache : UInt64) (stores : List Name) :
    InStep (Matches (Key.config genesis.hash).encode)
      (setupStores disk directory ⟨genesis, override⟩ cache stores)
      (setupStores other directory ⟨genesis, override'⟩ cache stores) := by
  induction stores generalizing disk other with
  | nil => exact ⟨rfl, h⟩
  | cons store rest ih =>
    obtain ⟨result, after, after', hs, hs', hafter⟩ :=
      (setupStore_matches h directory override override' cache store).elim
    rw [setupStores, setupStores, hs, hs']
    cases result with
    | error e => exact ⟨rfl, hafter⟩
    | ok _ => exact ih hafter

theorem provision_matches (disk : Disk) (request : Request) {text text' : List Char}
    {parsed other : ParsedGenesis} (hparse : ParsedGenesis.parse text = .ok parsed)
    (hother : ParsedGenesis.parse text' = .ok other) (same : other.genesis = parsed.genesis) :
    InStep (Matches (Key.config parsed.genesis.hash).encode)
      (provision disk { request with genesis := text })
      (provision disk { request with genesis := text' }) := by
  obtain ⟨genesis, override⟩ := parsed
  obtain ⟨_, override'⟩ := other
  cases same
  rcases hresolve : resolveDirectory disk request.dataDirectory with ⟨_ | dataDirectory, made⟩
  · simp only [provision, hresolve]
    exact ⟨rfl, .refl _ _⟩
  rcases hvacant : isVacant made (Path.join dataDirectory request.name) with _ | _ | _
  · simp only [provision, hresolve, hvacant]
    exact ⟨rfl, .refl _ _⟩
  · simp only [provision, hresolve, hvacant]
    exact ⟨rfl, .refl _ _⟩
  · have hmade := Matches.refl (Key.config genesis.hash).encode made
    obtain ⟨result, after, after', hs, hs', hafter⟩ :=
      (setupStores_matches hmade (Path.join dataDirectory request.name) override override'
        request.cache storeNames).elim
    simp only [provision, hresolve, hvacant, hparse, hother, hs, hs']
    exact ⟨rfl, hafter⟩

/-- Only what is read from the text of a document matters. -/
theorem create_congr (host : Host) (clock : Int) (request : Request) {text text' : List Char}
    {parsed : ParsedGenesis} (hparse : ParsedGenesis.parse text = .ok parsed)
    (hother : ParsedGenesis.parse text' = .ok parsed) :
    create host clock { request with genesis := text } =
      create host clock { request with genesis := text' } := by
  have hprovision : provision host.disk { request with genesis := text } =
      provision host.disk { request with genesis := text' } := by
    rcases hresolve : resolveDirectory host.disk request.dataDirectory with
      ⟨_ | dataDirectory, made⟩
    · simp only [provision, hresolve]
    rcases hvacant : isVacant made (Path.join dataDirectory request.name) with _ | _ | _
    · simp only [provision, hresolve, hvacant]
    · simp only [provision, hresolve, hvacant]
    · rcases hs : setupStores made (Path.join dataDirectory request.name) parsed request.cache
        storeNames with ⟨result, after⟩
      simp only [provision, hresolve, hvacant, hparse, hother, hs]
  rw [create, create, hprovision]

/-- **Two instances that are made from documents with one genesis are the same but for the
configuration records.** -/
theorem create_matches (host : Host) (clock : Int) (request : Request) {text text' : List Char}
    {parsed other : ParsedGenesis} (hparse : ParsedGenesis.parse text = .ok parsed)
    (hother : ParsedGenesis.parse text' = .ok other) (same : other.genesis = parsed.genesis) :
    InStep (Host.Matches (Key.config parsed.genesis.hash).encode)
      (create host clock { request with genesis := text })
      (create host clock { request with genesis := text' }) := by
  obtain ⟨result, after, after', hp, hp', hafter⟩ :=
    (provision_matches host.disk request hparse hother same).elim
  rw [create, create, hp, hp']
  cases result with
  | error e => exact ⟨rfl, rfl, hafter⟩
  | ok dataDirectory => exact ⟨rfl, rfl, hafter⟩

end Instance
end Provision
