import Provision.Proofs.Reopening

/-! Setting a store up again and again.

A store is set up in rounds: the genesis block first, then the configuration record, unless the
round stops in between. Once a store is there it can be opened again, `Ready.initStore_ok`, and
a round finds it empty or with the block in it and leaves it with the block, `Round.moments_done`.
The block is the same for all documents with one header but for the configuration record, and that
is written as a whole. So it does not matter how many rounds came before, or how far they went:
`moments_resumed`. -/
namespace Provision

/-! ### The block with one record or another -/

theorem Dictionary.erase_insert {κ υ : Type} [LT κ] [DecidableLT κ] [DecidableEq κ] (key : κ)
    (value : υ) (map : Dictionary κ υ) : (map.insert key value).erase key = map.erase key := by
  induction map with
  | nil => simp [insert, erase]
  | cons entry rest ih =>
    obtain ⟨k, v⟩ := entry
    unfold erase at ih ⊢
    unfold insert
    split
    · next hk => simp [hk]
    · next hk =>
      split
      · simp
      · simp only [List.filter_cons, ih]

namespace Genesis

variable (genesis : Genesis)

/-- Only the header says what the block is. -/
theorem blockTable_congr {genesis other : Genesis} (h : genesis.header = other.header)
    (config : Bytes) : genesis.blockTable config = other.blockTable config := by
  have hnumber : genesis.number = other.number := congrArg Header.number h
  rw [blockTable, entriesWith, recordsWith, h, hnumber]
  rfl

/-- Apart from the configuration record, the table does not depend on it. -/
theorem blockTable_erase (first second : Bytes) :
    (genesis.blockTable first).erase (Key.config genesis.hash).encode =
      (genesis.blockTable second).erase (Key.config genesis.hash).encode := by
  rw [blockTable_eq_insert, blockTable_eq_insert, Dictionary.erase_insert,
    Dictionary.erase_insert]

end Genesis

/-- Only configuration records stand under their prefix. -/
theorem Key.isPrefixOf_encode (key : Key) : configMark.isPrefixOf key.encode =
    match key with
    | .config _ => true
    | _ => false := by
  cases key with
  | config hash =>
    dsimp only
    rw [List.isPrefixOf_iff_prefix, encode]
    exact List.prefix_append _ _
  | _ => rfl

/-- The entries of a table under the prefix of configuration records. -/
def Store.configEntries (table : Table) : List (Bytes × Bytes) :=
  table.filter fun entry => Key.configMark.isPrefixOf entry.1

namespace Genesis

open Store (configEntries)

variable (genesis : Genesis)

theorem configEntries_blockTable (config : Bytes) :
    configEntries (genesis.blockTable config) = [((Key.config genesis.hash).encode, config)] := by
  have hentries : configEntries (genesis.entriesWith config) =
      [((Key.config genesis.hash).encode, config)] := by
    simp [configEntries, entriesWith, recordsWith, Key.isPrefixOf_encode, hash]
  have hperm : (configEntries (genesis.blockTable config)).Perm
      [((Key.config genesis.hash).encode, config)] := by
    rw [← hentries]
    exact (genesis.blockTable_perm config).filter _
  exact List.perm_singleton.mp hperm

/-- Writing all the records over the block leaves the block with the new configuration record. -/
theorem insertAll_blockTable (first second : Bytes) :
    (genesis.blockTable first).insertAll (genesis.entriesWith second) =
      genesis.blockTable second := by
  have hfirst : (genesis.blockTable first).Ascending := Dictionary.Ascending.insertAll .nil _
  have hsecond : (genesis.blockTable second).Ascending := Dictionary.Ascending.insertAll .nil _
  have hfind : ∀ config key, Dictionary.find? key (genesis.blockTable config) =
      Dictionary.find? key (genesis.entriesWith config) := by
    intro config key
    rw [blockTable, Dictionary.ofList,
      Dictionary.find?_insertAll_of_nodup [] (genesis.entriesWith_keys_nodup config),
      Dictionary.find?_nil, Option.or_none]
  refine (hfirst.insertAll _).ext hsecond fun key => ?_
  rw [Dictionary.find?_insertAll_of_nodup _ (genesis.entriesWith_keys_nodup second), hfind, hfind]
  -- Where the second block has nothing the first one has nothing either.
  cases hentry : Dictionary.find? key (genesis.entriesWith second) with
  | some value => rfl
  | none =>
    have hkeys : (genesis.entriesWith first).map Prod.fst =
        (genesis.entriesWith second).map Prod.fst := rfl
    rw [Dictionary.find?_eq_none_iff, ← hkeys, ← Dictionary.find?_eq_none_iff] at hentry
    exact hentry

/-- A table with nothing in it, or with the block in it. -/
def StartsFrom (genesis : Genesis) (table : Table) : Prop :=
  table = [] ∨ ∃ config, table = genesis.blockTable config

theorem anchor?_blockTable {store : Store} {config : Bytes}
    (h : store.table = genesis.blockTable config) :
    store.anchor? = if genesis.number = 0 then some genesis.hash.bytes else none := by
  have hfind := genesis.find?_insertAll_entriesWith config [] (.canonicalHash 0)
  rw [find?_canonicalHash, Dictionary.find?_nil, Option.or_none] at hfind
  rw [Store.anchor?, h]
  exact hfind

/-- Whether the block is found under number zero and gets its configuration record anew, or is not
found there and is written once more: it is there with the configuration of the document. -/
theorem setup_startsFrom {store : Store} (readable : store.readError? = none)
    (unlimited : store.allowance = none) (h : genesis.StartsFrom store.table) :
    ∃ after, store.setup genesis = (.ok (genesis.chainConfig, genesis.hash), after) ∧
      after.table = genesis.blockTable genesis.chainConfig.bytes ∧ after.allowance = none := by
  have hspend : store.allowance.spend? = some none := by
    rw [unlimited]
    rfl
  cases hanchor : store.anchor? with
  | none =>
    rcases Store.setup_absent_cases genesis readable hanchor with ⟨hnone, -⟩ | ⟨left, hleft, hs⟩
    · rw [hspend] at hnone
      cases hnone
    · rw [hspend, Option.some.injEq] at hleft
      refine ⟨_, hs, ?_, hleft.symm⟩
      rw [Store.written_batch_table, entries_eq]
      rcases h with h | ⟨config, h⟩ <;> rw [h]
      · rfl
      · exact genesis.insertAll_blockTable config _
  | some bytes =>
    have hthere : ∃ config, store.table = genesis.blockTable config := by
      rcases h with h | h
      · rw [Store.anchor?, h] at hanchor
        cases hanchor
      · exact h
    obtain ⟨config, htable⟩ := hthere
    have hsame : store.anchor? = some genesis.hash.bytes := by
      rw [genesis.anchor?_blockTable htable] at hanchor ⊢
      split at hanchor
      · next hzero => rw [if_pos hzero]
      · cases hanchor
    rcases Store.setup_same_cases genesis readable hsame with ⟨hnone, -⟩ | ⟨left, hleft, hs⟩
    · rw [hspend] at hnone
      cases hnone
    · rw [hspend, Option.some.injEq] at hleft
      refine ⟨_, hs, ?_, hleft.symm⟩
      rw [Store.written_put_table, htable, insert_config]

end Genesis

namespace Instance

open Disk

variable {directory : Path} {store : Name} {disk : Disk}

theorem bytes?_of_openStore {cache : UInt64} (h : (disk.openStore directory store cache).1.isOk) :
    (Cache.bytes? cache).isSome := by
  rw [openStore] at h
  generalize Cache.bytes? cache = bytes at h ⊢
  cases bytes with
  | some bytes => rfl
  | none =>
    rcases hm : disk.makeDirectories (Path.join directory store) with ⟨_ | _, made⟩ <;>
      simp [hm, Except.isOk, Except.toBool] at h

/-! ### Rounds -/

/-- A document that a store is set up with. Either the configuration record is written too, or the
round stops when the genesis block is there. -/
structure Round where
  parsed : ParsedGenesis
  cache : UInt64 := 0
  completed : Bool := true

/-- A call of a round has come to its end. -/
structure Moment where
  parsed : ParsedGenesis
  /-- Was it the call that writes the configuration record? -/
  merges : Bool
  result : Except (Halt InstanceError) Unit
  disk : Disk

/-- The configuration record that the call writes, which depends on its own document only. -/
def Moment.record (moment : Moment) : Bytes :=
  let config := moment.parsed.genesis.chainConfig
  if moment.merges then config.mergedBytes moment.parsed.override else config.bytes

/-- The calls of a round. At the end of it the store is closed. -/
def Round.moments (directory : Path) (store : Name) (disk : Disk) (round : Round) : List Moment :=
  match initStore disk directory store round.parsed.genesis round.cache with
  | (.error e, disk) => [⟨round.parsed, false, .error e, disk⟩]
  | (.ok opened, disk) =>
    if round.completed then
      let (result, after) := disk.withStore opened.handle.file fun s =>
        persistMerged s store opened.hash opened.config round.parsed.override
      [⟨round.parsed, false, .ok (), disk⟩,
        ⟨round.parsed, true, result.mapError .failed, after.close opened.handle⟩]
    else [⟨round.parsed, false, .ok (), disk.close opened.handle⟩]

/-- The calls of rounds, each round on the disk that the one before has left. -/
def moments (directory : Path) (store : Name) : Disk → List Round → List Moment
  | _, [] => []
  | disk, round :: rest =>
    let calls := round.moments directory store disk
    calls ++ moments directory store (disk.last (calls.map Moment.disk)) rest

/-- The call has gone through, and has left the block of its document with the configuration record
that it writes. -/
structure Moment.Done (place : Location) (moment : Moment) : Prop where
  result : moment.result = .ok ()
  table : moment.disk.tableAt place = moment.parsed.genesis.blockTable moment.record

/-- What the calls need of a disk: it has room for these caches, refuses nothing, and gives no
number of a file twice. -/
structure Ready (directory : Path) (store : Name) (rounds : List Round) (disk : Disk) : Prop where
  opens : ∀ round ∈ rounds, (disk.openStore directory store round.cache).1.isOk
  unlimited : disk.allowance = none
  fresh : ∀ id, disk.entry? (storePlace directory store) = some (.file id) → id < disk.nextFile
  held : ∀ id ∈ disk.held, id < disk.nextFile

/-- Once the store has been opened, and whatever has been written since, the disk is as ready as
before. -/
theorem Ready.afterwards {rounds : List Round} (ready : Ready directory store rounds disk)
    {handle : Handle} {opened : Disk} {before : Table}
    (hopened : Opened (databasePath directory store) (storePlace directory store) handle.file
      before disk opened) {after : Disk} {table : Table}
    (hholds : Holds (storePlace directory store) handle.file (.database table) opened after)
    (held : after.held = opened.held) (unlimited : after.allowance = none) :
    Ready directory store rounds (after.close handle) := by
  have hclosed := hholds.close handle
  have hheld : (after.close handle).held = disk.held := by
    show after.held.erase handle.file = disk.held
    rw [held, hopened.held, List.erase_cons_head]
  have hextends := hclosed.grows.toExtends
  have hfound : (after.close handle).file? (databasePath directory store) = some handle.file :=
    file?_eq_some_iff.mpr ⟨_, hextends.locate hopened.located, hclosed.entry⟩
  have hfree : handle.file ∉ (after.close handle).held := by
    rw [hheld]
    exact hopened.free ready.held
  have hspend : (after.close handle).allowance.spend?.isSome := by
    show after.allowance.spend?.isSome
    rw [unlimited]
    rfl
  refine ⟨fun round hround => ?_, unlimited, ?_, ?_⟩
  · have hroom := bytes?_of_openStore (ready.opens round hround)
    rw [(opening_free hfound (.table hclosed.content) hfree hroom).1 hspend]
    rfl
  · intro id hentry
    rw [hclosed.entry] at hentry
    cases hentry
    exact hclosed.next
  · intro id hid
    rw [hheld] at hid
    exact Nat.lt_of_lt_of_le (ready.held id hid)
      (Nat.le_trans hopened.holds.grows.nextFile hclosed.grows.nextFile)

section Step

variable (absolute : Path.isAbsolute directory) (plain : store.IsPlain)

include absolute plain

/-- The block is in the store when the first call of a round comes to its end. -/
theorem Ready.initStore_ok {rounds : List Round} (ready : Ready directory store rounds disk)
    {round : Round} (hround : round ∈ rounds)
    (h : round.parsed.genesis.StartsFrom (disk.tableAt (storePlace directory store))) :
    ∃ handle opened before written,
      disk.openStore directory store round.cache = (.ok handle, opened) ∧
      Opened (databasePath directory store) (storePlace directory store) handle.file before disk
        opened ∧
      initStore disk directory store round.parsed.genesis round.cache =
        (.ok ⟨handle, round.parsed.genesis.chainConfig, round.parsed.genesis.hash⟩, written) ∧
      Holds (storePlace directory store) handle.file
        (.database (round.parsed.genesis.blockTable round.parsed.genesis.chainConfig.bytes)) opened
          written ∧
      written.held = opened.held ∧ written.allowance = none := by
  have hopens := ready.opens round hround
  rcases ho : disk.openStore directory store round.cache with ⟨_ | handle, opened⟩
  · rw [ho] at hopens
    cases hopens
  obtain ⟨before, hopened⟩ := openStore_ok (follow_databasePath absolute plain) ready.fresh ho
  have hunlimited : opened.allowance = none := by
    have hspend := hopened.allowance
    rw [ready.unlimited] at hspend
    exact (Option.some.inj hspend).symm
  rw [hopened.tableAt] at h
  obtain ⟨stored, hs, htable, hfree⟩ := @Genesis.setup_startsFrom round.parsed.genesis
    { table := before, allowance := opened.allowance } rfl hunlimited h
  have hkept := @Store.setup_hasTable { table := before, allowance := opened.allowance }
    round.parsed.genesis rfl
  rw [hs] at hkept
  obtain ⟨written, hw, hwritten, hheld, hallowance⟩ :=
    hopened.holds.restart.withStore (fun s => s.setup round.parsed.genesis) hs hkept
  rw [htable] at hwritten
  refine ⟨handle, opened, before, written, rfl, hopened, ?_, hwritten, hheld,
    hallowance.trans hfree⟩
  rw [initStore, ho]
  dsimp only
  rw [hw]

/-- **One round**, on a store that is empty or has a block of the same header. -/
theorem Round.moments_done {rounds : List Round} (ready : Ready directory store rounds disk)
    {round : Round} (hround : round ∈ rounds)
    (h : round.parsed.genesis.StartsFrom (disk.tableAt (storePlace directory store))) :
    (∀ moment ∈ round.moments directory store disk,
      moment.parsed = round.parsed ∧ moment.Done (storePlace directory store)) ∧
    Ready directory store rounds
      (disk.last ((round.moments directory store disk).map Moment.disk)) ∧
    ∃ config, (disk.last ((round.moments directory store disk).map Moment.disk)).tableAt
      (storePlace directory store) = round.parsed.genesis.blockTable config := by
  obtain ⟨handle, opened, before, written, ho, hopened, hinit, hwritten, hheld, hallowance⟩ :=
    ready.initStore_ok absolute plain hround h
  cases hcompleted : round.completed with
  | false =>
    have hmoments : round.moments directory store disk =
        [⟨round.parsed, false, .ok (), written.close handle⟩] := by
      rw [moments, hinit]
      simp [hcompleted]
    have hclosed := hwritten.close handle
    rw [hmoments]
    refine ⟨List.forall_mem_singleton.mpr ⟨rfl, rfl, ?_⟩,
      ready.afterwards hopened hwritten hheld hallowance,
      round.parsed.genesis.chainConfig.bytes, ?_⟩
    · exact hclosed.tableAt
    · exact hclosed.tableAt
  | true =>
    rcases configRecord_cases hwritten store round.parsed.genesis.hash
      round.parsed.genesis.chainConfig round.parsed.override with
      ⟨e, _, -, hnone, -⟩ | ⟨last, hp, hspend, hheld', hlast⟩
    · rw [hallowance] at hnone
      cases hnone
    have hmoments : round.moments directory store disk =
        [⟨round.parsed, false, .ok (), written⟩,
          ⟨round.parsed, true, .ok (), last.close handle⟩] := by
      rw [moments, hinit]
      simp [hcompleted, hp, Except.mapError]
    rw [hallowance] at hspend
    have hclosed := hlast.close handle
    rw [Genesis.insert_config] at hclosed
    rw [hmoments]
    refine ⟨List.forall_mem_cons.mpr ⟨⟨rfl, rfl, ?_⟩,
      List.forall_mem_singleton.mpr ⟨rfl, rfl, ?_⟩⟩,
      ready.afterwards hopened hlast (hheld'.trans hheld)
        (Option.some.inj hspend).symm,
      round.parsed.genesis.chainConfig.mergedBytes round.parsed.override, ?_⟩
    · exact hwritten.tableAt
    · exact hclosed.tableAt
    · exact hclosed.tableAt

/-- **A run of rounds**, on a store that is empty or has the block. -/
theorem moments_done {rounds : List Round} {header : Header}
    (headers : ∀ round ∈ rounds, round.parsed.genesis.header = header) {others : List Round}
    (among : ∀ round ∈ rounds, round ∈ others) (ready : Ready directory store others disk)
    (h : ∀ genesis : Genesis, genesis.header = header →
      genesis.StartsFrom (disk.tableAt (storePlace directory store))) :
    ∀ moment ∈ moments directory store disk rounds,
      moment.parsed.genesis.header = header ∧ moment.Done (storePlace directory store) := by
  induction rounds generalizing disk with
  | nil => exact List.forall_mem_nil _
  | cons round rest ih =>
    have hheader := headers round (List.mem_cons_self ..)
    obtain ⟨hdone, hready, config, htable⟩ := Round.moments_done absolute plain ready
      (among round (List.mem_cons_self ..)) (h _ hheader)
    rw [moments, List.forall_mem_append]
    refine ⟨fun moment hm => ?_, ih (fun other ho => headers other (List.mem_cons_of_mem _ ho))
      (fun other ho => among other (List.mem_cons_of_mem _ ho)) hready ?_⟩
    · obtain ⟨hparsed, hdone⟩ := hdone moment hm
      rw [hparsed]
      exact ⟨hheader, hdone⟩
    · intro genesis hgenesis
      refine .inr ⟨config, htable.trans ?_⟩
      exact Genesis.blockTable_congr (hheader.trans hgenesis.symm) config

end Step

/-! ### What the rounds leave -/

/-- What can be said of a store while it is set up again and again. -/
structure Resumed (hash : Hash) (place : Location) (moments : List Moment) : Prop where
  /-- Every call goes through. -/
  results : ∀ moment ∈ moments, moment.result = .ok ()
  /-- From the end of the first call on nothing changes but the configuration record. -/
  kept : ∀ moment ∈ moments, ∀ later ∈ moments,
    (moment.disk.tableAt place).erase (Key.config hash).encode =
      (later.disk.tableAt place).erase (Key.config hash).encode
  /-- There is exactly one, and it is the one of the last call alone. -/
  config : ∀ moment ∈ moments, Store.configEntries (moment.disk.tableAt place) =
    [((Key.config hash).encode, moment.record)]
  /-- The same call with the same document leaves the same store, as often as it is made. -/
  again : ∀ moment ∈ moments, ∀ later ∈ moments, later.parsed = moment.parsed →
    later.merges = moment.merges → later.disk.tableAt place = moment.disk.tableAt place

/-- **Setting up can be resumed.** Rounds with documents that have one header, on a store that is
empty at first. -/
theorem moments_resumed (absolute : Path.isAbsolute directory) (plain : store.IsPlain)
    (coherent : disk.Coherent) (unlimited : disk.allowance = none)
    (empty : disk.tableAt (storePlace directory store) = []) {rounds : List Round}
    (opens : ∀ round ∈ rounds, (disk.openStore directory store round.cache).1.isOk)
    {header : Header} (headers : ∀ round ∈ rounds, round.parsed.genesis.header = header) :
    Resumed header.hash (storePlace directory store) (moments directory store disk rounds) := by
  have hready : Ready directory store rounds disk :=
    ⟨opens, unlimited, fun _ hentry => coherent.lt_nextFile hentry, coherent.held⟩
  have hdone := moments_done absolute plain headers (fun _ h => h) hready
    fun _ _ => .inl empty
  have htable : ∀ moment ∈ moments directory store disk rounds,
      ∀ later ∈ moments directory store disk rounds,
        later.disk.tableAt (storePlace directory store) =
          moment.parsed.genesis.blockTable later.record := by
    intro moment hm later hl
    rw [(hdone later hl).2.table]
    exact Genesis.blockTable_congr ((hdone later hl).1.trans (hdone moment hm).1.symm) _
  refine ⟨fun moment hm => (hdone moment hm).2.result, fun moment hm later hl => ?_,
    fun moment hm => ?_, fun moment hm later hl hparsed hmerges => ?_⟩
  · rw [htable moment hm moment hm, htable moment hm later hl, ← (hdone moment hm).1]
    exact Genesis.blockTable_erase _ _ _
  · rw [htable moment hm moment hm, ← (hdone moment hm).1]
    exact Genesis.configEntries_blockTable _ _
  · have hrecord : later.record = moment.record := by
      rw [Moment.record, Moment.record, hparsed, hmerges]
    rw [htable moment hm moment hm, htable moment hm later hl, hrecord]

/-- Two documents that differ in their configurations only; the first round with the second one
stops half way. -/
def resumedRounds : List Round :=
  let first : ParsedGenesis := ⟨{ config := some { chainId := some 7 }, difficulty := some 0 },
    [("chainId", .natural 7), ("rate", .natural 2)]⟩
  let second : ParsedGenesis := ⟨{ config := some { chainId := some 8 }, difficulty := some 0 },
    [("chainId", .natural 8)]⟩
  [⟨first, 0, true⟩, ⟨second, 0, false⟩, ⟨second, 0, true⟩]

theorem moments_resumed_three :
    Disk.Coherent {} ∧ ∃ header : Header,
      (∀ round ∈ resumedRounds, round.parsed.genesis.header = header) ∧
      Resumed header.hash (storePlace ['/', 'd'] fullStore)
        (moments ['/', 'd'] fullStore {} resumedRounds) := by
  have hopens : ∀ round ∈ resumedRounds,
      (Disk.openStore {} ['/', 'd'] fullStore round.cache).1.isOk := by
    decide +kernel
  let header : Header := Genesis.header { config := some {}, difficulty := some 0 }
  have hheaders : ∀ round ∈ resumedRounds, round.parsed.genesis.header = header := by
    simp only [resumedRounds, List.forall_mem_cons]
    exact ⟨rfl, rfl, rfl, List.forall_mem_nil _⟩
  exact ⟨Disk.coherent_empty, header, hheaders, moments_resumed (by decide)
    (storeNames_plain _ (List.mem_cons_self ..)) Disk.coherent_empty rfl
    (Disk.tableAt_empty _) hopens hheaders⟩

end Instance
end Provision
