import Provision.Instance.Report
import Provision.Proofs.Merging
import Provision.Proofs.Spellings
import Provision.Proofs.Standing

/-! Looking at an instance that has just been made.

Looking leaves the disk as it is, `inspect_disk`, and finds each store that stands.
`inspect_create_iff` says when it finds in every store what the document says: the hash of the
genesis block and the whole configuration. It looks for the block under number zero, and the
block of a document with another number stands elsewhere. -/
namespace Provision.Instance

variable {disk : Disk} {directory : Path} {store : Name}

/-! ### Looking changes nothing -/

theorem close_hold (disk : Disk) (handle : Handle) :
    (disk.hold handle.file).close handle = disk := by
  show { disk with held := (handle.file :: disk.held).erase handle.file } = disk
  rw [List.erase_cons_head]

theorem reopen_cases (disk : Disk) (directory : Path) (store : Name) (id : Nat) :
    (∃ e, disk.reopen directory store id = (.error e, disk)) ∨
      disk.reopen directory store id =
        (.ok ⟨store, Path.join directory store, id⟩, disk.hold id) := by
  rw [Disk.reopen]
  split
  · exact .inl ⟨_, rfl⟩
  split
  · exact .inr rfl
  · exact .inr rfl
  · exact .inl ⟨_, rfl⟩

theorem inspectStore_disk (disk : Disk) (directory : Path) (store : Name) :
    (inspectStore disk directory store).2 = disk := by
  unfold inspectStore
  split
  · rfl
  · next id _ =>
    rcases reopen_cases disk directory store id with ⟨e, hreopen⟩ | hreopen
    · rw [hreopen]
    · rw [hreopen]
      exact close_hold disk ⟨store, Path.join directory store, id⟩

theorem inspectStore_eq (disk : Disk) (directory : Path) (store : Name) :
    ∃ result, inspectStore disk directory store = (result, disk) :=
  ⟨_, Prod.ext rfl (inspectStore_disk disk directory store)⟩

theorem inspectStores_disk (disk : Disk) (directory : Path) (stores : List Name) :
    (inspectStores disk directory stores).2 = disk := by
  induction stores with
  | nil => rfl
  | cons store rest ih =>
    obtain ⟨result, hi⟩ := inspectStore_eq disk directory store
    rw [inspectStores, hi]
    cases result with
    | error e => rfl
    | ok report => exact ih

/-- Looking at an instance leaves the disk as it is. -/
theorem inspect_disk (disk : Disk) (dataDirectory : Path) (name : Name) :
    (inspect disk dataDirectory name).2 = disk :=
  inspectStores_disk disk _ _

/-! ### What is found -/

/-- A report on every store, and nothing that ended it before. -/
def reported (stores : List Name) (report : StoreReport) : Inspection where
  stores := stores.map fun store => (store, some report)

theorem inspectStores_eq_iff (stores : List Name) (report : StoreReport) :
    (inspectStores disk directory stores).1 = reported stores report ↔
      ∀ store ∈ stores, (inspectStore disk directory store).1 = .ok (some report) := by
  induction stores with
  | nil => simp [inspectStores, reported]
  | cons store rest ih =>
    obtain ⟨result, hi⟩ := inspectStore_eq disk directory store
    rw [inspectStores, List.forall_mem_cons, ← ih, hi]
    cases result with
    | error e => simp [reported]
    | ok found =>
      dsimp only
      generalize inspectStores disk directory rest = inspected
      obtain ⟨⟨others, failure⟩, final⟩ := inspected
      simp [reported, and_assoc]

/-! ### What is found in one store -/

/-- A store that stands nowhere that its path leads has no report. -/
theorem inspectStore_of_error {e : FileError}
    (h : disk.locate (databasePath directory store) = .error e) :
    (inspectStore disk directory store).1 = .ok none := by
  have hfind : disk.findStore directory store = .error (.missing
      (String.ofList (databasePath directory store))) := by
    simp only [Disk.findStore, Disk.file?, h]
  simp only [inspectStore, hfind]

theorem inspectStore_of_file? {id : Nat} {table : Table}
    (hfile : disk.file? (databasePath directory store) = some id) (hfree : id ∉ disk.held)
    (hcontent : disk.contents.find? id = some (.database table)) :
    (inspectStore disk directory store).1 =
      ((reportStore { table, allowance := disk.allowance }).map some).mapError .record := by
  have hfind : disk.findStore directory store = .ok id := by
    simp only [Disk.findStore, hfile]
  have hreopen : disk.reopen directory store id =
      (.ok ⟨store, Path.join directory store, id⟩, disk.hold id) := by
    simp only [Disk.reopen, if_neg hfree, hcontent]
  have hstore : (disk.hold id).store id = { table, allowance := disk.allowance } :=
    Disk.store_of_database hcontent
  simp only [inspectStore, hfind, hreopen, hstore]

theorem inspectStore_of_located {place : Location} {table : Table}
    (hl : disk.locate (databasePath directory store) = .ok place)
    (ho : disk.Offers place table) :
    (inspectStore disk directory store).1 =
      ((reportStore { table, allowance := disk.allowance }).map some).mapError .record := by
  obtain ⟨id, hentry, hcontent, hfree⟩ := ho
  have hfile : disk.file? (databasePath directory store) = some id := by
    simp only [Disk.file?, hl, hentry]
  exact inspectStore_of_file? hfile hfree hcontent

theorem readConfig_eq_some_iff {store : Store} (readable : store.readError? = none) {hash : Hash}
    {config : Json} : store.readConfig hash = .ok (some config) ↔
      ∃ bytes, store.table.find? (Key.config hash).encode = some bytes ∧
        Json.parseBytes bytes = .ok config := by
  rw [Store.readConfig, Store.get_of_readable readable]
  cases hf : store.table.find? (Key.config hash).encode with
  | none => simp
  | some bytes => cases hp : Json.parseBytes bytes <;> simp [hp]

/-- What a store has to hold to be reported on in this way. -/
theorem reportStore_eq_iff {store : Store} (readable : store.readError? = none) {hash : Hash}
    {config : Json} : reportStore store = .ok ⟨some hash, some config⟩ ↔
      store.anchor? = some hash.bytes ∧
        ∃ bytes, store.table.find? (Key.config hash).encode = some bytes ∧
          Json.parseBytes bytes = .ok config := by
  rw [reportStore]
  cases hanchor : store.anchor? with
  | none =>
    rw [Store.canonicalHash_of_absent readable hanchor]
    simp
  | some bytes =>
    cases hb : (Fixed.ofBytes? bytes : Option Hash) with
    | none =>
      rw [Store.canonicalHash_of_malformed readable hanchor hb]
      have hne : bytes ≠ hash.bytes := by
        rintro rfl
        rw [Fixed.ofBytes?_bytes] at hb
        cases hb
      simp [hne]
    | some stored =>
      rw [Fixed.ofBytes?_eq_some_iff] at hb
      subst hb
      rw [Store.canonicalHash_of_hash readable hanchor, ← readConfig_eq_some_iff readable]
      constructor
      · intro h
        obtain ⟨found, hread, he⟩ := map_eq_ok_iff.mp h
        cases he
        exact ⟨rfl, hread⟩
      · rintro ⟨hbytes, hread⟩
        have hsame : stored = hash := Fixed.ext (Option.some.inj hbytes)
        subst hsame
        exact map_eq_ok_iff.mpr ⟨some config, hread, rfl⟩

/-! ### After a run -/

variable {parsed : ParsedGenesis}

/-- What stands under number zero after a run: the hash of the document if that is its number, and
otherwise what stood there before. -/
theorem turns_anchor {before after : Table} (h : parsed.Turns before after) :
    after.find? (Key.canonicalHash 0).encode =
      if parsed.genesis.number = 0 then some parsed.genesis.hash.bytes
      else before.find? (Key.canonicalHash 0).encode := by
  have hne : (Key.config parsed.genesis.hash).encode ≠ (Key.canonicalHash 0).encode :=
    fun he => by cases Key.encode_injective he
  rcases h with ⟨hanchor, rfl⟩ | ⟨hanchor, rfl⟩
  · rw [Dictionary.find?_insert_of_ne hne, Genesis.entries_eq,
      Genesis.find?_insertAll_entriesWith, Genesis.find?_canonicalHash]
    split <;> rfl
  · rw [Dictionary.find?_insert_of_ne hne, hanchor]
    split <;> rfl

theorem turns_anchor_iff {before after : Table} (h : parsed.Turns before after) :
    after.find? (Key.canonicalHash 0).encode = some parsed.genesis.hash.bytes ↔
      parsed.genesis.number = 0 ∨
        before.find? (Key.canonicalHash 0).encode = some parsed.genesis.hash.bytes := by
  rw [turns_anchor h]
  split
  · next hzero => simp [hzero]
  · next hnumber => simp [hnumber]

theorem turns_config {before after : Table} (h : parsed.Turns before after) :
    after.find? (Key.config parsed.genesis.hash).encode =
      some (parsed.genesis.chainConfig.mergedBytes parsed.override) := by
  rcases h with ⟨-, rfl⟩ | ⟨-, rfl⟩ <;> exact Dictionary.find?_insert_self ..

theorem provision_eq_ok {after : Disk} {request : Request} {dataDirectory : Path}
    (h : provision disk request = (.ok dataDirectory, after)) :
    ∃ made parsed, disk.makeDirectories request.dataDirectory = (.ok (), made) ∧
      Path.absolute made.workingDirectory request.dataDirectory = .ok dataDirectory ∧
        ParsedGenesis.parse request.genesis = .ok parsed ∧
          setupStores made (Path.join dataDirectory request.name) parsed request.cache
            storeNames = (.ok (), after) := by
  rw [provision, resolveDirectory] at h
  rcases hm : disk.makeDirectories request.dataDirectory with ⟨e | _, made⟩
  · simp [hm] at h
  cases ha : Path.absolute made.workingDirectory request.dataDirectory with
  | error e => simp [hm, ha, Except.mapError] at h
  | ok whole =>
    simp only [hm, ha, Except.mapError] at h
    split at h
    · cases h
    · cases h
    cases hp : ParsedGenesis.parse request.genesis with
    | error e => simp [hp] at h
    | ok parsed =>
      rcases hs : setupStores made (Path.join whole request.name) parsed request.cache storeNames
        with ⟨e | _, final⟩
      · simp [hp, hs, Except.map] at h
      · simp only [hp, hs, Except.map, Prod.mk.injEq, Except.ok.injEq] at h
        obtain ⟨rfl, rfl⟩ := h
        exact ⟨made, parsed, rfl, ha, rfl, hs⟩

theorem create_eq_ok {host host' : Host} {clock : Int} {request : Request} {receipt : Receipt}
    (h : create host clock request = (.ok receipt, host')) :
    provision host.disk request = (.ok receipt.dataDirectory, host'.disk) := by
  rw [create] at h
  rcases hp : provision host.disk request with ⟨e | dataDirectory, after⟩
  · rw [hp] at h
    cases h
  · rw [hp] at h
    cases h
    rfl

/-- Whatever was on the disk, after a run every store stands. -/
theorem created_stands {host host' : Host} (coherent : host.disk.Coherent) {clock : Int}
    {request : Request} {receipt : Receipt}
    (created : create host clock request = (.ok receipt, host')) :
    ∃ parsed, ParsedGenesis.parse request.genesis = .ok parsed ∧ host'.disk.Coherent ∧
      Path.absolute host'.disk.workingDirectory request.dataDirectory = .ok receipt.dataDirectory ∧
        Disk.checkPath request.dataDirectory = .ok () ∧ ∀ store ∈ storeNames,
          Stands parsed (Path.join receipt.dataDirectory request.name) host.disk host'.disk
            store := by
  obtain ⟨made, parsed, hmade, habsolute, hparsed, hstores⟩ :=
    provision_eq_ok (create_eq_ok created)
  have hadds := Disk.makeDirectories_adds host.disk request.dataDirectory
  have hcoherent := coherent.makeDirectories request.dataDirectory
  rw [hmade] at hadds hcoherent
  have hpath := Disk.checkPath_of_makeDirectories (Path.ne_nil_of_absolute habsolute) hmade
  obtain ⟨hafter, hspares, hall⟩ := setupStores_stands
    (Path.isAbsolute_join (Path.isAbsolute_absolute habsolute) request.name) hcoherent
    storeNames_plain storeNames_nodup hstores
  rw [← hspares.workingDirectory] at habsolute
  refine ⟨parsed, hparsed, hafter, habsolute, hpath, fun store hs => ?_⟩
  obtain ⟨hlocated, table, hturns, hoffers⟩ := hall store hs
  rw [(Disk.Spares.ofDirectories hadds []).tableAt List.not_mem_nil] at hturns
  exact ⟨hlocated, table, hturns, hoffers⟩

/-- The configuration that the document asks for. -/
def wanted (parsed : ParsedGenesis) : Json :=
  .object (parsed.genesis.chainConfig.merged parsed.override)

theorem report_eq_ok_iff {found : Except SetupError StoreReport} {report : StoreReport} :
    (found.map some).mapError InspectError.record = .ok (some report) ↔ found = .ok report := by
  cases found <;> simp [Except.map, Except.mapError]

/-- What is reported of one store after a run. -/
theorem inspectStore_stands {before after : Disk} {path whole : Path} {name : Name}
    (coherent : after.Coherent) (habsolute : Path.absolute after.workingDirectory path = .ok whole)
    (hpath : Disk.checkPath path = .ok ()) (plain : store.IsPlain)
    (fits : Json.Fits Json.mostDepth (wanted parsed))
    (h : Stands parsed (Path.join whole name) before after store) :
    (inspectStore after (Path.join path name) store).1 =
        .ok (some ⟨some parsed.genesis.hash, some (wanted parsed)⟩) ↔
      Text.Utf8.length (databasePath (Path.join path name) store) < Disk.pathBound ∧
        (parsed.genesis.number = 0 ∨
          (before.tableAt (storePlace (Path.join whole name) store)).find?
            (Key.canonicalHash 0).encode = some parsed.genesis.hash.bytes) ∧
        ∀ d, .float d ∈ (wanted parsed).numbers →
          Json.parse d.write = .ok (.number (.float d)) := by
  obtain ⟨hlocated, table, hturns, hoffers⟩ := h
  -- The path may be too long as it is given now, though the absolute one was short enough.
  by_cases short : Text.Utf8.length (databasePath (Path.join path name) store) < Disk.pathBound
  · have hl := Disk.locate_of_absolute coherent habsolute hpath plain hlocated short
    have hparse : (∃ bytes, table.find? (Key.config parsed.genesis.hash).encode = some bytes ∧
        Json.parseBytes bytes = .ok (wanted parsed)) ↔
          Json.parse (wanted parsed).print = .ok (wanted parsed) := by
      rw [turns_config hturns]
      constructor
      · rintro ⟨bytes, ⟨⟩, hp⟩
        exact hp
      · exact fun hp => ⟨_, rfl, hp⟩
    rw [inspectStore_of_located hl hoffers, report_eq_ok_iff, reportStore_eq_iff rfl, hparse,
      Json.parse_print_eq_ok_iff fits, Store.anchor?, turns_anchor_iff hturns]
    simp only [short, true_and]
  · have hnowhere : ∃ e, after.locate (databasePath (Path.join path name) store) = .error e := by
      cases hl : after.locate (databasePath (Path.join path name) store) with
      | error e => exact ⟨e, rfl⟩
      | ok place =>
        have hcheck := (Disk.locate_eq_ok_iff.mp hl).1
        exact absurd (Disk.checkPath_eq_ok_iff.mp hcheck).2.2 short
    obtain ⟨e, he⟩ := hnowhere
    rw [inspectStore_of_error he]
    simp [short]

/-- The block of a document with another number than zero is not found where it is looked for. -/
theorem inspectStore_elsewhere {before after : Disk} {path whole : Path} {name : Name}
    (coherent : after.Coherent) (habsolute : Path.absolute after.workingDirectory path = .ok whole)
    (hpath : Disk.checkPath path = .ok ()) (plain : store.IsPlain)
    (h : Stands parsed (Path.join whole name) before after store)
    (short : Text.Utf8.length (databasePath (Path.join path name) store) < Disk.pathBound)
    (hnumber : parsed.genesis.number ≠ 0)
    (hbefore : (before.tableAt (storePlace (Path.join whole name) store)).find?
      (Key.canonicalHash 0).encode = none) :
    (inspectStore after (Path.join path name) store).1 = .ok (some ⟨none, none⟩) := by
  obtain ⟨hlocated, table, hturns, hoffers⟩ := h
  have hl := Disk.locate_of_absolute coherent habsolute hpath plain hlocated short
  have hanchor : Store.anchor? { table, allowance := after.allowance } = none := by
    rw [Store.anchor?, turns_anchor hturns, if_neg hnumber]
    exact hbefore
  rw [inspectStore_of_located hl hoffers, report_eq_ok_iff, reportStore,
    Store.canonicalHash_of_absent rfl hanchor]

/-- **After a run every store is reported with the hash and the configuration of the document
exactly if** the path of each database is short enough for the one who looks, the number of the
block is zero (or the block stood under number zero before), and each floating point number in
the configuration is read back as it was. -/
theorem inspect_create_iff {host host' : Host} (coherent : host.disk.Coherent) {clock : Int}
    {request : Request} {receipt : Receipt}
    (created : create host clock request = (.ok receipt, host')) :
    ∃ parsed, ParsedGenesis.parse request.genesis = .ok parsed ∧
      ((inspect host'.disk request.dataDirectory request.name).1 =
          reported storeNames ⟨some parsed.genesis.hash, some (wanted parsed)⟩ ↔
        (∀ store ∈ storeNames, Text.Utf8.length
          (databasePath (Path.join request.dataDirectory request.name) store) < Disk.pathBound) ∧
        (parsed.genesis.number = 0 ∨ ∀ store ∈ storeNames,
          (host.disk.tableAt
            (storePlace (Path.join receipt.dataDirectory request.name) store)).find?
              (Key.canonicalHash 0).encode = some parsed.genesis.hash.bytes) ∧
        ∀ d, .float d ∈ (wanted parsed).numbers →
          Json.parse d.write = .ok (.number (.float d))) := by
  obtain ⟨parsed, hparsed, hafter, habsolute, hpath, hall⟩ := created_stands coherent created
  have hstore := fun store hs => inspectStore_stands hafter habsolute hpath
    (storeNames_plain store hs) (ParsedGenesis.fits_merged hparsed) (hall store hs)
  refine ⟨parsed, hparsed, ?_⟩
  rw [inspect, inspectStores_eq_iff]
  constructor
  · intro h
    have hparts := fun store hs => (hstore store hs).mp (h store hs)
    refine ⟨fun store hs => (hparts store hs).1, ?_,
      (hparts fullStore (List.mem_cons_self ..)).2.2⟩
    by_cases hzero : parsed.genesis.number = 0
    · exact .inl hzero
    · exact .inr fun store hs => (hparts store hs).2.1.resolve_left hzero
  · rintro ⟨hshort, hanchor, hfloats⟩ store hs
    exact (hstore store hs).mpr ⟨hshort store hs, hanchor.imp_right fun h => h store hs, hfloats⟩

/-- On an empty disk any document that is accepted makes an instance. -/
theorem created_of_accepted {genesis : List Char}
    (accepted : ParsedGenesis.parse genesis = .ok parsed) :
    ∃ receipt host', create ⟨{}, 0⟩ 0 { leastRequest with genesis } = (.ok receipt, host') ∧
      receipt.dataDirectory = ['/', 'd'] := by
  have opens : canOpen (Path.join ['/', 'd'] leastRequest.name) parsed leastRequest.cache
      { tree := [([['d']], .directory)] } storeNames := rfl
  obtain ⟨after, hprovision, -⟩ := @provision_done parsed {}
    { tree := [([['d']], .directory)] } Disk.coherent_empty { leastRequest with genesis } ['/', 'd']
    true rfl rfl rfl rfl accepted opens
  obtain ⟨receipt, host', hcreate, hdirectory, -⟩ :=
    @create_of_provision ⟨{}, 0⟩ _ _ _ hprovision 0
  exact ⟨receipt, host', hcreate, hdirectory⟩

theorem inspect_create_iff_least :
    ∃ parsed receipt host', ParsedGenesis.parse leastRequest.genesis = .ok parsed ∧
      create ⟨{}, 0⟩ 0 leastRequest = (.ok receipt, host') ∧
        (inspect host'.disk leastRequest.dataDirectory leastRequest.name).1 =
          reported storeNames ⟨some parsed.genesis.hash, some (wanted parsed)⟩ := by
  obtain ⟨found, accepted⟩ := leastRequest_accepted
  obtain ⟨receipt, host', created, -⟩ := created_of_accepted accepted
  obtain ⟨parsed, hparsed, hiff⟩ := inspect_create_iff Disk.coherent_empty created
  have hnumber : (ParsedGenesis.parse leastRequest.genesis).map (·.genesis.number) = .ok 0 :=
    eq_ok_of_toOption (by decide +kernel)
  have hfloats : (ParsedGenesis.parse leastRequest.genesis).map
      (fun parsed => (wanted parsed).numbers.all Json.Num.isNatural) = .ok true :=
    eq_ok_of_toOption (by decide +kernel)
  refine ⟨parsed, receipt, host', hparsed, created, hiff.mpr ⟨by decide, .inl ?_, ?_⟩⟩
  · rw [hparsed] at hnumber
    exact Except.ok.inj hnumber
  · intro d hd
    rw [hparsed] at hfloats
    have hall := List.all_eq_true.mp (Except.ok.inj hfloats) _ hd
    cases hall

/-- A document with number five. -/
@[irreducible]
def fifthDocument : List Char :=
  r#"{"number":5,"difficulty":0}"#.toList

/-- Both stores hold its block, and neither is reported with it. -/
theorem inspect_create_fifth :
    ∃ parsed receipt host', ParsedGenesis.parse fifthDocument = .ok parsed ∧
      create ⟨{}, 0⟩ 0 { leastRequest with genesis := fifthDocument } = (.ok receipt, host') ∧
        (inspect host'.disk leastRequest.dataDirectory leastRequest.name).1 =
            reported storeNames ⟨none, none⟩ ∧
          (inspect host'.disk leastRequest.dataDirectory leastRequest.name).1 ≠
            reported storeNames ⟨some parsed.genesis.hash, some (wanted parsed)⟩ := by
  obtain ⟨found, accepted⟩ := @accepted_of_isOk fifthDocument (by decide +kernel)
  obtain ⟨receipt, host', created, -⟩ := created_of_accepted accepted
  obtain ⟨parsed, hparsed, hafter, habsolute, hpath, hall⟩ :=
    created_stands Disk.coherent_empty created
  have hnumber : parsed.genesis.number ≠ 0 := by
    have hfive : (ParsedGenesis.parse fifthDocument).map (·.genesis.number) = .ok 5 :=
      eq_ok_of_toOption (by decide +kernel)
    change ParsedGenesis.parse fifthDocument = .ok parsed at hparsed
    rw [hparsed] at hfive
    rw [show parsed.genesis.number = 5 from Except.ok.inj hfive]
    decide
  have hnull : (inspect host'.disk leastRequest.dataDirectory leastRequest.name).1 =
      reported storeNames ⟨none, none⟩ := by
    rw [inspect, inspectStores_eq_iff]
    intro store hs
    refine inspectStore_elsewhere hafter habsolute hpath (storeNames_plain store hs) (hall store hs)
      ?_ hnumber ?_
    · revert store
      decide
    · show Dictionary.find? _ (Disk.tableAt {} _) = none
      rw [Disk.tableAt_empty]
      rfl
  refine ⟨parsed, receipt, host', hparsed, created, hnull, ?_⟩
  rw [hnull]
  intro he
  cases he

end Provision.Instance
