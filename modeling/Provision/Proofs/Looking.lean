import Provision.Command.Run
import Provision.Proofs.Indenting
import Provision.Proofs.Inspecting

/-! What is shown of the stores of an instance, whatever is on the disk.

A store breaks off the look if its database file cannot be opened, if there is no table in it to be
read, or if one of the two records that are looked for is not what it should be, `Breaks`. Otherwise
it is shown: as null if there is no such file, and else with what the two records say, `Shows`.
There is nothing else that a look depends on, and it leaves everything as it is:
`runInspect_looks`. -/
namespace Provision.Instance

/-! ### Open stores -/

/-- The report says what stands in the table: the hash under number zero, if there is one, and what
the configuration record under this hash says, if there is one. -/
structure StoreReport.Tells (report : StoreReport) (table : Table) : Prop where
  genesis : report.genesis.map Fixed.bytes = table.find? (Key.canonicalHash 0).encode
  noGenesis : report.genesis = none → report.config = none
  config : ∀ hash, report.genesis = some hash →
    report.config.map .ok = (table.find? (Key.config hash).encode).map Json.parseBytes

/-- What is wrong with what a database holds. -/
inductive Faulty (table : Table) : SetupError → Prop
  | malformedHash {bytes : Bytes} : table.find? (Key.canonicalHash 0).encode = some bytes →
    bytes.length ≠ 32 → Faulty table (.malformedHash 0)
  | config {hash : Hash} {bytes : Bytes} {e : Json.Error} :
    table.find? (Key.canonicalHash 0).encode = some hash.bytes →
      table.find? (Key.config hash).encode = some bytes → Json.parseBytes bytes = .error e →
        Faulty table (.config e)

section Store

variable {store : Store}

theorem readConfig_eq (readable : store.readError? = none) (hash : Hash) :
    store.readConfig hash =
      match (store.table.find? (Key.config hash).encode).map Json.parseBytes with
      | none => .ok none
      | some (.ok value) => .ok (some value)
      | some (.error e) => .error (.config e) := by
  rw [Store.readConfig, Store.get_of_readable readable]
  cases store.table.find? (Key.config hash).encode with
  | none => rfl
  | some bytes => cases hparse : Json.parseBytes bytes <;> simp [hparse]

theorem reportStore_of_unreadable {e : StoreError} (h : store.readError? = some e) :
    reportStore store = .error (.store e) := by
  rw [reportStore, Store.canonicalHash_of_unreadable h]

theorem reportStore_of_tells (readable : store.readError? = none) {report : StoreReport}
    (h : report.Tells store.table) : reportStore store = .ok report := by
  obtain ⟨genesis, config⟩ := report
  obtain ⟨hgenesis, hnone, hconfig⟩ := h
  cases genesis with
  | none =>
    obtain rfl : config = none := hnone rfl
    rw [reportStore, Store.canonicalHash_of_absent readable hgenesis.symm]
  | some hash =>
    have hread := readConfig_eq readable hash
    rw [← hconfig hash rfl] at hread
    rw [reportStore, Store.canonicalHash_of_hash readable hgenesis.symm]
    dsimp only
    cases config with
    | none =>
      rw [hread]
      rfl
    | some value =>
      rw [hread]
      rfl

theorem reportStore_of_faulty (readable : store.readError? = none) {e : SetupError}
    (h : Faulty store.table e) : reportStore store = .error e := by
  cases h with
  | malformedHash hbytes hlength =>
    have hmalformed : (Fixed.ofBytes? _ : Option Hash) = none := dif_neg hlength
    rw [reportStore, Store.canonicalHash_of_malformed readable hbytes hmalformed]
  | config hhash hbytes hparse =>
    rw [reportStore, Store.canonicalHash_of_hash readable hhash]
    dsimp only
    rw [readConfig_eq readable, hbytes, Option.map_some, hparse]
    rfl

/-- There is a report of a table unless something is wrong. -/
theorem tells_or_faulty (table : Table) :
    (∃ report : StoreReport, report.Tells table) ∨ ∃ e, Faulty table e := by
  cases hgenesis : table.find? (Key.canonicalHash 0).encode with
  | none => exact .inl ⟨⟨none, none⟩, hgenesis.symm, fun _ => rfl, by simp⟩
  | some bytes =>
    by_cases hlength : bytes.length = 32
    · obtain ⟨hash, rfl⟩ : ∃ hash : Hash, hash.bytes = bytes := ⟨⟨bytes, hlength⟩, rfl⟩
      cases hconfig : table.find? (Key.config hash).encode with
      | none =>
        refine .inl ⟨⟨some hash, none⟩, hgenesis.symm, by simp, ?_⟩
        rintro _ ⟨⟩
        rw [hconfig]
        rfl
      | some record =>
        cases hparse : Json.parseBytes record with
        | error e => exact .inr ⟨_, .config hgenesis hconfig hparse⟩
        | ok value =>
          refine .inl ⟨⟨some hash, some value⟩, hgenesis.symm, by simp, ?_⟩
          rintro _ ⟨⟩
          rw [hconfig]
          exact congrArg some hparse.symm
    · exact .inr ⟨_, .malformedHash hgenesis hlength⟩

end Store

/-! ### Stores on a disk -/

section Disk

variable (disk : Disk) (directory : Path) (store : Name)

/-- What is found of a store that can be looked at. -/
inductive Finds : Option StoreReport → Prop
  | missing : disk.file? (databasePath directory store) = none → Finds none
  | found {id : Nat} {table : Table} {report : StoreReport} :
    disk.file? (databasePath directory store) = some id → id ∉ disk.held →
      disk.contents.find? id = some (.database table) → report.Tells table → Finds (some report)

/-- Why a store cannot be looked at: its database is in use, it is none, it can be opened but has no
table to read, or something is wrong with what the table holds. -/
inductive Breaks : InspectError → Prop
  | held {id : Nat} : disk.file? (databasePath directory store) = some id → id ∈ disk.held →
    Breaks (.storeOpen store (.alreadyOpen (String.ofList (databasePath directory store))))
  | notDatabase {id : Nat} : disk.file? (databasePath directory store) = some id →
    id ∉ disk.held → (∀ table, disk.contents.find? id ≠ some (.database table)) →
      disk.contents.find? id ≠ some .shell → Breaks (.storeOpen store .notDatabase)
  | unreadable {id : Nat} : disk.file? (databasePath directory store) = some id →
    id ∉ disk.held → disk.contents.find? id = some .shell → Breaks (.record (.store .notDatabase))
  | record {id : Nat} {table : Table} {e : SetupError} :
    disk.file? (databasePath directory store) = some id → id ∉ disk.held →
      disk.contents.find? id = some (.database table) → Faulty table e → Breaks (.record e)

variable {disk directory store}

theorem inspectStore_of_finds {found : Option StoreReport} (h : Finds disk directory store found) :
    (inspectStore disk directory store).1 = .ok found := by
  cases h with
  | missing hfile => simp only [inspectStore, Disk.findStore, hfile]
  | found hfile hfree htable htells =>
    rw [inspectStore_of_file? hfile hfree htable, reportStore_of_tells rfl htells]
    rfl

theorem inspectStore_of_breaks {e : InspectError} (h : Breaks disk directory store e) :
    (inspectStore disk directory store).1 = .error e := by
  cases h with
  | held hfile hheld => simp only [inspectStore, Disk.findStore, hfile, Disk.reopen, if_pos hheld]
  | @notDatabase id hfile hfree hnone hnoShell =>
    have hreopen : disk.reopen directory store id = (.error .notDatabase, disk) := by
      rw [Disk.reopen, if_neg hfree]
      split
      · next table htable => exact absurd htable (hnone table)
      · next hshell => exact absurd hshell hnoShell
      · rfl
    simp only [inspectStore, Disk.findStore, hfile, hreopen]
  | @unreadable id hfile hfree hshell =>
    have hreopen : disk.reopen directory store id =
        (.ok ⟨store, Path.join directory store, id⟩, disk.hold id) := by
      simp only [Disk.reopen, if_neg hfree, hshell]
    have hreport : reportStore ((disk.hold id).store id) = .error (.store .notDatabase) :=
      reportStore_of_unreadable (Disk.readError?_of_shell hshell)
    simp only [inspectStore, Disk.findStore, hfile, hreopen, hreport]
    rfl
  | record hfile hfree htable hfaulty =>
    rw [inspectStore_of_file? hfile hfree htable, reportStore_of_faulty rfl hfaulty]
    rfl

theorem finds_or_breaks (disk : Disk) (directory : Path) (store : Name) :
    (∃ found, Finds disk directory store found) ∨ ∃ e, Breaks disk directory store e := by
  cases hfile : disk.file? (databasePath directory store) with
  | none => exact .inl ⟨none, .missing hfile⟩
  | some id =>
    by_cases hheld : id ∈ disk.held
    · exact .inr ⟨_, .held hfile hheld⟩
    by_cases hshell : disk.contents.find? id = some .shell
    · exact .inr ⟨_, .unreadable hfile hheld hshell⟩
    by_cases hdatabase : ∃ table, disk.contents.find? id = some (.database table)
    · obtain ⟨table, htable⟩ := hdatabase
      rcases tells_or_faulty table with ⟨report, htells⟩ | ⟨e, hfaulty⟩
      · exact .inl ⟨_, .found hfile hheld htable htells⟩
      · exact .inr ⟨_, .record hfile hheld htable hfaulty⟩
    · exact .inr ⟨_, .notDatabase hfile hheld
        (fun table htable => hdatabase ⟨table, htable⟩) hshell⟩

/-! ### One store after the other -/

theorem not_breaks_of_finds {found : Option StoreReport} (h : Finds disk directory store found)
    (e : InspectError) : ¬ Breaks disk directory store e := by
  intro hbreaks
  cases (inspectStore_of_finds h).symm.trans (inspectStore_of_breaks hbreaks)

theorem Breaks.unique {e other : InspectError} (h : Breaks disk directory store e)
    (hother : Breaks disk directory store other) : e = other :=
  Except.error.inj ((inspectStore_of_breaks h).symm.trans (inspectStore_of_breaks hother))

theorem inspectStores_of_finds {found : Option StoreReport}
    (h : Finds disk directory store found) (rest : List Name) :
    (inspectStores disk directory (store :: rest)).1 =
      { (inspectStores disk directory rest).1 with
        stores := (store, found) :: (inspectStores disk directory rest).1.stores } := by
  have hstore : inspectStore disk directory store = (.ok found, disk) :=
    Prod.ext (inspectStore_of_finds h) (inspectStore_disk ..)
  rw [inspectStores, hstore]

theorem inspectStores_of_breaks {e : InspectError} (h : Breaks disk directory store e)
    (rest : List Name) :
    (inspectStores disk directory (store :: rest)).1 = { failure := some e } := by
  have hstore : inspectStore disk directory store = (.error e, disk) :=
    Prod.ext (inspectStore_of_breaks h) (inspectStore_disk ..)
  rw [inspectStores, hstore]

/-- The first store that cannot be looked at is the one that is reported. -/
theorem inspectStores_failure_iff {stores : List Name} {e : InspectError} :
    (inspectStores disk directory stores).1.failure = some e ↔
      ∃ before store after, stores = before ++ store :: after ∧
        (∀ other ∈ before, ∀ e, ¬ Breaks disk directory other e) ∧
          Breaks disk directory store e := by
  induction stores with
  | nil =>
    refine iff_of_false (by simp [inspectStores]) ?_
    rintro ⟨before, store, after, h, -⟩
    exact List.append_ne_nil_of_right_ne_nil before (List.cons_ne_nil store after) h.symm
  | cons first rest ih =>
    rcases finds_or_breaks disk directory first with ⟨found, hfinds⟩ | ⟨problem, hbreaks⟩
    · rw [inspectStores_of_finds hfinds, ih]
      constructor
      · rintro ⟨before, store, after, rfl, hbefore, he⟩
        exact ⟨first :: before, store, after, rfl,
          List.forall_mem_cons.mpr ⟨not_breaks_of_finds hfinds, hbefore⟩, he⟩
      · rintro ⟨before, store, after, hstores, hbefore, he⟩
        cases before with
        | nil =>
          obtain ⟨rfl, rfl⟩ := List.cons.inj hstores
          exact absurd he (not_breaks_of_finds hfinds e)
        | cons other before =>
          obtain ⟨rfl, rfl⟩ := List.cons.inj hstores
          exact ⟨before, store, after, rfl, (List.forall_mem_cons.mp hbefore).2, he⟩
    · rw [inspectStores_of_breaks hbreaks]
      constructor
      · rintro ⟨⟩
        exact ⟨[], first, rest, rfl, List.forall_mem_nil _, hbreaks⟩
      · rintro ⟨before, store, after, hstores, hbefore, he⟩
        cases before with
        | nil =>
          obtain ⟨rfl, rfl⟩ := List.cons.inj hstores
          exact congrArg some (hbreaks.unique he)
        | cons other before =>
          obtain ⟨rfl, rfl⟩ := List.cons.inj hstores
          exact absurd hbreaks (hbefore first (List.mem_cons_self ..) problem)

theorem inspectStores_failure_none_iff {stores : List Name} :
    (inspectStores disk directory stores).1.failure = none ↔
      ∀ store ∈ stores, ∀ e, ¬ Breaks disk directory store e := by
  induction stores with
  | nil => simp [inspectStores]
  | cons first rest ih =>
    rw [List.forall_mem_cons]
    rcases finds_or_breaks disk directory first with ⟨found, hfinds⟩ | ⟨problem, hbreaks⟩
    · rw [inspectStores_of_finds hfinds]
      exact ih.trans (and_iff_right (not_breaks_of_finds hfinds)).symm
    · rw [inspectStores_of_breaks hbreaks]
      exact iff_of_false (by simp) fun h => h.1 problem hbreaks

/-- Without a failure every store has its report, in order. -/
theorem inspectStores_found {stores : List Name}
    (h : (inspectStores disk directory stores).1.failure = none) :
    List.Forall₂ (fun store entry => entry.1 = store ∧ Finds disk directory store entry.2) stores
      (inspectStores disk directory stores).1.stores := by
  induction stores with
  | nil => exact .nil
  | cons first rest ih =>
    rcases finds_or_breaks disk directory first with ⟨found, hfinds⟩ | ⟨problem, hbreaks⟩
    · rw [inspectStores_of_finds hfinds] at h ⊢
      exact .cons ⟨rfl, hfinds⟩ (ih h)
    · rw [inspectStores_of_breaks hbreaks] at h
      cases h

end Disk

/-! ### What is shown -/

/-- The figures of a hash, two for each byte. -/
def figures (hash : Hash) : List Char :=
  hash.bytes.flatMap fun byte => [Nat.digitChar (byte.toNat / 16), Nat.digitChar (byte.toNat % 16)]

theorem toText_eq (hash : Hash) : hash.toText = String.ofList ('0' :: 'x' :: figures hash) := by
  have hdigit : ∀ value < 16, Numeral.digitChar value = Nat.digitChar value := by decide
  have hpair : Bytes.Hex.pair = fun byte =>
      [Nat.digitChar (byte.toNat / 16), Nat.digitChar (byte.toNat % 16)] := by
    funext byte
    have hbyte := byte.toNat_lt
    rw [Bytes.Hex.pair, hdigit _ (by omega), hdigit _ (by omega)]
  rw [Fixed.toText, Bytes.Hex.encode, Bytes.Hex.digits, hpair, figures]

/-- The value that stands for a store in a report. -/
structure Shows (disk : Disk) (directory : Path) (store : Name) (value : Json) : Prop where
  /-- It is null exactly if there is no database file. -/
  null_iff : value = .null ↔ disk.file? (databasePath directory store) = none
  /-- Otherwise it has two members, which say what stands in the database, or are null. -/
  found : ∀ id, disk.file? (databasePath directory store) = some id →
    ∃ table genesis config, disk.contents.find? id = some (.database table) ∧
      StoreReport.Tells ⟨genesis, config⟩ table ∧
        value = .object [("config", config.getD .null), ("genesis", (genesis.map fun hash =>
          Json.string (String.ofList ('0' :: 'x' :: figures hash))).getD .null)]

theorem shows_of_finds {disk : Disk} {directory : Path} {store : Name}
    {found : Option StoreReport} (h : Finds disk directory store found) :
    Shows disk directory store ((found.map StoreReport.json).getD .null) := by
  cases h with
  | missing hfile => exact ⟨iff_of_true rfl hfile, by simp [hfile]⟩
  | @found id table report hfile hfree htable htells =>
    refine ⟨iff_of_false (by simp [StoreReport.json]) (by simp [hfile]), ?_⟩
    intro other hother
    cases hfile.symm.trans hother
    refine ⟨table, report.genesis, report.config, htable, htells, ?_⟩
    simp only [Option.map_some, Option.getD_some, StoreReport.json, toText_eq]

/-- A configuration that is told of has been read of bytes. -/
theorem StoreReport.Tells.legible {genesis : Option Hash} {config : Json} {table : Table}
    (h : StoreReport.Tells ⟨genesis, some config⟩ table) : config.Legible := by
  cases genesis with
  | none => cases h.noGenesis rfl
  | some hash =>
    obtain ⟨bytes, -, hparse⟩ := Option.map_eq_some_iff.mp (h.config hash rfl).symm
    exact Json.legible_of_parseBytes hparse

theorem Shows.legible {disk : Disk} {directory : Path} {store : Name} {value : Json}
    (h : Shows disk directory store value) : value.Legible := by
  have hnull : Json.Legible .null := fun _ hn => nomatch hn
  cases hfile : disk.file? (databasePath directory store) with
  | none =>
    rw [h.null_iff.mpr hfile]
    exact hnull
  | some id =>
    obtain ⟨table, genesis, config, -, htells, rfl⟩ := h.found id hfile
    refine Json.legible_object_iff.mpr
      (List.forall_mem_cons.mpr ⟨?_, List.forall_mem_singleton.mpr ?_⟩)
    · cases config with
      | none => exact hnull
      | some config => exact htells.legible
    · cases genesis with
      | none => exact hnull
      | some hash => exact fun _ hn => nomatch hn

theorem json_of_found {disk : Disk} {directory : Path} {inspection : Inspection}
    (h : List.Forall₂ (fun store entry => entry.1 = store ∧ Finds disk directory store entry.2)
      storeNames inspection.stores) :
    ∃ full light, Shows disk directory fullStore full ∧ Shows disk directory lightStore light ∧
      inspection.json = .object [("chaindata", full), ("lightchaindata", light)] := by
  obtain ⟨⟨_, full⟩, others, ⟨rfl, hfull⟩, hothers, hstores⟩ := List.forall₂_cons_left_iff.mp h
  obtain ⟨⟨_, light⟩, rest, ⟨rfl, hlight⟩, hrest, rfl⟩ := List.forall₂_cons_left_iff.mp hothers
  obtain rfl := List.forall₂_nil_left_iff.mp hrest
  refine ⟨_, _, shows_of_finds hfull, shows_of_finds hlight, ?_⟩
  rw [Inspection.json, hstores]
  rfl

end Provision.Instance

namespace Provision.Command
open Instance

/-- What comes of looking at the stores in a directory. -/
structure Looks (disk : Disk) (directory : Path) (result : Outcome × Disk) : Prop where
  /-- Everything stays as it is. -/
  unchanged : result.2 = disk
  /-- It fails exactly if one of the stores cannot be looked at. -/
  fails_iff : result.1.exitCode ≠ 0 ↔ ∃ store ∈ storeNames, ∃ e, Breaks disk directory store e
  /-- The first of them is the one that is reported, and nothing is shown of the others. -/
  failure : ∀ before store after e, storeNames = before ++ store :: after →
    (∀ other ∈ before, ∀ e, ¬ Breaks disk directory other e) → Breaks disk directory store e →
      result.1.exitCode = 1 ∧ result.1.output = [] ∧
        (Verbosity.error, ": ".intercalate e.chain) ∈ result.1.log
  /-- Otherwise both stores are shown, on lines of their own, and the lines are read as the text of
  one object. -/
  report : result.1.exitCode = 0 → ∃ full light : Json,
    Shows disk directory fullStore full ∧ Shows disk directory lightStore light ∧
      result.1.output =
          (Json.object [("chaindata", full), ("lightchaindata", light)]).pretty 0 ++ ['\n'] ∧
        Json.parse result.1.output =
          Json.parse (Json.object [("chaindata", full), ("lightchaindata", light)]).print

section Run

variable (disk : Disk) (options : InspectOptions)

theorem runInspect_disk : (runInspect disk options).2 = disk :=
  Instance.inspect_disk disk options.dataDir options.instanceName

variable {disk options}

theorem runInspect_of_failure {e : InspectError}
    (h : (Instance.inspect disk options.dataDir options.instanceName).1.failure = some e) :
    (runInspect disk options).1.exitCode = 1 ∧ (runInspect disk options).1.output = [] ∧
      (Verbosity.error, ": ".intercalate e.chain) ∈ (runInspect disk options).1.log := by
  simp [runInspect, h, Outcome.failure]

theorem runInspect_of_none
    (h : (Instance.inspect disk options.dataDir options.instanceName).1.failure = none) :
    (runInspect disk options).1.exitCode = 0 ∧ (runInspect disk options).1.output =
      (Instance.inspect disk options.dataDir options.instanceName).1.json.pretty 0 ++ ['\n'] := by
  simp [runInspect, h, Outcome.document]

end Run

/-- **Looking at an instance shows what stands on the disk and changes nothing,** whatever the disk
holds. -/
theorem runInspect_looks (disk : Disk) (options : InspectOptions) :
    Looks disk (Path.join options.dataDir options.instanceName) (runInspect disk options) := by
  constructor
  case unchanged => exact runInspect_disk disk options
  case fails_iff =>
    cases hfailure : (Instance.inspect disk options.dataDir options.instanceName).1.failure with
    | some e =>
      obtain ⟨before, store, after, hstores, -, hbreaks⟩ := inspectStores_failure_iff.mp hfailure
      have hmem : store ∈ storeNames := by simp [hstores]
      refine iff_of_true ?_ ⟨store, hmem, e, hbreaks⟩
      rw [(runInspect_of_failure hfailure).1]
      decide
    | none =>
      refine iff_of_false (fun h => h (runInspect_of_none hfailure).1) ?_
      rintro ⟨store, hmem, e, hbreaks⟩
      exact inspectStores_failure_none_iff.mp hfailure store hmem e hbreaks
  case failure =>
    intro before store after e hstores hbefore hbreaks
    exact runInspect_of_failure
      (inspectStores_failure_iff.mpr ⟨before, store, after, hstores, hbefore, hbreaks⟩)
  case report =>
    intro hcode
    cases hfailure : (Instance.inspect disk options.dataDir options.instanceName).1.failure with
    | some e =>
      rw [(runInspect_of_failure hfailure).1] at hcode
      cases hcode
    | none =>
      obtain ⟨full, light, hfull, hlight, hjson⟩ := json_of_found (inspectStores_found hfailure)
      have hlegible : (Json.object [("chaindata", full), ("lightchaindata", light)]).Legible :=
        Json.legible_object_iff.mpr
          (List.forall_mem_cons.mpr ⟨hfull.legible, List.forall_mem_singleton.mpr hlight.legible⟩)
      obtain ⟨again, hagain⟩ := hlegible.exists_reread
      rw [(runInspect_of_none hfailure).2, Instance.inspect, hjson]
      exact ⟨full, light, hfull, hlight, rfl, Json.parse_pretty hagain⟩

end Provision.Command
